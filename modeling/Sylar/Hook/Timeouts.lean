/-
The hooked `setsockopt` for SO_RCVTIMEO and SO_SNDTIMEO.

It stores the timeval as milliseconds in the context of the descriptor, and then calls setsockopt_f, whose result is up to
the kernel. `do_io` reads the timeout of its direction from the context, where ~0 is none; for the kernel a timeval of zeros
is none. A long that overflows has no value.

Results:
- `setTimeout_timeout`: `do_io` uses what was stored for its direction;
- `keepsTimeouts_iff`: when the stored timeout means what the kernel means;
- `getRecvTimeout_setRecvTimeout`, `getSendTimeout_setSendTimeout`: a `Socket` reads back the milliseconds that it has set.
-/
import Sylar.Core.MachineInt
import Sylar.Hook.DoIo

namespace Sylar.Hook

open Sylar.MachineInt

/-! ## Model -/

def SOL_SOCKET : ℕ := 1

def SO_SNDTIMEO : ℕ := 21

def FdCtx.setTimeout (ctx : FdCtx) (type : ℕ) (v : UInt64) : FdCtx :=
  if type = SO_RCVTIMEO then { ctx with recvTimeout := v } else { ctx with sendTimeout := v }

structure Timeval where
  tv_sec : ℤ
  tv_usec : ℤ
deriving DecidableEq, Repr

namespace Timeval

/-- a long holds the value -/
def Long (x : ℤ) : Prop := -2 ^ 63 ≤ x ∧ x < 2 ^ 63

instance (x : ℤ) : Decidable (Long x) := by unfold Long; infer_instance

/-- `v->tv_sec * 1000 + v->tv_usec / 1000` as an uint64_t -/
def ms (v : Timeval) : Option UInt64 :=
  let sec := v.tv_sec * 1000
  let sum := sec + v.tv_usec.tdiv 1000
  if Long sec ∧ Long sum then some (UInt64.ofInt sum) else none

/-- the kernel accepts it -/
def Valid (v : Timeval) : Prop := 0 ≤ v.tv_sec ∧ 0 ≤ v.tv_usec ∧ v.tv_usec < 10 ^ 6

instance (v : Timeval) : Decidable v.Valid := by unfold Valid; infer_instance

/-- the duration in microseconds -/
def usec (v : Timeval) : ℤ := v.tv_sec * 10 ^ 6 + v.tv_usec

end Timeval

/-- `setsockopt` with a timeval behind `optval`, when setsockopt_f returns `r`: what it returns, and the context that
`FdMgr::get` finds afterwards -/
def setsockopt (hookEnable : Bool) (ctx : Option FdCtx) (level optname : ℕ) (v : Timeval) (r : Result) :
    Option (Result × Option FdCtx) :=
  if !hookEnable then some (r, ctx)
  else if level = SOL_SOCKET ∧ (optname = SO_RCVTIMEO ∨ optname = SO_SNDTIMEO) then
    match ctx with
    | none => some (r, none)
    | some ctx => v.ms.map fun ms => (r, some (ctx.setTimeout optname ms))
  else some (r, ctx)

namespace Timeouts

/-- the contract on a socket with a context -/
def KeepsTimeouts (ctx : FdCtx) (optname : ℕ) (v : Timeval) (r : Result) : Prop :=
  ∃ ctx', setsockopt true (some ctx) SOL_SOCKET optname v r = some (r, some ctx') ∧
    if r.ret = 0 then
      let timeout := (DoIo.Call.mk true (some ctx') optname).timeout
      (timeout = noTimeout ↔ v = ⟨0, 0⟩) ∧ (v ≠ ⟨0, 0⟩ → v.usec ≤ timeout.toNat * 1000)
    else ctx'.recvTimeout = ctx.recvTimeout ∧ ctx'.sendTimeout = ctx.sendTimeout

/-- when it is met: the long does not overflow, a timeout that the kernel takes is of whole milliseconds and not zero, and
one that the kernel refuses is the one stored already -/
def TimeoutRight (ctx : FdCtx) (optname : ℕ) (v : Timeval) (r : Result) : Prop :=
  v.tv_sec * 1000 + v.tv_usec / 1000 < 2 ^ 63 ∧
    if r.ret = 0 then v ≠ ⟨0, 0⟩ ∧ 1000 ∣ v.tv_usec
    else ((ctx.getTimeout optname).toNat : ℤ) = v.tv_sec * 1000 + v.tv_usec / 1000

instance (ctx : FdCtx) (optname : ℕ) (v : Timeval) (r : Result) : Decidable (TimeoutRight ctx optname v r) := by
  unfold TimeoutRight
  infer_instance

/-! ## What is stored -/

@[simp] theorem getTimeout_setTimeout (ctx : FdCtx) (type : ℕ) (v : UInt64) :
    (ctx.setTimeout type v).getTimeout type = v := by
  rw [FdCtx.setTimeout, FdCtx.getTimeout]
  split_ifs <;> rfl

/-- `do_io` uses the timeout that was stored for its direction -/
theorem setTimeout_timeout (ctx : FdCtx) (type : ℕ) (v : UInt64) (hookEnable : Bool) :
    (DoIo.Call.mk hookEnable (some (ctx.setTimeout type v)) type).timeout = v := getTimeout_setTimeout ctx type v

/-- both timeouts stay when the new one was stored already, and only then -/
theorem setTimeout_unchanged_iff (ctx : FdCtx) (type : ℕ) (v : UInt64) :
    ((ctx.setTimeout type v).recvTimeout = ctx.recvTimeout ∧ (ctx.setTimeout type v).sendTimeout = ctx.sendTimeout) ↔
      ctx.getTimeout type = v := by
  rw [FdCtx.setTimeout, FdCtx.getTimeout]
  split_ifs
  · simp [eq_comm]
  · simp [eq_comm]

/-- the milliseconds of a valid timeval -/
theorem ms_of_valid {v : Timeval} (hv : v.Valid) :
    v.ms = if v.tv_sec * 1000 + v.tv_usec / 1000 < 2 ^ 63 then
      some (UInt64.ofInt (v.tv_sec * 1000 + v.tv_usec / 1000)) else none := by
  obtain ⟨hsec, husec, hlt⟩ := hv
  have hdiv : v.tv_usec.tdiv 1000 = v.tv_usec / 1000 := Int.tdiv_eq_ediv_of_nonneg husec
  simp only [Timeval.ms, hdiv, Timeval.Long]
  congr 1
  rw [eq_iff_iff]
  omega

theorem setsockopt_timeo {optname : ℕ} (hopt : optname = SO_RCVTIMEO ∨ optname = SO_SNDTIMEO) (ctx : FdCtx) (v : Timeval)
    (r : Result) :
    setsockopt true (some ctx) SOL_SOCKET optname v r = v.ms.map fun ms => (r, some (ctx.setTimeout optname ms)) := by
  simp [setsockopt, hopt]

theorem setsockopt_fits {optname : ℕ} (hopt : optname = SO_RCVTIMEO ∨ optname = SO_SNDTIMEO) (ctx : FdCtx) {v : Timeval}
    (hv : v.Valid) (hfits : v.tv_sec * 1000 + v.tv_usec / 1000 < 2 ^ 63) (r : Result) :
    ∃ ms : UInt64, (ms.toNat : ℤ) = v.tv_sec * 1000 + v.tv_usec / 1000 ∧
      setsockopt true (some ctx) SOL_SOCKET optname v r = some (r, some (ctx.setTimeout optname ms)) := by
  refine ⟨UInt64.ofInt (v.tv_sec * 1000 + v.tv_usec / 1000), ?_, ?_⟩
  · obtain ⟨hsec, husec, -⟩ := hv
    rw [toNat_ofInt, toUnsigned_of_fits (by omega) (by omega)]
  · rw [setsockopt_timeo hopt, ms_of_valid hv, if_pos hfits, Option.map_some]

/-- what is stored is never the value for none, and it is long enough if no part of a millisecond is lost -/
theorem stored_spec {v : Timeval} (hv : v.Valid) {ms : UInt64} (hms : (ms.toNat : ℤ) = v.tv_sec * 1000 + v.tv_usec / 1000)
    (hfits : v.tv_sec * 1000 + v.tv_usec / 1000 < 2 ^ 63) :
    ms ≠ noTimeout ∧ (v.usec ≤ ms.toNat * 1000 ↔ 1000 ∣ v.tv_usec) := by
  constructor
  · have hnone : noTimeout.toNat = 2 ^ 64 - 1 := by decide
    intro h
    rw [h, hnone] at hms
    omega
  · obtain ⟨-, husec, -⟩ := hv
    rw [Timeval.usec, hms]
    omega

/-- the contract, by what the call has stored -/
theorem keepsTimeouts_of_stored {ctx : FdCtx} {optname : ℕ} {v : Timeval} {r : Result} {ms : UInt64}
    (hset : setsockopt true (some ctx) SOL_SOCKET optname v r = some (r, some (ctx.setTimeout optname ms))) :
    KeepsTimeouts ctx optname v r ↔
      if r.ret = 0 then (ms = noTimeout ↔ v = ⟨0, 0⟩) ∧ (v ≠ ⟨0, 0⟩ → v.usec ≤ ms.toNat * 1000)
      else ctx.getTimeout optname = ms := by
  rw [← setTimeout_unchanged_iff]
  simp only [KeepsTimeouts, hset, Option.some.injEq, Prod.mk.injEq, true_and, exists_eq_left', setTimeout_timeout]

/-! ## Main result -/

/-- **Timeouts mean what the kernel means** exactly when the call succeeds with a timeval that is not zero and of whole
milliseconds, or fails with the timeout that is stored already. -/
theorem keepsTimeouts_iff (ctx : FdCtx) {optname : ℕ} (hopt : optname = SO_RCVTIMEO ∨ optname = SO_SNDTIMEO) {v : Timeval}
    (hv : v.Valid) (r : Result) : KeepsTimeouts ctx optname v r ↔ TimeoutRight ctx optname v r := by
  by_cases hfits : v.tv_sec * 1000 + v.tv_usec / 1000 < 2 ^ 63
  · obtain ⟨ms, hms, hset⟩ := setsockopt_fits hopt ctx hv hfits r
    obtain ⟨hsome, hlong⟩ := stored_spec hv hms hfits
    rw [keepsTimeouts_of_stored hset, TimeoutRight, hlong, and_iff_right hfits]
    split_ifs
    · constructor
      · rintro ⟨hzero, hdvd⟩
        have hv0 : v ≠ ⟨0, 0⟩ := fun h => hsome (hzero.2 h)
        exact ⟨hv0, hdvd hv0⟩
      · rintro ⟨hv0, hdvd⟩
        exact ⟨iff_of_false hsome hv0, fun _ => hdvd⟩
    · rw [← UInt64.toNat_inj, ← hms]
      omega
  · have hnone : setsockopt true (some ctx) SOL_SOCKET optname v r = none := by
      rw [setsockopt_timeo hopt, ms_of_valid hv, if_neg hfits, Option.map_none]
    refine iff_of_false (fun ⟨ctx', hset, _⟩ => ?_) fun h => hfits h.1
    rw [hnone] at hset
    cases hset

/-- a receive timeout of 1.5 s, and one that the kernel refuses -/
theorem keepsTimeouts_example :
    KeepsTimeouts (FdCtx.make (some ⟨true, O_RDWR⟩)).1 SO_RCVTIMEO ⟨1, 500000⟩ ⟨0, 0⟩ ∧
      ¬ KeepsTimeouts (FdCtx.make (some ⟨true, O_RDWR⟩)).1 SO_RCVTIMEO ⟨1, 500000⟩ ⟨-1, EBADF⟩ :=
  ⟨(keepsTimeouts_iff _ (.inl rfl) (by decide) _).2 (by decide),
    fun h => absurd ((keepsTimeouts_iff _ (.inl rfl) (by decide) _).1 h) (by decide)⟩

/-- **Zeros, microseconds and errors.** A timeval of zeros, which is none for the kernel, is stored as 0, and so is half a
millisecond; a call that fails changes the timeout from none to 1 s. -/
theorem setsockopt_misleads :
    let ctx := (FdCtx.make (some ⟨true, O_RDWR⟩)).1
    (setsockopt true (some ctx) SOL_SOCKET SO_RCVTIMEO ⟨0, 0⟩ ⟨0, 0⟩ = some (⟨0, 0⟩, some (ctx.setTimeout SO_RCVTIMEO 0)) ∧
        ¬ KeepsTimeouts ctx SO_RCVTIMEO ⟨0, 0⟩ ⟨0, 0⟩) ∧
      ¬ KeepsTimeouts ctx SO_RCVTIMEO ⟨0, 500⟩ ⟨0, 0⟩ ∧ ¬ KeepsTimeouts ctx SO_RCVTIMEO ⟨1, 0⟩ ⟨-1, EBADF⟩ := by
  intro ctx
  have hzero : setsockopt true (some ctx) SOL_SOCKET SO_RCVTIMEO ⟨0, 0⟩ ⟨0, 0⟩ =
      some (⟨0, 0⟩, some (ctx.setTimeout SO_RCVTIMEO 0)) := by decide
  have hhalf : setsockopt true (some ctx) SOL_SOCKET SO_RCVTIMEO ⟨0, 500⟩ ⟨0, 0⟩ =
      some (⟨0, 0⟩, some (ctx.setTimeout SO_RCVTIMEO 0)) := by decide
  have hfail : setsockopt true (some ctx) SOL_SOCKET SO_RCVTIMEO ⟨1, 0⟩ ⟨-1, EBADF⟩ =
      some (⟨-1, EBADF⟩, some (ctx.setTimeout SO_RCVTIMEO 1000)) := by decide
  rw [keepsTimeouts_of_stored hzero, keepsTimeouts_of_stored hhalf, keepsTimeouts_of_stored hfail]
  exact ⟨⟨hzero, by decide⟩, by decide, by decide⟩

/-! ## A socket reads back its timeouts -/

/-- `tv` in `Socket::setSendTimeout` and `Socket::setRecvTimeout`; its members are converted to int -/
def timeval (v : ℤ) : Timeval := ⟨toSigned 32 (v.tdiv 1000), toSigned 32 (v.tmod 1000 * 1000)⟩

def setSendTimeout (ctx : FdCtx) (v : ℤ) (r : Result) : Option (Result × Option FdCtx) :=
  setsockopt true (some ctx) SOL_SOCKET SO_SNDTIMEO (timeval v) r

def setRecvTimeout (ctx : FdCtx) (v : ℤ) (r : Result) : Option (Result × Option FdCtx) :=
  setsockopt true (some ctx) SOL_SOCKET SO_RCVTIMEO (timeval v) r

def getSendTimeout (ctx : FdCtx) : ℤ := toSigned 64 (ctx.getTimeout SO_SNDTIMEO).toNat

def getRecvTimeout (ctx : FdCtx) : ℤ := toSigned 64 (ctx.getTimeout SO_RCVTIMEO).toNat

theorem setsockopt_timeval {optname : ℕ} (hopt : optname = SO_RCVTIMEO ∨ optname = SO_SNDTIMEO) (ctx : FdCtx) {v : ℤ}
    (hlo : 0 ≤ v) (hhi : v < 2 ^ 31 * 1000) (r : Result) :
    ∃ ctx', setsockopt true (some ctx) SOL_SOCKET optname (timeval v) r = some (r, some ctx') ∧
      toSigned 64 (ctx'.getTimeout optname).toNat = v := by
  have hdiv : v.tdiv 1000 = v / 1000 := Int.tdiv_eq_ediv_of_nonneg hlo
  have hmod : v.tmod 1000 = v % 1000 := Int.tmod_eq_emod_of_nonneg hlo
  have htimeval : timeval v = ⟨v / 1000, v % 1000 * 1000⟩ := by
    rw [timeval, hdiv, hmod, toSigned_of_fits (by omega) (by omega), toSigned_of_fits (by omega) (by omega)]
  have hvalid : (timeval v).Valid := by
    rw [htimeval]
    exact ⟨by dsimp only; omega, by dsimp only; omega, by dsimp only; omega⟩
  obtain ⟨ms, hms, hset⟩ := setsockopt_fits hopt ctx hvalid (by rw [htimeval]; dsimp only; omega) r
  refine ⟨_, hset, ?_⟩
  have hval : (ms.toNat : ℤ) = v := by
    rw [hms, htimeval]
    dsimp only
    omega
  rw [getTimeout_setTimeout, hval, toSigned_of_fits (by omega) (by omega)]

/-- **A socket reads back the send timeout** that it has set, also when the kernel has refused it. -/
theorem getSendTimeout_setSendTimeout (ctx : FdCtx) {v : ℤ} (hlo : 0 ≤ v) (hhi : v < 2 ^ 31 * 1000) (r : Result) :
    ∃ ctx', setSendTimeout ctx v r = some (r, some ctx') ∧ getSendTimeout ctx' = v :=
  setsockopt_timeval (.inr rfl) ctx hlo hhi r

theorem getRecvTimeout_setRecvTimeout (ctx : FdCtx) {v : ℤ} (hlo : 0 ≤ v) (hhi : v < 2 ^ 31 * 1000) (r : Result) :
    ∃ ctx', setRecvTimeout ctx v r = some (r, some ctx') ∧ getRecvTimeout ctx' = v :=
  setsockopt_timeval (.inl rfl) ctx hlo hhi r

end Timeouts

end Sylar.Hook

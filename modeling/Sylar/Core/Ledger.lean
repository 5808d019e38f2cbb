/-
A ledger of tasks that workers take out of a queue.

A scheduler that hands tasks to workers moves each one from the queue into a worker's hand and from there to the end.
The ledger numbers the entries in the order in which they were accepted, and keeps where each one is: in the queue, in
the hand of a worker, or done. It is kept beside a model whose queue holds the entries themselves.

Results:
- `Sound.accept`, `Sound.take`, `Sound.settle`: the three moves keep each accepted entry in one place;
- `Sound.exactly_one`: it is in exactly one place;
- `Queues.accept`, `Queues.take`: the ledger's queue and the model's queue of entries change in step.
-/
import Mathlib.Tactic

namespace Sylar

/-- `taken` is in the order of the takes -/
structure Ledger (α τ : Type*) where
  accepted : List α
  queue : List ℕ
  hand : τ → Option ℕ
  done : List ℕ
  taken : List (τ × ℕ)

namespace Ledger

inductive Place (τ : Type*) where
  | queued
  | inHand (t : τ)
  | done

section

variable {α τ : Type*}

def empty : Ledger α τ := ⟨[], [], fun _ => none, [], []⟩

/-- entry `i` is at the place -/
def At (l : Ledger α τ) (i : ℕ) : Place τ → Prop
  | .queued => i ∈ l.queue
  | .inHand t => l.hand t = some i
  | .done => i ∈ l.done

/-- entries are accepted, and queued behind the others -/
def accept (l : Ledger α τ) (es : List α) : Ledger α τ :=
  { l with
    accepted := l.accepted ++ es
    queue := l.queue ++ List.range' l.accepted.length es.length }

/-- worker `t` takes what is at position `k` of the queue -/
def take [DecidableEq τ] (l : Ledger α τ) (t : τ) (k : ℕ) : Ledger α τ :=
  match l.queue[k]? with
  | some i =>
    { l with
      queue := l.queue.eraseIdx k
      hand := Function.update l.hand t (some i)
      taken := l.taken ++ [(t, i)] }
  | none => l

/-- worker `t` is done with what it has in its hand -/
def settle [DecidableEq τ] (l : Ledger α τ) (t : τ) : Ledger α τ :=
  match l.hand t with
  | some i => { l with hand := Function.update l.hand t none, done := l.done ++ [i] }
  | none => l

/-- the entries queued are `es` -/
def Queues (l : Ledger α τ) (es : List α) : Prop := es.map some = l.queue.map (l.accepted[·]?)

/-- each accepted entry is in one place; it is queued once and taken once at most -/
structure Sound (l : Ledger α τ) : Prop where
  place : ∃ place : ℕ → Place τ, ∀ i p, l.At i p ↔ i < l.accepted.length ∧ p = place i
  queueOnce : l.queue.Nodup
  takenOnce : (l.taken.map Prod.snd).Nodup
  taken_iff : ∀ i, i ∈ l.taken.map Prod.snd ↔ i < l.accepted.length ∧ i ∉ l.queue

theorem sound_empty : Sound (empty : Ledger α τ) := by
  refine ⟨⟨fun _ => .queued, ?_⟩, List.nodup_nil, List.nodup_nil, by simp [empty]⟩
  intro i p
  cases p <;> simp [At, empty]

/-! ## One place -/

theorem Sound.known {l : Ledger α τ} (h : Sound l) {i : ℕ} {p : Place τ} (hp : l.At i p) : i < l.accepted.length := by
  obtain ⟨place, hplace⟩ := h.place
  exact ((hplace i p).1 hp).1

theorem Sound.one_place {l : Ledger α τ} (h : Sound l) {i : ℕ} {p q : Place τ} (hp : l.At i p) (hq : l.At i q) :
    p = q := by
  obtain ⟨place, hplace⟩ := h.place
  rw [((hplace i p).1 hp).2, ((hplace i q).1 hq).2]

/-- **One place for each.** An accepted entry is in exactly one place. -/
theorem Sound.exactly_one {l : Ledger α τ} (h : Sound l) {i : ℕ} (hi : i < l.accepted.length) : ∃! p, l.At i p := by
  obtain ⟨place, hplace⟩ := h.place
  refine ⟨place i, (hplace i _).2 ⟨hi, rfl⟩, ?_⟩
  intro q hq
  exact ((hplace i q).1 hq).2

theorem Sound.not_queued {l : Ledger α τ} (h : Sound l) {i : ℕ} {t : τ} (ht : l.hand t = some i) : i ∉ l.queue := by
  intro hq
  cases h.one_place (p := .inHand t) (q := .queued) ht hq

theorem Sound.one_hand {l : Ledger α τ} (h : Sound l) {i : ℕ} {t t' : τ} (ht : l.hand t = some i)
    (ht' : l.hand t' = some i) : t = t' := by
  cases h.one_place (p := .inHand t) (q := .inHand t') ht ht'
  rfl

/-! ## The moves -/

theorem Sound.accept {l : Ledger α τ} (h : Sound l) (es : List α) : Sound (l.accept es) := by
  have hnew : ∀ i, i ∈ List.range' l.accepted.length es.length ↔
      l.accepted.length ≤ i ∧ i < l.accepted.length + es.length := fun i => List.mem_range'_1
  have hlen : (l.accept es).accepted.length = l.accepted.length + es.length := List.length_append
  obtain ⟨place, hplace⟩ := h.place
  refine ⟨⟨fun i => if i < l.accepted.length then place i else .queued, ?_⟩, ?_, h.takenOnce, ?_⟩
  · intro i p
    have hold := hplace i p
    rw [hlen]
    dsimp only
    by_cases hi : i < l.accepted.length
    · have hnot : i ∉ List.range' l.accepted.length es.length := fun hmem => absurd ((hnew i).1 hmem).1 (by omega)
      have hsame : (l.accept es).At i p ↔ l.At i p := by
        cases p with
        | queued => exact List.mem_append.trans (or_iff_left hnot)
        | inHand t => exact Iff.rfl
        | done => exact Iff.rfl
      rw [hsame, hold, if_pos hi]
      exact and_congr_left fun _ => iff_of_true hi (by omega)
    · rw [if_neg hi]
      have hnone : ¬ l.At i p := fun hp => hi (hold.1 hp).1
      cases p with
      | queued =>
        refine (List.mem_append.trans (or_iff_right hnone)).trans ((hnew i).trans ?_)
        exact ⟨fun hr => ⟨hr.2, rfl⟩, fun hr => ⟨by omega, hr.1⟩⟩
      | inHand t => exact iff_of_false hnone (by simp)
      | done => exact iff_of_false hnone (by simp)
  · apply List.Nodup.append h.queueOnce List.nodup_range'
    intro i hq hr
    have := h.known (p := .queued) hq
    have := ((hnew i).1 hr).1
    omega
  · intro i
    rw [hlen]
    apply (h.taken_iff i).trans
    have hmem : i ∈ (l.accept es).queue ↔
        i ∈ l.queue ∨ l.accepted.length ≤ i ∧ i < l.accepted.length + es.length :=
      List.mem_append.trans (or_congr_right (hnew i))
    rw [hmem, not_or]
    constructor
    · rintro ⟨hi, hnot⟩
      exact ⟨by omega, hnot, by omega⟩
    · rintro ⟨hi, hnot, hrange⟩
      exact ⟨by omega, hnot⟩

theorem Queues.accept {l : Ledger α τ} (hl : Sound l) {es : List α} (h : l.Queues es) (new : List α) :
    (l.accept new).Queues (es ++ new) := by
  have hold : l.queue.map ((l.accepted ++ new)[·]?) = l.queue.map (l.accepted[·]?) := by
    apply List.map_congr_left
    intro i hi
    exact List.getElem?_append_left (hl.known (p := .queued) hi)
  have hnew : (List.range' l.accepted.length new.length).map ((l.accepted ++ new)[·]?) = new.map some := by
    apply List.ext_getElem?
    intro j
    by_cases hj : j < new.length
    · simp [hj]
    · simp [hj]
  unfold Queues at h ⊢
  rw [List.map_append, h, ← hold]
  simp only [Ledger.accept, List.map_append, hnew]

variable [DecidableEq τ]

theorem take_of_getElem? {l : Ledger α τ} {k i : ℕ} (hk : l.queue[k]? = some i) (t : τ) :
    l.take t k = { l with
      queue := l.queue.eraseIdx k
      hand := Function.update l.hand t (some i)
      taken := l.taken ++ [(t, i)] } := by
  simp only [take, hk]

theorem settle_of_hand {l : Ledger α τ} {t : τ} {i : ℕ} (ht : l.hand t = some i) :
    l.settle t = { l with hand := Function.update l.hand t none, done := l.done ++ [i] } := by
  simp only [settle, ht]

@[simp] theorem take_accepted (l : Ledger α τ) (t : τ) (k : ℕ) : (l.take t k).accepted = l.accepted := by
  unfold take
  split <;> rfl

@[simp] theorem settle_accepted (l : Ledger α τ) (t : τ) : (l.settle t).accepted = l.accepted := by
  unfold settle
  split <;> rfl

theorem hand_of_settle {l : Ledger α τ} {t t' : τ} {i : ℕ} (h : (l.settle t').hand t = some i) : l.hand t = some i := by
  cases ht' : l.hand t' with
  | none => simpa only [settle, ht'] using h
  | some j =>
    rw [settle_of_hand ht'] at h
    by_cases ht : t = t'
    · simp [ht] at h
    · simpa [ht] using h

/-- a worker whose hand is empty takes -/
theorem Sound.take {l : Ledger α τ} (h : Sound l) {t : τ} (ht : l.hand t = none) (k : ℕ) : Sound (l.take t k) := by
  cases hk : l.queue[k]? with
  | none => simpa only [Ledger.take, hk] using h
  | some i =>
    rw [take_of_getElem? hk]
    have hi : i ∈ l.queue := List.mem_of_getElem? hk
    have hmem : ∀ j, j ∈ l.queue.eraseIdx k ↔ j ≠ i ∧ j ∈ l.queue := by
      intro j
      obtain ⟨hlt, hget⟩ := List.getElem?_eq_some_iff.1 hk
      rw [← hget, ← h.queueOnce.erase_getElem k hlt, h.queueOnce.mem_erase_iff]
    obtain ⟨place, hplace⟩ := h.place
    refine ⟨⟨Function.update place i (.inHand t), ?_⟩, h.queueOnce.sublist (List.eraseIdx_sublist _ _), ?_, ?_⟩
    · intro j p
      by_cases hj : j = i
      · subst hj
        have hjq : Place.queued = place j := ((hplace j .queued).1 hi).2
        have hlt : j < l.accepted.length := h.known (p := .queued) hi
        rw [Function.update_self]
        cases p with
        | queued => exact iff_of_false (fun hq => ((hmem j).1 hq).1 rfl) (by simp)
        | inHand t' =>
          by_cases htt : t' = t
          · subst htt
            exact iff_of_true (by simp [At]) ⟨hlt, rfl⟩
          · have hother : l.hand t' ≠ some j := fun hh => h.not_queued hh hi
            exact iff_of_false (by simpa [At, htt] using hother) (by simpa using fun _ => htt)
        | done =>
          refine iff_of_false ?_ (by simp)
          intro hd
          cases h.one_place (p := .queued) (q := .done) hi hd
      · rw [Function.update_of_ne hj, ← hplace j p]
        cases p with
        | queued => exact (hmem j).trans (and_iff_right hj)
        | inHand t' =>
          by_cases htt : t' = t
          · subst htt
            exact iff_of_false (by simpa [At] using fun hij => hj hij.symm) (by simp [At, ht])
          · simp [At, htt]
        | done => exact Iff.rfl
    · rw [List.map_append, List.map_singleton]
      apply h.takenOnce.append (List.nodup_singleton _)
      intro j hj hji
      rw [List.mem_singleton] at hji
      exact ((h.taken_iff j).1 hj).2 (hji ▸ hi)
    · intro j
      rw [List.map_append, List.mem_append, List.map_singleton, List.mem_singleton, h.taken_iff j]
      dsimp only
      rw [hmem j]
      have hlt : i < l.accepted.length := h.known (p := .queued) hi
      by_cases hj : j = i
      · subst hj
        simp [hlt]
      · simp [hj]

theorem Sound.settle {l : Ledger α τ} (h : Sound l) (t : τ) : Sound (l.settle t) := by
  cases ht : l.hand t with
  | none => simpa only [Ledger.settle, ht] using h
  | some i =>
    rw [settle_of_hand ht]
    obtain ⟨place, hplace⟩ := h.place
    have hi : i < l.accepted.length := h.known (p := .inHand t) ht
    refine ⟨⟨Function.update place i .done, ?_⟩, h.queueOnce, h.takenOnce, h.taken_iff⟩
    intro j p
    by_cases hj : j = i
    · subst hj
      rw [Function.update_self]
      cases p with
      | queued => exact iff_of_false (h.not_queued ht) (by simp)
      | inHand t' =>
        refine iff_of_false ?_ (by simp)
        by_cases htt : t' = t
        · simp [At, htt]
        · have hother : l.hand t' ≠ some j := fun hh => htt (h.one_hand hh ht)
          simpa [At, htt] using hother
      | done => exact iff_of_true (by simp [At]) ⟨hi, rfl⟩
    · rw [Function.update_of_ne hj, ← hplace j p]
      cases p with
      | queued => exact Iff.rfl
      | inHand t' =>
        by_cases htt : t' = t
        · subst htt
          exact iff_of_false (by simp [At]) (by simpa [At, ht] using fun hij => hj hij.symm)
        · simp [At, htt]
      | done => simp [At, hj]

/-- the entry behind `ahead` is taken -/
theorem Queues.take {l : Ledger α τ} {ahead behind : List α} {e : α} (h : l.Queues (ahead ++ e :: behind)) (t : τ) :
    ∃ a i b, l.queue = a ++ i :: b ∧ l.accepted[i]? = some e ∧ a.map (l.accepted[·]?) = ahead.map some ∧
      l.take t ahead.length = { l with
        queue := a ++ b
        hand := Function.update l.hand t (some i)
        taken := l.taken ++ [(t, i)] } ∧ (l.take t ahead.length).Queues (ahead ++ behind) := by
  unfold Queues at h
  rw [List.map_append, List.map_cons] at h
  obtain ⟨a, rest, hq, ha, hrest⟩ := List.map_eq_append_iff.1 h.symm
  obtain ⟨i, b, rfl, hi, hb⟩ := List.map_eq_cons_iff.1 hrest
  have hlen : ahead.length = a.length := by simpa using (congrArg List.length ha).symm
  have htake : l.take t ahead.length = { l with
      queue := a ++ b
      hand := Function.update l.hand t (some i)
      taken := l.taken ++ [(t, i)] } := by
    rw [take_of_getElem? (i := i) (by rw [hq, hlen, List.getElem?_append_right le_rfl]; simp), hq, hlen,
      List.eraseIdx_append_of_length_le le_rfl]
    simp
  refine ⟨a, i, b, hq, hi, ha, htake, ?_⟩
  rw [htake]
  unfold Queues
  rw [List.map_append, List.map_append, ha, hb]

end

end Ledger

end Sylar

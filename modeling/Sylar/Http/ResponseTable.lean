/-
The states of the scanner that httpclient_parser.cc was generated with, from httpclient_parser.rl.

A row has the tests of one state in order, each with the state it leads to and the actions on the way. The names
`Connection`, `Content-Length` and `Transfer-Encoding` have rows of their own for each of their letters, so that the value
behind them can be looked at; such a value may stand on the next line, and the row behind its line end waits for it and
for a header line at the same time.
-/
import Sylar.Http.ResponseParser

namespace Sylar.Http

open Sylar.Text

/-! ## Bytes -/

def is (k : Char) (c : UInt8) : Bool := c = k.toUInt8

/-- a letter of a keyword, in either case -/
def letter (k : Char) (c : UInt8) : Bool := tolower c = k.toUInt8

def isDigit (c : UInt8) : Bool := 48 ≤ c ∧ c ≤ 57

def isXdigit (c : UInt8) : Bool := isDigit c ∨ (65 ≤ c ∧ c ≤ 70) ∨ (97 ≤ c ∧ c ≤ 102)

/-- `space` of the grammar without the line ends -/
def isBlank (c : UInt8) : Bool := c = 32 ∨ c = 9 ∨ c = 11 ∨ c = 12

/-- `token` of the grammar: no control byte and no separator -/
def isToken (c : UInt8) : Bool :=
  c = 33 ∨ (35 ≤ c ∧ c ≤ 39) ∨ c = 42 ∨ c = 43 ∨ c = 45 ∨ c = 46 ∨ isDigit c ∨ (65 ≤ c ∧ c ≤ 90) ∨
    (94 ≤ c ∧ c ≤ 122) ∨ c = 124 ∨ c = 126

/-! ## Rows -/

/-- a test of a row, the state behind it and the actions on the way there -/
abbrev Case := (UInt8 → Bool) × ℤ × List ParserAction

/-- all states that read the name of a header: `letters` go on with a keyword, ':' leads to `colon` -/
def nameRow (letters : List (Char × ℤ)) (colon : ℤ) : List Case :=
  letters.map (fun k => (letter k.1, k.2, [])) ++ [(is ':', colon, [.write_field]), (isToken, 21, [])]

/-- behind the ':', or behind blanks: a value that begins with `first` may be one of a keyword -/
def valueStartRow (self lf cr : ℤ) (first : List ((UInt8 → Bool) × ℤ)) : List Case :=
  first.map (fun k => (k.1, k.2, [.start_value])) ++
    [(is '\n', lf, [.start_value, .write_value]), (is '\r', cr, [.start_value, .write_value]),
      (isBlank, self, [.start_value]), (fun _ => true, 23, [.start_value])]

/-- in a value; `last` is done at its end, `trailing` at a line feed -/
def valueRow (next : List ((UInt8 → Bool) × ℤ)) (lf cr : ℤ) (last trailing : List ParserAction) : List Case :=
  next.map (fun k => (k.1, k.2, [])) ++
    [(is '\n', lf, last ++ trailing), (is '\r', cr, last), (fun _ => true, 23, [])]

/-- the letters that are left of a keyword on a line of its own -/
def wordRow (k : Char) (next : ℤ) : List Case := [(letter k, next, [])]

def row : ℤ → List Case
  | 1 => [(is 'H', 8, [.mark]), (isXdigit, 2, [.mark])]
  -- a chunk: its size and its extensions
  | 2 => [(is '\n', 120, [.chunk_size, .done]), (is '\r', 3, [.chunk_size]), (is ';', 4, [.chunk_size]),
      (isXdigit, 2, [])]
  | 3 => [(is '\n', 120, [.done])]
  | 4 => [(isToken, 5, [.start_field])]
  | 5 => [(is '\n', 120, [.write_field, .start_value, .write_value, .done]),
      (is '\r', 3, [.write_field, .start_value, .write_value]),
      (is ';', 4, [.write_field, .start_value, .write_value]), (is '=', 6, [.write_field, .start_value]),
      (isToken, 5, [])]
  | 6 => [(isToken, 7, [.start_value])]
  | 7 => [(is '\n', 120, [.write_value, .done]), (is '\r', 3, [.write_value]), (is ';', 4, [.write_value]),
      (isToken, 7, [])]
  -- the status line
  | 8 => [(is 'T', 9, [])]
  | 9 => [(is 'T', 10, [])]
  | 10 => [(is 'P', 11, [])]
  | 11 => [(is '/', 12, [])]
  | 12 => [(isDigit, 13, [])]
  | 13 => [(is '.', 14, []), (isDigit, 13, [])]
  | 14 => [(isDigit, 15, [])]
  | 15 => [(is ' ', 16, [.http_version]), (isDigit, 15, [])]
  | 16 => [(isDigit, 17, [.mark])]
  | 17 => [(is ' ', 18, [.status_code]), (isDigit, 17, [])]
  | 18 => [(fun c => !is '\n' c, 19, [.mark])]
  | 19 => [(is '\n', 20, [.reason_phrase]), (is '\r', 24, [.reason_phrase]), (fun _ => true, 19, [])]
  -- the beginning of a line
  | 20 => [(is '\n', 120, [.done]), (is '\r', 3, []), (letter 'c', 25, [.start_field]),
      (letter 't', 44, [.start_field]), (isToken, 21, [.start_field])]
  | 21 => nameRow [] 22
  | 22 => valueStartRow 22 20 24 []
  | 23 => valueRow [] 20 24 [.write_value] []
  | 24 => [(is '\n', 20, [])]
  | 25 => nameRow [('o', 26)] 22
  | 26 => nameRow [('n', 27)] 22
  | 27 => nameRow [('n', 28), ('t', 101)] 22
  | 28 => nameRow [('e', 29)] 22
  | 29 => nameRow [('c', 30)] 22
  | 30 => nameRow [('t', 31)] 22
  | 31 => nameRow [('i', 32)] 22
  | 32 => nameRow [('o', 33)] 22
  | 33 => nameRow [('n', 34)] 22
  | 34 => nameRow [] 35
  -- behind "Connection:"
  | 35 => valueStartRow 35 36 95 [(letter 'c', 96)]
  | 36 => [(is '\n', 122, [.done]), (is '\r', 89, []), (isBlank, 37, []), (letter 'c', 90, [.start_field]),
      (letter 't', 44, [.start_field]), (isToken, 21, [.start_field])]
  | 37 => [(isspace, 37, []), (letter 'c', 38, [])]
  | 38 => wordRow 'l' 39
  | 39 => wordRow 'o' 40
  | 40 => wordRow 's' 41
  | 41 => wordRow 'e' 42
  | 42 => [(is '\n', 43, []), (is '\r', 88, [])]
  -- the beginning of the line behind "Connection: close"
  | 43 => [(is '\n', 120, [.write_connection_close, .done]), (is '\r', 3, [.write_connection_close]),
      (letter 'c', 25, [.write_connection_close, .start_field]),
      (letter 't', 44, [.write_connection_close, .start_field]),
      (isToken, 21, [.write_connection_close, .start_field])]
  | 44 => nameRow [('r', 45)] 22
  | 45 => nameRow [('a', 46)] 22
  | 46 => nameRow [('n', 47)] 22
  | 47 => nameRow [('s', 48)] 22
  | 48 => nameRow [('f', 49)] 22
  | 49 => nameRow [('e', 50)] 22
  | 50 => nameRow [('r', 51)] 22
  | 51 => nameRow [('-', 52)] 22
  | 52 => nameRow [('e', 53)] 22
  | 53 => nameRow [('n', 54)] 22
  | 54 => nameRow [('c', 55)] 22
  | 55 => nameRow [('o', 56)] 22
  | 56 => nameRow [('d', 57)] 22
  | 57 => nameRow [('i', 58)] 22
  | 58 => nameRow [('n', 59)] 22
  | 59 => nameRow [('g', 60)] 22
  | 60 => nameRow [] 61
  -- behind "Transfer-Encoding:"
  | 61 => valueStartRow 61 62 80 [(letter 'c', 81)]
  | 62 => [(is '\n', 121, [.done]), (is '\r', 72, []), (isBlank, 63, []),
      (letter 'c', 73, [.start_value, .start_field]), (letter 't', 44, [.start_field]), (isToken, 21, [.start_field])]
  | 63 => [(isspace, 63, []), (letter 'c', 64, [.start_value])]
  | 64 => wordRow 'h' 65
  | 65 => wordRow 'u' 66
  | 66 => wordRow 'n' 67
  | 67 => wordRow 'k' 68
  | 68 => wordRow 'e' 69
  | 69 => wordRow 'd' 70
  | 70 => [(is '\n', 20, [.write_value, .trans_chunked]), (is '\r', 71, [.write_value])]
  | 71 => [(is '\n', 20, [.trans_chunked])]
  | 72 => [(is '\n', 121, [.done]), (isspace, 63, []), (letter 'c', 64, [.start_value])]
  | 73 => nameRow [('h', 74), ('o', 26)] 22
  | 74 => nameRow [('u', 75)] 22
  | 75 => nameRow [('n', 76)] 22
  | 76 => nameRow [('k', 77)] 22
  | 77 => nameRow [('e', 78)] 22
  | 78 => nameRow [('d', 79)] 22
  | 79 => (is '\n', 20, [.write_value, .trans_chunked]) :: (is '\r', 71, [.write_value]) :: nameRow [] 22
  | 80 => [(is '\n', 62, []), (isspace, 63, []), (letter 'c', 64, [.start_value])]
  | 81 => valueRow [(letter 'h', 82)] 20 24 [.write_value] []
  | 82 => valueRow [(letter 'u', 83)] 20 24 [.write_value] []
  | 83 => valueRow [(letter 'n', 84)] 20 24 [.write_value] []
  | 84 => valueRow [(letter 'k', 85)] 20 24 [.write_value] []
  | 85 => valueRow [(letter 'e', 86)] 20 24 [.write_value] []
  | 86 => valueRow [(letter 'd', 87)] 20 24 [.write_value] []
  | 87 => valueRow [] 20 71 [.write_value] [.trans_chunked]
  | 88 => [(is '\n', 43, [])]
  | 89 => [(is '\n', 122, [.done]), (isspace, 37, []), (letter 'c', 38, [])]
  | 90 => nameRow [('l', 91), ('o', 26)] 22
  | 91 => nameRow [('o', 92)] 22
  | 92 => nameRow [('s', 93)] 22
  | 93 => nameRow [('e', 94)] 22
  | 94 => (is '\n', 43, []) :: (is '\r', 88, []) :: nameRow [] 22
  | 95 => [(is '\n', 36, []), (isspace, 37, []), (letter 'c', 38, [])]
  | 96 => valueRow [(letter 'l', 97)] 20 24 [.write_value] []
  | 97 => valueRow [(letter 'o', 98)] 20 24 [.write_value] []
  | 98 => valueRow [(letter 's', 99)] 20 24 [.write_value] []
  | 99 => valueRow [(letter 'e', 100)] 20 24 [.write_value] []
  | 100 => valueRow [] 43 88 [.write_value] []
  | 101 => nameRow [('e', 102)] 22
  | 102 => nameRow [('n', 103)] 22
  | 103 => nameRow [('t', 104)] 22
  | 104 => nameRow [('-', 105)] 22
  | 105 => nameRow [('l', 106)] 22
  | 106 => nameRow [('e', 107)] 22
  | 107 => nameRow [('n', 108)] 22
  | 108 => nameRow [('g', 109)] 22
  | 109 => nameRow [('t', 110)] 22
  | 110 => nameRow [('h', 111)] 22
  | 111 => nameRow [] 112
  -- behind "Content-Length:"
  | 112 => valueStartRow 112 113 118 [(isDigit, 119)]
  | 113 => [(is '\n', 123, [.done]), (is '\r', 116, []), (isBlank, 114, []),
      (isDigit, 117, [.start_value, .start_field]), (letter 'c', 25, [.start_field]),
      (letter 't', 44, [.start_field]), (isToken, 21, [.start_field])]
  | 114 => [(isspace, 114, []), (isDigit, 115, [.start_value])]
  | 115 => [(is '\n', 20, [.write_content_len, .write_value]), (is '\r', 24, [.write_content_len, .write_value]),
      (isDigit, 115, [])]
  | 116 => [(is '\n', 123, [.done]), (isspace, 114, []), (isDigit, 115, [.start_value])]
  | 117 => (is '\n', 20, [.write_content_len, .write_value]) :: (is '\r', 24, [.write_content_len, .write_value]) ::
      (isDigit, 117, []) :: nameRow [] 22
  | 118 => [(is '\n', 113, []), (isspace, 114, []), (isDigit, 115, [.start_value])]
  | 119 => valueRow [(isDigit, 119)] 20 24 [.write_content_len, .write_value] []
  -- behind the end of the head; the machine may go on from the last three
  | 120 => []
  | 121 => [(isspace, 63, []), (letter 'c', 64, [.start_value])]
  | 122 => [(isspace, 37, []), (letter 'c', 38, [])]
  | 123 => [(isspace, 114, []), (isDigit, 115, [.start_value])]
  | _ => []

/-- the generated machine -/
def httpclientTable : Table := fun cs c => ((row cs).find? fun k => k.1 c).map Prod.snd

end Sylar.Http

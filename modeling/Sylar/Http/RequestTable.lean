/-
The states of the scanner that http11_parser.cc was generated with, from http11_parser.rl.

A row has the tests of one state in order, each with the state it leads to and the actions on the way. Three kinds of text
begin a request: a method, '<' for an XML document and '@' for a JSON one. The address of a JSON document is a path like
that of a request line, so the states of an authority occur twice, 175 apart.

`6( h16 ":" )` is not a repetition to the generator but the byte 6 and one group: the numbers in the grammar of an IPv6
address are the bytes 2 to 6 of the rows below. HTTP_CTL is no range either, so a control byte may be part of a token.
-/
import Sylar.Http.ResponseTable

namespace Sylar.Http.Request

open Sylar.Text

/-! ## Bytes -/

def isUpper (c : UInt8) : Bool := 65 ≤ c ∧ c ≤ 90

def isAlpha (c : UInt8) : Bool := isUpper c ∨ (97 ≤ c ∧ c ≤ 122)

/-- a letter or digit of `Method` -/
def isMethod (c : UInt8) : Bool := isUpper c ∨ isDigit c

def isUnreserved (c : UInt8) : Bool := isAlpha c ∨ isDigit c ∨ is '-' c ∨ is '.' c ∨ is '_' c ∨ is '~' c

/-- `sub_delims`; `relaxed` is `uri_relaxed`, which adds three bytes -/
def isSubDelim (relaxed : Bool) (c : UInt8) : Bool :=
  is '!' c ∨ is '$' c ∨ (38 ≤ c ∧ c ≤ 44) ∨ is ';' c ∨ is '=' c ∨ (relaxed ∧ (is '\x7b' c ∨ is '\x7d' c ∨ is '^' c))

/-- of a user name or a host -/
def isRegName (relaxed : Bool) (c : UInt8) : Bool := isUnreserved c ∨ isSubDelim relaxed c

/-- `pchar` without the escapes -/
def isPchar (relaxed : Bool) (c : UInt8) : Bool := 128 ≤ c ∨ isRegName relaxed c ∨ is ':' c ∨ is '@' c

/-- of a query or a fragment -/
def isQuery (relaxed : Bool) (c : UInt8) : Bool := isPchar relaxed c ∨ is '/' c ∨ is '?' c

/-- `token`: no separator, no blank and no DEL, but most control bytes -/
def isName (c : UInt8) : Bool := isToken c ∨ (1 ≤ c ∧ c ≤ 8) ∨ (10 ≤ c ∧ c ≤ 31)

/-- the bytes of a value -/
def isContent (c : UInt8) : Bool := c ≠ 0 ∧ c ≠ 10 ∧ c ≠ 13 ∧ c ≠ 127

/-- of the name of an XML element -/
def isElement (c : UInt8) : Bool := isAlpha c ∨ isDigit c ∨ is '-' c ∨ is '.' c

/-! ## Rows -/

inductive Action where
  | mark
  | start_field
  | write_field
  | start_value
  | write_value
  | request_method
  | request_uri
  | fragment
  | start_query
  | query_string
  | http_version
  | request_path
  | done
  | xml
  | json
deriving DecidableEq

/-- a test of a row, the state behind it and the actions on the way there -/
abbrev Case := (UInt8 → Bool) × ℤ × List Action

/-- a hexadecimal digit that leads on -/
def hexRow (next : ℤ) : List Case := [(isXdigit, next, [])]

/-- a digit of a group of an address, or its end -/
def groupRow (next colon : ℤ) : List Case := [(is ':', colon, []), (isXdigit, next, [])]

/-- an IPv4 number of three digits at most, which may be the first digits of a group: '1', '2', the other digits, letters -/
def octetRow (one two digit other : ℤ) : List Case :=
  [(is '1', one, []), (is '2', two, []), (isDigit, digit, []), (isXdigit, other, [])]

def isBetween (lo hi : ℕ) (c : UInt8) : Bool := lo ≤ c.toNat ∧ c.toNat ≤ hi

/-- an address in brackets -/
def literalRow : ℤ → List Case
  | 47 => [(isBetween 6 6, 48, []), (isXdigit, 91, []), (is ':', 167, []), (is 'v', 169, [])]
  -- one group and the last two
  | 48 => hexRow 49
  | 49 => groupRow 50 53
  | 50 => groupRow 51 53
  | 51 => groupRow 52 53
  | 52 => [(is ':', 53, [])]
  | 53 => octetRow 84 87 54 90
  | 54 => (is '.', 55, []) :: groupRow 77 80
  | 55 => [(is '1', 72, []), (is '2', 74, []), (isDigit, 56, [])]
  | 56 => [(is '.', 57, [])]
  | 57 => [(is '1', 67, []), (is '2', 69, []), (isDigit, 58, [])]
  | 58 => [(is '.', 59, [])]
  | 59 => [(is '1', 62, []), (is '2', 64, []), (isDigit, 60, [])]
  | 60 => [(is ']', 61, [])]
  | 62 => [(is ']', 61, []), (isDigit, 63, [])]
  | 63 => [(is ']', 61, []), (isDigit, 60, [])]
  | 64 => [(is ']', 61, []), (is '0', 65, []), (is '5', 66, [])]
  | 65 => [(isDigit, 60, [])]
  | 66 => [(is '0', 60, [])]
  | 67 => [(is '.', 59, []), (isDigit, 68, [])]
  | 68 => [(is '.', 59, []), (isDigit, 58, [])]
  | 69 => [(is '.', 59, []), (is '0', 70, []), (is '5', 71, [])]
  | 70 => [(isDigit, 58, [])]
  | 71 => [(is '0', 58, [])]
  | 72 => [(is '.', 57, []), (isDigit, 73, [])]
  | 73 => [(is '.', 57, []), (isDigit, 56, [])]
  | 74 => [(is '.', 57, []), (is '0', 75, []), (is '5', 76, [])]
  | 75 => [(isDigit, 56, [])]
  | 76 => [(is '0', 56, [])]
  | 77 => groupRow 78 80
  | 78 => groupRow 79 80
  | 79 => [(is ':', 80, [])]
  | 80 => hexRow 81
  | 81 => (is ']', 61, []) :: hexRow 82
  | 82 => (is ']', 61, []) :: hexRow 83
  | 83 => (is ']', 61, []) :: hexRow 60
  | 84 => [(is '.', 55, []), (is ':', 80, []), (isDigit, 85, []), (isXdigit, 77, [])]
  | 85 => [(is '.', 55, []), (is ':', 80, []), (isDigit, 86, []), (isXdigit, 78, [])]
  | 86 => (is '.', 55, []) :: groupRow 79 80
  | 87 => [(is '.', 55, []), (is ':', 80, []), (is '0', 88, []), (is '5', 89, []), (isXdigit, 77, [])]
  | 88 => [(is ':', 80, []), (isDigit, 86, []), (isXdigit, 78, [])]
  | 89 => [(is ':', 80, []), (is '0', 86, []), (isXdigit, 78, [])]
  | 90 => groupRow 77 80
  -- groups from the first one on; a second ':' ends the row of them
  | 91 => groupRow 92 95
  | 92 => groupRow 93 95
  | 93 => groupRow 94 95
  | 94 => [(is ':', 95, [])]
  | 95 => groupRow 96 166
  | 96 => groupRow 97 100
  | 97 => groupRow 98 100
  | 98 => groupRow 99 100
  | 99 => [(is ':', 100, [])]
  | 100 => groupRow 101 165
  | 101 => groupRow 102 105
  | 102 => groupRow 103 105
  | 103 => groupRow 104 105
  | 104 => [(is ':', 105, [])]
  | 105 => groupRow 106 164
  | 106 => groupRow 107 110
  | 107 => groupRow 108 110
  | 108 => groupRow 109 110
  | 109 => [(is ':', 110, [])]
  | 110 => groupRow 111 163
  | 111 => groupRow 112 115
  | 112 => groupRow 113 115
  | 113 => groupRow 114 115
  | 114 => [(is ':', 115, [])]
  | 115 => groupRow 116 151
  | 116 => groupRow 117 120
  | 117 => groupRow 118 120
  | 118 => groupRow 119 120
  | 119 => [(is ':', 120, [])]
  | 120 => groupRow 121 150
  | 121 => groupRow 122 125
  | 122 => groupRow 123 125
  | 123 => groupRow 124 125
  | 124 => [(is ':', 125, [])]
  | 125 => groupRow 121 126
  -- behind "::"
  | 126 => (isBetween 2 3, 48, []) :: (is ']', 61, []) :: octetRow 143 146 127 149
  | 127 => (is '.', 55, []) :: (is ']', 61, []) :: groupRow 128 131
  | 128 => (is ']', 61, []) :: groupRow 129 131
  | 129 => (is ']', 61, []) :: groupRow 130 131
  | 130 => [(is ']', 61, []), (is ':', 131, [])]
  | 131 => octetRow 136 139 132 142
  | 132 => (is '.', 55, []) :: (is ']', 61, []) :: groupRow 133 80
  | 133 => (is ']', 61, []) :: groupRow 134 80
  | 134 => (is ']', 61, []) :: groupRow 135 80
  | 135 => [(is ']', 61, []), (is ':', 80, [])]
  | 136 => [(is '.', 55, []), (is ']', 61, []), (is ':', 80, []), (isDigit, 137, []), (isXdigit, 133, [])]
  | 137 => [(is '.', 55, []), (is ']', 61, []), (is ':', 80, []), (isDigit, 138, []), (isXdigit, 134, [])]
  | 138 => (is '.', 55, []) :: (is ']', 61, []) :: groupRow 135 80
  | 139 => [(is '.', 55, []), (is ']', 61, []), (is ':', 80, []), (is '0', 140, []), (is '5', 141, []), (isXdigit, 133, [])]
  | 140 => [(is ']', 61, []), (is ':', 80, []), (isDigit, 138, []), (isXdigit, 134, [])]
  | 141 => [(is ']', 61, []), (is ':', 80, []), (is '0', 138, []), (isXdigit, 134, [])]
  | 142 => (is ']', 61, []) :: groupRow 133 80
  | 143 => [(is '.', 55, []), (is ']', 61, []), (is ':', 131, []), (isDigit, 144, []), (isXdigit, 128, [])]
  | 144 => [(is '.', 55, []), (is ']', 61, []), (is ':', 131, []), (isDigit, 145, []), (isXdigit, 129, [])]
  | 145 => (is '.', 55, []) :: (is ']', 61, []) :: groupRow 130 131
  | 146 => [(is '.', 55, []), (is ']', 61, []), (is ':', 131, []), (is '0', 147, []), (is '5', 148, []), (isXdigit, 128, [])]
  | 147 => [(is ']', 61, []), (is ':', 131, []), (isDigit, 145, []), (isXdigit, 129, [])]
  | 148 => [(is ']', 61, []), (is ':', 131, []), (is '0', 145, []), (isXdigit, 129, [])]
  | 149 => (is ']', 61, []) :: groupRow 128 131
  | 150 => (isBetween 2 3, 48, []) :: octetRow 143 146 127 149
  | 151 => (isBetween 2 3, 48, []) :: octetRow 156 159 152 162
  | 152 => (is '.', 55, []) :: groupRow 153 131
  | 153 => groupRow 154 131
  | 154 => groupRow 155 131
  | 155 => [(is ':', 131, [])]
  | 156 => [(is '.', 55, []), (is ':', 131, []), (isDigit, 157, []), (isXdigit, 153, [])]
  | 157 => [(is '.', 55, []), (is ':', 131, []), (isDigit, 158, []), (isXdigit, 154, [])]
  | 158 => (is '.', 55, []) :: groupRow 155 131
  | 159 => [(is '.', 55, []), (is ':', 131, []), (is '0', 160, []), (is '5', 161, []), (isXdigit, 153, [])]
  | 160 => [(is ':', 131, []), (isDigit, 158, []), (isXdigit, 154, [])]
  | 161 => [(is ':', 131, []), (is '0', 158, []), (isXdigit, 154, [])]
  | 162 => groupRow 153 131
  | 163 => (isBetween 2 3, 48, []) :: hexRow 49
  | 164 => [(isBetween 2 3, 48, [])]
  | 165 => [(isBetween 3 3, 48, [])]
  | 166 => [(isBetween 4 4, 48, [])]
  | 167 => [(is ':', 168, [])]
  | 168 => (isBetween 2 5, 48, []) :: (is ']', 61, []) :: octetRow 143 146 127 149
  | 169 => hexRow 170
  | 170 => (is '.', 171, []) :: hexRow 170
  | _ => []

section

-- `path` is the state of a path, `ends` has the bytes that end one
variable (relaxed : Bool) (path : ℤ) (ends : List Case)

/-- the states from 33 to 172: an authority, and what may stand behind it -/
def authorityRow : ℤ → List Case
  | 33 => ends ++ [(is '%', path + 1, []), (is '/', 34, []), (isPchar relaxed, path, [])]
  | 34 => ends ++ [(is '/', path, []), (isRegName relaxed, 35, []), (is '%', 36, []), (is ':', 38, []), (is '@', 42, []),
      (is '[', 47, [])]
  | 35 => ends ++ [(is '/', path, []), (isRegName relaxed, 35, []), (is '%', 36, []), (is ':', 38, []), (is '@', 42, [])]
  | 36 => hexRow 37
  | 37 => hexRow 35
  | 38 => ends ++ [(is '/', path, []), (isDigit, 38, []), (isRegName relaxed, 39, []), (is ':', 39, []), (is '%', 40, []),
      (is '@', 42, [])]
  | 39 => [(isRegName relaxed, 39, []), (is ':', 39, []), (is '%', 40, []), (is '@', 42, [])]
  | 40 => hexRow 41
  | 41 => hexRow 39
  | 42 => ends ++ [(is '/', path, []), (isRegName relaxed, 43, []), (is '%', 44, []), (is ':', 46, []), (is '[', 47, [])]
  | 43 => ends ++ [(is '/', path, []), (isRegName relaxed, 43, []), (is '%', 44, []), (is ':', 46, [])]
  | 44 => hexRow 45
  | 45 => hexRow 43
  | 46 => ends ++ [(is '/', path, []), (isDigit, 46, [])]
  | 61 => ends ++ [(is '/', path, []), (is ':', 46, [])]
  | 171 => [(isRegName relaxed, 172, []), (is ':', 172, [])]
  | 172 => [(is ']', 61, []), (isRegName relaxed, 172, []), (is ':', 172, [])]
  | cs => literalRow cs

end

/-- the same states in another place; the states of a path are where they are -/
def moveRow (by' : ℤ) (rows : List Case) : List Case :=
  rows.map fun k => (k.1, if 33 ≤ k.2.1 ∧ k.2.1 ≤ 172 then k.2.1 + by' else k.2.1, k.2.2)

/-- a path of a request line ends at ' ', '#' or '?' -/
def pathEnds : List Case :=
  [(is ' ', 4, [.request_path, .request_uri]), (is '#', 20, [.request_path, .request_uri]), (is '?', 29, [.request_path])]

/-- of a JSON document, at ' ' -/
def jsonEnds : List Case := [(is ' ', 199, [.request_path])]

/-- the first segment of a relative path has no ':' -/
def isSegment (relaxed : Bool) (c : UInt8) : Bool := isRegName relaxed c ∨ is '@' c

def lineRow (relaxed : Bool) : ℤ → List Case
  | 1 => [(isMethod, 2, [.mark]), (is '<', 194, [.mark]), (is '@', 198, [.mark])]
  | 2 => [(is ' ', 3, [.request_method]), (isMethod, 175, [])]
  | 3 => [(is ' ', 4, [.mark, .request_path, .request_uri]), (is '#', 20, [.mark, .request_path, .request_uri]),
      (is '%', 24, [.mark]), (is '?', 29, [.mark, .request_path]), (is '/', 33, [.mark]), (isAlpha, 173, [.mark]),
      (isSegment relaxed, 19, [.mark])]
  -- the version
  | 4 => [(is 'H', 5, [.mark])]
  | 5 => [(is 'T', 6, [])]
  | 6 => [(is 'T', 7, [])]
  | 7 => [(is 'P', 8, [])]
  | 8 => [(is '/', 9, [])]
  | 9 => [(is '1', 10, [])]
  | 10 => [(is '.', 11, [])]
  | 11 => [(isBetween 48 49, 12, [])]
  | 12 => [(is '\n', 13, [.http_version]), (is '\r', 17, [.http_version])]
  -- the beginning of a line
  | 13 => [(is '\n', 348, [.start_field, .done]), (is '\r', 18, [.start_field]), (isName, 14, [.start_field])]
  | 14 => [(is ':', 15, [.write_field]), (isName, 14, [])]
  | 15 => [(is '\n', 13, [.start_value, .write_value]), (is '\r', 17, [.start_value, .write_value]),
      (fun c => is ' ' c || is '\t' c, 15, [.start_value]), (isContent, 16, [.start_value])]
  | 16 => [(is '\n', 13, [.write_value]), (is '\r', 17, [.write_value]), (isContent, 16, [])]
  | 17 => [(is '\n', 13, [])]
  | 18 => [(is '\n', 348, [.done]), (is ':', 15, [.write_field]), (isName, 14, [])]
  -- a relative path
  | 19 => pathEnds ++ [(is '%', 24, []), (is '/', 26, []), (isSegment relaxed, 19, [])]
  | 20 => [(is ' ', 4, [.mark, .fragment]), (is '%', 22, [.mark]), (isQuery relaxed, 21, [.mark])]
  | 21 => [(is ' ', 4, [.fragment]), (is '%', 22, []), (isQuery relaxed, 21, [])]
  | 22 => hexRow 23
  | 23 => hexRow 21
  | 24 => hexRow 25
  | 25 => hexRow 19
  | 26 => pathEnds ++ [(is '%', 27, []), (is '/', 26, []), (isPchar relaxed, 26, [])]
  | 27 => hexRow 28
  | 28 => hexRow 26
  | 29 => [(is ' ', 4, [.start_query, .query_string, .request_uri]),
      (is '#', 20, [.start_query, .query_string, .request_uri]), (is '%', 31, [.start_query]),
      (isQuery relaxed, 30, [.start_query])]
  | 30 => [(is ' ', 4, [.query_string, .request_uri]), (is '#', 20, [.query_string, .request_uri]), (is '%', 31, []),
      (isQuery relaxed, 30, [])]
  | 31 => hexRow 32
  | 32 => hexRow 30
  -- a scheme, which may be the first segment of a relative path
  | 173 => pathEnds ++ [(is '%', 24, []), (is '/', 26, []), (is ':', 174, []),
      (fun c => isAlpha c || isDigit c || is '+' c || is '-' c || is '.' c, 173, []), (isSegment relaxed, 19, [])]
  | 174 => [(is ' ', 4, [.mark, .request_path, .request_uri]), (is '#', 20, [.mark, .request_path, .request_uri]),
      (is '?', 29, [.mark, .request_path]), (is '%', 27, [.mark]), (is '/', 33, [.mark]), (isPchar relaxed, 26, [.mark])]
  | _ => []

/-- a document, and the end of a head, whose last byte might be one of a name -/
def documentRow (relaxed : Bool) : ℤ → List Case
  | 194 => [(isElement, 195, [])]
  | 195 => [(isElement, 195, []), (fun c => isspace c || is '/' c || is '>' c, 196, [.request_path])]
  | 196 => [(is '>', 197, []), (fun _ => true, 196, [])]
  | 197 => [(isBetween 0 0, 349, [.xml, .done]), (is '>', 197, []), (fun _ => true, 196, [])]
  | 198 => jsonEnds ++ [(is '%', 203, []), (is '/', 208, []), (isSegment relaxed, 202, [])]
  | 199 => [(is '\x7b', 200, [.mark])]
  | 200 => [(is '\x7d', 201, []), (fun _ => true, 200, [])]
  | 201 => [(isBetween 0 0, 349, [.json, .done]), (is '\x7d', 201, []), (fun _ => true, 200, [])]
  | 202 => jsonEnds ++ [(is '%', 203, []), (is '/', 205, []), (isSegment relaxed, 202, [])]
  | 203 => hexRow 204
  | 204 => hexRow 202
  | 205 => jsonEnds ++ [(is '%', 206, []), (is '/', 205, []), (isPchar relaxed, 205, [])]
  | 206 => hexRow 207
  | 207 => hexRow 205
  | 348 => [(is ':', 15, [.write_field]), (isName, 14, [])]
  | _ => []

def row (relaxed : Bool) (cs : ℤ) : List Case :=
  if 33 ≤ cs ∧ cs ≤ 172 then authorityRow relaxed 26 pathEnds cs
  else if 208 ≤ cs ∧ cs ≤ 347 then moveRow 175 (authorityRow relaxed 205 jsonEnds (cs - 175))
  -- the first twenty bytes of a method
  else if 175 ≤ cs ∧ cs ≤ 192 then [(is ' ', 3, [.request_method]), (isMethod, cs + 1, [])]
  else if cs = 193 then [(is ' ', 3, [.request_method])]
  else if 194 ≤ cs then documentRow relaxed cs
  else lineRow relaxed cs

/-- the generated machine -/
def httpTable (relaxed : Bool) (cs : ℤ) (c : UInt8) : Option (ℤ × List Action) :=
  ((row relaxed cs).find? fun k => k.1 c).map Prod.snd

end Sylar.Http.Request

import Schemata.Number.Text

/-!
# JSON values and their text

A JSON value keeps the entries of an object in order. Its text is the compact one: no spaces, keys
in order, and in a string an escape only for the quotation mark, the backslash and the control
characters below U+0020. A number that is not finite has no JSON text of its own and is written as
`null`.
-/

namespace Schemata

/-- A JSON value. -/
inductive Json where
  | null
  | bool (b : Bool)
  | number (n : Number)
  | string (s : String)
  | array (items : List Json)
  | object (entries : List (String × Json))

namespace Json

/-! ## Strings -/

/-- The lowercase hexadecimal digit of a number below 16. -/
def hexDigit (d : Nat) : Char := Char.ofNat (if d < 10 then 48 + d else 87 + d)

/-- A character inside a quoted string. -/
def escape (c : Char) : List Char :=
  match c with
  | '"' => ['\\', '"']
  | '\\' => ['\\', '\\']
  | '\x08' => ['\\', 'b']
  | '\x0c' => ['\\', 'f']
  | '\n' => ['\\', 'n']
  | '\r' => ['\\', 'r']
  | '\t' => ['\\', 't']
  | c =>
    if c.toNat < 0x20 then ['\\', 'u', '0', '0', hexDigit (c.toNat / 16), hexDigit (c.toNat % 16)]
    else [c]

/-- A string in quotation marks. -/
def quote (s : String) : String := "\"" ++ String.ofList (s.toList.flatMap escape) ++ "\""

/-! ## Values -/

mutual

/-- The compact text. -/
def render : Json → String
  | .null => "null"
  | .bool b => if b then "true" else "false"
  | .number n => if n.isFinite then n.jsonText else "null"
  | .string s => quote s
  | .array items => "[" ++ ",".intercalate (renderItems items) ++ "]"
  | .object entries => "\x7b" ++ ",".intercalate (renderEntries entries) ++ "\x7d"
termination_by structural j => j

/-- The texts of the items of an array. -/
def renderItems : List Json → List String
  | [] => []
  | j :: rest => j.render :: renderItems rest
termination_by structural js => js

/-- The texts of the entries of an object. -/
def renderEntries : List (String × Json) → List String
  | [] => []
  | (key, j) :: rest => (quote key ++ ":" ++ j.render) :: renderEntries rest
termination_by structural es => es

end

end Json

end Schemata

import FontSizeLint.Json.Value
import FontSizeLint.Numeric.Shortest

/-! Writing JSON texts, compact or with a line for each item. -/
namespace FontSizeLint.Json
open Numeric

/-- Numbers are written without exponent from 0.00001 up to 10 ^ 16, and always with a point or an
exponent, so that they read as no integer. -/
def realStyle : Style := ⟨.even, fun point => -5 < point && point ≤ 16, ['.', '0']⟩

def Number.text : Number → List Char
  | integer n => (toString n).toList
  | real x => x.text realStyle

/-- A character of a string; only quotation marks, backslashes and control characters are
escaped. -/
def escaped (c : Char) : List Char :=
  if c == '"' || c == '\\' then ['\\', c]
  else if c == '\x08' then ['\\', 'b']
  else if c == '\x0c' then ['\\', 'f']
  else if c == '\n' then ['\\', 'n']
  else if c == '\r' then ['\\', 'r']
  else if c == '\t' then ['\\', 't']
  else if c.toNat < 0x20 then
    ['\\', 'u', '0', '0', Nat.digitChar (c.toNat / 16), Nat.digitChar (c.toNat % 16)]
  else [c]

def stringText (s : String) : List Char := '"' :: s.toList.flatMap escaped ++ ['"']

def enclosed (opener closer : Char) (items : List (List Char)) : List Char :=
  opener :: [','].intercalate items ++ [closer]

def indented (level : Nat) : List Char := '\n' :: List.replicate (2 * level) ' '

/-- A bracketed list with a line for each item; `level` is that of the brackets. -/
def stacked (level : Nat) (opener closer : Char) (items : List (List Char)) : List Char :=
  match items with
  | [] => [opener, closer]
  | items =>
    opener :: [','].intercalate (items.map fun i => indented (level + 1) ++ i) ++
      indented level ++ [closer]

mutual
def compact : Json → List Char
  | null => "null".toList
  | bool b => (if b then "true" else "false").toList
  | number n => n.text
  | string s => stringText s
  | array items => enclosed '[' ']' (compactItems items)
  | object entries => enclosed '{' '}' (compactEntries entries)
def compactItems : List Json → List (List Char)
  | [] => []
  | v :: vs => compact v :: compactItems vs
def compactEntries : List (String × Json) → List (List Char)
  | [] => []
  | (k, v) :: es => (stringText k ++ ':' :: compact v) :: compactEntries es
end

mutual
/-- The text with a line for each item, at a level of indentation. -/
def pretty (level : Nat) : Json → List Char
  | null => "null".toList
  | bool b => (if b then "true" else "false").toList
  | number n => n.text
  | string s => stringText s
  | array items => stacked level '[' ']' (prettyItems (level + 1) items)
  | object entries => stacked level '{' '}' (prettyEntries (level + 1) entries)
def prettyItems (level : Nat) : List Json → List (List Char)
  | [] => []
  | v :: vs => pretty level v :: prettyItems level vs
def prettyEntries (level : Nat) : List (String × Json) → List (List Char)
  | [] => []
  | (k, v) :: es => (stringText k ++ ':' :: ' ' :: pretty level v) :: prettyEntries level es
end

end FontSizeLint.Json

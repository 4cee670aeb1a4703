import FontSizeLint.Json.Writer
import FontSizeLint.Text.Quoted

/-! Diagnostic records, and reading them from JSON values. -/
namespace FontSizeLint
open Text

/-- One violation of a rule: where it is, and what is said about it, without and with colours. -/
structure Record where
  ruleName : String
  line : Nat
  col : Nat
  message : String
  colorMessage : String
  deriving DecidableEq

namespace Record

def text (r : Record) : String :=
  "line " ++ toString r.line ++ ", col " ++ toString r.col ++ ": " ++ r.message

inductive Field
  | ruleName
  | line
  | col
  | message
  | colorMessage
  deriving DecidableEq

def Field.name : Field → String
  | ruleName => "ruleName"
  | line => "line"
  | col => "col"
  | message => "message"
  | colorMessage => "colorMessage"

/-- What has to stand somewhere in a written record. -/
inductive Expected
  | record
  | string
  | word

def Expected.text : Expected → String
  | record => "struct DiagnosticRecord"
  | string => "a string"
  | word => "u32"

/-- Why a JSON value is no record. -/
inductive Error
  | wrongType (found : Json) (expected : Expected)
  | outOfRange (n : Int)
  | missing (field : Field)
  | tooFew (count : Nat)
  | tooMany (count : Nat)

def called : Json → String
  | .null => "null"
  | .bool b => "boolean `" ++ toString b ++ "`"
  | .number (.integer n) => "integer `" ++ toString n ++ "`"
  | .number (.real x) => "floating point `" ++ String.ofList (Json.Number.real x).text ++ "`"
  | .string s => "string " ++ String.ofList (quoted s.toList)
  | .array _ => "sequence"
  | .object _ => "map"

def Error.message : Error → String
  | wrongType found expected =>
    "invalid type: " ++ called found ++ ", expected " ++ expected.text
  | outOfRange n => "invalid value: integer `" ++ toString n ++ "`, expected u32"
  | missing field => "missing field `" ++ field.name ++ "`"
  | tooFew count =>
    "invalid length " ++ toString count ++ ", expected struct DiagnosticRecord with 5 elements"
  | tooMany count => "invalid length " ++ toString count ++ ", expected fewer elements in array"

def stringOf : Json → Except Error String
  | .string s => .ok s
  | v => .error (.wrongType v .string)

/-- A natural number of 32 bits. -/
def wordOf : Json → Except Error Nat
  | .number (.integer n) =>
    if 0 ≤ n ∧ n < Nat.pow 2 32 then .ok n.toNat else .error (.outOfRange n)
  | v => .error (.wrongType v .word)

/-- The fields met so far. -/
structure Draft where
  ruleName : Option String
  line : Option Nat
  col : Option Nat
  message : Option String
  colorMessage : Option String

namespace Draft

def empty : Draft := ⟨none, none, none, none, none⟩

/-- Takes in one entry of an object; entries of other names are passed over. -/
def take (d : Draft) (entry : String × Json) : Except Error Draft :=
  match entry.1 with
  | "ruleName" => (stringOf entry.2).map fun s => { d with ruleName := some s }
  | "line" => (wordOf entry.2).map fun n => { d with line := some n }
  | "col" => (wordOf entry.2).map fun n => { d with col := some n }
  | "message" => (stringOf entry.2).map fun s => { d with message := some s }
  | "colorMessage" => (stringOf entry.2).map fun s => { d with colorMessage := some s }
  | _ => .ok d

def require {α : Type} (field : Field) : Option α → Except Error α
  | some a => .ok a
  | none => .error (.missing field)

def finish (d : Draft) : Except Error Record := do
  let ruleName ← require .ruleName d.ruleName
  let line ← require .line d.line
  let col ← require .col d.col
  let message ← require .message d.message
  let colorMessage ← require .colorMessage d.colorMessage
  .ok ⟨ruleName, line, col, message, colorMessage⟩

end Draft

/-- A record written as an object. The first entry of a wrong type is the fault reported, before
any that is missing. -/
def ofEntries (entries : List (String × Json)) : Except Error Record := do
  (← entries.foldlM Draft.take .empty).finish

def ofItems (items : List Json) : Except Error Record := do
  let item (i : Nat) : Except Error Json :=
    match items[i]? with
    | some v => .ok v
    | none => .error (.tooFew items.length)
  let ruleName ← stringOf (← item 0)
  let line ← wordOf (← item 1)
  let col ← wordOf (← item 2)
  let message ← stringOf (← item 3)
  let colorMessage ← stringOf (← item 4)
  if 5 < items.length then .error (.tooMany items.length)
  else .ok ⟨ruleName, line, col, message, colorMessage⟩

def ofJson : Json → Except Error Record
  | .object entries => ofEntries entries
  | .array items => ofItems items
  | v => .error (.wrongType v .record)

def toJson (r : Record) : Json :=
  .object
    [(Field.ruleName.name, .string r.ruleName),
     (Field.line.name, .number (.integer r.line)),
     (Field.col.name, .number (.integer r.col)),
     (Field.message.name, .string r.message),
     (Field.colorMessage.name, .string r.colorMessage)]

end Record
end FontSizeLint

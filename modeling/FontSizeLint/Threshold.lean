import FontSizeLint.Json.Reader
import FontSizeLint.Json.Writer
import FontSizeLint.Numeric.Numeral

/-! Thresholds: the least size that a rule accepts, and the ways to configure one. -/
namespace FontSizeLint
open Text Numeric

/-- A finite number greater than zero. -/
structure Threshold where
  rank : Fin single.limit
  pos : 0 < rank.val
  deriving DecidableEq

namespace Threshold

def toSingle (t : Threshold) : Single := .finite ⟨false, t.rank⟩

def ofSingle? : Single → Option Threshold
  | .finite ⟨false, rank⟩ => if h : 0 < rank.val then some ⟨rank, h⟩ else none
  | _ => none

def text (t : Threshold) : List Char := t.toSingle.text

/-- Whether a size is too small; one equal to the threshold is not. -/
def violatedBy (t : Threshold) (m : Single) : Bool := m.lt t.toSingle

/-- Why a text is no threshold. -/
inductive TextError
  | notNumeric (text : List Char) (cause : Numeral.Error)
  | notPositive (value : Single)

def TextError.message : TextError → String
  | notNumeric text cause =>
    "`" ++ String.ofList text ++ "` is not a number: " ++ cause.message
  | notPositive value =>
    "threshold must be positive and finite, got " ++ String.ofList value.text

def ofText (s : List Char) : Except TextError Threshold :=
  match Binary.ofText single (trim s) with
  | .error cause => .error (.notNumeric (trim s) cause)
  | .ok x =>
    match ofSingle? x with
    | some t => .ok t
    | none => .error (.notPositive x)

def narrow (x : Double) : Single :=
  .ofRank x.negative (single.nearest x.units (Nat.pow 2 double.lowest))

/-- A number, rounded to 64 bits and then to 32, or a text; nothing else is a threshold. -/
def ofJson? : Json → Option Threshold
  | .number n => ofSingle? (narrow n.toDouble)
  | .string s => (ofText s.toList).toOption
  | _ => none

/-- Why a configuration value or the text of one is no threshold. -/
inductive ConfigError
  | unreadable (e : Json.ReadError)
  | unusable (value : Json)

/-- What is said of a value that is no threshold. -/
def unusableMessage (value : Json) : String := "invalid threshold: " ++ String.ofList value.compact

def ofJson (value : Json) : Except ConfigError Threshold :=
  match ofJson? value with
  | some t => .ok t
  | none => .error (.unusable value)

/-- Reads a threshold from a JSON text. A leading value that is none is the fault reported, before
anything that stands behind it. -/
def ofJsonText (s : List Char) : Except ConfigError Threshold :=
  match Json.readLeading s with
  | .error e => .error (.unreadable e)
  | .ok (value, trailing) =>
    match ofJson value with
    | .error e => .error e
    | .ok t => if trailing then .error (.unreadable .malformed) else .ok t

theorem ofSingle?_toSingle (t : Threshold) : ofSingle? t.toSingle = some t := by
  simp [ofSingle?, toSingle, t.pos]

/-- Thresholds compare as their ranks do, so any two compare. -/
theorem compare?_toSingle (t u : Threshold) :
    t.toSingle.compare? u.toSingle = some (compare (t.rank : Int) u.rank) := rfl

end Threshold
end FontSizeLint

import FontSizeLint.Numeric.Decimal
import FontSizeLint.Text.Blank

/-! Written numbers: a sign, digits with a point, an exponent; or a word for what is not finite. -/
namespace FontSizeLint.Numeric
open Text

inductive Size
  | nan
  | infinite
  | decimal (d : Decimal)
  deriving DecidableEq, Repr

/-- What a written number says, before it is rounded. -/
structure Numeral where
  negative : Bool
  size : Size
  deriving DecidableEq, Repr

namespace Numeral

inductive Error
  | empty
  | malformed
  deriving DecidableEq, Repr

def Error.message : Error → String
  | empty => "cannot parse float from empty string"
  | malformed => "invalid float literal"

def isExponentMark (c : Char) : Bool := c == 'e' || c == 'E'

/-- The number that decimal digits write; at least one is needed, and nothing else may stand. -/
def natural? (s : List Char) : Option Nat :=
  if s.isEmpty || !s.all Char.isDigit then none else some (Nat.ofDigitChars 10 s 0)

/-- The exponent behind the digits of a number: nothing, or a mark and a whole number. -/
def exponent? : List Char → Option Int
  | [] => some 0
  | c :: s =>
    if isExponentMark c then
      match s with
      | '-' :: r => (natural? r).map fun n => -(n : Int)
      | '+' :: r => (natural? r).map Int.ofNat
      | r => (natural? r).map Int.ofNat
    else none

/-- The decimal that a text without sign writes. A point may stand before, between or behind the
digits, but not alone. -/
def decimal? (s : List Char) : Option Decimal :=
  let whole := s.takeWhile Char.isDigit
  let rest := s.dropWhile Char.isDigit
  let (fraction, rest) :=
    match rest with
    | '.' :: r => (r.takeWhile Char.isDigit, r.dropWhile Char.isDigit)
    | r => ([], r)
  match whole ++ fraction with
  | [] => none
  | digits => (exponent? rest).map fun e => ⟨Nat.ofDigitChars 10 digits 0, e - fraction.length⟩

/-- The size that a text without sign writes; words are taken in any ASCII case. -/
def size? (s : List Char) : Option Size :=
  match decimal? s with
  | some d => some (.decimal d)
  | none =>
    let word := lower s
    if word == "nan".toList then some .nan
    else if word == "inf".toList || word == "infinity".toList then some .infinite
    else none

def ofText (s : List Char) : Except Error Numeral :=
  let signed (negative : Bool) (r : List Char) : Except Error Numeral :=
    match size? r with
    | some size => .ok ⟨negative, size⟩
    | none => .error .malformed
  match s with
  | [] => .error .empty
  | '-' :: r => signed true r
  | '+' :: r => signed false r
  | r => signed false r

/-- The number of a format that is nearest to what is written. -/
def toBinary (F : Format) (n : Numeral) : Binary F :=
  match n.size with
  | .nan => .nan
  | .infinite => .infinite n.negative
  | .decimal d => d.toBinary F n.negative

/-- Length of the longest numeral of digits at the front of a text. A point or an exponent mark
counts only with a digit behind it. -/
def leadingLength (s : List Char) : Nat :=
  let digitsFrom (k : Nat) : Nat := ((s.drop k).takeWhile Char.isDigit).length
  let signAt (k : Nat) : Nat := if s[k]? == some '+' || s[k]? == some '-' then 1 else 0
  let whole := signAt 0 + digitsFrom (signAt 0)
  let mantissa :=
    if s[whole]? == some '.' && 0 < digitsFrom (whole + 1) then
      whole + 1 + digitsFrom (whole + 1)
    else whole
  let digits := mantissa + 1 + signAt (mantissa + 1)
  if (s[mantissa]?.any isExponentMark) && 0 < digitsFrom digits then digits + digitsFrom digits
  else mantissa

def leading? (F : Format) (s : List Char) : Option (Binary F) :=
  match ofText (s.take (leadingLength s)) with
  | .ok n => some (n.toBinary F)
  | .error _ => none

end Numeral

def Binary.ofText (F : Format) (s : List Char) : Except Numeral.Error (Binary F) :=
  (Numeral.ofText s).map (·.toBinary F)

example : Numeral.leadingLength "-12.5em".toList = 5 := by decide
example : Numeral.leadingLength "1e-3px".toList = 4 := by decide
example : Numeral.ofText "-.5e3".toList = .ok ⟨true, .decimal ⟨5, 2⟩⟩ := rfl

end FontSizeLint.Numeric

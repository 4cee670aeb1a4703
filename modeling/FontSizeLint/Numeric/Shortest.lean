import FontSizeLint.Numeric.Decimal

/-! The shortest decimal that reads as a given magnitude, and its written form. -/
namespace FontSizeLint.Numeric

/-- Which of two equally near decimals is taken. -/
inductive Tie
  | up
  | even
  deriving DecidableEq, Repr

/-- The decimals that read as one magnitude. All numbers count units of 10 ^ -`lowest` of the
format, in which every magnitude is whole; the ends are doubled, since they lie half-way. -/
structure Window where
  twiceLow : Nat
  value : Nat
  twiceHigh : Nat
  closed : Bool

namespace Window

/-- Magnitudes of even rank also take the reals half-way to their neighbours. -/
def ofRank (F : Format) (rank : Nat) : Window :=
  let scale := Nat.pow 5 F.lowest
  { twiceLow := (F.units (rank - 1) + F.units rank) * scale
    value := F.units rank * scale
    twiceHigh := (F.units rank + F.units (rank + 1)) * scale
    closed := rank % 2 == 0 }

def contains (w : Window) (n : Nat) : Bool :=
  if w.closed then w.twiceLow ≤ 2 * n && 2 * n ≤ w.twiceHigh
  else w.twiceLow < 2 * n && 2 * n < w.twiceHigh

/-- Of the two multiples of `grid` around the value, the one in the window, if both are the nearer
one; given as a multiple. -/
def nearest? (w : Window) (tie : Tie) (grid : Nat) : Option Nat :=
  let below := w.value / grid
  let rest := w.value % grid
  let above := below + 1
  match w.contains (below * grid), w.contains (above * grid) with
  | false, false => none
  | true, false => some below
  | false, true => some above
  | true, true =>
    if 2 * rest < grid then some below
    else if grid < 2 * rest then some above
    else match tie with
      | .up => some above
      | .even => some (if below % 2 = 0 then below else above)

/-- Looks for a power of ten with a multiple in the window, from 10 ^ `j` downwards. The value is
a multiple of 10 ^ 0. -/
def search (w : Window) (tie : Tie) : Nat → Nat × Nat
  | 0 => (w.value, 0)
  | j + 1 =>
    match w.nearest? tie (Nat.pow 10 (j + 1)) with
    | some n => (n, j + 1)
    | none => search w tie j

end Window

/-- The decimal of fewest digits among those that read as the magnitude, and of these the nearest.
The search begins above the value, where no power of ten has a multiple in the window. -/
def shortest (F : Format) (tie : Tie) (rank : Nat) : Decimal :=
  if rank = 0 then ⟨0, 0⟩
  else
    let whole := (Nat.toDigits 10 (F.units rank / Nat.pow 2 F.lowest)).length
    let (digits, j) := (Window.ofRank F rank).search tie (F.lowest + whole)
    ⟨digits, j - F.lowest⟩

/-- How numbers are written. The place of the decimal point is the number of digits before it, and
below zero the number of zeros behind it. -/
structure Style where
  tie : Tie
  /-- Whether a number with its point at a place is written without exponent. -/
  positional : Int → Bool
  /-- What stands behind a whole number that is written without exponent. -/
  whole : List Char

/-- Digits with the decimal point behind the first `point` of them, zeros filled in. -/
def positionalText (style : Style) (digits : List Char) (point : Int) : List Char :=
  if point ≤ 0 then '0' :: '.' :: List.replicate point.natAbs '0' ++ digits
  else if point < digits.length then
    digits.take point.toNat ++ '.' :: digits.drop point.toNat
  else digits ++ List.replicate (point.toNat - digits.length) '0' ++ style.whole

/-- The first digit, a point before the others, and the exponent with its sign. -/
def exponentText (digits : List Char) (point : Int) : List Char :=
  let mantissa :=
    match digits with
    | d :: e :: ds => d :: '.' :: e :: ds
    | ds => ds
  let exponent := point - 1
  mantissa ++ 'e' :: (if exponent < 0 then '-' else '+') :: Nat.toDigits 10 exponent.natAbs

def Decimal.text (style : Style) (d : Decimal) : List Char :=
  let digits := Nat.toDigits 10 d.digits
  let point := digits.length + d.exponent
  if style.positional point then positionalText style digits point else exponentText digits point

def Finite.text {F : Format} (style : Style) (x : Finite F) : List Char :=
  let magnitude := (shortest F style.tie x.rank).text style
  if x.negative then '-' :: magnitude else magnitude

/-- Every number is written without exponent, a whole one without point. -/
def plainStyle : Style := ⟨.up, fun _ => true, []⟩

def Binary.text {F : Format} : Binary F → List Char
  | nan => "NaN".toList
  | infinite negative => (if negative then "-inf" else "inf").toList
  | finite x => x.text plainStyle

example : shortest single .up 1 = ⟨1, -45⟩ := by decide +kernel
example : (shortest single .up (single.nearest 123456789 1)).text plainStyle =
    "123456790".toList := by decide +kernel

end FontSizeLint.Numeric

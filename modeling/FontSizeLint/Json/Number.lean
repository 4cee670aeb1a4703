import FontSizeLint.Json.Value
import FontSizeLint.Text.Blank

/-! Reading JSON numbers. A number that is no integer is the leading digits that fit in 64 bits,
rounded, and then multiplied or divided by a rounded power of ten; so it may miss the nearest
binary number. -/
namespace FontSizeLint.Json
open Numeric

/-- Why a text cannot be read: it ends too early, or goes on in a way that it must not. -/
inductive ReadError
  | ended
  | malformed
  deriving DecidableEq, Repr

namespace Number

/-- The finite number of a rank, none from infinity on. -/
def finite? (negative : Bool) (rank : Nat) : Option Double :=
  if h : rank < double.limit then some ⟨negative, rank, h⟩ else none

/-- Rank of the product of two magnitudes. -/
def timesRank (x y : Nat) : Nat :=
  double.nearest (double.units x * double.units y) (Nat.pow 2 (2 * double.lowest))

/-- Rank of the quotient of two magnitudes. -/
def overRank (x y : Nat) : Nat := double.nearest (double.units x) (double.units y)

/-- Rank of a power of ten. -/
def tenRank (n : Nat) : Nat := double.nearest (Nat.pow 10 n) 1

/-- The greatest power of ten that is finite. -/
def greatestTen : Nat := 308

/-- Divides by a power of ten, by the greatest one as often as it takes. -/
def divideRank (x : Nat) (n : Nat) : Nat :=
  if n ≤ greatestTen then overRank x (tenRank n)
  else if x = 0 then 0
  else divideRank (overRank x (tenRank greatestTen)) (n - greatestTen)
termination_by n
decreasing_by simp_all [greatestTen]; omega

/-- The number of given digits and exponent, none if it is out of range. -/
def scale? (negative : Bool) (digits : Nat) (exponent : Int) : Option Double :=
  let x := double.nearest digits 1
  match exponent with
  | .ofNat n =>
    if n ≤ greatestTen then finite? negative (timesRank x (tenRank n))
    else if x = 0 then finite? negative 0 else none
  | .negSucc n => finite? negative (divideRank x (n + 1))

/-- Takes digits on to a number as long as it fits in 64 bits, and counts those left over. -/
def absorb (n : Nat) : List Char → Nat × Nat
  | [] => (n, 0)
  | c :: s =>
    let m := 10 * n + (c.toNat - 48)
    if m < Nat.pow 2 64 then absorb m s else (n, s.length + 1)

/-- The written parts of a number without sign. -/
structure Parts where
  whole : List Char
  fraction : Option (List Char)
  exponent : Option (Bool × List Char)

/-- An exponent of more than 31 bits leaves nothing or too much. -/
def exponentLimit : Nat := Nat.pow 2 31

def Parts.real? (negative : Bool) (p : Parts) : Option Double :=
  let (n, surplus) := absorb 0 p.whole
  let fraction := p.fraction.getD []
  let (m, unread) := absorb n fraction
  let exponent : Int := surplus + unread - fraction.length
  match p.exponent with
  | none => scale? negative m exponent
  | some (down, digits) =>
    let e := Nat.ofDigitChars 10 digits 0
    if e < exponentLimit then scale? negative m (if down then exponent - e else exponent + e)
    else if m = 0 || down then finite? negative 0
    else none

def Parts.number? (negative : Bool) (p : Parts) : Option Number :=
  let n := Nat.ofDigitChars 10 p.whole 0
  let fits := if negative then 0 < n && n ≤ Nat.pow 2 63 else n < Nat.pow 2 64
  if fits && p.fraction.isNone && p.exponent.isNone then
    some (.integer (if negative then -n else n))
  else (p.real? negative).map .real

def digits (s : List Char) : Except ReadError (List Char) :=
  match s.takeWhile Char.isDigit with
  | [] => .error (if s.isEmpty then .ended else .malformed)
  | ds => .ok ds

/-- The whole part at the front of a text; only zero begins with a zero. -/
def whole (s : List Char) : Except ReadError (List Char) := do
  match ← digits s with
  | '0' :: _ :: _ => .error .malformed
  | ds => .ok ds

def fraction (s : List Char) : Except ReadError (Option (List Char)) :=
  match s with
  | '.' :: r => (digits r).map some
  | _ => .ok none

/-- The exponent at the front of a text: whether it is negative, its digits and its length. -/
def exponent (s : List Char) : Except ReadError (Option (Bool × List Char) × Nat) :=
  match s with
  | [] => .ok (none, 0)
  | c :: r =>
    if c == 'e' || c == 'E' then
      match r with
      | '-' :: t => (digits t).map fun ds => (some (true, ds), ds.length + 2)
      | '+' :: t => (digits t).map fun ds => (some (false, ds), ds.length + 2)
      | t => (digits t).map fun ds => (some (false, ds), ds.length + 1)
    else .ok (none, 0)

/-- Reads the number at the front of a text, and gives its length. -/
def read (s : List Char) : Except ReadError (Number × Nat) := do
  let negative := s.head? == some '-'
  let r := if negative then s.drop 1 else s
  let w ← whole r
  let r := r.drop w.length
  let f ← fraction r
  let fractionLength := (f.map fun ds => ds.length + 1).getD 0
  let (e, exponentLength) ← exponent (r.drop fractionLength)
  match Parts.number? negative ⟨w, f, e⟩ with
  | some n => .ok (n, (if negative then 1 else 0) + w.length + fractionLength + exponentLength)
  | none => .error .malformed

def toDouble : Number → Double
  | integer n => (finite? (n < 0) (double.nearest n.natAbs 1)).getD ⟨n < 0, 0, by decide⟩
  | real x => x

end Number
end FontSizeLint.Json

import FontSizeLint.Numeric.Binary

/-! Decimal numbers and the binary numbers nearest to them. -/
namespace FontSizeLint.Numeric

/-- The magnitude `digits` * 10 ^ `exponent`. -/
structure Decimal where
  digits : Nat
  exponent : Int
  deriving DecidableEq, Repr

/-- Powers of ten of this size are past every magnitude of the format, below or above. -/
def Format.reach (F : Format) : Nat := F.precision + F.lowest + F.limit / F.binade

namespace Decimal

/-- The exponent, moved no further than to where a change in it changes no rounding. -/
def boundedExponent (F : Format) (d : Decimal) : Int :=
  max (-(F.reach + d.digits.log2 + 1)) (min F.reach d.exponent)

/-- The rank of the nearest magnitude of a format. -/
def nearest (F : Format) (d : Decimal) : Nat :=
  match d.boundedExponent F with
  | .ofNat e => F.nearest (d.digits * Nat.pow 10 e) 1
  | .negSucc e => F.nearest d.digits (Nat.pow 10 (e + 1))

/-- The binary number nearest to a decimal with a sign. -/
def toBinary (F : Format) (negative : Bool) (d : Decimal) : Binary F :=
  .ofRank negative (d.nearest F)

end Decimal

example : (Decimal.mk 1 (10 ^ 30)).nearest single = single.nearest (10 ^ 428) 1 := by decide +kernel
example : single.limit ≤ single.nearest (10 ^ 428) 1 := by decide +kernel

end FontSizeLint.Numeric

/-! Binary floating-point numbers. The magnitudes of a format are numbered upwards from zero, so
that a magnitude is a rank, the order of magnitudes is that of ranks, and the even one of two
neighbours has the even rank. -/
namespace FontSizeLint.Numeric

/-- A format with `precision` significant bits, smallest positive magnitude 2 ^ -`lowest` and
`limit` finite magnitudes. -/
structure Format where
  precision : Nat
  lowest : Nat
  limit : Nat

/-- The format of 32 bits. -/
def single : Format := ⟨24, 149, 255 * Nat.pow 2 23⟩

/-- The format of 64 bits. -/
def double : Format := ⟨53, 1074, 2047 * Nat.pow 2 52⟩

/-- The quotient rounded to the nearest natural number, a half to the even one. -/
def roundQuotient (n d : Nat) : Nat :=
  let q := n / d
  let r := n % d
  if 2 * r < d || (2 * r == d && q % 2 == 0) then q else q + 1

namespace Format

/-- How many magnitudes there are from one power of two to the next. -/
def binade (F : Format) : Nat := Nat.pow 2 (F.precision - 1)

/-- The magnitude of a rank, as a multiple of the smallest positive one. -/
def units (F : Format) (rank : Nat) : Nat :=
  if rank < F.binade then rank
  else (F.binade + rank % F.binade) * Nat.pow 2 (rank / F.binade - 1)

/-- The rank of the magnitude nearest to a quotient, of two equally near ones the even. Ranks from
the limit on stand for infinity. -/
def nearest (F : Format) (num den : Nat) : Nat :=
  let n := num * Nat.pow 2 F.lowest
  let k := Nat.log2 (n / den) + 1 - F.precision
  k * F.binade + roundQuotient n (den * Nat.pow 2 k)

end Format

/-- A finite number: a sign, which zero has too, and a magnitude. -/
structure Finite (F : Format) where
  negative : Bool
  rank : Fin F.limit
  deriving DecidableEq

inductive Binary (F : Format)
  | nan
  | infinite (negative : Bool)
  | finite (x : Finite F)
  deriving DecidableEq

abbrev Single := Binary single
abbrev Double := Finite double

/-- The finite number as a multiple of the smallest positive one. -/
def Finite.units {F : Format} (x : Finite F) : Nat := F.units x.rank

namespace Binary
variable {F : Format}

def ofRank (negative : Bool) (rank : Nat) : Binary F :=
  if h : rank < F.limit then finite ⟨negative, rank, h⟩ else infinite negative

/-- Place in the order of numbers: the rank with its sign. Both zeros have one place, and what is
not a number has none. -/
def place? : Binary F → Option Int
  | nan => none
  | infinite negative => some (if negative then -F.limit else F.limit)
  | finite x => some (if x.negative then -x.rank else x.rank)

def compare? (x y : Binary F) : Option Ordering :=
  match x.place?, y.place? with
  | some a, some b => some (compare a b)
  | _, _ => none

def lt (x y : Binary F) : Bool := x.compare? y == some .lt

@[simp] theorem compare?_nan (x : Binary F) : x.compare? nan = none := by
  unfold compare?
  cases x.place? <;> rfl

@[simp] theorem nan_compare? (x : Binary F) : nan.compare? x = none := rfl

@[simp] theorem lt_nan (x : Binary F) : x.lt nan = false := by simp [lt]

@[simp] theorem nan_lt (x : Binary F) : nan.lt x = false := rfl

end Binary

example : single.nearest 1 10 = 0x3dcccccd := by decide +kernel
example : double.nearest 1 10 = 0x3fb999999999999a := by decide +kernel

end FontSizeLint.Numeric

import FontSizeLint.Numeric.Numeral
import FontSizeLint.Proofs.Numeric.Rounding
import Mathlib.Data.List.TakeWhile
import Mathlib.Tactic.FieldSimp
import Mathlib.Tactic.Linarith

/-! The grammar of written decimal numbers and the exact numbers that they write. What is read as a
decimal is what the grammar writes, with the same value. -/
namespace FontSizeLint.Numeric

/-- Decimal digits as written, the highest first. -/
def digitsText (ds : List (Fin 10)) : List Char := ds.map fun d : Fin 10 => Nat.digitChar d.val

def digitsValue : List (Fin 10) → Nat
  | [] => 0
  | d :: ds => d * 10 ^ ds.length + digitsValue ds

inductive Sign
  | absent
  | plus
  | minus
  deriving DecidableEq

namespace Sign

def text : Sign → List Char
  | absent => []
  | plus => ['+']
  | minus => ['-']

def isNegative : Sign → Bool
  | minus => true
  | _ => false

def factor : Sign → Int
  | minus => -1
  | _ => 1

end Sign

/-- A mark, a sign and at least one digit. -/
structure Exponent where
  mark : Char
  sign : Sign
  digits : List (Fin 10)
  isMark : mark = 'e' ∨ mark = 'E'
  ne_nil : digits ≠ []

/-- A written decimal number. There may be a point without digits behind it. -/
structure Literal where
  sign : Sign
  whole : List (Fin 10)
  fraction : Option (List (Fin 10))
  exponent : Option Exponent

def fractionText : Option (List (Fin 10)) → List Char
  | none => []
  | some ds => '.' :: digitsText ds

namespace Exponent

def text : Option Exponent → List Char
  | none => []
  | some e => e.mark :: (e.sign.text ++ digitsText e.digits)

def value : Option Exponent → Int
  | none => 0
  | some e => e.sign.factor * digitsValue e.digits

end Exponent

namespace Literal

def unsignedText (l : Literal) : List Char :=
  digitsText l.whole ++ (fractionText l.fraction ++ Exponent.text l.exponent)

def text (l : Literal) : List Char := l.sign.text ++ l.unsignedText

def places (l : Literal) : List (Fin 10) := l.fraction.getD []

def value (l : Literal) : ℚ :=
  l.sign.factor * (digitsValue l.whole + digitsValue l.places / 10 ^ l.places.length) *
    10 ^ Exponent.value l.exponent

/-- Some digit stands before or behind the point. -/
def HasDigits (l : Literal) : Prop := l.whole ++ l.places ≠ []

def decimal (l : Literal) : Decimal :=
  ⟨digitsValue (l.whole ++ l.places), Exponent.value l.exponent - l.places.length⟩

end Literal

/-- A text is a decimal number, and this is its exact value. -/
def Writes (s : List Char) (x : ℚ) : Prop :=
  ∃ l : Literal, l.HasDigits ∧ l.text = s ∧ l.value = x

@[simp] lemma digitsText_nil : digitsText [] = [] := rfl

@[simp] lemma digitsText_cons (d : Fin 10) (ds : List (Fin 10)) :
    digitsText (d :: ds) = Nat.digitChar d :: digitsText ds := rfl

@[simp] lemma digitsText_append (ds es : List (Fin 10)) :
    digitsText (ds ++ es) = digitsText ds ++ digitsText es := List.map_append

@[simp] lemma length_digitsText (ds : List (Fin 10)) : (digitsText ds).length = ds.length :=
  List.length_map _

@[simp] lemma digitsText_eq_nil {ds : List (Fin 10)} : digitsText ds = [] ↔ ds = [] :=
  List.map_eq_nil_iff

lemma isDigit_digitChar (d : Fin 10) : (Nat.digitChar d).isDigit = true := by
  rw [Nat.isDigit_digitChar]
  exact decide_eq_true d.isLt

lemma isDigit_of_mem_digitsText {ds : List (Fin 10)} : ∀ c ∈ digitsText ds, c.isDigit = true := by
  intro c hc
  obtain ⟨d, -, rfl⟩ := List.mem_map.mp hc
  exact isDigit_digitChar d

lemma exists_digitChar {c : Char} (h : c.isDigit = true) : ∃ d : Fin 10, Nat.digitChar d = c := by
  obtain ⟨hl, hu⟩ := Char.isDigit_iff_toNat.mp h
  simp only [Char.reduceToNat] at hl hu
  have hlt : c.toNat - 48 < 10 := by omega
  refine ⟨⟨c.toNat - 48, hlt⟩, Char.toNat_inj.mp ?_⟩
  rw [Nat.toNat_digitChar_of_lt_ten hlt]
  omega

lemma exists_digitsText {s : List Char} (h : ∀ c ∈ s, c.isDigit = true) :
    ∃ ds, digitsText ds = s := by
  induction s with
  | nil => exact ⟨[], rfl⟩
  | cons c s ih =>
    rw [List.forall_mem_cons] at h
    obtain ⟨d, hd⟩ := exists_digitChar h.1
    obtain ⟨ds, hds⟩ := ih h.2
    exact ⟨d :: ds, by rw [← hds, ← hd]; rfl⟩

lemma digitsValue_append (ds es : List (Fin 10)) :
    digitsValue (ds ++ es) = digitsValue ds * 10 ^ es.length + digitsValue es := by
  induction ds with
  | nil => simp [digitsValue]
  | cons d ds ih =>
    simp only [List.cons_append, digitsValue, ih, List.length_append, Nat.pow_add]
    ring

lemma ofDigitChars_digitsText (ds : List (Fin 10)) (n : Nat) :
    Nat.ofDigitChars 10 (digitsText ds) n = n * 10 ^ ds.length + digitsValue ds := by
  induction ds generalizing n with
  | nil => simp [digitsValue]
  | cons d ds ih =>
    rw [digitsText_cons, Nat.ofDigitChars_cons_digitChar_of_lt_ten d.isLt, ih, digitsValue, List.length_cons,
      Nat.pow_succ]
    ring

/-- No digit stands at the front. -/
def Undigited (s : List Char) : Prop := ∀ c ∈ s.head?, c.isDigit = false

lemma takeWhile_digitsText_append (ds : List (Fin 10)) {s : List Char} (h : Undigited s) :
    (digitsText ds ++ s).takeWhile Char.isDigit = digitsText ds := by
  rw [List.takeWhile_append_of_pos isDigit_of_mem_digitsText]
  cases s with
  | nil => simp
  | cons c s => rw [List.takeWhile_cons_of_neg (by simp [h c rfl]), List.append_nil]

lemma dropWhile_digitsText_append (ds : List (Fin 10)) {s : List Char} (h : Undigited s) :
    (digitsText ds ++ s).dropWhile Char.isDigit = s := by
  rw [List.dropWhile_append_of_pos isDigit_of_mem_digitsText]
  cases s with
  | nil => rfl
  | cons c s => rw [List.dropWhile_cons_of_neg (by simp [h c rfl])]

lemma undigited_nil : Undigited [] := by simp [Undigited]

lemma undigited_cons {c : Char} (hc : c.isDigit = false) (s : List Char) : Undigited (c :: s) := by
  rintro d ⟨⟩
  exact hc

lemma Exponent.isDigit_mark (e : Exponent) : e.mark.isDigit = false := by
  rcases e.isMark with hm | hm <;> rw [hm] <;> rfl

lemma undigited_exponent (e : Option Exponent) : Undigited (Exponent.text e) := by
  cases e with
  | none => exact undigited_nil
  | some e => exact undigited_cons e.isDigit_mark _

lemma undigited_fraction_append (f : Option (List (Fin 10))) {s : List Char} (h : Undigited s) :
    Undigited (fractionText f ++ s) := by
  cases f with
  | none => exact h
  | some ds => exact undigited_cons rfl _

lemma ne_sign_of_isDigit {c : Char} (h : c.isDigit = true) : c ≠ '-' ∧ c ≠ '+' := by
  constructor <;> rintro rfl <;> simp at h

namespace Numeral

lemma natural?_digitsText {ds : List (Fin 10)} (h : ds ≠ []) :
    natural? (digitsText ds) = some (digitsValue ds) := by
  have hd : (digitsText ds).all Char.isDigit = true := List.all_eq_true.mpr isDigit_of_mem_digitsText
  have he : (digitsText ds).isEmpty = false := by simpa using h
  rw [natural?, hd, he, ofDigitChars_digitsText, Nat.zero_mul, Nat.zero_add]
  rfl

lemma exponent?_text (e : Option Exponent) :
    exponent? (Exponent.text e) = some (Exponent.value e) := by
  cases e with
  | none => rfl
  | some e =>
    have hn := natural?_digitsText e.ne_nil
    have hm : isExponentMark e.mark = true := by
      rcases e.isMark with hm | hm <;> rw [hm] <;> rfl
    simp only [Exponent.text, Exponent.value, exponent?, hm, if_true]
    cases hs : e.sign with
    | plus => simp [Sign.text, Sign.factor, hn]
    | minus => simp [Sign.text, Sign.factor, hn]
    | absent =>
      obtain ⟨d, ds, hd⟩ := List.exists_cons_of_ne_nil e.ne_nil
      obtain ⟨hminus, hplus⟩ := ne_sign_of_isDigit (isDigit_digitChar d)
      rw [hd, digitsText_cons] at hn ⊢
      simp [Sign.text, Sign.factor, hn, hminus, hplus]

lemma decimal?_unsignedText {l : Literal} (h : l.HasDigits) :
    decimal? l.unsignedText = some l.decimal := by
  have he := undigited_exponent l.exponent
  have hf := undigited_fraction_append l.fraction he
  have hne : digitsText l.whole ++ digitsText l.places ≠ [] := by
    rw [← digitsText_append]
    exact mt digitsText_eq_nil.mp h
  obtain ⟨c, r, hc⟩ := List.exists_cons_of_ne_nil hne
  have hread : (exponent? (Exponent.text l.exponent)).map (fun e =>
      (⟨Nat.ofDigitChars 10 (c :: r) 0, e - (digitsText l.places).length⟩ : Decimal)) =
      some l.decimal := by
    rw [← hc, ← digitsText_append, exponent?_text, ofDigitChars_digitsText, Nat.zero_mul,
      Nat.zero_add, length_digitsText]
    rfl
  simp only [decimal?, Literal.unsignedText, takeWhile_digitsText_append _ hf,
    dropWhile_digitsText_append _ hf]
  cases hfr : l.fraction with
  | some ds =>
    have hp : l.places = ds := by rw [Literal.places, hfr, Option.getD_some]
    rw [hp] at hc hread
    simp only [fractionText, List.cons_append, takeWhile_digitsText_append ds he,
      dropWhile_digitsText_append ds he, hc, hread]
  | none =>
    have hp : l.places = [] := by rw [Literal.places, hfr, Option.getD_none]
    rw [hp, digitsText_nil] at hc hread
    cases hex : l.exponent with
    | none =>
      rw [hex] at hread
      simpa only [fractionText, Exponent.text, List.append_nil, hc] using hread
    | some e =>
      have hm : e.mark ≠ '.' := by
        rcases e.isMark with hm | hm <;> rw [hm] <;> decide
      rw [hex] at hread
      rw [List.append_nil] at hc
      simpa [fractionText, Exponent.text, hm, hc] using hread

lemma exists_cons_unsignedText {l : Literal} (h : l.HasDigits) :
    ∃ c r, l.unsignedText = c :: r ∧ c ≠ '-' ∧ c ≠ '+' := by
  unfold Literal.unsignedText
  cases hw : l.whole with
  | cons d ds => exact ⟨_, _, rfl, ne_sign_of_isDigit (isDigit_digitChar d)⟩
  | nil =>
    cases hf : l.fraction with
    | some ds => exact ⟨_, _, rfl, by decide, by decide⟩
    | none => simp [Literal.HasDigits, Literal.places, hw, hf] at h

theorem ofText_text {l : Literal} (h : l.HasDigits) :
    ofText l.text = .ok ⟨l.sign.isNegative, .decimal l.decimal⟩ := by
  have hs : size? l.unsignedText = some (.decimal l.decimal) := by
    rw [size?, decimal?_unsignedText h]
  unfold Literal.text
  cases l.sign with
  | plus => simp [Sign.text, Sign.isNegative, ofText, hs]
  | minus => simp [Sign.text, Sign.isNegative, ofText, hs]
  | absent =>
    obtain ⟨c, r, hc, hminus, hplus⟩ := exists_cons_unsignedText h
    rw [hc] at hs
    simp [Sign.text, Sign.isNegative, hc, ofText, hs, hminus, hplus]

lemma exists_of_natural? {s : List Char} {n : Nat} (h : natural? s = some n) :
    ∃ ds, ds ≠ [] ∧ digitsText ds = s := by
  rw [natural?, Option.ite_none_left_eq_some] at h
  obtain ⟨hs, -⟩ := h
  simp only [Bool.or_eq_true, Bool.not_eq_true', not_or, Bool.not_eq_true, Bool.not_eq_false,
    List.isEmpty_eq_false_iff, List.all_eq_true] at hs
  obtain ⟨ds, hd⟩ := exists_digitsText hs.2
  exact ⟨ds, fun h0 => hs.1 (by rw [← hd, h0, digitsText_nil]), hd⟩

lemma exists_exponent_text {c : Char} {r : List Char} {n : Nat} (sign : Sign)
    (hc : isExponentMark c = true) (hn : natural? r = some n) :
    ∃ e, Exponent.text e = c :: (sign.text ++ r) := by
  obtain ⟨ds, hd, rfl⟩ := exists_of_natural? hn
  have hm : c = 'e' ∨ c = 'E' := by simpa [isExponentMark] using hc
  exact ⟨some ⟨c, sign, ds, hm, hd⟩, rfl⟩

lemma exists_of_exponent? {s : List Char} {n : Int} (h : exponent? s = some n) :
    ∃ e, Exponent.text e = s := by
  revert h
  fun_cases exponent? s with
  | case1 => intro _; exact ⟨none, rfl⟩
  | case2 c hc r =>
    intro h
    cases hn : natural? r with
    | none => simp [hn] at h
    | some n => exact exists_exponent_text .minus hc hn
  | case3 c hc r =>
    intro h
    obtain ⟨n, hn, -⟩ := Option.map_eq_some_iff.mp h
    exact exists_exponent_text .plus hc hn
  | case4 c hc r =>
    intro h
    obtain ⟨n, hn, -⟩ := Option.map_eq_some_iff.mp h
    exact exists_exponent_text .absent hc hn
  | case5 => simp

lemma exists_of_decimal? {s : List Char} {d : Decimal} (h : decimal? s = some d) :
    ∃ l : Literal, l.HasDigits ∧ l.unsignedText = s := by
  obtain ⟨ws, hws⟩ := exists_digitsText (s := s.takeWhile Char.isDigit)
    fun c hc => List.mem_takeWhile_imp hc
  have hs : digitsText ws ++ s.dropWhile Char.isDigit = s := by
    rw [hws, List.takeWhile_append_dropWhile]
  revert h
  fun_cases decimal? s with
  | case1 => simp
  | case2 whole rest fraction exponent hrest hne =>
    intro h
    obtain ⟨n, hn, -⟩ := Option.map_eq_some_iff.mp h
    obtain ⟨e, he⟩ := exists_of_exponent? hn
    change digitsText ws ++ rest = s at hs
    change digitsText ws = whole at hws
    clear_value whole rest
    -- The split at the point is undone by writing the point and its digits.
    obtain ⟨f, hf, hplaces⟩ : ∃ f, fractionText f ++ exponent = rest ∧
        digitsText (f.getD []) = fraction := by
      split at hrest
      · rename_i r
        obtain ⟨rfl, rfl⟩ := Prod.mk.inj hrest
        obtain ⟨fs, hfs⟩ := exists_digitsText (s := r.takeWhile Char.isDigit)
          fun c hc => List.mem_takeWhile_imp hc
        refine ⟨some fs, ?_, hfs⟩
        rw [fractionText, hfs, List.cons_append, List.takeWhile_append_dropWhile]
      · obtain ⟨rfl, rfl⟩ := Prod.mk.inj hrest
        exact ⟨none, rfl, rfl⟩
    refine ⟨⟨.absent, ws, f, e⟩, ?_, ?_⟩
    · intro h0
      apply hne
      have h1 : digitsText (ws ++ f.getD []) = [] := digitsText_eq_nil.mpr h0
      rwa [digitsText_append, hws, hplaces] at h1
    · rw [Literal.unsignedText, he, hf, hs]

lemma decimal?_of_size? {s : List Char} {d : Decimal} (h : size? s = some (.decimal d)) :
    decimal? s = some d := by
  unfold size? at h
  split at h
  · rename_i hd
    simpa [hd] using h
  · simp only at h
    split_ifs at h <;> simp at h

lemma exists_size?_of_ofText {s : List Char} {n : Numeral} :
    ofText s = .ok n → ∃ (sign : Sign) (r : List Char), sign.text ++ r = s ∧ size? r = some n.size := by
  fun_cases ofText s with
  | case1 => simp
  | case2 signed r =>
    intro h
    refine ⟨.minus, r, rfl, ?_⟩
    cases hs : size? r <;> grind
  | case3 signed r =>
    intro h
    refine ⟨.plus, r, rfl, ?_⟩
    cases hs : size? r <;> grind
  | case4 signed =>
    intro h
    refine ⟨.absent, s, rfl, ?_⟩
    cases hs : size? s <;> grind

/-- What is read as a decimal with a sign is a literal. -/
theorem exists_of_ofText {s : List Char} {negative : Bool} {d : Decimal}
    (h : ofText s = .ok ⟨negative, .decimal d⟩) : ∃ l : Literal, l.HasDigits ∧ l.text = s := by
  obtain ⟨sign, r, rfl, hr⟩ := exists_size?_of_ofText h
  obtain ⟨l, hl, rfl⟩ := exists_of_decimal? (decimal?_of_size? hr)
  exact ⟨{ l with sign := sign }, hl, rfl⟩

end Numeral

namespace Literal

/-- The decimal is the value without its sign. -/
theorem value_eq (l : Literal) : l.value = l.sign.factor * l.decimal.value := by
  have hp : (10 : ℚ) ^ l.places.length ≠ 0 := by positivity
  rw [value, decimal, Decimal.value, digitsValue_append, zpow_sub₀ (by norm_num), zpow_natCast]
  push_cast
  field_simp

lemma value_of_isNegative {l : Literal} (h : l.sign.isNegative = false) :
    l.value = l.decimal.value := by
  have hf : l.sign.factor = 1 := by
    cases hs : l.sign with
    | minus => simp [hs, Sign.isNegative] at h
    | _ => rfl
  rw [value_eq, hf, Int.cast_one, one_mul]

lemma isNegative_of_pos {l : Literal} (h : 0 < l.value) : l.sign.isNegative = false := by
  cases hs : l.sign with
  | minus =>
    have hd := l.decimal.value_nonneg
    rw [value_eq, hs, Sign.factor] at h
    push_cast at h
    linarith
  | _ => rfl

lemma abs_value (l : Literal) : |l.value| = l.decimal.value := by
  have hfactor : |(l.sign.factor : ℚ)| = 1 := by cases l.sign <;> simp [Sign.factor]
  rw [value_eq, abs_mul, hfactor, one_mul, abs_of_nonneg l.decimal.value_nonneg]

lemma text_ne_nil {l : Literal} (h : l.HasDigits) : l.text ≠ [] := by
  obtain ⟨c, r, hc, -⟩ := Numeral.exists_cons_unsignedText h
  simp [Literal.text, hc]

end Literal
end FontSizeLint.Numeric

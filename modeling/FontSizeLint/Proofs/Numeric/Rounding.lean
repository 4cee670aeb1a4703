import FontSizeLint.Numeric.Decimal
import Mathlib.Algebra.Order.Ring.Rat
import Mathlib.Algebra.Order.Field.Basic
import Mathlib.Algebra.Order.Field.Power
import Mathlib.Data.Nat.Log
import Mathlib.Tactic.Lemma
import Mathlib.Tactic.Positivity
import Mathlib.Tactic.Ring
import Mathlib.Tactic.SplitIfs

/-! Rounding keeps the order of the numbers rounded: from quotients to ranks, and from decimals to
ranks as far as these are finite. -/
namespace FontSizeLint.Numeric

lemma le_roundQuotient (n d : Nat) : n / d ≤ roundQuotient n d := by
  simp only [roundQuotient]
  split_ifs <;> omega

lemma roundQuotient_le (n d : Nat) : roundQuotient n d ≤ n / d + 1 := by
  simp only [roundQuotient]
  split_ifs <;> omega

lemma roundQuotient_eq_iff {n d : Nat} :
    roundQuotient n d = n / d ↔ 2 * (n % d) < d ∨ 2 * (n % d) = d ∧ n / d % 2 = 0 := by
  simp only [roundQuotient, Bool.or_eq_true, Bool.and_eq_true, decide_eq_true_eq, beq_iff_eq]
  split_ifs with h
  · exact iff_of_true rfl h
  · exact iff_of_false (by omega) h

lemma div_le_div_of_mul_le {n d m e : Nat} (hd : 0 < d) (he : 0 < e) (h : n * e ≤ m * d) :
    n / d ≤ m / e := by
  rw [Nat.le_div_iff_mul_le he]
  apply Nat.le_of_mul_le_mul_right _ hd
  calc n / d * e * d = n / d * d * e := by ring
    _ ≤ n * e := Nat.mul_le_mul_right e (Nat.div_mul_le_self n d)
    _ ≤ m * d := h

theorem roundQuotient_le_roundQuotient {n d m e : Nat} (hd : 0 < d) (he : 0 < e)
    (h : n * e ≤ m * d) : roundQuotient n d ≤ roundQuotient m e := by
  have hq := div_le_div_of_mul_le hd he h
  have hn := roundQuotient_le n d
  have hm := le_roundQuotient m e
  rcases Nat.lt_or_ge (n / d) (m / e) with hlt | hge
  · omega
  -- Equal quotients: the rest decides, and the rests are in the order of the numbers.
  have heq : n / d = m / e := Nat.le_antisymm hq hge
  by_cases hdown : roundQuotient m e = m / e
  · have hr : n % d * e ≤ m % e * d := by
      have hnd : n * e = n / d * d * e + n % d * e := by
        rw [← Nat.add_mul, Nat.div_add_mod']
      have hme : m * d = n / d * d * e + m % e * d := by
        rw [heq, Nat.mul_right_comm, ← Nat.add_mul, Nat.div_add_mod']
      omega
    have hup : roundQuotient n d = n / d := by
      rw [roundQuotient_eq_iff] at hdown ⊢
      rcases hdown with hlt | ⟨hhalf, heven⟩
      · left
        apply Nat.lt_of_mul_lt_mul_right (a := e)
        calc 2 * (n % d) * e ≤ 2 * (m % e) * d := by rw [Nat.mul_assoc, Nat.mul_assoc]; omega
          _ < e * d := Nat.mul_lt_mul_of_pos_right hlt hd
          _ = d * e := Nat.mul_comm e d
      · have hle : 2 * (n % d) ≤ d := by
          apply Nat.le_of_mul_le_mul_right _ he
          calc 2 * (n % d) * e ≤ 2 * (m % e) * d := by rw [Nat.mul_assoc, Nat.mul_assoc]; omega
            _ = d * e := by rw [hhalf, Nat.mul_comm]
        rcases Nat.lt_or_eq_of_le hle with hlt | hd2
        · exact .inl hlt
        · exact .inr ⟨hd2, by rw [heq]; exact heven⟩
    omega
  · omega

namespace Format
variable {F : Format}

lemma binade_eq (F : Format) : F.binade = 2 ^ (F.precision - 1) := rfl

lemma binade_pos (F : Format) : 0 < F.binade := Nat.two_pow_pos _

lemma two_mul_binade (hp : 0 < F.precision) : 2 * F.binade = 2 ^ F.precision := by
  rw [binade_eq, ← Nat.pow_succ', Nat.succ_eq_add_one, Nat.sub_add_cancel hp]

/-- The exponent of the power of two that the nearest magnitude counts, over the smallest. -/
def shift (F : Format) (num den : Nat) : Nat :=
  Nat.log2 (num * 2 ^ F.lowest / den) + 1 - F.precision

lemma nearest_eq (num den : Nat) : F.nearest num den = F.shift num den * F.binade +
    roundQuotient (num * 2 ^ F.lowest) (den * 2 ^ F.shift num den) := rfl

lemma shift_mono {num den num' den' : Nat} (hd : 0 < den) (hd' : 0 < den')
    (h : num * den' ≤ num' * den) : F.shift num den ≤ F.shift num' den' := by
  have hq : num * 2 ^ F.lowest / den ≤ num' * 2 ^ F.lowest / den' := by
    apply div_le_div_of_mul_le hd hd'
    rw [Nat.mul_right_comm, Nat.mul_right_comm num']
    exact Nat.mul_le_mul_right _ h
  have hl : Nat.log2 (num * 2 ^ F.lowest / den) ≤ Nat.log2 (num' * 2 ^ F.lowest / den') := by
    rw [Nat.log2_eq_log_two, Nat.log2_eq_log_two]
    exact Nat.log_mono_right hq
  unfold shift
  omega

lemma quotient_lt (hp : 0 < F.precision) (num den : Nat) :
    num * 2 ^ F.lowest / (den * 2 ^ F.shift num den) < 2 * F.binade := by
  have hlt : num * 2 ^ F.lowest / den < 2 ^ (F.precision + F.shift num den) := by
    apply Nat.lt_of_lt_of_le Nat.lt_log2_self
    apply Nat.pow_le_pow_right (by omega)
    unfold shift
    omega
  rw [← Nat.div_div_eq_div_mul, Nat.div_lt_iff_lt_mul (Nat.two_pow_pos _), two_mul_binade hp,
    ← Nat.pow_add]
  exact hlt

lemma binade_le_quotient (hp : 0 < F.precision) {num den : Nat} (h : 0 < F.shift num den) :
    F.binade ≤ num * 2 ^ F.lowest / (den * 2 ^ F.shift num den) := by
  have hs : F.shift num den = Nat.log2 (num * 2 ^ F.lowest / den) + 1 - F.precision := rfl
  have hge : 2 ^ (F.precision - 1 + F.shift num den) ≤ num * 2 ^ F.lowest / den := by
    have h0 : num * 2 ^ F.lowest / den ≠ 0 := by
      intro h0
      rw [h0, Nat.log2_zero] at hs
      omega
    apply Nat.le_trans _ (Nat.log2_self_le h0)
    apply Nat.pow_le_pow_right (by omega)
    omega
  rw [← Nat.div_div_eq_div_mul, Nat.le_div_iff_mul_le (Nat.two_pow_pos _), binade_eq, ← Nat.pow_add]
  exact hge

lemma nearest_le (hp : 0 < F.precision) (num den : Nat) :
    F.nearest num den ≤ (F.shift num den + 2) * F.binade := by
  have hq := quotient_lt hp num den
  have hr := roundQuotient_le (num * 2 ^ F.lowest) (den * 2 ^ F.shift num den)
  rw [nearest_eq, Nat.add_mul]
  omega

lemma le_nearest (hp : 0 < F.precision) {num den : Nat} (h : 0 < F.shift num den) :
    (F.shift num den + 1) * F.binade ≤ F.nearest num den := by
  have hq := binade_le_quotient hp h
  have hr := le_roundQuotient (num * 2 ^ F.lowest) (den * 2 ^ F.shift num den)
  rw [nearest_eq, Nat.add_mul]
  omega

theorem nearest_le_nearest (hp : 0 < F.precision) {num den num' den' : Nat} (hd : 0 < den)
    (hd' : 0 < den') (h : num * den' ≤ num' * den) : F.nearest num den ≤ F.nearest num' den' := by
  rcases Nat.lt_or_eq_of_le (shift_mono (F := F) hd hd' h) with hlt | heq
  · calc F.nearest num den ≤ (F.shift num den + 2) * F.binade := nearest_le hp num den
      _ ≤ (F.shift num' den' + 1) * F.binade := Nat.mul_le_mul_right _ (by omega)
      _ ≤ F.nearest num' den' := le_nearest hp (by omega)
  · rw [nearest_eq, nearest_eq, heq]
    apply Nat.add_le_add_left
    apply roundQuotient_le_roundQuotient (Nat.mul_pos hd (Nat.two_pow_pos _))
      (Nat.mul_pos hd' (Nat.two_pow_pos _))
    calc num * 2 ^ F.lowest * (den' * 2 ^ F.shift num' den')
        = num * den' * (2 ^ F.lowest * 2 ^ F.shift num' den') := by ring
      _ ≤ num' * den * (2 ^ F.lowest * 2 ^ F.shift num' den') := Nat.mul_le_mul_right _ h
      _ = num' * 2 ^ F.lowest * (den * 2 ^ F.shift num' den') := by ring

lemma nearest_eq_zero (hp : 0 < F.precision) {num den : Nat}
    (h : 2 * (num * 2 ^ F.lowest) < den) : F.nearest num den = 0 := by
  have hq : num * 2 ^ F.lowest / den = 0 := Nat.div_eq_of_lt (by omega)
  have hs : F.shift num den = 0 := by
    rw [shift, hq, Nat.log2_zero]
    omega
  have hr : num * 2 ^ F.lowest % den = num * 2 ^ F.lowest := Nat.mod_eq_of_lt (by omega)
  have hround : roundQuotient (num * 2 ^ F.lowest) den = num * 2 ^ F.lowest / den :=
    roundQuotient_eq_iff.mpr (.inl (by omega))
  rw [nearest_eq, hs, Nat.pow_zero, Nat.mul_one, hround, hq, Nat.zero_mul]

lemma limit_le_nearest {num : Nat} (h : 2 ^ F.reach ≤ num) : F.limit ≤ F.nearest num 1 := by
  have hn : 2 ^ (F.reach + F.lowest) ≤ num * 2 ^ F.lowest := by
    rw [Nat.pow_add]
    exact Nat.mul_le_mul_right _ h
  have hl : F.reach + F.lowest ≤ Nat.log2 (num * 2 ^ F.lowest) := by
    rw [Nat.log2_eq_log_two]
    exact Nat.le_log_of_pow_le Nat.one_lt_two hn
  have hs : F.limit / F.binade < F.shift num 1 := by
    rw [shift, Nat.div_one]
    unfold reach at hl
    omega
  calc F.limit ≤ F.shift num 1 * F.binade :=
        Nat.le_of_lt ((Nat.div_lt_iff_lt_mul F.binade_pos).mp hs)
    _ ≤ F.nearest num 1 := by rw [nearest_eq]; omega

end Format

namespace Decimal
variable {F : Format}

def value (d : Decimal) : ℚ := d.digits * 10 ^ d.exponent

lemma value_nonneg (d : Decimal) : 0 ≤ d.value := by
  unfold value
  positivity

lemma value_pos {d : Decimal} (h : d.digits ≠ 0) : 0 < d.value :=
  mul_pos (by exact_mod_cast Nat.pos_of_ne_zero h) (by positivity)

lemma exists_nearest_eq (F : Format) (d : Decimal) :
    ∃ num den : Nat, 0 < den ∧ d.nearest F = F.nearest num den ∧
      (num : ℚ) = value ⟨d.digits, d.boundedExponent F⟩ * den := by
  unfold nearest value
  cases d.boundedExponent F with
  | ofNat e => exact ⟨d.digits * 10 ^ e, 1, Nat.one_pos, rfl, by push_cast; simp⟩
  | negSucc e =>
    refine ⟨d.digits, 10 ^ (e + 1), by positivity, rfl, ?_⟩
    push_cast
    rw [zpow_negSucc, mul_assoc, inv_mul_cancel₀ (by positivity), mul_one]

lemma nearest_le_of_bounded_le (hp : 0 < F.precision) {d e : Decimal}
    (h : value ⟨d.digits, d.boundedExponent F⟩ ≤ value ⟨e.digits, e.boundedExponent F⟩) :
    d.nearest F ≤ e.nearest F := by
  obtain ⟨n, a, ha, hd, hn⟩ := exists_nearest_eq F d
  obtain ⟨m, b, hb, he, hm⟩ := exists_nearest_eq F e
  rw [hd, he]
  apply F.nearest_le_nearest hp ha hb
  have hab : (n : ℚ) * b ≤ m * a := by
    calc (n : ℚ) * b = value ⟨d.digits, d.boundedExponent F⟩ * (a * b) := by rw [hn]; ring
      _ ≤ value ⟨e.digits, e.boundedExponent F⟩ * (a * b) :=
        mul_le_mul_of_nonneg_right h (by positivity)
      _ = m * a := by rw [hm]; ring
  exact_mod_cast hab

lemma nearest_of_digits_eq_zero (hp : 0 < F.precision) {d : Decimal} (h : d.digits = 0) :
    d.nearest F = 0 := by
  obtain ⟨n, a, ha, hd, hn⟩ := exists_nearest_eq F d
  have h0 : n = 0 := by simpa [value, h] using hn
  rw [hd, h0]
  exact F.nearest_eq_zero hp (by omega)

lemma value_pos_of_nearest (hp : 0 < F.precision) {d : Decimal} (h : 0 < d.nearest F) :
    0 < d.value := by
  apply value_pos
  intro h0
  rw [nearest_of_digits_eq_zero hp h0] at h
  omega

lemma limit_le_nearest {d : Decimal} (h0 : d.digits ≠ 0) (h : F.reach < d.exponent) :
    F.limit ≤ d.nearest F := by
  have hb : d.boundedExponent F = Int.ofNat F.reach := by
    rw [boundedExponent]
    simp only [Int.ofNat_eq_natCast]
    omega
  rw [nearest, hb]
  apply F.limit_le_nearest
  calc 2 ^ F.reach ≤ 10 ^ F.reach := Nat.pow_le_pow_left (by omega) _
    _ ≤ d.digits * 10 ^ F.reach := Nat.le_mul_of_pos_left _ (by omega)

lemma nearest_eq_zero (hp : 0 < F.precision) {d : Decimal}
    (h : d.exponent < -(F.reach + d.digits.log2 + 1)) : d.nearest F = 0 := by
  have hb : d.boundedExponent F = Int.negSucc (F.reach + d.digits.log2) := by
    rw [boundedExponent, Int.negSucc_eq]
    omega
  rw [nearest, hb]
  apply F.nearest_eq_zero hp
  have hr : F.lowest < F.reach := by
    rw [Format.reach, Nat.add_assoc, Nat.add_left_comm]
    exact Nat.lt_add_of_pos_right (Nat.add_pos_left hp _)
  calc 2 * (d.digits * 2 ^ F.lowest)
      < 2 * (2 ^ (d.digits.log2 + 1) * 2 ^ F.lowest) := by
        have hlt := Nat.mul_lt_mul_of_pos_right (Nat.lt_log2_self (n := d.digits))
          (Nat.two_pow_pos F.lowest)
        omega
    _ = 2 ^ (d.digits.log2 + 1 + F.lowest + 1) := by rw [← Nat.pow_add, ← Nat.pow_succ']
    _ ≤ 2 ^ (F.reach + d.digits.log2 + 1) := Nat.pow_le_pow_right (by omega) (by omega)
    _ ≤ 10 ^ (F.reach + d.digits.log2 + 1) := Nat.pow_le_pow_left (by omega) _

/-- Of two decimals the lesser has the lesser rank, as long as that rank is finite. -/
theorem nearest_le_nearest (hp : 0 < F.precision) {d e : Decimal} (h : d.value ≤ e.value)
    (hd : d.nearest F < F.limit) : d.nearest F ≤ e.nearest F := by
  by_cases hd0 : d.digits = 0
  · rw [nearest_of_digits_eq_zero hp hd0]
    exact Nat.zero_le _
  have hpos := value_pos hd0
  have he0 : e.digits ≠ 0 := by
    intro he0
    have he : e.value = 0 := by simp [value, he0]
    rw [he] at h
    exact absurd h (not_le.mpr hpos)
  by_cases hlow : d.exponent < -(F.reach + d.digits.log2 + 1)
  · rw [nearest_eq_zero hp hlow]
    exact Nat.zero_le _
  have hhigh : ¬ F.reach < d.exponent := fun hh => absurd (limit_le_nearest hd0 hh) (by omega)
  by_cases hbig : (F.reach : Int) < e.exponent
  · exact Nat.le_of_lt (Nat.lt_of_lt_of_le hd (limit_le_nearest he0 hbig))
  -- The exponent of the lesser decimal is within its bounds, that of the greater may be raised.
  apply nearest_le_of_bounded_le hp
  have hdb : d.boundedExponent F = d.exponent := by
    unfold boundedExponent
    omega
  have heb : e.exponent ≤ e.boundedExponent F := by
    unfold boundedExponent
    omega
  calc value ⟨d.digits, d.boundedExponent F⟩ = d.value := by rw [hdb]
    _ ≤ e.value := h
    _ ≤ value ⟨e.digits, e.boundedExponent F⟩ :=
      mul_le_mul_of_nonneg_left (zpow_le_zpow_right₀ (by norm_num) heb) (by positivity)

end Decimal
end FontSizeLint.Numeric

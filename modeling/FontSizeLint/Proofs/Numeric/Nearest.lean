import FontSizeLint.Proofs.Numeric.Rounding
import Mathlib.Tactic.Linarith
import Mathlib.Tactic.FieldSimp

/-! Rounding is correct. No magnitude is nearer to a number than the one that it is rounded to, and of
two that are equally near that is the even one; what is nearer to the power of two past all finite
magnitudes is infinite. -/
namespace FontSizeLint.Numeric

namespace Format
variable {F : Format}

/-- The number that a rank stands for. The limit stands for the power of two past all finite
magnitudes. -/
def magnitude (F : Format) (rank : Nat) : ℚ := F.units rank / 2 ^ F.lowest

/-- Of the ranks up to a bound, that of the magnitude nearest to a number, and the even one of two that
are equally near. -/
structure IsNearest (F : Format) (bound : Nat) (x : ℚ) (rank : Nat) : Prop where
  le_bound : rank ≤ bound
  nearest : ∀ k ≤ bound, |x - F.magnitude rank| ≤ |x - F.magnitude k|
  even : ∀ k ≤ bound, k ≠ rank → |x - F.magnitude rank| = |x - F.magnitude k| → rank % 2 = 0

lemma units_of_lt {m : Nat} (hm : m < F.binade) (k : Nat) :
    F.units (m + (k + 1) * F.binade) = (F.binade + m) * 2 ^ k := by
  have hmod : (m + (k + 1) * F.binade) % F.binade = m := by
    rw [Nat.add_mul_mod_self_right, Nat.mod_eq_of_lt hm]
  have hdiv : (m + (k + 1) * F.binade) / F.binade = k + 1 := by
    rw [Nat.add_mul_div_right _ _ F.binade_pos, Nat.div_eq_of_lt hm, Nat.zero_add]
  have hnot : ¬ m + (k + 1) * F.binade < F.binade := by
    rw [Nat.add_mul]
    omega
  rw [units, if_neg hnot, hmod, hdiv]
  rfl

lemma units_eq {k q : Nat} (hk : k = 0 ∨ F.binade ≤ q) (hq : q ≤ 2 * F.binade) :
    F.units (k * F.binade + q) = q * 2 ^ k := by
  rcases Nat.lt_or_ge q F.binade with hlt | hge
  · have hk0 : k = 0 := hk.resolve_right (by omega)
    simp [units, hk0, hlt]
  obtain ⟨m, rfl⟩ := Nat.exists_eq_add_of_le hge
  rcases Nat.lt_or_eq_of_le (show m ≤ F.binade by omega) with hm | rfl
  · have hrank : k * F.binade + (F.binade + m) = m + (k + 1) * F.binade := by ring
    rw [hrank, units_of_lt hm]
  · have hrank : k * F.binade + (F.binade + F.binade) = 0 + (k + 1 + 1) * F.binade := by ring
    rw [hrank, units_of_lt F.binade_pos, Nat.add_zero, Nat.pow_succ]
    ring

lemma exists_binade (F : Format) (rank : Nat) :
    ∃ k q, rank = k * F.binade + q ∧ (k = 0 ∨ F.binade ≤ q) ∧ q < 2 * F.binade := by
  rcases Nat.lt_or_ge rank F.binade with hlt | hge
  · exact ⟨0, rank, by simp, .inl rfl, by omega⟩
  · have hmod := Nat.mod_lt rank F.binade_pos
    have hdiv : 0 < rank / F.binade := Nat.div_pos hge F.binade_pos
    obtain ⟨k, hk⟩ := Nat.exists_eq_succ_of_ne_zero (Nat.pos_iff_ne_zero.mp hdiv)
    refine ⟨k, F.binade + rank % F.binade, ?_, .inr (Nat.le_add_right _ _), by omega⟩
    have hsplit := Nat.div_add_mod' rank F.binade
    rw [hk, Nat.succ_mul] at hsplit
    omega

lemma units_strictMono (F : Format) : StrictMono F.units := by
  apply strictMono_nat_of_lt_succ
  intro rank
  obtain ⟨k, q, rfl, hk, hq⟩ := F.exists_binade rank
  rw [units_eq hk hq.le, Nat.add_assoc, units_eq (hk.imp_right fun h => by omega) hq]
  exact Nat.mul_lt_mul_of_pos_right (Nat.lt_succ_self q) (Nat.two_pow_pos k)

lemma magnitude_strictMono (F : Format) : StrictMono F.magnitude := by
  intro a b h
  exact div_lt_div_of_pos_right (by exact_mod_cast F.units_strictMono h) (by positivity)

lemma abs_sub_le_abs_sub_iff {a b : ℚ} (h : a < b) (x : ℚ) :
    |x - a| ≤ |x - b| ↔ 2 * x ≤ a + b := by
  have hsq : (x - b) ^ 2 - (x - a) ^ 2 = (b - a) * (a + b - 2 * x) := by ring
  rw [← sq_le_sq, ← sub_nonneg, hsq, mul_nonneg_iff_of_pos_left (sub_pos.mpr h), sub_nonneg]

lemma abs_sub_le_abs_sub_iff' {a b : ℚ} (h : a < b) (x : ℚ) :
    |x - b| ≤ |x - a| ↔ a + b ≤ 2 * x := by
  have hsq : (x - a) ^ 2 - (x - b) ^ 2 = (b - a) * (2 * x - (a + b)) := by ring
  rw [← sq_le_sq, ← sub_nonneg, hsq, mul_nonneg_iff_of_pos_left (sub_pos.mpr h), sub_nonneg]

lemma isNearest_iff {bound rank : Nat} {x : ℚ} : F.IsNearest bound x rank ↔ rank ≤ bound ∧
    (∀ k < rank, F.magnitude k + F.magnitude rank ≤ 2 * x) ∧
    (∀ k ≤ bound, rank < k → 2 * x ≤ F.magnitude rank + F.magnitude k) ∧
    (∀ k ≤ bound, k ≠ rank → 2 * x = F.magnitude rank + F.magnitude k → rank % 2 = 0) := by
  have hlt : ∀ {k}, k < rank →
      (|x - F.magnitude rank| ≤ |x - F.magnitude k| ↔ F.magnitude k + F.magnitude rank ≤ 2 * x) ∧
      (|x - F.magnitude k| ≤ |x - F.magnitude rank| ↔
        2 * x ≤ F.magnitude k + F.magnitude rank) :=
    fun h => ⟨abs_sub_le_abs_sub_iff' (F.magnitude_strictMono h) x,
      abs_sub_le_abs_sub_iff (F.magnitude_strictMono h) x⟩
  have hgt : ∀ {k}, rank < k →
      (|x - F.magnitude rank| ≤ |x - F.magnitude k| ↔ 2 * x ≤ F.magnitude rank + F.magnitude k) ∧
      (|x - F.magnitude k| ≤ |x - F.magnitude rank| ↔
        F.magnitude rank + F.magnitude k ≤ 2 * x) :=
    fun h => ⟨abs_sub_le_abs_sub_iff (F.magnitude_strictMono h) x,
      abs_sub_le_abs_sub_iff' (F.magnitude_strictMono h) x⟩
  have htie : ∀ {k}, k ≠ rank →
      (|x - F.magnitude rank| = |x - F.magnitude k| ↔
        2 * x = F.magnitude rank + F.magnitude k) := by
    intro k hk
    rcases Nat.lt_or_gt_of_ne hk with h | h
    · rw [le_antisymm_iff, (hlt h).1, (hlt h).2, add_comm (F.magnitude rank), le_antisymm_iff]
      exact and_comm
    · rw [le_antisymm_iff, (hgt h).1, (hgt h).2, le_antisymm_iff]
  constructor
  · intro h
    exact ⟨h.le_bound, fun k hk => (hlt hk).1.mp (h.nearest k (hk.le.trans h.le_bound)),
      fun k hb hk => (hgt hk).1.mp (h.nearest k hb),
      fun k hb hk heq => h.even k hb hk ((htie hk).mpr heq)⟩
  · rintro ⟨hb, hbelow, habove, heven⟩
    refine ⟨hb, fun k hk => ?_, fun k hk hne heq => heven k hk hne ((htie hne).mp heq)⟩
    rcases Nat.lt_trichotomy k rank with h | rfl | h
    · exact (hlt h).1.mpr (hbelow k h)
    · exact le_rfl
    · exact (hgt h).1.mpr (habove k hk h)

/-- What is nearest is determined: a number is rounded in one way only. -/
theorem IsNearest.unique {bound rank rank' : Nat} {x : ℚ} (h : F.IsNearest bound x rank)
    (h' : F.IsNearest bound x rank') : rank = rank' := by
  wlog hlt : rank < rank' generalizing rank rank'
  · by_contra hne
    exact hne (this h' h (by omega)).symm
  have htie : |x - F.magnitude rank| = |x - F.magnitude rank'| :=
    le_antisymm (h.nearest rank' h'.le_bound) (h'.nearest rank h.le_bound)
  have heven := h.even rank' h'.le_bound (by omega) htie
  have heven' := h'.even rank h.le_bound (by omega) htie.symm
  -- Two even ranks have one between them, and that would be nearer than both.
  have hbetween : rank + 1 < rank' := by omega
  have hle := h'.le_bound
  have hup := (isNearest_iff.mp h).2.2.1 (rank + 1) (by omega) (Nat.lt_succ_self rank)
  have hdown := (isNearest_iff.mp h').2.1 rank hlt
  linarith [F.magnitude_strictMono hbetween]

lemma isNearest_of_between {a rank : Nat} {x : ℚ} (hlo : F.magnitude a ≤ x)
    (hhi : x ≤ F.magnitude (a + 1))
    (h : (rank = a ∧ (2 * x < F.magnitude a + F.magnitude (a + 1) ∨
        2 * x = F.magnitude a + F.magnitude (a + 1) ∧ a % 2 = 0)) ∨
      (rank = a + 1 ∧ (F.magnitude a + F.magnitude (a + 1) < 2 * x ∨
        2 * x = F.magnitude a + F.magnitude (a + 1) ∧ a % 2 = 1)))
    {bound : Nat} (hb : rank ≤ bound) : F.IsNearest bound x rank := by
  have hlt : ∀ {k m}, k < m → F.magnitude k < F.magnitude m := fun h => F.magnitude_strictMono h
  have hle : ∀ {k m}, k ≤ m → F.magnitude k ≤ F.magnitude m :=
    fun h => F.magnitude_strictMono.monotone h
  rw [isNearest_iff]
  rcases h with ⟨rfl, h⟩ | ⟨rfl, h⟩
  · have hmid : 2 * x ≤ F.magnitude rank + F.magnitude (rank + 1) := h.elim le_of_lt fun h => h.1.le
    refine ⟨hb, fun k hk => ?_, fun k _ hk => ?_, fun k _ hne htie => ?_⟩
    · linarith [hlt hk]
    · linarith [hle (Nat.succ_le_of_lt hk)]
    · rcases Nat.lt_or_gt_of_ne hne with hk | hk
      · linarith [hlt hk]
      · exact (h.resolve_left (by linarith [hle (Nat.succ_le_of_lt hk)])).2
  · have hmid : F.magnitude a + F.magnitude (a + 1) ≤ 2 * x := h.elim le_of_lt fun h => h.1.ge
    refine ⟨hb, fun k hk => ?_, fun k _ hk => ?_, fun k _ hne htie => ?_⟩
    · linarith [hle (Nat.le_of_lt_succ hk)]
    · linarith [hlt hk]
    · rcases Nat.lt_or_gt_of_ne hne with hk | hk
      · have hodd := (h.resolve_left (by linarith [hle (Nat.le_of_lt_succ hk)])).2
        omega
      · linarith [hlt hk]

lemma IsNearest.min {rank : Nat} {x : ℚ} (h : ∀ bound, rank ≤ bound → F.IsNearest bound x rank)
    (bound : Nat) : F.IsNearest bound x (min rank bound) := by
  rcases Nat.le_total rank bound with hle | hge
  · rw [Nat.min_eq_left hle]
    exact h bound hle
  rw [Nat.min_eq_right hge]
  rcases Nat.lt_or_eq_of_le hge with hlt | rfl
  · -- The number is beyond the midpoint of the bound and a greater magnitude.
    have hmid := (isNearest_iff.mp (h rank le_rfl)).2.1 bound hlt
    have hbound := F.magnitude_strictMono hlt
    rw [isNearest_iff]
    refine ⟨le_rfl, fun k hk => ?_, fun k hk hlt => absurd hlt (by omega), fun k hk hne htie => ?_⟩
    · linarith [F.magnitude_strictMono hk]
    · linarith [F.magnitude_strictMono (lt_of_le_of_ne hk hne)]
  · exact h _ le_rfl

lemma even_binade (hp : 2 ≤ F.precision) : F.binade % 2 = 0 := by
  obtain ⟨m, hm⟩ := Nat.exists_eq_add_of_le hp
  have hb : F.binade = 2 * 2 ^ m := by
    rw [binade_eq, hm, ← Nat.pow_succ']
    congr 1
    omega
  omega

/-- A quotient is rounded to the nearest magnitude, however far the magnitudes go. -/
theorem isNearest_nearest (hp : 2 ≤ F.precision) (num : Nat) {den : Nat} (hd : 0 < den) {bound : Nat}
    (hb : F.nearest num den ≤ bound) : F.IsNearest bound (num / den : ℚ) (F.nearest num den) := by
  have hshift : F.shift num den = 0 ∨
      F.binade ≤ num * 2 ^ F.lowest / (den * 2 ^ F.shift num den) :=
    (Nat.eq_zero_or_pos _).imp_right fun h => binade_le_quotient (by omega) h
  have hlt := quotient_lt (F := F) (by omega) num den
  rw [nearest_eq] at hb ⊢
  generalize F.shift num den = k at hshift hlt hb ⊢
  have hpos : 0 < den * 2 ^ k := Nat.mul_pos hd (Nat.two_pow_pos k)
  have hsplit := Nat.div_add_mod' (num * 2 ^ F.lowest) (den * 2 ^ k)
  have hmod := Nat.mod_lt (num * 2 ^ F.lowest) hpos
  have hround := roundQuotient_eq_iff (n := num * 2 ^ F.lowest) (d := den * 2 ^ k)
  have hle := le_roundQuotient (num * 2 ^ F.lowest) (den * 2 ^ k)
  have hge := roundQuotient_le (num * 2 ^ F.lowest) (den * 2 ^ k)
  generalize roundQuotient (num * 2 ^ F.lowest) (den * 2 ^ k) = m at hround hle hge hb ⊢
  generalize num * 2 ^ F.lowest / (den * 2 ^ k) = q at hshift hlt hsplit hround hle hge
  generalize num * 2 ^ F.lowest % (den * 2 ^ k) = r at hsplit hmod hround
  -- The quotient is the magnitude below it and a part of the step to the next one.
  have hunit : (0 : ℚ) < 1 / (den * 2 ^ F.lowest) := by positivity
  have hden : (den : ℚ) ≠ 0 := by positivity
  have hlow : F.magnitude (k * F.binade + q) = q * (den * 2 ^ k : ℕ) * (1 / (den * 2 ^ F.lowest)) := by
    rw [magnitude, units_eq hshift hlt.le]
    push_cast
    field_simp
  have hnext : F.magnitude (k * F.binade + q + 1) =
      F.magnitude (k * F.binade + q) + (den * 2 ^ k : ℕ) * (1 / (den * 2 ^ F.lowest)) := by
    rw [hlow, Nat.add_assoc, magnitude, units_eq (hshift.imp_right fun h => by omega) hlt]
    push_cast
    field_simp
  have hx : (num / den : ℚ) = F.magnitude (k * F.binade + q) + r * (1 / (den * 2 ^ F.lowest)) := by
    have hn : (num * 2 ^ F.lowest : ℚ) = q * (den * 2 ^ k : ℕ) + r := by exact_mod_cast hsplit.symm
    rw [hlow]
    field_simp
    linarith
  have hdiff : 2 * (num / den : ℚ) - (F.magnitude (k * F.binade + q) +
      F.magnitude (k * F.binade + q + 1)) =
        ((2 * r : ℕ) - (den * 2 ^ k : ℕ)) * (1 / (den * 2 ^ F.lowest)) := by
    rw [hx, hnext]
    push_cast
    ring
  generalize (1 : ℚ) / (den * 2 ^ F.lowest) = u at hunit hx hnext hdiff
  generalize den * 2 ^ k = D at hpos hsplit hmod hround hx hnext hdiff
  have hbelow (h : 2 * r < D) : 2 * (num / den : ℚ) <
      F.magnitude (k * F.binade + q) + F.magnitude (k * F.binade + q + 1) := by
    rw [← sub_neg, hdiff]
    exact mul_neg_of_neg_of_pos (sub_neg.mpr (by exact_mod_cast h)) hunit
  have hmid (h : 2 * r = D) : 2 * (num / den : ℚ) =
      F.magnitude (k * F.binade + q) + F.magnitude (k * F.binade + q + 1) := by
    rw [← sub_eq_zero, hdiff, h, sub_self, zero_mul]
  have habove (h : D < 2 * r) :
      F.magnitude (k * F.binade + q) + F.magnitude (k * F.binade + q + 1) < 2 * (num / den : ℚ) := by
    rw [← sub_pos, hdiff]
    exact mul_pos (sub_pos.mpr (by exact_mod_cast h)) hunit
  have heven : (k * F.binade + q) % 2 = q % 2 := by
    rw [Nat.add_mod, Nat.mul_mod, even_binade hp]
    simp
  apply isNearest_of_between _ _ _ hb
  · exact k * F.binade + q
  · rw [hx]
    exact le_add_of_nonneg_right (by positivity)
  · rw [hx, hnext]
    gcongr
  · rw [heven]
    by_cases hdown : m = q
    · exact .inl ⟨by rw [hdown], (hround.mp hdown).imp hbelow fun h => ⟨hmid h.1, h.2⟩⟩
    · rw [hround, not_or, not_and, Nat.not_lt] at hdown
      refine .inr ⟨by omega, ?_⟩
      rcases Nat.lt_or_eq_of_le hdown.1 with h | h
      · exact .inl (habove h)
      · exact .inr ⟨hmid h.symm, by have := hdown.2 h.symm; omega⟩

end Format

namespace Decimal
variable {F : Format}

/-- A decimal is rounded to the nearest magnitude, and to infinity if that is past the finite ones. -/
theorem isNearest_nearest (hp : 2 ≤ F.precision) (d : Decimal) :
    F.IsNearest F.limit d.value (min (d.nearest F) F.limit) := by
  obtain ⟨num, den, hden, hrank, hnum⟩ := exists_nearest_eq F d
  have hvalue : (num / den : ℚ) = value ⟨d.digits, d.boundedExponent F⟩ := by
    rw [hnum]
    field_simp
  have hbounded : F.IsNearest F.limit (value ⟨d.digits, d.boundedExponent F⟩)
      (min (d.nearest F) F.limit) := by
    rw [← hvalue, hrank]
    exact .min (fun _ hb => F.isNearest_nearest hp num hden hb) F.limit
  have hmono : ∀ {e f : Int}, e ≤ f → value ⟨d.digits, e⟩ ≤ value ⟨d.digits, f⟩ := fun h =>
    mul_le_mul_of_nonneg_left (zpow_le_zpow_right₀ (by norm_num) h) (by positivity)
  rcases lt_trichotomy d.exponent (d.boundedExponent F) with hlow | heq | hhigh
  · -- What is less than a number that is rounded to zero is rounded to zero.
    have hzero : d.nearest F = 0 := by
      apply nearest_eq_zero (by omega)
      unfold boundedExponent at hlow
      omega
    rw [hzero, Nat.zero_min, Format.isNearest_iff] at hbounded ⊢
    have hle : d.value ≤ value ⟨d.digits, d.boundedExponent F⟩ := hmono hlow.le
    refine ⟨Nat.zero_le _, fun k hk => absurd hk (by omega), fun k hb hk => ?_, fun _ _ _ _ => rfl⟩
    linarith [hbounded.2.2.1 k hb hk]
  · rwa [← heq] at hbounded
  · by_cases h0 : d.digits = 0
    · have hzero : value ⟨d.digits, d.boundedExponent F⟩ = d.value := by simp [value, h0]
      rwa [hzero] at hbounded
    -- What is more than a number that is rounded to infinity is rounded to infinity.
    have hlimit : F.limit ≤ d.nearest F := by
      apply limit_le_nearest h0
      unfold boundedExponent at hhigh
      omega
    rw [Nat.min_eq_right hlimit, Format.isNearest_iff] at hbounded ⊢
    have hle : value ⟨d.digits, d.boundedExponent F⟩ ≤ d.value := hmono hhigh.le
    have hbelow : ∀ k < F.limit, F.magnitude k + F.magnitude F.limit ≤ 2 * d.value :=
      fun k hk => by linarith [hbounded.2.1 k hk]
    refine ⟨le_rfl, hbelow, fun k hb hk => absurd hk (by omega), fun k hb hne htie => ?_⟩
    have hk := hbounded.2.1 k (by omega)
    exact hbounded.2.2.2 k hb hne (by linarith)

lemma toBinary_eq (negative : Bool) (d : Decimal) :
    d.toBinary F negative = .ofRank negative (min (d.nearest F) F.limit) := by
  rw [toBinary, Binary.ofRank, Binary.ofRank]
  split_ifs with h₁ h₂ h₂
  · simp [Nat.min_eq_left h₁.le]
  · omega
  · omega
  · rfl

end Decimal

lemma Binary.ofRank_ne_nan {F : Format} (negative : Bool) (rank : Nat) :
    (ofRank negative rank : Binary F) ≠ nan := by
  unfold ofRank
  split_ifs <;> simp

end FontSizeLint.Numeric

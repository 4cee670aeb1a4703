import FontSizeLint.Proofs.Numeric.Nearest

/-! Rounding twice, to a finer format and then to a coarser one. Rounding keeps the order of a number
and the midpoints of the coarser format, since those are numbers of the finer one; so the two ways of
rounding differ only where the first step ends on such a midpoint from the side that its tie does not
go to. -/
namespace FontSizeLint.Numeric.Format
variable {F G : Format}

/-- What is rounded in place of `x` is the midpoint of two neighbours, and of these the even one is
not the one nearest to `x`. -/
def LeadsAstray (F : Format) (x y : ℚ) : Prop :=
  ∃ k, 2 * y = F.magnitude k + F.magnitude (k + 1) ∧ (x < y ∧ k % 2 = 1 ∨ y < x ∧ k % 2 = 0)

lemma nearest_le_iff (hp : 2 ≤ F.precision) (num : Nat) {den : Nat} (hd : 0 < den) (k : Nat) :
    F.nearest num den ≤ k ↔ 2 * (num / den : ℚ) < F.magnitude k + F.magnitude (k + 1) ∨
      2 * (num / den : ℚ) = F.magnitude k + F.magnitude (k + 1) ∧ k % 2 = 0 := by
  have hnear := F.isNearest_nearest hp num hd (Nat.le_max_left (F.nearest num den) (k + 1))
  obtain ⟨-, hbelow, habove, heven⟩ := isNearest_iff.mp hnear
  generalize F.nearest num den = rank at hbelow habove heven ⊢
  generalize (num / den : ℚ) = x at hbelow habove heven ⊢
  have hle : ∀ {a b}, a ≤ b → F.magnitude a ≤ F.magnitude b :=
    fun h => F.magnitude_strictMono.monotone h
  constructor
  · intro hk
    have hmid := habove (k + 1) (Nat.le_max_right _ _) (by omega)
    have hle' : 2 * x ≤ F.magnitude k + F.magnitude (k + 1) := by linarith [hle hk]
    rcases hle'.lt_or_eq with hlt | heq
    · exact .inl hlt
    · -- On the midpoint the rank is the lower neighbour, and even.
      have hrank : F.magnitude rank = F.magnitude k := le_antisymm (hle hk) (by linarith)
      obtain rfl := F.magnitude_strictMono.injective hrank
      exact .inr ⟨heq, heven (rank + 1) (Nat.le_max_right _ _) (by omega) heq⟩
  · intro h
    by_contra hk
    have hmid := hbelow k (by omega)
    have hnext := hle (show k + 1 ≤ rank by omega)
    rcases h with hlt | ⟨heq, hparity⟩
    · linarith
    · have hrank : F.magnitude rank = F.magnitude (k + 1) := le_antisymm (by linarith) hnext
      obtain rfl := F.magnitude_strictMono.injective hrank
      have := heven k (by omega) (by omega) (by linarith)
      omega

lemma magnitude_nearest_le (hp : 2 ≤ F.precision) {num den j : Nat} (hd : 0 < den)
    (h : (num / den : ℚ) ≤ F.magnitude j) : F.magnitude (F.nearest num den) ≤ F.magnitude j := by
  have hmid := F.magnitude_strictMono (Nat.lt_succ_self j)
  refine F.magnitude_strictMono.monotone ((F.nearest_le_iff hp num hd j).mpr (.inl ?_))
  generalize (num / den : ℚ) = x at h ⊢
  linarith

lemma le_magnitude_nearest (hp : 2 ≤ F.precision) {num den j : Nat} (hd : 0 < den)
    (h : F.magnitude j ≤ (num / den : ℚ)) : F.magnitude j ≤ F.magnitude (F.nearest num den) := by
  apply F.magnitude_strictMono.monotone
  by_contra hlt
  obtain ⟨i, rfl⟩ := Nat.exists_eq_succ_of_ne_zero (show j ≠ 0 by omega)
  have hmid := F.magnitude_strictMono (Nat.lt_succ_self i)
  have hnear := (F.nearest_le_iff hp num hd i).mp (by omega)
  generalize (num / den : ℚ) = x at h hnear
  rcases hnear with hnear | ⟨hnear, -⟩ <;> linarith

lemma exists_units_eq (F : Format) {m : Nat} (hm : m < 2 * F.binade) (e : Nat) :
    ∃ rank, F.units rank = m * 2 ^ e := by
  induction e generalizing m with
  | zero =>
    refine ⟨0 * F.binade + m, ?_⟩
    rw [units_eq (.inl rfl) hm.le]
  | succ e ih =>
    rcases Nat.lt_or_ge m F.binade with hlt | hge
    · obtain ⟨rank, hrank⟩ := ih (m := 2 * m) (by omega)
      refine ⟨rank, ?_⟩
      rw [hrank, Nat.pow_succ]
      ring
    · exact ⟨(e + 1) * F.binade + m, units_eq (.inr hge) hm.le⟩

lemma exists_midpoint (hp : 0 < F.precision) (hpG : F.precision < G.precision)
    (hl : F.lowest < G.lowest) (k : Nat) :
    ∃ j, 2 * G.magnitude j = F.magnitude k + F.magnitude (k + 1) := by
  obtain ⟨e, q, rfl, hq, hlt⟩ := F.exists_binade k
  have hbits : 2 * q + 1 < 2 * G.binade := by
    rw [two_mul_binade hp] at hlt
    rw [two_mul_binade (by omega)]
    have hpow : 2 ^ (F.precision + 1) ≤ 2 ^ G.precision := Nat.pow_le_pow_right (by omega) hpG
    rw [Nat.pow_succ] at hpow
    omega
  obtain ⟨d, hd⟩ := Nat.exists_eq_add_of_lt hl
  obtain ⟨j, hj⟩ := G.exists_units_eq hbits (e + d)
  refine ⟨j, ?_⟩
  rw [magnitude, magnitude, magnitude, hj, units_eq hq hlt.le, Nat.add_assoc,
    units_eq (hq.imp_right fun h => by omega) hlt, hd]
  push_cast
  field_simp
  ring

/-- A number and what is rounded in its place fall on one side of a midpoint, unless that is where the
number is rounded to and the number is on the side that the tie does not go to. -/
lemma side_eq_iff {x y m : ℚ} {k : Nat} (hle : 2 * x ≤ m → 2 * y ≤ m) (hge : m ≤ 2 * x → m ≤ 2 * y) :
    ((2 * y < m ∨ 2 * y = m ∧ k % 2 = 0) ↔ (2 * x < m ∨ 2 * x = m ∧ k % 2 = 0)) ↔
      ¬ (2 * y = m ∧ (x < y ∧ k % 2 = 1 ∨ y < x ∧ k % 2 = 0)) := by
  rcases lt_trichotomy (2 * x) m with h | h | h
  · rcases (hle h.le).lt_or_eq with hlt | heq
    · simp [h, hlt, hlt.ne]
    · have hxy : x < y := by linarith
      simp [h, heq, hxy, hxy.not_gt]
  · have hxy : x = y := by linarith [hle h.le, hge h.ge]
    simp [hxy]
  · rcases (hge h.le).lt_or_eq with hlt | heq
    · simp [h.not_gt, h.ne', hlt.not_gt, hlt.ne']
    · have hxy : y < x := by linarith
      simp [h.not_gt, h.ne', ← heq, hxy, hxy.not_gt]

/-- Rounding to the finer format first makes a difference exactly where it leads astray. -/
theorem nearest_units_nearest_eq_iff (hp : 2 ≤ F.precision) (hpG : F.precision < G.precision)
    (hl : F.lowest < G.lowest) (num : Nat) {den : Nat} (hd : 0 < den) :
    F.nearest (G.units (G.nearest num den)) (2 ^ G.lowest) = F.nearest num den ↔
      ¬ F.LeadsAstray (num / den) (G.magnitude (G.nearest num den)) := by
  have hunits : (G.units (G.nearest num den) / (2 ^ G.lowest : ℕ) : ℚ) =
      G.magnitude (G.nearest num den) := by
    rw [magnitude]
    push_cast
    rfl
  have hx := F.nearest_le_iff hp num hd
  have hy := F.nearest_le_iff hp (G.units (G.nearest num den)) (Nat.two_pow_pos G.lowest)
  have hdown (j : Nat) := @magnitude_nearest_le G (by omega) num den j hd
  have hup (j : Nat) := @le_magnitude_nearest G (by omega) num den j hd
  rw [hunits] at hy
  generalize F.nearest (G.units (G.nearest num den)) (2 ^ G.lowest) = rank at hy ⊢
  generalize G.magnitude (G.nearest num den) = y at hy hdown hup ⊢
  generalize F.nearest num den = rank' at hx ⊢
  generalize (num / den : ℚ) = x at hx hdown hup ⊢
  -- Two ranks are one if they have the same upper bounds, and those are told by the midpoints.
  have hbound : ∀ k, (rank ≤ k ↔ rank' ≤ k) ↔ ¬ (2 * y = F.magnitude k + F.magnitude (k + 1) ∧
      (x < y ∧ k % 2 = 1 ∨ y < x ∧ k % 2 = 0)) := by
    intro k
    obtain ⟨j, hj⟩ := exists_midpoint (by omega) hpG hl k
    rw [hx k, hy k]
    apply side_eq_iff
    · intro hk
      linarith [hdown j (by linarith)]
    · intro hk
      linarith [hup j (by linarith)]
  constructor
  · rintro rfl ⟨k, hk⟩
    exact (hbound k).mp Iff.rfl hk
  · intro h
    have hiff : ∀ k, rank ≤ k ↔ rank' ≤ k := fun k => (hbound k).mpr fun hk => h ⟨k, hk⟩
    exact Nat.le_antisymm ((hiff rank').mpr le_rfl) ((hiff rank).mp le_rfl)

end FontSizeLint.Numeric.Format

import FontSizeLint.Numeric.Shortest
import FontSizeLint.Proofs.Numeric.Literal
import FontSizeLint.Proofs.Numeric.Nearest

/-! Written numbers read back. The decimal chosen for a magnitude lies in the window of those that are
rounded to it and has fewest digits among them, its text writes it without exponent, and so reading what
is written gives the number again, whatever it is. -/
namespace FontSizeLint.Numeric

namespace Window
variable {w : Window} {tie : Tie}

lemma contains_iff {n : Nat} : w.contains n = true ↔
    w.twiceLow ≤ 2 * n ∧ 2 * n ≤ w.twiceHigh ∧
      (w.closed = false → w.twiceLow ≠ 2 * n ∧ 2 * n ≠ w.twiceHigh) := by
  unfold contains
  cases w.closed
  · simp
    omega
  · simp

lemma contains_of_nearest? {grid n : Nat} :
    w.nearest? tie grid = some n → w.contains (n * grid) = true := by
  fun_cases nearest? w tie grid <;> grind

lemma contains_search (h : w.contains w.value = true) (j : Nat) :
    w.contains ((w.search tie j).1 * 10 ^ (w.search tie j).2) = true := by
  induction j with
  | zero => simpa [search] using h
  | succ j ih =>
    rw [search]
    split
    · exact contains_of_nearest? ‹_›
    · exact ih

lemma contains_of_between {a b c : Nat} (ha : w.contains a = true) (hc : w.contains c = true)
    (hab : a ≤ b) (hbc : b ≤ c) : w.contains b = true := by
  rw [contains_iff] at ha hc ⊢
  refine ⟨by omega, by omega, fun h => ?_⟩
  obtain ⟨hlow, -⟩ := ha.2.2 h
  obtain ⟨-, hhigh⟩ := hc.2.2 h
  omega

lemma contains_of_nearest?_eq_none (hv : w.contains w.value = true) {grid : Nat} (hgrid : 0 < grid)
    (h : w.nearest? tie grid = none) (n : Nat) : w.contains (n * grid) = false := by
  have hsplit := Nat.div_add_mod' w.value grid
  have hrest := Nat.mod_lt w.value hgrid
  have hout : w.contains (w.value / grid * grid) = false ∧
      w.contains ((w.value / grid + 1) * grid) = false := by
    revert h
    fun_cases nearest? w tie grid with
    | case1 below rest above habove hbelow => exact fun _ => ⟨hbelow, habove⟩
    | _ => simp
  rw [← Bool.not_eq_true]
  intro hn
  rcases Nat.lt_or_ge (w.value / grid) n with hlt | hle
  · have hmul := Nat.mul_le_mul_right grid (show w.value / grid + 1 ≤ n by omega)
    rw [contains_of_between hv hn (by rw [Nat.add_mul]; omega) hmul] at hout
    exact absurd hout.2 (by decide)
  · have hmul := Nat.mul_le_mul_right grid hle
    rw [contains_of_between hn hv hmul (by omega)] at hout
    exact absurd hout.1 (by decide)

lemma le_search (hv : w.contains w.value = true) {i j n : Nat} (hi : i ≤ j)
    (h : w.contains (n * 10 ^ i) = true) : i ≤ (w.search tie j).2 := by
  induction j with
  | zero => exact hi
  | succ j ih =>
    rw [search]
    split
    · exact hi
    · rename_i hnone
      rcases Nat.lt_or_eq_of_le hi with hlt | rfl
      · exact ih (by omega)
      · have hout := contains_of_nearest?_eq_none hv (Nat.pow_pos (by decide)) hnone n
        rw [h] at hout
        exact absurd hout (by decide)

end Window

namespace Format
variable {F : Format}

lemma twice_eq_div (F : Format) (n : Nat) :
    2 * (n / 10 ^ F.lowest : ℚ) = (2 * n : ℕ) / 10 ^ F.lowest := by
  push_cast
  ring

lemma magnitude_add (a b : Nat) : F.magnitude a + F.magnitude b =
    ((F.units a + F.units b) * 5 ^ F.lowest : ℕ) / 10 ^ F.lowest := by
  have hten : (10 : ℚ) ^ F.lowest = 2 ^ F.lowest * 5 ^ F.lowest := by
    rw [← mul_pow]
    norm_num
  rw [magnitude, magnitude, hten]
  push_cast
  field_simp

lemma magnitude_eq_div (rank : Nat) :
    F.magnitude rank = (F.units rank * 5 ^ F.lowest : ℕ) / 10 ^ F.lowest := by
  have hsum := F.magnitude_add rank rank
  rw [← two_mul, ← two_mul, Nat.mul_assoc, ← twice_eq_div] at hsum
  linarith

lemma contains_ofRank_iff {rank n : Nat} : (Window.ofRank F rank).contains n = true ↔
    F.magnitude (rank - 1) + F.magnitude rank ≤ 2 * (n / 10 ^ F.lowest : ℚ) ∧
    2 * (n / 10 ^ F.lowest : ℚ) ≤ F.magnitude rank + F.magnitude (rank + 1) ∧
    (rank % 2 = 1 → F.magnitude (rank - 1) + F.magnitude rank ≠ 2 * (n / 10 ^ F.lowest : ℚ) ∧
      2 * (n / 10 ^ F.lowest : ℚ) ≠ F.magnitude rank + F.magnitude (rank + 1)) := by
  have hten : (0 : ℚ) < 10 ^ F.lowest := by positivity
  have hodd : (rank % 2 == 0) = false ↔ rank % 2 = 1 := by
    rw [beq_eq_false_iff_ne]
    omega
  rw [Window.contains_iff, twice_eq_div, magnitude_add, magnitude_add]
  simp only [div_le_div_iff_of_pos_right hten, ne_eq, div_left_inj' hten.ne', Nat.cast_le,
    Nat.cast_inj, ← hodd]
  rfl

lemma contains_value_ofRank {rank : Nat} (h : 0 < rank) :
    (Window.ofRank F rank).contains (Window.ofRank F rank).value = true := by
  have hbelow := F.magnitude_strictMono (show rank - 1 < rank by omega)
  have habove := F.magnitude_strictMono (Nat.lt_succ_self rank)
  have hvalue : ((Window.ofRank F rank).value / 10 ^ F.lowest : ℚ) = F.magnitude rank :=
    F.magnitude_eq_div rank |>.symm
  rw [contains_ofRank_iff, hvalue]
  refine ⟨by linarith, by linarith, fun _ => ⟨?_, ?_⟩⟩ <;> apply ne_of_lt <;> linarith

/-- The window of a rank holds numbers to which its magnitude is the nearest. -/
theorem isNearest_of_contains {rank bound n : Nat} (h0 : 0 < rank) (hb : rank ≤ bound)
    (h : (Window.ofRank F rank).contains n = true) :
    F.IsNearest bound (n / 10 ^ F.lowest) rank := by
  obtain ⟨hlow, hhigh, hopen⟩ := contains_ofRank_iff.mp h
  have hle : ∀ {a b}, a ≤ b → F.magnitude a ≤ F.magnitude b :=
    fun h => F.magnitude_strictMono.monotone h
  rw [isNearest_iff]
  refine ⟨hb, fun k hk => ?_, fun k _ hk => ?_, fun k _ hne htie => ?_⟩
  · linarith [hle (show k ≤ rank - 1 by omega)]
  · linarith [hle (Nat.succ_le_of_lt hk)]
  · -- A tie is an end of the window, and those it has only for an even rank.
    by_contra hodd
    obtain ⟨hlow', hhigh'⟩ := hopen (by omega)
    rcases Nat.lt_or_gt_of_ne hne with hk | hk
    · apply hlow'
      linarith [hle (show k ≤ rank - 1 by omega)]
    · apply hhigh'
      linarith [hle (Nat.succ_le_of_lt hk)]

lemma contains_of_isNearest {rank bound n : Nat} (h0 : 0 < rank) (hb : rank < bound)
    (h : F.IsNearest bound (n / 10 ^ F.lowest) rank) :
    (Window.ofRank F rank).contains n = true := by
  obtain ⟨-, hbelow, habove, heven⟩ := isNearest_iff.mp h
  rw [contains_ofRank_iff]
  refine ⟨hbelow (rank - 1) (by omega), habove (rank + 1) hb (Nat.lt_succ_self rank), fun hodd => ?_⟩
  constructor
  · intro htie
    have := heven (rank - 1) (by omega) (by omega) (by linarith)
    omega
  · intro htie
    have := heven (rank + 1) hb (by omega) htie
    omega

lemma IsNearest.between {bound rank : Nat} {x y z : ℚ} (hx : F.IsNearest bound x rank)
    (hz : F.IsNearest bound z rank) (hxy : x ≤ y) (hyz : y ≤ z) : F.IsNearest bound y rank := by
  rw [isNearest_iff] at hx hz ⊢
  refine ⟨hx.1, fun k hk => ?_, fun k hk hlt => ?_, fun k hk hne htie => ?_⟩
  · linarith [hx.2.1 k hk]
  · linarith [hz.2.2.1 k hk hlt]
  · rcases Nat.lt_or_gt_of_ne hne with hlt | hlt
    · exact hx.2.2.2 k hk hne (by linarith [hx.2.1 k hlt])
    · exact hz.2.2.2 k hk hne (by linarith [hz.2.2.1 k hk hlt])

lemma units_succ_le {rank : Nat} (h : 0 < rank) : F.units (rank + 1) ≤ 2 * F.units rank := by
  obtain ⟨k, q, rfl, hk, hq⟩ := F.exists_binade rank
  have hq0 : 0 < q := by
    rcases hk with rfl | hk
    · simpa using h
    · exact F.binade_pos.trans_le hk
  rw [Nat.add_assoc, units_eq (hk.imp_right fun h => by omega) hq, units_eq hk hq.le, ← Nat.mul_assoc]
  exact Nat.mul_le_mul_right _ (by omega)

lemma bounds_of_contains {rank n : Nat} (h0 : 0 < rank)
    (h : (Window.ofRank F rank).contains n = true) :
    0 < n ∧ n < 2 * (Window.ofRank F rank).value := by
  obtain ⟨hlow, hhigh, -⟩ := Window.contains_iff.mp h
  have hpos : F.units 0 < F.units rank := F.units_strictMono h0
  have hscale : 0 < 5 ^ F.lowest := Nat.pow_pos (by decide)
  have hvalue : 0 < F.units rank * 5 ^ F.lowest := Nat.mul_pos (by omega) hscale
  have hsucc := Nat.mul_le_mul_right (5 ^ F.lowest) (F.units_succ_le h0)
  simp only [Window.ofRank, Nat.pow_eq, Nat.add_mul, Nat.mul_assoc] at hlow hhigh hsucc ⊢
  omega

lemma value_ofRank_lt (F : Format) (rank : Nat) : (Window.ofRank F rank).value <
    10 ^ (F.lowest + (Nat.toDigits 10 (F.units rank / Nat.pow 2 F.lowest)).length) := by
  have hlen := (Nat.length_toDigits_le_iff (by decide) (List.length_pos_iff.mpr
    Nat.toDigits_ne_nil)).mp (Nat.le_refl (Nat.toDigits 10 (F.units rank / Nat.pow 2 F.lowest)).length)
  rw [Nat.pow_eq, Nat.div_lt_iff_lt_mul (Nat.two_pow_pos _)] at hlen
  rw [Window.ofRank, Nat.pow_eq, Nat.pow_eq, Nat.pow_add]
  have hten : 10 ^ F.lowest = 2 ^ F.lowest * 5 ^ F.lowest := by
    rw [← Nat.mul_pow]
  rw [hten]
  calc F.units rank * 5 ^ F.lowest
      < _ * 2 ^ F.lowest * 5 ^ F.lowest := Nat.mul_lt_mul_of_pos_right hlen (Nat.pow_pos (by decide))
    _ = _ := by ring

end Format

lemma value_shortest (F : Format) (tie : Tie) {rank : Nat} (h : 0 < rank) :
    ∃ n, (Window.ofRank F rank).contains n = true ∧
      (shortest F tie rank).value = n / 10 ^ F.lowest := by
  let whole := (Nat.toDigits 10 (F.units rank / Nat.pow 2 F.lowest)).length
  refine ⟨_, @Window.contains_search _ tie (F.contains_value_ofRank h) (F.lowest + whole), ?_⟩
  rw [shortest, if_neg h.ne']
  change _ * (10 : ℚ) ^ ((_ : ℤ) - (F.lowest : ℤ)) = _
  rw [zpow_sub₀ (by norm_num), zpow_natCast, zpow_natCast, mul_div_assoc']
  push_cast
  rfl

/-- The magnitude is the nearest one to the decimal chosen for it. -/
theorem isNearest_shortest (F : Format) (tie : Tie) {rank bound : Nat} (hb : rank ≤ bound) :
    F.IsNearest bound (shortest F tie rank).value rank := by
  rcases Nat.eq_zero_or_pos rank with rfl | hpos
  · have hnonneg : ∀ k, 0 ≤ F.magnitude k := fun k => by
      unfold Format.magnitude
      positivity
    have hzero : (shortest F tie 0).value = 0 := by simp [shortest, Decimal.value]
    rw [hzero, Format.isNearest_iff]
    refine ⟨hb, fun k hk => absurd hk (by omega), fun k _ _ => ?_, fun _ _ _ _ => rfl⟩
    linarith [hnonneg 0, hnonneg k]
  · obtain ⟨n, hn, hvalue⟩ := value_shortest F tie hpos
    rw [hvalue]
    exact F.isNearest_of_contains hpos hb hn

lemma toBinary_of_value_eq {F : Format} (hp : 2 ≤ F.precision) {tie : Tie} {d : Decimal}
    {rank : Fin F.limit} (h : d.value = (shortest F tie rank).value) (negative : Bool) :
    d.toBinary F negative = .finite ⟨negative, rank⟩ := by
  have hnear := d.isNearest_nearest hp
  rw [h] at hnear
  have hrank := hnear.unique (isNearest_shortest F tie rank.isLt.le)
  rw [Decimal.toBinary_eq, hrank, Binary.ofRank, dif_pos rank.isLt]

lemma exponent_le_shortest {F : Format} (tie : Tie) {rank bound : Nat} (h0 : 0 < rank)
    (hb : rank < bound) {d : Decimal} (h : F.IsNearest bound d.value rank) :
    d.exponent ≤ (shortest F tie rank).exponent := by
  rw [shortest, if_neg h0.ne']
  change d.exponent ≤ ((_ : Nat) : ℤ) - F.lowest
  rcases lt_or_ge d.exponent (-F.lowest) with hlow | hlow
  · omega
  obtain ⟨i, hi⟩ := Int.eq_ofNat_of_zero_le (show 0 ≤ d.exponent + F.lowest by omega)
  have hexp : d.exponent = i - F.lowest := by omega
  have hvalue : d.value = (d.digits * 10 ^ i : ℕ) / 10 ^ F.lowest := by
    rw [Decimal.value, hexp, zpow_sub₀ (by norm_num), zpow_natCast, zpow_natCast, mul_div_assoc']
    push_cast
    rfl
  rw [hvalue] at h
  have hin := Format.contains_of_isNearest h0 hb h
  have hbegin : i ≤ F.lowest + (Nat.toDigits 10 (F.units rank / Nat.pow 2 F.lowest)).length := by
    by_contra hgt
    obtain ⟨hpos, hlt⟩ := Format.bounds_of_contains h0 hin
    have hsmall := F.value_ofRank_lt rank
    have hpow := Nat.pow_le_pow_right (show 0 < 10 by decide) (Nat.lt_of_not_le hgt)
    have hdigits := Nat.le_mul_of_pos_left (10 ^ i) (Nat.pos_of_mul_pos_right hpos)
    rw [Nat.pow_succ] at hpow
    omega
  have hle : i ≤ ((Window.ofRank F rank).search tie _).2 :=
    Window.le_search (F.contains_value_ofRank h0) hbegin hin
  omega

lemma length_shortest_le {F : Format} (tie : Tie) {rank bound : Nat} (h0 : 0 < rank)
    (hb : rank < bound) {d : Decimal} (h : F.IsNearest bound d.value rank) :
    (Nat.toDigits 10 (shortest F tie rank).digits).length ≤ (Nat.toDigits 10 d.digits).length := by
  have hlength : 0 < (Nat.toDigits 10 d.digits).length := List.length_pos_iff.mpr Nat.toDigits_ne_nil
  by_contra hlt
  have hfew := (Nat.length_toDigits_le_iff (by decide) hlength).mp (Nat.le_refl _)
  have hmany := mt (Nat.length_toDigits_le_iff (by decide) hlength).mpr hlt
  have hexp := exponent_le_shortest tie h0 hb h
  -- A power of ten would stand between the two, at a higher place than the one chosen.
  have hpower : F.IsNearest bound (Decimal.value
      ⟨1, (Nat.toDigits 10 d.digits).length + (shortest F tie rank).exponent⟩) rank := by
    have hvalue : Decimal.value ⟨1, (Nat.toDigits 10 d.digits).length + (shortest F tie rank).exponent⟩ =
        (10 ^ (Nat.toDigits 10 d.digits).length : ℕ) * 10 ^ (shortest F tie rank).exponent := by
      rw [Decimal.value, zpow_add₀ (by norm_num), zpow_natCast]
      push_cast
      ring
    rw [hvalue]
    refine h.between (isNearest_shortest F tie hb.le) ?_ ?_
    · exact mul_le_mul (by exact_mod_cast hfew.le) (zpow_le_zpow_right₀ (by norm_num) hexp)
        (by positivity) (by positivity)
    · exact mul_le_mul_of_nonneg_right (by exact_mod_cast Nat.le_of_not_lt hmany) (by positivity)
  have hplace := exponent_le_shortest tie h0 hb hpower
  change ((_ : Nat) : ℤ) + _ ≤ _ at hplace
  omega

/-- Among the decimals that are rounded to a magnitude none has fewer digits than the one chosen for it. -/
theorem shortest_isLeast {F : Format} (hp : 2 ≤ F.precision) (tie : Tie) {rank : Fin F.limit}
    (h0 : 0 < rank.val) {d : Decimal} {negative : Bool}
    (h : d.toBinary F negative = .finite ⟨negative, rank⟩) :
    (Nat.toDigits 10 (shortest F tie rank).digits).length ≤ (Nat.toDigits 10 d.digits).length := by
  have hrank : min (d.nearest F) F.limit = rank := by
    rw [Decimal.toBinary_eq, Binary.ofRank] at h
    split_ifs at h
    simp only [Binary.finite.injEq, Finite.mk.injEq, true_and] at h
    exact congrArg Fin.val h
  have hnear := d.isNearest_nearest hp
  rw [hrank] at hnear
  exact length_shortest_le tie h0 rank.isLt hnear

section Texts

lemma exists_digitsText_toDigits (n : Nat) :
    ∃ ds, ds ≠ [] ∧ digitsText ds = Nat.toDigits 10 n ∧ digitsValue ds = n := by
  obtain ⟨ds, hds⟩ := exists_digitsText (s := Nat.toDigits 10 n)
    fun c hc => Nat.isDigit_of_mem_toDigits (by decide) (by decide) hc
  refine ⟨ds, ?_, hds, ?_⟩
  · rintro rfl
    exact Nat.toDigits_ne_nil hds.symm
  · have hvalue := Nat.ofDigitChars_ten_toDigits (n := n)
    rwa [← hds, ofDigitChars_digitsText, Nat.zero_mul, Nat.zero_add] at hvalue

lemma digitsText_replicate_zero (n : Nat) :
    digitsText (List.replicate n 0) = List.replicate n '0' := by
  rw [digitsText, List.map_replicate]
  rfl

lemma digitsValue_replicate_zero (n : Nat) : digitsValue (List.replicate n 0) = 0 := by
  induction n with
  | zero => rfl
  | succ n ih => rw [List.replicate_succ, digitsValue, ih]; simp

lemma Literal.value_places (whole : List (Fin 10)) (fraction : Option (List (Fin 10))) :
    value ⟨.absent, whole, fraction, none⟩ =
      Decimal.value ⟨digitsValue (whole ++ fraction.getD []), -(fraction.getD []).length⟩ := by
  rw [value_of_isNegative rfl, decimal]
  simp [Exponent.value, places]

/-- A written decimal is a literal of the same value that has no sign and no exponent. -/
theorem exists_literal_text (d : Decimal) : ∃ l : Literal, l.HasDigits ∧ l.sign = .absent ∧
    l.exponent = none ∧ l.text = d.text plainStyle ∧ l.value = d.value := by
  obtain ⟨ds, hne, hds, hvalue⟩ := exists_digitsText_toDigits d.digits
  have hlen : (Nat.toDigits 10 d.digits).length = ds.length := by rw [← hds, length_digitsText]
  have htext : d.text plainStyle = positionalText plainStyle (digitsText ds) (ds.length + d.exponent) := by
    rw [← hlen, hds]
    rfl
  rw [htext, positionalText]
  split_ifs with hzero hpoint
  · -- The point stands before all digits, with zeros between.
    obtain ⟨zeros, hzeros⟩ := Int.eq_ofNat_of_zero_le (show 0 ≤ -(ds.length + d.exponent) by omega)
    refine ⟨⟨.absent, [0], some (List.replicate zeros 0 ++ ds), none⟩, ?_, rfl, rfl, ?_, ?_⟩
    · simp [Literal.HasDigits]
    · have habs : (ds.length + d.exponent).natAbs = zeros := by omega
      rw [habs, ← digitsText_replicate_zero]
      simp [Literal.text, Literal.unsignedText, Sign.text, fractionText, Exponent.text]
    · have hexp : -((List.replicate zeros (0 : Fin 10) ++ ds).length : ℤ) = d.exponent := by
        rw [List.length_append, List.length_replicate]
        omega
      rw [Literal.value_places, Option.getD_some, hexp, digitsValue_append, digitsValue_append,
        digitsValue_replicate_zero, hvalue]
      simp [digitsValue]
  · -- The point stands between two digits.
    rw [length_digitsText] at hpoint
    obtain ⟨point, hp⟩ := Int.eq_ofNat_of_zero_le (show 0 ≤ ds.length + d.exponent by omega)
    refine ⟨⟨.absent, ds.take point, some (ds.drop point), none⟩, ?_, rfl, rfl, ?_, ?_⟩
    · simpa [Literal.HasDigits, Literal.places] using hne
    · rw [hp]
      simp [Literal.text, Literal.unsignedText, Sign.text, fractionText, Exponent.text, digitsText]
    · have hexp : -((ds.drop point).length : ℤ) = d.exponent := by
        rw [List.length_drop]
        omega
      rw [Literal.value_places, Option.getD_some, hexp, List.take_append_drop, hvalue]
  · -- The point would stand behind all digits, and is left out behind the zeros.
    rw [length_digitsText] at hpoint ⊢
    obtain ⟨zeros, hzeros⟩ := Int.eq_ofNat_of_zero_le (show 0 ≤ d.exponent by omega)
    refine ⟨⟨.absent, ds ++ List.replicate zeros 0, none, none⟩, ?_, rfl, rfl, ?_, ?_⟩
    · simp [Literal.HasDigits, hne]
    · have hfill : (ds.length + d.exponent).toNat - ds.length = zeros := by omega
      rw [hfill, ← digitsText_replicate_zero]
      simp [Literal.text, Literal.unsignedText, Sign.text, fractionText, Exponent.text, plainStyle]
    · rw [Literal.value_places, Option.getD_none, List.append_nil, digitsValue_append,
        digitsValue_replicate_zero, hvalue, List.length_replicate, Decimal.value, Decimal.value, hzeros]
      simp

end Texts

/-- What a finite number is written as: a literal without exponent, whose sign is that of the number
and whose decimal is as great as the one chosen for the magnitude. -/
lemma exists_literal_finite {F : Format} (x : Finite F) : ∃ l : Literal, l.HasDigits ∧
    l.sign.isNegative = x.negative ∧ l.exponent = none ∧ l.text = x.text plainStyle ∧
    l.decimal.value = (shortest F plainStyle.tie x.rank).value := by
  obtain ⟨l, hdigits, hsign, hexp, htext, hvalue⟩ :=
    exists_literal_text (shortest F plainStyle.tie x.rank)
  have hunsigned : l.text = l.unsignedText := by rw [Literal.text, hsign]; rfl
  have hdecimal : l.value = l.decimal.value := Literal.value_of_isNegative (by rw [hsign]; rfl)
  rw [hdecimal] at hvalue
  rw [Finite.text, ← htext, hunsigned]
  cases x.negative
  · exact ⟨l, hdigits, by rw [hsign]; rfl, hexp, hunsigned, hvalue⟩
  · exact ⟨{ l with sign := .minus }, hdigits, rfl, hexp, rfl, hvalue⟩

namespace Binary

/-- Reading what is written gives the number again, also one that is not finite. -/
theorem ofText_text {F : Format} (hp : 2 ≤ F.precision) (x : Binary F) : ofText F x.text = .ok x := by
  cases x with
  | nan => rfl
  | infinite negative => cases negative <;> rfl
  | finite x =>
    obtain ⟨l, hdigits, hsign, -, htext, hvalue⟩ := exists_literal_finite x
    rw [ofText, text, ← htext, Numeral.ofText_text hdigits, hsign]
    exact congrArg Except.ok (toBinary_of_value_eq hp hvalue x.negative)

end Binary

end FontSizeLint.Numeric

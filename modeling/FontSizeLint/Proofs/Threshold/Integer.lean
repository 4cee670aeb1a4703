import FontSizeLint.Proofs.Css.Number
import FontSizeLint.Proofs.Numeric.Twice
import FontSizeLint.Proofs.Threshold.Printed

/-! Integers as thresholds, as JSON numbers and in quotes. The number is rounded to 64 bits and then to
32, the text to 32 bits at once, so that the two may differ, but only for an integer of more than 53
bits that is rounded to the midpoint of two neighbours of 32 bits. -/
namespace FontSizeLint
open Text Css Numeric

namespace Numeric.Decimal

lemma nearest_natural (F : Format) (n : Nat) : nearest F ⟨n, 0⟩ = F.nearest n 1 := by
  have hexp : boundedExponent F ⟨n, 0⟩ = Int.ofNat 0 := by
    rw [boundedExponent]
    simp only [Int.ofNat_eq_natCast]
    omega
  rw [nearest, hexp]
  simp

end Numeric.Decimal

namespace Threshold

lemma toOption_ofText {s : List Char} {x : Single} (h : Binary.ofText single (trim s) = .ok x) :
    (ofText s).toOption = ofSingle? x := by
  rw [ofText, h]
  cases hx : ofSingle? x <;> simp [hx, Except.toOption]

lemma ofJson?_digits (n : Nat) :
    ofJson? (.string (toString n)) = ofSingle? (.ofRank false (single.nearest n 1)) := by
  obtain ⟨ds, hne, hds, hvalue⟩ := exists_digitsText_toDigits n
  -- Digits alone are a literal without sign, point and exponent.
  have hdigits : Literal.HasDigits ⟨.absent, ds, none, none⟩ := by
    simpa [Literal.HasDigits, Literal.places] using hne
  have hchars : (toString n).toList = Literal.text ⟨.absent, ds, none, none⟩ := by
    rw [Nat.toString_eq_repr, Nat.repr_eq_ofList_toDigits, String.toList_ofList, ← hds]
    simp [Literal.text, Literal.unsignedText, Sign.text, fractionText, Exponent.text]
  have hdecimal : Literal.decimal ⟨.absent, ds, none, none⟩ = ⟨n, 0⟩ := by
    simp [Literal.decimal, Literal.places, Exponent.value, hvalue]
  have htrim := Lexer.trim_text_append hdigits []
  rw [List.append_nil, ← hchars] at htrim
  apply toOption_ofText
  rw [htrim, trimEnd, List.reverse_nil, List.dropWhile_nil, List.reverse_nil, List.append_nil, hchars,
    Binary.ofText, Numeral.ofText_text hdigits, hdecimal]
  exact congrArg (fun rank => Except.ok (Binary.ofRank false rank)) (Decimal.nearest_natural single n)

lemma toDouble_integer {n : Nat} (h : double.nearest n 1 < double.limit) :
    Json.Number.toDouble (.integer n) = ⟨false, ⟨double.nearest n 1, h⟩⟩ := by
  have hneg : decide ((n : ℤ) < 0) = false := by simp
  rw [Json.Number.toDouble, Json.Number.finite?, Int.natAbs_natCast, dif_pos h, Option.getD_some]
  simp only [hneg]

lemma ofJson?_integer {n : Nat} (h : double.nearest n 1 < double.limit) :
    ofJson? (.number (.integer n)) = ofSingle? (.ofRank false
      (single.nearest (double.units (double.nearest n 1)) (2 ^ double.lowest))) := by
  rw [ofJson?, toDouble_integer h, narrow, Nat.pow_eq, Finite.units]

lemma ofSingle?_ofRank {rank : Nat} (h0 : 0 < rank) (h : rank < single.limit) :
    ofSingle? (.ofRank false rank) = some ⟨⟨rank, h⟩, h0⟩ := by
  rw [Binary.ofRank, dif_pos h, ofSingle?, dif_pos h0]

lemma nearest_bounds {num den : Nat} (hd : 0 < den) (hl : den ≤ num) (hu : num ≤ 2 ^ 64 * den) :
    0 < single.nearest num den ∧ single.nearest num den < single.limit := by
  have hone : 0 < single.nearest 1 1 := by decide +kernel
  have hlimit : single.nearest (2 ^ 64) 1 < single.limit := by decide +kernel
  have hlow : single.nearest 1 1 ≤ single.nearest num den :=
    Format.nearest_le_nearest (by decide) Nat.one_pos hd (by omega)
  have hhigh : single.nearest num den ≤ single.nearest (2 ^ 64) 1 :=
    Format.nearest_le_nearest (by decide) hd Nat.one_pos (by omega)
  omega

lemma units_nearest_bounds {n : Nat} (h0 : 0 < n) (h : n < 2 ^ 64) :
    double.nearest n 1 < double.limit ∧ 2 ^ double.lowest ≤ double.units (double.nearest n 1) ∧
      double.units (double.nearest n 1) ≤ 2 ^ 64 * 2 ^ double.lowest := by
  have hlow : double.nearest 1 1 ≤ double.nearest n 1 :=
    Format.nearest_le_nearest (by decide) Nat.one_pos Nat.one_pos (by omega)
  have hhigh : double.nearest n 1 ≤ double.nearest (2 ^ 64) 1 :=
    Format.nearest_le_nearest (by decide) Nat.one_pos Nat.one_pos (by omega)
  have hone : double.units (double.nearest 1 1) = 2 ^ double.lowest := by decide +kernel
  have hpower : double.units (double.nearest (2 ^ 64) 1) = 2 ^ 64 * 2 ^ double.lowest := by
    decide +kernel
  have hlimit : double.nearest (2 ^ 64) 1 < double.limit := by decide +kernel
  refine ⟨by omega, ?_, ?_⟩
  · rw [← hone]
    exact double.units_strictMono.monotone hlow
  · rw [← hpower]
    exact double.units_strictMono.monotone hhigh

lemma exists_ofJson?_eq {n : Nat} (h0 : 0 < n) (h : n < 2 ^ 64) :
    ∃ t u, ofJson? (.number (.integer n)) = some t ∧ ofJson? (.string (toString n)) = some u ∧
      u.rank.val = single.nearest n 1 ∧
      (t = u ↔ ¬ single.LeadsAstray n (double.magnitude (double.nearest n 1))) := by
  obtain ⟨hfinite, hl, hu⟩ := units_nearest_bounds h0 h
  have hden : 0 < 2 ^ double.lowest := Nat.two_pow_pos double.lowest
  obtain ⟨hpos, hlt⟩ := nearest_bounds hden hl hu
  obtain ⟨hpos', hlt'⟩ := nearest_bounds Nat.one_pos (show 1 ≤ n by omega) (by omega)
  have hiff := @Format.nearest_units_nearest_eq_iff single double (by decide) (by decide) (by decide)
    n 1 Nat.one_pos
  rw [Nat.cast_one, div_one] at hiff
  refine ⟨⟨⟨_, hlt⟩, hpos⟩, ⟨⟨_, hlt'⟩, hpos'⟩, ?_, ?_, rfl, ?_⟩
  · rw [ofJson?_integer hfinite, ofSingle?_ofRank hpos hlt]
  · rw [ofJson?_digits, ofSingle?_ofRank hpos' hlt']
  · rw [← hiff, Threshold.mk.injEq, Fin.mk.injEq]

lemma not_leadsAstray_of_le {n : Nat} (h : n ≤ 2 ^ 53) :
    ¬ single.LeadsAstray n (double.magnitude (double.nearest n 1)) := by
  obtain ⟨rank, hrank⟩ : ∃ rank, double.units rank = n * 2 ^ double.lowest := by
    rcases h.lt_or_eq with hlt | rfl
    · exact double.exists_units_eq (m := n) hlt double.lowest
    · obtain ⟨rank, hrank⟩ := double.exists_units_eq (m := 1) (by decide) (53 + double.lowest)
      exact ⟨rank, by rw [hrank, Nat.pow_add, Nat.one_mul]⟩
  have hmagnitude : (n / (1 : ℕ) : ℚ) = double.magnitude rank := by
    rw [Format.magnitude, hrank, Nat.cast_one, div_one]
    push_cast
    rw [mul_div_assoc, div_self (pow_ne_zero _ two_ne_zero), mul_one]
  -- The integer is a magnitude, which rounding passes on neither side.
  have hle := double.magnitude_nearest_le (by decide) Nat.one_pos hmagnitude.le
  have hge := double.le_magnitude_nearest (by decide) Nat.one_pos hmagnitude.ge
  have hexact : (n : ℚ) = double.magnitude (double.nearest n 1) := by
    rw [le_antisymm hle hge, ← hmagnitude, Nat.cast_one, div_one]
  rintro ⟨k, -, ⟨hlt, -⟩ | ⟨hlt, -⟩⟩
  · exact hlt.ne hexact
  · exact hlt.ne' hexact

end Threshold

lemma violations_zero (t : Threshold) : violations "a\x7bfont-size:0\x7d".toList t =
    [⟨some (.finite ⟨false, ⟨0, by decide⟩⟩), "0", ⟨1, 13⟩⟩] := by
  have hds : (Stylesheet.ofText "a\x7bfont-size:0\x7d".toList).declarations =
      [⟨"font-size", "0", [⟨some (.finite ⟨false, ⟨0, by decide⟩⟩), "0", ⟨1, 13⟩⟩], false, ⟨1, 3⟩⟩] := by
    decide +kernel
  have hlt : Binary.lt (.finite ⟨false, ⟨0, by decide⟩⟩) t.toSingle = true := by
    have hcompare : compare (0 : ℤ) t.rank = .lt := by
      rw [compare_lt_iff_lt]
      exact_mod_cast t.pos
    simp [Binary.lt, Binary.compare?, Binary.place?, Threshold.toSingle, hcompare]
  rw [violations, hds]
  simp [hlt]

lemma ofJson?_eq_of_lint_eq {value value' : Json} {t u : Threshold}
    (ht : Threshold.ofJson? value = some t) (hu : Threshold.ofJson? value' = some u)
    (h : ∀ css name, (lint css name value).records = (lint css name value').records) : t = u := by
  -- What is said of a size of zero quotes the threshold, whichever it is.
  have hrecords := h "a\x7bfont-size:0\x7d" Rule.usualName
  rw [lint_records_eq _ _ ht, lint_records_eq _ _ hu, violations_zero, violations_zero] at hrecords
  have hinspect (v : Threshold) := @inspect_of_mem_violations
    ⟨Rule.usualName, "a\x7bfont-size:0\x7d", v⟩ _ (violations_zero v ▸ List.mem_singleton_self _)
  have hreport := (List.cons.inj hrecords).1
  exact Rule.minimum_eq_of_message_eq (hinspect t) (hinspect u) (.inl (congrArg Record.message hreport))

/-- An integer and its digits in quotes are thresholds both, the latter the nearest number of 32 bits.
They are one threshold, and make the same records on every style sheet, exactly if the number of 64
bits nearest to the integer is no midpoint of two neighbours of 32 bits that it is rounded away from;
so they are for every integer of 53 bits. -/
theorem quoted_integer_agrees_iff {n : Nat} (h0 : 0 < n) (h : n < 2 ^ 64) :
    ∃ t u, Threshold.ofJson? (.number (.integer n)) = some t ∧
      Threshold.ofJson? (.string (toString n)) = some u ∧ u.rank.val = single.nearest n 1 ∧
      (t = u ↔ ¬ single.LeadsAstray n (double.magnitude (double.nearest n 1))) ∧
      ((∀ css name, (lint css name (.number (.integer n))).records =
        (lint css name (.string (toString n))).records) ↔
          ¬ single.LeadsAstray n (double.magnitude (double.nearest n 1))) ∧
      (n ≤ 2 ^ 53 → t = u) := by
  obtain ⟨t, u, ht, hu, hrank, hiff⟩ := Threshold.exists_ofJson?_eq h0 h
  refine ⟨t, u, ht, hu, hrank, hiff, ⟨fun hrecords => ?_, fun hastray css name => ?_⟩, fun hle => ?_⟩
  · exact hiff.mp (ofJson?_eq_of_lint_eq ht hu hrecords)
  · rw [lint_records_eq css name ht, lint_records_eq css name hu, hiff.mpr hastray]
  · exact hiff.mpr (Threshold.not_leadsAstray_of_le hle)

/-- An integer of 54 bits that is rounded twice, to the number that its digits are rounded to at once. -/
theorem quoted_integer_agrees_iff_rounded :
    0 < 2 ^ 53 + 1 ∧ 2 ^ 53 + 1 < 2 ^ 64 ∧
    (∃ t u, Threshold.ofJson? (.number (.integer ((2 ^ 53 + 1 : ℕ) : ℤ))) = some t ∧
      Threshold.ofJson? (.string (toString (2 ^ 53 + 1))) = some u ∧
      u.rank.val = single.nearest (2 ^ 53 + 1) 1 ∧ t = u) ∧
    ¬ single.LeadsAstray (2 ^ 53 + 1 : ℕ) (double.magnitude (double.nearest (2 ^ 53 + 1) 1)) ∧
    ∀ css name, (lint css name (.number (.integer ((2 ^ 53 + 1 : ℕ) : ℤ)))).records =
      (lint css name (.string (toString (2 ^ 53 + 1)))).records := by
  obtain ⟨t, u, ht, hu, hrank, hiff, hlint, -⟩ :=
    quoted_integer_agrees_iff (n := 2 ^ 53 + 1) (by decide) (by decide)
  have hsame : Threshold.ofJson? (.number (.integer ((2 ^ 53 + 1 : ℕ) : ℤ))) =
      Threshold.ofJson? (.string (toString (2 ^ 53 + 1))) := by decide +kernel
  have htu : t = u := by
    rwa [ht, hu, Option.some.injEq] at hsame
  exact ⟨by decide, by decide, ⟨t, u, ht, hu, hrank, htu⟩, hiff.mp htu, hlint.mpr (hiff.mp htu)⟩

/-- One more than a midpoint of 54 bits, which it is first rounded to: in quotes it is rounded up, and
without quotes down. -/
theorem quoted_integer_differs :
    toString 9007199791611905 = "9007199791611905" ∧
    (Threshold.ofJson? (.number (.integer 9007199791611905))).map Threshold.text =
      some "9007199000000000".toList ∧
    (Threshold.ofJson? (.string "9007199791611905")).map Threshold.text =
      some "9007200000000000".toList ∧
    Threshold.ofJson? (.number (.integer 9007199791611905)) ≠
      Threshold.ofJson? (.string "9007199791611905") ∧
    (lint "a\x7bfont-size:0\x7d" "sizes" (.number (.integer 9007199791611905))).records ≠
      (lint "a\x7bfont-size:0\x7d" "sizes" (.string "9007199791611905")).records := by
  decide +kernel

end FontSizeLint

import FontSizeLint.Proofs.Css.Append
import FontSizeLint.Proofs.Lint.Violations

/-! A size that is written no less than a written threshold is not reported, whatever both are rounded
to: the number of the size is read as it is written, and rounding keeps the order. -/
namespace FontSizeLint
open Text Css Numeric

namespace Css.Lexer

lemma numberLength_of_isPrefix {s u v : List Char} (h : numberLength (s ++ u) = s.length)
    (hv : v <+: u ++ ['}']) : numberLength (s ++ v) = s.length := by
  apply numberLength_congr h
  intro l hl
  have hp : l.text <+: s ++ u ++ ['}'] := by
    rw [List.append_assoc]
    exact hl.trans ((List.prefix_append_right_inj s).mpr hv)
  rcases List.prefix_concat_iff.mp hp with he | hp
  · have hm : '}' ∈ l.text := by simp [he]
    exact absurd (isLiteralChar_of_mem hm) (by decide)
  · exact hp

end Css.Lexer

/-- A literal with its unit makes one token. -/
structure IsSize (l : Literal) (unit : List Char) (k : Kind) : Prop where
  hasDigits : l.HasDigits
  isNumeric : k.isNumeric = true
  number : Lexer.numberLength (l.text ++ unit) = l.text.length
  starts : Lexer.startsNumber (l.text ++ unit) = true
  kind : (Lexer.numeric (l.text ++ unit)).1 = k
  length_le : (l.text ++ unit).length ≤ (Lexer.numeric (l.text ++ unit)).2

lemma exists_literal {s unit : List Char} {k : Kind}
    (hk : tokens (s ++ unit) = [⟨k, s ++ unit, .start⟩]) (hn : k.isNumeric = true)
    (hs : Lexer.numberLength (s ++ unit) = s.length) :
    Lexer.startsNumber (s ++ unit) = true ∧ ∃ l : Literal, l.HasDigits ∧ l.text = s := by
  have hat : Token.At (s ++ unit) 0 ⟨k, s ++ unit, .start⟩ := @tokens_at _ [] [] _ hk
  have hkind := hat.kind
  simp only [List.drop_zero] at hkind
  have hstart : Lexer.startsNumber (s ++ unit) = true := by
    apply Lexer.startsNumber_of_isNumeric
    rwa [← hkind]
  obtain ⟨l, -, hd, ht⟩ := Lexer.exists_text_take (s ++ unit)
  rw [hs, List.take_left] at ht
  exact ⟨hstart, l, hd hstart, ht⟩

lemma isSize_of_tokens {l : Literal} {unit : List Char} {k : Kind} (hl : l.HasDigits)
    (hk : tokens (l.text ++ unit) = [⟨k, l.text ++ unit, .start⟩]) (hn : k.isNumeric = true)
    (hs : Lexer.numberLength (l.text ++ unit) = l.text.length) : IsSize l unit k := by
  obtain ⟨hstart, -⟩ := exists_literal hk hn hs
  have hat : Token.At (l.text ++ unit) 0 ⟨k, l.text ++ unit, .start⟩ := @tokens_at _ [] [] _ hk
  obtain ⟨-, hkind, htext, -, -⟩ := hat
  simp only [List.drop_zero, Lexer.first_of_startsNumber hstart] at hkind htext
  have hpos := List.length_pos_iff.mpr (Literal.text_ne_nil hl)
  have hle := Lexer.numberLength_le_numeric (l.text ++ unit)
  have hlen := congrArg List.length htext
  rw [List.length_take] at hlen
  exact ⟨hl, hn, hs, hstart, hkind.symm, by omega⟩

namespace IsSize
variable {l : Literal} {unit : List Char} {k : Kind}

lemma place_pieces (h : IsSize l unit k) (p : Position) :
    ∃ w rest, w <+: ['}'] ∧ (rest = [] ∨ ∃ q, rest = [⟨.closing .curly, ['}'], q⟩]) ∧
      Lexer.place p (pieces Lexer.first 0 (l.text ++ (unit ++ ['}']))) =
        ⟨k, l.text ++ (unit ++ w), p⟩ :: rest := by
  have hne : l.text ++ (unit ++ ['}']) ≠ [] := by simp
  have hpos := List.length_pos_iff.mpr (Literal.text_ne_nil h.hasDigits)
  have hstart := Lexer.startsNumber_append ['}'] h.starts
  rw [List.append_assoc] at hstart
  obtain ⟨hkind, hlen⟩ := Lexer.numeric_append (r := ['}']) h.number
    (Lexer.numberLength_of_isPrefix h.number List.prefix_rfl) rfl (by decide) rfl h.length_le
  rw [pieces_step (Lexer.first_pos _) hne, Lexer.first_of_startsNumber hstart, hkind, h.kind, Lexer.place]
  generalize (Lexer.numeric (l.text ++ (unit ++ ['}']))).2 = n at hlen
  rcases Nat.eq_or_lt_of_le hlen with heq | hlt
  · have hn : n = (l.text ++ unit).length := by
      rw [List.length_append] at heq ⊢
      omega
    refine ⟨[], _, List.nil_prefix, .inr ⟨p.advance (l.text ++ unit), rfl⟩, ?_⟩
    rw [hn, ← List.append_assoc, List.take_left, List.drop_left, List.append_nil]
    rfl
  · have hn : (l.text ++ (unit ++ ['}'])).length ≤ n := by
      rw [← List.append_assoc, List.length_append, List.length_singleton]
      omega
    refine ⟨['}'], [], List.prefix_rfl, .inl rfl, ?_⟩
    rw [List.take_of_length_le hn, List.drop_eq_nil_of_le hn]
    rfl

lemma value_ofComponent (h : IsSize l unit k) {w : List Char} (hw : w <+: ['}']) (p : Position) :
    (Part.ofComponent (.leaf ⟨k, l.text ++ (unit ++ w), p⟩)).value =
      some (l.decimal.toBinary single l.sign.isNegative) := by
  have hv : trimEnd (unit ++ w) <+: unit ++ ['}'] :=
    (trimEnd_isPrefix _).trans ((List.prefix_append_right_inj unit).mpr hw)
  have hnum := Lexer.numberLength_of_isPrefix h.number hv
  simp only [Part.ofComponent, Component.head, Component.text, h.isNumeric, if_true,
    Lexer.trim_text_append h.hasDigits, Lexer.leading?_eq h.hasDigits hnum]

lemma exists_declarations (h : IsSize l unit k) :
    ∃ p : Part, p.value = some (l.decimal.toBinary single l.sign.isNegative) ∧
      (Stylesheet.ofText ("a\x7bfont-size:".toList ++ (l.text ++ (unit ++ ['}'])))).declarations.map
        (fun d => (d.name, d.parts)) = [("font-size", [p])] := by
  obtain ⟨w, rest, hw, hrest, hplace⟩ := h.place_pieces ⟨1, 13⟩
  refine ⟨_, h.value_ofComponent hw ⟨1, 13⟩, ?_⟩
  have htokens : tokens ("a\x7bfont-size:".toList ++ (l.text ++ (unit ++ ['}']))) =
      ⟨.ident, ['a'], ⟨1, 1⟩⟩ :: ⟨.opening .curly, ['{'], ⟨1, 2⟩⟩ ::
      ⟨.ident, "font-size".toList, ⟨1, 3⟩⟩ :: ⟨.colon, [':'], ⟨1, 12⟩⟩ ::
      ⟨k, l.text ++ (unit ++ w), ⟨1, 13⟩⟩ :: rest := by
    rw [← hplace]
    rfl
  have hk := h.isNumeric
  rw [Stylesheet.ofText, htokens]
  cases k <;> simp only [Kind.isNumeric, Bool.false_eq_true] at hk <;>
    rcases hrest with rfl | ⟨q, rfl⟩ <;> rfl

end IsSize

namespace Threshold

lemma eq_toSingle_of_ofSingle? {x : Single} {t : Threshold} :
    ofSingle? x = some t → x = t.toSingle := by
  fun_cases ofSingle? x with
  | case1 rank h => rintro ⟨⟩; rfl
  | case2 => simp
  | case3 => simp

lemma exists_decimal_of_ofText {s : List Char} {t : Threshold} (h : ofText s = .ok t) :
    ∃ d, Numeral.ofText (trim s) = .ok ⟨false, .decimal d⟩ ∧ d.nearest single = t.rank := by
  unfold ofText at h
  split at h
  · simp at h
  · rename_i x hx
    split at h
    · rename_i u hu
      obtain rfl : u = t := by simpa using h
      obtain rfl := eq_toSingle_of_ofSingle? hu
      cases hn : Numeral.ofText (trim s) with
      | error e => simp [Binary.ofText, hn, Except.map] at hx
      | ok n =>
        obtain ⟨negative, size⟩ := n
        simp only [Binary.ofText, hn, Except.map, Except.ok.injEq] at hx
        cases size with
        | nan => simp [Numeral.toBinary, toSingle] at hx
        | infinite => simp [Numeral.toBinary, toSingle] at hx
        | decimal d =>
          simp only [Numeral.toBinary, Decimal.toBinary, Binary.ofRank, toSingle] at hx
          split_ifs at hx with hlt
          simp only [Binary.finite.injEq, Finite.mk.injEq] at hx
          obtain ⟨rfl, hr⟩ := hx
          exact ⟨d, rfl, congrArg Fin.val hr⟩
    · simp at h

lemma lt_toSingle_eq_false {t : Threshold} {rank : Nat} (h : t.rank ≤ rank) :
    (Binary.ofRank false rank : Single).lt t.toSingle = false := by
  unfold Binary.ofRank
  split_ifs with hr
  · simpa [Binary.lt, Binary.compare?, Binary.place?, toSingle, compare_lt_iff_lt] using h
  · simp [Binary.lt, Binary.compare?, Binary.place?, toSingle, compare_lt_iff_lt]

end Threshold

lemma not_lt_of_value_le {s : List Char} {t : Threshold} (ht : Threshold.ofText s = .ok t)
    {l m : Literal} (hm : m.HasDigits) (hs : m.text = trim s) (h : m.value ≤ l.value) :
    (l.decimal.toBinary single l.sign.isNegative).lt t.toSingle = false := by
  obtain ⟨d, hd, hrank⟩ := Threshold.exists_decimal_of_ofText ht
  rw [← hs, Numeral.ofText_text hm] at hd
  obtain ⟨hneg, hdec⟩ : m.sign.isNegative = false ∧ m.decimal = d := by simpa using hd
  have hpos : 0 < d.value := by
    apply Decimal.value_pos_of_nearest (F := single) (by decide)
    have htp := t.pos
    omega
  rw [Literal.value_of_isNegative hneg, hdec] at h
  have hlneg := Literal.isNegative_of_pos (lt_of_lt_of_le hpos h)
  rw [Literal.value_of_isNegative hlneg] at h
  rw [hlneg]
  apply Threshold.lt_toSingle_eq_false
  rw [← hrank]
  apply Decimal.nearest_le_nearest (by decide) h
  rw [hrank]
  exact t.rank.isLt

lemma IsSize.records_eq_nil_iff {l : Literal} {unit : List Char} {k : Kind} (h : IsSize l unit k)
    {css name : String} {value : Json} {t : Threshold} (ht : Threshold.ofJson? value = some t)
    (hcss : css.toList = "a\x7bfont-size:".toList ++ (l.text ++ (unit ++ ['}']))) :
    (lint css name value).records = [] ↔
      (l.decimal.toBinary single l.sign.isNegative).lt t.toSingle = false := by
  obtain ⟨p, hp, hd⟩ := h.exists_declarations
  obtain ⟨d, hds, hdp⟩ := List.map_eq_singleton_iff.mp hd
  obtain ⟨hname, hparts⟩ := Prod.mk.inj hdp
  rw [lint_records_eq css name ht, List.map_eq_nil_iff, hcss, violations, hds]
  simp [hname, hparts, hp]

/-- A size is compliant if it is written no less than the threshold, as exact decimal numbers, and so
is one written with the numeral of the threshold. -/
theorem lint_clean_of_written_le (s unit text name : String) {k : Kind} {t : Threshold}
    (hk : tokens (s ++ unit).toList = [⟨k, (s ++ unit).toList, .start⟩])
    (hn : k.isNumeric = true) (hs : Lexer.numberLength (s ++ unit).toList = s.toList.length)
    (ht : Threshold.ofText text.toList = .ok t) :
    (lint ("a\x7bfont-size:" ++ s ++ unit ++ "\x7d") name (.string text)).listeners = 1 ∧
    (∃ x, Writes s.toList x) ∧ (∃ y, Writes (trim text.toList) y) ∧
    (∀ x y, Writes s.toList x → Writes (trim text.toList) y → y ≤ x →
      (lint ("a\x7bfont-size:" ++ s ++ unit ++ "\x7d") name (.string text)).records = []) ∧
    (s.toList = trim text.toList →
      (lint ("a\x7bfont-size:" ++ s ++ unit ++ "\x7d") name (.string text)).records = []) := by
  have hvalue : Threshold.ofJson? (.string text) = some t := by
    rw [Threshold.ofJson?, ht]
    rfl
  rw [String.toList_append] at hk hs
  obtain ⟨-, l, hl, hlt⟩ := exists_literal hk hn hs
  obtain ⟨d, hd, -⟩ := Threshold.exists_decimal_of_ofText ht
  obtain ⟨m, hm, hmt⟩ := Numeral.exists_of_ofText hd
  have hclean : ∀ x y, Writes s.toList x → Writes (trim text.toList) y → y ≤ x →
      (lint ("a\x7bfont-size:" ++ s ++ unit ++ "\x7d") name (.string text)).records = [] := by
    rintro x y ⟨l, hl, hlt, rfl⟩ ⟨m, hm, hmt, rfl⟩ hle
    rw [← hlt] at hk hs
    have hcss : ("a\x7bfont-size:" ++ s ++ unit ++ "\x7d").toList =
        "a\x7bfont-size:".toList ++ (l.text ++ (unit.toList ++ ['}'])) := by
      have hb : "\x7d".toList = ['}'] := by simp
      simp only [String.toList_append, hb, hlt, List.append_assoc]
    exact ((isSize_of_tokens hl hk hn hs).records_eq_nil_iff hvalue hcss).mpr
      (not_lt_of_value_le ht hm hmt hle)
  refine ⟨?_, ⟨_, l, hl, hlt, rfl⟩, ⟨_, m, hm, hmt, rfl⟩, hclean, ?_⟩
  · rw [(lint_eq _ name _).1, hvalue]
    rfl
  · intro hst
    exact hclean l.value l.value ⟨l, hl, hlt, rfl⟩ ⟨l, hl, hlt.trans hst, rfl⟩ le_rfl

/-- A percentage and a threshold that write one number in two ways. -/
theorem lint_clean_of_written_le_percentage :
    tokens ("53" ++ "%").toList = [⟨.percentage, "53%".toList, .start⟩] ∧
    Threshold.ofText " 5.3e1".toList = .ok ⟨⟨0x42540000, by decide⟩, by decide⟩ ∧
    Writes "53".toList 53 ∧ Writes (trim " 5.3e1".toList) 53 ∧
    (lint ("a\x7bfont-size:" ++ "53" ++ "%" ++ "\x7d") "min-font-size" (.string " 5.3e1")).listeners =
      1 ∧
    (lint ("a\x7bfont-size:" ++ "53" ++ "%" ++ "\x7d") "min-font-size" (.string " 5.3e1")).records =
      [] := by
  have hk : tokens ("53" ++ "%").toList = [⟨.percentage, "53%".toList, .start⟩] := by decide +kernel
  have ht : Threshold.ofText " 5.3e1".toList = .ok ⟨⟨0x42540000, by decide⟩, by decide⟩ := rfl
  have hx : Writes "53".toList 53 := by
    refine ⟨⟨.absent, [5, 3], none, none⟩, by simp [Literal.HasDigits], rfl, ?_⟩
    norm_num [Literal.value, Literal.places, Exponent.value, Sign.factor, digitsValue]
  have hy : Writes (trim " 5.3e1".toList) 53 := by
    refine ⟨⟨.absent, [5], some [3], some ⟨'e', .absent, [1], .inl rfl, by simp⟩⟩,
      by simp [Literal.HasDigits], rfl, ?_⟩
    norm_num [Literal.value, Literal.places, Exponent.value, Sign.factor, digitsValue]
  obtain ⟨hl, -, -, hclean, -⟩ := lint_clean_of_written_le "53" "%" " 5.3e1" "min-font-size" hk rfl
    (by decide +kernel) ht
  exact ⟨hk, ht, hx, hy, hl, hclean 53 53 hx hy le_rfl⟩

end FontSizeLint

import FontSizeLint.Proofs.Css.Number
import FontSizeLint.Proofs.Text.Bytes
import Mathlib.Order.Bounds.Basic

/-! The number at the front of a text is the longest that stands there, counted in bytes as well as in
characters, and is read as a number exactly if the text begins like one. -/
namespace FontSizeLint
open Text Numeric

namespace Numeric.Numeral

lemma decimal?_of_undigited {s : List Char} (h : Undigited s) (hs : ∀ r, s = '.' :: r → Undigited r) :
    decimal? s = none := by
  have hwhole : s.takeWhile Char.isDigit = [] := takeWhile_digitsText_append [] h
  have hrest : s.dropWhile Char.isDigit = s := dropWhile_digitsText_append [] h
  rw [decimal?, hwhole, hrest]
  split
  rename_i hsplit
  split at hsplit
  · rename_i r
    have hfraction : r.takeWhile Char.isDigit = [] := takeWhile_digitsText_append [] (hs r rfl)
    rw [hfraction] at hsplit
    obtain ⟨rfl, rfl⟩ := Prod.mk.inj hsplit
    rfl
  · obtain ⟨rfl, rfl⟩ := Prod.mk.inj hsplit
    rfl

lemma ofText_of_decimal?_eq_none {s : List Char} (hd : decimal? s = none)
    (hs : ∀ c ∈ s.head?, c = '.' ∨ c = 'e' ∨ c = 'E') (sign : Sign) :
    ∃ e, ofText (sign.text ++ s) = .error e := by
  have hsize : size? s = none := by
    rw [size?, hd]
    cases s with
    | nil => rfl
    | cons c s => rcases hs c rfl with rfl | rfl | rfl <;> simp [lower]
  cases sign with
  | plus => exact ⟨.malformed, by simp [Sign.text, ofText, hsize]⟩
  | minus => exact ⟨.malformed, by simp [Sign.text, ofText, hsize]⟩
  | absent =>
    cases s with
    | nil => exact ⟨.empty, rfl⟩
    | cons c s =>
      have hsign : c ≠ '-' ∧ c ≠ '+' := by rcases hs c rfl with rfl | rfl | rfl <;> decide
      exact ⟨.malformed, by simp [Sign.text, ofText, hsize, hsign]⟩

lemma exists_ofText_text_iff (l : Literal) : (∃ n, ofText l.text = .ok n) ↔ l.HasDigits := by
  refine ⟨fun ⟨n, hn⟩ => ?_, fun h => ⟨_, ofText_text h⟩⟩
  by_contra h
  obtain ⟨hwhole, hplaces⟩ := List.append_eq_nil_iff.mp (not_not.mp h)
  have hexponent := undigited_exponent l.exponent
  have hhead : ∀ c ∈ (Exponent.text l.exponent).head?, c = 'e' ∨ c = 'E' := by
    cases l.exponent with
    | none => simp [Exponent.text]
    | some e => simpa [Exponent.text] using e.isMark
  -- All that is left is a point, if there is one, and the exponent.
  have hunread : ∃ e, ofText l.text = .error e := by
    rw [Literal.text, Literal.unsignedText, hwhole, digitsText_nil, List.nil_append]
    cases hf : l.fraction with
    | none =>
      rw [fractionText, List.nil_append]
      refine ofText_of_decimal?_eq_none (decimal?_of_undigited hexponent fun r hr => ?_)
        (fun c hc => .inr (hhead c hc)) l.sign
      have hpoint := hhead '.' (by simp [hr])
      simp at hpoint
    | some ds =>
      obtain rfl : ds = [] := by simpa [Literal.places, hf] using hplaces
      rw [fractionText, digitsText_nil]
      refine ofText_of_decimal?_eq_none (decimal?_of_undigited (undigited_cons rfl _) ?_) (by simp) l.sign
      rintro r ⟨⟩
      exact hexponent
  obtain ⟨e, he⟩ := hunread
  simp [hn] at he

end Numeric.Numeral

namespace Css.Lexer

lemma toNat_lt_of_isLiteralChar {c : Char} (h : isLiteralChar c = true) : c.toNat < 128 := by
  simp only [isLiteralChar, Bool.or_eq_true, beq_iff_eq] at h
  rcases h with ((((hd | rfl) | rfl) | rfl) | rfl) | rfl
  · have hle := (Char.isDigit_iff_toNat.mp hd).2
    simp only [Char.reduceToNat] at hle
    omega
  all_goals decide

lemma ascii_text (l : Literal) : ∀ c ∈ l.text, c.toNat < 128 :=
  fun _ hc => toNat_lt_of_isLiteralChar (isLiteralChar_of_mem hc)

lemma isGreatest_numberLength (s : List Char) :
    IsGreatest {n | ∃ l : Literal, l.fraction ≠ some [] ∧ l.text <+: s ∧ l.text.length = n}
      (numberLength s) := by
  constructor
  · obtain ⟨l, hf, -, hl⟩ := exists_text_take s
    refine ⟨l, hf, hl ▸ List.take_prefix _ _, ?_⟩
    rw [hl, List.length_take_of_le (numberLength_le s)]
  · rintro n ⟨l, hf, hl, rfl⟩
    exact length_text_le hf hl

lemma numberLength_octets (s : String) : numberLength (octets s) = numberLength s.toList := by
  have h := isGreatest_numberLength (octets s)
  simp only [isPrefix_octets_iff (ascii_text _)] at h
  exact h.unique (isGreatest_numberLength s.toList)

lemma startsUnsigned_of_isDigit {c : Char} (h : c.isDigit = true) (s : List Char) :
    startsUnsigned (c :: s) = true := by
  rw [startsUnsigned.eq_2]
  · exact h
  · rintro t ⟨⟩
    exact absurd h (by decide)

lemma startsUnsigned_unsignedText_append {l : Literal} (h : l.HasDigits) (r : List Char) :
    startsUnsigned (l.unsignedText ++ r) = true := by
  unfold Literal.unsignedText
  cases hw : l.whole with
  | cons d ds => exact startsUnsigned_of_isDigit (isDigit_digitChar d) _
  | nil =>
    cases hf : l.fraction with
    | none => simp [Literal.HasDigits, Literal.places, hw, hf] at h
    | some ds =>
      have hne : ds ≠ [] := by simpa [Literal.HasDigits, Literal.places, hw, hf] using h
      have hd := startsDigit_digitsText_append hne (Exponent.text l.exponent ++ r)
      simpa [fractionText, startsUnsigned] using hd

lemma startsNumber_text_append {l : Literal} (h : l.HasDigits) (r : List Char) :
    startsNumber (l.text ++ r) = true := by
  have hu := startsUnsigned_unsignedText_append h r
  rw [Literal.text, List.append_assoc]
  cases l.sign with
  | plus => exact hu
  | minus => exact hu
  | absent =>
    obtain ⟨c, u, hc, hminus, hplus⟩ := Numeral.exists_cons_unsignedText h
    rw [hc, List.cons_append] at hu
    rw [Sign.text, List.nil_append, hc, List.cons_append, startsNumber.eq_3]
    · exact hu
    · rintro t ⟨⟩
      exact hplus rfl
    · rintro t ⟨⟩
      exact hminus rfl

end Css.Lexer

namespace Numeric.Numeral
open Css.Lexer

lemma exists_ofText_take_iff (s : List Char) :
    (∃ x, Binary.ofText single (s.take (leadingLength s)) = .ok x ∧ leading? single s = some x) ↔
      startsNumber s = true := by
  obtain ⟨l, -, hdigits, hl⟩ := exists_text_take s
  rw [leading?, Binary.ofText, leadingLength_eq_numberLength, ← hl]
  constructor
  · rintro ⟨x, hx, -⟩
    have hread : l.HasDigits := by
      rw [← exists_ofText_text_iff]
      cases hn : ofText l.text with
      | ok n => exact ⟨n, rfl⟩
      | error e => simp [hn, Except.map] at hx
    have hs := startsNumber_text_append hread (s.drop (numberLength s))
    rwa [hl, List.take_append_drop] at hs
  · intro hs
    obtain ⟨n, hn⟩ := (exists_ofText_text_iff l).mpr (hdigits hs)
    rw [hn]
    exact ⟨n.toBinary single, rfl, rfl⟩

end Numeric.Numeral

open Css.Lexer Numeral

/-- The length of the number at the front of a text is that of the longest literal there, in which a
point has a digit behind it. Found among the bytes of the text or among its characters, it is a number of
bytes, and ends between two characters. The text up to there is read as a number, and no other takes its
place, exactly if the text begins with a digit, with a point and a digit, or with a sign and one of these. -/
theorem leading_number_longest (s : String) :
    IsGreatest {m | ∃ l : Literal, l.fraction ≠ some [] ∧ l.text <+: s.toList ∧ byteSize l.text = m}
      (leadingLength s.toList) ∧
    leadingLength (octets s) = leadingLength s.toList ∧
    leadingLength s.toList ≤ s.utf8ByteSize ∧
    String.Pos.Raw.IsValid s ⟨leadingLength s.toList⟩ ∧
    splitAt? s (leadingLength s.toList) =
      some (String.ofList (s.toList.take (leadingLength s.toList)),
        String.ofList (s.toList.drop (leadingLength s.toList))) ∧
    ((∃ x, Binary.ofText single (s.toList.take (leadingLength s.toList)) = .ok x ∧
        leading? single s.toList = some x) ↔ startsNumber s.toList = true) := by
  have hn : leadingLength s.toList = numberLength s.toList := leadingLength_eq_numberLength s.toList
  have hgreatest := isGreatest_numberLength s.toList
  -- Literals are ASCII, so that their characters are bytes.
  have hbytes : byteSize (s.toList.take (numberLength s.toList)) = numberLength s.toList := by
    obtain ⟨l, -, -, hl⟩ := exists_text_take s.toList
    rw [← hl, byteSize_of_ascii (ascii_text l), hl, List.length_take_of_le (numberLength_le s.toList)]
  refine ⟨?_, ?_, ?_, ?_, ?_, exists_ofText_take_iff s.toList⟩
  · simpa only [byteSize_of_ascii (ascii_text _), hn] using hgreatest
  · rw [leadingLength_eq_numberLength, numberLength_octets, hn]
  · rw [hn, ← hbytes, ← byteSize_toList]
    exact byteSize_le_of_isPrefix (List.take_prefix _ _)
  · rw [hn, ← hbytes]
    exact isValid_byteSize_take s _
  · have hsplit := splitAt?_byteSize_take s (numberLength s.toList)
    rwa [hbytes, ← hn] at hsplit

end FontSizeLint

import FontSizeLint.Proofs.Css.Append
import FontSizeLint.Proofs.Numeric.Nearest

/-! Numbers of parts are those written. A part has a number where its source begins with one; the lexer
and the reader of numerals end it at the same character, whatever follows and whatever of that is
trimmed, and the part has that number, correctly rounded. -/
namespace FontSizeLint.Css
open Text Numeric

namespace Lexer

lemma numeric_isNumeric (s : List Char) : (numeric s).1.isNumeric = true := by
  fun_cases numeric s <;> rfl

lemma numberLength_append_of_isPrefix {s u v : List Char} (h : numberLength (s ++ u) = s.length)
    (hv : v <+: u) : numberLength (s ++ v) = s.length :=
  numberLength_congr h fun _ hl => hl.trans ((List.prefix_append_right_inj s).mpr hv)

end Lexer

/-- A part with the number that its source begins with, as a literal and as a rank. -/
structure Part.Reads (css : List Char) (o : Nat) (p : Part) (l : Literal) (rank : Nat) : Prop where
  token : ∃ t ∈ tokens css, t.At css o ∧ t.kind.isNumeric = true
  lexed : Lexer.first (css.drop o) = Lexer.numeric (css.drop o)
  length : Numeral.leadingLength p.text.toList = Lexer.numberLength (css.drop o)
  hasDigits : l.HasDigits
  text_source : l.text = (css.drop o).take (Lexer.numberLength (css.drop o))
  text_part : l.text = p.text.toList.take (Numeral.leadingLength p.text.toList)
  literal : Binary.ofText single l.text = .ok (.ofRank l.sign.isNegative rank)
  nearest : single.IsNearest single.limit |l.value| rank
  value : p.value = some (.ofRank l.sign.isNegative rank)
  /-- No other number would be taken in its place. -/
  fallback : ∀ x, (Numeral.leading? single p.text.toList).getD x = .ofRank l.sign.isNegative rank

lemma Component.exists_literal {css : List Char} {o : Nat} {c : Component} (hat : c.head.At css o)
    (htext : c.text <+: css.drop o) (hs : Lexer.startsNumber (css.drop o) = true) :
    ∃ (l : Literal) (u v : List Char), l.HasDigits ∧ css.drop o = l.text ++ u ∧
      Lexer.numberLength (l.text ++ u) = l.text.length ∧ c.text = l.text ++ v ∧ v <+: u := by
  obtain ⟨l, -, hdigits, hl⟩ := Lexer.exists_text_take (css.drop o)
  have hsplit := List.take_append_drop (Lexer.numberLength (css.drop o)) (css.drop o)
  rw [← hl] at hsplit
  have hlen : Lexer.numberLength (css.drop o) = l.text.length := by
    rw [hl, List.length_take_of_le (Lexer.numberLength_le _)]
  -- The first token takes the number in, and the component begins with that token.
  have hhead : l.text.length ≤ c.head.text.length := by
    have hle := Lexer.numberLength_le_numeric (css.drop o)
    have hn := Lexer.numberLength_le (css.drop o)
    rw [hat.text, List.length_take, Lexer.first_of_startsNumber hs]
    omega
  have hc : l.text.length ≤ c.text.length := by
    obtain ⟨ts, hts⟩ := c.tokens_eq_head_cons
    rw [c.text_eq_textOf_tokens, hts, Token.textOf_cons, List.length_append]
    omega
  obtain ⟨v, hv⟩ := List.prefix_of_prefix_length_le (hsplit ▸ List.prefix_append _ _) htext hc
  refine ⟨l, _, v, hdigits hs, hsplit.symm, by rw [hsplit, hlen], hv.symm, ?_⟩
  rw [← hv, ← hsplit] at htext
  exact (List.prefix_append_right_inj l.text).mp htext

lemma Part.reads_ofComponent {css : List Char} {o : Nat} {c : Component} (hc : c.head ∈ tokens css)
    (hat : c.head.At css o) (htext : c.text <+: css.drop o)
    (hs : Lexer.startsNumber (css.drop o) = true) :
    ∃ l rank, (Part.ofComponent c).Reads css o l rank := by
  obtain ⟨l, u, v, hdigits, hsource, hlen, hcomp, hv⟩ := Component.exists_literal hat htext hs
  have hkind : c.head.kind.isNumeric = true := by
    rw [hat.kind, Lexer.first_of_startsNumber hs]
    exact Lexer.numeric_isNumeric _
  have htrim : (Part.ofComponent c).text.toList = l.text ++ trimEnd v := by
    simp [Part.ofComponent, hcomp, Lexer.trim_text_append hdigits]
  have hnum : Lexer.numberLength (l.text ++ trimEnd v) = l.text.length :=
    Lexer.numberLength_append_of_isPrefix hlen ((trimEnd_isPrefix v).trans hv)
  have hleading : Numeral.leading? single (l.text ++ trimEnd v) =
      some (.ofRank l.sign.isNegative (min (l.decimal.nearest single) single.limit)) := by
    rw [Lexer.leading?_eq hdigits hnum, Decimal.toBinary_eq]
  refine ⟨l, min (l.decimal.nearest single) single.limit, ⟨c.head, hc, hat, hkind⟩,
    Lexer.first_of_startsNumber hs, ?_, hdigits, ?_, ?_, ?_, ?_, ?_, ?_⟩
  · rw [htrim, Lexer.leadingLength_eq_numberLength, hnum, hsource, hlen]
  · rw [hsource, hlen, List.take_left]
  · rw [htrim, Lexer.leadingLength_eq_numberLength, hnum, List.take_left]
  · rw [Binary.ofText, Numeral.ofText_text hdigits, ← Decimal.toBinary_eq]
    rfl
  · rw [l.abs_value]
    exact Decimal.isNearest_nearest (by decide) l.decimal
  · rw [← hleading, ← htrim]
    simp [Part.ofComponent, hkind]
  · intro x
    rw [htrim, hleading, Option.getD_some]

/-- Every part stands at an offset of the text, and has a number if and only if the text there begins
with one. Then the number ends where that of the token there does, what stands before is a literal, and
the part has the number that it writes, correctly rounded. -/
theorem magnitudes_as_written {css : List Char} {d : Declaration} {p : Part}
    (hd : d ∈ (Stylesheet.ofText css).declarations) (hp : p ∈ d.parts) :
    ∃ o, p.position.Marks css o ∧
      (p.value.isSome = true ↔ Lexer.startsNumber (css.drop o) = true) ∧
      (Lexer.startsNumber (css.drop o) = true → ∃ l rank, p.Reads css o l rank) ∧
      p.value ≠ some .nan := by
  obtain ⟨c, hc, rfl⟩ := (readFrom_of_mem_stylesheet hd).exists_component hp
  obtain ⟨o, hat, htext⟩ := Component.exists_at hc
  have hmem : c.head ∈ tokens css := by
    obtain ⟨ts, hts⟩ := c.tokens_eq_head_cons
    exact hc.subset (by simp [hts])
  have hreads := Part.reads_ofComponent hmem hat htext
  have hsome : (Part.ofComponent c).value.isSome = true →
      Lexer.startsNumber (css.drop o) = true := by
    intro hv
    apply Lexer.startsNumber_of_isNumeric
    rw [← hat.kind]
    by_contra hk
    simp [Part.ofComponent, hk] at hv
  refine ⟨o, hat.marks, ⟨hsome, fun hs => ?_⟩, hreads, ?_⟩
  · obtain ⟨l, rank, h⟩ := hreads hs
    rw [h.value, Option.isSome_some]
  · intro hnan
    obtain ⟨l, rank, h⟩ := hreads (hsome (by rw [hnan, Option.isSome_some]))
    rw [h.value, Option.some.injEq] at hnan
    exact Binary.ofRank_ne_nan _ _ hnan

/-- A number with an exponent in front of a unit that begins like one, and others. -/
theorem magnitudes_as_written_units :
    let css := "a\x7bx:-.5E1e-3em/+7% e1 1e99\x7d".toList
    ∃ d ∈ (Stylesheet.ofText css).declarations, ∃ p ∈ d.parts,
      p.text = "-.5E1e-3em" ∧ d.parts.map (fun p => p.value.isSome) = [true, true, false, true] ∧
      ∃ o, p.position.Marks css o ∧
        (p.value.isSome = true ↔ Lexer.startsNumber (css.drop o) = true) ∧
        (Lexer.startsNumber (css.drop o) = true → ∃ l rank, p.Reads css o l rank) ∧
        p.value ≠ some .nan := by
  intro css
  have hparts : ∃ d ∈ (Stylesheet.ofText css).declarations, ∃ p ∈ d.parts,
      p.text = "-.5E1e-3em" ∧ d.parts.map (fun p => p.value.isSome) = [true, true, false, true] := by
    decide +kernel
  obtain ⟨d, hd, p, hp, htext, hsome⟩ := hparts
  exact ⟨d, hd, p, hp, htext, hsome, magnitudes_as_written hd hp⟩

end FontSizeLint.Css

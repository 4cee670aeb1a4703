import FontSizeLint.Proofs.Css.Provenance
import FontSizeLint.Proofs.Text.Trim
import Mathlib.Algebra.Group.Nat.Defs

/-! Where declarations and the numbers in their values stand. Every position that a style sheet
reports is that of an offset of its text, and what is reported stands there. -/
namespace FontSizeLint.Css
open Text

namespace Lexer

/-- The characters that a number can begin with. -/
def isNumberHead (c : Char) : Bool := c.isDigit || c == '.' || c == '+' || c == '-'

lemma isBlank_of_isNumberHead {c : Char} (h : isNumberHead c = true) : isBlank c = false := by
  simp only [isNumberHead, Bool.or_eq_true, beq_iff_eq] at h
  obtain ((hd | rfl) | rfl) | rfl := h
  · have hn : 48 ≤ c.toNat ∧ c.toNat ≤ 57 := by
      simpa [Char.isDigit, UInt32.le_iff_toNat_le] using hd
    simp only [isBlank]
    grind
  all_goals rfl

lemma exists_cons_of_startsNumber {s : List Char} :
    startsNumber s = true → ∃ c r, s = c :: r ∧ isNumberHead c = true := by
  have hd : ∀ t, startsDigit t = true → ∃ c r, t = c :: r ∧ isNumberHead c = true := by
    intro t ht
    cases t with
    | nil => simp [startsDigit] at ht
    | cons c r =>
      have hc : c.isDigit = true := ht
      exact ⟨c, r, rfl, by simp [isNumberHead, hc]⟩
  have hu : ∀ t, startsUnsigned t = true → ∃ c r, t = c :: r ∧ isNumberHead c = true := by
    intro t
    fun_cases startsUnsigned t with
    | case1 r => intro _; exact ⟨'.', r, rfl, rfl⟩
    | case2 t _ => exact hd t
  fun_cases startsNumber s with
  | case1 r => intro _; exact ⟨'+', r, rfl, rfl⟩
  | case2 r => intro _; exact ⟨'-', r, rfl, rfl⟩
  | case3 s _ _ => exact hu s

lemma quoted_kind (quote : Char) (s : List Char) :
    (quoted quote s).1.isNumeric = false ∧ (quoted quote s).1 ≠ .ident := by
  fun_cases quoted quote s <;> exact ⟨rfl, by simp⟩

lemma symbol_kind (s : List Char) : (symbol s).1.isNumeric = false ∧ (symbol s).1 ≠ .ident := by
  fun_cases symbol s with
  | case1 s kind n h => simpa [h] using quoted_kind '"' s
  | case2 s kind n h => simpa [h] using quoted_kind '\'' s
  | _ => exact ⟨rfl, by simp⟩

lemma url?_kind (s : List Char) :
    ∀ p, url? s = some p → p.1.isNumeric = false ∧ p.1 ≠ .ident := by
  fun_cases url? s <;> simp [Kind.isNumeric]

lemma named_isNumeric (s : List Char) : (named s).1.isNumeric = false := by
  fun_cases named s with
  | case1 n r h _ kind m hm => exact (url?_kind r (kind, m) hm).1
  | _ => rfl

lemma named_of_ident {s : List Char} : (named s).1 = .ident → named s = (.ident, nameLength s) := by
  fun_cases named s with
  | case1 n r h _ kind m hm => intro hk; exact absurd hk (url?_kind r (kind, m) hm).2
  | case4 => intro _; rfl
  | _ => simp

lemma numeric_ne_ident (s : List Char) : (numeric s).1 ≠ .ident := by
  fun_cases numeric s <;> simp

lemma startsNumber_of_isNumeric {s : List Char} : (first s).1.isNumeric = true →
    startsNumber s = true := by
  fun_cases first s with
  | case1 => simp [Kind.isNumeric]
  | case2 _ hs => intro _; exact hs
  | case3 => simp [Kind.isNumeric]
  | case4 => simp [named_isNumeric s]
  | case5 => simp [symbol_kind s]

lemma first_of_ident {s : List Char} : (first s).1 = .ident → first s = (.ident, nameLength s) := by
  fun_cases first s with
  | case1 => simp
  | case2 => intro hk; exact absurd hk (numeric_ne_ident s)
  | case3 => simp
  | case4 => exact named_of_ident
  | case5 => intro hk; exact absurd hk (symbol_kind s).2

end Lexer

lemma Token.At.marks {css : List Char} {o : Nat} {t : Token} (h : t.At css o) :
    t.position.Marks css o := by
  rw [h.position]
  exact positionAt_marks h.lt.le h.intact

lemma Component.exists_at {css : List Char} {c : Component} (h : c.tokens <:+: Css.tokens css) :
    ∃ o, c.head.At css o ∧ c.text <+: css.drop o := by
  obtain ⟨ts, us, hts⟩ := h
  obtain ⟨rest, hr⟩ := c.tokens_eq_head_cons
  have hcss : css = Token.textOf ts ++ (c.text ++ Token.textOf us) := by
    rw [c.text_eq_textOf_tokens, ← Token.textOf_append, ← Token.textOf_append, ← List.append_assoc,
      hts]
    exact (tokens_flatten css).symm
  refine ⟨(Token.textOf ts).length, ?_, Token.textOf us, ?_⟩
  · have hsplit : Css.tokens css = ts ++ c.head :: (rest ++ us) := by
      rw [← hts, hr]
      simp
    exact tokens_at hsplit
  · conv_rhs => rw [hcss]
    rw [List.drop_left]

lemma Component.text_ne_nil {css : List Char} {c : Component} {o : Nat} (h : c.head.At css o) :
    c.text ≠ [] := by
  obtain ⟨ts, ht⟩ := c.tokens_eq_head_cons
  have hn := h.lt
  have hpos := Lexer.first_pos (css.drop o)
  rw [c.text_eq_textOf_tokens, ht, Token.textOf_cons, h.text]
  intro he
  have hz := congrArg List.length he
  simp only [List.length_append, List.length_take, List.length_drop, List.length_nil] at hz
  omega

lemma Part.exists_cons_of_isSome {css : List Char} {c : Component} {o : Nat} (ha : c.head.At css o)
    (hv : (Part.ofComponent c).value.isSome) :
    ∃ x r, css.drop o = x :: r ∧ Lexer.isNumberHead x = true := by
  have hk : c.head.kind.isNumeric = true := by
    by_contra hk
    simp [Part.ofComponent, hk] at hv
  apply Lexer.exists_cons_of_startsNumber
  apply Lexer.startsNumber_of_isNumeric
  rw [← ha.kind]
  exact hk

lemma Part.exists_at_of_isSome {css : List Char} {c : Component}
    (h : c.tokens <:+: Css.tokens css) (hv : (Part.ofComponent c).value.isSome) :
    ∃ o, c.head.At css o ∧ (Part.ofComponent c).text.toList <+: css.drop o ∧
      ∃ x r, (Part.ofComponent c).text.toList = x :: r ∧ Lexer.isNumberHead x = true := by
  obtain ⟨o, ha, hp⟩ := Component.exists_at h
  obtain ⟨x, r, hx, hb⟩ := Part.exists_cons_of_isSome ha hv
  obtain ⟨y, t, ht⟩ := List.exists_cons_of_ne_nil (Component.text_ne_nil ha)
  have hxy : y = x := by
    rw [ht, hx] at hp
    exact (List.cons_prefix_cons.mp hp).1
  subst y
  have htrim : (Part.ofComponent c).text.toList = x :: trimEnd t := by
    simp [Part.ofComponent, ht, trim_cons (Lexer.isBlank_of_isNumberHead hb)]
  refine ⟨o, ha, ?_, x, trimEnd t, htrim, hb⟩
  apply List.IsPrefix.trans _ hp
  rw [htrim, ht]
  exact List.cons_prefix_cons.mpr ⟨rfl, trimEnd_isPrefix t⟩

namespace Declaration

lemma ReadFrom.exists_name {css : List Char} {d : Declaration} (h : d.ReadFrom (tokens css)) :
    ∃ o n, d.position.Marks css o ∧ Lexer.first (css.drop o) = (.ident, n) ∧
      d.name = String.ofList (lower (unescape 0 ((css.drop o).take n))) := by
  obtain ⟨name, gap, colon, value, hk, -, rfl, ts, us, hts⟩ := h
  have ha : name.At css (Token.textOf ts).length := by
    have hsplit : tokens css = ts ++ name ::
        (Component.tokensOf gap ++ colon :: Component.tokensOf value ++ us) := by
      rw [← hts]
      simp
    exact tokens_at hsplit
  have hf := Lexer.first_of_ident (ha.kind.symm.trans hk)
  refine ⟨_, _, ha.marks, hf, ?_⟩
  have ht := ha.text
  rw [hf] at ht
  simp only [ofValue, Token.key, Token.name, hk, ht]

lemma ReadFrom.exists_component {ts : List Token} {d : Declaration} (h : d.ReadFrom ts)
    {p : Part} (hp : p ∈ d.parts) : ∃ c : Component, c.tokens <:+: ts ∧ p = Part.ofComponent c := by
  obtain ⟨name, gap, colon, value, -, -, rfl, hi⟩ := h
  obtain ⟨c, hc, -, rfl⟩ := Part.exists_component_of_mem hp
  refine ⟨c, (Component.tokens_infix_of_mem hc).trans (List.IsInfix.trans ?_ hi), rfl⟩
  exact ⟨name :: Component.tokensOf gap ++ [colon], [], by simp⟩

end Declaration

/-- Reported positions are real. In a text whose offsets fit in 32 bits, a declaration stands where
an identifier stands that is its name once escapes are resolved and letters are lowered, and a part
with a number stands where its text stands; their positions fit in 32 bits too. -/
theorem reported_positions_real (css : String) (hw : width css.toList < 2 ^ 32 - 1)
    (d : Declaration) (hd : d ∈ (Stylesheet.ofText css.toList).declarations) :
    (∃ o n, d.position.Marks css.toList o ∧
      Lexer.first (css.toList.drop o) = (.ident, n) ∧
      d.name = String.ofList (lower (unescape 0 ((css.toList.drop o).take n))) ∧
      d.position.line < 2 ^ 32 ∧ d.position.col < 2 ^ 32) ∧
    ∀ p ∈ d.parts, p.value.isSome → ∃ o, p.position.Marks css.toList o ∧
      p.text ≠ "" ∧ p.text.toList <+: css.toList.drop o ∧
      p.position.line < 2 ^ 32 ∧ p.position.col < 2 ^ 32 := by
  have hr := readFrom_of_mem_stylesheet hd
  constructor
  · obtain ⟨o, n, hm, hf, hn⟩ := hr.exists_name
    have hb := hm.le_width
    exact ⟨o, n, hm, hf, hn, by omega, by omega⟩
  · intro p hp hv
    obtain ⟨c, hc, rfl⟩ := hr.exists_component hp
    obtain ⟨o, ha, ht, x, r, hx, -⟩ := Part.exists_at_of_isSome hc hv
    have hne : (Part.ofComponent c).text ≠ "" := by
      intro he
      simp [he] at hx
    have hm : (Part.ofComponent c).position.Marks css.toList o := ha.marks
    have hb := hm.le_width
    exact ⟨o, hm, hne, ht, by omega, by omega⟩

/-- A comment with a break and a character of two units before an escaped name, and a value behind
another break. -/
theorem reported_positions_real_escaped :
    ∃ d ∈ (Stylesheet.ofText "a\x7b/*\r\n😀*/FONT\\-size:\r9px\x7d".toList).declarations,
      d.position = ⟨2, 5⟩ ∧ d.parts.map Part.position = [⟨3, 1⟩] ∧
      (∃ o n, d.position.Marks "a\x7b/*\r\n😀*/FONT\\-size:\r9px\x7d".toList o ∧
        Lexer.first ("a\x7b/*\r\n😀*/FONT\\-size:\r9px\x7d".toList.drop o) = (.ident, n) ∧
        d.name = String.ofList
          (lower (unescape 0 (("a\x7b/*\r\n😀*/FONT\\-size:\r9px\x7d".toList.drop o).take n))) ∧
        d.position.line < 2 ^ 32 ∧ d.position.col < 2 ^ 32) ∧
      ∀ p ∈ d.parts, p.value.isSome → ∃ o,
        p.position.Marks "a\x7b/*\r\n😀*/FONT\\-size:\r9px\x7d".toList o ∧
        p.text ≠ "" ∧ p.text.toList <+: "a\x7b/*\r\n😀*/FONT\\-size:\r9px\x7d".toList.drop o ∧
        p.position.line < 2 ^ 32 ∧ p.position.col < 2 ^ 32 := by
  have hd : (Stylesheet.ofText "a\x7b/*\r\n😀*/FONT\\-size:\r9px\x7d".toList).declarations =
      [⟨"font-size", "9px", [⟨some (.finite ⟨false, ⟨0x41100000, by decide⟩⟩), "9px", ⟨3, 1⟩⟩],
        false, ⟨2, 5⟩⟩] := by decide +kernel
  refine ⟨_, by rw [hd]; exact List.mem_singleton_self _, rfl, rfl, ?_⟩
  exact reported_positions_real _ (by decide) _ (by rw [hd]; exact List.mem_singleton_self _)

end FontSizeLint.Css

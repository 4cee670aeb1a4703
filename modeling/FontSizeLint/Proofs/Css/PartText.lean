import FontSizeLint.Proofs.Css.Partition

/-! The texts of parts, as against the components that the parts are. A component begins with no white
space of the style sheet, but may begin with another blank; its text has that cut off, and then does not
stand where the part is said to stand. -/
namespace FontSizeLint.Css
open Text

lemma Lexer.isSpace_of_first {x : Char} {s : List Char} (h : (first (x :: s)).1 ≠ .whitespace) :
    isSpace x = false := by
  by_contra hx
  rw [Bool.not_eq_false] at hx
  have hpos : 0 < spacesLength (x :: s) := by
    simp [spacesLength, hx]
  exact h (by rw [first, if_pos hpos])

namespace Component

lemma kind_head_ne_whitespace {c : Component} (h : c.Complete ∨ c.CutShort) (ht : c.isTrivia = false) :
    c.head.kind ≠ .whitespace := by
  intro hk
  have hopens : ∀ b, c.head.kind.opens? ≠ some b := by
    simp [hk, Kind.opens?]
  rcases h with h | h <;> cases h
  case inl.leaf =>
    have hleaf : Kind.isTrivia .whitespace = false := hk ▸ ht
    exact absurd hleaf (by decide)
  -- What opens a block is no white space either.
  all_goals exact hopens _ ‹_›

lemma exists_first {css : List Char} {c : Component} (hc : c.tokens <:+: Css.tokens css)
    (h : c.Complete ∨ c.CutShort) (ht : c.isTrivia = false) :
    ∃ o x s rest, c.head.At css o ∧ c.text = x :: s ∧ css.drop o = x :: rest ∧
      c.text <+: css.drop o ∧ isSpace x = false := by
  obtain ⟨o, hat, hprefix⟩ := exists_at hc
  obtain ⟨x, s, hx⟩ := List.exists_cons_of_ne_nil (text_ne_nil hat)
  obtain ⟨rest, hrest⟩ : ∃ rest, css.drop o = x :: rest := by
    obtain ⟨r, hr⟩ := hprefix
    exact ⟨s ++ r, by rw [← hr, hx, List.cons_append]⟩
  refine ⟨o, x, s, rest, hat, hx, hrest, hprefix, Lexer.isSpace_of_first (s := rest) ?_⟩
  rw [← hrest, ← hat.kind]
  exact kind_head_ne_whitespace h ht

end Component

/-- The text of a part is its component less the blanks on its ends. It stands at the position of the
part exactly if the component begins with no blank, as numbers do, and as every component does if all
blanks of the style sheet are white space to it. -/
theorem part_text_as_written_iff {css : List Char} {d : Declaration} {p : Part}
    (hd : d ∈ (Stylesheet.ofText css).declarations) (hp : p ∈ d.parts) :
    ∃ (c : Component) (o : Nat), c.tokens <:+: tokens css ∧ p.position.Marks css o ∧
      c.text <+: css.drop o ∧ p.text = String.ofList (trim c.text) ∧
      (∃ x rest, c.text = x :: rest ∧ isSpace x = false ∧ (p.value.isSome → isBlank x = false) ∧
        (p.text ≠ "" ∧ p.text.toList <+: css.drop o ↔ isBlank x = false)) ∧
      ((∀ y ∈ css, isBlank y = true → isSpace y = true) →
        p.text ≠ "" ∧ p.text.toList <+: css.drop o) := by
  obtain ⟨name, value, after, hread⟩ := exists_readAs hd
  obtain ⟨c, hc, htrivia, rfl⟩ : ∃ c ∈ value, c.isTrivia = false ∧ p = Part.ofComponent c := by
    rw [hread.eq_ofValue] at hp
    exact Part.exists_component_of_mem hp
  have hinfix := (Component.tokens_infix_of_mem hc).trans hread.stands.isInfix
  obtain ⟨o, x, s, rest, hat, hx, hrest, hprefix, hspace⟩ :=
    Component.exists_first hinfix (hread.wellNested.complete_or_cutShort hc) htrivia
  have hmem : x ∈ css := List.mem_of_mem_drop (hrest ▸ List.mem_cons_self)
  have hiff : (Part.ofComponent c).text ≠ "" ∧ (Part.ofComponent c).text.toList <+: css.drop o ↔
      isBlank x = false := by
    rw [hx, hrest] at hprefix
    rw [← trim_isPrefix_iff hprefix, ← hx, ← hrest]
    simp [Part.ofComponent]
  refine ⟨c, o, hinfix, hat.marks, hprefix, rfl, ⟨x, s, hx, hspace, fun hv => ?_, hiff⟩, fun h => ?_⟩
  · obtain ⟨y, r, hy, hhead⟩ := Part.exists_cons_of_isSome hat hv
    rw [hrest] at hy
    rw [(List.cons.inj hy).1]
    exact Lexer.isBlank_of_isNumberHead hhead
  · rw [hiff, ← Bool.not_eq_true]
    intro hblank
    exact Bool.false_ne_true (hspace.symm.trans (h x hmem hblank))

/-- A part that begins with a vertical tab, and one behind it that is a number. -/
theorem part_text_as_written_iff_tab :
    let css := "a\x7bx:\x0b\n9px\x7d".toList
    ∃ d ∈ (Stylesheet.ofText css).declarations, d.parts.map Part.text = ["", "9px"] ∧
      ∀ p ∈ d.parts, ∃ (c : Component) (o : Nat), c.tokens <:+: tokens css ∧
        p.position.Marks css o ∧ c.text <+: css.drop o ∧ p.text = String.ofList (trim c.text) ∧
        (∃ x rest, c.text = x :: rest ∧ isSpace x = false ∧ (p.value.isSome → isBlank x = false) ∧
          (p.text ≠ "" ∧ p.text.toList <+: css.drop o ↔ isBlank x = false)) := by
  intro css
  have htexts : ∃ d ∈ (Stylesheet.ofText css).declarations,
      d.parts.map Part.text = ["", "9px"] := by decide +kernel
  obtain ⟨d, hd, htext⟩ := htexts
  refine ⟨d, hd, htext, fun p hp => ?_⟩
  obtain ⟨c, o, hinfix, hmarks, hprefix, htrim, hfirst, -⟩ := part_text_as_written_iff hd hp
  exact ⟨c, o, hinfix, hmarks, hprefix, htrim, hfirst⟩

/-- An identifier that begins with a no-break space: its text does not stand where it does. -/
theorem part_text_displaced :
    let css := "a\x7bx:\u00a0b\x7d".toList
    (Stylesheet.ofText css).declarations = [⟨"x", "b", [⟨none, "b", ⟨1, 5⟩⟩], false, ⟨1, 3⟩⟩] ∧
    Position.Marks ⟨1, 5⟩ css 4 ∧
    ∀ o, Position.Marks ⟨1, 5⟩ css o → ¬ ("b" ≠ "" ∧ "b".toList <+: css.drop o) := by
  intro css
  have hcol : ∀ o ≤ css.length, 5 = width (lastLine (css.take o)) + 1 →
      ¬ ("b" ≠ "" ∧ "b".toList <+: css.drop o) := by decide +kernel
  exact ⟨by decide +kernel, ⟨by decide, by decide, by decide, by decide⟩,
    fun o ho => hcol o ho.le ho.col⟩

end FontSizeLint.Css

import FontSizeLint.Proofs.Css.Provenance
import Mathlib.Tactic.SplitIfs

/-! The order in which a style sheet is read. Tokens stand one behind the other, and declarations and
the parts of their values are met in the order of the tokens that they begin with, so their positions
increase strictly, however deep the rules are nested. -/
namespace FontSizeLint.Text.Position

/-- On an earlier line, or earlier on the same line. -/
def Before (p q : Position) : Prop := p.line < q.line ∨ p.line = q.line ∧ p.col < q.col

lemma Before.trans {p q r : Position} (h : p.Before q) (h' : q.Before r) : p.Before r := by
  unfold Before at *
  omega

lemma Before.ne {p q : Position} (h : p.Before q) : p ≠ q := by
  rintro rfl
  unfold Before at h
  omega

lemma before_advance (p : Position) {s : List Char} (hs : s ≠ []) : p.Before (p.advance s) := by
  have hw := (List.length_pos_iff.mpr hs).trans_le (length_le_width s)
  rw [Before, line_advance, col_advance]
  split_ifs with hb <;> omega

end FontSizeLint.Text.Position

namespace FontSizeLint.Css
open Text

namespace Lexer

lemma eq_or_before_of_mem_place {p : Position} {ps : List (Kind × List Char)}
    (h : ∀ q ∈ ps, q.2 ≠ []) : ∀ t ∈ place p ps, p = t.position ∨ p.Before t.position := by
  induction ps generalizing p with
  | nil => simp [place]
  | cons q ps ih =>
    rw [List.forall_mem_cons] at h
    intro t ht
    rcases List.mem_cons.mp ht with rfl | ht
    · exact .inl rfl
    · have hp := p.before_advance h.1
      rcases ih h.2 t ht with he | hb
      · exact .inr (he ▸ hp)
      · exact .inr (hp.trans hb)

lemma pairwise_place {p : Position} {ps : List (Kind × List Char)} (h : ∀ q ∈ ps, q.2 ≠ []) :
    (place p ps).Pairwise fun t u => t.position.Before u.position := by
  induction ps generalizing p with
  | nil => exact List.Pairwise.nil
  | cons q ps ih =>
    rw [List.forall_mem_cons] at h
    rw [place, List.pairwise_cons]
    refine ⟨fun u hu => ?_, ih h.2⟩
    have hp := p.before_advance h.1
    rcases eq_or_before_of_mem_place h.2 u hu with he | hb
    · exact he ▸ hp
    · exact hp.trans hb

end Lexer

/-- The tokens of a text stand one behind the other. -/
theorem pairwise_tokens (s : List Char) :
    ((tokens s).map Token.position).Pairwise Position.Before := by
  rw [List.pairwise_map]
  exact Lexer.pairwise_place (pieces_ne_nil _ _ _)

def Token.positions (ts : List Token) : List Position := ts.map Token.position

lemma Token.positions_append (ts us : List Token) :
    positions (ts ++ us) = positions ts ++ positions us := List.map_append

namespace Component

lemma positions_sublist (cs : List Component) :
    (cs.map position).Sublist (Token.positions (tokensOf cs)) := by
  induction cs with
  | nil => exact List.Sublist.refl []
  | cons c cs ih =>
    obtain ⟨ts, ht⟩ := c.tokens_eq_head_cons
    rw [tokensOf, ht, List.map_cons, List.cons_append, Token.positions, List.map_cons]
    apply List.Sublist.cons_cons
    rw [← Token.positions, Token.positions_append]
    exact ih.trans (List.sublist_append_right _ _)

end Component

lemma Part.positions_sublist (value : List Component) :
    ((Part.ofValue value).1.map Part.position).Sublist
      (Token.positions (Component.tokensOf value)) := by
  have hs : ((dropMarks (value.filter fun c => !c.isTrivia)).1.filter
      fun c => !isSeparator c).Sublist value :=
    (List.filter_sublist.trans (dropMarks_sublist _)).trans List.filter_sublist
  have hp : ((Part.ofValue value).1.map Part.position) =
      ((dropMarks (value.filter fun c => !c.isTrivia)).1.filter
        fun c => !isSeparator c).map Component.position := by
    rw [ofValue, List.map_map]
    rfl
  rw [hp]
  exact (hs.map _).trans (Component.positions_sublist value)

namespace Declaration

/-- Where a declaration stands, and where its parts do. -/
def positions (d : Declaration) : List Position := d.position :: d.parts.map Part.position

lemma positions_sublist_of_ofStatement? {cs : List Component} {d : Declaration}
    (h : ofStatement? cs = some d) :
    d.positions.Sublist (Token.positions (Component.tokensOf cs)) := by
  obtain ⟨name, gap, colon, value, rfl, -, -, rfl⟩ := eq_of_ofStatement? cs d h
  have ht : Component.tokensOf (.leaf name :: (gap ++ .leaf colon :: value)) =
      name :: ((Component.tokensOf gap ++ [colon]) ++ Component.tokensOf value) := by
    simp [Component.tokensOf, Component.tokens]
  rw [ht, Token.positions, List.map_cons]
  apply List.Sublist.cons_cons
  rw [← Token.positions, Token.positions_append]
  exact (Part.positions_sublist value).trans (List.sublist_append_right _ _)

end Declaration

lemma statements_sublist (begun cs : List Component) :
    ((statements begun cs).flatMap Component.tokensOf).Sublist
      (Component.tokensOf (begun ++ cs)) := by
  have hskip : ∀ (c : Component) (cs : List Component),
      (Component.tokensOf cs).Sublist (Component.tokensOf (c :: cs)) :=
    fun c cs => List.sublist_append_right _ _
  fun_induction statements begun cs with
  | case1 begun => simp
  | case2 begun c cs hc ih =>
    rw [List.flatMap_cons, Component.tokensOf_append]
    exact (List.Sublist.refl _).append (ih.trans (hskip c cs))
  | case3 begun c cs hc ha ih =>
    rw [List.flatMap_cons, List.append_cons begun c cs, Component.tokensOf_append _ cs]
    exact (List.Sublist.refl _).append ih
  | case4 begun c cs hc ha hb ih =>
    rw [Component.tokensOf_append]
    exact (ih.trans (hskip c cs)).trans (List.sublist_append_right _ _)
  | case5 begun c cs hc ha hb ih =>
    rw [List.append_cons begun c cs]
    exact ih

lemma positions_filterMap_sublist (sts : List (List Component)) :
    ((sts.filterMap Declaration.ofStatement?).flatMap Declaration.positions).Sublist
      (Token.positions (sts.flatMap Component.tokensOf)) := by
  induction sts with
  | nil => exact List.Sublist.refl []
  | cons st sts ih =>
    rw [List.flatMap_cons, Token.positions_append, List.filterMap_cons]
    split
    next => exact ih.trans (List.sublist_append_right _ _)
    next d hd =>
      rw [List.flatMap_cons]
      exact (Declaration.positions_sublist_of_ofStatement? hd).append ih

lemma positions_declarations_sublist (body : List Component) :
    ((declarations body).flatMap Declaration.positions).Sublist
      (Token.positions (Component.tokensOf body)) :=
  (positions_filterMap_sublist (statements [] body)).trans ((statements_sublist [] body).map _)

/-- Where the declarations of rules and their parts stand. -/
def StyleRule.positions (rs : List StyleRule) : List Position :=
  (rs.flatMap StyleRule.declarations).flatMap Declaration.positions

lemma StyleRule.positions_append (rs us : List StyleRule) :
    positions (rs ++ us) = positions rs ++ positions us := by
  simp [positions]

lemma StyleRule.positions_cons (r : StyleRule) (rs : List StyleRule) :
    positions (r :: rs) = r.declarations.flatMap Declaration.positions ++ positions rs := by
  simp [positions]

mutual
lemma positions_innerRules_sublist : (c : Component) →
    (StyleRule.positions c.innerRules).Sublist (Token.positions c.tokens)
  | .leaf t => List.nil_sublist _
  | .block o body c => by
    rw [Component.innerRules, Component.tokens]
    have hb := positions_rulesFrom_sublist .fresh body
    apply hb.trans
    apply List.Sublist.map
    exact (List.sublist_append_left _ _).trans (List.sublist_cons_self _ _)
/-- The rules in a list of components, at any depth, are met in the order of its tokens. -/
theorem positions_rulesFrom_sublist (p : Pending) : (cs : List Component) →
    (StyleRule.positions (rulesFrom p cs)).Sublist (Token.positions (Component.tokensOf cs))
  | [] => List.nil_sublist _
  | c :: cs => by
    rw [Component.tokensOf, Token.positions_append, rulesFrom]
    have hcs : ∀ q, (StyleRule.positions (rulesFrom q cs)).Sublist
        (Token.positions (Component.tokensOf cs)) := fun q => positions_rulesFrom_sublist q cs
    have hskip : ∀ q, (StyleRule.positions (rulesFrom q cs)).Sublist
        (Token.positions c.tokens ++ Token.positions (Component.tokensOf cs)) :=
      fun q => (hcs q).trans (List.sublist_append_right _ _)
    split
    next q _ => exact hskip q
    next prelude _ =>
      rw [StyleRule.positions_cons]
      apply List.Sublist.append _ (hcs .nothing)
      exact (positions_declarations_sublist _).trans ((braced_isInfix c).sublist.map _)
    next =>
      rw [StyleRule.positions_append]
      exact (positions_innerRules_sublist c).append (hcs .nothing)
    next => exact hskip .nothing
end

/-- Where the declarations of a style sheet and their parts stand, in the order of reading. -/
def Stylesheet.positions (s : Stylesheet) : List Position :=
  s.declarations.flatMap Declaration.positions

/-- Whatever is met later in a style sheet stands later in its text. -/
theorem pairwise_positions (css : List Char) :
    (Stylesheet.ofText css).positions.Pairwise Position.Before := by
  have h := positions_rulesFrom_sublist .fresh (components (tokens css))
  rw [tokensOf_components] at h
  exact List.Pairwise.sublist h (pairwise_tokens css)

end FontSizeLint.Css

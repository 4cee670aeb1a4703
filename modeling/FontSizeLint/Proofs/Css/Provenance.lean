import FontSizeLint.Css.Stylesheet
import FontSizeLint.Proofs.Css.Boundary

/-! What declarations are read from. Components hold their tokens in order and lose none, and every
declaration of a style sheet is a run of its tokens: a name, a colon, and the value. -/
namespace FontSizeLint.Css
open Text

namespace Component

mutual
def tokens : Component → List Token
  | leaf t => [t]
  | block o body c => o :: (tokensOf body ++ c.toList)
/-- The tokens of a list of components in order. -/
def tokensOf : List Component → List Token
  | [] => []
  | c :: cs => c.tokens ++ tokensOf cs
end

@[simp] lemma tokensOf_append (cs ds : List Component) :
    tokensOf (cs ++ ds) = tokensOf cs ++ tokensOf ds := by
  induction cs with
  | nil => rfl
  | cons c cs ih => simp [tokensOf, ih]

lemma tokens_eq_head_cons (c : Component) : ∃ ts, c.tokens = c.head :: ts := by
  cases c with
  | leaf t => exact ⟨[], by simp [tokens, head]⟩
  | block o body c => exact ⟨tokensOf body ++ c.toList, by rw [tokens, head]⟩

mutual
/-- A component as written is its tokens as written. -/
theorem text_eq_textOf_tokens : (c : Component) → c.text = Token.textOf c.tokens
  | leaf t => by simp [text, tokens]
  | block o body c => by
    have hb := textOf_eq_textOf_tokensOf body
    cases c <;> simp [text, tokens, hb]
theorem textOf_eq_textOf_tokensOf : (cs : List Component) → textOf cs = Token.textOf (tokensOf cs)
  | [] => rfl
  | c :: cs => by
    have hc := text_eq_textOf_tokens c
    have hcs := textOf_eq_textOf_tokensOf cs
    simp [textOf, tokensOf, hc, hcs]
end

lemma tokens_infix_of_mem {c : Component} {cs : List Component} (h : c ∈ cs) :
    c.tokens <:+: tokensOf cs := by
  obtain ⟨as, bs, rfl⟩ := List.append_of_mem h
  exact ⟨tokensOf as, tokensOf bs, by simp [tokensOf]⟩

end Component

namespace Nest

/-- The tokens before the innermost open block, with its opening bracket. -/
def outerTokens : List (Token × List Component) → List Token
  | [] => []
  | (opener, before) :: outer =>
    outerTokens outer ++ Component.tokensOf before.reverse ++ [opener]

def tokens (n : Nest) : List Token := outerTokens n.outer ++ Component.tokensOf n.current.reverse

lemma tokens_append (t : Token) (n : Nest) : (n.append (.leaf t)).tokens = n.tokens ++ [t] := by
  simp [append, tokens, Component.tokensOf, Component.tokens]

lemma tokens_close (t : Token) (n : Nest) (b : Bracket) (h : n.awaits b = true) :
    (n.close (some t)).tokens = n.tokens ++ [t] := by
  obtain ⟨current, outer⟩ := n
  cases outer with
  | nil => simp [awaits] at h
  | cons frame outer => simp [close, tokens, outerTokens, Component.tokensOf, Component.tokens]

lemma tokens_push (n : Nest) (t : Token) : (n.push t).tokens = n.tokens ++ [t] := by
  unfold push
  split
  · simp [tokens, outerTokens, Component.tokensOf]
  · split
    · split
      · exact tokens_close t n _ ‹_›
      · exact tokens_append t n
    · exact tokens_append t n

lemma tokens_foldl_push (ts : List Token) (n : Nest) :
    (ts.foldl push n).tokens = n.tokens ++ ts := by
  induction ts generalizing n with
  | nil => simp
  | cons t ts ih => rw [List.foldl_cons, ih, tokens_push, List.append_assoc]; rfl

lemma tokensOf_closeAll (outer : List (Token × List Component)) (inner : List Component) :
    Component.tokensOf (closeAll inner outer).reverse =
      outerTokens outer ++ Component.tokensOf inner.reverse := by
  induction outer generalizing inner with
  | nil => simp [closeAll, outerTokens]
  | cons frame outer ih =>
    simp [closeAll, outerTokens, ih, Component.tokensOf, Component.tokens]

end Nest

/-- Components hold the tokens they are made of, all of them and in order. -/
theorem tokensOf_components (ts : List Token) : Component.tokensOf (components ts) = ts := by
  have h := Nest.tokens_foldl_push ts .empty
  rw [components, Nest.finish, Nest.tokensOf_closeAll]
  simpa [Nest.tokens, Nest.empty, Nest.outerTokens, Component.tokensOf] using h

/-- The components as written are the tokens as written. -/
theorem textOf_components (ts : List Token) : Component.textOf (components ts) = Token.textOf ts := by
  rw [Component.textOf_eq_textOf_tokensOf, tokensOf_components]

/-- A declaration as a run of tokens: its name, trivia, a colon, and the value up to its end. -/
def Declaration.ReadFrom (ts : List Token) (d : Declaration) : Prop :=
  ∃ name gap colon value, name.kind = .ident ∧ colon.kind = .colon ∧ d = .ofValue name value ∧
    name :: (Component.tokensOf gap ++ colon :: Component.tokensOf value) <:+: ts

lemma Declaration.ReadFrom.mono {ts us : List Token} {d : Declaration} (h : d.ReadFrom ts)
    (hts : ts <:+: us) : d.ReadFrom us := by
  obtain ⟨name, gap, colon, value, hn, hc, hd, hi⟩ := h
  exact ⟨name, gap, colon, value, hn, hc, hd, hi.trans hts⟩

lemma Declaration.eq_of_ofStatement? (cs : List Component) : ∀ d, ofStatement? cs = some d →
    ∃ name gap colon value, cs = .leaf name :: (gap ++ .leaf colon :: value) ∧
      name.kind = .ident ∧ colon.kind = .colon ∧ d = ofValue name value := by
  fun_cases ofStatement? cs with
  | case1 name rest hk colon value hr hc =>
    rintro d ⟨⟩
    refine ⟨name, rest.takeWhile Component.isTrivia, colon, value, ?_, by simpa using hk,
      by simpa using hc, rfl⟩
    rw [← hr, List.takeWhile_append_dropWhile]
  | _ => simp

lemma Declaration.readFrom_of_ofStatement? {cs : List Component} {d : Declaration}
    (h : ofStatement? cs = some d) : d.ReadFrom (Component.tokensOf cs) := by
  obtain ⟨name, gap, colon, value, rfl, hn, hc, hd⟩ := eq_of_ofStatement? cs d h
  refine ⟨name, gap, colon, value, hn, hc, hd, ?_⟩
  simp [Component.tokensOf, Component.tokens]

lemma statement_isInfix (begun cs : List Component) :
    ∀ st ∈ statements begun cs, Component.tokensOf st <:+: Component.tokensOf (begun ++ cs) := by
  have hpre : ∀ as bs : List Component,
      Component.tokensOf as <:+: Component.tokensOf (as ++ bs) := by
    intro as bs
    rw [Component.tokensOf_append]
    exact (List.prefix_append _ _).isInfix
  have hsuf : ∀ as bs : List Component,
      Component.tokensOf bs <:+: Component.tokensOf (as ++ bs) := by
    intro as bs
    rw [Component.tokensOf_append]
    exact (List.suffix_append _ _).isInfix
  fun_induction statements begun cs with
  | case1 begun => simp
  | case2 begun c cs hc ih =>
    intro st hst
    rw [List.append_cons]
    rcases List.mem_cons.mp hst with rfl | hst
    · rw [List.append_assoc]
      exact hpre st _
    · exact (ih st hst).trans (hsuf _ cs)
  | case3 begun c cs hc ha ih =>
    intro st hst
    rw [List.append_cons]
    rcases List.mem_cons.mp hst with rfl | hst
    · exact hpre _ cs
    · exact (ih st hst).trans (hsuf _ cs)
  | case4 begun c cs hc ha hb ih =>
    intro st hst
    rw [List.append_cons]
    exact (ih st hst).trans (hsuf _ cs)
  | case5 begun c cs hc ha hb ih =>
    intro st hst
    rw [List.append_cons]
    exact ih st hst

lemma readFrom_of_mem_declarations {body : List Component} {d : Declaration}
    (h : d ∈ declarations body) : d.ReadFrom (Component.tokensOf body) := by
  obtain ⟨st, hst, hd⟩ := List.mem_filterMap.mp h
  exact (Declaration.readFrom_of_ofStatement? hd).mono (statement_isInfix [] body st hst)

lemma braced_isInfix (c : Component) :
    Component.tokensOf (c.braced?.getD []) <:+: c.tokens := by
  fun_cases Component.braced? c with
  | case1 o body closer h => exact ⟨[o], closer.toList, by simp [Component.tokens]⟩
  | case2 o body closer h => exact List.nil_infix
  | case3 t => exact List.nil_infix

mutual
lemma readFrom_of_mem_innerRules : (c : Component) → ∀ r ∈ c.innerRules, ∀ d ∈ r.declarations,
    d.ReadFrom c.tokens
  | .leaf t => by simp [Component.innerRules]
  | .block o body c => by
    intro r hr d hd
    rw [Component.innerRules] at hr
    apply (readFrom_of_mem_rulesFrom .fresh body r hr d hd).mono
    exact ⟨[o], c.toList, by simp [Component.tokens]⟩
/-- The declarations of rules, at any depth, are runs of the tokens the rules are read from. -/
theorem readFrom_of_mem_rulesFrom (p : Pending) : (cs : List Component) →
    ∀ r ∈ rulesFrom p cs, ∀ d ∈ r.declarations, d.ReadFrom (Component.tokensOf cs)
  | [] => by simp [rulesFrom]
  | c :: cs => by
    intro r hr d hd
    have hc : c.tokens <:+: Component.tokensOf (c :: cs) := (List.prefix_append _ _).isInfix
    have hcs : Component.tokensOf cs <:+: Component.tokensOf (c :: cs) :=
      (List.suffix_append _ _).isInfix
    rw [rulesFrom] at hr
    split at hr
    next p' _ => exact (readFrom_of_mem_rulesFrom p' cs r hr d hd).mono hcs
    next prelude _ =>
      rcases List.mem_cons.mp hr with rfl | hr
      · exact (readFrom_of_mem_declarations hd).mono ((braced_isInfix c).trans hc)
      · exact (readFrom_of_mem_rulesFrom .nothing cs r hr d hd).mono hcs
    next =>
      rcases List.mem_append.mp hr with hr | hr
      · exact (readFrom_of_mem_innerRules c r hr d hd).mono hc
      · exact (readFrom_of_mem_rulesFrom .nothing cs r hr d hd).mono hcs
    next => exact (readFrom_of_mem_rulesFrom .nothing cs r hr d hd).mono hcs
end

/-- Every declaration of a style sheet is a run of the tokens of its text. -/
theorem readFrom_of_mem_stylesheet {css : List Char} {d : Declaration}
    (h : d ∈ (Stylesheet.ofText css).declarations) : d.ReadFrom (tokens css) := by
  obtain ⟨r, hr, hd⟩ := List.mem_flatMap.mp h
  have hd := readFrom_of_mem_rulesFrom .fresh _ r hr d hd
  rwa [tokensOf_components] at hd

namespace Part

lemma dropMarks_sublist (cs : List Component) : (dropMarks cs).1.Sublist cs := by
  fun_induction dropMarks cs with
  | case1 c d cs h ih => exact (ih.cons d).cons c
  | case2 c d cs h rest marked hr ih =>
    rw [hr] at ih
    exact ih.cons_cons c
  | case3 cs => exact List.Sublist.refl _

/-- The parts of a value are components of it, none of them trivia. -/
theorem exists_component_of_mem {value : List Component} {p : Part} (h : p ∈ (ofValue value).1) :
    ∃ c ∈ value, c.isTrivia = false ∧ p = ofComponent c := by
  obtain ⟨c, hc, rfl⟩ := List.mem_map.mp h
  have hd := (dropMarks_sublist _).subset (List.mem_of_mem_filter hc)
  obtain ⟨hmem, htrivia⟩ := List.mem_filter.mp hd
  exact ⟨c, hmem, by simpa using htrivia, rfl⟩

end Part

end FontSizeLint.Css

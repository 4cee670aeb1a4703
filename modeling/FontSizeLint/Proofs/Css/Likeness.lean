import FontSizeLint.Css.Stylesheet
import FontSizeLint.Proofs.Text.Spelling
import Mathlib.Data.List.Forall2

/-! Style sheets that are read alike. Tokens that differ only in how they are written and where they
stand make up the same components, and these the same declarations and rules but for that. -/
namespace FontSizeLint.Css
open Text Numeric List

/-- In what texts, headers of rules and positions may differ. What is read from a text is the same from
one that is like it. -/
structure Likeness where
  text : List Char → List Char → Prop
  header : List Char → List Char → Prop
  place : Position → Position → Prop
  nil : text [] []
  append : ∀ {s s' t t'}, text s s' → text t t' → text (s ++ t) (s' ++ t')
  trim : ∀ {s s'}, text s s' → text (trim s) (trim s')
  splitMark : ∀ {s s'}, text s s' → text (splitMark s).1 (splitMark s').1
  isMarked : ∀ {s s'}, text s s' → (Css.splitMark s').2 = (Css.splitMark s).2
  leading? : ∀ {s s'}, text s s' → Numeral.leading? single s' = Numeral.leading? single s
  header_of_text : ∀ {s s'}, text s s' → header s s'
  /-- The name of an at-rule stands in its header in lower case, however it is written. -/
  header_atRule : ∀ {name s s'}, lower name = name → text s s' →
    header (atHeader name s) (atHeader name s')

variable {L : Likeness}

/-- Tokens of one kind and one meaning. -/
structure Token.Alike (L : Likeness) (t t' : Token) : Prop where
  kind : t'.kind = t.kind
  key : t'.key = t.key
  bang : t'.isDelim '!' = t.isDelim '!'
  slash : t'.isDelim '/' = t.isDelim '/'
  text : L.text t.text t'.text
  position : L.place t.position t'.position

/-- Components of one shape. -/
inductive Component.Alike (L : Likeness) : Component → Component → Prop
  | leaf {t t' : Token} : t.Alike L t' → Alike L (.leaf t) (.leaf t')
  | block {o o' : Token} {body body' : List Component} {c c' : Option Token} : o.Alike L o' →
    Forall₂ (Alike L) body body' → Option.Rel (Token.Alike L) c c' →
    Alike L (.block o body c) (.block o' body' c')

namespace Component
variable {c c' : Component} {cs cs' : List Component}

lemma Alike.head (h : c.Alike L c') : c.head.Alike L c'.head := by
  cases h with
  | leaf h => exact h
  | block ho _ _ => exact ho

lemma Alike.isLeaf (h : c.Alike L c') (k : Kind) : c'.isLeaf k = c.isLeaf k := by
  cases h with
  | leaf h => rw [Component.isLeaf, Component.isLeaf, h.kind]
  | block _ _ _ => rfl

lemma Alike.isTrivia (h : c.Alike L c') : c'.isTrivia = c.isTrivia := by
  cases h with
  | leaf h => rw [Component.isTrivia, Component.isTrivia, h.kind]
  | block _ _ _ => rfl

lemma Alike.braced? (h : c.Alike L c') : Option.Rel (Forall₂ (Alike L)) c.braced? c'.braced? := by
  cases h with
  | leaf _ => exact .none
  | block ho hb _ =>
    rw [Component.braced?, Component.braced?, ho.kind]
    split_ifs
    · exact .some hb
    · exact .none

lemma Alike.isSome_braced? (h : c.Alike L c') : c'.braced?.isSome = c.braced?.isSome := by
  have hb := h.braced?
  generalize c.braced? = b, c'.braced? = b' at hb
  cases hb <;> rfl

lemma Alike.getD_braced? (h : c.Alike L c') :
    Forall₂ (Alike L) (c.braced?.getD []) (c'.braced?.getD []) := by
  have hb := h.braced?
  generalize c.braced? = b, c'.braced? = b' at hb
  cases hb with
  | none => exact .nil
  | some hb => exact hb

mutual
/-- Components that are alike are as like as written. -/
theorem text_alike : (c : Component) → ∀ {c'}, c.Alike L c' → L.text c.text c'.text
  | .leaf t, c', h => by
    cases h with
    | leaf h => exact h.text
  | .block o body closer, c', h => by
    cases h with
    | block ho hb hc =>
      have hbody := textOf_alike body hb
      apply L.append (L.append ho.text hbody)
      cases hc with
      | none => exact L.nil
      | some hc => exact hc.text
theorem textOf_alike : (cs : List Component) → ∀ {cs'}, Forall₂ (Alike L) cs cs' →
    L.text (textOf cs) (textOf cs')
  | [], cs', h => by
    cases h
    exact L.nil
  | c :: cs, cs', h => by
    cases h with
    | cons hc hcs =>
      have hhead := text_alike c hc
      exact L.append hhead (textOf_alike cs hcs)
end

lemma dropWhile_alike (h : Forall₂ (Alike L) cs cs') :
    Forall₂ (Alike L) (cs.dropWhile Component.isTrivia) (cs'.dropWhile Component.isTrivia) := by
  induction h with
  | nil => exact .nil
  | cons hc hcs ih =>
    rw [List.dropWhile_cons, List.dropWhile_cons, hc.isTrivia]
    split_ifs
    · exact ih
    · exact .cons hc hcs

end Component

/-- Components under construction that are alike. -/
structure Nest.Alike (L : Likeness) (n n' : Nest) : Prop where
  current : Forall₂ (Component.Alike L) n.current n'.current
  outer : Forall₂ (fun f f' => f.1.Alike L f'.1 ∧ Forall₂ (Component.Alike L) f.2 f'.2)
    n.outer n'.outer

namespace Nest
variable {n n' : Nest}

lemma Alike.append (h : n.Alike L n') {c c' : Component} (hc : c.Alike L c') :
    (n.append c).Alike L (n'.append c') := ⟨.cons hc h.current, h.outer⟩

lemma Alike.awaits (h : n.Alike L n') (b : Bracket) : n'.awaits b = n.awaits b := by
  obtain ⟨current, outer⟩ := n
  obtain ⟨current', outer'⟩ := n'
  cases h.outer with
  | nil => rfl
  | cons hf _ => exact congrArg (fun k : Kind => k.opens? == some b) hf.1.kind

lemma Alike.close (h : n.Alike L n') {t t' : Option Token} (ht : Option.Rel (Token.Alike L) t t') :
    (n.close t).Alike L (n'.close t') := by
  obtain ⟨current, outer⟩ := n
  obtain ⟨current', outer'⟩ := n'
  cases h.outer with
  | nil => exact h
  | cons hf hout => exact ⟨.cons (.block hf.1 (rel_reverse h.current) ht) hf.2, hout⟩

lemma Alike.push (h : n.Alike L n') {t t' : Token} (ht : t.Alike L t') :
    (n.push t).Alike L (n'.push t') := by
  unfold Nest.push
  rw [ht.kind]
  split
  · exact ⟨.nil, .cons ⟨ht, h.current⟩ h.outer⟩
  · split
    · rw [h.awaits]
      split_ifs
      · exact h.close (.some ht)
      · exact h.append (.leaf ht)
    · exact h.append (.leaf ht)

lemma closeAll_alike {outer outer' : List (Token × List Component)} {inner inner' : List Component}
    (ho : Forall₂ (fun f f' => f.1.Alike L f'.1 ∧ Forall₂ (Component.Alike L) f.2 f'.2) outer outer')
    (hi : Forall₂ (Component.Alike L) inner inner') :
    Forall₂ (Component.Alike L) (closeAll inner outer) (closeAll inner' outer') := by
  induction ho generalizing inner inner' with
  | nil => exact hi
  | cons hf _ ih => exact ih (.cons (.block hf.1 (rel_reverse hi) .none) hf.2)

end Nest

/-- Tokens that are alike make up components that are alike. -/
theorem components_alike {ts ts' : List Token} (h : Forall₂ (Token.Alike L) ts ts') :
    Forall₂ (Component.Alike L) (components ts) (components ts') := by
  have hn : (ts.foldl Nest.push .empty).Alike L (ts'.foldl Nest.push .empty) :=
    rel_foldl (fun _ _ hn _ _ ht => hn.push ht) ⟨.nil, .nil⟩ h
  exact rel_reverse (Nest.closeAll_alike hn.outer hn.current)

/-- Parts with one value. -/
structure Part.Alike (L : Likeness) (p p' : Part) : Prop where
  value : p'.value = p.value
  text : L.text p.text.toList p'.text.toList
  position : L.place p.position p'.position

namespace Part
variable {c c' : Component} {cs cs' : List Component}

lemma ofComponent_alike (h : c.Alike L c') : (ofComponent c).Alike L (ofComponent c') := by
  have ht := L.trim (Component.text_alike c h)
  refine ⟨?_, ?_, h.head.position⟩
  · simp only [ofComponent, h.head.kind, L.leading? ht]
  · simpa [ofComponent] using ht

/-- Components in one role among the parts of a value. -/
structure Akin (c c' : Component) : Prop where
  isTrivia : c'.isTrivia = c.isTrivia
  isSeparator : isSeparator c' = isSeparator c
  isBang : isBang c' = isBang c
  isImportantWord : isImportantWord c' = isImportantWord c

lemma akin_of_alike (h : c.Alike L c') : Akin c c' := by
  refine ⟨h.isTrivia, ?_, ?_, ?_⟩ <;> cases h with
  | leaf h => simp only [isSeparator, isBang, isImportantWord, h.kind, h.slash, h.bang, h.key]
  | block _ _ _ => rfl

section Rel
variable {R : Component → Component → Prop}

lemma dropMarks_rel (hR : ∀ c c', R c c' → Akin c c') (h : Forall₂ R cs cs') :
    Forall₂ R (dropMarks cs).1 (dropMarks cs').1 ∧ (dropMarks cs').2 = (dropMarks cs).2 := by
  fun_induction dropMarks cs generalizing cs' with
  | case1 c d cs hmark ih =>
    cases h with
    | cons hc h =>
      cases h with
      | cons hd hcs =>
        rw [← (hR _ _ hc).isBang, ← (hR _ _ hd).isImportantWord] at hmark
        rw [dropMarks, if_pos hmark]
        exact ⟨(ih hcs).1, rfl⟩
  | case2 c d cs hmark rest marked hr ih =>
    cases h with
    | cons hc h =>
      have ih := ih h
      rw [hr] at ih
      cases h with
      | cons hd hcs =>
        rw [← (hR _ _ hc).isBang, ← (hR _ _ hd).isImportantWord] at hmark
        rw [dropMarks, if_neg hmark]
        exact ⟨.cons hc ih.1, ih.2⟩
  | case3 cs hshort =>
    match cs, h with
    | [], .nil => exact ⟨.nil, rfl⟩
    | [c], .cons hc .nil => exact ⟨.cons hc .nil, rfl⟩
    | c :: d :: cs, _ => exact absurd rfl (hshort c d cs)

lemma ofValue_rel {S : Part → Part → Prop} (hR : ∀ c c', R c c' → Akin c c')
    (hS : ∀ c c', R c c' → S (ofComponent c) (ofComponent c')) (h : Forall₂ R cs cs') :
    Forall₂ S (ofValue cs).1 (ofValue cs').1 ∧ (ofValue cs').2 = (ofValue cs).2 := by
  have ht : Forall₂ R (cs.filter fun c => !c.isTrivia) (cs'.filter fun c => !c.isTrivia) := by
    apply rel_filter _ h
    intro c c' hc
    simp [(hR c c' hc).isTrivia]
  obtain ⟨hd, hm⟩ := dropMarks_rel hR ht
  refine ⟨?_, hm⟩
  apply rel_map hS
  apply rel_filter _ hd
  intro c c' hc
  simp [(hR c c' hc).isSeparator]

end Rel

lemma ofValue_alike (h : Forall₂ (Component.Alike L) cs cs') :
    Forall₂ (Part.Alike L) (ofValue cs).1 (ofValue cs').1 ∧ (ofValue cs').2 = (ofValue cs).2 :=
  ofValue_rel (fun _ _ => akin_of_alike) (fun _ _ => ofComponent_alike) h

end Part

/-- Declarations of one property with one value. -/
structure Declaration.Alike (L : Likeness) (d d' : Declaration) : Prop where
  name : d'.name = d.name
  text : L.text d.text.toList d'.text.toList
  parts : Forall₂ (Part.Alike L) d.parts d'.parts
  important : d'.important = d.important
  position : L.place d.position d'.position

namespace Declaration
variable {cs cs' : List Component}

lemma ofValue_alike {t t' : Token} (ht : t.Alike L t') (h : Forall₂ (Component.Alike L) cs cs') :
    (ofValue t cs).Alike L (ofValue t' cs') := by
  obtain ⟨hp, hm⟩ := Part.ofValue_alike h
  have htext := Component.textOf_alike cs h
  refine ⟨?_, ?_, hp, ?_, ht.position⟩
  · simp only [ofValue, ht.key]
  · simpa [ofValue] using L.splitMark htext
  · simp only [ofValue, hm, L.isMarked htext]

lemma ofStatement?_alike (h : Forall₂ (Component.Alike L) cs cs') :
    Option.Rel (Declaration.Alike L) (ofStatement? cs) (ofStatement? cs') := by
  cases h with
  | nil => exact .none
  | cons hc hcs =>
    cases hc with
    | block _ _ _ => exact .none
    | leaf ht =>
      rw [ofStatement?, ofStatement?, ht.kind]
      split_ifs
      · have hrest := Component.dropWhile_alike hcs
        revert hrest
        generalize List.dropWhile Component.isTrivia _ = rest, List.dropWhile Component.isTrivia _ = rest'
        intro hrest
        cases hrest with
        | nil => exact .none
        | cons hd hv =>
          cases hd with
          | block _ _ _ => exact .none
          | leaf hcolon =>
            simp only [hcolon.kind]
            split_ifs
            · exact .some (ofValue_alike ht hv)
            · exact .none
      · exact .none

end Declaration

lemma isAtStatement_alike {cs cs' : List Component} (h : Forall₂ (Component.Alike L) cs cs') :
    isAtStatement cs' = isAtStatement cs := by
  cases h with
  | nil => rfl
  | cons hc _ => exact hc.isLeaf .atKeyword

lemma statements_alike {cs cs' begun begun' : List Component}
    (hb : Forall₂ (Component.Alike L) begun begun') (h : Forall₂ (Component.Alike L) cs cs') :
    Forall₂ (Forall₂ (Component.Alike L)) (statements begun cs) (statements begun' cs') := by
  induction h generalizing begun begun' with
  | nil => exact .cons hb .nil
  | cons hc hcs ih =>
    have hmore := rel_append hb (.cons hc .nil)
    have hempty : begun'.isEmpty = begun.isEmpty := by cases hb <;> rfl
    rw [statements, statements, hc.isLeaf, isAtStatement_alike hb, hc.isSome_braced?, hc.isTrivia, hempty]
    split_ifs
    · exact .cons hb (ih .nil)
    · exact .cons hmore (ih .nil)
    · exact ih .nil
    · exact ih hmore

lemma declarations_alike {cs cs' : List Component} (h : Forall₂ (Component.Alike L) cs cs') :
    Forall₂ (Declaration.Alike L) (declarations cs) (declarations cs') :=
  rel_filterMap (fun _ _ hst => Declaration.ofStatement?_alike hst) (statements_alike .nil h)

/-- Rules with headers and declarations that are alike. -/
structure StyleRule.Alike (L : Likeness) (r r' : StyleRule) : Prop where
  prelude : L.header r.prelude.toList r'.prelude.toList
  declarations : Forall₂ (Declaration.Alike L) r.declarations r'.declarations

inductive Pending.Alike (L : Likeness) : Pending → Pending → Prop
  | fresh : Alike L .fresh .fresh
  | nothing : Alike L .nothing .nothing
  | atRule {name : List Char} {cs cs' : List Component} : lower name = name →
    Forall₂ (Component.Alike L) cs cs' → Alike L (.atRule name cs) (.atRule name cs')
  | qualified {cs cs' : List Component} :
    Forall₂ (Component.Alike L) cs cs' → Alike L (.qualified cs) (.qualified cs')
  | ignored : Alike L .ignored .ignored

inductive Progress.Alike (L : Likeness) : Progress → Progress → Prop
  | reading {p p' : Pending} : p.Alike L p' → Alike L (.reading p) (.reading p')
  | rule {s s' : List Char} : L.header s s' → Alike L (.rule s) (.rule s')
  | group : Alike L .group .group
  | dropped : Alike L .dropped .dropped

lemma isBetweenRules_alike {c c' : Component} (h : c.Alike L c') :
    isBetweenRules c' = isBetweenRules c := by
  simp only [isBetweenRules, h.isTrivia, h.isLeaf]

lemma written_alike {cs cs' : List Component} (h : Forall₂ (Component.Alike L) cs cs') :
    L.text (written cs) (written cs') := L.trim (Component.textOf_alike cs h)

lemma Token.Alike.isCustom {t t' : Token} (h : t.Alike L t') :
    (t'.name.take 2 == ['-', '-']) = (t.name.take 2 == ['-', '-']) := by
  have hlower : ∀ s : List Char, ((lower s).take 2 == ['-', '-']) = (s.take 2 == ['-', '-']) := by
    have hd := fun c => blind_toLower (p := (· == '-')) (by decide) c
    intro s
    match s with
    | [] => rfl
    | [c] => exact congrArg (fun a => a && false) (hd c)
    | c :: d :: s => exact congrArg₂ (fun a b => a && (b && true)) (hd c) (hd d)
  rw [← hlower, ← hlower t.name]
  exact congrArg (fun s : List Char => s.take 2 == ['-', '-']) h.key

lemma isCustomProperty_alike {cs cs' : List Component} (h : Forall₂ (Component.Alike L) cs cs') :
    isCustomProperty cs' = isCustomProperty cs := by
  cases h with
  | nil => rfl
  | cons hc hcs =>
    cases hc with
    | block _ _ _ => rfl
    | leaf ht =>
      rw [isCustomProperty, isCustomProperty, ht.kind, ht.isCustom]
      have hrest := Component.dropWhile_alike hcs
      revert hrest
      generalize List.dropWhile Component.isTrivia _ = rest, List.dropWhile Component.isTrivia _ = rest'
      intro hrest
      cases hrest with
      | nil => rfl
      | cons hd _ => simp only [hd.isLeaf]

lemma lower_key (t : Token) : lower t.key = t.key := by
  rw [Token.key, lower, lower, List.map_map]
  exact List.map_congr_left fun c _ => toLower_toLower c

namespace Pending

lemma start_alike (first : Bool) {c c' : Component} (h : c.Alike L c') :
    (start first c).Alike L (start first c') := by
  cases h with
  | leaf ht =>
    rw [start, start, ht.kind, ht.key]
    split_ifs
    · exact .reading .ignored
    · exact .reading (.atRule (lower_key _) .nil)
    · exact .reading (.qualified (.cons (.leaf ht) .nil))
  | block ho hb hc =>
    have hblock : Component.Alike L (.block _ _ _) (.block _ _ _) := .block ho hb hc
    rw [start, start, hblock.isSome_braced?]
    · split_ifs
      · exact .rule (L.header_of_text L.nil)
      · exact .reading (.qualified (.cons hblock .nil))
    · simp
    · simp

lemma next_alike {p p' : Pending} (hp : p.Alike L p') {c c' : Component} (h : c.Alike L c') :
    (p.next c).Alike L (p'.next c') := by
  cases hp with
  | fresh =>
    rw [next, next, isBetweenRules_alike h]
    split_ifs
    · exact .reading .fresh
    · exact start_alike true h
  | nothing =>
    rw [next, next, isBetweenRules_alike h]
    split_ifs
    · exact .reading .nothing
    · exact start_alike false h
  | atRule hn hcs =>
    rw [next, next, h.isLeaf, h.isSome_braced?]
    split_ifs
    · exact .dropped
    · exact .group
    · exact .rule (L.header_atRule hn (written_alike hcs))
    · exact .reading (.atRule hn (rel_append hcs (.cons h .nil)))
  | qualified hcs =>
    rw [next, next, h.isSome_braced?, isCustomProperty_alike hcs]
    split_ifs
    · exact .dropped
    · exact .rule (L.header_of_text (written_alike hcs))
    · exact .reading (.qualified (rel_append hcs (.cons h .nil)))
  | ignored =>
    rw [next, next, h.isLeaf, h.isSome_braced?]
    split_ifs
    · exact .dropped
    · exact .reading .ignored

end Pending

mutual
theorem innerRules_alike : (c : Component) → ∀ {c'}, c.Alike L c' →
    Forall₂ (StyleRule.Alike L) c.innerRules c'.innerRules
  | .leaf t, c', h => by
    cases h with
    | leaf _ => exact .nil
  | .block o body closer, c', h => by
    cases h with
    | block _ hb _ => exact rulesFrom_alike body .fresh hb
/-- Components that are alike make up rules that are alike. -/
theorem rulesFrom_alike : (cs : List Component) → ∀ {cs' : List Component} {p p' : Pending},
    p.Alike L p' → Forall₂ (Component.Alike L) cs cs' →
    Forall₂ (StyleRule.Alike L) (rulesFrom p cs) (rulesFrom p' cs')
  | [], cs', p, p', hp, h => by
    cases h
    exact .nil
  | c :: cs, cs', p, p', hp, h => by
    cases h with
    | cons hc hcs =>
      have hinner := innerRules_alike c hc
      have hrest : ∀ {q q' : Pending}, q.Alike L q' → _ := fun hq => rulesFrom_alike cs hq hcs
      have hnext := Pending.next_alike hp hc
      rw [rulesFrom, rulesFrom]
      generalize p.next c = q, p'.next _ = q' at hnext
      cases hnext with
      | reading hq => exact hrest hq
      | rule hs =>
        exact .cons ⟨by simpa using hs, declarations_alike hc.getD_braced?⟩ (hrest .nothing)
      | group => exact rel_append hinner (hrest .nothing)
      | dropped => exact hrest .nothing
end

/-- Tokens that are alike make up rules that are alike. -/
theorem rules_alike {ts ts' : List Token} (h : Forall₂ (Token.Alike L) ts ts') :
    Forall₂ (StyleRule.Alike L) (rulesFrom .fresh (components ts))
      (rulesFrom .fresh (components ts')) :=
  rulesFrom_alike _ .fresh (components_alike h)

lemma map_eq_map_of_forall₂ {α β γ : Type} {R : α → β → Prop} {f : α → γ} {g : β → γ} {l : List α}
    {l' : List β} (h : Forall₂ R l l') (hfg : ∀ a b, R a b → f a = g b) : l.map f = l'.map g := by
  induction h with
  | nil => rfl
  | cons hab _ ih => rw [List.map_cons, List.map_cons, hfg _ _ hab, ih]

lemma map_eq_of_forall₂ {α β : Type} {R : α → β → Prop} {f : α → β} {l : List α} {l' : List β}
    (h : Forall₂ R l l') (hf : ∀ a b, R a b → f a = b) : l.map f = l' := by
  rw [map_eq_map_of_forall₂ (g := id) h hf, List.map_id]

end FontSizeLint.Css

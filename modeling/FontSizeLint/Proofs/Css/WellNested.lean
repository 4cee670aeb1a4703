import FontSizeLint.Proofs.Css.Provenance

/-! Blocks as tokens make them up. A block ends with the partner of its opening bracket, or the text
ends it, and then all around it are ended too; no bracket between ends it before. Components like that
are made up again of their own tokens, so that a part of a style sheet can be read alone. -/
namespace FontSizeLint.Css
open Text

namespace Component

/-- No block in the component is ended by the text. -/
inductive Complete : Component → Prop
  | leaf {t : Token} : t.kind.opens? = none → Complete (.leaf t)
  | block {o c : Token} {b : Bracket} {body : List Component} : o.kind.opens? = some b →
    c.kind = .closing b → (∀ d ∈ body, Complete d) → (∀ d ∈ body, d.isLeaf (.closing b) = false) →
    Complete (.block o body (some c))

/-- A block that the text ends, and with it no more than the last one in it, and so on. -/
inductive CutShort : Component → Prop
  | last {o : Token} {b : Bracket} {body : List Component} : o.kind.opens? = some b →
    (∀ d ∈ body, Complete d) → (∀ d ∈ body, d.isLeaf (.closing b) = false) →
    CutShort (.block o body none)
  | inner {o : Token} {b : Bracket} {body : List Component} {c : Component} :
    o.kind.opens? = some b → (∀ d ∈ body, Complete d) →
    (∀ d ∈ body, d.isLeaf (.closing b) = false) → CutShort c →
    CutShort (.block o (body ++ [c]) none)

lemma CutShort.isLeaf {c : Component} (h : c.CutShort) (k : Kind) : c.isLeaf k = false := by
  cases h <;> rfl

end Component

/-- Components none of which but the last is cut short by the end of the text. -/
inductive WellNested : List Component → Prop
  | complete {cs : List Component} : (∀ c ∈ cs, c.Complete) → WellNested cs
  | cut {cs : List Component} {d : Component} : (∀ c ∈ cs, c.Complete) → d.CutShort →
    WellNested (cs ++ [d])

namespace Nest

/-- The components under construction are complete, and none is a bracket that ends the block they
stand in. -/
def Complete (current : List Component) : List (Token × List Component) → Prop
  | [] => ∀ c ∈ current, c.Complete
  | (o, before) :: outer =>
    (∃ b, o.kind.opens? = some b ∧ ∀ c ∈ current, c.Complete ∧ c.isLeaf (.closing b) = false) ∧
      Complete before outer

lemma Complete.append {current : List Component} {outer : List (Token × List Component)}
    (h : Complete current outer) {c : Component} (hc : c.Complete)
    (hb : ∀ b, Nest.awaits b ⟨current, outer⟩ = true → c.isLeaf (.closing b) = false) :
    Complete (c :: current) outer := by
  cases outer with
  | nil => exact List.forall_mem_cons.mpr ⟨hc, h⟩
  | cons f outer =>
    obtain ⟨⟨b, ho, hcur⟩, hout⟩ := h
    refine ⟨⟨b, ho, List.forall_mem_cons.mpr ⟨⟨hc, hb b ?_⟩, hcur⟩⟩, hout⟩
    simp [awaits, ho]

lemma Complete.push {n : Nest} (h : Complete n.current n.outer) (t : Token) :
    Complete (n.push t).current (n.push t).outer := by
  unfold Nest.push
  cases ho : t.kind.opens? with
  | some b => exact ⟨⟨b, ho, by simp⟩, h⟩
  | none =>
    have hleaf : (∀ b, n.awaits b = true → t.kind ≠ .closing b) →
        Complete (n.append (.leaf t)).current (n.append (.leaf t)).outer := by
      intro hne
      refine h.append (.leaf ho) fun b hb => ?_
      simpa [Component.isLeaf] using hne b hb
    simp only []
    split
    next b hb =>
      split_ifs with ha
      · -- The innermost block is the one that awaits the bracket.
        obtain ⟨current, outer⟩ := n
        cases outer with
        | nil => simp [awaits] at ha
        | cons frame outer =>
          obtain ⟨o, before⟩ := frame
          obtain ⟨⟨b', ho', hcur⟩, hout⟩ := h
          obtain rfl : b' = b := by simpa [awaits, ho'] using ha
          refine hout.append (.block ho' hb ?_ ?_) fun _ _ => rfl
          · exact fun d hd => (hcur d (List.mem_reverse.mp hd)).1
          · exact fun d hd => (hcur d (List.mem_reverse.mp hd)).2
      · apply hleaf
        rintro b' hb' he
        rw [hb, Kind.closing.injEq] at he
        exact ha (he ▸ hb')
    next hne => exact hleaf fun b _ => hne b

lemma wellNested_closeAll_cons {current : List Component} {outer : List (Token × List Component)}
    (h : Complete current outer) {d : Component} (hd : d.CutShort) :
    WellNested (closeAll (d :: current) outer).reverse := by
  induction outer generalizing current d with
  | nil =>
    rw [closeAll, List.reverse_cons]
    exact .cut (fun c hc => h c (List.mem_reverse.mp hc)) hd
  | cons f outer ih =>
    obtain ⟨⟨b, ho, hcur⟩, hout⟩ := h
    rw [closeAll, List.reverse_cons]
    apply ih hout
    exact .inner ho (fun c hc => (hcur c (List.mem_reverse.mp hc)).1)
      (fun c hc => (hcur c (List.mem_reverse.mp hc)).2) hd

lemma wellNested_finish {n : Nest} (h : Complete n.current n.outer) : WellNested n.finish := by
  obtain ⟨current, outer⟩ := n
  cases outer with
  | nil => exact .complete fun c hc => h c (List.mem_reverse.mp hc)
  | cons f outer =>
    obtain ⟨⟨b, ho, hcur⟩, hout⟩ := h
    apply wellNested_closeAll_cons hout
    exact .last ho (fun c hc => (hcur c (List.mem_reverse.mp hc)).1)
      (fun c hc => (hcur c (List.mem_reverse.mp hc)).2)

end Nest

/-- What tokens make up is well nested. -/
theorem wellNested_components (ts : List Token) : WellNested (components ts) := by
  have h : ∀ n : Nest, Nest.Complete n.current n.outer →
      Nest.Complete (ts.foldl Nest.push n).current (ts.foldl Nest.push n).outer := by
    induction ts with
    | nil => exact fun n hn => hn
    | cons t ts ih => exact fun n hn => ih _ (hn.push t)
  exact Nest.wellNested_finish (h .empty (by simp [Nest.Complete, Nest.empty]))

namespace Component

/-- The component is made up again of its tokens, where none of them ends a block around. -/
def Rebuilds (c : Component) : Prop :=
  ∀ n : Nest, (∀ b, n.awaits b = true → c.isLeaf (.closing b) = false) →
    c.tokens.foldl Nest.push n = n.append c

lemma foldl_push_of_rebuilds {cs : List Component} (hcs : ∀ c ∈ cs, c.Rebuilds) (n : Nest)
    (hn : ∀ b, n.awaits b = true → ∀ c ∈ cs, c.isLeaf (.closing b) = false) :
    (tokensOf cs).foldl Nest.push n = ⟨cs.reverse ++ n.current, n.outer⟩ := by
  induction cs generalizing n with
  | nil => rfl
  | cons c cs ih =>
    rw [List.forall_mem_cons] at hcs
    rw [tokensOf, List.foldl_append, hcs.1 n fun b hb => hn b hb c List.mem_cons_self, ih hcs.2]
    · simp [Nest.append]
    · exact fun b hb d hd => hn b hb d (List.mem_cons_of_mem c hd)

lemma foldl_push_opener {o : Token} {b : Bracket} {body : List Component}
    (ho : o.kind.opens? = some b) (hcs : ∀ c ∈ body, c.Rebuilds)
    (hleaf : ∀ c ∈ body, c.isLeaf (.closing b) = false) (n : Nest) :
    (o :: tokensOf body).foldl Nest.push n = ⟨body.reverse, (o, n.current) :: n.outer⟩ := by
  have hopen : n.push o = ⟨[], (o, n.current) :: n.outer⟩ := by
    simp [Nest.push, ho]
  rw [List.foldl_cons, hopen, foldl_push_of_rebuilds hcs, List.append_nil]
  intro b' hb'
  obtain rfl : b = b' := by simpa [Nest.awaits, ho] using hb'
  exact hleaf

theorem Complete.rebuilds {c : Component} (hc : c.Complete) : c.Rebuilds := by
  induction hc with
  | @leaf t ht =>
    intro n hn
    rw [tokens, List.foldl_cons, List.foldl_nil, Nest.push, ht]
    simp only []
    split
    next b hb =>
      rw [if_neg]
      intro ha
      have hleaf := hn b ha
      simp [isLeaf, hb] at hleaf
    next => rfl
  | @block o c b body ho hcl _ hleaf ih =>
    intro n _
    have hclosing : (Kind.closing b).opens? = none := rfl
    rw [tokens, ← List.cons_append, List.foldl_append, foldl_push_opener ho ih hleaf,
      Option.toList_some, List.foldl_cons, List.foldl_nil, Nest.push, hcl, hclosing]
    simp [Nest.awaits, ho, Nest.close, Nest.append]

end Component

lemma Component.CutShort.finish {d : Component} (hd : d.CutShort) (n : Nest) :
    (d.tokens.foldl Nest.push n).finish = (n.append d).finish := by
  induction hd generalizing n with
  | last ho hcs hleaf =>
    rw [tokens, Option.toList_none, List.append_nil,
      foldl_push_opener ho (fun c hc => (hcs c hc).rebuilds) hleaf, Nest.finish, Nest.closeAll,
      List.reverse_reverse]
    rfl
  | inner ho hcs hleaf _ ih =>
    rw [tokens, Option.toList_none, List.append_nil, tokensOf_append, ← List.cons_append,
      List.foldl_append, foldl_push_opener ho (fun c hc => (hcs c hc).rebuilds) hleaf, tokensOf,
      tokensOf, List.append_nil, ih, Nest.finish, Nest.append, Nest.closeAll, List.reverse_cons,
      List.reverse_reverse]
    rfl

/-- What is well nested is made up again of its tokens. -/
theorem WellNested.components_tokensOf {cs : List Component} (h : WellNested cs) :
    components (Component.tokensOf cs) = cs := by
  have hempty : ∀ b, Nest.empty.awaits b = false := fun b => rfl
  have hall : ∀ {cs : List Component}, (∀ c ∈ cs, c.Complete) →
      (Component.tokensOf cs).foldl Nest.push .empty = ⟨cs.reverse, []⟩ := by
    intro cs hcs
    rw [Component.foldl_push_of_rebuilds (fun c hc => (hcs c hc).rebuilds)]
    · simp [Nest.empty]
    · simp [hempty]
  cases h with
  | complete hcs =>
    rw [components, hall hcs]
    simp [Nest.finish, Nest.closeAll]
  | @cut cs d hcs hd =>
    have hd' := hd.finish ⟨cs.reverse, []⟩
    rw [components, Component.tokensOf_append, List.foldl_append, hall hcs]
    simpa [Component.tokensOf, Nest.finish, Nest.append, Nest.closeAll] using hd'

lemma WellNested.of_isInfix {cs ds : List Component} (h : WellNested cs) (hds : ds <:+: cs) :
    WellNested ds := by
  cases h with
  | complete hcs => exact .complete fun c hc => hcs c (hds.subset hc)
  | @cut cs d hcs hd =>
    rcases List.infix_concat_iff.mp hds with hs | hi
    · rcases List.suffix_concat_iff.mp hs with rfl | ⟨es, rfl, hes⟩
      · exact .complete (by simp)
      · exact .cut (fun c hc => hcs c (hes.subset hc)) hd
    · exact .complete fun c hc => hcs c (hi.subset hc)

lemma WellNested.complete_of_append {cs ds : List Component} (h : WellNested (cs ++ ds))
    (hds : ds ≠ []) : ∀ c ∈ cs, c.Complete := by
  generalize hall : cs ++ ds = all at h
  cases h with
  | complete hcs =>
    subst hall
    exact fun c hc => hcs c (List.mem_append_left ds hc)
  | @cut es d hes hd =>
    obtain ⟨ds, e, rfl⟩ := (List.eq_nil_or_concat' ds).resolve_left hds
    rw [← List.append_assoc] at hall
    obtain ⟨rfl, -⟩ := List.append_inj' hall rfl
    exact fun c hc => hes c (List.mem_append_left ds hc)

lemma WellNested.append {cs ds : List Component} (hcs : ∀ c ∈ cs, c.Complete) (hds : WellNested ds) :
    WellNested (cs ++ ds) := by
  cases hds with
  | complete hds => exact .complete (List.forall_mem_append.mpr ⟨hcs, hds⟩)
  | cut hds hd =>
    rw [← List.append_assoc]
    exact .cut (List.forall_mem_append.mpr ⟨hcs, hds⟩) hd

lemma WellNested.complete_or_cutShort {cs : List Component} (h : WellNested cs) {c : Component}
    (hc : c ∈ cs) : c.Complete ∨ c.CutShort := by
  cases h with
  | complete hcs => exact .inl (hcs c hc)
  | @cut cs d hcs hd =>
    rcases List.mem_append.mp hc with hc | hc
    · exact .inl (hcs c hc)
    · rw [List.mem_singleton.mp hc]
      exact .inr hd

lemma WellNested.inside {o : Token} {body cs : List Component} {closer : Option Token}
    (h : WellNested (.block o body closer :: cs)) : ∃ b, o.kind.opens? = some b ∧
      (∀ x ∈ body, x.isLeaf (.closing b) = false) ∧
      (∀ x ∈ (closer.toList.map Component.leaf ++ cs).head?, x.isLeaf (.closing b) = true) ∧
      (closer = none → cs = []) ∧ WellNested (body ++ (closer.toList.map Component.leaf ++ cs)) := by
  have hcs : WellNested cs := h.of_isInfix (List.suffix_cons _ cs).isInfix
  have hclosed : ∀ {t : Token} {b : Bracket}, t.kind = .closing b → (Component.leaf t).Complete :=
    fun ht => .leaf (by rw [ht]; rfl)
  rcases h.complete_or_cutShort List.mem_cons_self with hc | hc
  · cases hc with
    | @block _ t b _ ho ht hall hleaf =>
      refine ⟨b, ho, hleaf, by simp [Component.isLeaf, ht], by simp, .append hall ?_⟩
      exact .append (by simpa using hclosed ht) hcs
  · -- The text ends in the block, so that nothing is behind it.
    have hnil : cs = [] := by
      by_contra hne
      rw [← List.singleton_append] at h
      have hcomplete := h.complete_of_append hne _ List.mem_cons_self
      cases hc <;> cases hcomplete
    subst hnil
    cases hc with
    | last ho hall hleaf => exact ⟨_, ho, hleaf, by simp, by simp, .append hall (.complete (by simp))⟩
    | inner ho hall hleaf hd =>
      refine ⟨_, ho, ?_, by simp, by simp, by simpa using .cut hall hd⟩
      intro x hx
      rcases List.mem_append.mp hx with hx | hx
      · exact hleaf x hx
      · exact List.mem_singleton.mp hx ▸ hd.isLeaf _

/-- Components that stand together in a list of tokens, with the tokens behind them. There are none if
the text cuts the components short. -/
structure Stands (ts : List Token) (cs : List Component) (after : List Token) : Prop where
  exists_before : ∃ before, ts = before ++ (Component.tokensOf cs ++ after)
  wellNested : WellNested cs
  complete_or : (∀ c ∈ cs, c.Complete) ∨ after = []

namespace Stands
variable {ts after : List Token} {cs : List Component}

lemma components (ts : List Token) : Stands ts (components ts) [] where
  exists_before := ⟨[], by simp [tokensOf_components]⟩
  wellNested := wellNested_components ts
  complete_or := .inr rfl

lemma isInfix (h : Stands ts cs after) : Component.tokensOf cs <:+: ts := by
  obtain ⟨before, hts⟩ := h.exists_before
  exact ⟨before, after, by simp [hts]⟩

lemma mid {pre mid post : List Component} (h : Stands ts (pre ++ (mid ++ post)) after) :
    Stands ts mid (Component.tokensOf post ++ after) where
  exists_before := by
    obtain ⟨before, hts⟩ := h.exists_before
    exact ⟨before ++ Component.tokensOf pre, by simp [hts]⟩
  wellNested := h.wellNested.of_isInfix ⟨pre, post, by simp⟩
  complete_or := by
    rcases h.complete_or with hcs | rfl
    · exact .inl fun c hc => hcs c (by simp [hc])
    · by_cases hpost : post = []
      · exact .inr (by rw [hpost]; rfl)
      · left
        intro c hc
        have hall := h.wellNested
        rw [← List.append_assoc] at hall
        exact hall.complete_of_append hpost c (List.mem_append_right pre hc)

lemma body {o : Token} {body : List Component} {closer : Option Token}
    (h : Stands ts [.block o body closer] after) :
    ∃ b after', o.kind.opens? = some b ∧ Stands ts body after' ∧
      (∀ c ∈ body, c.isLeaf (.closing b) = false) ∧
      ∀ t ∈ after'.head?, t.kind = .closing b := by
  obtain ⟨before, hts⟩ := h.exists_before
  have hcases : (Component.block o body closer).Complete ∨
      (Component.block o body closer).CutShort ∧ after = [] := by
    rcases h.complete_or with hcs | hafter
    · exact .inl (hcs _ List.mem_cons_self)
    · exact (h.wellNested.complete_or_cutShort List.mem_cons_self).imp_right fun hd => ⟨hd, hafter⟩
  rcases hcases with hc | ⟨hc, rfl⟩
  · cases hc with
    | @block _ c b _ ho hcl hcs hleaf =>
      refine ⟨b, c :: after, ho, ⟨⟨before ++ [o], ?_⟩, .complete hcs, .inl hcs⟩, hleaf, ?_⟩
      · simp [hts, Component.tokensOf, Component.tokens]
      · simpa using hcl
  · cases hc with
    | last ho hcs hleaf =>
      refine ⟨_, [], ho, ⟨⟨before ++ [o], ?_⟩, .complete hcs, .inr rfl⟩, hleaf, by simp⟩
      simp [hts, Component.tokensOf, Component.tokens]
    | inner ho hcs hleaf hd =>
      refine ⟨_, [], ho, ⟨⟨before ++ [o], ?_⟩, .cut hcs hd, .inr rfl⟩, ?_, by simp⟩
      · simp [hts, Component.tokensOf, Component.tokens]
      · rintro c hc
        rcases List.mem_append.mp hc with hc | hc
        · exact hleaf c hc
        · rw [List.mem_singleton.mp hc]
          exact hd.isLeaf _

end Stands

end FontSizeLint.Css

import FontSizeLint.Proofs.Css.WellNested

/-! Where declarations stand. The value of a declaration is all that stands between its colon and the
semicolon, the brace or the end of the text that ends it, and neither a semicolon nor a brace of its own
could end it before. -/
namespace FontSizeLint.Css
open Text

/-- A declaration among tokens: its name and its value, with the tokens behind the value. -/
structure Declaration.ReadAs (ts : List Token) (d : Declaration) (name : Token)
    (value : List Component) (after : List Token) : Prop where
  isIdent : name.kind = .ident
  eq_ofValue : d = .ofValue name value
  exists_before : ∃ before gap colon, (∀ c ∈ gap, Component.isTrivia c = true) ∧
    colon.kind = .colon ∧
    ts = before ++ name :: (Component.tokensOf gap ++ colon :: (Component.tokensOf value ++ after))
  wellNested : WellNested value
  complete_or : (∀ c ∈ value, c.Complete) ∨ after = []
  no_semicolon : ∀ c ∈ value, c.isLeaf .semicolon = false
  no_brace : ∀ c ∈ value, c.isLeaf (.closing .curly) = false
  ended : ∀ t ∈ after.head?, t.kind = .semicolon ∨ t.kind = .closing .curly

lemma Declaration.ReadAs.stands {ts after : List Token} {d : Declaration} {name : Token}
    {value : List Component} (h : d.ReadAs ts name value after) : Stands ts value after where
  exists_before := by
    obtain ⟨before, gap, colon, -, -, hts⟩ := h.exists_before
    exact ⟨before ++ name :: (Component.tokensOf gap ++ [colon]), by simp [hts]⟩
  wellNested := h.wellNested
  complete_or := h.complete_or

/-- Statements stand together in the body of a block, each with its semicolon behind unless the body
ends there or a block ends an at-rule. -/
lemma exists_of_mem_statements (begun cs : List Component)
    (hb : ∀ c ∈ begun, c.isLeaf .semicolon = false) : ∀ st ∈ statements begun cs,
      ∃ pre post, begun ++ cs = pre ++ (st ++ post) ∧ (∀ c ∈ st, c.isLeaf .semicolon = false) ∧
        (isAtStatement st = true ∨ ∀ c ∈ post.head?, c.isLeaf .semicolon = true) := by
  have hbraced : ∀ c : Component, c.braced?.isSome = true → c.isLeaf .semicolon = false := by
    intro c hc
    cases c with
    | leaf t => simp [Component.braced?] at hc
    | block o body closer => rfl
  fun_induction statements begun cs with
  | case1 begun =>
    intro st hst
    rw [List.mem_singleton.mp hst]
    exact ⟨[], [], by simp, hb, .inr (by simp)⟩
  | case2 begun c cs hc ih =>
    intro st hst
    rcases List.mem_cons.mp hst with rfl | hst
    · exact ⟨[], c :: cs, by simp, hb, .inr (by simpa using hc)⟩
    · obtain ⟨pre, post, heq, hsemi, hend⟩ := ih (by simp) st hst
      rw [List.nil_append] at heq
      exact ⟨begun ++ c :: pre, post, by simp [heq], hsemi, hend⟩
  | case3 begun c cs hc ha ih =>
    rw [Bool.and_eq_true] at ha
    intro st hst
    rcases List.mem_cons.mp hst with rfl | hst
    · refine ⟨[], cs, by simp, ?_, .inl ?_⟩
      · simpa [or_imp, forall_and] using ⟨hb, hbraced c ha.2⟩
      · cases begun with
        | nil => simp [isAtStatement] at ha
        | cons d begun => exact ha.1
    · obtain ⟨pre, post, heq, hsemi, hend⟩ := ih (by simp) st hst
      rw [List.nil_append] at heq
      exact ⟨begun ++ c :: pre, post, by simp [heq], hsemi, hend⟩
  | case4 begun c cs hc ha hskip ih =>
    intro st hst
    obtain ⟨pre, post, heq, hsemi, hend⟩ := ih (by simp) st hst
    rw [List.nil_append] at heq
    exact ⟨begun ++ c :: pre, post, by simp [heq], hsemi, hend⟩
  | case5 begun c cs hc ha hskip ih =>
    intro st hst
    have hmore : ∀ d ∈ begun ++ [c], d.isLeaf .semicolon = false := by
      simpa [or_imp, forall_and] using ⟨hb, Bool.eq_false_iff.mpr hc⟩
    obtain ⟨pre, post, heq, hrest⟩ := ih hmore st hst
    exact ⟨pre, post, by simpa using heq, hrest⟩

lemma Declaration.exists_of_ofStatement? {st : List Component} {d : Declaration}
    (h : ofStatement? st = some d) : ∃ name gap colon value,
      st = .leaf name :: (gap ++ .leaf colon :: value) ∧ name.kind = .ident ∧
      (∀ c ∈ gap, Component.isTrivia c = true) ∧ colon.kind = .colon ∧ d = ofValue name value := by
  revert h
  fun_cases ofStatement? st with
  | case1 name rest hk colon value hr hc =>
    rintro ⟨⟩
    refine ⟨name, rest.takeWhile Component.isTrivia, colon, value, ?_, by simpa using hk,
      fun c hc => List.mem_takeWhile_imp hc, by simpa using hc, rfl⟩
    rw [← hr, List.takeWhile_append_dropWhile]
  | _ => simp

lemma exists_readAs_of_mem_declarations {ts after : List Token} {body : List Component}
    (h : Stands ts body after) (hbrace : ∀ c ∈ body, c.isLeaf (.closing .curly) = false)
    (hend : ∀ t ∈ after.head?, t.kind = .closing .curly) {d : Declaration}
    (hd : d ∈ declarations body) : ∃ name value rest, d.ReadAs ts name value rest := by
  obtain ⟨st, hst, hd⟩ := List.mem_filterMap.mp hd
  obtain ⟨pre, post, hbody, hsemi, hpost⟩ := exists_of_mem_statements [] body (by simp) st hst
  obtain ⟨name, gap, colon, value, rfl, hname, hgap, hcolon, hd⟩ :=
    Declaration.exists_of_ofStatement? hd
  have hnot : isAtStatement (.leaf name :: (gap ++ .leaf colon :: value)) = false := by
    simp [isAtStatement, Component.isLeaf, hname]
  rw [hnot, Bool.false_eq_true, false_or] at hpost
  have hsplit : body = (pre ++ .leaf name :: (gap ++ [.leaf colon])) ++ (value ++ post) := by
    simpa using hbody
  have hvalue : Stands ts value (Component.tokensOf post ++ after) := (hsplit ▸ h).mid
  obtain ⟨before, hts⟩ := h.exists_before
  refine ⟨name, value, Component.tokensOf post ++ after, hname, hd,
    ⟨before ++ Component.tokensOf pre, gap, colon, hgap, hcolon, ?_⟩, hvalue.wellNested,
    hvalue.complete_or, ?_, ?_, ?_⟩
  · simp [hts, hsplit, Component.tokensOf, Component.tokens]
  · exact fun c hc => hsemi c (by simp [hc])
  · exact fun c hc => hbrace c (by simp [hsplit, hc])
  · intro t ht
    cases post with
    | nil => exact .inr (hend t ht)
    | cons c post =>
      have hc := hpost c rfl
      cases c with
      | block o body closer => simp [Component.isLeaf] at hc
      | leaf t' =>
        obtain rfl : t' = t := by simpa [Component.tokensOf, Component.tokens] using ht
        exact .inl (by simpa [Component.isLeaf] using hc)

mutual
lemma exists_readAs_of_mem_innerRules (ts : List Token) : (c : Component) → ∀ after,
    Stands ts [c] after → ∀ r ∈ c.innerRules, ∀ d ∈ r.declarations,
      ∃ name value rest, d.ReadAs ts name value rest
  | .leaf t => by simp [Component.innerRules]
  | .block o body closer => by
    intro after h r hr d hd
    rw [Component.innerRules] at hr
    obtain ⟨b, after', -, hbody, -, -⟩ := h.body
    exact exists_readAs_of_mem_rulesFrom ts .fresh body after' hbody r hr d hd
lemma exists_readAs_of_mem_rulesFrom (ts : List Token) (p : Pending) : (cs : List Component) →
    ∀ after, Stands ts cs after → ∀ r ∈ rulesFrom p cs, ∀ d ∈ r.declarations,
      ∃ name value rest, d.ReadAs ts name value rest
  | [] => by simp [rulesFrom]
  | c :: cs => by
    intro after h r hr d hd
    have hc : Stands ts [c] (Component.tokensOf cs ++ after) := by
      have hsplit : Stands ts ([] ++ ([c] ++ cs)) after := h
      exact hsplit.mid
    have hcs : Stands ts cs after := by
      have hsplit : Stands ts ([c] ++ (cs ++ [])) after := by simpa using h
      exact hsplit.mid
    rw [rulesFrom] at hr
    split at hr
    next q _ => exact exists_readAs_of_mem_rulesFrom ts q cs after hcs r hr d hd
    next prelude _ =>
      rcases List.mem_cons.mp hr with rfl | hr
      · cases c with
        | leaf t => simp [Component.braced?, declarations, statements, Declaration.ofStatement?] at hd
        | block o body closer =>
          rw [Component.braced?] at hd
          split_ifs at hd with ho
          · obtain ⟨b, after', hb, hbody, hleaf, hend⟩ := hc.body
            obtain rfl : Bracket.curly = b := by simpa [beq_iff_eq.mp ho, Kind.opens?] using hb
            exact exists_readAs_of_mem_declarations hbody hleaf hend hd
          · simp [declarations, statements, Declaration.ofStatement?] at hd
      · exact exists_readAs_of_mem_rulesFrom ts .nothing cs after hcs r hr d hd
    next =>
      rcases List.mem_append.mp hr with hr | hr
      · exact exists_readAs_of_mem_innerRules ts c _ hc r hr d hd
      · exact exists_readAs_of_mem_rulesFrom ts .nothing cs after hcs r hr d hd
    next => exact exists_readAs_of_mem_rulesFrom ts .nothing cs after hcs r hr d hd
end

/-- Every declaration of a style sheet stands among the tokens of its text. -/
theorem exists_readAs {css : List Char} {d : Declaration}
    (h : d ∈ (Stylesheet.ofText css).declarations) :
    ∃ name value after, d.ReadAs (tokens css) name value after := by
  obtain ⟨r, hr, hd⟩ := List.mem_flatMap.mp h
  exact exists_readAs_of_mem_rulesFrom (tokens css) .fresh _ [] (.components (tokens css)) r hr d
    hd

end FontSizeLint.Css

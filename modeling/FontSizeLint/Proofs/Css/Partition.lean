import FontSizeLint.Proofs.Css.Reread

/-! Values in full. A value is its parts with fillers between them, which are white space, comments,
commas, slashes and marks of importance: nothing of it is lost, and nothing is read twice. -/
namespace FontSizeLint.Css
open Text

/-- White space and comments, the comments up to their own end or that of the text. -/
inductive Blanks : List Char → Prop
  | nil : Blanks []
  | space {c : Char} {s : List Char} : isSpace c = true → Blanks s → Blanks (c :: s)
  | comment {inner s : List Char} : Lexer.commentLength inner = inner.length → Blanks s →
    Blanks ('/' :: '*' :: (inner ++ s))

/-- What may stand before, between and behind the parts of a value. -/
inductive Filler : List Char → Prop
  | nil : Filler []
  | blanks {s t : List Char} : Blanks s → Filler t → Filler (s ++ t)
  | separator {c : Char} {s : List Char} : c = ',' ∨ c = '/' → Filler s → Filler (c :: s)
  | mark {gap word s : List Char} : Blanks gap → lower (unescape 0 word) = importantWord →
    Filler s → Filler ('!' :: (gap ++ (word ++ s)))

/-- Fillers as they are read. -/
inductive Fills : List Component → Prop
  | nil : Fills []
  | trivia {c : Component} {cs : List Component} : c.isTrivia = true → Fills cs → Fills (c :: cs)
  | separator {c : Component} {cs : List Component} : Part.isSeparator c = true → Fills cs →
    Fills (c :: cs)
  | mark {bang word : Component} {gap cs : List Component} : Part.isBang bang = true →
    (∀ c ∈ gap, c.isTrivia = true) → Part.isImportantWord word = true → Fills cs →
    Fills (bang :: (gap ++ word :: cs))

namespace Part

/-- A value is fillers and components in turn, and the components are read as its parts. -/
theorem exists_pieces (value : List Component) :
    ∃ (lead : List Component) (pieces : List (Component × List Component)),
      value = lead ++ pieces.flatMap (fun p => p.1 :: p.2) ∧ Fills lead ∧
      (∀ p ∈ pieces, Fills p.2) ∧ (ofValue value).1 = pieces.map fun p => ofComponent p.1 := by
  induction value using (measure List.length).wf.induction with
  | h value ih =>
    cases value with
    | nil => exact ⟨[], [], rfl, .nil, by simp, rfl⟩
    | cons c cs =>
      have htail := ih cs (Nat.lt_succ_self _)
      by_cases hc : c.isTrivia = true
      · obtain ⟨lead, pieces, rfl, hlead, hpieces, hparts⟩ := htail
        refine ⟨c :: lead, pieces, rfl, .trivia hc hlead, hpieces, ?_⟩
        rw [← hparts, ofValue, List.filter_cons_of_neg (by simp [hc]), ofValue]
      rw [Bool.not_eq_true] at hc
      cases hm : behindMark? c cs with
      | some rest =>
        obtain ⟨gap, word, rfl, hbang, hgap, hword⟩ := exists_of_behindMark? hm
        have hlt : rest.length < (c :: (gap ++ word :: rest)).length := by
          simp only [List.length_cons, List.length_append]
          omega
        obtain ⟨lead, pieces, rfl, hlead, hpieces, hparts⟩ := ih rest hlt
        refine ⟨c :: (gap ++ word :: lead), pieces, by simp, .mark hbang hgap hword hlead, hpieces, ?_⟩
        rw [ofValue_of_behindMark? hc hm, hparts]
      | none =>
        have hval := congrArg Prod.fst (ofValue_of_behindMark?_eq_none hc hm)
        obtain ⟨lead, pieces, rfl, hlead, hpieces, hparts⟩ := htail
        by_cases hs : isSeparator c = true
        · exact ⟨c :: lead, pieces, rfl, .separator hs hlead, hpieces, by rw [hval, hparts]; simp [hs]⟩
        · refine ⟨[], (c, lead) :: pieces, rfl, .nil, List.forall_mem_cons.mpr ⟨hlead, hpieces⟩, ?_⟩
          rw [hval, hparts, if_neg hs, List.map_cons, List.singleton_append]

end Part

lemma Lexer.exists_of_sign {s : List Char} {c : Char} (h : (first s).1.sign = [c]) :
    ∃ r, s = c :: r ∧ (first s).2 = 1 := by
  obtain ⟨r, hr⟩ := sign_isPrefix s
  rw [h, List.singleton_append] at hr
  have hc : c = ':' ∨ c = ';' ∨ c = ',' ∨ c = '{' ∨ c = ')' ∨ c = ']' ∨ c = '}' := by
    revert h
    fun_cases Kind.sign (first s).1 <;> simp +contextual [eq_comm]
  subst hr
  rcases hc with rfl | rfl | rfl | rfl | rfl | rfl | rfl <;> exact ⟨r, rfl, rfl⟩

lemma text_of_sign {css : List Char} {t : Token} (h : t ∈ tokens css) {c : Char}
    (hc : t.kind.sign = [c]) : t.text = [c] := by
  obtain ⟨u, hkind, htext⟩ := exists_first_of_mem_tokens h
  obtain ⟨r, rfl, hone⟩ := Lexer.exists_of_sign (hkind ▸ hc)
  rw [htext, hone]
  rfl

lemma exists_comment {css : List Char} {t : Token} (h : t ∈ tokens css) (hk : t.kind = .comment) :
    ∃ inner, t.text = '/' :: '*' :: inner ∧ Lexer.commentLength inner = inner.length := by
  obtain ⟨u, hkind, htext⟩ := exists_first_of_mem_tokens h
  obtain ⟨r, hr⟩ := Lexer.sign_isPrefix u
  rw [← hkind, hk] at hr
  subst hr
  have hmin := Lexer.commentLength_eq_min (r.take (Lexer.commentLength r))
    (r.drop (Lexer.commentLength r))
  have hle := Lexer.commentLength_le r
  rw [List.take_append_drop, List.length_take] at hmin
  refine ⟨r.take (Lexer.commentLength r), htext, ?_⟩
  rw [List.length_take]
  omega

lemma Blanks.spaces {s t : List Char} (hs : ∀ c ∈ s, isSpace c = true) (ht : Blanks t) :
    Blanks (s ++ t) := by
  induction s with
  | nil => exact ht
  | cons c s ih =>
    rw [List.forall_mem_cons] at hs
    exact .space hs.1 (ih hs.2)

lemma blanks_textOf {css : List Char} {cs : List Component} (hcs : ∀ c ∈ cs, c.isTrivia = true)
    (h : ∀ t ∈ Component.tokensOf cs, t ∈ tokens css) : Blanks (Component.textOf cs) := by
  induction cs with
  | nil => exact .nil
  | cons c cs ih =>
    rw [List.forall_mem_cons] at hcs
    cases c with
    | block o body closer => simp [Component.isTrivia] at hcs
    | leaf t =>
      rw [Component.tokensOf, Component.tokens, List.singleton_append, List.forall_mem_cons] at h
      have hrest := ih hcs.2 h.2
      rw [Component.textOf, Component.text]
      have ht : t.kind = .whitespace ∨ t.kind = .comment := by
        have hk : t.kind.isTrivia = true := hcs.1
        revert hk
        cases t.kind <;> simp [Kind.isTrivia]
      rcases ht with hk | hk
      · exact hrest.spaces (isSpace_of_mem_tokens h.1 hk)
      · obtain ⟨inner, htext, hinner⟩ := exists_comment h.1 hk
        rw [htext]
        exact .comment hinner hrest

lemma Fills.filler {css : List Char} {cs : List Component} (hf : Fills cs)
    (h : ∀ t ∈ Component.tokensOf cs, t ∈ tokens css) : Filler (Component.textOf cs) := by
  induction hf with
  | nil => exact .nil
  | @trivia c cs hc _ ih =>
    rw [Component.tokensOf, List.forall_mem_append] at h
    have hone : Blanks (Component.textOf [c]) :=
      blanks_textOf (by simpa using hc) (by simpa [Component.tokensOf] using h.1)
    rw [Component.textOf, Component.textOf, List.append_nil] at hone
    exact .blanks hone (ih h.2)
  | @separator c cs hc _ ih =>
    rw [Component.tokensOf, List.forall_mem_append] at h
    cases c with
    | block o body closer => simp [Part.isSeparator] at hc
    | leaf t =>
      have ht : t ∈ tokens css := h.1 t (by simp [Component.tokens])
      have htext : t.text = [','] ∨ t.text = ['/'] := by
        simp only [Part.isSeparator, Token.isDelim, Bool.or_eq_true, Bool.and_eq_true,
          beq_iff_eq] at hc
        exact hc.imp (fun hk => text_of_sign ht (by rw [hk]; rfl)) And.right
      rw [Component.textOf, Component.text]
      rcases htext with ht | ht <;> rw [ht]
      · exact .separator (.inl rfl) (ih h.2)
      · exact .separator (.inr rfl) (ih h.2)
  | @mark bang word gap cs hbang hgap hword _ ih =>
    simp only [Component.tokensOf, Component.tokensOf_append, List.forall_mem_append] at h
    cases word with
    | block o body closer => simp [Part.isImportantWord] at hword
    | leaf t =>
      simp only [Part.isImportantWord, Bool.and_eq_true, beq_iff_eq] at hword
      have hkey : lower (unescape 0 t.text) = importantWord := by
        rw [← hword.2, Token.key, Token.name, hword.1]
      simp only [Component.textOf, Component.textOf_append, Part.text_of_isBang hbang,
        Component.text, List.singleton_append]
      exact .mark (blanks_textOf hgap h.2.1) hkey (ih h.2.2.2)

lemma Declaration.ReadAs.head?_textOf {css : List Char} {d : Declaration} {name : Token}
    {value : List Component} {after : List Token} (h : d.ReadAs (tokens css) name value after) :
    ∀ c ∈ (Token.textOf after).head?, c = ';' ∨ c = '}' := by
  cases after with
  | nil => simp
  | cons t after =>
    have ht : t ∈ tokens css := by
      obtain ⟨before, hts⟩ := h.stands.exists_before
      rw [hts]
      simp
    rcases h.ended t rfl with hk | hk
    · simp [text_of_sign ht (c := ';') (by rw [hk]; rfl)]
    · simp [text_of_sign ht (c := '}') (by rw [hk]; rfl)]

lemma Declaration.ReadAs.exists_source {css : List Char} {d : Declaration} {name : Token}
    {value : List Component} {after : List Token} (h : d.ReadAs (tokens css) name value after) :
    ∃ before gap, (∀ c ∈ gap, Component.isTrivia c = true) ∧
      css = before ++ (name.text ++ (Component.textOf gap ++
        ':' :: (Component.textOf value ++ Token.textOf after))) := by
  obtain ⟨before, gap, colon, hgap, hcolon, hts⟩ := h.exists_before
  have hmem : colon ∈ tokens css := by
    rw [hts]
    simp
  refine ⟨Token.textOf before, gap, hgap, ?_⟩
  have htext : Token.textOf (tokens css) = css := tokens_flatten css
  rw [← htext, hts]
  simp [text_of_sign hmem (c := ':') (by rw [hcolon]; rfl), Component.textOf_eq_textOf_tokensOf]

lemma textOf_flatMap (pieces : List (Component × List Component)) :
    Component.textOf (pieces.flatMap fun p => p.1 :: p.2) =
      pieces.flatMap fun p => p.1.text ++ Component.textOf p.2 := by
  induction pieces with
  | nil => rfl
  | cons p pieces ih => simp [Component.textOf, ih]

/-- The value of a declaration in full: what stands before its first part, and each part with what
stands behind it, up to the semicolon, the brace or the end of the text that ends the value. -/
structure Partition (css : List Char) (d : Declaration) (name : Token) (lead : List Component)
    (pieces : List (Component × List Component)) (after : List Token) : Prop where
  readAs : d.ReadAs (tokens css) name (lead ++ pieces.flatMap fun p => p.1 :: p.2) after
  source : ∃ before gap, (∀ c ∈ gap, Component.isTrivia c = true) ∧
    css = before ++ (name.text ++ (Component.textOf gap ++ ':' :: (Component.textOf lead ++
      (pieces.flatMap (fun p => p.1.text ++ Component.textOf p.2) ++ Token.textOf after))))
  delimiter : ∀ c ∈ (Token.textOf after).head?, c = ';' ∨ c = '}'
  /-- A part is a token or a block up to its end, which is that of the text at most. -/
  whole : ∀ p ∈ pieces, p.1.Complete ∨ p.1.CutShort ∧ after = []
  filler : Filler (Component.textOf lead) ∧ ∀ p ∈ pieces, Filler (Component.textOf p.2)
  parts : d.parts = pieces.map fun p => Part.ofComponent p.1
  text_parts : d.parts.map Part.text = pieces.map fun p => String.ofList (trim p.1.text)

/-- Nothing of a value is lost and nothing is read twice: its source is its parts with fillers before,
between and behind them. -/
theorem parts_partition_value {css : List Char} {d : Declaration}
    (h : d ∈ (Stylesheet.ofText css).declarations) :
    ∃ name lead pieces after, Partition css d name lead pieces after := by
  obtain ⟨name, value, after, hd⟩ := exists_readAs h
  obtain ⟨lead, pieces, rfl, hlead, hgaps, hparts⟩ := Part.exists_pieces value
  have hsource := hd.exists_source
  rw [Component.textOf_append, textOf_flatMap, List.append_assoc] at hsource
  have hmem : ∀ {cs : List Component}, cs <:+: lead ++ pieces.flatMap (fun p => p.1 :: p.2) →
      ∀ t ∈ Component.tokensOf cs, t ∈ tokens css := by
    rintro cs ⟨pre, post, hcs⟩ t ht
    apply hd.stands.isInfix.subset
    rw [← hcs]
    simp [ht]
  have hparts : d.parts = pieces.map fun p => Part.ofComponent p.1 := by
    rw [hd.eq_ofValue]
    exact hparts
  refine ⟨name, lead, pieces, after, hd, hsource, hd.head?_textOf, ?_, ⟨?_, ?_⟩, hparts, ?_⟩
  · intro p hp
    have hvalue : p.1 ∈ lead ++ pieces.flatMap fun p => p.1 :: p.2 :=
      List.mem_append_right _ (List.mem_flatMap.mpr ⟨p, hp, List.mem_cons_self⟩)
    rcases hd.complete_or with hall | hend
    · exact .inl (hall _ hvalue)
    · exact (hd.wellNested.complete_or_cutShort hvalue).imp_right fun hc => ⟨hc, hend⟩
  · exact hlead.filler (hmem (List.prefix_append _ _).isInfix)
  · intro p hp
    obtain ⟨pre, post, rfl⟩ := List.append_of_mem hp
    exact (hgaps p hp).filler
      (hmem ⟨lead ++ pre.flatMap (fun p => p.1 :: p.2) ++ [p.1], post.flatMap fun p => p.1 :: p.2,
        by simp⟩)
  · rw [hparts, List.map_map]
    rfl

/-- A value with a stray bracket, a mark in its midst and a block that the end cuts short. -/
theorem parts_partition_value_cut :
    let css := "a\x7bx:/**/1px,]! IMPORTANT\n/ f(b;\x7d".toList
    ∃ d ∈ (Stylesheet.ofText css).declarations, d.parts.map Part.text = ["1px", "]", "f(b;\x7d"] ∧
      ∃ name lead pieces after, Partition css d name lead pieces after := by
  intro css
  have hparts : ∃ d ∈ (Stylesheet.ofText css).declarations,
      d.parts.map Part.text = ["1px", "]", "f(b;\x7d"] := by decide +kernel
  obtain ⟨d, hd, htext⟩ := hparts
  exact ⟨d, hd, htext, parts_partition_value hd⟩

end FontSizeLint.Css

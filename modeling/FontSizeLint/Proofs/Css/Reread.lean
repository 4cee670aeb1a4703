import FontSizeLint.Proofs.Css.PlainMark
import FontSizeLint.Proofs.Css.Severed

/-! Values read again. Components whose text is cut off behind them are read again from that text. So the
text of a value, if that is plainly marked, read alone is a declaration with the same text and the same
parts, and without a mark. -/
namespace FontSizeLint.Css
open Text

lemma Lexer.spacesLength_of_first {s : List Char} (h : (first s).1 = .whitespace) :
    (first s).2 = spacesLength s := by
  revert h
  fun_cases first s with
  | case1 => exact fun _ => rfl
  | case2 => fun_cases numeric s <;> simp
  | case3 => simp
  | case4 =>
    fun_cases named s with
    | case1 n r hn hu kind m hm =>
      revert hm
      fun_cases url? r <;> simp <;> rintro rfl <;> simp
    | _ => simp
  | case5 =>
    fun_cases symbol s with
    | case1 t kind n hq | case2 t kind n hq =>
      revert hq
      fun_cases quoted _ t <;> simp <;> rintro rfl <;> simp
    | _ => simp

def Token.unplaced (t : Token) : Token := { t with position := .start }

lemma bareTokens_eq_map (s : List Char) : bareTokens s = (tokens s).map Token.unplaced := by
  have h : ∀ p ps, (Lexer.place p ps).map Token.unplaced = ps.map fun q => ⟨q.1, q.2, .start⟩ := by
    intro p ps
    induction ps generalizing p with
    | nil => rfl
    | cons q ps ih =>
      rw [Lexer.place, List.map_cons, ih, List.map_cons]
      rfl
  exact (h .start _).symm

lemma alike_unplaced (ts : List Token) :
    List.Forall₂ (Token.Alike .atStart) ts (ts.map Token.unplaced) := by
  rw [List.forall₂_map_right_iff, List.forall₂_same]
  exact fun t _ => ⟨rfl, rfl, rfl, rfl, rfl, rfl⟩

lemma Token.textOf_map_unplaced (ts : List Token) : textOf (ts.map unplaced) = textOf ts := by
  simp [textOf, Function.comp_def, unplaced]

lemma bareTokens_of_append {s : List Char} {ts us : List Token} (h : bareTokens s = ts ++ us) :
    bareTokens (Token.textOf us) = us := by
  induction ts generalizing s with
  | nil =>
    rw [List.nil_append] at h
    rw [← h, textOf_bareTokens]
  | cons t ts ih =>
    have hs : s ≠ [] := by
      rintro rfl
      simp [bareTokens_nil] at h
    rw [bareTokens_step hs, List.cons_append, List.cons.injEq] at h
    exact ih h.2

lemma exists_first_of_mem_tokens {css : List Char} {t : Token} (h : t ∈ tokens css) :
    ∃ u, t.kind = (Lexer.first u).1 ∧ t.text = u.take (Lexer.first u).2 := by
  have hbare : t.unplaced ∈ bareTokens css := by
    rw [bareTokens_eq_map]
    exact List.mem_map_of_mem h
  obtain ⟨u, -, heq⟩ := exists_first_of_mem_bareTokens hbare
  exact ⟨u, congrArg Token.kind heq, congrArg Token.text heq⟩

lemma isSpace_of_mem_tokens {css : List Char} {t : Token} (h : t ∈ tokens css)
    (hk : t.kind = .whitespace) : ∀ c ∈ t.text, isSpace c = true := by
  obtain ⟨u, hkind, htext⟩ := exists_first_of_mem_tokens h
  rw [Lexer.spacesLength_of_first (hkind.symm.trans hk), spacesLength,
    ← List.prefix_iff_eq_take.mp (List.takeWhile_prefix isSpace)] at htext
  rw [htext]
  exact fun c hc => List.mem_takeWhile_imp hc

lemma isSpace_of_mem_textOf {css : List Char} {cs : List Component}
    (h : Component.tokensOf cs <:+: tokens css) (hcs : ∀ c ∈ cs, c.isLeaf .whitespace = true) :
    ∀ c ∈ Component.textOf cs, isSpace c = true := by
  induction cs with
  | nil => simp [Component.textOf]
  | cons d cs ih =>
    rw [List.forall_mem_cons] at hcs
    rw [Component.tokensOf] at h
    have hrest := ih ((List.suffix_append _ _).isInfix.trans h) hcs.2
    cases d with
    | block o body closer => simp [Component.isLeaf] at hcs
    | leaf t =>
      have hk : t.kind = .whitespace := by simpa [Component.isLeaf] using hcs.1
      have ht : t ∈ tokens css := h.subset (by simp [Component.tokens])
      intro c hc
      rw [Component.textOf, Component.text, List.mem_append] at hc
      rcases hc with hc | hc
      · exact isSpace_of_mem_tokens ht hk c hc
      · exact hrest c hc

lemma isBlank_of_isSpace {c : Char} (h : isSpace c = true) : isBlank c = true := by
  simp only [isSpace, isBreak, Bool.or_eq_true, beq_iff_eq] at h
  rcases h with (rfl | rfl) | ((rfl | rfl) | rfl) <;> decide

/-- The same components, but that the last one may have been a string that a break spoiled. -/
inductive Mended : List Component → List Component → Prop
  | same {cs : List Component} : Mended cs cs
  | string {cs : List Component} {t : Token} : t.kind = .badString →
    Mended (cs ++ [.leaf t]) (cs ++ [.leaf { t with kind := .string }])

namespace Mended
variable {cs ds : List Component}

lemma wellNested (h : Mended cs ds) (hcs : WellNested cs) : WellNested ds := by
  cases h with
  | same => exact hcs
  | @string cs t ht =>
    generalize hl : cs ++ [Component.leaf t] = l at hcs
    cases hcs with
    | complete hl' =>
      subst hl
      refine .complete fun c hc => ?_
      rcases List.mem_append.mp hc with hc | hc
      · exact hl' c (by simp [hc])
      · rw [List.mem_singleton.mp hc]
        exact .leaf rfl
    | @cut cs' d hl' hd =>
      have hlast := (List.append_inj' hl rfl).2
      rw [List.singleton_inj] at hlast
      rw [← hlast] at hd
      cases hd

lemma isLeaf (h : Mended cs ds) {k : Kind} (hk : k ≠ .string)
    (hcs : ∀ c ∈ cs, c.isLeaf k = false) : ∀ c ∈ ds, c.isLeaf k = false := by
  cases h with
  | same => exact hcs
  | string ht =>
    intro c hc
    rcases List.mem_append.mp hc with hc | hc
    · exact hcs c (by simp [hc])
    · rw [List.mem_singleton.mp hc]
      simpa [Component.isLeaf] using hk.symm

lemma ofValue_eq (h : Mended cs ds) (name : Token) :
    Declaration.ofValue name ds = Declaration.ofValue name cs := by
  cases h with
  | same => rfl
  | @string cs t ht =>
    have hparts : Part.ofValue (cs ++ [.leaf { t with kind := .string }]) =
        Part.ofValue (cs ++ [.leaf t]) := by
      rw [Part.ofValue_append, Part.ofValue_append]
      · simp [Part.ofValue, Part.dropMarks, Component.isTrivia, Kind.isTrivia, ht, Part.isSeparator,
          Token.isDelim, Part.ofComponent, Component.head, Kind.isNumeric, Component.text,
          Component.position]
      · simp [Component.isTrivia, Kind.isTrivia, ht, Part.isImportantWord]
      · simp [Component.isTrivia, Kind.isTrivia, Part.isImportantWord]
    have htext : Component.textOf (cs ++ [.leaf { t with kind := .string }]) =
        Component.textOf (cs ++ [.leaf t]) := by
      simp [Component.textOf, Component.text]
    simp only [Declaration.ofValue, hparts, htext]

end Mended

lemma Stands.exists_mended {css : List Char} {cs : List Component} {after : List Token}
    (h : Stands (tokens css) cs after) (hs : Severs (Component.textOf cs) (Token.textOf after)) :
    ∃ ds, Mended cs ds ∧
      bareTokens (Component.textOf cs) = (Component.tokensOf ds).map Token.unplaced := by
  obtain ⟨before, hts⟩ := h.exists_before
  have hbare : bareTokens (Component.textOf cs ++ Token.textOf after) =
      (Component.tokensOf cs).map Token.unplaced ++ after.map Token.unplaced := by
    have hmap := bareTokens_eq_map css
    rw [hts, List.map_append, List.map_append] at hmap
    have hrest := bareTokens_of_append hmap
    rwa [Token.textOf_append, Token.textOf_map_unplaced, Token.textOf_map_unplaced,
      ← Component.textOf_eq_textOf_tokensOf] at hrest
  rcases h.complete_or with hcs | rfl
  · have htext : Token.textOf ((Component.tokensOf cs).map Token.unplaced) = Component.textOf cs := by
      rw [Token.textOf_map_unplaced, Component.textOf_eq_textOf_tokensOf]
    rcases bareTokens_of_severs hs hbare htext with hsame | ⟨vs, t, hvs, ht, hstring⟩
    · exact ⟨cs, .same, hsame⟩
    · -- The spoiled string is the last component, since a block ends with its bracket.
      rcases List.eq_nil_or_concat' cs with rfl | ⟨cs, c, rfl⟩
      · simp [Component.tokensOf] at hvs
      · cases hcs c (by simp) with
        | @leaf u hu =>
          have hlast : (Component.tokensOf cs).map Token.unplaced = vs ∧ u.unplaced = t := by
            simpa [Component.tokensOf, Component.tokens] using hvs
          obtain ⟨rfl, rfl⟩ := hlast
          refine ⟨_, .string ht, ?_⟩
          rw [hstring]
          simp [Component.tokensOf, Component.tokens, Token.unplaced]
        | @block o c b body ho hc _ _ =>
          have hend : (Component.tokensOf (cs ++ [.block o body (some c)])).map Token.unplaced =
              (Component.tokensOf cs ++ o :: Component.tokensOf body).map Token.unplaced ++
                [c.unplaced] := by
            simp [Component.tokensOf, Component.tokens]
          have hlast := (List.append_inj' (hend.symm.trans hvs) rfl).2
          rw [List.singleton_inj] at hlast
          rw [← hlast] at ht
          exact absurd (hc.symm.trans ht) (by simp)
  · refine ⟨cs, .same, ?_⟩
    simpa using hbare

/-- The name of the declaration that a value is read in again. -/
def openName : Token := ⟨.ident, ['y'], .start⟩

def opening : List Token :=
  [⟨.ident, ['x'], .start⟩, ⟨.opening .curly, ['{'], .start⟩, openName, ⟨.colon, [':'], .start⟩]

lemma bareTokens_opening (s : List Char) :
    bareTokens ("x\x7by:".toList ++ s) = opening ++ bareTokens s := by
  have hx : Lexer.first ('x' :: '{' :: 'y' :: ':' :: s) = (.ident, 1) := rfl
  have ho : Lexer.first ('{' :: 'y' :: ':' :: s) = (.opening .curly, 1) := rfl
  have hy : Lexer.first ('y' :: ':' :: s) = (.ident, 1) := rfl
  have hc : Lexer.first (':' :: s) = (.colon, 1) := rfl
  change bareTokens ('x' :: '{' :: 'y' :: ':' :: s) = _
  rw [bareTokens_step (by simp), hx]
  change _ :: bareTokens ('{' :: 'y' :: ':' :: s) = _
  rw [bareTokens_step (by simp), ho]
  change _ :: _ :: bareTokens ('y' :: ':' :: s) = _
  rw [bareTokens_step (by simp), hy]
  change _ :: _ :: _ :: bareTokens (':' :: s) = _
  rw [bareTokens_step (by simp), hc]
  rfl

lemma statements_of_begun {begun : List Component} (hne : begun ≠ [])
    (hat : isAtStatement begun = false) {cs : List Component}
    (hcs : ∀ c ∈ cs, c.isLeaf .semicolon = false) : statements begun cs = [begun ++ cs] := by
  induction cs generalizing begun with
  | nil => rw [statements, List.append_nil]
  | cons c cs ih =>
    rw [List.forall_mem_cons] at hcs
    have hmore : isAtStatement (begun ++ [c]) = false := by
      obtain ⟨d, begun, rfl⟩ := List.exists_cons_of_ne_nil hne
      exact hat
    rw [statements, hcs.1, hat, List.isEmpty_eq_false_iff.mpr hne]
    simpa using ih (by simp) hmore hcs.2

lemma declarations_of_value {name colon : Token} (hname : name.kind = .ident)
    (hcolon : colon.kind = .colon) {value : List Component}
    (hsemi : ∀ c ∈ value, c.isLeaf .semicolon = false) :
    declarations (.leaf name :: .leaf colon :: value) = [.ofValue name value] := by
  have hst : statements [] (.leaf name :: .leaf colon :: value) =
      [.leaf name :: .leaf colon :: value] := by
    have hbegun : statements [] (.leaf name :: .leaf colon :: value) =
        statements [.leaf name, .leaf colon] value := by
      simp [statements, isAtStatement, Component.isLeaf, Component.braced?, hname, hcolon,
        Component.isTrivia, Kind.isTrivia]
    rw [hbegun]
    exact statements_of_begun (by simp) (by simp [isAtStatement, Component.isLeaf, hname]) hsemi
  rw [declarations, hst]
  simp [Declaration.ofStatement?, Component.isTrivia, Kind.isTrivia, hname, hcolon]

lemma rulesFrom_opening {value : List Component} (h : WellNested value)
    (hsemi : ∀ c ∈ value, c.isLeaf .semicolon = false)
    (hbrace : ∀ c ∈ value, c.isLeaf (.closing .curly) = false) :
    rulesFrom .fresh (components (opening ++ Component.tokensOf value)) =
      [⟨"x", [.ofValue openName value]⟩] := by
  let front : List Component := [.leaf openName, .leaf ⟨.colon, [':'], .start⟩]
  let brace : Token := ⟨.opening .curly, ['{'], .start⟩
  have hfront : ∀ c ∈ front, c.Complete ∧ c.isLeaf (.closing .curly) = false := by
    simp only [front, List.forall_mem_cons, List.not_mem_nil, false_imp_iff, implies_true, and_true]
    exact ⟨⟨.leaf rfl, rfl⟩, .leaf rfl, rfl⟩
  have hcut : (Component.block brace (front ++ value) none).CutShort := by
    cases h with
    | complete hcs =>
      refine .last (b := .curly) rfl ?_ ?_
      · rw [List.forall_mem_append]
        exact ⟨fun c hc => (hfront c hc).1, hcs⟩
      · rw [List.forall_mem_append]
        exact ⟨fun c hc => (hfront c hc).2, hbrace⟩
    | @cut cs d hcs hd =>
      rw [← List.append_assoc]
      refine .inner (b := .curly) rfl ?_ ?_ hd
      · rw [List.forall_mem_append]
        exact ⟨fun c hc => (hfront c hc).1, hcs⟩
      · rw [List.forall_mem_append]
        exact ⟨fun c hc => (hfront c hc).2, fun c hc => hbrace c (by simp [hc])⟩
  have hnested : WellNested ([.leaf ⟨.ident, ['x'], .start⟩] ++ [.block brace (front ++ value) none]) :=
    .cut (by simpa using Component.Complete.leaf rfl) hcut
  have htokens : opening ++ Component.tokensOf value = Component.tokensOf
      ([.leaf ⟨.ident, ['x'], .start⟩] ++ [.block brace (front ++ value) none]) := by
    simp [opening, Component.tokensOf, Component.tokens, brace, front]
  have hdecls : declarations (front ++ value) = [.ofValue openName value] :=
    declarations_of_value rfl rfl hsemi
  rw [htokens, hnested.components_tokensOf]
  change [StyleRule.mk "x" (declarations (front ++ value))] = _
  rw [hdecls]

lemma rules_of_bareTokens {s : List Char} {ts : List Token}
    (h : bareTokens s = ts.map Token.unplaced) :
    (Stylesheet.ofText s).rules.map StyleRule.unplaced =
      (rulesFrom .fresh (components ts)).map StyleRule.unplaced := by
  rw [rules_unplaced, h]
  exact (map_eq_of_forall₂ (rules_alike (alike_unplaced ts)) fun _ _ =>
    StyleRule.Alike.unplaced_eq).symm

lemma exists_of_opening {s : List Char} {value : List Component} (h : WellNested value)
    (hsemi : ∀ c ∈ value, c.isLeaf .semicolon = false)
    (hbrace : ∀ c ∈ value, c.isLeaf (.closing .curly) = false)
    (hs : bareTokens s = (Component.tokensOf value).map Token.unplaced) :
    ∃ d, (Stylesheet.ofText ("x\x7by:".toList ++ s)).declarations = [d] ∧
      d.unplaced = (Declaration.ofValue openName value).unplaced := by
  have hbare : bareTokens ("x\x7by:".toList ++ s) =
      (opening ++ Component.tokensOf value).map Token.unplaced := by
    rw [bareTokens_opening, hs, List.map_append]
    rfl
  have hrules := rules_of_bareTokens hbare
  rw [rulesFrom_opening h hsemi hbrace, List.map_singleton, List.map_eq_singleton_iff] at hrules
  obtain ⟨r, hr, hunplaced⟩ := hrules
  have hdecls := congrArg StyleRule.declarations hunplaced
  simp only [StyleRule.unplaced, List.map_cons, List.map_nil, List.map_eq_singleton_iff] at hdecls
  obtain ⟨d, hd, heq⟩ := hdecls
  exact ⟨d, by rw [Stylesheet.declarations, hr, List.flatMap_singleton, hd], heq⟩

lemma PlainlyMarked.severs {css : List Char} {d : Declaration} {name : Token} {after : List Token}
    {lead core gap mark : List Component} (h : PlainlyMarked lead core gap mark)
    (hd : d.ReadAs (tokens css) name (lead ++ (core ++ (gap ++ mark))) after)
    (hgap : ∀ c ∈ Component.textOf gap, isSpace c = true) :
    Severs (Component.textOf core) (Token.textOf (Component.tokensOf (gap ++ mark) ++ after)) := by
  have htext : Token.textOf (Component.tokensOf (gap ++ mark) ++ after) =
      Component.textOf gap ++ (Component.textOf mark ++ Token.textOf after) := by
    simp [Component.textOf_eq_textOf_tokensOf]
  rw [htext]
  refine severs_of_spaces hgap ?_ h.escape
  cases h.endMark with
  | word hb _ _ _ _ => simp [Component.textOf, Part.text_of_isBang hb]
  | none =>
    cases after with
    | nil => simp [Component.textOf]
    | cons t after =>
      have hmem : t.unplaced ∈ bareTokens css := by
        obtain ⟨before, hts⟩ := hd.stands.exists_before
        rw [bareTokens_eq_map, hts]
        exact List.mem_map_of_mem (by simp)
      have hstop : t.unplaced.kind.isStop = true := by
        change t.kind.isStop = true
        rcases hd.ended t rfl with hk | hk <;> rw [hk] <;> rfl
      obtain ⟨c, hc, ht⟩ := exists_stopToken hmem hstop
      have ht : t.text = [c] := ht
      simpa [Component.textOf, ht] using .inr hc

/-- Text and parts of a value that is plainly marked are those of one value: read alone, the text is
again the text of a declaration, with the same parts and without a mark. -/
theorem reread_of_plainlyMarked (css : List Char) {d : Declaration}
    (h : d ∈ (Stylesheet.ofText css).declarations) :
    (∃ name value after, d.ReadAs (tokens css) name value after) ∧
    ∀ name lead core gap mark after,
      d.ReadAs (tokens css) name (lead ++ (core ++ (gap ++ mark))) after →
      PlainlyMarked lead core gap mark →
      d.text.toList = Component.textOf core ∧
      ∃ d', (Stylesheet.ofText ("x\x7by:".toList ++ d.text.toList)).declarations = [d'] ∧
        d'.text = d.text ∧
        d'.parts.map (fun p => (p.value, p.text)) = d.parts.map (fun p => (p.value, p.text)) ∧
        d'.important = false := by
  refine ⟨exists_readAs h, ?_⟩
  intro name lead core gap mark after hd hplain
  have hstands := hd.stands
  have hlead : ∀ c ∈ Component.textOf lead, isSpace c = true := by
    have hsplit : Stands (tokens css) ([] ++ (lead ++ (core ++ (gap ++ mark)))) after := hstands
    exact isSpace_of_mem_textOf hsplit.mid.isInfix hplain.isSpace_lead
  have hgap : ∀ c ∈ Component.textOf gap, isSpace c = true := by
    have hsplit : Stands (tokens css) ((lead ++ core) ++ (gap ++ mark)) after := by
      rwa [List.append_assoc]
    exact isSpace_of_mem_textOf hsplit.mid.isInfix hplain.isSpace_gap
  have htext : d.text.toList = Component.textOf core := by
    rw [hd.eq_ofValue]
    simpa [Declaration.ofValue] using hplain.splitMark_eq
      (fun c hc => isBlank_of_isSpace (hlead c hc)) fun c hc => isBlank_of_isSpace (hgap c hc)
  refine ⟨htext, ?_⟩
  -- The core is read again from its text, and is the value of the declaration there.
  have hcore := hstands.mid
  obtain ⟨ds, hmend, hbare⟩ := hcore.exists_mended (hplain.severs hd hgap)
  obtain ⟨d', hd', heq⟩ := exists_of_opening (hmend.wellNested hcore.wellNested)
    (hmend.isLeaf (by decide) fun c hc => hd.no_semicolon c (by simp [hc]))
    (hmend.isLeaf (by decide) fun c hc => hd.no_brace c (by simp [hc])) hbare
  rw [hmend.ofValue_eq] at heq
  have hcoreText : (Declaration.ofValue openName core).text = d.text := by
    apply String.toList_injective
    rw [htext]
    simp [Declaration.ofValue, splitMark_of_not_writesMark hplain.not_writesMark, hplain.trim_eq]
  have hcoreParts : (Declaration.ofValue openName core).parts = d.parts := by
    rw [hd.eq_ofValue]
    exact hplain.parts_eq.symm
  have hcoreMark : (Declaration.ofValue openName core).important = false := by
    rw [← Bool.not_eq_true, Declaration.important_iff]
    exact not_or.mpr ⟨hplain.not_hasMark, hplain.not_writesMark⟩
  refine ⟨d', by rw [htext, hd'], ?_, ?_, ?_⟩
  · rw [← hcoreText]
    exact (congrArg Declaration.text heq :)
  · rw [← hcoreParts]
    have hparts := congrArg Declaration.parts heq
    simpa [Declaration.unplaced, Part.unplaced, Function.comp_def] using
      congrArg (List.map fun p : Part => (p.value, p.text)) hparts
  · rw [← hcoreMark]
    exact (congrArg Declaration.important heq :)

/-- A mark in another case with a comment behind it. -/
theorem reread_of_plainlyMarked_comment :
    let css := "a\x7bx: 9px/2 !Important /**/;\x7d".toList
    let name : Token := ⟨.ident, ['x'], ⟨1, 3⟩⟩
    let lead : List Component := [.leaf ⟨.whitespace, [' '], ⟨1, 5⟩⟩]
    let core : List Component := [.leaf ⟨.dimension, "9px".toList, ⟨1, 6⟩⟩,
      .leaf ⟨.delim, ['/'], ⟨1, 9⟩⟩, .leaf ⟨.number, ['2'], ⟨1, 10⟩⟩]
    let gap : List Component := [.leaf ⟨.whitespace, [' '], ⟨1, 11⟩⟩]
    let mark : List Component := [.leaf ⟨.delim, ['!'], ⟨1, 12⟩⟩,
      .leaf ⟨.ident, "Important".toList, ⟨1, 13⟩⟩, .leaf ⟨.whitespace, [' '], ⟨1, 22⟩⟩,
      .leaf ⟨.comment, "/**/".toList, ⟨1, 23⟩⟩]
    let after : List Token := [⟨.semicolon, [';'], ⟨1, 27⟩⟩, ⟨.closing .curly, ['}'], ⟨1, 28⟩⟩]
    let d := Declaration.ofValue name (lead ++ (core ++ (gap ++ mark)))
    d ∈ (Stylesheet.ofText css).declarations ∧
    d.ReadAs (tokens css) name (lead ++ (core ++ (gap ++ mark))) after ∧
    PlainlyMarked lead core gap mark ∧ d.text.toList = "9px/2".toList ∧
    ∃ d', (Stylesheet.ofText ("x\x7by:".toList ++ d.text.toList)).declarations = [d'] ∧
      d'.text = d.text ∧
      d'.parts.map (fun p => (p.value, p.text)) = d.parts.map (fun p => (p.value, p.text)) ∧
      d'.important = false := by
  intro css name lead core gap mark after d
  have hd : d ∈ (Stylesheet.ofText css).declarations := by decide +kernel
  have hvalue : ∀ c ∈ lead ++ (core ++ (gap ++ mark)), c.Complete := by
    simp only [lead, core, gap, mark, List.cons_append, List.nil_append, List.forall_mem_cons,
      List.not_mem_nil, false_imp_iff, implies_true, and_true]
    exact ⟨.leaf rfl, .leaf rfl, .leaf rfl, .leaf rfl, .leaf rfl, .leaf rfl, .leaf rfl, .leaf rfl,
      .leaf rfl⟩
  have hread : d.ReadAs (tokens css) name (lead ++ (core ++ (gap ++ mark))) after :=
    ⟨rfl, rfl, ⟨_, [], ⟨.colon, [':'], ⟨1, 4⟩⟩, by simp, rfl, (by decide +kernel :
        tokens css = [⟨.ident, ['a'], ⟨1, 1⟩⟩, ⟨.opening .curly, ['{'], ⟨1, 2⟩⟩] ++ _)⟩,
      .complete hvalue, .inl hvalue, by decide, by decide, by simp [after]⟩
  have hmark : ∀ s, beforeMark? s = none → ¬ WritesMark s := fun s => beforeMark?_eq_none_iff.mp
  have hplain : PlainlyMarked lead core gap mark := by
    refine ⟨by decide, by decide, .word rfl rfl (by decide) ?_ (hmark _ (by decide)), ?_,
      hmark _ (by decide), by decide, by decide⟩
    · decide
    · rw [← Part.ofValue_snd_iff]
      decide
  exact ⟨hd, hread, hplain, (reread_of_plainlyMarked css hd).2 _ _ _ _ _ _ hread hplain⟩

/-- A mark with a space in it stays in the text, which is important when it is read again. -/
theorem reread_important :
    let css := "a\x7bx:9px ! important\x7d".toList
    ∃ d ∈ (Stylesheet.ofText css).declarations,
      d.text.toList = "9px ! important".toList ∧
      ∃ d', (Stylesheet.ofText ("x\x7by:".toList ++ d.text.toList)).declarations = [d'] ∧
        d'.important = true := by
  intro css
  let value : List Component := [.leaf ⟨.dimension, "9px".toList, ⟨1, 5⟩⟩,
    .leaf ⟨.whitespace, [' '], ⟨1, 8⟩⟩, .leaf ⟨.delim, ['!'], ⟨1, 9⟩⟩,
    .leaf ⟨.whitespace, [' '], ⟨1, 10⟩⟩, .leaf ⟨.ident, "important".toList, ⟨1, 11⟩⟩]
  refine ⟨.ofValue ⟨.ident, ['x'], ⟨1, 3⟩⟩ value, by decide +kernel, by decide +kernel,
    .ofValue ⟨.ident, ['y'], ⟨1, 3⟩⟩ value, by decide +kernel, by decide +kernel⟩

end FontSizeLint.Css

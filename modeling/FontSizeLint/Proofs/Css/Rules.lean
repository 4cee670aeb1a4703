import FontSizeLint.Proofs.Css.Bodies

/-! Lists of rules, of a whole text or in the block of a group. -/
namespace FontSizeLint.Css
open Text

lemma exists_of_isCustomProperty {cs : List Component} (h : isCustomProperty cs = true) :
    ∃ t gap colon rest, cs = .leaf t :: (gap ++ .leaf colon :: rest) ∧ t.kind = .ident ∧
      (t.name.take 2 == ['-', '-']) = true ∧ (∀ c ∈ gap, c.isTrivia = true) ∧ colon.kind = .colon := by
  unfold isCustomProperty at h
  split at h
  next t rest =>
    simp only [Bool.and_eq_true, beq_iff_eq] at h
    obtain ⟨⟨hident, hname⟩, hcolon⟩ := h
    split at hcolon
    next c ds hd =>
      cases c with
      | block => contradiction
      | leaf colon =>
        refine ⟨t, rest.takeWhile Component.isTrivia, colon, ds, ?_, hident, by simp [hname],
          fun c hc => List.mem_takeWhile_imp hc, by simpa [Component.isLeaf] using hcolon⟩
        rw [← hd, List.takeWhile_append_dropWhile]
    next => contradiction
  next => contradiction

lemma isCustomProperty_append {pre behind : List Component}
    (h : ∀ c ∈ behind.head?, c.braced?.isSome = true) :
    isCustomProperty (pre ++ behind) = isCustomProperty pre := by
  cases behind with
  | nil => rw [List.append_nil]
  | cons b behind =>
    obtain ⟨o, body, closer, rfl, ho⟩ := Component.exists_block (h b rfl)
    cases pre with
    | nil => rfl
    | cons c pre =>
      cases c with
      | block => rfl
      | leaf t =>
        simp only [List.cons_append, isCustomProperty, List.dropWhile_append]
        cases pre.dropWhile Component.isTrivia with
        | nil => simp [Component.isTrivia, Component.isLeaf]
        | cons d ds => simp

namespace Parser
variable {α β : Type} {p q : Parser} {cs ds gap : List Component}

lemma prelude_reads (hp : p.opened = none) : Reads prelude p (some (written p.ahead)) [] := by
  refine ⟨p.beyond p.ahead, p.ahead, ?_, settle_beyond, (List.append_nil _).symm⟩
  rw [prelude, drain_eq, upTo_beyond hp (List.append_nil _).symm]
  rfl

/-- A reader for the block of a group reads the rules there. -/
def ReadsRules (group : Parser → Option (Reply (List StyleRule))) (p : Parser) : Prop :=
  Reads group p (some (rulesFrom .fresh p.ahead)) []

section Rule
variable {first : Bool} {t : Token} {c : Component} {group : Parser → Option (Reply (List StyleRule))}

lemma charset_takes (h : p.ahead = .leaf t :: cs) (ht : t.kind = .atKeyword)
    (hkey : t.key = "charset".toList) :
    p.Takes ((p.beyond [.leaf t]).through [.semicolon, .brace] accept) fun _ left =>
      rulesFrom .fresh p.ahead = rulesFrom .nothing left := by
  obtain ⟨pre, behind, hpre, hqs, rfl, hused, hnot, hstop⟩ :=
    exists_till (q := p.beyond [.leaf t]) [.semicolon, .brace] h settle_beyond
  have hthrough := through_eq (accept_reads _) hpre hqs hstop
  rw [beyond_beyond] at hthrough
  refine .beyond hthrough hused (by simp) ?_
  rw [h, rulesFrom_charset ht hkey]
  · simpa [Delimiter.isAt] using hnot
  · simpa [Delimiter.isAt] using hstop

lemma atRule_takes (h : p.ahead = .leaf t :: cs) (ht : t.kind = .atKeyword)
    (hkey : ¬ (first = true ∧ t.key = "charset".toList))
    (hgroup : ∀ q : Parser, p.cursor.Before q.cursor → ReadsRules group q) :
    p.Takes ((p.beyond [.leaf t]).atRule prelude fun text =>
        if groupNames.contains t.key then group else styleRule (atHeader t.key text)) fun rs left =>
      rulesFrom (.before first) p.ahead = rs.getD [] ++ rulesFrom .nothing left := by
  obtain ⟨pre, behind, hpre, hqs, rfl, hused, hnot, hstop⟩ :=
    exists_till (q := p.beyond [.leaf t]) [.semicolon, .brace] h settle_beyond
  have hread := prelude_reads (p := (p.beyond [.leaf t]).till [.semicolon, .brace]) rfl
  have hrule : rulesFrom (.before first) p.ahead = rulesFrom (.atRule t.key pre) behind := by
    rw [h, rulesFrom_atRule ht hkey]
    simpa [Delimiter.isAt] using hnot
  rw [hrule]
  rcases semicolon_or_block hstop with hsemi | ⟨o, body, closer, rest, rfl, ho⟩
  · refine .beyond (a := none) ?_ hused (by simp) (rulesFrom_atRule_semicolon hsemi)
    rw [atRule_eq hread hpre hqs hsemi, beyond_beyond]
  · obtain ⟨q, hin, hbefore, heq⟩ := atRule_block hread hpre hqs ho fun text =>
      if groupNames.contains t.key then group else styleRule (atHeader t.key text)
    rw [beyond_beyond] at hin
    have hsplit : p.ahead = [.leaf t] ++ (pre ++ .block o body closer :: rest) := h
    have hbefore := hbefore.of_isSuffix (rest_beyond_isSuffix hsplit)
    have hcurly : .closing .curly ∈ (q.inside .curly).stops := List.mem_cons_self
    rw [hpre, if_pos List.all_nil] at heq
    simp only at heq
    rw [heq, rulesFrom_atRule_block ho]
    have hinner : Reads (if groupNames.contains t.key then group else styleRule (atHeader t.key (written pre)))
        (q.inside .curly) (some (if groupNames.contains t.key then rulesFrom .fresh body
          else [⟨String.ofList (atHeader t.key (written pre)), Css.declarations body⟩])) [] := by
      rw [← hin.ahead]
      split
      · exact hgroup _ hbefore
      · exact styleRule_reads _ hcurly
    have hblock := block_eq hin hinner
    rw [if_pos List.all_nil] at hblock
    exact .beyond hblock hused (by simp) rfl

lemma customProperty_eq (h : p.ahead = cs) (hcustom : isCustomProperty cs = true) :
    ∃ t used left, p.customProperty = (some t, p.beyond used) ∧ cs = used ++ left ∧
      used ≠ [] ∧ ∀ d ∈ used, d.braced?.isSome = false := by
  obtain ⟨t, gap, colon, left, rfl, ht, hname, hgap, hcolon⟩ := exists_of_isCustomProperty hcustom
  have hfirst : p.expect (·.kind == .ident) = (some t, p.beyond [.leaf t]) :=
    expect_leaf (List.forall_mem_nil _) (by rw [ht]; rfl) (by simp [ht]) h
  have hsecond : (p.beyond [.leaf t]).expect (·.kind == .colon) =
      (some colon, (p.beyond [.leaf t]).beyond (gap ++ [.leaf colon])) :=
    expect_leaf hgap (by rw [hcolon]; rfl) (by simp [hcolon]) (ahead_beyond h)
  refine ⟨colon, .leaf t :: (gap ++ [.leaf colon]), left, ?_, by simp, by simp, ?_⟩
  · rw [customProperty, hfirst]
    simpa [hname] using hsecond
  · intro d hd
    have hd : d = .leaf t ∨ d ∈ gap ∨ d = .leaf colon := by simpa using hd
    rcases hd with rfl | hd | rfl
    · rfl
    · cases d with
      | leaf => rfl
      | block => exact absurd (hgap _ hd) Bool.false_ne_true
    · rfl

lemma customProperty_fst (h : p.ahead = cs) (hcs : ∀ c ∈ cs.head?, c.isTrivia = false)
    (hcustom : isCustomProperty cs = false) : p.customProperty.1 = none := by
  have hproper : ∀ c ∈ cs, c.Proper := fun c hc => p.wellNested_ahead.proper (h ▸ hc)
  have hnone : (p.expect (·.kind == .ident)).1 = none → p.customProperty.1 = none := by
    intro hfst
    rw [customProperty]
    split
    next => rfl
    next ht => simp [ht] at hfst
  cases cs with
  | nil => exact hnone (by rw [expect_fst, h]; rfl)
  | cons c cs =>
    have hc := hcs c rfl
    rw [List.forall_mem_cons] at hproper
    by_cases hident : c.isLeaf .ident = true
    · rw [hproper.1.isLeaf_eq rfl] at hident
      have hleaf : c = .leaf c.head := hproper.1.exists_leaf (by rw [beq_iff_eq.mp hident]; rfl)
      generalize c.head = t at hident hleaf
      subst hleaf
      have hfirst : p.expect (·.kind == .ident) = (some t, p.beyond [.leaf t]) :=
        expect_leaf (List.forall_mem_nil _) hc hident h
      rw [customProperty, hfirst]
      simp only
      split
      next hname =>
        rw [expect_fst, ahead_beyond h]
        simp only [isCustomProperty, hident, hname, Bool.true_and] at hcustom
        split at hcustom
        next d ds hd =>
          have hd' : d.Proper := hproper.2 d ((List.dropWhile_suffix _).subset (hd ▸ List.mem_cons_self))
          rw [hd'.isLeaf_eq rfl] at hcustom
          simp [hd, Option.filter_some, hcustom]
        next hd => simp [hd]
      next => rfl
    · refine hnone ?_
      rw [hproper.1.isLeaf_eq rfl] at hident
      rw [expect_fst, h, List.dropWhile_cons_of_neg (by simp [hc])]
      simpa [Option.filter_some] using hident

lemma qualifiedRule_custom (hskip : p.skip Kind.isTrivia = p)
    (hhead : ∀ c ∈ p.ahead.head?, isBetweenRules c = false ∧ c.isLeaf .atKeyword = false)
    (hcustom : isCustomProperty p.ahead = true) : p.Takes p.qualifiedRule fun rs left =>
      rulesFrom (.before first) p.ahead = rs.getD [] ++ rulesFrom .nothing left := by
  obtain ⟨t, begun, cs, hread, hcs, hne, hbegun⟩ := customProperty_eq rfl hcustom
  obtain ⟨pre, behind, hpre, hqs, rfl, hused, hnot, hstop⟩ :=
    exists_till (q := p.beyond begun) [.brace] hcs settle_beyond
  have hbrace : ∀ c ∈ behind.head?, c.braced?.isSome = true := by simpa [Delimiter.isAt] using hstop
  have hall : p.ahead = (begun ++ pre) ++ behind := by rw [hcs, List.append_assoc]
  have hrule : rulesFrom (.before first) p.ahead = [] ++ rulesFrom .nothing behind.tail := by
    rw [hall] at hhead hcustom ⊢
    rw [isCustomProperty_append hbrace] at hcustom
    rw [rulesFrom_qualified hhead ?_ hbrace, hcustom]
    · simp
    · rw [List.forall_mem_append]
      exact ⟨hbegun, by simpa [Delimiter.isAt] using hnot⟩
  have hthrough := through_eq (accept_reads _) hpre hqs hstop
  rw [beyond_beyond] at hthrough
  rw [qualifiedRule, hskip, attempt_of_some hread]
  simp only [hthrough, Option.bind_eq_bind, Option.bind_some]
  exact .beyond rfl hused (by simp [hne]) hrule

lemma qualifiedRule_style (hp : p.opened = none) (hskip : p.skip Kind.isTrivia = p)
    (hne : p.ahead ≠ [])
    (hhead : ∀ c ∈ p.ahead.head?, isBetweenRules c = false ∧ c.isLeaf .atKeyword = false)
    (hcustom : isCustomProperty p.ahead = false) (hnone : p.customProperty.1 = none) :
    p.Takes p.qualifiedRule fun rs left =>
      rulesFrom (.before first) p.ahead = rs.getD [] ++ rulesFrom .nothing left := by
  obtain ⟨pre, behind, hpre, hps, hnot, hstop⟩ := p.exists_behind_till [.brace]
  have hbrace : ∀ c ∈ behind.head?, c.braced?.isSome = true := by simpa [Delimiter.isAt] using hstop
  have hrule : rulesFrom (.before first) p.ahead =
      (behind.head?.toList.flatMap fun c =>
        [⟨String.ofList (written pre), Css.declarations (c.braced?.getD [])⟩]) ++
        rulesFrom .nothing behind.tail := by
    rw [hps] at hhead hcustom ⊢
    rw [isCustomProperty_append hbrace] at hcustom
    rw [rulesFrom_qualified hhead (by simpa [Delimiter.isAt] using hnot) hbrace]
    simp only [hcustom, Bool.false_eq_true, if_false]
  have hread := before_eq (prelude_reads (p := p.till [.brace]) hp)
  rw [List.all_nil, if_pos rfl, hpre] at hread
  rw [qualifiedRule, hskip, attempt_of_none hnone, hrule]
  simp only [hread, Option.bind_eq_bind, Option.bind_some]
  cases behind with
  | nil =>
    rw [List.append_nil] at hps
    have hend : (p.beyond pre).ahead = [] := ahead_beyond (by rw [hps, List.append_nil])
    have hexpect : (p.beyond pre).expect (·.kind == .opening .curly) = (none, p.beyond pre) := by
      rw [expect, next_nil (by simp [hend]), hend, beyond_beyond, List.append_nil]
      rfl
    rw [hexpect]
    exact .beyond rfl (by rw [hps, List.append_nil]) (hps ▸ hne) (by simp [rulesFrom])
  | cons c behind =>
    obtain ⟨o, body, closer, rfl, ho⟩ := Component.exists_block (hbrace c rfl)
    obtain ⟨q, hnext, hin, -⟩ := next_curly hps ho
    have hexpect : (p.beyond pre).expect (·.kind == .opening .curly) = (some o, q) := by
      rw [expect, hnext]
      simp [ho]
    have hblock := block_eq hin (styleRule_reads (written pre) List.mem_cons_self)
    have hused : p.ahead = (pre ++ [.block o body closer]) ++ behind := by simp [hps]
    rw [if_pos List.all_nil, hin.ahead] at hblock
    rw [hexpect]
    refine .beyond hblock hused (by simp) ?_
    simp [Component.braced?, ho]

lemma qualifiedRule_takes (hp : p.opened = none) (hne : p.ahead ≠ [])
    (hhead : ∀ c ∈ p.ahead.head?, isBetweenRules c = false ∧ c.isLeaf .atKeyword = false) :
    p.Takes p.qualifiedRule fun rs left =>
      rulesFrom (.before first) p.ahead = rs.getD [] ++ rulesFrom .nothing left := by
  have htrivia : ∀ c ∈ p.ahead.head?, c.isTrivia = false := by
    intro c hc
    have hb := (hhead c hc).1
    simp only [isBetweenRules, Bool.or_eq_false_iff] at hb
    exact hb.1.1
  have hskip : p.skip Kind.isTrivia = p := by
    rw [skip_gap (List.forall_mem_nil _) htrivia rfl, ← settle_eq, settle, hp]
  -- The name and colon of a custom property are looked for before the block is, which makes no
  -- difference, as neither is a block.
  by_cases hcustom : isCustomProperty p.ahead = true
  · exact qualifiedRule_custom hskip hhead hcustom
  · have hcustom : isCustomProperty p.ahead = false := by simpa using hcustom
    exact qualifiedRule_style hp hskip hne hhead hcustom (customProperty_fst rfl htrivia hcustom)

lemma atKeyword_eq (h : p.ahead = c :: cs) : (c.isLeaf .atKeyword = true ∧
      p.atKeyword = (some c.head, p.beyond [c])) ∨
    c.isLeaf .atKeyword = false ∧ p.atKeyword.1 = none := by
  obtain ⟨q, htoken, -, -, hbeyond⟩ := token_some h
  have hproper : c.Proper := p.wellNested_ahead.proper (h ▸ List.mem_cons_self)
  have hleaf : c.isLeaf .atKeyword = (c.head.kind == .atKeyword) := hproper.isLeaf_eq rfl
  by_cases hat : (c.head.kind == .atKeyword) = true
  · refine .inl ⟨hleaf.trans hat, ?_⟩
    rw [atKeyword, htoken, hbeyond (by rw [beq_iff_eq.mp hat]; rfl)]
    simp [hat]
  · refine .inr ⟨hleaf.trans (by simpa using hat), ?_⟩
    rw [atKeyword, htoken]
    simpa [Option.filter_some] using hat

lemma isBetweenRules_skip (p : Parser) : p.skip (fun k => k.isTrivia || k == .cdo || k == .cdc) =
    p.beyond (p.ahead.takeWhile isBetweenRules) := by
  apply skip_eq
  · intro k hk
    cases k <;> simp_all [Kind.isTrivia, Kind.opens?]
  · intro s
    cases s <;> rfl
  · exact fun t => rfl
  · exact fun o body closer => rfl

theorem ruleRound_proceeds (p : Parser) (first : Bool)
    (hgroup : ∀ q : Parser, p.cursor.Before q.cursor → ReadsRules group q) :
    Proceeds p (p.ruleRound group first) (rulesFrom (.before first) p.ahead = []) fun rs left =>
      rulesFrom (.before first) p.ahead = rs ++ rulesFrom .nothing left := by
  obtain ⟨ds, h, hgap, hds⟩ := exists_span isBetweenRules p.ahead
  rw [ruleRound, isBetweenRules_skip]
  generalize p.ahead.takeWhile isBetweenRules = gap at h hgap ⊢
  have hahead := ahead_beyond h
  have hend : (p.beyond gap).atEnd = ds.isEmpty := by rw [← settle_beyond, atEnd_settle, hahead]
  have hrule : rulesFrom (.before first) p.ahead = rulesFrom (.before first) (p.beyond gap).ahead := by
    rw [hahead, h, rulesFrom_between_append (Pending.isIdle_before first) hgap]
  have hgroup : ∀ q : Parser, (p.beyond gap).cursor.Before q.cursor → ReadsRules group q :=
    fun q hq => hgroup q (hq.of_isSuffix (rest_beyond_isSuffix h))
  simp only [hend, Option.pure_def, Option.bind_eq_bind]
  cases ds with
  | nil =>
    refine .inl ⟨by rw [h, List.append_nil]; rfl, ?_⟩
    rw [hrule, hahead, rulesFrom]
  | cons c cs =>
    rw [List.isEmpty_cons, if_neg Bool.false_ne_true]
    rcases atKeyword_eq hahead with ⟨hat, hread⟩ | ⟨hat, hread⟩
    · obtain ⟨t, rfl⟩ : ∃ t, c = .leaf t := by
        cases c with
        | leaf t => exact ⟨t, rfl⟩
        | block => contradiction
      have ht : t.kind = .atKeyword := by simpa [Component.isLeaf] using hat
      have hread : (p.beyond gap).atKeyword = (some t, (p.beyond gap).beyond [.leaf t]) := hread
      rw [attempt_of_some hread, hrule]
      simp only
      by_cases hkey : first = true ∧ t.key = "charset".toList
      · rw [if_pos (by simpa using hkey)]
        obtain ⟨rfl, hkey⟩ := hkey
        exact ((charset_takes hahead ht hkey).of_beyond h).proceeds (fun _ => []) fun _ _ hrest => hrest
      · rw [if_neg (by simpa using hkey)]
        exact ((atRule_takes hahead ht hkey hgroup).of_beyond h).proceeds (·.getD []) fun _ _ hrs => hrs
    · rw [attempt_of_none hread, hrule]
      have hhead : ∀ d ∈ (p.beyond gap).ahead.head?, isBetweenRules d = false ∧
          d.isLeaf .atKeyword = false := by
        rw [hahead]
        rintro d ⟨⟩
        exact ⟨hds c rfl, hat⟩
      exact ((qualifiedRule_takes rfl (by simp [hahead]) hhead).of_beyond h).proceeds (·.getD [])
        fun _ _ hrs => hrs

end Rule

/-- The rules that come next are read, with those in the blocks of groups, as far as there are any. -/
theorem rulesWithin_eq (n : Nat) (first : Bool) (p : Parser) (hn : p.cursor.left < n) :
    rulesWithin n first p = some (some (rulesFrom (.before first) p.ahead), p.beyond p.ahead) := by
  -- The rules behind one and those in the block of a group are read with one iteration less, and there
  -- is less of the text for either.
  induction n generalizing first p with
  | zero => exact absurd hn (Nat.not_lt_zero _)
  | succ n ih =>
    have hgroup : ∀ q : Parser, p.cursor.Before q.cursor → ReadsRules (rulesWithin n true) q := by
      intro q hq
      have hlt := hq.left_lt
      exact ⟨_, q.ahead, ih true q (by omega), settle_beyond, (List.append_nil _).symm⟩
    rw [rulesWithin]
    rcases p.ruleRound_proceeds first hgroup with
      ⟨hround, hlast⟩ | ⟨rs, q, used, left, hround, hq, hleft, hbefore, hmore⟩
    · rw [hround, hlast]
      rfl
    · have hlt := hbefore.left_lt
      rw [hround]
      simp only [Option.bind_eq_bind, Option.bind_some, ih false q (by omega), hmore,
        ahead_of_settle hq hleft, beyond_of_settle hq, ← hleft]
      rfl

lemma rulesWithin_reads {n : Nat} (hn : p.cursor.left < n) : ReadsRules (rulesWithin n true) p :=
  ⟨_, p.ahead, rulesWithin_eq n true p hn, settle_beyond, (List.append_nil _).symm⟩

theorem rules_eq (p : Parser) (first : Bool) :
    p.rules first = some (some (rulesFrom (.before first) p.ahead), p.beyond p.ahead) :=
  rulesWithin_eq _ first p (Nat.lt_succ_self _)

lemma ahead_start (css : List Char) : (start css).ahead = components (tokens css) := by
  rw [ahead, List.takeWhile_eq_self_iff.mpr]
  · rfl
  · intro c _
    rfl

end Parser

/-- Reading ends, and what is read is the style sheet that the text is. -/
theorem Stylesheet.read?_eq (css : List Char) : read? css = some (ofText css) := by
  rw [read?, Parser.rules_eq, Parser.ahead_start]
  rfl
end FontSizeLint.Css

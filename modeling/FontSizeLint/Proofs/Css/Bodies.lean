import FontSizeLint.Proofs.Css.Rounds

/-! The bodies of blocks. A statement is read as far as it goes, whether it says something or not. -/
namespace FontSizeLint.Css
open Text

namespace Parser
variable {α β : Type} {p q : Parser} {cs ds gap : List Component}

/-- A reader that reads all of a statement, if it succeeds. -/
def ReadsAll (read : Parser → Option (Reply α)) (p : Parser) (a : Option α) : Prop :=
  ∃ left, Reads read p a left ∧ (if left.all Component.isTrivia then a else none) = a

lemma accept_reads (p : Parser) : Reads accept p (some ()) p.ahead :=
  ⟨p, [], rfl, p.settle_eq, rfl⟩

lemma refuse_reads (p : Parser) : Reads (refuse (α := α)) p none p.ahead :=
  ⟨p, [], rfl, p.settle_eq, rfl⟩

lemma declaration_reads {t : Token} (ht : t.kind = .ident) (p : Parser) :
    ReadsAll (declaration t) p (Declaration.ofStatement? (.leaf t :: p.ahead)) := by
  obtain ⟨gap, ds, h, hgap, hds⟩ := exists_gap p.ahead
  have hproper : ∀ c ∈ p.ahead, c.Proper := fun c hc => p.wellNested_ahead.proper hc
  by_cases hcolon : ∃ c ∈ ds.head?, c.isLeaf .colon = true
  · obtain ⟨c, hc, hk⟩ := hcolon
    cases c with
    | block => contradiction
    | leaf colon =>
      obtain ⟨value, rfl⟩ := List.head?_eq_some_iff.mp hc
      have hk : colon.kind = .colon := by simpa [Component.isLeaf] using hk
      have hexpect : p.expect (·.kind == .colon) = (some colon, p.beyond (gap ++ [.leaf colon])) :=
        expect_leaf hgap (by rw [hk]; rfl) (by simp [hk]) h
      have hp : p.ahead = (gap ++ [.leaf colon]) ++ value := by simp [h]
      have hvalue : (p.beyond (gap ++ [.leaf colon])).value t =
          some (some (.ofValue t value), p.beyond p.ahead) := by
        rw [value_eq t rfl, ahead_beyond hp, beyond_beyond, ← hp]
      rw [h, Declaration.ofStatement?_of_colon ht hgap hk]
      refine ⟨[], ⟨_, p.ahead, ?_, settle_beyond, (List.append_nil _).symm⟩, rfl⟩
      rw [declaration, hexpect]
      exact hvalue
  -- Without a colon one token may have been read, and the statement is none either way.
  · have hnot : ∀ c ∈ ds.head?, c.isTrivia = false ∧ c.isLeaf .colon = false :=
      fun c hc => ⟨hds c hc, by simpa using fun hk => hcolon ⟨c, hc, hk⟩⟩
    have hfst : (p.expect (·.kind == .colon)).1 = none := by
      rw [expect_fst, h, dropWhile_isTrivia hgap hds]
      cases ds with
      | nil => rfl
      | cons c ds =>
        have hk := (hnot c rfl).2
        rw [(hproper c (by simp [h])).isLeaf_eq rfl] at hk
        simp [Option.filter_some, hk]
    obtain ⟨used, left, hsettle, hleft⟩ := p.exists_next_snd
    have hpair : p.expect (·.kind == .colon) = (none, p.next.2) := Prod.ext hfst rfl
    rw [h, Declaration.ofStatement?_of_not_colon hgap hnot]
    refine ⟨left, ⟨p.next.2, used, ?_, hsettle, hleft⟩, by split <;> rfl⟩
    rw [declaration, hpair]

lemma through_semicolon {c : Component} {read : Parser → Option (Reply Declaration)}
    (h : p.ahead = c :: cs) (hc : c.isTrivia = false) (hsemi : c.isLeaf .semicolon = false)
    (hat : c.isLeaf .atKeyword = false) (hq : q.settle = p.beyond [c])
    (hread : ReadsAll read (q.till [.semicolon])
      (Declaration.ofStatement? (c :: (q.till [.semicolon]).ahead))) :
    p.Takes (q.through [.semicolon] read) fun d left =>
      Css.declarations p.ahead = d.toList ++ Css.declarations left := by
  obtain ⟨pre, behind, hpre, hqs, rfl, hused, hnot, hstop⟩ := exists_till [.semicolon] h hq
  obtain ⟨left, hread, hall⟩ := hread
  have hthrough := through_eq hread hpre hqs hstop
  rw [hall, beyond_of_settle hq, hpre] at hthrough
  refine .beyond hthrough hused (by simp) ?_
  rw [h, declarations_statement hc hsemi]
  · simpa [hat, Delimiter.isAt] using hnot
  · simpa [hat, Delimiter.isAt] using hstop

lemma atRule_eq {prelude : Parser → Option (Reply β)} {text : Option β} {left pre behind : List Component}
    (hread : Reads prelude (p.till [.semicolon, .brace]) text left)
    (hpre : (p.till [.semicolon, .brace]).ahead = pre) (h : p.ahead = pre ++ behind)
    (hsemi : ∀ c ∈ behind.head?, c.isLeaf .semicolon = true)
    (body : β → Parser → Option (Reply α)) :
    p.atRule prelude body = some (none, p.beyond (pre ++ behind.take 1)) := by
  rw [atRule, before_eq hread, hpre]
  simp only [Option.bind_eq_bind, Option.bind_some]
  cases behind with
  | nil =>
    have hnext : (p.beyond pre).next = (none, p.beyond pre) := by
      rw [next_nil (by simp [ahead_beyond h]), ahead_beyond h, beyond_beyond, List.append_nil]
    simp [hnext]
  | cons c behind =>
    have hc := hsemi c rfl
    cases c with
    | block => contradiction
    | leaf t =>
      have ht : t.kind = .semicolon := by simpa [Component.isLeaf] using hc
      have hnext : (p.beyond pre).next = (some t, (p.beyond pre).beyond [.leaf t]) :=
        next_leaf (List.forall_mem_nil _) (by rw [ht]; rfl) (ahead_beyond h)
      simp [hnext, ht]

lemma atRule_block {prelude : Parser → Option (Reply β)} {text : Option β} {o : Token}
    {closer : Option Token} {left pre body behind : List Component}
    (hread : Reads prelude (p.till [.semicolon, .brace]) text left)
    (hpre : (p.till [.semicolon, .brace]).ahead = pre)
    (h : p.ahead = pre ++ .block o body closer :: behind) (ho : o.kind = .opening .curly)
    (read : β → Parser → Option (Reply α)) :
    ∃ q, q.Enters .curly body (p.beyond (pre ++ [.block o body closer])) ∧ p.cursor.Before q.cursor ∧
      p.atRule prelude read = match (if left.all Component.isTrivia then text else none) with
        | some text => q.block (read text)
        | none => some (none, q) := by
  obtain ⟨q, hnext, hin, hbefore⟩ := next_curly h ho
  refine ⟨q, hin, hbefore, ?_⟩
  rw [atRule, before_eq hread, hpre]
  simp only [Option.bind_eq_bind, Option.bind_some, hnext, ho]
  generalize (if left.all Component.isTrivia then text else none) = said
  cases said <;> rfl

lemma semicolon_or_block {behind : List Component}
    (h : ∀ c ∈ behind.head?, [Delimiter.semicolon, .brace].any (·.isAt c) = true) :
    (∀ c ∈ behind.head?, c.isLeaf .semicolon = true) ∨
      ∃ o body closer rest, behind = .block o body closer :: rest ∧ o.kind = .opening .curly := by
  cases behind with
  | nil => exact .inl (by simp)
  | cons c behind =>
    have hc := h c rfl
    rw [List.any_cons, List.any_cons, List.any_nil, Bool.or_false, Bool.or_eq_true] at hc
    rcases hc with hc | hc
    · exact .inl (by simpa [Delimiter.isAt] using hc)
    · obtain ⟨o, body, closer, rfl, ho⟩ := Component.exists_block hc
      exact .inr ⟨o, body, closer, behind, rfl, ho⟩

lemma declarations_atRule {t : Token} {pre behind : List Component} (ht : t.kind = .atKeyword)
    (hnot : ∀ c ∈ pre, [Delimiter.semicolon, .brace].any (·.isAt c) = false)
    (hstop : ∀ c ∈ behind.head?, [Delimiter.semicolon, .brace].any (·.isAt c) = true) :
    Css.declarations (.leaf t :: (pre ++ behind)) = Css.declarations behind.tail := by
  have hat : (Component.leaf t).isLeaf .atKeyword = true := by simp [Component.isLeaf, ht]
  rw [declarations_statement, Declaration.ofStatement?_eq_none]
  · rfl
  · simp [Component.isLeaf, ht]
  · simp [Component.isTrivia, ht, Kind.isTrivia]
  · simp [Component.isLeaf, ht]
  · simpa [hat, Delimiter.isAt] using hnot
  · simpa [hat, Delimiter.isAt] using hstop

lemma atRule_accept {t : Token} (h : p.ahead = .leaf t :: cs) (ht : t.kind = .atKeyword) :
    p.Takes ((p.beyond [.leaf t]).atRule accept fun _ => refuse) fun d left =>
      Css.declarations p.ahead = d.toList ++ Css.declarations left := by
  obtain ⟨pre, behind, hpre, hqs, rfl, hused, hnot, hstop⟩ :=
    exists_till (q := p.beyond [.leaf t]) [.semicolon, .brace] h settle_beyond
  have hread := accept_reads ((p.beyond [.leaf t]).till [.semicolon, .brace])
  have hnothing : Css.declarations p.ahead = [] ++ Css.declarations behind.tail := by
    rw [h, declarations_atRule ht hnot hstop, List.nil_append]
  rcases semicolon_or_block hstop with hsemi | ⟨o, body, closer, rest, rfl, ho⟩
  · have hrule := atRule_eq hread hpre hqs hsemi fun _ => refuse (α := Declaration)
    rw [beyond_beyond] at hrule
    exact .beyond hrule hused (by simp) hnothing
  · obtain ⟨q, hin, hbefore, hrule⟩ := atRule_block hread hpre hqs ho fun _ => refuse (α := Declaration)
    rw [beyond_beyond] at hin
    have hsplit : p.ahead = [.leaf t] ++ (pre ++ .block o body closer :: rest) := h
    have hbefore := hbefore.of_isSuffix (rest_beyond_isSuffix hsplit)
    rw [hrule]
    split
    · rw [block_eq hin (refuse_reads _), ite_self]
      exact .beyond rfl hused (by simp) hnothing
    · exact ⟨none, q, _, _, rfl, hin.settle, hused, hbefore, hnothing⟩

/-- One iteration on the body of a block. A brace that closes it is met only where it does not end
what is read. -/
theorem bodyRound_proceeds (p : Parser) :
    Proceeds p p.bodyRound (Css.declarations p.ahead = []) fun d left =>
      .closing .curly ∈ p.stops → Css.declarations p.ahead = d.toList ++ Css.declarations left := by
  obtain ⟨gap, ds, h, hgap, hds⟩ := exists_gap p.ahead
  have hahead := ahead_beyond h
  have hdeclarations : Css.declarations p.ahead = Css.declarations (p.beyond gap).ahead := by
    rw [hahead, h, declarations_trivia_append hgap]
  rw [bodyRound, skip_gap hgap hds h, hdeclarations]
  simp only [Option.pure_def, Option.bind_eq_bind]
  cases ds with
  | nil =>
    refine .inl ⟨?_, by rw [hahead]; rfl⟩
    rw [token_nil hahead, beyond_beyond, ← h]
  | cons c cs =>
    have hc := hds c rfl
    have hproper : c.Proper := p.wellNested_ahead.proper (by simp [h])
    have hp : p.ahead = (gap ++ [c]) ++ cs := by simp [h]
    obtain ⟨q, htoken, hq, hbefore, hbeyond⟩ := token_some hahead
    have hbefore := hbefore.of_isSuffix (rest_beyond_isSuffix h)
    have hleaf : ∀ {k : Kind}, c.head.kind = k → k.opens? = none → c = .leaf c.head := by
      rintro k rfl hk
      exact hproper.exists_leaf hk
    have hnot : ∀ {k : Kind}, c.head.kind ≠ k → k.opens? = none → c.isLeaf k = false := by
      intro k hne hk
      rw [hproper.isLeaf_eq hk]
      simpa using hne
    -- By the kind of the first token, which is not skipped.
    rw [htoken]
    simp only
    split
    next hk => simp [hproper.isTrivia_eq, hk, Kind.isTrivia] at hc
    next hk => simp [hproper.isTrivia_eq, hk, Kind.isTrivia] at hc
    next hk =>
      refine .inr ⟨none, q, gap ++ [c], cs, rfl, by rw [hq, beyond_beyond], hp, hbefore, fun _ => ?_⟩
      rw [hahead, declarations_semicolon (by rw [hproper.isLeaf_eq rfl, hk, beq_self_eq_true])]
      rfl
    next hk =>
      refine .inr ⟨none, q, gap ++ [c], cs, rfl, by rw [hq, beyond_beyond], hp, hbefore, fun hcurly => ?_⟩
      -- Such a brace is where reading stops.
      obtain ⟨behind, -, hstops, -⟩ := p.exists_behind
      have hc : c.isLeaf (.closing .curly) ≠ true :=
        List.any_eq_false.mp (hstops c (by simp [h])) _ hcurly
      rw [hproper.isLeaf_eq rfl, hk, beq_self_eq_true] at hc
      contradiction
    next hk =>
      rw [hleaf hk rfl] at hahead
      rw [hbeyond (by rw [hk]; rfl), hleaf hk rfl]
      exact ((atRule_accept hahead hk).of_beyond h).proceeds id fun d left hd _ => hd
    next hk =>
      have hread := declaration_reads hk (q.till [.semicolon])
      rw [← hleaf hk rfl] at hread
      refine ((through_semicolon hahead hc ?_ ?_ hq hread).of_beyond h).proceeds id fun d left hd _ => hd
      · exact hnot (by simp [hk]) rfl
      · exact hnot (by simp [hk]) rfl
    next hsemi _ hat hident =>
      have hread : ReadsAll (refuse (α := Declaration)) (q.till [.semicolon]) none :=
        ⟨_, refuse_reads _, ite_self _⟩
      rw [← Declaration.ofStatement?_eq_none (hnot hident rfl)] at hread
      exact ((through_semicolon hahead hc (hnot hsemi rfl) (hnot hat rfl) hq hread).of_beyond h).proceeds
        id fun d left hd _ => hd

/-- All declarations in the body of a block are read. -/
theorem declarations_reads (hp : .closing .curly ∈ p.stops) :
    p.declarations = some (some (Css.declarations p.ahead), p.beyond p.ahead) := by
  obtain ⟨ds, hloop, hds⟩ := loopWithin_eq (I := (.closing .curly ∈ ·)) (F := Css.declarations) (b := [])
    (g := fun (d : Option Declaration) ds => d.toList ++ ds)
    (fun p hp => (bodyRound_proceeds p).imp id fun _ _ hd => hd hp) _ p hp (Nat.lt_succ_self _)
  have hflat : ∀ ds : List (Option Declaration), ds.foldr (fun d ds => d.toList ++ ds) [] =
      ds.filterMap id := by
    intro ds
    induction ds with
    | nil => rfl
    | cons d ds ih => cases d <;> simp [ih]
  rw [declarations, loop, hloop, hds, hflat]
  rfl

lemma styleRule_reads (text : List Char) (hp : .closing .curly ∈ p.stops) :
    Reads (styleRule text) p (some [⟨String.ofList text, Css.declarations p.ahead⟩]) [] := by
  refine ⟨p.beyond p.ahead, p.ahead, ?_, settle_beyond, (List.append_nil _).symm⟩
  rw [styleRule, declarations_reads hp]
  rfl

end Parser
end FontSizeLint.Css

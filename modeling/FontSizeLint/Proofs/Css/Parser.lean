import FontSizeLint.Css.Parser
import FontSizeLint.Proofs.Css.Cursor

/-! What a parser reads, told by the components ahead of it. It never reads beyond them, and the parsers
that it becomes are told by how many of them they have passed. -/
namespace FontSizeLint.Css
open Text

lemma takeWhile_append_of_head {α : Type} {f : α → Bool} {l r : List α} (hl : ∀ a ∈ l, f a = true)
    (hr : ∀ a ∈ r.head?, f a = false) : (l ++ r).takeWhile f = l := by
  rw [List.takeWhile_append_of_pos hl]
  cases r with
  | nil => simp
  | cons a r => rw [List.takeWhile_cons_of_neg (by simpa using hr), List.append_nil]

lemma exists_span {α : Type} (f : α → Bool) (l : List α) : ∃ r, l = l.takeWhile f ++ r ∧
    (∀ a ∈ l.takeWhile f, f a = true) ∧ ∀ a ∈ r.head?, f a = false := by
  refine ⟨l.dropWhile f, List.takeWhile_append_dropWhile.symm, ?_, ?_⟩
  · exact fun a ha => List.mem_takeWhile_imp ha
  · intro a ha
    have hd := List.head?_dropWhile_not f l
    rw [Option.mem_def.mp ha] at hd
    exact hd

namespace Parser
variable {α : Type} {p q : Parser} {cs ds gap : List Component}

/-- Whether a parser does not read over a component. -/
def isStop (p : Parser) (c : Component) : Bool := p.stops.any (·.isAt c)

/-- The components that a parser can read. -/
def ahead (p : Parser) : List Component := p.settle.cursor.ahead.takeWhile fun c => !p.isStop c

/-- The parser behind components. -/
def beyond (p : Parser) (cs : List Component) : Parser := ⟨p.settle.cursor.beyond cs, none, p.stops⟩

lemma settle_eq (p : Parser) : p.settle = p.beyond [] := by
  obtain ⟨c, opened, stops⟩ := p
  cases opened <;> rfl

@[simp] lemma settle_beyond : (p.beyond cs).settle = p.beyond cs := rfl

@[simp] lemma beyond_beyond : (p.beyond cs).beyond ds = p.beyond (cs ++ ds) := by
  rw [beyond, beyond, beyond, Cursor.beyond_append]
  rfl

lemma beyond_of_settle (h : q.settle = p.beyond cs) : q.beyond ds = p.beyond (cs ++ ds) := by
  rw [← beyond_beyond, ← h, settle_eq, beyond_beyond, List.nil_append]

lemma stops_of_settle (h : q.settle = p.beyond cs) : q.stops = p.stops := by
  have hstops := congrArg stops h
  rwa [settle_eq] at hstops

lemma exists_behind (p : Parser) : ∃ behind, p.settle.cursor.ahead = p.ahead ++ behind ∧
    (∀ c ∈ p.ahead, p.isStop c = false) ∧ ∀ c ∈ behind.head?, p.isStop c = true := by
  obtain ⟨behind, hb, hnot, hstop⟩ := exists_span (fun c => !p.isStop c) p.settle.cursor.ahead
  simp only [Bool.not_eq_true', Bool.not_eq_false'] at hnot hstop
  exact ⟨behind, hb, hnot, hstop⟩

lemma ahead_beyond (h : p.ahead = cs ++ ds) : (p.beyond cs).ahead = ds := by
  obtain ⟨behind, hb, hnot, hstop⟩ := p.exists_behind
  rw [h, List.append_assoc] at hb
  have hcursor : (p.beyond cs).settle.cursor.ahead = ds ++ behind := Cursor.ahead_beyond hb
  rw [ahead, hcursor]
  apply takeWhile_append_of_head
  · intro c hc
    have hc : (p.beyond cs).isStop c = false := hnot c (h ▸ List.mem_append_right cs hc)
    simpa using hc
  · intro c hc
    have hc : (p.beyond cs).isStop c = true := hstop c hc
    simpa using hc

lemma ahead_of_settle (h : q.settle = p.beyond cs) (hp : p.ahead = cs ++ ds) : q.ahead = ds := by
  have hq : (q.beyond []).ahead = q.ahead := ahead_beyond rfl
  rw [← hq, beyond_of_settle h, List.append_nil, ahead_beyond hp]

lemma wellNested_ahead (p : Parser) : WellNested p.ahead := by
  obtain ⟨behind, hb, -⟩ := p.exists_behind
  exact p.settle.cursor.wellNested_ahead.of_isInfix ⟨[], behind, by rw [hb]; rfl⟩

lemma upTo_beyond (hp : p.opened = none) (h : p.ahead = cs ++ ds) :
    p.cursor.upTo (p.beyond cs).cursor = Component.textOf cs := by
  obtain ⟨behind, hb, -⟩ := p.exists_behind
  have hsettle : p.settle = p := by rw [settle, hp]
  rw [h, List.append_assoc] at hb
  rw [beyond]
  rw [hsettle] at hb ⊢
  exact Cursor.upTo_beyond hb

lemma position_head {c : Component} (hp : p.opened = none) (h : p.ahead = c :: cs) :
    c.head.position = p.cursor.position := by
  obtain ⟨behind, hb, -⟩ := p.exists_behind
  have hsettle : p.settle = p := by rw [settle, hp]
  rw [h, hsettle] at hb
  exact Cursor.position_head hb

lemma before_beyond (h : p.ahead = cs ++ ds) (hcs : cs ≠ []) : p.cursor.Before (p.beyond cs).cursor := by
  obtain ⟨behind, hb, -⟩ := p.exists_behind
  rw [h, List.append_assoc] at hb
  exact (Cursor.before_beyond hb hcs).of_isSuffix p.rest_settle_isSuffix

lemma rest_beyond_isSuffix (h : p.ahead = cs ++ ds) : (p.beyond cs).cursor.rest <:+ p.cursor.rest := by
  by_cases hcs : cs = []
  · rw [hcs, ← settle_eq]
    exact p.rest_settle_isSuffix
  · obtain ⟨used, -, hrest⟩ := before_beyond h hcs
    exact ⟨used, hrest.symm⟩

lemma atEnd_settle (p : Parser) : p.settle.atEnd = p.ahead.isEmpty := by
  have hstops : p.settle.stops = p.stops := by rw [settle_eq]; rfl
  rw [atEnd, ahead, hstops, Cursor.meets_eq]
  cases h : p.settle.cursor.ahead with
  | nil => simp [Cursor.ahead_eq_nil_iff.mp h]
  | cons c cs =>
    have hrest : p.settle.cursor.rest ≠ [] := by
      intro hnil
      rw [Cursor.ahead_eq_nil_iff.mpr hnil] at h
      contradiction
    by_cases hs : p.isStop c = true
    · rw [List.takeWhile_cons_of_neg (by simp [hs])]
      simpa [hrest, isStop] using hs
    · rw [List.takeWhile_cons_of_pos (by simp [hs])]
      simpa [hrest, isStop] using hs

/-! One token. -/

lemma token_nil (h : p.ahead = []) : p.token = (none, p.beyond []) := by
  rw [token, atEnd_settle, h, ← settle_eq]
  rfl

lemma token_cons {c : Component} (h : p.ahead = c :: cs) :
    p.token = (some c.head, ⟨p.settle.cursor.past [c.head], c.head.kind.opens?, p.stops⟩) := by
  obtain ⟨behind, hb, -⟩ := p.exists_behind
  rw [h] at hb
  rw [token, atEnd_settle, h, (Cursor.next?_of_ahead_cons hb).1]
  rfl

lemma token_leaf {t : Token} (h : p.ahead = .leaf t :: cs) : p.token = (some t, p.beyond [.leaf t]) := by
  have ht : t.kind.opens? = none :=
    p.wellNested_ahead.proper (c := .leaf t) (h ▸ List.mem_cons_self)
  rw [token_cons h, Component.head, ht]
  rfl

/-- The parser that reads in the block of a bracket. -/
def inside (p : Parser) (b : Bracket) : Parser := ⟨p.cursor, none, [.closing b]⟩

/-- A parser behind the bracket that opens a block, with what stands in the block, and the parser behind
it. -/
structure Enters (p : Parser) (b : Bracket) (body : List Component) (after : Parser) : Prop where
  opened : p.opened = some b
  settle : p.settle = after
  ahead : (p.inside b).ahead = body
  leave : ∀ used rest, body = used ++ rest →
    ((p.inside b).beyond used).cursor.leave [b] = after.cursor

lemma token_block {o : Token} {body : List Component} {closer : Option Token}
    (h : p.ahead = .block o body closer :: cs) : ∃ q b, p.token = (some o, q) ∧
      o.kind.opens? = some b ∧ q.Enters b body (p.beyond [.block o body closer]) ∧
      p.cursor.Before q.cursor := by
  obtain ⟨behind, hb, -⟩ := p.exists_behind
  rw [h] at hb
  obtain ⟨b, after, ho, hahead, hleaf, hafter, hleave⟩ := Cursor.exists_inside hb
  have hbefore : p.cursor.Before (p.settle.cursor.past [o]) := by
    apply Cursor.Before.of_isSuffix _ p.rest_settle_isSuffix
    exact Cursor.before_past (Cursor.tokens_of_ahead hb) (List.cons_ne_nil o [])
  refine ⟨_, b, token_cons h, ho, ⟨ho, ?_, ?_, hleave⟩, hbefore⟩
  · rw [settle, Component.head, ho]
    simp only [beyond]
    rw [← hleave [] body rfl]
    rfl
  · have hinside : ∀ q : Parser, q.stops = [.closing b] →
        (fun c => !q.isStop c) = fun c => !c.isLeaf (.closing b) := by
      intro q hq
      simp [isStop, hq, Delimiter.isAt]
    rw [Parser.ahead, hinside _ rfl]
    change ((p.settle.cursor.past [o]).ahead).takeWhile _ = body
    rw [hahead]
    apply takeWhile_append_of_head
    · simpa using hleaf
    · simpa using hafter

lemma token_some {c : Component} (h : p.ahead = c :: cs) :
    ∃ q, p.token = (some c.head, q) ∧ q.settle = p.beyond [c] ∧ p.cursor.Before q.cursor ∧
      (c.head.kind.opens? = none → q = p.beyond [c]) := by
  cases c with
  | leaf t => exact ⟨_, token_leaf h, settle_beyond, before_beyond h (List.cons_ne_nil _ _), fun _ => rfl⟩
  | block o body closer =>
    obtain ⟨q, b, hq, ho, hin, hbefore⟩ := token_block h
    exact ⟨q, hq, hin.settle, hbefore, fun hnone => by simp [Component.head, ho] at hnone⟩

/-! Passing over what stands next. -/

lemma skip_eq {kinds : Kind → Bool} (hkinds : ∀ k, kinds k = true → k.opens? = none)
    (hstops : ∀ s : Delimiter, kinds s.kind = false) {f : Component → Bool}
    (hleaf : ∀ t, f (.leaf t) = kinds t.kind)
    (hblock : ∀ o body closer, f (.block o body closer) = false) (p : Parser) :
    p.skip kinds = p.beyond (p.ahead.takeWhile f) := by
  have hpass : ∀ c, f c = true → p.isStop c = false := by
    intro c hc
    cases c with
    | block o body closer => simp [hblock] at hc
    | leaf t =>
      rw [hleaf] at hc
      have hproper : (Component.leaf t).Proper := hkinds _ hc
      rw [isStop, List.any_eq_false]
      intro s _ hs
      rw [hproper.isAt_eq, beq_iff_eq] at hs
      have hnot := hstops s
      rw [hs] at hnot
      exact Bool.false_ne_true (hnot.symm.trans hc)
  have htake : p.settle.cursor.ahead.takeWhile f = p.ahead.takeWhile f := by
    rw [ahead, List.takeWhile_takeWhile]
    congr 1
    funext c
    by_cases hc : f c = true
    · simp [hc, hpass c hc]
    · simp [hc]
  rw [skip, Cursor.skip_eq hkinds hleaf hblock, htake, settle_eq]
  rfl

lemma skip_isTrivia (p : Parser) :
    p.skip Kind.isTrivia = p.beyond (p.ahead.takeWhile Component.isTrivia) := by
  apply skip_eq
  · intro k hk
    cases k <;> simp_all [Kind.isTrivia, Kind.opens?]
  · intro s
    cases s <;> rfl
  · exact fun t => rfl
  · exact fun o body closer => rfl

lemma exists_gap (cs : List Component) : ∃ gap ds, cs = gap ++ ds ∧
    (∀ c ∈ gap, c.isTrivia = true) ∧ ∀ c ∈ ds.head?, c.isTrivia = false := by
  obtain ⟨ds, h⟩ := exists_span Component.isTrivia cs
  exact ⟨_, ds, h⟩

lemma skip_gap (hgap : ∀ c ∈ gap, c.isTrivia = true) (hds : ∀ c ∈ ds.head?, c.isTrivia = false)
    (h : p.ahead = gap ++ ds) : p.skip Kind.isTrivia = p.beyond gap := by
  rw [skip_isTrivia, h, takeWhile_append_of_head hgap hds]

lemma next_eq (hgap : ∀ c ∈ gap, c.isTrivia = true) (hds : ∀ c ∈ ds.head?, c.isTrivia = false)
    (h : p.ahead = gap ++ ds) : p.next = (p.beyond gap).token := by
  rw [next, skip_gap hgap hds h]

lemma next_nil (h : ∀ c ∈ p.ahead, c.isTrivia = true) : p.next = (none, p.beyond p.ahead) := by
  have hp : p.ahead = p.ahead ++ [] := (List.append_nil _).symm
  rw [next_eq h (by simp) hp, token_nil (ahead_beyond hp), beyond_beyond, List.append_nil]

lemma next_fst (p : Parser) :
    p.next.1 = (p.ahead.dropWhile Component.isTrivia).head?.map Component.head := by
  have hgap : ∀ c ∈ p.ahead.takeWhile Component.isTrivia, c.isTrivia = true :=
    fun c hc => List.mem_takeWhile_imp hc
  have hp := (List.takeWhile_append_dropWhile (p := Component.isTrivia) (l := p.ahead)).symm
  rw [next, skip_isTrivia]
  cases hd : p.ahead.dropWhile Component.isTrivia with
  | nil => rw [token_nil (ahead_beyond (hp.trans (by rw [hd])))]; rfl
  | cons c ds => rw [token_cons (ahead_beyond (hp.trans (by rw [hd])))]; rfl

lemma isSome_next (p : Parser) : p.next.1.isSome = !p.ahead.all Component.isTrivia := by
  rw [next_fst, Option.isSome_map]
  induction p.ahead with
  | nil => rfl
  | cons c cs ih => by_cases hc : c.isTrivia = true <;> simp_all

lemma next_leaf {t : Token} (hgap : ∀ c ∈ gap, c.isTrivia = true) (ht : t.kind.isTrivia = false)
    (h : p.ahead = gap ++ .leaf t :: ds) : p.next = (some t, p.beyond (gap ++ [.leaf t])) := by
  rw [next_eq hgap (by simpa [Component.isTrivia] using ht) h, token_leaf (ahead_beyond h), beyond_beyond]

lemma next_block {o : Token} {body : List Component} {closer : Option Token}
    (hgap : ∀ c ∈ gap, c.isTrivia = true) (h : p.ahead = gap ++ .block o body closer :: ds) :
    ∃ q b, p.next = (some o, q) ∧ o.kind.opens? = some b ∧
      q.Enters b body (p.beyond (gap ++ [.block o body closer])) ∧ p.cursor.Before q.cursor := by
  obtain ⟨q, b, hq, ho, hin, hbefore⟩ := token_block (ahead_beyond h)
  rw [beyond_beyond] at hin
  refine ⟨q, b, ?_, ho, hin, hbefore.of_isSuffix (rest_beyond_isSuffix h)⟩
  rw [next_eq hgap (by simp [Component.isTrivia]) h, hq]

lemma next_curly {o : Token} {body : List Component} {closer : Option Token}
    (h : p.ahead = gap ++ .block o body closer :: ds) (ho : o.kind = .opening .curly) :
    ∃ q, (p.beyond gap).next = (some o, q) ∧
      q.Enters .curly body (p.beyond (gap ++ [.block o body closer])) ∧ p.cursor.Before q.cursor := by
  obtain ⟨q, b, hnext, hb, hin, hbefore⟩ := next_block (List.forall_mem_nil _) (ahead_beyond h)
  obtain rfl : .curly = b := by simpa [ho, Kind.opens?] using hb
  rw [List.nil_append, beyond_beyond] at hin
  exact ⟨q, hnext, hin, hbefore.of_isSuffix (rest_beyond_isSuffix h)⟩

lemma exists_next_snd (p : Parser) :
    ∃ used left, p.next.2.settle = p.beyond used ∧ p.ahead = used ++ left := by
  obtain ⟨gap, ds, h, hgap, hds⟩ := exists_gap p.ahead
  cases ds with
  | nil =>
    rw [List.append_nil] at h
    rw [next_nil (h ▸ hgap)]
    exact ⟨p.ahead, [], rfl, (List.append_nil _).symm⟩
  | cons c ds =>
    obtain ⟨q, hq, hsettle, -⟩ := token_some (ahead_beyond h)
    refine ⟨gap ++ [c], ds, ?_, by rw [h, List.append_assoc, List.singleton_append]⟩
    rw [next_eq hgap hds h, hq, hsettle, beyond_beyond]

lemma attempt_of_some {read : Parser → Reply α} {a : α} (h : read p = (some a, q)) :
    p.attempt read = (some a, q) := by
  rw [attempt, h]

lemma attempt_of_none {read : Parser → Reply α} (h : (read p).1 = none) :
    p.attempt read = (none, p) := by
  rw [attempt]
  split
  next => rfl
  next hread => simp [hread] at h

lemma expect_fst (wanted : Token → Bool) (p : Parser) : (p.expect wanted).1 =
    ((p.ahead.dropWhile Component.isTrivia).head?.map Component.head).filter wanted := by
  rw [← next_fst]
  rfl

lemma expect_leaf {wanted : Token → Bool} {t : Token} (hgap : ∀ c ∈ gap, c.isTrivia = true)
    (ht : t.kind.isTrivia = false) (hw : wanted t = true) (h : p.ahead = gap ++ .leaf t :: ds) :
    p.expect wanted = (some t, p.beyond (gap ++ [.leaf t])) := by
  rw [expect, next_leaf hgap ht h]
  simp [hw]

lemma drain_eq (p : Parser) : p.drain = p.beyond p.ahead := by
  have hsome : ∀ {p q : Parser} {t : Token}, p.token = (some t, q) → p.drain = q.drain := by
    intro p q t h
    rw [drain]
    split
    next hnone => simp [h] at hnone
    next hq => rw [(Prod.mk.inj (h.symm.trans hq)).2]
  generalize h : p.ahead = cs
  induction cs generalizing p with
  | nil =>
    rw [drain]
    split
    next hq => exact (Prod.mk.inj (hq.symm.trans (token_nil h))).2
    next hq => simp [token_nil h] at hq
  | cons c cs ih =>
    obtain ⟨q, hq, hsettle, -⟩ := token_some h
    rw [hsome hq, ih q (ahead_of_settle hsettle h), beyond_of_settle hsettle]
    rfl

/-! Reading within bounds. Whatever a reader does within bounds, the parser is behind them then. -/

/-- A reader for which a parser is no further than some of the components ahead, with the components
that are left. -/
def Reads (read : Parser → Option (Reply α)) (p : Parser) (a : Option α) (left : List Component) : Prop :=
  ∃ q used, read p = some (a, q) ∧ q.settle = p.beyond used ∧ p.ahead = used ++ left

lemma wholly_eq {read : Parser → Option (Reply α)} {a : Option α} {left : List Component}
    (h : Reads read p a left) : Reads (wholly read) p (if left.all Component.isTrivia then a else none) left := by
  obtain ⟨q, used, hread, hq, hp⟩ := h
  refine ⟨q, used, ?_, hq, hp⟩
  rw [wholly, hread]
  change some ((if q.next.1.isSome then none else a), q) = _
  rw [isSome_next, ahead_of_settle hq hp]
  cases left.all Component.isTrivia <;> rfl

/-- The parser that stops also at the given delimiters. -/
def till (p : Parser) (delimiters : List Delimiter) : Parser :=
  { p with stops := delimiters ++ p.stops }

lemma settle_till (p : Parser) (ss : List Delimiter) : (p.till ss).settle = p.settle.till ss := by
  obtain ⟨c, opened, stops⟩ := p
  cases opened <;> rfl

lemma ahead_till (p : Parser) (ss : List Delimiter) :
    (p.till ss).ahead = p.ahead.takeWhile fun c => !ss.any (·.isAt c) := by
  have hstop : ∀ c, (!(p.till ss).isStop c) = (!ss.any (·.isAt c) && !p.isStop c) := by
    intro c
    rw [isStop, till, List.any_append, Bool.not_or]
    rfl
  rw [ahead, ahead, settle_till, List.takeWhile_takeWhile]
  congr 1
  funext c
  rw [hstop, Bool.decide_and, Bool.decide_eq_true, Bool.decide_eq_true]

lemma exists_behind_till (p : Parser) (ss : List Delimiter) : ∃ pre behind, (p.till ss).ahead = pre ∧
    p.ahead = pre ++ behind ∧ (∀ c ∈ pre, ss.any (·.isAt c) = false) ∧
    ∀ c ∈ behind.head?, ss.any (·.isAt c) = true := by
  obtain ⟨behind, hb, hnot, hstop⟩ := exists_span (fun c => !ss.any (·.isAt c)) p.ahead
  simp only [Bool.not_eq_true', Bool.not_eq_false'] at hnot hstop
  exact ⟨_, behind, p.ahead_till ss, hb, hnot, hstop⟩

lemma exists_till (ss : List Delimiter) (hp : p.ahead = gap ++ cs) (hq : q.settle = p.beyond gap) :
    ∃ pre behind, (q.till ss).ahead = pre ∧ q.ahead = pre ++ behind ∧ cs = pre ++ behind ∧
      p.ahead = gap ++ (pre ++ behind.take 1) ++ behind.tail ∧
      (∀ c ∈ pre, ss.any (·.isAt c) = false) ∧ ∀ c ∈ behind.head?, ss.any (·.isAt c) = true := by
  obtain ⟨pre, behind, hpre, hqs, hnot, hstop⟩ := q.exists_behind_till ss
  have hcs : cs = pre ++ behind := by rw [← hqs, ahead_of_settle hq hp]
  have hsplit : behind.take 1 ++ behind.tail = behind := by cases behind <;> rfl
  refine ⟨pre, behind, hpre, hqs, hcs, ?_, hnot, hstop⟩
  rw [hp, hcs, List.append_assoc, List.append_assoc, hsplit]

lemma before_eq {read : Parser → Option (Reply α)} {ss : List Delimiter} {a : Option α}
    {left : List Component} (h : Reads read (p.till ss) a left) :
    p.before ss read =
      some (if left.all Component.isTrivia then a else none, p.beyond (p.till ss).ahead) := by
  obtain ⟨q, used, hread, hq, hp⟩ := wholly_eq h
  have hcursor : q.settle.cursor.find (ss ++ p.stops) = (p.beyond (p.till ss).ahead).cursor := by
    rw [hq, Cursor.find_eq]
    change ((p.till ss).beyond used).cursor.beyond ((p.till ss).beyond used).ahead = _
    rw [ahead_beyond hp, hp, beyond, beyond, settle_till, Cursor.beyond_append]
    rfl
  have hbefore : p.before ss read = (wholly read (p.till ss)).bind fun x =>
    some (x.1, ⟨x.2.settle.cursor.find (ss ++ p.stops), none, p.stops⟩) := rfl
  rw [hbefore, hread, Option.bind_some, hcursor]
  rfl

lemma advance_delimiter {c : Cursor} {x : Component} {cs : List Component} {s : Delimiter}
    (h : c.ahead = x :: cs) (hs : s.isAt x = true) : c.advance 1 = c.past [x.head] := by
  obtain ⟨hnext, hx, ch, r, hr, hk⟩ := Cursor.next?_of_ahead_cons h
  rw [hx.isAt_eq, beq_iff_eq, ← hk, ← s.char_eq_iff] at hs
  have hfirst : Lexer.first c.rest = (s.kind, 1) := by rw [hr, ← hs, s.first_eq]
  have hone : c.next? = some (⟨s.kind, c.rest.take 1, c.position⟩, c.advance 1) := by
    rw [Cursor.next?, hfirst, hr]
    rfl
  exact (Prod.mk.inj (Option.some.inj (hone.symm.trans hnext))).2

lemma through_eq {read : Parser → Option (Reply α)} {ss : List Delimiter} {a : Option α}
    {left pre behind : List Component} (h : Reads read (p.till ss) a left)
    (hpre : (p.till ss).ahead = pre) (hp : p.ahead = pre ++ behind)
    (hbehind : ∀ c ∈ behind.head?, ss.any (·.isAt c) = true) :
    p.through ss read =
      some (if left.all Component.isTrivia then a else none, p.beyond (pre ++ behind.take 1)) := by
  have hend : (p.beyond pre).atEnd = behind.isEmpty := by
    rw [← settle_beyond, atEnd_settle, ahead_beyond hp]
  rw [through, before_eq h, hpre]
  simp only [Option.bind_eq_bind, Option.bind_some, hend]
  cases behind with
  | nil => simp
  | cons c behind =>
    obtain ⟨s, -, hs⟩ := List.any_eq_true.mp (hbehind c rfl)
    obtain ⟨after, hafter, -⟩ := (p.beyond pre).exists_behind
    rw [settle_beyond, ahead_beyond hp, List.cons_append] at hafter
    have hproper : c.Proper := by
      apply (p.beyond pre).cursor.wellNested_ahead.proper
      rw [hafter]
      exact List.mem_cons_self
    simp only [List.isEmpty_cons, Bool.false_eq_true, if_false, advance_delimiter hafter hs,
      Cursor.meets_eq, hafter, List.head?_cons, Option.any_some, List.any_cons, List.any_nil,
      Bool.or_false, List.take_succ_cons, List.take_zero, ← beyond_beyond]
    cases c with
    | leaf t => rfl
    | block o body closer =>
      obtain ⟨b, -, ho, -, -, -, hleave⟩ := Cursor.exists_inside hafter
      have hbrace : s = .brace := by
        cases s with
        | brace => rfl
        | semicolon | closing => simp [Delimiter.isAt, Component.isLeaf] at hs
      subst hbrace
      have hk : Kind.opening .curly = o.kind := by
        simpa [hproper.isAt_eq, Delimiter.kind, Component.head] using hs
      obtain rfl : .curly = b := by simpa [← hk, Kind.opens?] using ho
      rw [if_pos hs]
      simp only [Option.pure_def, Option.some.injEq, Prod.mk.injEq, true_and]
      have hbeyond : (p.beyond pre).beyond [.block o body closer] =
        ⟨(p.beyond pre).cursor.beyond [.block o body closer], none, p.stops⟩ := rfl
      rw [hbeyond, ← hleave [] body rfl]
      rfl

lemma block_eq {read : Parser → Option (Reply α)} {b : Bracket} {body left : List Component}
    {after : Parser} {a : Option α} (h : p.Enters b body after) (hread : Reads read (p.inside b) a left) :
    p.block read = some (if left.all Component.isTrivia then a else none, after) := by
  obtain ⟨q, used, hread, hq, hbody⟩ := wholly_eq hread
  have hafter : (⟨after.cursor, none, p.stops⟩ : Parser) = after := by
    rw [← h.settle, settle_eq]
    rfl
  rw [h.ahead] at hbody
  have hblock : p.block read = p.opened.bind fun b => (wholly read (p.inside b)).bind fun x =>
    some (x.1, ⟨x.2.settle.cursor.leave [b], none, p.stops⟩) := rfl
  rw [hblock, h.opened, Option.bind_some, hread, Option.bind_some, hq, h.leave used left hbody, hafter]

end Parser
end FontSizeLint.Css

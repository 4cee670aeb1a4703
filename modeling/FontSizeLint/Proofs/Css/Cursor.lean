import FontSizeLint.Css.Cursor
import FontSizeLint.Proofs.Css.Splice
import FontSizeLint.Proofs.Css.WellNested

/-! A way through a text, told by the components that it passes. What is read token by token from a place
on are the components of the rest of the text. -/
namespace FontSizeLint.Css
open Text

namespace Delimiter

def kind : Delimiter → Kind
  | semicolon => .semicolon
  | brace => .opening .curly
  | closing b => .closing b

/-- Whether a component begins with the delimiter. -/
def isAt : Delimiter → Component → Bool
  | semicolon, c => c.isLeaf .semicolon
  | brace, c => c.braced?.isSome
  | closing b, c => c.isLeaf (.closing b)

lemma first_eq (s : Delimiter) (r : List Char) : Lexer.first (s.char :: r) = (s.kind, 1) := by
  cases s with
  | semicolon | brace => rfl
  | closing b => cases b <;> rfl

lemma sign_kind (s : Delimiter) : s.kind.sign = [s.char] := by
  cases s with
  | semicolon | brace => rfl
  | closing b => cases b <;> rfl

lemma char_eq_iff (s : Delimiter) (c : Char) (r : List Char) :
    s.char = c ↔ s.kind = (Lexer.first (c :: r)).1 := by
  constructor
  · rintro rfl
    rw [first_eq]
  · intro h
    have hs := Lexer.sign_isPrefix (c :: r)
    rw [← h, sign_kind] at hs
    exact (List.cons_prefix_cons.mp hs).1

end Delimiter

/-- A token of its own opens nothing, and a block begins with what opens one. -/
def Component.Proper : Component → Prop
  | .leaf t => t.kind.opens? = none
  | .block o _ _ => o.kind.opens?.isSome = true

namespace Component
variable {c : Component}

lemma Complete.proper (h : c.Complete) : c.Proper := by
  cases h with
  | leaf ht => exact ht
  | block ho => simp [Proper, ho]

lemma CutShort.proper (h : c.CutShort) : c.Proper := by
  cases h with
  | last ho | inner ho => simp [Proper, ho]

lemma Proper.isAt_eq (h : c.Proper) (s : Delimiter) : s.isAt c = (s.kind == c.head.kind) := by
  cases c with
  | leaf t =>
    have ht : t.kind.opens? = none := h
    cases s with
    | semicolon | closing => simp [Delimiter.isAt, Delimiter.kind, isLeaf, head, eq_comm]
    | brace =>
      cases hk : t.kind <;> simp_all [Delimiter.isAt, Delimiter.kind, braced?, head, Kind.opens?]
  | block o body closer =>
    have ho : o.kind.opens?.isSome = true := h
    cases s with
    | semicolon | closing =>
      cases hk : o.kind <;> simp_all [Delimiter.isAt, Delimiter.kind, isLeaf, head, Kind.opens?]
    | brace =>
      by_cases hk : o.kind = .opening .curly
      · simp [Delimiter.isAt, Delimiter.kind, braced?, head, hk]
      · simp [Delimiter.isAt, Delimiter.kind, braced?, head, hk, Ne.symm hk]

lemma Proper.isLeaf_eq (h : c.Proper) {k : Kind} (hk : k.opens? = none) : c.isLeaf k = (c.head.kind == k) := by
  cases c with
  | leaf t => rfl
  | block o body closer =>
    have ho : o.kind.opens?.isSome = true := h
    have hne : o.kind ≠ k := by
      rintro rfl
      simp [hk] at ho
    simp [isLeaf, head, hne]

lemma Proper.exists_leaf (h : c.Proper) (hk : c.head.kind.opens? = none) : c = .leaf c.head := by
  cases c with
  | leaf t => rfl
  | block o body closer =>
    have ho : o.kind.opens?.isSome = true := h
    rw [head] at hk
    simp [hk] at ho

lemma Proper.isTrivia_eq (h : c.Proper) : c.isTrivia = c.head.kind.isTrivia := by
  cases c with
  | leaf t => rfl
  | block o body closer =>
    have ho : o.kind.opens?.isSome = true := h
    cases hk : o.kind <;> simp_all [isTrivia, head, Kind.isTrivia, Kind.opens?]

lemma exists_block (h : c.braced?.isSome = true) :
    ∃ o body closer, c = .block o body closer ∧ o.kind = .opening .curly := by
  cases c with
  | leaf => contradiction
  | block o body closer =>
    refine ⟨o, body, closer, rfl, ?_⟩
    by_contra ho
    simp [braced?, ho] at h

end Component

lemma WellNested.proper {cs : List Component} (h : WellNested cs) {c : Component} (hc : c ∈ cs) :
    c.Proper :=
  (h.complete_or_cutShort hc).elim Component.Complete.proper Component.CutShort.proper

namespace Cursor
variable {c : Cursor} {t : Token} {ts us : List Token}

def tokens (c : Cursor) : List Token := Lexer.place c.position (pieces Lexer.first 0 c.rest)

/-- The place behind tokens. -/
def past (c : Cursor) (ts : List Token) : Cursor := ts.foldl (fun d t => d.advance t.text.length) c

lemma past_append : c.past (ts ++ us) = (c.past ts).past us := List.foldl_append

lemma tokens_eq_nil_iff : c.tokens = [] ↔ c.rest = [] := by
  constructor
  · intro h
    by_contra hne
    rw [tokens, pieces_step (Lexer.first_pos _) hne] at h
    simp [Lexer.place] at h
  · intro h
    rw [tokens, h]
    rfl

lemma next?_eq_none (h : c.tokens = []) : c.next? = none := by
  simp [next?, tokens_eq_nil_iff.mp h]

lemma next?_of_tokens (h : c.tokens = t :: ts) :
    c.next? = some (t, c.past [t]) ∧ (c.past [t]).tokens = ts ∧ c.rest = t.text ++ (c.past [t]).rest := by
  have hne : c.rest ≠ [] := by
    intro hnil
    rw [tokens_eq_nil_iff.mpr hnil] at h
    contradiction
  have hlen : (c.rest.take (Lexer.first c.rest).2).length = (Lexer.first c.rest).2 :=
    List.length_take_of_le (Lexer.first_le hne)
  rw [tokens, pieces_step (Lexer.first_pos _) hne, Lexer.place, List.cons.injEq] at h
  obtain ⟨rfl, rfl⟩ := h
  refine ⟨?_, ?_, ?_⟩
  · simp [next?, hne, past, hlen]
  · simp [past, hlen, advance, tokens]
  · simp [past, hlen, advance]

lemma tokens_past (h : c.tokens = ts ++ us) : (c.past ts).tokens = us := by
  induction ts generalizing c with
  | nil => exact h
  | cons t ts ih => exact ih (next?_of_tokens h).2.1

lemma rest_eq (h : c.tokens = ts ++ us) : c.rest = Token.textOf ts ++ (c.past ts).rest := by
  induction ts generalizing c with
  | nil => rfl
  | cons t ts ih =>
    obtain ⟨-, hts, hrest⟩ := next?_of_tokens h
    rw [hrest, ih hts, Token.textOf_cons, List.append_assoc]
    rfl

lemma upTo_past (h : c.tokens = ts ++ us) : c.upTo (c.past ts) = Token.textOf ts := by
  have hrest := rest_eq h
  have hlen := congrArg List.length hrest
  rw [List.length_append] at hlen
  rw [upTo, left, left, hlen, Nat.add_sub_cancel, hrest, List.take_left]

def Before (c d : Cursor) : Prop := ∃ used, used ≠ [] ∧ c.rest = used ++ d.rest

lemma Before.left_lt {d : Cursor} (h : c.Before d) : d.left < c.left := by
  obtain ⟨used, hused, hrest⟩ := h
  have hlen := List.length_pos_iff.mpr hused
  rw [left, left, hrest, List.length_append]
  omega

lemma Before.of_isSuffix {d e : Cursor} (h : d.Before e) (hc : d.rest <:+ c.rest) : c.Before e := by
  obtain ⟨used, hused, hrest⟩ := h
  obtain ⟨skipped, hskipped⟩ := hc
  exact ⟨skipped ++ used, by simp [hused], by rw [← hskipped, hrest, List.append_assoc]⟩

lemma left_past_le (h : c.tokens = ts ++ us) : (c.past ts).left ≤ c.left := by
  rw [left, left, rest_eq h, List.length_append]
  omega

lemma before_past (h : c.tokens = ts ++ us) (hts : ts ≠ []) : c.Before (c.past ts) := by
  have hlt : (c.past ts).left < c.left := by
    cases ts with
    | nil => contradiction
    | cons t ts =>
      obtain ⟨hnext, hts, -⟩ := next?_of_tokens h
      exact (left_past_le hts).trans_lt (left_lt_of_next? hnext)
  refine ⟨Token.textOf ts, ?_, rest_eq h⟩
  intro hnil
  have hrest := rest_eq h
  rw [hnil, List.nil_append] at hrest
  rw [left, left, hrest] at hlt
  exact Nat.lt_irrefl _ hlt

variable {cs ds : List Component}

/-- The components from a place on. -/
def ahead (c : Cursor) : List Component := components c.tokens

/-- The place behind components. -/
def beyond (c : Cursor) (cs : List Component) : Cursor := c.past (Component.tokensOf cs)

lemma beyond_append : c.beyond (cs ++ ds) = (c.beyond cs).beyond ds := by
  rw [beyond, Component.tokensOf_append, past_append]
  rfl

lemma beyond_cons {x : Component} : c.beyond (x :: cs) = (c.beyond [x]).beyond cs := by
  rw [← List.singleton_append, beyond_append]

lemma wellNested_ahead (c : Cursor) : WellNested c.ahead := wellNested_components c.tokens

lemma tokens_of_ahead (h : c.ahead = cs) : c.tokens = Component.tokensOf cs := by
  rw [← h, ahead, tokensOf_components]

lemma tokens_of_ahead_append (h : c.ahead = cs ++ ds) :
    c.tokens = Component.tokensOf cs ++ Component.tokensOf ds := by
  rw [tokens_of_ahead h, Component.tokensOf_append]

lemma ahead_of_tokens (h : c.tokens = Component.tokensOf cs) (hcs : WellNested cs) : c.ahead = cs := by
  rw [ahead, h, hcs.components_tokensOf]

lemma ahead_beyond (h : c.ahead = cs ++ ds) : (c.beyond cs).ahead = ds := by
  have hds : WellNested ds := c.wellNested_ahead.of_isInfix ⟨cs, [], by simp [h]⟩
  exact ahead_of_tokens (tokens_past (tokens_of_ahead_append h)) hds

lemma upTo_beyond (h : c.ahead = cs ++ ds) : c.upTo (c.beyond cs) = Component.textOf cs := by
  rw [beyond, upTo_past (tokens_of_ahead_append h), Component.textOf_eq_textOf_tokensOf]

lemma before_beyond (h : c.ahead = cs ++ ds) (hcs : cs ≠ []) : c.Before (c.beyond cs) := by
  apply before_past (tokens_of_ahead_append h)
  obtain ⟨x, cs, rfl⟩ := List.exists_cons_of_ne_nil hcs
  obtain ⟨ts, hx⟩ := x.tokens_eq_head_cons
  simp [Component.tokensOf, hx]

lemma ahead_eq_nil_iff : c.ahead = [] ↔ c.rest = [] := by
  rw [← tokens_eq_nil_iff]
  constructor
  · exact tokens_of_ahead
  · intro h
    exact ahead_of_tokens h (.complete (by simp))

lemma next?_of_ahead_nil (h : c.ahead = []) : c.next? = none := next?_eq_none (tokens_of_ahead h)

lemma next?_of_ahead_cons {x : Component} (h : c.ahead = x :: cs) :
    c.next? = some (x.head, c.past [x.head]) ∧ x.Proper ∧
      ∃ ch r, c.rest = ch :: r ∧ (Lexer.first (ch :: r)).1 = x.head.kind := by
  obtain ⟨ts, hx⟩ := x.tokens_eq_head_cons
  have ht : c.tokens = x.head :: (ts ++ Component.tokensOf cs) := by
    rw [tokens_of_ahead h, Component.tokensOf, hx]
    rfl
  obtain ⟨hnext, -, -⟩ := next?_of_tokens ht
  refine ⟨hnext, c.wellNested_ahead.proper (h ▸ List.mem_cons_self), ?_⟩
  rw [next?] at hnext
  split at hnext
  next => contradiction
  next hne =>
    obtain ⟨ch, r, hr⟩ := List.exists_cons_of_ne_nil (by simpa using hne : c.rest ≠ [])
    refine ⟨ch, r, hr, ?_⟩
    rw [← hr]
    exact congrArg Token.kind (Prod.mk.inj (Option.some.inj hnext)).1

lemma position_head {x : Component} (h : c.ahead = x :: cs) : x.head.position = c.position := by
  obtain ⟨hnext, -, -⟩ := next?_of_ahead_cons h
  rw [next?] at hnext
  split at hnext
  next => contradiction
  next => exact congrArg Token.position (Prod.mk.inj (Option.some.inj hnext)).1.symm

lemma meets_eq (stops : List Delimiter) (c : Cursor) :
    c.meets stops = c.ahead.head?.any fun x => stops.any (·.isAt x) := by
  cases h : c.ahead with
  | nil => simp [meets, ahead_eq_nil_iff.mp h]
  | cons x cs =>
    obtain ⟨-, hx, ch, r, hr, hk⟩ := next?_of_ahead_cons h
    rw [Bool.eq_iff_iff]
    simp [meets, hr, hx.isAt_eq, Delimiter.char_eq_iff _ ch r, hk]

/-! Passing over what stands next. -/

lemma skip_of_none {kinds : Kind → Bool} (h : c.next? = none) : c.skip kinds = c := by
  rw [skip]
  split
  next => rfl
  next hsome => simp [h] at hsome

lemma skip_of_some {kinds : Kind → Bool} {d : Cursor} (h : c.next? = some (t, d)) :
    c.skip kinds = if kinds t.kind then d.skip kinds else c := by
  rw [skip]
  split
  next hnone => simp [h] at hnone
  next hsome =>
    rw [h, Option.some.injEq, Prod.mk.injEq] at hsome
    rw [hsome.1, hsome.2]

lemma nesting_opener {b : Bracket} (h : t.kind.opens? = some b) (bs : List Bracket) :
    nesting t bs = b :: bs := by
  simp [nesting, h]

lemma nesting_closer {b : Bracket} (h : t.kind = .closing b) (bs : List Bracket) :
    nesting t (b :: bs) = bs := by
  have hclosing : (Kind.closing b).opens? = none := rfl
  simp [nesting, h, hclosing]

lemma nesting_leaf {b : Bracket} (h : t.kind.opens? = none) (hb : t.kind ≠ .closing b)
    (bs : List Bracket) : nesting t (b :: bs) = b :: bs := by
  simp [nesting, h, hb]

lemma leave_of_none {bs : List Bracket} (h : c.next? = none) : c.leave bs = c := by
  rw [leave]
  split
  next => rfl
  next hsome => simp [h] at hsome

lemma leave_of_some {bs : List Bracket} {d : Cursor} (h : c.next? = some (t, d)) :
    c.leave bs = match nesting t bs with
      | [] => d
      | b :: bs => d.leave (b :: bs) := by
  rw [leave]
  split
  next hnone => simp [h] at hnone
  next hsome =>
    rw [h, Option.some.injEq, Prod.mk.injEq] at hsome
    obtain ⟨rfl, rfl⟩ := hsome
    rfl

lemma skip_eq {kinds : Kind → Bool} (hkinds : ∀ k, kinds k = true → k.opens? = none)
    {p : Component → Bool} (hleaf : ∀ t, p (.leaf t) = kinds t.kind)
    (hblock : ∀ o body closer, p (.block o body closer) = false) (c : Cursor) :
    c.skip kinds = c.beyond (c.ahead.takeWhile p) := by
  generalize h : c.ahead = cs
  induction cs generalizing c with
  | nil => exact skip_of_none (next?_of_ahead_nil h)
  | cons x cs ih =>
    obtain ⟨hnext, hx, -⟩ := next?_of_ahead_cons h
    rw [skip_of_some hnext]
    cases x with
    | leaf t =>
      have hd : (c.beyond [.leaf t]).ahead = cs := ahead_beyond h
      by_cases hk : kinds t.kind = true
      · rw [Component.head, if_pos hk, List.takeWhile_cons_of_pos (by rw [hleaf, hk])]
        exact (ih _ hd).trans beyond_cons.symm
      · rw [Component.head, if_neg hk, List.takeWhile_cons_of_neg (by rw [hleaf]; exact hk)]
        rfl
    | block o body closer =>
      have hk : ¬ kinds o.kind = true := by
        intro hk
        have hsome : o.kind.opens?.isSome = true := hx
        simp [hkinds _ hk] at hsome
      rw [Component.head, if_neg hk, List.takeWhile_cons_of_neg (by simp [hblock])]
      rfl

end Cursor

/-- A component is passed over while a block around it is left. -/
def Component.Passed (x : Component) : Prop :=
  ∀ {c : Cursor} {b : Bracket} (bs : List Bracket) {ts : List Token}, x.isLeaf (.closing b) = false →
    c.tokens = x.tokens ++ ts → c.leave (b :: bs) = (c.past x.tokens).leave (b :: bs)

namespace Cursor
variable {c : Cursor} {t o : Token} {b b' : Bracket} {bs : List Bracket} {ts us : List Token}
  {cs ds body : List Component}

lemma leave_beyond_of_passed (hcs : ∀ x ∈ cs, x.Passed) (hb : ∀ x ∈ cs, x.isLeaf (.closing b) = false)
    (h : c.tokens = Component.tokensOf cs ++ ts) :
    c.leave (b :: bs) = (c.beyond cs).leave (b :: bs) := by
  induction cs generalizing c with
  | nil => rfl
  | cons x cs ih =>
    rw [List.forall_mem_cons] at hcs hb
    rw [Component.tokensOf, List.append_assoc] at h
    rw [hcs.1 bs hb.1 h, ih hcs.2 hb.2 (tokens_past h), beyond, beyond, Component.tokensOf, past_append]

lemma leave_opener (ho : o.kind.opens? = some b') (h : c.tokens = o :: ts) :
    c.leave (b :: bs) = (c.past [o]).leave (b' :: b :: bs) := by
  rw [leave_of_some (next?_of_tokens h).1, nesting_opener ho]

lemma leave_closer (ht : t.kind = .closing b) (h : c.tokens = t :: ts) :
    c.leave (b :: bs) = match bs with
      | [] => c.past [t]
      | b :: bs => (c.past [t]).leave (b :: bs) := by
  rw [leave_of_some (next?_of_tokens h).1, nesting_closer ht]

end Cursor

namespace Component
open Cursor

theorem Complete.passed {x : Component} (h : x.Complete) : x.Passed := by
  induction h with
  | @leaf t ht =>
    intro c b bs ts hb hc
    have hk : t.kind ≠ .closing b := by simpa [isLeaf] using hb
    rw [leave_of_some (next?_of_tokens hc).1, nesting_leaf ht hk]
    rfl
  | @block o t b' body ho ht _ hleaf ih =>
    intro c b bs ts _ hc
    have hopen : c.tokens = [o] ++ (tokensOf body ++ t :: ts) := by simp [hc, tokens]
    have hbody := tokens_past hopen
    rw [leave_opener ho hopen, leave_beyond_of_passed ih hleaf hbody, beyond,
      leave_closer ht (tokens_past hbody)]
    simp only [tokens, Option.toList_some, ← past_append, List.cons_append, List.nil_append]

lemma CutShort.leave_eq {x : Component} (h : x.CutShort) {c : Cursor} {b : Bracket}
    (bs : List Bracket) (hc : c.tokens = x.tokens) : c.leave (b :: bs) = c.past x.tokens := by
  induction h generalizing c b bs with
  | @last o b' body ho hbody hleaf =>
    have ht : c.tokens = [o] ++ (tokensOf body ++ []) := by simp [hc, tokens]
    have hend : ((c.past [o]).beyond body).tokens = [] := tokens_past (tokens_past ht)
    rw [leave_opener ho ht, leave_beyond_of_passed (fun d hd => (hbody d hd).passed) hleaf (tokens_past ht),
      leave_of_none (next?_eq_none hend)]
    simp only [tokens, Option.toList_none, List.append_nil, beyond, ← past_append,
      List.singleton_append]
  | @inner o b' body x ho hbody hleaf _ ih =>
    have ht : c.tokens = [o] ++ (tokensOf body ++ x.tokens) := by simp [hc, tokens, tokensOf]
    have hend : ((c.past [o]).beyond body).tokens = x.tokens := tokens_past (tokens_past ht)
    rw [leave_opener ho ht, leave_beyond_of_passed (fun d hd => (hbody d hd).passed) hleaf (tokens_past ht),
      ih _ hend]
    simp only [tokens, tokensOf_append, tokensOf, Option.toList_none, List.append_nil, beyond,
      ← past_append, List.cons_append, List.nil_append]

end Component

namespace Cursor
variable {c : Cursor} {b : Bracket} {cs ds : List Component}

/-- A block is left behind its bracket, or at the end of the text. -/
theorem leave_eq (h : c.ahead = cs ++ ds) (hcs : ∀ x ∈ cs, x.isLeaf (.closing b) = false)
    (hds : ∀ x ∈ ds.head?, x.isLeaf (.closing b) = true) : c.leave [b] = c.beyond (cs ++ ds.take 1) := by
  have ht := tokens_of_ahead_append h
  have hw := c.wellNested_ahead
  rw [h] at hw
  cases ds with
  | cons x ds =>
    cases x with
    | block o body closer => simp [Component.isLeaf] at hds
    | leaf t =>
      have htk : t.kind = .closing b := by simpa [Component.isLeaf] using hds
      have hall := hw.complete_of_append (List.cons_ne_nil _ _)
      rw [leave_beyond_of_passed (fun x hx => (hall x hx).passed) hcs ht, beyond,
        leave_closer htk (tokens_past ht), beyond_append]
      rfl
  | nil =>
    rw [List.append_nil] at hw
    rw [List.take_nil, List.append_nil]
    cases hw with
    | complete hall =>
      have hend : (c.beyond cs).tokens = [] := tokens_past ht
      rw [leave_beyond_of_passed (fun x hx => (hall x hx).passed) hcs ht, leave_of_none (next?_eq_none hend)]
    | @cut es d hes hd =>
      simp only [Component.tokensOf_append, Component.tokensOf, List.append_nil] at ht
      rw [leave_beyond_of_passed (fun x hx => (hes x hx).passed)
        (fun x hx => hcs x (List.mem_append_left _ hx)) ht, beyond, hd.leave_eq _ (tokens_past ht),
        beyond_append]
      simp [beyond, Component.tokensOf]

/-- In the block that comes next stands its body, and its bracket behind, unless the text ends before. It
is left from wherever its body has been read to. -/
theorem exists_inside {o : Token} {body : List Component} {closer : Option Token}
    (h : c.ahead = .block o body closer :: cs) : ∃ b behind, o.kind.opens? = some b ∧
      (c.past [o]).ahead = body ++ behind ∧ (∀ x ∈ body, x.isLeaf (.closing b) = false) ∧
      (∀ x ∈ behind.head?, x.isLeaf (.closing b) = true) ∧
      ∀ used rest, body = used ++ rest →
        ((c.past [o]).beyond used).leave [b] = c.beyond [.block o body closer] := by
  obtain ⟨b, ho, hleaf, hbehind, hnone, hnested⟩ := (h ▸ c.wellNested_ahead).inside
  have ht : c.tokens =
      [o] ++ Component.tokensOf (body ++ (closer.toList.map Component.leaf ++ cs)) := by
    rw [tokens_of_ahead h]
    cases closer <;> simp [Component.tokensOf, Component.tokens]
  have hahead := ahead_of_tokens (tokens_past ht) hnested
  refine ⟨b, _, ho, hahead, hleaf, hbehind, ?_⟩
  rintro used rest rfl
  rw [List.append_assoc] at hahead
  have htake : (closer.toList.map Component.leaf ++ cs).take 1 = closer.toList.map Component.leaf := by
    cases closer with
    | none => simp [hnone rfl]
    | some t => rfl
  rw [leave_eq (ahead_beyond hahead) (fun x hx => hleaf x (List.mem_append_right _ hx)) hbehind, htake,
    ← beyond_append]
  cases closer <;>
    simp only [beyond, Component.tokensOf, Component.tokensOf_append, Component.tokens, ← past_append,
      Option.toList_none, Option.toList_some, List.map_cons, List.map_nil, List.append_nil,
      List.cons_append, List.nil_append, List.append_assoc]

lemma find_of_meets {stops : List Delimiter} (h : c.meets stops = true) : c.find stops = c := by
  rw [find, if_pos h]

lemma find_of_none {stops : List Delimiter} (h : c.next? = none) : c.find stops = c := by
  rw [find]
  split
  next => rfl
  next =>
    split
    next => rfl
    next hsome => simp [h] at hsome

lemma find_of_some {stops : List Delimiter} {t : Token} {d : Cursor} (hc : ¬ c.meets stops = true)
    (h : c.next? = some (t, d)) : c.find stops = match t.kind.opens? with
      | none => d.find stops
      | some b => (d.leave [b]).find stops := by
  rw [find, if_neg hc]
  split
  next hnone => simp [h] at hnone
  next hsome =>
    rw [h, Option.some.injEq, Prod.mk.injEq] at hsome
    obtain ⟨rfl, rfl⟩ := hsome
    rfl

/-- What is passed over up to a delimiter. -/
theorem find_eq (stops : List Delimiter) (c : Cursor) :
    c.find stops = c.beyond (c.ahead.takeWhile fun x => !stops.any (·.isAt x)) := by
  generalize h : c.ahead = cs
  induction cs generalizing c with
  | nil => exact find_of_none (next?_of_ahead_nil h)
  | cons x cs ih =>
    have hmeets : c.meets stops = stops.any (·.isAt x) := by simp [meets_eq, h]
    obtain ⟨hnext, hx, -⟩ := next?_of_ahead_cons h
    by_cases hs : stops.any (·.isAt x) = true
    · rw [find_of_meets (hmeets.trans hs), List.takeWhile_cons_of_neg (by simp [hs])]
      rfl
    · have hover := ih (c.beyond [x]) (ahead_beyond h)
      rw [find_of_some (by rwa [hmeets]) hnext, List.takeWhile_cons_of_pos (by simp [hs]),
        beyond_cons, ← hover]
      cases x with
      | leaf t =>
        have ht : t.kind.opens? = none := hx
        rw [Component.head, ht]
        rfl
      | block o body closer =>
        obtain ⟨b, -, ho, -, -, -, hleave⟩ := exists_inside h
        rw [Component.head, ho]
        simp only
        rw [← hleave [] body rfl]
        rfl

end Cursor
end FontSizeLint.Css

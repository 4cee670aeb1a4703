import FontSizeLint.Proofs.Css.Rules
import FontSizeLint.Proofs.Css.SourceOrder
import Mathlib.Algebra.Order.BigOperators.Group.List

/-! Reading always goes on and leaves nothing. -/
namespace FontSizeLint.Css
open Text

/-! How much is read. -/

namespace StyleRule

/-- How many rules there are, with their declarations and the parts of these. -/
def count (rs : List StyleRule) : Nat := rs.length + (positions rs).length

lemma count_append (rs us : List StyleRule) : count (rs ++ us) = count rs + count us := by
  simp only [count, positions_append, List.length_append]
  omega

end StyleRule

lemma Pending.isSome_braced?_of_next {p : Pending} {c : Component} {prelude : List Char}
    (h : p.next c = .rule prelude) : c.braced?.isSome = true := by
  have hstart : ∀ first, start first c = .rule prelude → c.braced?.isSome = true := by
    intro first hs
    cases c with
    | leaf t =>
      rw [start] at hs
      split_ifs at hs
    | block o body closer =>
      rw [start] at hs
      · split_ifs at hs with hb
        exact hb
      · simp
  cases p with
  | fresh | nothing =>
    rw [next] at h
    split_ifs at h
    exact hstart _ h
  | _ =>
    rw [next] at h
    split_ifs at h <;> assumption

lemma length_braced_lt {c : Component} (h : c.braced?.isSome = true) :
    (Component.tokensOf (c.braced?.getD [])).length < c.tokens.length := by
  cases c with
  | leaf t => simp [Component.braced?] at h
  | block o body closer =>
    have ho : (o.kind == .opening .curly) = true := by
      by_contra ho
      simp [Component.braced?, ho] at h
    simp only [Component.braced?, ho, if_true, Option.getD_some, Component.tokens, List.length_cons,
      List.length_append]
    omega

mutual
lemma count_innerRules_le : (c : Component) → StyleRule.count c.innerRules ≤ c.tokens.length
  | .leaf t => Nat.zero_le _
  | .block o body closer => by
    have hb := count_rulesFrom_le .fresh body
    simp only [Component.innerRules, Component.tokens, List.length_cons, List.length_append]
    omega
/-- There are no more rules, declarations and parts than tokens: a rule has its opening brace, a
declaration its name, and a part the token that it begins with. -/
lemma count_rulesFrom_le (p : Pending) : (cs : List Component) →
    StyleRule.count (rulesFrom p cs) ≤ (Component.tokensOf cs).length
  | [] => Nat.zero_le _
  | c :: cs => by
    have hcs := fun q => count_rulesFrom_le q cs
    have hc := count_innerRules_le c
    rw [Component.tokensOf, List.length_append, rulesFrom]
    split
    next q _ => exact (hcs q).trans (Nat.le_add_left _ _)
    next prelude hp =>
      have hrest := hcs .nothing
      have hbraced := length_braced_lt (Pending.isSome_braced?_of_next hp)
      have hds := (positions_declarations_sublist (c.braced?.getD [])).length_le
      rw [Token.positions, List.length_map] at hds
      simp only [StyleRule.count, StyleRule.positions_cons, List.length_cons, List.length_append]
        at hrest ⊢
      omega
    next =>
      rw [StyleRule.count_append]
      exact Nat.add_le_add hc (hcs .nothing)
    next => exact (hcs .nothing).trans (Nat.le_add_left _ _)
end

lemma length_tokens_le (css : List Char) : (tokens css).length ≤ css.length := by
  have hsum := congrArg List.length (tokens_flatten css)
  rw [List.length_flatten, List.map_map] at hsum
  rw [← hsum, ← List.length_map (List.length ∘ Token.text)]
  apply List.length_le_sum_of_one_le
  intro n hn
  obtain ⟨t, ht, rfl⟩ := List.mem_map.mp hn
  exact List.length_pos_iff.mpr (tokens_text_ne_nil css t ht)

lemma length_positions (ds : List Declaration) :
    (ds.flatMap Declaration.positions).length = ds.length + (ds.flatMap Declaration.parts).length := by
  induction ds with
  | nil => rfl
  | cons d ds ih =>
    simp only [List.flatMap_cons, List.length_append, List.length_cons, Declaration.positions,
      List.length_map, ih]
    omega

lemma count_ofText_le (css : List Char) : (Stylesheet.ofText css).rules.length +
    (Stylesheet.ofText css).declarations.length +
    ((Stylesheet.ofText css).declarations.flatMap Declaration.parts).length ≤ css.length := by
  have hcount := count_rulesFrom_le .fresh (components (tokens css))
  rw [tokensOf_components] at hcount
  have hle := hcount.trans (length_tokens_le css)
  have hpositions := length_positions (Stylesheet.ofText css).declarations
  change (Stylesheet.ofText css).rules.length +
    ((Stylesheet.ofText css).declarations.flatMap Declaration.positions).length ≤ css.length at hle
  omega

/-! How reading goes on. -/

/-- An iteration that ends its loop leaves nothing that could be read, and any other has read some of
the text. -/
def Round.Advances {α : Type} (p : Parser) : Round α → Prop
  | .last q => q.atEnd = true
  | .more _ q => p.cursor.Before q.cursor

namespace Parser

lemma atEnd_beyond_ahead (p : Parser) : (p.beyond p.ahead).atEnd = true := by
  rw [← settle_beyond, atEnd_settle, ahead_beyond (List.append_nil _).symm]
  rfl

lemma Proceeds.advances {α : Type} {p : Parser} {r : Option (Round α)} {last : Prop}
    {more : α → List Component → Prop} (h : Proceeds p r last more) :
    ∃ round, r = some round ∧ round.Advances p := by
  rcases h with ⟨hr, -⟩ | ⟨a, q, used, left, hr, -, -, hbefore, -⟩
  · exact ⟨_, hr, p.atEnd_beyond_ahead⟩
  · exact ⟨_, hr, hbefore⟩

lemma rest_beyond_ahead {p : Parser} (h : p.stops = []) : (p.beyond p.ahead).cursor.rest = [] := by
  have hend := p.atEnd_beyond_ahead
  have hstops : (p.beyond p.ahead).stops = [] := h
  rw [atEnd, hstops, Cursor.meets_eq] at hend
  simpa using hend

end Parser

/-- Reading goes on and ends. Whatever the text and wherever the parser, an iteration of any of the three
loops has a result, and it has read some of the text unless it is the last one, which leaves nothing. The
loops end behind all that is ahead, and read the parts of a value, the declarations of a block and rules.
A whole text is read to its end, and has no more rules, declarations and parts than characters. -/
theorem reading_progresses (css : List Char) :
    (∀ p : Parser, ∃ r, p.valueRound = some r ∧ r.Advances p) ∧
    (∀ p : Parser, ∃ r, p.bodyRound = some r ∧ r.Advances p) ∧
    (∀ (p : Parser) (n : ℕ) (first : Bool),
      ∃ r, p.ruleRound (Parser.rulesWithin (p.cursor.left + n) true) first = some r ∧ r.Advances p) ∧
    (∀ p : Parser, ∃ ms, p.loop Parser.valueRound = some (ms, p.beyond p.ahead) ∧
      Part.ofValue p.ahead = (ms.filterMap Met.part?, ms.any Met.isMark)) ∧
    (∀ p : Parser, (p.inside .curly).declarations = some (some (declarations (p.inside .curly).ahead),
      (p.inside .curly).beyond (p.inside .curly).ahead)) ∧
    (∀ (p : Parser) (first : Bool),
      p.rules first = some (some (rulesFrom (.before first) p.ahead), p.beyond p.ahead)) ∧
    (∃ q, (Parser.start css).rules true = some (some (Stylesheet.ofText css).rules, q) ∧
      q.cursor.rest = []) ∧
    (Stylesheet.ofText css).rules.length + (Stylesheet.ofText css).declarations.length +
      ((Stylesheet.ofText css).declarations.flatMap Declaration.parts).length ≤ css.length := by
  refine ⟨?_, ?_, ?_, ?_, ?_, ?_, ?_, count_ofText_le css⟩
  · exact fun p => p.valueRound_proceeds.advances
  · exact fun p => p.bodyRound_proceeds.advances
  · intro p n first
    have hgroup : ∀ q : Parser, p.cursor.Before q.cursor →
        Parser.ReadsRules (Parser.rulesWithin (p.cursor.left + n) true) q :=
      fun q hq => Parser.rulesWithin_reads (hq.left_lt.trans_le (Nat.le_add_right _ _))
    exact (p.ruleRound_proceeds first hgroup).advances
  · exact fun p => p.loop_valueRound
  · exact fun p => Parser.declarations_reads List.mem_cons_self
  · exact fun p first => p.rules_eq first
  · refine ⟨_, ?_, Parser.rest_beyond_ahead (p := .start css) rfl⟩
    rw [Parser.rules_eq, Parser.ahead_start]
    rfl

end FontSizeLint.Css

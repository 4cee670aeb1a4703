import FontSizeLint.Proofs.Css.Nesting
import FontSizeLint.Proofs.Css.Splice

/-! At-rules that group rules are transparent. A rule says the same wherever it stands, alone, between
other rules or within groups at any depth: a style sheet of groups and rules has the rules that these
have one by one, in order. -/
namespace FontSizeLint.Css
open Text

/-- Whether the first component with a property is the last of all. -/
def endsFirst (p : Component → Bool) : List Component → Bool
  | [] => false
  | c :: cs => if p c then cs.isEmpty else endsFirst p cs

lemma exists_of_endsFirst {p : Component → Bool} {cs : List Component} (h : endsFirst p cs = true) :
    ∃ ds d, cs = ds ++ [d] ∧ p d = true := by
  induction cs with
  | nil => simp [endsFirst] at h
  | cons c cs ih =>
    rw [endsFirst] at h
    split_ifs at h with hc
    · exact ⟨[], c, by rw [List.isEmpty_iff.mp h, List.nil_append], hc⟩
    · obtain ⟨ds, d, rfl, hd⟩ := ih h
      exact ⟨c :: ds, d, rfl, hd⟩

lemma endsFirst_concat {p : Component → Bool} {cs : List Component} {d : Component}
    (hcs : ∀ c ∈ cs, p c = false) (hd : p d = true) : endsFirst p (cs ++ [d]) = true := by
  induction cs with
  | nil => simp [endsFirst, hd]
  | cons c cs ih =>
    rw [List.forall_mem_cons] at hcs
    simp [endsFirst, hcs.1, ih hcs.2]

/-- A semicolon or a block in braces, which end an at-rule. -/
def endsAtRule (c : Component) : Bool := c.isLeaf .semicolon || c.braced?.isSome

/-- An at-rule up to its own end. The one that names the encoding counts only where a text begins, and
is none of these. -/
def isAtRule : List Component → Bool
  | .leaf t :: cs => t.kind == .atKeyword && t.key != "charset".toList && endsFirst endsAtRule cs
  | _ => false

/-- A selector, or whatever is no at-rule, and its block. -/
def isQualifiedRule (cs : List Component) : Bool :=
  !cs.head?.any (Component.isLeaf .atKeyword) && endsFirst (fun c => c.braced?.isSome) cs

def isRule (cs : List Component) : Bool :=
  let rule := cs.dropWhile isBetweenRules
  isAtRule rule || isQualifiedRule rule

lemma rulesFrom_reading {p q : Pending} {c : Component} (h : p.next c = .reading q)
    (cs : List Component) : rulesFrom p (c :: cs) = rulesFrom q cs := by
  rw [rulesFrom, h]

lemma rulesFrom_cons_of_end {p : Pending} {c : Component} (h : ∀ q, p.next c ≠ .reading q)
    (cs : List Component) : rulesFrom p (c :: cs) = rulesFrom p [c] ++ rulesFrom .nothing cs := by
  rw [rulesFrom, rulesFrom]
  cases hn : p.next c with
  | reading q => exact absurd hn (h q)
  | rule prelude => rfl
  | group => simp [rulesFrom]
  | dropped => rfl

/-- The last component ends what is pending, and no other does. -/
def Completes (p : Pending) : List Component → Prop
  | [] => False
  | c :: cs => (∃ q, p.next c = .reading q ∧ Completes q cs) ∨ (∀ q, p.next c ≠ .reading q) ∧ cs = []

lemma Completes.rulesFrom_append {p : Pending} {cs : List Component} (h : Completes p cs)
    (ds : List Component) : rulesFrom p (cs ++ ds) = rulesFrom p cs ++ rulesFrom .nothing ds := by
  induction cs generalizing p with
  | nil => exact h.elim
  | cons c cs ih =>
    rcases h with ⟨q, hq, h⟩ | ⟨hend, rfl⟩
    · rw [List.cons_append, rulesFrom_reading hq, rulesFrom_reading hq, ih h]
    · exact rulesFrom_cons_of_end hend ds

lemma completes_atRule {cs : List Component} (h : endsFirst endsAtRule cs = true)
    (name : List Char) (prelude : List Component) : Completes (.atRule name prelude) cs := by
  induction cs generalizing prelude with
  | nil => simp [endsFirst] at h
  | cons c cs ih =>
    rw [endsFirst] at h
    split_ifs at h with hc
    · refine .inr ⟨fun q => ?_, List.isEmpty_iff.mp h⟩
      simp only [endsAtRule, Bool.or_eq_true] at hc
      rw [Pending.next]
      split_ifs <;> simp_all
    · simp only [endsAtRule, Bool.or_eq_true, not_or] at hc
      exact .inl ⟨_, by rw [Pending.next, if_neg hc.1, if_neg hc.2], ih h _⟩

lemma completes_qualified {cs : List Component} (h : endsFirst (fun c => c.braced?.isSome) cs = true)
    (prelude : List Component) : Completes (.qualified prelude) cs := by
  induction cs generalizing prelude with
  | nil => simp [endsFirst] at h
  | cons c cs ih =>
    rw [endsFirst] at h
    split_ifs at h with hc
    · refine .inr ⟨fun q => ?_, List.isEmpty_iff.mp h⟩
      rw [Pending.next, if_pos hc]
      split_ifs <;> simp
    · exact .inl ⟨_, by rw [Pending.next, if_neg hc], ih h _⟩

namespace Pending

/-- No rule has been begun. -/
def isIdle : Pending → Bool
  | fresh => true
  | nothing => true
  | _ => false

lemma next_of_isBetweenRules {p : Pending} (hp : p.isIdle = true) {c : Component}
    (hc : isBetweenRules c = true) : p.next c = .reading p := by
  cases p <;> first | exact Bool.noConfusion hp | rw [next, if_pos hc]

lemma start_atKeyword {t : Token} (ht : t.kind = .atKeyword) (hkey : t.key ≠ "charset".toList)
    (first : Bool) : start first (.leaf t) = .reading (.atRule t.key []) := by
  rw [start, if_pos (by simp [ht]), if_neg (by simpa using fun _ => hkey)]

lemma start_of_not_atKeyword {c : Component} (h : c.isLeaf .atKeyword = false) (first : Bool) :
    start first c = if c.braced?.isSome then .rule [] else .reading (.qualified [c]) := by
  cases c with
  | leaf t =>
    rw [Component.isLeaf] at h
    simp [start, h, Component.braced?]
  | block o body closer => rfl

lemma exists_next_eq_start {p : Pending} (hp : p.isIdle = true) {c : Component}
    (hc : ¬ isBetweenRules c = true) : ∃ first, p.next c = start first c := by
  cases p with
  | fresh => exact ⟨true, by rw [next, if_neg hc]⟩
  | nothing => exact ⟨false, by rw [next, if_neg hc]⟩
  | _ => exact Bool.noConfusion hp

end Pending

lemma exists_start_of_isRule {c : Component} {cs : List Component} (hc : ¬ isBetweenRules c = true)
    (h : isRule (c :: cs) = true) : ∃ begun, (∀ first, Pending.start first c = begun) ∧
      ∀ p : Pending, p.next c = begun → Completes p (c :: cs) := by
  simp only [isRule, List.dropWhile_cons_of_neg hc, Bool.or_eq_true] at h
  rcases h with h | h
  · cases c with
    | block o body closer => simp [isAtRule] at h
    | leaf t =>
      simp only [isAtRule, Bool.and_eq_true, beq_iff_eq, bne_iff_ne] at h
      exact ⟨_, Pending.start_atKeyword h.1.1 h.1.2,
        fun p hp => .inl ⟨_, hp, completes_atRule h.2 _ _⟩⟩
  · simp only [isQualifiedRule, List.head?_cons, Option.any_some, Bool.and_eq_true,
      Bool.not_eq_true', endsFirst] at h
    refine ⟨_, Pending.start_of_not_atKeyword h.1, fun p hp => ?_⟩
    by_cases hb : c.braced?.isSome = true
    · rw [if_pos hb] at hp h
      exact .inr ⟨fun q => by simp [hp], List.isEmpty_iff.mp h.2⟩
    · rw [if_neg hb] at hp h
      exact .inl ⟨_, hp, completes_qualified h.2 _⟩

/-- A rule says the same at the beginning of a text and behind other rules, and what follows it is
read for itself. -/
theorem rulesFrom_append_of_isRule {cs : List Component} (h : isRule cs = true) {p : Pending}
    (hp : p.isIdle = true) (ds : List Component) :
    rulesFrom p (cs ++ ds) = rulesFrom .fresh cs ++ rulesFrom .nothing ds := by
  induction cs with
  | nil => simp [isRule, isAtRule, isQualifiedRule, endsFirst] at h
  | cons c cs ih =>
    by_cases hc : isBetweenRules c = true
    · have hcs : isRule cs = true := by
        rwa [isRule, List.dropWhile_cons_of_pos hc] at h
      rw [List.cons_append, rulesFrom_reading (Pending.next_of_isBetweenRules hp hc),
        rulesFrom_reading (Pending.next_of_isBetweenRules rfl hc), ih hcs]
    · obtain ⟨begun, hbegun, hcompletes⟩ := exists_start_of_isRule hc h
      have hnext : ∀ q : Pending, q.isIdle = true → q.next c = begun := by
        intro q hq
        obtain ⟨first, hf⟩ := Pending.exists_next_eq_start hq hc
        rw [hf, hbegun]
      rw [(hcompletes p (hnext p hp)).rulesFrom_append, rulesFrom, rulesFrom, hnext p hp,
        hnext .fresh rfl]

lemma rulesFrom_atRule_group {name : List Char} (hname : groupNames.contains name = true)
    {cs : List Component} (hcs : ∀ c ∈ cs, endsAtRule c = false) {d : Component}
    (hd : d.braced?.isSome = true) (prelude : List Component) :
    rulesFrom (.atRule name prelude) (cs ++ [d]) = d.innerRules := by
  induction cs generalizing prelude with
  | nil =>
    have hleaf : ¬ d.isLeaf .semicolon = true := by
      cases d <;> simp_all [Component.braced?, Component.isLeaf]
    rw [List.nil_append, rulesFrom, Pending.next, if_neg hleaf, if_pos hd, if_pos hname]
    simp [rulesFrom]
  | cons c cs ih =>
    rw [List.forall_mem_cons] at hcs
    obtain ⟨hc, hcs⟩ := hcs
    simp only [endsAtRule, Bool.or_eq_false_iff] at hc
    rw [List.cons_append, rulesFrom_reading (q := .atRule name (prelude ++ [c])) _, ih hcs]
    simp [Pending.next, hc]

/-- The text keeps to itself: no block of it is cut short, and no brace of it would end a block around
it. -/
def Contained (s : List Char) : Prop :=
  ∀ c ∈ components (bareTokens s), c.isUnclosed = false ∧ c.isLeaf (.closing .curly) = false

instance (s : List Char) : Decidable (Contained s) :=
  inferInstanceAs (Decidable (∀ c ∈ components (bareTokens s), _ ∧ _))

lemma Contained.closed {s : List Char} (h : Contained s) : Closed (bareTokens s) :=
  fun c hc => (h c hc).1

/-- One rule and nothing behind it. -/
structure IsRuleText (s : List Char) : Prop where
  isRule : isRule (components (bareTokens s)) = true
  contained : Contained s

lemma exists_of_isRule {cs : List Component} (h : isRule cs = true) :
    ∃ ds d, cs = ds ++ [d] ∧ endsAtRule d = true := by
  have hrule : ∃ ds d, cs.dropWhile isBetweenRules = ds ++ [d] ∧ endsAtRule d = true := by
    simp only [isRule, Bool.or_eq_true] at h
    generalize cs.dropWhile isBetweenRules = rule at h
    rcases h with h | h
    · cases rule with
      | nil => simp [isAtRule] at h
      | cons c rest =>
        cases c with
        | block o body closer => simp [isAtRule] at h
        | leaf t =>
          simp only [isAtRule, Bool.and_eq_true] at h
          obtain ⟨ds, d, rfl, hd⟩ := exists_of_endsFirst h.2
          exact ⟨.leaf t :: ds, d, rfl, hd⟩
    · simp only [isQualifiedRule, Bool.and_eq_true] at h
      obtain ⟨ds, d, hds, hd⟩ := exists_of_endsFirst h.2
      exact ⟨ds, d, hds, by rw [endsAtRule, hd, Bool.or_true]⟩
  obtain ⟨ds, d, hds, hd⟩ := hrule
  refine ⟨cs.takeWhile isBetweenRules ++ ds, d, ?_, hd⟩
  rw [List.append_assoc, ← hds, List.takeWhile_append_dropWhile]

lemma exists_getLast?_tokens {c : Component} (hend : endsAtRule c = true)
    (hu : c.isUnclosed = false) (hp : c.isPaired = true) :
    ∃ t, c.tokens.getLast? = some t ∧ t.kind.isStop = true := by
  match c, hu with
  | .leaf t, _ =>
    have ht : t.kind = .semicolon := by
      simpa [endsAtRule, Component.isLeaf, Component.braced?] using hend
    exact ⟨t, rfl, by rw [ht]; rfl⟩
  | .block o body (some t), _ =>
    have ho : o.kind = .opening .curly := by
      simpa [endsAtRule, Component.isLeaf, Component.braced?] using hend
    have ht : t.kind = .closing .curly := by
      simpa [Component.isPaired, ho, Kind.opens?] using hp
    refine ⟨t, ?_, by rw [ht]; rfl⟩
    rw [Component.tokens, Option.toList_some, ← List.cons_append, List.getLast?_concat]

lemma IsRuleText.ends {s : List Char} (h : IsRuleText s) : Ends s := by
  obtain ⟨ds, d, hds, hd⟩ := exists_of_isRule h.isRule
  have hmem : d ∈ components (bareTokens s) := by simp [hds]
  obtain ⟨t, ht, hk⟩ := exists_getLast?_tokens hd (h.contained d hmem).1
    (h.contained.closed.isPaired d hmem)
  apply ends_of_getLast? _ hk
  rw [← tokensOf_components (bareTokens s), hds, Component.tokensOf_append, Component.tokensOf,
    Component.tokensOf, List.append_nil, List.getLast?_append, ht]
  rfl

lemma isAlpha_of_isAlpha_toLower {c : Char} (h : c.toLower.isAlpha = true) : c.isAlpha = true := by
  by_cases hu : c.isUpper = true
  · change (c.isUpper || c.isLower) = true
    rw [hu, Bool.true_or]
  · have hrange : ¬ (c.val ≥ 'A'.val ∧ c.val ≤ 'Z'.val) := fun hr => hu (decide_eq_true hr)
    have hc : c.toLower = c := dif_neg hrange
    rwa [hc] at h

lemma isAlpha_of_contains_lower {name : List Char} (h : groupNames.contains (lower name) = true) :
    ∀ c ∈ name, c.isAlpha = true := by
  have hall : (groupNames.all fun g => g.all Char.isAlpha) = true := by decide
  have hname := List.all_eq_true.mp hall _ (List.contains_iff_mem.mp h)
  intro c hc
  exact isAlpha_of_isAlpha_toLower (List.all_eq_true.mp hname _ (List.mem_map_of_mem hc))

lemma unescape_of_isAlpha {s : List Char} (h : ∀ c ∈ s, c.isAlpha = true) : unescape 0 s = s := by
  induction s with
  | nil => rfl
  | cons c s ih =>
    rw [List.forall_mem_cons] at h
    have hb : c ≠ '\\' := by
      rintro rfl
      exact absurd h.1 (by decide)
    have hz : c ≠ '\x00' := by
      rintro rfl
      exact absurd h.1 (by decide)
    simp [unescape, hb, hz, ih h.2]

/-- What stands before the block of an at-rule that groups rules. The prelude leaves nothing open, and
neither ends the at-rule nor a block around it. -/
structure GroupHeader where
  name : List Char
  prelude : List Char
  isGroup : groupNames.contains (lower name) = true
  settled : ∀ t ∈ (bareTokens prelude).getLast?, t.isOpen = false
  contained : Contained prelude
  continues : ∀ c ∈ components (bareTokens prelude), endsAtRule c = false

namespace GroupHeader

def text (h : GroupHeader) : List Char := '@' :: h.name ++ ' ' :: h.prelude

def keyword (h : GroupHeader) : Token := ⟨.atKeyword, '@' :: h.name, .start⟩

lemma key_keyword (h : GroupHeader) : h.keyword.key = lower h.name :=
  congrArg lower (unescape_of_isAlpha (isAlpha_of_contains_lower h.isGroup))

lemma contains_key_keyword (h : GroupHeader) : groupNames.contains h.keyword.key = true := by
  rw [key_keyword]
  exact h.isGroup

lemma key_keyword_ne (h : GroupHeader) : h.keyword.key ≠ "charset".toList := by
  intro hk
  have hc := h.contains_key_keyword
  rw [hk] at hc
  exact absurd hc (by decide)

lemma not_isBetweenRules (h : GroupHeader) : ¬ isBetweenRules (.leaf h.keyword) = true := by
  simp [isBetweenRules, Component.isTrivia, Component.isLeaf, keyword, Kind.isTrivia]

lemma forall_components_space (h : GroupHeader) {P : Component → Prop}
    (hspace : ∀ t : Token, t.kind = .whitespace → P (.leaf t))
    (hprelude : ∀ c ∈ components (bareTokens h.prelude), P c) :
    ∀ c ∈ components (bareTokens (' ' :: h.prelude)), P c := by
  obtain ⟨w, ts, hw, -, hts, hp⟩ := bareTokens_space h.prelude
  rw [hts, components_cons (by rw [hw]; rfl), List.forall_mem_cons]
  refine ⟨hspace w hw, ?_⟩
  rcases hp with rfl | ⟨v, hv, hp⟩
  · exact hprelude
  · rw [hp, components_cons (by rw [hv]; rfl), List.forall_mem_cons] at hprelude
    exact hprelude.2

lemma continues_space (h : GroupHeader) :
    ∀ c ∈ components (bareTokens (' ' :: h.prelude)), endsAtRule c = false :=
  h.forall_components_space
    (fun t ht => by simp [endsAtRule, Component.isLeaf, Component.braced?, ht]) h.continues

lemma isOpen_space (h : GroupHeader) :
    ∀ t ∈ (bareTokens (' ' :: h.prelude)).getLast?, t.isOpen = false := by
  obtain ⟨w, ts, -, hw, hts, hp⟩ := bareTokens_space h.prelude
  have hlast : (bareTokens (' ' :: h.prelude)).getLast? = some w ∨
      (bareTokens (' ' :: h.prelude)).getLast? = (bareTokens h.prelude).getLast? := by
    rcases List.eq_nil_or_concat' ts with rfl | ⟨us, u, rfl⟩
    · exact .inl (by rw [hts]; rfl)
    · right
      rcases hp with hp | ⟨v, -, hp⟩ <;> rw [hts, hp] <;> simp [List.getLast?_cons]
  intro t ht
  rcases hlast with hl | hl
  · rw [hl] at ht
    cases ht
    exact hw
  · exact h.settled t (hl ▸ ht)

lemma bareTokens_text_append (h : GroupHeader) (r : List Char) :
    bareTokens (h.text ++ '{' :: r) =
      h.keyword :: (bareTokens (' ' :: h.prelude) ++ stopToken '{' :: bareTokens r) := by
  have hne : h.name ≠ [] := by
    intro hn
    have hg := h.isGroup
    rw [hn] at hg
    exact absurd hg (by decide)
  have htext : h.text ++ '{' :: r = '@' :: h.name ++ ' ' :: (h.prelude ++ '{' :: r) := by
    simp [text]
  rw [htext, bareTokens_atKeyword hne (isAlpha_of_contains_lower h.isGroup), ← List.cons_append,
    bareTokens_append_of_not_isOpen rfl h.isOpen_space]
  rfl

lemma components_group (h : GroupHeader) {body : List Char} (hends : Ends body)
    (hbody : Contained body) : components (bareTokens (h.text ++ '{' :: (body ++ ['}']))) =
      .leaf h.keyword :: (components (bareTokens (' ' :: h.prelude)) ++
        [.block (stopToken '{') (components (bareTokens body)) (some (stopToken '}'))]) := by
  have hspace : Closed (bareTokens (' ' :: h.prelude)) :=
    h.forall_components_space (fun _ _ => rfl) h.contained.closed
  have hblock := components_block (o := stopToken '{') (c := stopToken '}') rfl rfl hbody.closed
    fun d hd => (hbody d hd).2
  rw [bareTokens_text_append, hends, bareTokens_stop (c := '}') rfl, bareTokens_nil,
    components_cons rfl, components_append hspace, hblock]

lemma isRuleText_group (h : GroupHeader) {body : List Char} (hends : Ends body)
    (hbody : Contained body) : IsRuleText (h.text ++ '{' :: (body ++ ['}'])) := by
  have hcontained := h.forall_components_space
    (P := fun c => c.isUnclosed = false ∧ c.isLeaf (.closing .curly) = false)
    (fun t ht => by simp [Component.isUnclosed, Component.isLeaf, ht]) h.contained
  constructor
  · have hend := endsFirst_concat h.continues_space
      (d := .block (stopToken '{') (components (bareTokens body)) (some (stopToken '}'))) rfl
    rw [h.components_group hends hbody, isRule, List.dropWhile_cons_of_neg h.not_isBetweenRules]
    simp only [isAtRule, hend, Bool.and_true, Bool.or_eq_true, Bool.and_eq_true, beq_iff_eq,
      bne_iff_ne]
    exact .inl ⟨rfl, h.key_keyword_ne⟩
  · rw [Contained, h.components_group hends hbody, List.forall_mem_cons]
    refine ⟨⟨rfl, rfl⟩, fun c hc => ?_⟩
    rcases List.mem_append.mp hc with hc | hc
    · exact hcontained c hc
    · rw [List.mem_singleton.mp hc]
      exact ⟨rfl, rfl⟩

lemma rulesFrom_group (h : GroupHeader) {body : List Char} (hends : Ends body)
    (hbody : Contained body) :
    rulesFrom .fresh (components (bareTokens (h.text ++ '{' :: (body ++ ['}'])))) =
      rulesFrom .fresh (components (bareTokens body)) := by
  have hstart : Pending.fresh.next (.leaf h.keyword) = .reading (.atRule h.keyword.key []) := by
    rw [Pending.next, if_neg h.not_isBetweenRules, Pending.start_atKeyword rfl h.key_keyword_ne]
  rw [h.components_group hends hbody, rulesFrom_reading hstart,
    rulesFrom_atRule_group h.contains_key_keyword h.continues_space rfl]
  rfl

end GroupHeader

lemma contained_nil : Contained [] := by decide

lemma Contained.append {s t : List Char} (hends : Ends s) (hs : Contained s) (ht : Contained t) :
    Contained (s ++ t) := by
  intro c hc
  rw [hends, components_append hs.closed] at hc
  rcases List.mem_append.mp hc with hc | hc
  · exact hs c hc
  · exact ht c hc

/-- A rule as written, complete. -/
structure RuleText where
  text : List Char
  isRuleText : IsRuleText text

/-- Rules, and groups of them at any depth. -/
inductive RuleTree
  | rule (rule : RuleText)
  | group (header : GroupHeader) (children : List RuleTree)

namespace RuleTree

mutual
def text : RuleTree → List Char
  | rule r => r.text
  | group h ts => h.text ++ '{' :: (textOf ts ++ ['}'])
def textOf : List RuleTree → List Char
  | [] => []
  | t :: ts => t.text ++ textOf ts
end

mutual
def leaves : RuleTree → List RuleText
  | rule r => [r]
  | group _ ts => leavesOf ts
def leavesOf : List RuleTree → List RuleText
  | [] => []
  | t :: ts => t.leaves ++ leavesOf ts
end

mutual
lemma isRuleText : (t : RuleTree) → IsRuleText t.text
  | rule r => r.isRuleText
  | group h ts => h.isRuleText_group (ends_textOf ts) (contained_textOf ts)
lemma ends_textOf : (ts : List RuleTree) → Ends (textOf ts)
  | [] => ends_nil
  | t :: ts => t.isRuleText.ends.append (ends_textOf ts)
lemma contained_textOf : (ts : List RuleTree) → Contained (textOf ts)
  | [] => contained_nil
  | t :: ts => .append t.isRuleText.ends t.isRuleText.contained (contained_textOf ts)
end

mutual
lemma rules_text : (t : RuleTree) →
    rulesFrom .fresh (components (bareTokens t.text)) =
      t.leaves.flatMap fun l => rulesFrom .fresh (components (bareTokens l.text))
  | rule r => by simp [text, leaves]
  | group h ts => by
    have hts := rules_textOf ts (p := .fresh) rfl
    rw [text, leaves, ← hts]
    exact h.rulesFrom_group (ends_textOf ts) (contained_textOf ts)
lemma rules_textOf : (ts : List RuleTree) → ∀ {p : Pending}, p.isIdle = true →
    rulesFrom p (components (bareTokens (textOf ts))) =
      (leavesOf ts).flatMap fun l => rulesFrom .fresh (components (bareTokens l.text))
  | [], p, _ => by rfl
  | t :: ts, p, hp => by
    have ht := rules_text t
    have hts := rules_textOf ts (p := .nothing) rfl
    rw [textOf, leavesOf, List.flatMap_append, ← ht, ← hts, t.isRuleText.ends,
      components_append t.isRuleText.contained.closed,
      rulesFrom_append_of_isRule t.isRuleText.isRule hp]
end

end RuleTree

/-- The rules of groups and rules written one behind the other are those of the rules, each written
alone, in order. Only the positions differ. -/
theorem grouping_transparent (ts : List RuleTree) :
    (Stylesheet.ofText (RuleTree.textOf ts)).rules.map StyleRule.unplaced =
      (RuleTree.leavesOf ts).flatMap fun l =>
        (Stylesheet.ofText l.text).rules.map StyleRule.unplaced := by
  simp only [rules_unplaced]
  exact RuleTree.rules_textOf ts rfl

theorem grouping_transparent_nested : ∃ ts : List RuleTree,
    RuleTree.textOf ts = "@MEDIA (a) b{@layer {c{d:e}@import f;} @font-face{g:h}}i{}".toList ∧
    (RuleTree.leavesOf ts).map RuleText.text =
      ["c{d:e}", "@import f;", " @font-face{g:h}", "i{}"].map String.toList ∧
    (Stylesheet.ofText (RuleTree.textOf ts)).rules.map StyleRule.prelude = ["c", "@font-face", "i"] ∧
    (Stylesheet.ofText (RuleTree.textOf ts)).rules.map StyleRule.unplaced =
      (RuleTree.leavesOf ts).flatMap fun l =>
        (Stylesheet.ofText l.text).rules.map StyleRule.unplaced := by
  have hc : IsRuleText "c{d:e}".toList := ⟨by decide +kernel, by decide +kernel⟩
  have hf : IsRuleText "@import f;".toList := ⟨by decide +kernel, by decide +kernel⟩
  have hg : IsRuleText " @font-face{g:h}".toList := ⟨by decide +kernel, by decide +kernel⟩
  have hi : IsRuleText "i{}".toList := ⟨by decide +kernel, by decide +kernel⟩
  let media : GroupHeader := ⟨"MEDIA".toList, "(a) b".toList, by decide +kernel, by decide +kernel,
    by decide +kernel, by decide +kernel⟩
  let layer : GroupHeader := ⟨"layer".toList, [], by decide +kernel, by decide +kernel,
    by decide +kernel, by decide +kernel⟩
  let ts : List RuleTree :=
    [.group media [.group layer [.rule ⟨_, hc⟩, .rule ⟨_, hf⟩], .rule ⟨_, hg⟩], .rule ⟨_, hi⟩]
  have htext : RuleTree.textOf ts =
      "@MEDIA (a) b{@layer {c{d:e}@import f;} @font-face{g:h}}i{}".toList := rfl
  refine ⟨ts, htext, rfl, ?_, grouping_transparent ts⟩
  rw [htext]
  decide +kernel

end FontSizeLint.Css

import FontSizeLint.Proofs.Lint.Violations
import FontSizeLint.Proofs.Session.History

/-! What a declaration sets off in a session, whatever happened before: every rule reports the parts
below its minimum to its own list, warns of those that its source has no line for, and every probe sees
the declaration once. -/
namespace FontSizeLint
open Text Css Numeric

namespace Rule

/-- The part has a number, and that is less than the minimum. -/
def isBelow (r : Rule) (p : Part) : Bool := p.value.any fun m => m.lt r.minimum.toSingle

def isOnSource (r : Rule) (p : Part) : Bool :=
  1 ≤ p.position.line && p.position.line ≤ (lines r.source.toList).length

/-- The records that a rule owes to a declaration. -/
def recordsFor (r : Rule) (d : Declaration) : List Record :=
  if d.name = "font-size" then
    (d.parts.filter fun p => r.isBelow p && r.isOnSource p).map r.report
  else []

/-- The warnings that a rule owes to a declaration. -/
def warningsFor (r : Rule) (d : Declaration) : List Notice :=
  if d.name = "font-size" then
    (d.parts.filter fun p => r.isBelow p && !r.isOnSource p).map fun p =>
      .offSource r.name p.position.line p.text
  else []

lemma isSome_line? (r : Rule) (p : Part) :
    (r.line? p.position.line).isSome = r.isOnSource p := by
  unfold isOnSource line?
  cases p.position.line with
  | zero => rfl
  | succ n =>
    rw [Bool.eq_iff_iff, Text.line?, isSome_getElem?]
    simp only [decide_eq_true_eq, Bool.and_eq_true]
    omega

lemma inspect_eq (r : Rule) (p : Part) : r.inspect p =
    if r.isBelow p then
      if r.isOnSource p then some (.violation (r.report p))
      else some (.offSource p.position.line p.text)
    else none := by
  rw [← isSome_line?]
  cases hl : r.line? p.position.line with
  | some l => rw [inspect_of_line hl]; rfl
  | none => cases hv : p.value <;> simp [inspect, isBelow, hl, hv, Threshold.violatedBy]

end Rule

namespace Effect

def warning? : Effect → Option Notice
  | .notice n => if n.level = .warn then some n else none
  | _ => none

/-- What a probe has seen, with the tag of the probe. -/
def sighting? : Effect → Option (String × Declaration)
  | .sighting tag d => some (tag, d)
  | _ => none

end Effect

namespace Listener

def rule? : Listener → Option Rule
  | .rule r _ => some r
  | .probe _ => none

def ruleOn? (list : Nat) : Listener → Option Rule
  | .rule r l => if l = list then some r else none
  | .probe _ => none

def tag? : Listener → Option String
  | .rule _ _ => none
  | .probe tag => some tag

lemma filterMap_hear_rule {α : Type} (f : Effect → Option α) (r : Rule) (list : Nat)
    (d : Declaration) : ((Listener.rule r list).hear d).filterMap f =
      if d.name = "font-size" then
        d.parts.filterMap fun p =>
          if r.isBelow p then
            if r.isOnSource p then f (.collect list (r.report p))
            else f (.notice (.offSource r.name p.position.line p.text))
          else none
      else [] := by
  rw [hear, Rule.findings, Rule.property]
  split_ifs with hd
  · rw [List.map_filterMap, List.filterMap_filterMap]
    congr 1
    funext p
    rw [Rule.inspect_eq]
    split_ifs <;> rfl
  · rfl

lemma filterMap_eq_map_filter {α β : Type} (p : α → Bool) (f : α → β) (l : List α) :
    l.filterMap (fun a => if p a then some (f a) else none) = (l.filter p).map f := by
  rw [← List.filterMap_eq_map', List.filterMap_filter]

lemma filterMap_record?_hear (list : Nat) (d : Declaration) (l : Listener) :
    (l.hear d).filterMap (Effect.record? list) =
      (l.ruleOn? list).toList.flatMap fun r => r.recordsFor d := by
  cases l with
  | probe tag => rfl
  | rule r i =>
    rw [filterMap_hear_rule]
    by_cases hi : i = list
    · subst i
      have hp : ∀ p, (if r.isBelow p then
          if r.isOnSource p then Effect.record? list (.collect list (r.report p))
          else Effect.record? list (.notice (.offSource r.name p.position.line p.text))
        else none) = if r.isBelow p && r.isOnSource p then some (r.report p) else none := by
        intro p
        cases r.isBelow p <;> cases r.isOnSource p <;> simp [Effect.record?]
      simp only [hp, filterMap_eq_map_filter, ruleOn?, if_true, Option.toList_some,
        List.flatMap_singleton, Rule.recordsFor]
    · simp [Effect.record?, ruleOn?, hi]

lemma filterMap_warning?_hear (d : Declaration) (l : Listener) :
    (l.hear d).filterMap Effect.warning? = l.rule?.toList.flatMap fun r => r.warningsFor d := by
  cases l with
  | probe tag => rfl
  | rule r i =>
    have hp : ∀ p, (if r.isBelow p then
        if r.isOnSource p then Effect.warning? (.collect i (r.report p))
        else Effect.warning? (.notice (.offSource r.name p.position.line p.text))
      else none) = if r.isBelow p && !r.isOnSource p then
        some (.offSource r.name p.position.line p.text) else none := by
      intro p
      cases r.isBelow p <;> cases r.isOnSource p <;> rfl
    rw [filterMap_hear_rule]
    simp only [hp, filterMap_eq_map_filter, rule?, Option.toList_some, List.flatMap_singleton,
      Rule.warningsFor]

lemma filterMap_sighting?_hear (d : Declaration) (l : Listener) :
    (l.hear d).filterMap Effect.sighting? = l.tag?.toList.map fun tag => (tag, d) := by
  cases l with
  | probe tag => rfl
  | rule r i =>
    rw [filterMap_hear_rule]
    simp [Effect.sighting?, tag?]

end Listener

namespace Session

/-- The rules in the order of their registration. -/
def rules (s : Session) : List Rule := s.listeners.filterMap Listener.rule?

/-- The rules that collect into a list, in the order of their registration. -/
def rulesOn (s : Session) (list : Nat) : List Rule := s.listeners.filterMap (Listener.ruleOn? list)

def probes (s : Session) : List String := s.listeners.filterMap Listener.tag?

/-- The records that the rules on a list owe to declarations: for each declaration in turn those of
each rule in turn. -/
def recordsFor (s : Session) (list : Nat) (ds : List Declaration) : List Record :=
  ds.flatMap fun d => (s.rulesOn list).flatMap fun r => r.recordsFor d

lemma filterMap_record?_hear (s : Session) (list : Nat) (d : Declaration) :
    (s.hear d).filterMap (Effect.record? list) =
      (s.rulesOn list).flatMap fun r => r.recordsFor d := by
  rw [hear, List.filterMap_flatMap, rulesOn, List.filterMap_eq_flatMap_toList, List.flatMap_assoc]
  exact List.flatMap_congr fun l _ => l.filterMap_record?_hear list d

lemma filterMap_warning?_hear (s : Session) (d : Declaration) :
    (s.hear d).filterMap Effect.warning? = s.rules.flatMap fun r => r.warningsFor d := by
  rw [hear, List.filterMap_flatMap, rules, List.filterMap_eq_flatMap_toList, List.flatMap_assoc]
  exact List.flatMap_congr fun l _ => l.filterMap_warning?_hear d

lemma filterMap_sighting?_hear (s : Session) (d : Declaration) :
    (s.hear d).filterMap Effect.sighting? = s.probes.map fun tag => (tag, d) := by
  rw [hear, List.filterMap_flatMap, probes, List.filterMap_eq_flatMap_toList, List.map_flatMap]
  exact List.flatMap_congr fun l _ => l.filterMap_sighting?_hear d

end Session

/-- An outcome in which declarations have been delivered to every listener, and nothing else has
happened. -/
structure Delivers (s : Session) (ds : List Declaration) (o : Outcome) : Prop where
  records : ∀ list < s.lists.length,
    o.session.records list = s.records list ++ s.recordsFor list ds
  warnings : o.effects.filterMap Effect.warning? =
    ds.flatMap fun d => s.rules.flatMap fun r => r.warningsFor d
  sightings : o.effects.filterMap Effect.sighting? =
    ds.flatMap fun d => s.probes.map fun tag => (tag, d)
  listeners : o.session.listeners = s.listeners
  names : o.session.names = s.names
  lists : o.session.lists.length = s.lists.length

namespace Session

lemma delivers_perform {s : Session} {ds : List Declaration} {es : List Effect} (reply : Reply)
    (h : ∀ {α : Type} (f : Effect → Option α), (∀ n, n.level ≠ .warn → f (.notice n) = none) →
      es.filterMap f = ds.flatMap fun d => (s.hear d).filterMap f) :
    Delivers s ds (s.perform reply es) := by
  have hframe := frame_foldl_apply es s
  refine ⟨?_, ?_, ?_, hframe.2.1, hframe.1, hframe.2.2⟩
  · intro list hl
    have hr := h (Effect.record? list) (fun _ _ => rfl)
    simp only [filterMap_record?_hear] at hr
    rw [perform, records_foldl_apply es s list hl, hr, recordsFor]
  · have hw := h Effect.warning? (fun n hn => if_neg hn)
    simp only [filterMap_warning?_hear] at hw
    exact hw
  · have ht := h Effect.sighting? (fun _ _ => rfl)
    simp only [filterMap_sighting?_hear] at ht
    exact ht

lemma delivers_fire (s : Session) (d : Declaration) : Delivers s [d] (s.step (.fire d)) :=
  delivers_perform _ fun _ _ => by rw [List.flatMap_singleton]

lemma delivers_parse (s : Session) (css : String) :
    Delivers s (Stylesheet.ofText css.toList).declarations (s.step (.parse css)) :=
  delivers_perform _ fun _ hf => filterMap_walk hf s _

end Session

/-- Whatever steps led to a session, firing a declaration delivers it, and parsing a style sheet
delivers its declarations in source order and answers how many they are. No rule reports to a list
that there is not. -/
theorem dispatch_exact (xs : List Step) (d : Declaration) (css : String) :
    let s := Session.empty.after xs
    let sheet := Stylesheet.ofText css.toList
    Delivers s [d] (s.step (.fire d)) ∧
    Delivers s sheet.declarations (s.step (.parse css)) ∧
    (s.step (.parse css)).reply = .count sheet.declarations.length ∧
    ∀ r list, .rule r list ∈ s.listeners → list < s.lists.length := by
  intro s sheet
  exact ⟨s.delivers_fire d, s.delivers_parse css, rfl, (Session.sound_empty.after xs).rules⟩

end FontSizeLint

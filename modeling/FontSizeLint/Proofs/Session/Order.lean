import FontSizeLint.Proofs.Css.SourceOrder
import FontSizeLint.Proofs.Session.Dispatch
import Mathlib.Data.List.Flatten

/-! The order of the records that a rule collects from one style sheet. It is that of the parts
reported, so their positions increase strictly, whatever other rules collect into the same list. -/
namespace FontSizeLint
open Text Css

/-- Where the part stands that a record is about. -/
def Record.position (r : Record) : Position := ⟨r.line, r.col⟩

/-- The records that a listener puts into a list when it hears of declarations in turn. -/
def Listener.collected (l : Listener) (list : Nat) (ds : List Declaration) : List Record :=
  (ds.flatMap fun d => l.hear d).filterMap (Effect.record? list)

namespace Rule

lemma positions_recordsFor_sublist (r : Rule) (d : Declaration) :
    ((r.recordsFor d).map Record.position).Sublist d.positions := by
  unfold recordsFor
  split_ifs with h
  · rw [List.map_map]
    exact (List.filter_sublist.map _).trans (List.sublist_cons_self _ _)
  · exact List.nil_sublist _

end Rule

namespace Listener

lemma collected_rule (r : Rule) (list : Nat) (ds : List Declaration) :
    (Listener.rule r list).collected list ds = ds.flatMap r.recordsFor := by
  rw [collected, List.filterMap_flatMap]
  apply List.flatMap_congr
  intro d _
  rw [filterMap_record?_hear]
  simp [ruleOn?]

lemma positions_collected_sublist (r : Rule) (list : Nat) (ds : List Declaration) :
    (((Listener.rule r list).collected list ds).map Record.position).Sublist
      (ds.flatMap Declaration.positions) := by
  rw [collected_rule, List.map_flatMap]
  exact List.Sublist.flatMap_right ds fun d _ => r.positions_recordsFor_sublist d

end Listener

lemma Session.collected_sublist_recordsFor {s : Session} {r : Rule} {list : Nat}
    (h : .rule r list ∈ s.listeners) (ds : List Declaration) :
    ((Listener.rule r list).collected list ds).Sublist (s.recordsFor list ds) := by
  have hr : r ∈ s.rulesOn list := List.mem_filterMap.mpr ⟨_, h, by simp [Listener.ruleOn?]⟩
  rw [Listener.collected_rule, recordsFor]
  apply List.Sublist.flatMap_right
  intro d _
  have hd := (List.singleton_sublist.mpr hr).flatMap fun r => r.recordsFor d
  rwa [List.flatMap_singleton] at hd

/-- Source order is strict. The positions of the declarations of a style sheet, each with its parts
behind it, increase strictly. Whatever steps led to a session, the records that one of its rules adds
to a list for a style sheet are in strict source order too, so that none is for a part reported
already. -/
theorem source_order_strict (css : String) :
    (Stylesheet.ofText css.toList).positions.Pairwise Position.Before ∧
    ∀ (xs : List Step) (r : Rule) (list : Nat), .rule r list ∈ (Session.empty.after xs).listeners →
      let s := Session.empty.after xs
      let collected :=
        (Listener.rule r list).collected list (Stylesheet.ofText css.toList).declarations
      (∃ added, (s.step (.parse css)).session.records list = s.records list ++ added ∧
        collected.Sublist added) ∧
      (collected.map Record.position).Pairwise Position.Before ∧
      (collected.map Record.position).Nodup := by
  have hp := pairwise_positions css.toList
  refine ⟨hp, ?_⟩
  intro xs r list h s collected
  have ho : (collected.map Record.position).Pairwise Position.Before :=
    List.Pairwise.sublist (Listener.positions_collected_sublist r list _) hp
  refine ⟨⟨_, ?_, Session.collected_sublist_recordsFor h _⟩, ho, ho.imp Position.Before.ne⟩
  exact (s.delivers_parse css).records list ((Session.sound_empty.after xs).rules r list h)

/-- Two rules on one list, and font sizes at two depths and on two lines. -/
theorem source_order_strict_nested :
    let css := "a\x7bfont-size:1px 2px\x7d@media x\x7b@layer y\x7bb\x7bfont-size:\n3px\x7d\x7d\x7d"
    let t : Threshold := ⟨⟨0x41400000, by decide⟩, by decide⟩
    let xs : List Step := [.create "sizes" [], .register "sizes" "first" css (some t),
      .register "sizes" "second" css (some t)]
    let collected := (Listener.rule ⟨"second", css, t⟩ 0).collected 0
      (Stylesheet.ofText css.toList).declarations
    (Session.empty.after xs).listeners =
      [.rule ⟨"first", css, t⟩ 0, .rule ⟨"second", css, t⟩ 0] ∧
    collected.map Record.position = [⟨1, 13⟩, ⟨1, 17⟩, ⟨2, 1⟩] ∧
    (collected.map Record.position).Pairwise Position.Before := by
  intro css t xs collected
  have hl : (Session.empty.after xs).listeners =
      [.rule ⟨"first", css, t⟩ 0, .rule ⟨"second", css, t⟩ 0] := rfl
  have hr : .rule ⟨"second", css, t⟩ 0 ∈ (Session.empty.after xs).listeners := by
    rw [hl]
    exact List.mem_cons_of_mem _ List.mem_cons_self
  refine ⟨hl, by decide +kernel, ?_⟩
  exact ((source_order_strict css).2 xs ⟨"second", css, t⟩ 0 hr).2.1

end FontSizeLint

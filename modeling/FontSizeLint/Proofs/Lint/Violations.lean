import FontSizeLint.Proofs.Css.Position
import FontSizeLint.Proofs.Session.Effects
import Mathlib.Data.List.Forall2

/-! What checking a style sheet against itself reports: each part of a font size below the minimum
once, in source order, with the line it stands on. -/
namespace FontSizeLint
open Text Css Numeric

/-- The parts of font sizes that are less than a minimum, in source order. -/
def violations (css : List Char) (minimum : Threshold) : List Part :=
  ((Stylesheet.ofText css).declarations.filter fun d => d.name == "font-size").flatMap fun d =>
    d.parts.filter fun p => p.value.any fun m => m.lt minimum.toSingle

namespace Rule

/-- The record for a part on the line that its position names. -/
def report (r : Rule) (p : Part) : Record := r.record p ((r.line? p.position.line).getD [])

lemma inspect_of_line {r : Rule} {p : Part} {l : List Char} (h : r.line? p.position.line = some l) :
    r.inspect p =
      if p.value.any fun m => m.lt r.minimum.toSingle then some (.violation (r.report p)) else none := by
  unfold inspect
  cases hv : p.value with
  | none => simp
  | some m => simp [h, report, Threshold.violatedBy]

lemma exists_line_of_inspect {r : Rule} {p : Part} {x : Record}
    (h : r.inspect p = some (.violation x)) :
    ∃ line, r.line? p.position.line = some line ∧ x = r.record p line := by
  unfold inspect at h
  split at h
  · simp at h
  · split_ifs at h
    split at h
    · rename_i line hline
      exact ⟨line, hline, by simpa using h.symm⟩
    · simp at h

lemma inspect_of_value_eq_none {r : Rule} {p : Part} (h : p.value = none) : r.inspect p = none := by
  simp [inspect, h]

lemma findings_eq {r : Rule} {d : Declaration}
    (h : ∀ p ∈ d.parts, p.value.isSome → (r.line? p.position.line).isSome) :
    r.findings d = if d.name = "font-size" then
      (d.parts.filter fun p => p.value.any fun m => m.lt r.minimum.toSingle).map
        (fun p => .violation (r.report p)) else [] := by
  have hi : ∀ p ∈ d.parts, r.inspect p =
      if p.value.any fun m => m.lt r.minimum.toSingle then some (.violation (r.report p)) else none := by
    intro p hp
    cases hv : p.value with
    | none => rw [inspect_of_value_eq_none hv]; rfl
    | some m =>
      obtain ⟨l, hl⟩ := Option.isSome_iff_exists.mp (h p hp (by simp [hv]))
      rw [inspect_of_line hl, hv]
  unfold findings property
  rw [List.filterMap_congr hi, ← List.filterMap_eq_map', List.filterMap_filter]

end Rule

/-- The session in which a style sheet is checked, its rule being registered. -/
def checking (css name : String) (minimum : Option Threshold) : Session :=
  ⟨[[]], [("", 0)], (minimum.map fun t => Listener.rule ⟨name, css, t⟩ 0).toList⟩

lemma lint_eq (css name : String) (value : Json) :
    let s := checking css name (Threshold.ofJson? value)
    let effects := s.walk (Stylesheet.ofText css.toList)
    (lint css name value).listeners = s.listeners.length ∧
    (lint css name value).records = (effects.foldl Session.apply s).records 0 ∧
    ∃ n, n.level = .debug ∧
      (lint css name value).notices = n :: effects.filterMap Effect.notice? := by
  cases h : Threshold.ofJson? value with
  | none =>
    refine ⟨?_, ?_, .disabled name, rfl, ?_⟩ <;>
      simp [lint, checking, h, Session.step, Session.empty, Session.bind, Session.withList,
        Session.list?, Session.register, Session.perform, Session.visit, Session.apply,
        Effect.notice?]
  | some t =>
    refine ⟨?_, ?_, .enabled name t, rfl, ?_⟩ <;>
      simp [lint, checking, h, Session.step, Session.empty, Session.bind, Session.withList,
        Session.list?, Session.register, Session.perform, Session.visit, Session.apply,
        Effect.notice?]

lemma isSome_line?_of_mem {css : List Char} {d : Declaration} {p : Part}
    (hd : d ∈ (Stylesheet.ofText css).declarations) (hp : p ∈ d.parts) (hv : p.value.isSome) :
    (line? css p.position.line).isSome := by
  obtain ⟨c, hc, rfl⟩ := (readFrom_of_mem_stylesheet hd).exists_component hp
  obtain ⟨o, ha, -⟩ := Part.exists_at_of_isSome hc hv
  have hm : (Part.ofComponent c).position.Marks css o := ha.marks
  rw [hm.content]
  rfl

lemma hear_checking {css name : String} {t : Threshold} {d : Declaration}
    (hd : d ∈ (Stylesheet.ofText css.toList).declarations) :
    (checking css name (some t)).hear d = if d.name = "font-size" then
      (d.parts.filter fun p => p.value.any fun m => m.lt t.toSingle).map
        (fun p => .collect 0 (Rule.report ⟨name, css, t⟩ p)) else [] := by
  have hf := Rule.findings_eq (r := ⟨name, css, t⟩) (d := d)
    (fun p hp hv => isSome_line?_of_mem hd hp hv)
  simp only [Session.hear, checking, Option.map_some, Option.toList_some, List.flatMap_cons,
    List.flatMap_nil, List.append_nil, Listener.hear, hf]
  split_ifs <;> simp

lemma flatMap_filter {α β : Type} (p : α → Bool) (f : α → List β) (l : List α) :
    (l.filter p).flatMap f = l.flatMap fun a => if p a then f a else [] := by
  induction l with
  | nil => rfl
  | cons a l ih => by_cases ha : p a = true <;> simp [ha, ih]

/-- The records are those of the violations, in order. -/
theorem lint_records_eq (css name : String) {value : Json} {t : Threshold}
    (h : Threshold.ofJson? value = some t) :
    (lint css name value).records =
      (violations css.toList t).map (Rule.report ⟨name, css, t⟩) := by
  rw [(lint_eq css name value).2.1, h, Session.records_foldl_apply _ _ _ (by simp [checking]),
    Session.filterMap_record?_walk]
  have hd : ∀ d ∈ (Stylesheet.ofText css.toList).declarations,
      ((checking css name (some t)).hear d).filterMap (Effect.record? 0) =
        if d.name = "font-size" then
          (d.parts.filter fun p => p.value.any fun m => m.lt t.toSingle).map
            (Rule.report ⟨name, css, t⟩) else [] := by
    intro d hd
    rw [hear_checking hd]
    split_ifs
    · rw [List.filterMap_map, ← List.filterMap_eq_map]; rfl
    · rfl
  rw [List.flatMap_congr hd, violations, flatMap_filter, List.map_flatMap]
  simp only [Session.records, checking, List.getElem?_cons_zero, Option.getD_some, List.nil_append,
    beq_iff_eq]
  apply List.flatMap_congr
  intro d _
  split_ifs <;> rfl

lemma lint_records_eq_nil (css name : String) {value : Json} (h : Threshold.ofJson? value = none) :
    (lint css name value).records = [] := by
  rw [(lint_eq css name value).2.1, h, Session.records_foldl_apply _ _ _ (by simp [checking]),
    Session.filterMap_record?_walk]
  simp [checking, Session.hear, Session.records]

lemma level_of_mem_notices (css name : String) (value : Json) :
    ∀ n ∈ (lint css name value).notices, n.level ≠ .warn := by
  obtain ⟨-, -, n₀, hn₀, hns⟩ := lint_eq css name value
  intro n hn
  rw [hns] at hn
  rcases List.mem_cons.mp hn with rfl | hn
  · simp [hn₀]
  obtain ⟨e, he, hen⟩ := List.mem_filterMap.mp hn
  have hne : e = .notice n := by
    cases e <;> simp_all [Effect.notice?]
  subst e
  rcases Session.level_of_mem_walk he with h | ⟨d, hd, h⟩
  · exact h
  · exfalso
    cases ht : Threshold.ofJson? value with
    | none => simp [ht, checking, Session.hear] at h
    | some t =>
      rw [ht, hear_checking hd] at h
      split_ifs at h <;> simp at h

lemma exists_declaration_of_mem_violations {css : List Char} {t : Threshold} {p : Part}
    (h : p ∈ violations css t) :
    ∃ d ∈ (Stylesheet.ofText css).declarations, p ∈ d.parts ∧
      (p.value.any fun m => m.lt t.toSingle) = true ∧ p.value.isSome := by
  obtain ⟨d, hd, hp⟩ := List.mem_flatMap.mp h
  obtain ⟨hp, hany⟩ := List.mem_filter.mp hp
  exact ⟨d, List.mem_of_mem_filter hd, hp, hany, Option.isSome_of_any hany⟩

lemma inspect_of_mem_violations {r : Rule} {p : Part} (h : p ∈ violations r.source.toList r.minimum) :
    r.inspect p = some (.violation (r.report p)) := by
  obtain ⟨d, hd, hp, hany, hv⟩ := exists_declaration_of_mem_violations h
  obtain ⟨l, hl⟩ := Option.isSome_iff_exists.mp (isSome_line?_of_mem hd hp hv)
  rw [Rule.inspect_of_line (r := r) hl, if_pos hany]

lemma exists_offset_of_mem_violations {css : List Char} {t : Threshold} {p : Part}
    (h : p ∈ violations css t) : ∃ o, p.position.Marks css o ∧ p.text.toList <+: css.drop o ∧
      ∃ x r, p.text.toList = x :: r ∧ Lexer.isNumberHead x = true := by
  obtain ⟨d, hd, hp, -, hv⟩ := exists_declaration_of_mem_violations h
  obtain ⟨c, hc, rfl⟩ := (readFrom_of_mem_stylesheet hd).exists_component hp
  obtain ⟨o, ha, ht, hx⟩ := Part.exists_at_of_isSome hc hv
  exact ⟨o, ha.marks, ht, hx⟩

/-- What a record says of a part: the rule, the position, and the line around the place where the
part stands, with the complaint behind it. -/
structure Reports (css name : String) (t : Threshold) (p : Part) (r : Record) : Prop where
  ruleName : r.ruleName = name
  line : r.line = p.position.line
  col : r.col = p.position.col
  message : ∃ o, p.position.Marks css.toList o ∧ p.text.toList <+: css.toList.drop o ∧
    p.text ≠ "" ∧ r.message = "`" ++ String.ofList (lineAround css.toList o) ++ "` " ++
      "font-size should not be less than " ++ String.ofList t.text ++ "px"

lemma report_eq {r : Rule} {p : Part} {o : Nat} (h : p.position.Marks r.source.toList o) :
    r.report p = r.record p (lineAround r.source.toList o) := by
  have hl : r.line? p.position.line = some (lineAround r.source.toList o) := h.content
  rw [Rule.report, hl, Option.getD_some]

lemma complaint_eq (line minimum : List Char) :
    Rule.complaint line
      ("font-size should not be less than ".toList ++ minimum ++ "px".toList) =
    "`" ++ String.ofList line ++ "` " ++ "font-size should not be less than " ++
      String.ofList minimum ++ "px" := by
  have hq : "`".toList = ['`'] := by simp
  have hb : "` ".toList = ['`', ' '] := by simp
  apply String.toList_inj.mp
  simp only [Rule.complaint, String.toList_append, String.toList_ofList, hq, hb, List.append_assoc,
    List.cons_append, List.nil_append]

lemma message_report {r : Rule} {p : Part} {o : Nat} (h : p.position.Marks r.source.toList o) :
    (r.report p).message = "`" ++ String.ofList (lineAround r.source.toList o) ++ "` " ++
      "font-size should not be less than " ++ String.ofList r.minimum.text ++ "px" :=
  calc (r.report p).message
      = Rule.complaint (lineAround r.source.toList o) r.stem := by rw [report_eq h, Rule.record]
    _ = _ := complaint_eq _ _

lemma reports_report {css name : String} {t : Threshold} {p : Part}
    (hp : p ∈ violations css.toList t) : Reports css name t p (Rule.report ⟨name, css, t⟩ p) := by
  obtain ⟨o, hm, ht, x, u, hx, -⟩ := exists_offset_of_mem_violations hp
  have hne : p.text ≠ "" := by
    intro he
    simp [he] at hx
  exact ⟨rfl, rfl, rfl, o, hm, ht, hne, message_report (r := ⟨name, css, t⟩) hm⟩

/-- Checking a style sheet against itself reports each violation once, in source order, and never
misses the line of one. A value that is no threshold makes the check report nothing. -/
theorem lint_reports_violations (css name : String) (value : Json) :
    (match Threshold.ofJson? value with
      | some t => (lint css name value).listeners = 1 ∧
        List.Forall₂ (Reports css name t) (violations css.toList t) (lint css name value).records
      | none => (lint css name value).listeners = 0 ∧ (lint css name value).records = []) ∧
    ∀ n ∈ (lint css name value).notices, n.level ≠ .warn := by
  refine ⟨?_, level_of_mem_notices css name value⟩
  cases h : Threshold.ofJson? value with
  | none =>
    constructor
    · rw [(lint_eq css name value).1, h]; rfl
    · exact lint_records_eq_nil css name h
  | some t =>
    constructor
    · rw [(lint_eq css name value).1, h]; rfl
    · rw [lint_records_eq css name h, List.forall₂_map_right_iff, List.forall₂_same]
      exact fun p hp => reports_report hp

end FontSizeLint

import FontSizeLint.Proofs.Text.Lines
import FontSizeLint.Proofs.Threshold.Printed

/-! Reports as lines of text. Each record is one line with a feed behind, since the line of the source
that it quotes is one line, and colours, numbers and words have no breaks. -/
namespace FontSizeLint
open Text Css

namespace Rule

lemma unbroken_stem (r : Rule) : Unbroken r.stem := by
  have hnumber : Unbroken r.minimum.text := by
    obtain ⟨whole, fraction, htext⟩ := r.minimum.exists_text_eq
    have hpoint : isBreak '.' = false := by decide
    cases fraction <;>
      simp [htext, Numeric.fractionText, hpoint, unbroken_of_isDigit Numeric.isDigit_of_mem_digitsText]
  have hstem : r.stem =
    "font-size should not be less than ".toList ++ r.minimum.text ++ "px".toList := rfl
  rw [hstem]
  exact unbroken_append.mpr ⟨unbroken_append.mpr ⟨by decide, hnumber⟩, by decide⟩

lemma unbroken_complaint {line stem : List Char} (hl : Unbroken line) (hs : Unbroken stem) :
    Unbroken (complaint line stem).toList := by
  have hmark : isBreak '`' = false ∧ isBreak ' ' = false := by decide
  simp [complaint, hl, hs, hmark]

lemma unbroken_report (r : Rule) (p : Part) :
    Unbroken (r.report p).message.toList ∧ Unbroken (r.report p).colorMessage.toList := by
  have hline : Unbroken ((r.line? p.position.line).getD []) := by
    cases hl : r.line? p.position.line with
    | none => exact unbroken_nil
    | some l => exact unbroken_of_line? hl
  have hmuted : Unbroken (muted r.stem) := by
    rw [muted, unbroken_append, unbroken_append]
    exact ⟨⟨by decide, r.unbroken_stem⟩, by decide⟩
  exact ⟨unbroken_complaint hline r.unbroken_stem,
    unbroken_complaint (unbroken_highlight hline _ _) hmuted⟩

end Rule

namespace Report

lemma toList_line (color : Bool) (r : Record) :
    (line color r).toList = (row color r).toList ++ ['\n'] := by
  have hfeed : "\n".toList = ['\n'] := by decide
  rw [line, String.toList_append]
  exact congrArg ((row color r).toList ++ ·) hfeed

lemma toList_render (color : Bool) (rs : List Record) :
    (render color rs).toList = (rs.map fun r => (row color r).toList).flatMap (· ++ ['\n']) := by
  rw [render, String.toList_join, List.flatMap_map, List.flatMap_map]
  exact List.flatMap_congr fun r _ => toList_line color r

lemma render_singleton (color : Bool) (r : Record) : render color [r] = row color r ++ "\n" := by
  rw [render, List.map_singleton, line, String.join, List.foldl_cons, List.foldl_nil,
    String.empty_append]

/-- None of the texts of a record has a break in it. -/
structure OneLine (r : Record) : Prop where
  ruleName : Unbroken r.ruleName.toList
  message : Unbroken r.message.toList
  colorMessage : Unbroken r.colorMessage.toList

lemma OneLine.unbroken_row {r : Record} (h : OneLine r) (color : Bool) :
    Unbroken (row color r).toList := by
  have hmessage : Unbroken (if color then r.colorMessage else r.message).toList := by
    split_ifs
    · exact h.colorMessage
    · exact h.message
  have hwords : Unbroken "    line ".toList ∧ Unbroken ", col ".toList ∧ Unbroken ": ".toList ∧
      Unbroken " (".toList ∧ Unbroken ")".toList := by decide
  obtain ⟨hline, hcol, hcolon, hopen, hclose⟩ := hwords
  -- Unfolded by hand, as the equation of `row` takes long to derive.
  have hrow : row color r = "    line " ++ toString r.line ++ ", col " ++ toString r.col ++ ": " ++
    (if color then r.colorMessage else r.message) ++ " (" ++ r.ruleName ++ ")" := rfl
  rw [hrow]
  simp only [String.toList_append, unbroken_append]
  exact ⟨⟨⟨⟨⟨⟨⟨⟨hline, unbroken_toString _⟩, hcol⟩, unbroken_toString _⟩, hcolon⟩, hmessage⟩, hopen⟩,
    h.ruleName⟩, hclose⟩

end Report

lemma oneLine_of_mem_records {css name : String} {value : Json} (hname : Unbroken name.toList) :
    ∀ r ∈ (lint css name value).records, Report.OneLine r ∧ r.ruleName = name := by
  cases h : Threshold.ofJson? value with
  | none => simp [lint_records_eq_nil css name h]
  | some t =>
    rw [lint_records_eq css name h]
    refine List.forall_mem_map.mpr fun p _ => ?_
    obtain ⟨hmessage, hcolor⟩ := Rule.unbroken_report ⟨name, css, t⟩ p
    exact ⟨⟨hname, hmessage, hcolor⟩, rfl⟩

/-- A report on a style sheet, with or without colours, has as many feeds as records and no other
breaks. Its lines are the rows of the records in their order, a row being the report of its record
alone, which names the line, the column and the rule. -/
theorem report_line_per_record (css : String) {name : String} (value : Json) (color : Bool)
    (hname : ∀ c ∈ name.toList, isBreak c = false) :
    let rs := (lint css name value).records
    let report := (Report.render color rs).toList
    report.count '\n' = rs.length ∧ '\r' ∉ report ∧ '\x0c' ∉ report ∧
    lines report = rs.map (fun r => (Report.row color r).toList) ++ [[]] ∧
    ∀ r ∈ rs, r.ruleName = name ∧ Report.render color [r] = Report.row color r ++ "\n" ∧
      Report.row color r = "    line " ++ toString r.line ++ ", col " ++ toString r.col ++ ": " ++
        (if color then r.colorMessage else r.message) ++ " (" ++ name ++ ")" := by
  intro rs report
  have hrs : ∀ r ∈ rs, Report.OneLine r ∧ r.ruleName = name := oneLine_of_mem_records hname
  have hrows : ∀ row ∈ rs.map fun r => (Report.row color r).toList, Unbroken row :=
    List.forall_mem_map.mpr fun r hr => (hrs r hr).1.unbroken_row color
  have hreport : report = (rs.map fun r => (Report.row color r).toList).flatMap (· ++ ['\n']) :=
    Report.toList_render color rs
  rw [hreport]
  refine ⟨?_, fun hc => ?_, fun hc => ?_, lines_flatMap_feed hrows, fun r hr => ?_⟩
  · rw [count_flatMap_feed hrows, List.length_map]
  · exact absurd (eq_feed_of_mem_flatMap hrows hc rfl) (by decide)
  · exact absurd (eq_feed_of_mem_flatMap hrows hc rfl) (by decide)
  · obtain ⟨-, hrule⟩ := hrs r hr
    exact ⟨hrule, Report.render_singleton color r, hrule ▸ rfl⟩

/-- A report in colours on two sizes, with breaks of several kinds between them and in a comment. -/
theorem report_line_per_record_breaks :
    let css := "a\x7bfont-size:9px;\r\n\x0cfont-size:8px/*\n*/\x7d"
    let rs := (lint css "sizes" (.string "12")).records
    let report := (Report.render true rs).toList
    (∀ c ∈ "sizes".toList, isBreak c = false) ∧ (rs.map fun r => (r.line, r.col)) = [(1, 13), (3, 11)] ∧
    report.count '\n' = 2 ∧ '\r' ∉ report ∧ '\x0c' ∉ report ∧
    lines report = rs.map (fun r => (Report.row true r).toList) ++ [[]] := by
  intro css rs report
  have hname : Unbroken "sizes".toList := by decide
  have hpositions : (rs.map fun r => (r.line, r.col)) = [(1, 13), (3, 11)] := by decide +kernel
  obtain ⟨hcount, hreturn, hform, hlines, -⟩ :=
    report_line_per_record css (.string "12") true hname
  have hlength : rs.length = 2 := by
    have h := congrArg List.length hpositions
    rwa [List.length_map] at h
  exact ⟨hname, hpositions, hcount.trans hlength, hreturn, hform, hlines⟩

end FontSizeLint

import FontSizeLint.Proofs.Css.SpelledSheet
import FontSizeLint.Proofs.Lint.Highlight
import FontSizeLint.Proofs.Session.Order
import FontSizeLint.Proofs.Text.BreakStyle
import FontSizeLint.Proofs.Text.Highlight

/-! Checking a style sheet in another spelling. Neither the case of its letters nor the style of its line
breaks changes what is found or where; the breaks do not even change the records. -/
namespace FontSizeLint
open Text Css List

lemma violations_alike {L : Likeness} {css css' : List Char}
    (h : Forall₂ (StyleRule.Alike L) (Stylesheet.ofText css).rules (Stylesheet.ofText css').rules)
    (t : Threshold) : Forall₂ (Part.Alike L) (violations css t) (violations css' t) := by
  have hd : Forall₂ (Declaration.Alike L) (Stylesheet.ofText css).declarations
      (Stylesheet.ofText css').declarations := rel_flatMap h fun _ _ hr => hr.declarations
  apply rel_flatMap (R := Declaration.Alike L)
  · apply rel_filter _ hd
    intro d d' hd
    simp [hd.name]
  · intro d d' hd
    apply rel_filter _ hd.parts
    intro p p' hp
    simp [hp.value]

section LetterCase

/-- Texts that differ in the case of their letters. -/
def letterCase : Likeness :=
  .ofSpelling .lowerCase (fun s s' => s' = lower s) (fun s _ => Spelling.spell_lowerCase s) <| by
    intro name s hn _
    have hempty : (lower s).isEmpty = s.isEmpty := List.isEmpty_map
    have hn : name.map Char.toLower = name := hn
    rw [Spelling.spell_lowerCase, atHeader, atHeader, hempty]
    split_ifs
    · simp [lower, hn]
    · simp [lower, hn]

lemma rules_lower (css : List Char) : Forall₂ (StyleRule.Alike letterCase)
    (Stylesheet.ofText css).rules (Stylesheet.ofText (lower css)).rules := by
  rw [← Spelling.spell_lowerCase]
  apply rules_alike
  exact tokens_alike (fun s hs => ⟨hs, rfl⟩) (fun _ => rfl) (Spelling.admits_lowerCase css)

/-- The case of letters does not matter. The style sheet of a text in lower case is that of the text with
its texts in lower case, and the same places are reported in both. -/
theorem letter_case_immaterial (css : List Char) :
    Stylesheet.ofText (lower css) = (Stylesheet.ofText css).mapText lower ∧
    ∀ (name : String) (value : Json),
      (lint (String.ofList (lower css)) name value).records.map Record.position =
        (lint (String.ofList css) name value).records.map Record.position := by
  have halike := rules_lower css
  constructor
  · have htext : ∀ s s', letterCase.text s s' → lower s = id s' := by
      rintro s s' ⟨-, rfl⟩
      exact (Spelling.spell_lowerCase s).symm
    rw [Stylesheet.mapText_eq_of_alike htext (fun _ _ h => h.symm) (fun _ _ h => h) halike,
      Stylesheet.mapText_id]
  · intro name value
    cases hv : Threshold.ofJson? value with
    | none => rw [lint_records_eq_nil _ _ hv, lint_records_eq_nil _ _ hv]
    | some t =>
      rw [lint_records_eq _ _ hv, lint_records_eq _ _ hv, List.map_map, List.map_map,
        String.toList_ofList, String.toList_ofList]
      exact (map_eq_map_of_forall₂ (violations_alike halike t) fun p p' hp => hp.position).symm

end LetterCase

section LineBreaks

/-- Texts that differ in the style of their breaks. -/
def breakStyle (style : BreakStyle) : Likeness :=
  .ofSpelling (.breaksAs style) (fun s s' => feedBreaks s = feedBreaks s')
    (fun s hs => by
      have hs := Spelling.admits_breaksAs.mp hs
      rw [Spelling.spell_breaksAs, feedBreaks_rewrite style hs, feedBreaks_eq_self hs])
    (fun name s _ hs => by
      have hadm := Spelling.admits_breaksAs.mp hs
      have hempty : (style.rewrite s).isEmpty = s.isEmpty := by
        rw [Bool.eq_iff_iff, List.isEmpty_iff, List.isEmpty_iff]
        exact Spelling.spell_eq_nil (w := .breaksAs style)
      have hspace : ∀ t, feedBreaks (' ' :: t) = ' ' :: feedBreaks t :=
        fun t => feedBreaks_cons (by simp)
      rw [Spelling.spell_breaksAs, atHeader, atHeader, hempty]
      split_ifs
      · rfl
      · rw [feedBreaks_append_cons (by decide), feedBreaks_append_cons (by decide), hspace, hspace,
          feedBreaks_rewrite style hadm, feedBreaks_eq_self hadm])

lemma rules_rewrite (style : BreakStyle) {css : List Char} (h : OnlyFeeds css) :
    Forall₂ (StyleRule.Alike (breakStyle style)) (Stylesheet.ofText css).rules
      (Stylesheet.ofText (style.rewrite css)).rules := by
  rw [← Spelling.spell_breaksAs]
  apply rules_alike
  exact tokens_alike (fun s hs => ⟨hs, rfl⟩) (fun _ => rfl) (Spelling.admits_breaksAs.mpr h)

lemma highlight_congr_of_le {line : List Char} {start n m : Nat} (hn : line.length ≤ start + n)
    (hm : line.length ≤ start + m) : highlight line start n = highlight line start m := by
  rw [highlight_eq, highlight_eq, Nat.min_eq_right hn, Nat.min_eq_right hm]

lemma length_lineAround_le {s t : List Char} {o : Nat} (ht : t <+: s.drop o)
    (hb : ¬ ∀ c ∈ t, isBreak c = false) :
    (lineAround s o).length ≤ width (lastLine (s.take o)) + t.length := by
  obtain ⟨u, hu⟩ := ht
  have hw := length_le_width (lastLine (s.take o))
  have hfirst : (firstLine (s.drop o)).length ≤ t.length := by
    rw [firstLine, ← hu, List.takeWhile_append, if_neg]
    · exact (List.takeWhile_prefix _).length_le
    · intro hall
      apply hb
      intro c hc
      rw [← (List.takeWhile_prefix fun c => !isBreak c).eq_of_length hall] at hc
      simpa using List.mem_takeWhile_imp hc
  rw [lineAround, List.length_append]
  omega

/-- A violation is reported alike in every style of breaks: a line is the same in all of them, and a part
that a break makes longer is highlighted to the end of its line in any case. -/
lemma report_rewrite {style : BreakStyle} {css : List Char} (h : OnlyFeeds css) (name : String)
    {t : Threshold} {p p' : Part} (hp : p ∈ violations css t) (ha : p.Alike (breakStyle style) p') :
    Rule.report ⟨name, String.ofList css, t⟩ p =
      Rule.report ⟨name, String.ofList (style.rewrite css), t⟩ p' := by
  obtain ⟨o, hm, ht, -⟩ := exists_offset_of_mem_violations hp
  have hpos : p'.position = p.position := ha.position.symm
  have htext : p'.text.toList = (Spelling.breaksAs style).spell p.text.toList := ha.text.2
  have hline : ∀ n, line? (style.rewrite css) n = line? css n := by
    rintro (_ | n)
    · rfl
    · rw [line?, line?, lines_rewrite style h]
  have hhigh : highlight (lineAround css o) (p.position.col - 1) p.text.length =
      highlight (lineAround css o) (p.position.col - 1) p'.text.length := by
    by_cases hb : ∀ c ∈ p.text.toList, isBreak c = false
    · rw [String.toList_inj.mp (htext.trans (style.rewrite_eq_self hb))]
    · have hle := length_lineAround_le ht hb
      have hlong := Spelling.length_le_length_spell (w := .breaksAs style) p.text.toList
      rw [← htext] at hlong
      rw [hm.col, Nat.add_sub_cancel, ← String.length_toList, ← String.length_toList]
      exact highlight_congr_of_le hle (hle.trans (Nat.add_le_add_left hlong _))
  have hl : Rule.line? ⟨name, String.ofList css, t⟩ p.position.line = some (lineAround css o) := by
    rw [Rule.line?, String.toList_ofList, hm.content]
  have hl' : Rule.line? ⟨name, String.ofList (style.rewrite css), t⟩ p.position.line =
      some (lineAround css o) := by
    rw [Rule.line?, String.toList_ofList, hline, hm.content]
  rw [Rule.report, Rule.report, hpos, hl, hl', Rule.record, Rule.record, hpos, Option.getD_some, hhigh]
  rfl

/-- The style of line breaks does not matter. Where line feeds are the only breaks of a text, writing all
of them in another style changes no record, and changes its style sheet only by the breaks in texts. -/
theorem break_style_immaterial (style : BreakStyle) {css : List Char} (h : OnlyFeeds css) :
    (∀ (name : String) (value : Json),
      (lint (String.ofList (style.rewrite css)) name value).records =
        (lint (String.ofList css) name value).records) ∧
    (Stylesheet.ofText (style.rewrite css)).mapText feedBreaks =
      (Stylesheet.ofText css).mapText feedBreaks := by
  have halike := rules_rewrite style h
  constructor
  · intro name value
    cases hv : Threshold.ofJson? value with
    | none => rw [lint_records_eq_nil _ _ hv, lint_records_eq_nil _ _ hv]
    | some t =>
      have hparts := (forall₂_and_left _ _).mpr ⟨fun p hp => hp, violations_alike halike t⟩
      rw [lint_records_eq _ _ hv, lint_records_eq _ _ hv, String.toList_ofList, String.toList_ofList]
      exact (map_eq_map_of_forall₂ hparts fun p p' hp => report_rewrite h name hp.1 hp.2).symm
  · have htext : ∀ s s', (breakStyle style).text s s' → feedBreaks s = feedBreaks s' :=
      fun s s' hs => (breakStyle style).header_of_text hs
    exact (Stylesheet.mapText_eq_of_alike htext (fun _ _ h => h) (fun _ _ h => h) halike).symm

/-- Breaks in a comment, in a string and behind an escape in a unit, so that a part is longer. -/
theorem break_style_immaterial_escaped_unit :
    let css := "a\x7b/*\n*/b:'\\\n';font-size:9\\70\nx 8px\x7d".toList
    let css' := BreakStyle.returnAndFeed.rewrite css
    let t : Threshold := ⟨⟨0x41400000, by decide⟩, by decide⟩
    OnlyFeeds css ∧
    (lint (String.ofList css') "min-font-size" (.number (.integer 12))).records =
      (lint (String.ofList css) "min-font-size" (.number (.integer 12))).records ∧
    (Stylesheet.ofText css').mapText feedBreaks = (Stylesheet.ofText css).mapText feedBreaks ∧
    (violations css t).map Part.text = ["9\\70\nx", "8px"] ∧
    (violations css' t).map Part.text = ["9\\70\r\nx", "8px"] := by
  intro css css' t
  have hcss : OnlyFeeds css := by decide
  have h := break_style_immaterial .returnAndFeed hcss
  exact ⟨hcss, h.1 _ _, h.2, by decide +kernel, by decide +kernel⟩

end LineBreaks
end FontSizeLint

import FontSizeLint.Proofs.Lint.Violations

/-! What the coloured message of a record highlights. Columns count code units and the highlighted
span counts characters, so it is the part found exactly if no character before the part on its line
takes two units. -/
namespace FontSizeLint
open Text Css

namespace Text

lemma width_eq_length_iff (s : List Char) : width s = s.length ↔ ∀ c ∈ s, c.toNat < 0x10000 := by
  induction s with
  | nil => simp
  | cons c s ih =>
    have hl := length_le_width s
    have hc : Position.units c = if c.toNat < 0x10000 then 1 else 2 := rfl
    rw [width_cons, List.length_cons, List.forall_mem_cons, ← ih, hc]
    split_ifs with h
    · constructor
      · intro hw; exact ⟨h, by omega⟩
      · rintro ⟨-, hw⟩; omega
    · constructor
      · intro hw; omega
      · rintro ⟨hn, -⟩; exact absurd hn h

lemma getElem?_highlight (l : List Char) {start i : Nat} (span : Nat) (h : i < start) :
    (highlight l start span)[i]? = l[i]? := by
  unfold highlight
  split_ifs with hl
  · rfl
  · have hi : i < (l.take start).length := by rw [List.length_take]; omega
    simp only [List.append_assoc]
    rw [List.getElem?_append_left hi, List.getElem?_take_of_lt h]

lemma highlight_append (pre text post : List Char) :
    highlight (pre ++ text ++ post) pre.length text.length =
      pre ++ magenta ++ text ++ plain ++ post := by
  have hl : ¬ (pre ++ text ++ post).length < pre.length := by
    simp only [List.length_append]
    omega
  rw [highlight, if_neg hl, List.append_assoc pre, List.take_left, List.drop_left, List.take_left,
    ← List.drop_drop, List.drop_left, List.drop_left]

/-- The span from a column on is a given piece of the line exactly if the column counts as many
units as there are characters. The piece must not begin like a colour. -/
theorem highlight_eq_iff (pre post : List Char) {text : List Char} {c : Char} {r : List Char}
    (ht : text = c :: r) (hc : c ≠ '\x1b') :
    highlight (pre ++ text ++ post) (width pre) text.length =
      pre ++ magenta ++ text ++ plain ++ post ↔ ∀ c ∈ pre, c.toNat < 0x10000 := by
  rw [← width_eq_length_iff]
  constructor
  · intro h
    by_contra hw
    have hlt : pre.length < width pre := by
      have hl := length_le_width pre
      omega
    have hi := getElem?_highlight (pre ++ text ++ post) text.length hlt
    rw [h] at hi
    have hm : magenta.head? = some '\x1b' := by decide
    obtain ⟨m, hm⟩ := List.head?_eq_some_iff.mp hm
    apply hc
    simpa [ht, hm] using hi.symm
  · intro hw
    rw [hw]
    exact highlight_append pre text post

lemma lineAround_eq_of_isPrefix {s t : List Char} {o : Nat} (h : t <+: s.drop o)
    (ht : ∀ c ∈ t, isBreak c = false) :
    ∃ post, lineAround s o = lastLine (s.take o) ++ t ++ post := by
  obtain ⟨u, hu⟩ := h
  refine ⟨firstLine u, ?_⟩
  rw [lineAround, firstLine, ← hu, List.takeWhile_append_of_pos (by simpa using ht), firstLine,
    List.append_assoc]

end Text

lemma complaint_inj {l m stem : List Char} :
    Rule.complaint l stem = Rule.complaint m stem ↔ l = m := by
  rw [Rule.complaint, Rule.complaint, String.ofList_inj]
  simp

lemma complaint_highlighted (pre text post minimum : List Char) :
    Rule.complaint (pre ++ magenta ++ text ++ plain ++ post)
      (muted ("font-size should not be less than ".toList ++ minimum ++ "px".toList)) =
    "`" ++ String.ofList pre ++ "\x1b[35m" ++ String.ofList text ++ "\x1b[39m" ++
      String.ofList post ++ "` " ++ "\x1b[90m" ++ "font-size should not be less than " ++
      String.ofList minimum ++ "px" ++ "\x1b[39m" := by
  have hq : "`".toList = ['`'] := by simp
  have hb : "` ".toList = ['`', ' '] := by simp
  have hm : magenta = "\x1b[35m".toList := rfl
  have hg : brightBlack = "\x1b[90m".toList := rfl
  have hp : plain = "\x1b[39m".toList := rfl
  apply String.toList_inj.mp
  simp only [Rule.complaint, muted, hm, hg, hp, String.toList_append, String.toList_ofList, hq, hb,
    List.append_assoc, List.cons_append, List.nil_append]

lemma colorMessage_report {r : Rule} {p : Part} {o : Nat}
    (h : p.position.Marks r.source.toList o) :
    (r.report p).colorMessage = Rule.complaint (highlight (lineAround r.source.toList o)
      (width (lastLine (r.source.toList.take o))) p.text.toList.length) (muted r.stem) := by
  rw [report_eq h, Rule.record, h.col, Nat.add_sub_cancel, String.length_toList]

lemma ne_escape_of_isNumberHead {c : Char} (h : Lexer.isNumberHead c = true) : c ≠ '\x1b' := by
  rintro rfl
  simp [Lexer.isNumberHead] at h

/-- A record highlights a part whose text has no break: before it stands what the line has before the
part, behind it the rest of the line. -/
def Highlights (css : String) (t : Threshold) (p : Part) (r : Record) (o : Nat) : Prop :=
  ∃ post, lineAround css.toList o = lastLine (css.toList.take o) ++ p.text.toList ++ post ∧
    r.colorMessage = "`" ++ String.ofList (lastLine (css.toList.take o)) ++ "\x1b[35m" ++ p.text ++
      "\x1b[39m" ++ String.ofList post ++ "` " ++ "\x1b[90m" ++
      "font-size should not be less than " ++ String.ofList t.text ++ "px" ++ "\x1b[39m"

/-- The coloured message of a record whose part has no break in it highlights the part, and nothing
but the part, exactly if every character before the part on its line takes one code unit. -/
theorem lint_highlights_part_iff (css name : String) {value : Json} {t : Threshold}
    (h : Threshold.ofJson? value = some t) :
    List.Forall₂ (fun p r => (∀ c ∈ p.text.toList, isBreak c = false) →
      ∃ o, p.position.Marks css.toList o ∧ p.text.toList <+: css.toList.drop o ∧
        (Highlights css t p r o ↔ ∀ c ∈ lastLine (css.toList.take o), c.toNat < 0x10000))
      (violations css.toList t) (lint css name value).records := by
  rw [lint_records_eq css name h, List.forall₂_map_right_iff, List.forall₂_same]
  intro p hp hb
  obtain ⟨o, hm, ht, x, u, hx, hhead⟩ := exists_offset_of_mem_violations hp
  obtain ⟨post, hpost⟩ := lineAround_eq_of_isPrefix ht hb
  refine ⟨o, hm, ht, ?_⟩
  have hq := complaint_highlighted (lastLine (css.toList.take o)) p.text.toList post t.text
  rw [String.ofList_toList] at hq
  have hc := colorMessage_report (r := ⟨name, css, t⟩) hm
  rw [hpost] at hc
  have he := highlight_eq_iff (lastLine (css.toList.take o)) post hx
    (ne_escape_of_isNumberHead hhead)
  have hiff := ((Eq.congr hc hq.symm).trans complaint_inj).trans he
  constructor
  · rintro ⟨rest, hrest, hr⟩
    obtain rfl : post = rest := List.append_cancel_left (hpost.symm.trans hrest)
    exact hiff.mp hr
  · intro hbmp
    exact ⟨post, hpost, hiff.mpr hbmp⟩

/-- A part behind a character of two units, and another behind characters of one. -/
theorem lint_highlights_part_iff_mixed :
    Threshold.ofJson? (.number (.integer 12)) = some ⟨⟨0x41400000, by decide⟩, by decide⟩ ∧
    List.Forall₂ (fun p r => (∀ c ∈ p.text.toList, isBreak c = false) →
      ∃ o, p.position.Marks "a\x7bfont-size:9px/*😀*/8px\x7d".toList o ∧
        p.text.toList <+: "a\x7bfont-size:9px/*😀*/8px\x7d".toList.drop o ∧
        (Highlights "a\x7bfont-size:9px/*😀*/8px\x7d" ⟨⟨0x41400000, by decide⟩, by decide⟩ p r o ↔
          ∀ c ∈ lastLine ("a\x7bfont-size:9px/*😀*/8px\x7d".toList.take o), c.toNat < 0x10000))
      (violations "a\x7bfont-size:9px/*😀*/8px\x7d".toList ⟨⟨0x41400000, by decide⟩, by decide⟩)
      (lint "a\x7bfont-size:9px/*😀*/8px\x7d" "min-font-size" (.number (.integer 12))).records ∧
    (violations "a\x7bfont-size:9px/*😀*/8px\x7d".toList
      ⟨⟨0x41400000, by decide⟩, by decide⟩).map Part.text = ["9px", "8px"] := by
  have h : Threshold.ofJson? (.number (.integer 12)) =
      some ⟨⟨0x41400000, by decide⟩, by decide⟩ := by decide +kernel
  exact ⟨h, lint_highlights_part_iff _ _ h, by decide +kernel⟩

/-- Behind a character of two units the span begins one character late. -/
theorem lint_highlights_late_behind_surrogates :
    violations "a\x7b/*😀*/font-size:9px\x7d".toList ⟨⟨0x41400000, by decide⟩, by decide⟩ =
      [⟨some (.finite ⟨false, ⟨0x41100000, by decide⟩⟩), "9px", ⟨1, 19⟩⟩] ∧
    (lint "a\x7b/*😀*/font-size:9px\x7d" "min-font-size" (.number (.integer 12))).records.map
        Record.colorMessage =
      ["`a\x7b/*😀*/font-size:9\x1b[35mpx\x7d\x1b[39m` " ++
        "\x1b[90mfont-size should not be less than 12px\x1b[39m"] ∧
    (lint "a\x7b/*😀*/font-size:9px\x7d" "min-font-size" (.number (.integer 12))).records.map
        Record.colorMessage ≠
      ["`a\x7b/*😀*/font-size:\x1b[35m9px\x1b[39m\x7d` " ++
        "\x1b[90mfont-size should not be less than 12px\x1b[39m"] := by
  decide +kernel

end FontSizeLint

import FontSizeLint.Proofs.Css.Importance

/-! Values with a mark of importance at their end. The text of a value is what stands before the last
mark written in it, trimmed; its parts are all that stands outside marks. If a value has one mark at
most, in one word and at its end, then both are those of what stands before the mark. -/
namespace FontSizeLint.Css
open Text

section Written
variable {w r : List Char}

lemma writesMark_append_of_notMem (hw : '!' ∉ w) : WritesMark (w ++ r) ↔ WritesMark r := by
  induction w with
  | nil => rfl
  | cons c w ih =>
    rw [List.mem_cons, not_or] at hw
    rw [List.cons_append, writesMark_cons, ih hw.2, or_iff_right]
    intro h
    obtain ⟨v, hv, -⟩ := exists_of_lower_eq h
    exact hw.1 (List.cons.inj hv).1.symm

lemma bang_notMem_of_lower_eq (hw : lower w = importantWord) : '!' ∉ w := by
  intro h
  exact absurd (isAlpha_of_lower_eq hw '!' h) (by decide)

lemma lower_bang (hw : lower w = importantWord) : lower ('!' :: w) = '!' :: importantWord := by
  rw [← hw]
  rfl

lemma beforeMark?_of_last (hw : lower w = importantWord) (hr : ¬ WritesMark r) (s : List Char) :
    beforeMark? (s ++ '!' :: (w ++ r)) = some s := by
  induction s with
  | nil =>
    have hlast : beforeMark? (w ++ r) = none := by
      rwa [beforeMark?_eq_none_iff, writesMark_append_of_notMem (bang_notMem_of_lower_eq hw)]
    have htake : ('!' :: (w ++ r)).take 10 = '!' :: w := by
      rw [List.take_succ_cons, ← length_of_lower_eq_word hw, List.take_left]
    rw [List.nil_append, beforeMark?, hlast, htake, lower_bang hw]
    simp
  | cons c s ih => rw [List.cons_append, beforeMark?, ih]

lemma splitMark_of_not_writesMark (hr : ¬ WritesMark r) : splitMark r = (trim r, false) := by
  rw [← writesMark_trim, ← beforeMark?_eq_none_iff] at hr
  rw [splitMark, hr]

lemma splitMark_append (hw : lower w = importantWord) (hr : ¬ WritesMark r) (s : List Char) :
    splitMark (s ++ '!' :: (w ++ r)) = (trim s, true) := by
  have hbang : isBlank '!' = false := by decide
  have htrim : trim (s ++ '!' :: (w ++ r)) = trimStart s ++ '!' :: (w ++ trimEnd r) := by
    have hword : trimEnd ('!' :: w ++ r) = '!' :: w ++ trimEnd r := by
      have hne : '!' :: w ≠ [] := by simp
      rw [← List.dropLast_append_getLast hne, List.append_assoc, List.append_assoc,
        List.singleton_append, List.singleton_append, trimEnd_append_cons]
      exact isBlank_of_mem_mark (lower_bang hw) (List.getLast_mem hne)
    rw [List.cons_append, trimEnd_cons hbang, List.cons_append, List.cons.injEq] at hword
    rw [trim, trimStart_append_cons hbang, trimEnd_append_cons hbang, hword.2]
  have hr' : ¬ WritesMark (trimEnd r) := by
    rintro ⟨pre, v, post, hv, hlow⟩
    obtain ⟨q, hq⟩ := trimEnd_isPrefix r
    exact hr ⟨pre, v, post ++ q, by rw [← hq, hv]; simp, hlow⟩
  rw [splitMark, htrim, beforeMark?_of_last hw hr']
  rfl

end Written

namespace Part

lemma dropMarks_append {ds : List Component} (hds : ∀ d ∈ ds.head?, isImportantWord d = false)
    (cs : List Component) : dropMarks (cs ++ ds) =
      ((dropMarks cs).1 ++ (dropMarks ds).1, (dropMarks cs).2 || (dropMarks ds).2) := by
  fun_induction dropMarks cs with
  | case1 c d cs h ih =>
    rw [List.cons_append, List.cons_append, dropMarks, if_pos h, ih]
    simp
  | case2 c d cs h rest marked hr ih =>
    rw [hr] at ih
    rw [List.cons_append, dropMarks_cons, ih]
    · rfl
    · simpa using h
  | case3 cs hshort =>
    rcases cs with _ | ⟨c, _ | ⟨d, cs⟩⟩
    · rfl
    · rw [List.singleton_append, dropMarks_cons]
      · rfl
      · exact fun d hd => by rw [hds d hd, Bool.and_false]
    · exact absurd rfl (hshort c d cs)

lemma ofValue_append (cs : List Component) {ds : List Component}
    (hds : ∀ d ∈ (ds.filter fun c => !c.isTrivia).head?, isImportantWord d = false) :
    ofValue (cs ++ ds) = ((ofValue cs).1 ++ (ofValue ds).1, (ofValue cs).2 || (ofValue ds).2) := by
  simp only [ofValue, List.filter_append, dropMarks_append hds, List.map_append]

lemma ofValue_trivia_append {ts : List Component} (hts : ∀ c ∈ ts, Component.isTrivia c = true)
    (cs : List Component) : ofValue (ts ++ cs) = ofValue cs := by
  simp only [ofValue, List.filter_append, filter_eq_nil_of_isTrivia hts, List.nil_append]

lemma isImportantWord_eq_false_of_isBang {c : Component} (h : isBang c = true) :
    isImportantWord c = false := by
  cases c with
  | leaf t =>
    simp only [isBang, Token.isDelim, Bool.and_eq_true, beq_iff_eq] at h
    simp [isImportantWord, h.1]
  | block o body closer => rfl

lemma ofValue_append_mark {b w : Component} (hb : isBang b = true) (hw : isImportantWord w = true)
    (cs : List Component) : ofValue (cs ++ [b, w]) = ((ofValue cs).1, true) := by
  have hfilter : [b, w].filter (fun c => !c.isTrivia) = [b, w] := by
    simp [isTrivia_of_isBang hb, isTrivia_eq_false_of_isImportantWord hw]
  have hmark : ofValue [b, w] = ([], true) := by
    simp [ofValue, hfilter, dropMarks, hb, hw]
  rw [ofValue_append, hmark, List.append_nil, Bool.or_true]
  rw [hfilter]
  simpa using isImportantWord_eq_false_of_isBang hb

end Part

/-- A mark of importance in one word at the end of a value, with nothing behind it that is a part or
says that there is another mark. -/
inductive EndMark : List Component → Prop
  | none : EndMark []
  | word {b w : Component} {rest : List Component} : Part.isBang b = true →
    Part.isImportantWord w = true → lower w.text = importantWord →
    (∀ c ∈ rest, c.isTrivia = true ∨ Part.isSeparator c = true) →
    ¬ WritesMark (Component.textOf rest) → EndMark (b :: w :: rest)

/-- White space, a core without a mark, white space and a mark at the end. Trimming leaves the core as
it is, and it does not end with a backslash before a break. -/
structure PlainlyMarked (lead core gap mark : List Component) : Prop where
  isSpace_lead : ∀ c ∈ lead, c.isLeaf .whitespace = true
  isSpace_gap : ∀ c ∈ gap, c.isLeaf .whitespace = true
  endMark : EndMark mark
  not_hasMark : ¬ HasMark core
  not_writesMark : ¬ WritesMark (Component.textOf core)
  trim_eq : trim (Component.textOf core) = Component.textOf core
  escape : (Component.textOf core).getLast? = some '\\' →
    ∀ c ∈ (Component.textOf gap).head?, isBreak c = false

lemma Component.isTrivia_of_isLeaf {c : Component} (h : c.isLeaf .whitespace = true) :
    c.isTrivia = true := by
  cases c with
  | leaf t =>
    rw [isLeaf, beq_iff_eq] at h
    rw [isTrivia, h]
    rfl
  | block o body closer => simp [isLeaf] at h

namespace EndMark
variable {mark : List Component}

lemma head?_filter (h : EndMark mark) :
    ∀ d ∈ (mark.filter fun c => !c.isTrivia).head?, Part.isImportantWord d = false := by
  cases h with
  | none => simp
  | word hb hw hlow hrest hmark =>
    rw [List.filter_cons_of_pos (by simp [Part.isTrivia_of_isBang hb])]
    simpa using Part.isImportantWord_eq_false_of_isBang hb

lemma parts_eq_nil (h : EndMark mark) : (Part.ofValue mark).1 = [] := by
  cases h with
  | none => rfl
  | @word b w rest hb hw hlow hrest hmark =>
    have hfilter : (b :: w :: rest).filter (fun c => !c.isTrivia) =
        b :: w :: rest.filter fun c => !c.isTrivia := by
      rw [List.filter_cons_of_pos (by simp [Part.isTrivia_of_isBang hb]),
        List.filter_cons_of_pos (by simp [Part.isTrivia_eq_false_of_isImportantWord hw])]
    simp only [Part.ofValue, hfilter, Part.dropMarks, hb, hw, Bool.and_self, if_true,
      List.map_eq_nil_iff, List.filter_eq_nil_iff, Bool.not_eq_true', Bool.not_eq_false]
    intro c hc
    have hmem := List.mem_filter.mp ((Part.dropMarks_sublist _).subset hc)
    simpa [show c.isTrivia = false by simpa using hmem.2] using hrest c hmem.1

end EndMark

namespace PlainlyMarked
variable {lead core gap mark : List Component}

lemma parts_eq (h : PlainlyMarked lead core gap mark) :
    (Part.ofValue (lead ++ (core ++ (gap ++ mark)))).1 = (Part.ofValue core).1 := by
  have hgap : ∀ c ∈ gap, Component.isTrivia c = true :=
    fun c hc => Component.isTrivia_of_isLeaf (h.isSpace_gap c hc)
  have hhead : ∀ d ∈ ((gap ++ mark).filter fun c => !c.isTrivia).head?,
      Part.isImportantWord d = false := by
    rw [List.filter_append, Part.filter_eq_nil_of_isTrivia hgap]
    exact h.endMark.head?_filter
  rw [Part.ofValue_trivia_append fun c hc => Component.isTrivia_of_isLeaf (h.isSpace_lead c hc),
    Part.ofValue_append core hhead, Part.ofValue_trivia_append hgap, h.endMark.parts_eq_nil]
  simp

lemma splitMark_eq (h : PlainlyMarked lead core gap mark)
    (hlead : ∀ c ∈ Component.textOf lead, isBlank c = true)
    (hgap : ∀ c ∈ Component.textOf gap, isBlank c = true) :
    (splitMark (Component.textOf (lead ++ (core ++ (gap ++ mark))))).1 = Component.textOf core := by
  have htrim := trim_blanks hlead hgap (Component.textOf core)
  rw [h.trim_eq] at htrim
  cases h.endMark with
  | none =>
    simp only [Component.textOf_append, List.append_nil]
    rw [splitMark_of_not_writesMark, htrim]
    rw [writesMark_blanks_append hlead, writesMark_append_blanks hgap]
    exact h.not_writesMark
  | @word b w rest hb hw hlow hrest hmark =>
    have htext : Component.textOf (lead ++ (core ++ (gap ++ b :: w :: rest))) =
        (Component.textOf lead ++ (Component.textOf core ++ Component.textOf gap)) ++
          '!' :: (w.text ++ Component.textOf rest) := by
      simp [Component.textOf, Part.text_of_isBang hb]
    rw [htext, splitMark_append hlow hmark, htrim]

end PlainlyMarked

end FontSizeLint.Css

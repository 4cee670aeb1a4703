import FontSizeLint.Text.Position
import Mathlib.Data.List.DropRight
import Mathlib.Tactic.Lemma

/-! Offsets in a text: the line and the column they have, and the line around them. A position
that is computed piece by piece is that of the offset, unless a cut between pieces parts a carriage
return from its line feed. -/
namespace FontSizeLint.Text

/-- How many breaks a text holds, a carriage return and line feed being one. -/
def breaks : List Char → Nat
  | [] => 0
  | '\r' :: '\n' :: s => breaks s + 1
  | c :: s => if isBreak c then breaks s + 1 else breaks s

def width : List Char → Nat
  | [] => 0
  | c :: s => Position.units c + width s

/-- What stands behind the last break of a text. -/
def lastLine (s : List Char) : List Char := s.rtakeWhile fun c => !isBreak c

/-- What stands before the first break of a text. -/
def firstLine (s : List Char) : List Char := s.takeWhile fun c => !isBreak c

/-- The line around an offset, without its breaks. -/
def lineAround (s : List Char) (o : Nat) : List Char := lastLine (s.take o) ++ firstLine (s.drop o)

/-- The position of an offset: breaks are counted before it, and units from the last of them on. -/
def positionAt (s : List Char) (o : Nat) : Position :=
  ⟨breaks (s.take o) + 1, width (lastLine (s.take o)) + 1⟩

/-- Whether a cut between two texts parts a carriage return from its line feed. -/
def PartsBreak (s t : List Char) : Prop := s.getLast? = some '\r' ∧ t.head? = some '\n'

lemma isBreak_iff {c : Char} : isBreak c = true ↔ c = '\n' ∨ c = '\r' ∨ c = '\x0c' := by
  simp [isBreak, or_assoc]

@[simp] lemma width_nil : width [] = 0 := rfl
@[simp] lemma width_cons (c : Char) (s : List Char) : width (c :: s) = Position.units c + width s := rfl

@[simp] lemma width_append (s t : List Char) : width (s ++ t) = width s + width t := by
  induction s with
  | nil => simp
  | cons c s ih => rw [List.cons_append, width_cons, ih, width_cons, Nat.add_assoc]

lemma length_le_width (s : List Char) : s.length ≤ width s := by
  induction s with
  | nil => rfl
  | cons c s ih =>
    have hc := Position.units_pos c
    simp only [List.length_cons, width_cons]
    omega

lemma breaks_le_length (s : List Char) : breaks s ≤ s.length := by
  fun_induction breaks s <;> simp only [List.length_cons, List.length_nil] <;> omega

lemma breaks_eq_zero_iff (s : List Char) : breaks s = 0 ↔ ∀ c ∈ s, isBreak c = false := by
  fun_induction breaks s with
  | case1 => simp
  | case2 s ih => simp [isBreak]
  | case3 c s h hc ih => simp [hc]
  | case4 c s h hc ih => simp [hc, ih]

lemma lastLine_eq_self {s : List Char} (h : breaks s = 0) : lastLine s = s := by
  rw [lastLine, List.rtakeWhile_eq_self_iff]
  simpa using (breaks_eq_zero_iff s).mp h

lemma lastLine_append (s t : List Char) (h : 0 < breaks t) : lastLine (s ++ t) = lastLine t := by
  have hne : ¬ ∀ c ∈ t.reverse, (!isBreak c) = true := by
    intro ha
    have hz := (breaks_eq_zero_iff t).mpr (by simpa using ha)
    omega
  have hl : (t.reverse.takeWhile fun c => !isBreak c).length ≠ t.reverse.length := by
    intro he
    apply hne
    rw [← List.takeWhile_eq_self_iff]
    exact (List.takeWhile_prefix _).eq_of_length he
  simp only [lastLine, List.rtakeWhile, List.reverse_append, List.takeWhile_append, hl, if_false]

lemma lastLine_break_cons {c : Char} (hc : isBreak c = true) (s : List Char) :
    lastLine (c :: s) = lastLine s := by
  by_cases hs : breaks s = 0
  · rw [lastLine_eq_self hs]
    have ha := (breaks_eq_zero_iff s).mp hs
    have hr : (s.reverse.takeWhile fun c => !isBreak c) = s.reverse := by
      rw [List.takeWhile_eq_self_iff]
      simpa using ha
    simp [lastLine, List.rtakeWhile, List.takeWhile_append, hr, hc]
  · exact lastLine_append [c] s (by omega)

lemma lastLine_cons {c : Char} (hc : isBreak c = false) (s : List Char) :
    lastLine (c :: s) = if breaks s = 0 then c :: s else lastLine s := by
  split_ifs with hs
  · apply lastLine_eq_self
    rw [breaks_eq_zero_iff] at hs ⊢
    simpa [hc] using hs
  · exact lastLine_append [c] s (by omega)

lemma not_partsBreak_of_cons {c : Char} {s t : List Char} (h : ¬ PartsBreak (c :: s) t) :
    ¬ PartsBreak s t := by
  rintro ⟨hs, ht⟩
  cases s with
  | nil => simp at hs
  | cons d s => exact h ⟨by simpa using hs, ht⟩

/-- If neither a text begins with a carriage return and line feed nor the cut behind it parts the
two, the longer text does not begin with them either. -/
lemma no_pair_append {c : Char} {s t : List Char}
    (hs : ∀ u, c = '\r' → s = '\n' :: u → False) (h : ¬ PartsBreak (c :: s) t) :
    ∀ u, c = '\r' → s ++ t = '\n' :: u → False := by
  intro u hc hu
  cases s with
  | nil => exact h ⟨by simp [hc], by simp_all⟩
  | cons d s =>
    obtain ⟨rfl, rfl⟩ := List.cons.inj hu
    exact hs s hc rfl

namespace Position

lemma line_advance (p : Position) (s : List Char) : (p.advance s).line = p.line + breaks s := by
  fun_induction advance p s with
  | case1 p => rfl
  | case2 p s ih => rw [ih, breaks, Nat.add_right_comm, Nat.add_assoc]
  | case3 p c s h hc ih =>
    rw [ih, breaks.eq_3 _ _ h, if_pos hc, Nat.add_right_comm, Nat.add_assoc]
  | case4 p c s h hc ih => rw [ih, breaks.eq_3 _ _ h, if_neg hc]

lemma col_advance (p : Position) (s : List Char) : (p.advance s).col =
    if breaks s = 0 then p.col + width s else width (lastLine s) + 1 := by
  have hcol : ∀ (t : List Char) (n : Nat), n = 1 →
      (if breaks t = 0 then n + width t else width (lastLine t) + 1) = width (lastLine t) + 1 := by
    intro t n hn
    split_ifs with ht
    · rw [lastLine_eq_self ht]; omega
    · rfl
  fun_induction advance p s with
  | case1 p => rfl
  | case2 p s ih =>
    rw [ih, hcol s _ rfl, breaks, if_neg (by omega), lastLine_break_cons rfl,
      lastLine_break_cons rfl]
  | case3 p c s h hc ih =>
    rw [ih, hcol s _ rfl, breaks.eq_3 _ _ h, if_pos hc, if_neg (by omega), lastLine_break_cons hc]
  | case4 p c s h hc ih =>
    rw [ih, breaks.eq_3 _ _ h, if_neg hc, lastLine_cons (by simpa using hc), width_cons]
    split_ifs
    · rw [Nat.add_assoc]
    · rfl

/-- Counting from the start of a text gives the position of the offset reached. -/
theorem advance_start (s : List Char) (o : Nat) : start.advance (s.take o) = positionAt s o := by
  have hl := line_advance start (s.take o)
  have hc := col_advance start (s.take o)
  have hw : (start.advance (s.take o)).col = width (lastLine (s.take o)) + 1 := by
    rw [hc]
    split_ifs with h
    · rw [lastLine_eq_self h, start, Nat.add_comm]
    · rfl
  have he : ∀ p q : Position, p.line = q.line → p.col = q.col → p = q := by
    rintro ⟨_, _⟩ ⟨_, _⟩ rfl rfl
    rfl
  apply he
  · rw [hl, start, positionAt, Nat.add_comm]
  · exact hw

/-- Two pieces of text advance as one does, if the cut between them parts no break. -/
theorem advance_append (p : Position) (s t : List Char) (h : ¬ PartsBreak s t) :
    p.advance (s ++ t) = (p.advance s).advance t := by
  fun_induction advance p s with
  | case1 p => rfl
  | case2 p s ih =>
    simp only [List.cons_append, advance]
    exact ih (not_partsBreak_of_cons (not_partsBreak_of_cons h))
  | case3 p c s hcs hc ih =>
    rw [List.cons_append, advance.eq_3 _ _ _ (no_pair_append hcs h), if_pos hc]
    exact ih (not_partsBreak_of_cons h)
  | case4 p c s hcs hc ih =>
    rw [List.cons_append, advance.eq_3 _ _ _ (no_pair_append hcs h), if_neg hc]
    exact ih (not_partsBreak_of_cons h)

end Position

lemma head?_lines (s : List Char) : (lines s).head? = some (firstLine s) := by
  fun_induction lines s with
  | case1 => rfl
  | case2 s ih => rfl
  | case3 c s h hc ih => simp [firstLine, hc]
  | case4 c s h hc hl ih => exact absurd hl (lines_ne_nil s)
  | case5 c s h hc l ls hl ih =>
    rw [hl, List.head?_cons, Option.some.injEq] at ih
    simp [firstLine, hc, ih]

lemma lines_append_getElem? (s t : List Char) (h : ¬ PartsBreak s t) :
    (lines (s ++ t))[breaks s]? = some (lastLine s ++ firstLine t) := by
  fun_induction breaks s with
  | case1 => rw [← List.head?_eq_getElem?]; exact head?_lines t
  | case2 s ih =>
    rw [lastLine_break_cons rfl, lastLine_break_cons rfl]
    exact ih (not_partsBreak_of_cons (not_partsBreak_of_cons h))
  | case3 c s hs hc ih =>
    rw [List.cons_append, lines.eq_3 _ _ (no_pair_append hs h), if_pos hc, lastLine_break_cons hc]
    exact ih (not_partsBreak_of_cons h)
  | case4 c s hs hc ih =>
    have hi := ih (not_partsBreak_of_cons h)
    rw [List.cons_append, lines.eq_3 _ _ (no_pair_append hs h), if_neg hc,
      lastLine_cons (by simpa using hc)]
    cases hl : lines (s ++ t) with
    | nil => exact absurd hl (lines_ne_nil _)
    | cons l ls =>
      rw [hl] at hi
      split_ifs with hb
      · rw [hb, List.getElem?_cons_zero, Option.some.injEq, lastLine_eq_self hb] at hi
        simp [hb, hi]
      · obtain ⟨n, hn⟩ := Nat.exists_eq_succ_of_ne_zero hb
        rw [hn] at hi ⊢
        simpa using hi

/-- The line of the number that an offset has is the one around the offset. -/
theorem line?_positionAt (s : List Char) (o : Nat) (h : ¬ PartsBreak (s.take o) (s.drop o)) :
    line? s (positionAt s o).line = some (lineAround s o) := by
  have hl := lines_append_getElem? (s.take o) (s.drop o) h
  rwa [List.take_append_drop] at hl

/-- A position is that of an offset: its line counts the breaks before the offset, its column the
units behind the last of them, and the text has the line around the offset under that number. -/
structure Position.Marks (p : Position) (s : List Char) (o : Nat) : Prop where
  le : o ≤ s.length
  line : p.line = breaks (s.take o) + 1
  col : p.col = width (lastLine (s.take o)) + 1
  content : line? s p.line = some (lineAround s o)

lemma positionAt_marks {s : List Char} {o : Nat} (ho : o ≤ s.length)
    (h : ¬ PartsBreak (s.take o) (s.drop o)) : (positionAt s o).Marks s o :=
  ⟨ho, rfl, rfl, line?_positionAt s o h⟩

/-- Positions stay within what the text is long. -/
theorem Position.Marks.le_width {p : Position} {s : List Char} {o : Nat} (h : p.Marks s o) :
    p.line ≤ width s + 1 ∧ p.col ≤ width s + 1 := by
  have hs : width (s.take o) ≤ width s := by
    conv_rhs => rw [← List.take_append_drop o s, width_append]
    omega
  have hb := breaks_le_length (s.take o)
  have hw := length_le_width (s.take o)
  obtain ⟨t, ht⟩ := List.rtakeWhile_suffix (fun c => !isBreak c) (s.take o)
  have hl : width (lastLine (s.take o)) ≤ width (s.take o) := by
    conv_rhs => rw [← ht, width_append]
    exact Nat.le_add_left _ _
  rw [h.line, h.col]
  omega

end FontSizeLint.Text

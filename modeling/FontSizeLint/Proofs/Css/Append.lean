import FontSizeLint.Proofs.Css.Number

/-! Text behind a token. What follows a name or a number as far as it goes can make it longer, by the
end of an escape, but never shorter, as long as it does not begin with a break. -/
namespace FontSizeLint.Text

lemma breakLength_cons (c : Char) (s : List Char) : breakLength (c :: s) =
    if c = '\r' ∧ s.head? = some '\n' then 2 else if isBreak c then 1 else 0 := by
  by_cases h : c = '\r' ∧ s.head? = some '\n'
  · obtain ⟨rfl, hs⟩ := h
    obtain ⟨t, rfl⟩ := List.head?_eq_some_iff.mp hs
    simp [breakLength]
  · rw [if_neg h, breakLength]
    rintro t rfl rfl
    exact h ⟨rfl, rfl⟩

lemma breakLength_append {r : List Char} (hr : breakLength r = 0) (s : List Char) :
    breakLength (s ++ r) = breakLength s := by
  cases s with
  | nil => exact hr
  | cons c s =>
    have hn : r.head? ≠ some '\n' := by
      intro h
      obtain ⟨t, rfl⟩ := List.head?_eq_some_iff.mp h
      simp [breakLength, isBreak] at hr
    have hs : (s ++ r).head? = some '\n' ↔ s.head? = some '\n' := by
      cases s with
      | nil => simp [hn]
      | cons d s => rfl
    simp only [List.cons_append, breakLength_cons, hs]

lemma breakLength_le (s : List Char) : breakLength s ≤ s.length := by
  fun_cases breakLength s <;> simp

lemma length_le_runLength_append {unit : List Char → Nat} {r : List Char} (nil : unit [] = 0)
    (hu : ∀ s, s ≠ [] → unit s = min s.length (unit (s ++ r))) (s : List Char) :
    runLength unit 0 s = s.length → s.length ≤ runLength unit 0 (s ++ r) := by
  induction s using runLength_induction nil with
  | stop s hs => intro h; omega
  | past s hs =>
    intro _
    have hs0 : s ≠ [] := by rintro rfl; simp [nil] at hs
    have hm := hu s hs0
    omega
  | more s n hpos hle ih =>
    intro h
    have hs0 : s ≠ [] := by rintro rfl; simp [nil] at hpos
    have hm := hu s hs0
    rw [runLength_of_unit_pos (by simp [hs0]) (by omega : 0 < unit (s ++ r)), List.length_append]
    by_cases hend : s.length ≤ unit (s ++ r)
    · omega
    · have hd : (s ++ r).drop (unit (s ++ r)) = s.drop (unit s) ++ r := by
        rw [List.drop_append_of_le_length (by omega)]
        congr 2
        omega
      rw [List.length_drop] at ih
      rw [hd]
      omega

end FontSizeLint.Text

namespace FontSizeLint.Css
open Text Numeric

lemma spaceLength_append {r : List Char} (hr : breakLength r = 0) {s : List Char} (hs : s ≠ []) :
    spaceLength (s ++ r) = spaceLength s := by
  obtain ⟨c, s, rfl⟩ := List.exists_cons_of_ne_nil hs
  have hb := breakLength_append hr (c :: s)
  rw [List.cons_append] at hb ⊢
  rw [spaceLength, spaceLength, hb]

lemma spaceLength_le (s : List Char) : spaceLength s ≤ s.length := by
  fun_cases spaceLength s with
  | case1 c s => simp
  | case2 c s => exact breakLength_le _
  | case3 => exact le_rfl

lemma hexDigits_append {s : List Char} (h : (hexDigits s).length < s.length) (r : List Char) :
    hexDigits (s ++ r) = hexDigits s := by
  unfold hexDigits at h ⊢
  rw [List.take_append, List.takeWhile_append]
  split_ifs with hall
  · -- All six digits are in the text, since it is longer.
    rw [hall, List.length_take] at h
    have hz : 6 - s.length = 0 := by omega
    rw [hz, List.take_zero, List.takeWhile_nil, List.append_nil,
      (List.takeWhile_prefix _).eq_of_length hall]
  · rfl

lemma length_hexDigits_le (s r : List Char) :
    (hexDigits s).length ≤ (hexDigits (s ++ r)).length := by
  unfold hexDigits
  rw [List.take_append, List.takeWhile_append]
  split_ifs with hall
  · rw [List.length_append]
    omega
  · exact le_rfl

lemma escapeLength_append {r : List Char} (hr : breakLength r = 0) (s : List Char) :
    escapeLength s = min s.length (escapeLength (s ++ r)) := by
  cases s with
  | nil => simp [escapeLength]
  | cons c s =>
    by_cases hc : isHex c = true
    · rw [List.cons_append]
      simp only [escapeLength, hc, if_true]
      rw [← List.cons_append]
      have hle := length_hexDigits_le (c :: s) r
      by_cases hend : (hexDigits (c :: s)).length < (c :: s).length
      · have hd : (c :: s).drop (hexDigits (c :: s)).length ≠ [] := by
          rw [ne_eq, List.drop_eq_nil_iff]
          omega
        have hsp := spaceLength_le ((c :: s).drop (hexDigits (c :: s)).length)
        rw [List.length_drop] at hsp
        rw [hexDigits_append hend, List.drop_append_of_le_length (by omega), spaceLength_append hr hd]
        omega
      · have hall : (hexDigits (c :: s)).length = (c :: s).length := by
          have hlt := (List.takeWhile_prefix (l := (c :: s).take 6) isHex).length_le
          rw [List.length_take] at hlt
          unfold hexDigits at hend ⊢
          omega
        rw [hall, List.drop_length, spaceLength]
        omega
    · simp [escapeLength, hc]

lemma nameUnit_append {r : List Char} (hr : breakLength r = 0) (s : List Char) (hs : s ≠ []) :
    nameUnit s = min s.length (nameUnit (s ++ r)) := by
  obtain ⟨c, s, rfl⟩ := List.exists_cons_of_ne_nil hs
  have he := escapeLength_append hr s
  rw [List.cons_append, nameUnit, nameUnit, breakLength_append hr s, List.length_cons]
  split_ifs <;> omega

lemma startsName_append {r : List Char} (hr : breakLength r = 0) {s : List Char} :
    startsName s = true → startsName (s ++ r) = true := by
  fun_cases startsName s with
  | case1 c s => exact id
  | case2 s => intro h; simpa [startsName, breakLength_append hr s] using h
  | case3 c s _ hb =>
    intro h
    have hm : c ≠ '-' := by
      rintro rfl
      simp [isNameStart] at h
    rw [List.cons_append, startsName]
    · exact h
    · exact fun _ _ hc => absurd hc hm
    · exact hb
  | case4 => simp

lemma length_le_nameLength_append {r : List Char} (hr : breakLength r = 0) {s : List Char}
    (h : nameLength s = s.length) : s.length ≤ nameLength (s ++ r) :=
  length_le_runLength_append rfl (nameUnit_append hr) s h

namespace Lexer

lemma startsNumber_append (r : List Char) {s : List Char} :
    startsNumber s = true → startsNumber (s ++ r) = true := by
  have hd : ∀ t, startsDigit t = true → startsDigit (t ++ r) = true := by
    rintro (_ | ⟨c, t⟩) h
    · simp [startsDigit] at h
    · exact h
  have hu : ∀ t, startsUnsigned t = true → startsUnsigned (t ++ r) = true := by
    intro t
    fun_cases startsUnsigned t with
    | case1 t => exact hd t
    | case2 t hp =>
      intro h
      obtain ⟨c, t, rfl⟩ : ∃ c t', t = c :: t' :=
        List.exists_cons_of_ne_nil (by rintro rfl; simp [startsDigit] at h)
      rw [List.cons_append, startsUnsigned]
      · exact hd _ h
      · rintro t' ⟨⟩
        exact hp t rfl
  fun_cases startsNumber s with
  | case1 s => exact hu s
  | case2 s => exact hu s
  | case3 s hplus hminus =>
    intro h
    obtain ⟨c, s, rfl⟩ : ∃ c s', s = c :: s' :=
      List.exists_cons_of_ne_nil (by rintro rfl; simp [startsUnsigned, startsDigit] at h)
    rw [List.cons_append, startsNumber]
    · exact hu _ h
    · rintro t ⟨⟩
      exact hplus s rfl
    · rintro t ⟨⟩
      exact hminus s rfl

lemma isSpace_of_isNumberHead {c : Char} (h : isNumberHead c = true) : isSpace c = false := by
  by_contra hs
  simp only [isSpace, isBreak, Bool.not_eq_false, Bool.or_eq_true, beq_iff_eq] at hs
  rcases hs with (rfl | rfl) | ((rfl | rfl) | rfl) <;> simp [isNumberHead] at h

lemma first_of_startsNumber {s : List Char} (h : startsNumber s = true) : first s = numeric s := by
  obtain ⟨c, r, rfl, hc⟩ := exists_cons_of_startsNumber h
  have h0 : ¬ 0 < spacesLength (c :: r) := by simp [spacesLength, isSpace_of_isNumberHead hc]
  rw [first, if_neg h0, if_pos h]

lemma numeric_eq {s u : List Char} (h : numberLength (s ++ u) = s.length) : numeric (s ++ u) =
    if u.head? = some '%' then (.percentage, s.length + 1)
    else if startsName u then (.dimension, s.length + nameLength u)
    else (.number, s.length) := by
  simp only [numeric, h, List.drop_left]
  split
  · rfl
  · rename_i hne
    rw [if_neg (head?_ne hne)]

/-- A number that takes a text as a whole is of the same kind with a text behind it that neither
begins a unit nor changes where the number ends. -/
lemma numeric_append {s u r : List Char} (h : numberLength (s ++ u) = s.length)
    (h' : numberLength (s ++ (u ++ r)) = s.length) (hb : breakLength r = 0)
    (hp : r.head? ≠ some '%') (hn : startsName r = false)
    (hl : (s ++ u).length ≤ (numeric (s ++ u)).2) :
    (numeric (s ++ (u ++ r))).1 = (numeric (s ++ u)).1 ∧
      (s ++ u).length ≤ (numeric (s ++ (u ++ r))).2 := by
  rw [numeric_eq h] at hl ⊢
  rw [numeric_eq h', List.length_append]
  rw [List.length_append] at hl
  cases u with
  | nil =>
    have h0 : startsName [] = false := rfl
    simp [hp, hn, h0]
  | cons c u =>
    have hhead : (c :: u ++ r).head? = (c :: u).head? := rfl
    rw [hhead]
    by_cases hc : (c :: u).head? = some '%'
    · rw [if_pos hc] at hl ⊢
      rw [if_pos hc]
      exact ⟨rfl, hl⟩
    rw [if_neg hc] at hl ⊢
    rw [if_neg hc]
    by_cases hs : startsName (c :: u) = true
    · rw [if_pos hs] at hl ⊢
      rw [if_pos (startsName_append hb hs)]
      have hall : nameLength (c :: u) = (c :: u).length :=
        Nat.le_antisymm (nameLength_le _) (Nat.le_of_add_le_add_left hl)
      exact ⟨rfl, Nat.add_le_add_left (length_le_nameLength_append hb hall) _⟩
    · rw [if_neg hs] at hl
      simp at hl

end Lexer
end FontSizeLint.Css

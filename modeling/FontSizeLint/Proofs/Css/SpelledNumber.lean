import FontSizeLint.Proofs.Css.SpelledName

/-! Numbers in other spellings. A number ends at the same place in every spelling of a text and says the
same in each. -/
namespace FontSizeLint.Css.Lexer
open Text Text.Spelling Numeric

variable {w : Spelling}

lemma keeps_digitsLength (s : List Char) : w.Keeps digitsLength s :=
  keeps_takeWhile (by decide) s

lemma startsDigit_spell (s : List Char) : startsDigit (w.spell s) = startsDigit s := by
  have h : ∀ t, startsDigit t = t.head?.any Char.isDigit := by
    rintro (_ | ⟨c, t⟩) <;> rfl
  rw [h, h, any_head?_spell (by decide)]

lemma digitsLength_spell_pos (s : List Char) :
    0 < digitsLength (w.spell s) ↔ 0 < digitsLength s := by
  rw [← startsDigit_iff, ← startsDigit_iff, startsDigit_spell]

lemma keeps_signAt (s : List Char) : w.Keeps (fun s => signAt s 0) s := by
  have h : ∀ t, signAt t 0 = if t.head? = some '+' ∨ t.head? = some '-' then 1 else 0 := by
    intro t
    simp [signAt, List.head?_eq_getElem?]
  have hplus := head?_spell_eq_some (w := w) (x := '+') (by decide) s
  have hminus := head?_spell_eq_some (w := w) (x := '-') (by decide) s
  simp only [Keeps, h, hplus, hminus]
  split_ifs with hs
  · obtain ⟨c, hc, r, rfl⟩ : ∃ c, isBreak c = false ∧ ∃ r, s = c :: r := by
      rcases hs with hs | hs <;> obtain ⟨r, rfl⟩ := List.head?_eq_some_iff.mp hs
      · exact ⟨'+', rfl, r, rfl⟩
      · exact ⟨'-', rfl, r, rfl⟩
    rw [length_spell_take_one hc]
  · rfl

lemma keeps_fractionLength (s : List Char) : w.Keeps fractionLength s := by
  by_cases hs : s.head? = some '.'
  · obtain ⟨r, rfl⟩ := List.head?_eq_some_iff.mp hs
    have hx : isBlind (· == '.') = true := by decide
    rw [Keeps, spell_cons_of_isBlind hx, fractionLength, fractionLength, startsDigit_spell]
    split_ifs
    · rw [length_spell_take_succ hx, keeps_digitsLength]
    · rfl
  · have h : ∀ t : List Char, t.head? ≠ some '.' → fractionLength t = 0 := by
      intro t ht
      rw [fractionLength]
      rintro r rfl
      exact ht rfl
    rw [Keeps, h s hs, h]
    · rfl
    · rwa [ne_eq, head?_spell_eq_some (by decide)]

lemma keeps_exponentLength (s : List Char) : w.Keeps exponentLength s := by
  cases s with
  | nil => rfl
  | cons c s =>
    have h : ∀ d t, Numeral.isExponentMark d = false → exponentLength (d :: t) = 0 := by
      intro d t hd
      rw [exponentLength_cons, hd]
      rfl
    by_cases hc : Numeral.isExponentMark c = true
    · have hb : isBreak c = false := not_isBreak_of_blind (by decide) rfl hc
      have hsum := (keeps_signAt (w := w) s).add (k := digitsLength) (keeps_digitsLength _)
      obtain ⟨d, hd, he⟩ := exists_spell_cons (w := w) hb
      have hm : Numeral.isExponentMark d = Numeral.isExponentMark c :=
        blind_of_toLower_eq (by decide) hd
      rw [Keeps] at hsum ⊢
      rw [he, exponentLength_cons, exponentLength_cons, hm, hc, (keeps_signAt s).drop]
      simp only [digitsLength_spell_pos, Bool.true_and, decide_eq_true_eq]
      split_ifs with hpos
      · rw [Nat.add_assoc, Nat.add_assoc, length_spell_take_add, length_spell_take_one hb,
          List.drop_succ_cons, List.drop_zero, ← hsum, (keeps_signAt s).drop]
      · rfl
    · rw [Bool.not_eq_true] at hc
      obtain ⟨d, t, hd⟩ := List.exists_cons_of_ne_nil (w.write_ne_nil c)
      have hm : Numeral.isExponentMark d = false :=
        (blind_of_mem_write (by decide) (by rw [hd]; simp)).trans hc
      rw [Keeps, spell_cons, hd, List.cons_append, h d _ hm, h c s hc]
      rfl

lemma keeps_unsignedLength (s : List Char) : w.Keeps unsignedLength s :=
  ((keeps_digitsLength s).add (keeps_fractionLength _)).add (keeps_exponentLength _)

lemma keeps_numberLength (s : List Char) : w.Keeps numberLength s := by
  rw [funext numberLength_eq]
  exact (keeps_signAt s).add (keeps_unsignedLength _)

lemma startsUnsigned_spell (s : List Char) : startsUnsigned (w.spell s) = startsUnsigned s := by
  by_cases hs : s.head? = some '.'
  · obtain ⟨r, rfl⟩ := List.head?_eq_some_iff.mp hs
    rw [spell_cons_of_isBlind (by decide)]
    exact startsDigit_spell r
  · have h : ∀ t : List Char, t.head? ≠ some '.' → startsUnsigned t = startsDigit t := by
      intro t ht
      rw [startsUnsigned]
      rintro r rfl
      exact ht rfl
    rw [h s hs, h, startsDigit_spell]
    rwa [ne_eq, head?_spell_eq_some (by decide)]

lemma startsNumber_spell (s : List Char) : startsNumber (w.spell s) = startsNumber s := by
  have h : ∀ t, startsNumber t = startsUnsigned (t.drop (signAt t 0)) := by
    intro t
    fun_cases startsNumber t with
    | case1 t | case2 t => rfl
    | case3 t hplus hminus => rw [signAt_eq_zero hplus hminus, List.drop_zero]
  rw [h, h, (keeps_signAt s).drop, startsUnsigned_spell]

end FontSizeLint.Css.Lexer

namespace FontSizeLint.Numeric.Numeral
open Text Text.Spelling Css

variable {w : Spelling}

lemma isBlind_of_isDigit {c : Char} (h : c.isDigit = true) : isBlind (· == c) = true := by
  obtain ⟨d, rfl⟩ := exists_digitChar h
  revert d
  decide

lemma spell_digits {s : List Char} (hs : ∀ c ∈ s, c.isDigit = true) : w.spell s = s :=
  spell_eq_self fun c hc => isBlind_of_isDigit (hs c hc)

lemma natural?_spell (s : List Char) : natural? (w.spell s) = natural? s := by
  have hnil : (w.spell s).isEmpty = s.isEmpty := by
    rw [Bool.eq_iff_iff, List.isEmpty_iff, List.isEmpty_iff, spell_eq_nil]
  rw [natural?, natural?, all_spell (by decide), hnil]
  split_ifs with h
  · rfl
  · have hs : s ≠ [] ∧ ∀ c ∈ s, c.isDigit = true := by simpa using h
    rw [spell_digits hs.2]

lemma exponent?_cons (c : Char) (s : List Char) : exponent? (c :: s) =
    if isExponentMark c then
      (natural? (s.drop (Lexer.signAt s 0))).map fun n : Nat =>
        if s.head? = some '-' then -(n : Int) else Int.ofNat n
    else none := by
  by_cases hc : isExponentMark c = true
  · simp only [exponent?, hc, if_true]
    split
    · rename_i r
      change _ = (natural? r).map fun n : Nat => -(n : Int)
      cases natural? r <;> rfl
    · rfl
    · rename_i hminus hplus
      rw [Lexer.signAt_eq_zero hplus hminus, List.drop_zero]
      simp only [Lexer.head?_ne hminus, if_false]
  · simp [exponent?, hc]

lemma exponent?_spell (s : List Char) : exponent? (w.spell s) = exponent? s := by
  cases s with
  | nil => rfl
  | cons c s =>
    by_cases hc : isExponentMark c = true
    · obtain ⟨d, hd, he⟩ := exists_spell_cons (w := w) (not_isBreak_of_blind (by decide) rfl hc)
      have hm : isExponentMark d = isExponentMark c := blind_of_toLower_eq (by decide) hd
      have hminus := head?_spell_eq_some (w := w) (x := '-') (by decide) s
      simp only [he, exponent?_cons, hm, (Lexer.keeps_signAt s).drop, natural?_spell, hminus]
    · obtain ⟨d, t, hd⟩ := List.exists_cons_of_ne_nil (w.write_ne_nil c)
      have hm : isExponentMark d = isExponentMark c :=
        blind_of_mem_write (by decide) (by rw [hd]; simp)
      rw [spell_cons, hd, List.cons_append, exponent?_cons, exponent?_cons, hm, if_neg hc, if_neg hc]

lemma decimal?_of_no_point {s : List Char} (h : (s.dropWhile Char.isDigit).head? ≠ some '.') :
    decimal? s = if s.takeWhile Char.isDigit = [] then none
      else (exponent? (s.dropWhile Char.isDigit)).map fun e =>
        ⟨Nat.ofDigitChars 10 (s.takeWhile Char.isDigit) 0, e⟩ := by
  fun_cases decimal? s with
  | case1 whole rest fraction tail hsplit hnil =>
    rw [if_pos (List.append_eq_nil_iff.mp hnil).1]
  | case2 whole rest fraction tail hsplit hne =>
    have hrest : rest.head? ≠ some '.' := h
    obtain ⟨rfl, rfl⟩ : [] = fraction ∧ rest = tail := by
      clear_value rest
      split at hsplit
      · exact absurd rfl hrest
      · exact Prod.mk.inj hsplit
    rw [List.append_nil] at hne ⊢
    rw [if_neg hne]
    simp only [List.length_nil, Nat.cast_zero, sub_zero]
    rfl

lemma decimal?_spell (s : List Char) : decimal? (w.spell s) = decimal? s := by
  have hdigits : ∀ t : List Char, (w.spell t).takeWhile Char.isDigit = t.takeWhile Char.isDigit := by
    intro t
    rw [takeWhile_spell (by decide), spell_digits fun c hc => List.mem_takeWhile_imp hc]
  have hrest : ∀ t : List Char,
      (w.spell t).dropWhile Char.isDigit = w.spell (t.dropWhile Char.isDigit) :=
    dropWhile_spell (by decide)
  by_cases hdot : (s.dropWhile Char.isDigit).head? = some '.'
  · obtain ⟨r, hr⟩ := List.head?_eq_some_iff.mp hdot
    have hr' : (w.spell s).dropWhile Char.isDigit = '.' :: w.spell r := by
      rw [hrest, hr, spell_cons_of_isBlind (by decide)]
    simp only [decimal?, hr, hr', hdigits, hrest, exponent?_spell]
  · have hdot' : ((w.spell s).dropWhile Char.isDigit).head? ≠ some '.' := by
      rwa [hrest, ne_eq, head?_spell_eq_some (by decide)]
    rw [decimal?_of_no_point hdot, decimal?_of_no_point hdot', hdigits, hrest, exponent?_spell]

lemma size?_spell {s : List Char} (hs : ∀ c ∈ s, isBreak c = false) :
    size? (w.spell s) = size? s := by
  rw [size?, size?, decimal?_spell, lower_spell hs]

lemma ofText_eq (s : List Char) : ofText s =
    if s = [] then .error .empty
    else match size? (s.drop (Lexer.signAt s 0)) with
      | some size => .ok ⟨s.head? = some '-', size⟩
      | none => .error .malformed := by
  fun_cases ofText s with
  | case1 => rfl
  | case2 => rfl
  | case3 => rfl
  | case4 s signed hs hminus hplus =>
    rw [if_neg hs, Lexer.signAt_eq_zero hplus hminus, List.drop_zero]
    simp only [Lexer.head?_ne hminus, decide_false]
    rfl

lemma ofText_spell {s : List Char} (hs : ∀ c ∈ s, isBreak c = false) :
    ofText (w.spell s) = ofText s := by
  have hminus := head?_spell_eq_some (w := w) (x := '-') (by decide) s
  have hsize : size? (w.spell (s.drop (Lexer.signAt s 0))) = size? (s.drop (Lexer.signAt s 0)) :=
    size?_spell fun c hc => hs c (List.mem_of_mem_drop hc)
  simp only [ofText_eq, spell_eq_nil, (Lexer.keeps_signAt s).drop, hsize, hminus]

/-- The number at the front of a text is the same in every spelling. -/
theorem leading?_spell (F : Format) (s : List Char) : leading? F (w.spell s) = leading? F s := by
  have hlead := Lexer.leadingLength_eq_numberLength
  have hbreak : ∀ c ∈ s.take (Lexer.numberLength s), isBreak c = false := by
    obtain ⟨l, -, -, ht⟩ := Lexer.exists_text_take s
    intro c hc
    exact not_isBreak_of_blind (by decide) rfl (Lexer.isLiteralChar_of_mem (ht ▸ hc))
  rw [leading?, leading?, hlead, hlead, (Lexer.keeps_numberLength s).take, ofText_spell hbreak]

end FontSizeLint.Numeric.Numeral

import FontSizeLint.Proofs.Css.Position
import FontSizeLint.Proofs.Numeric.Literal

/-! The number at the front of a text is the longest literal there, the same for the lexer and for
the reader of numerals. A literal of a style sheet has a digit behind its point. -/
namespace FontSizeLint.Css.Lexer
open Text Numeric

lemma digitsLength_digitsText_append (ds : List (Fin 10)) (s : List Char) :
    digitsLength (digitsText ds ++ s) = ds.length + digitsLength s := by
  rw [digitsLength, List.takeWhile_append_of_pos isDigit_of_mem_digitsText, List.length_append,
    length_digitsText, digitsLength]

lemma digitsLength_of_undigited {s : List Char} (h : Undigited s) : digitsLength s = 0 := by
  have ht := takeWhile_digitsText_append [] h
  rw [digitsText_nil, List.nil_append] at ht
  rw [digitsLength, ht, List.length_nil]

lemma startsDigit_digitsText_append {ds : List (Fin 10)} (h : ds ≠ []) (s : List Char) :
    startsDigit (digitsText ds ++ s) = true := by
  obtain ⟨d, ds, rfl⟩ := List.exists_cons_of_ne_nil h
  exact isDigit_digitChar d

lemma drop_digitsText_append (ds : List (Fin 10)) (s : List Char) :
    (digitsText ds ++ s).drop ds.length = s := by
  rw [← length_digitsText ds, List.drop_left]

lemma startsDigit_iff (s : List Char) : startsDigit s = true ↔ 0 < digitsLength s := by
  cases s with
  | nil => simp [startsDigit, digitsLength]
  | cons c s =>
    rw [startsDigit, digitsLength, List.takeWhile_cons]
    split <;> simp [*]

lemma exists_digitsText_take (s : List Char) :
    ∃ ds, ds.length = digitsLength s ∧ digitsText ds = s.take (digitsLength s) := by
  have hp : s.takeWhile Char.isDigit = s.take (digitsLength s) :=
    List.prefix_iff_eq_take.mp (List.takeWhile_prefix _)
  obtain ⟨ds, hd⟩ := exists_digitsText (s := s.takeWhile Char.isDigit)
    fun c hc => List.mem_takeWhile_imp hc
  exact ⟨ds, by rw [← length_digitsText, hd, digitsLength], hd.trans hp⟩

lemma exists_ne_nil_digitsText_take {s : List Char} (h : startsDigit s = true) :
    ∃ ds, ds ≠ [] ∧ digitsText ds = s.take (digitsLength s) := by
  obtain ⟨ds, hl, hd⟩ := exists_digitsText_take s
  refine ⟨ds, ?_, hd⟩
  rw [← List.length_pos_iff, hl]
  exact (startsDigit_iff s).mp h

lemma exists_fractionText_take (s : List Char) :
    ∃ f, f ≠ some [] ∧ fractionText f = s.take (fractionLength s) := by
  fun_cases fractionLength s with
  | case1 s h =>
    obtain ⟨ds, hne, hd⟩ := exists_ne_nil_digitsText_take h
    exact ⟨some ds, by simpa using hne, by rw [fractionText, hd, List.take_succ_cons]⟩
  | case2 s h => exact ⟨none, by simp, rfl⟩
  | case3 s h => exact ⟨none, by simp, rfl⟩

lemma exists_exponentText_take (s : List Char) :
    ∃ e, Exponent.text e = s.take (exponentLength s) := by
  have hmark : ∀ (sign : Sign) (c : Char) (r : List Char), (c == 'e' || c == 'E') = true →
      startsDigit r = true → ∃ e, Exponent.text e = c :: (sign.text ++ r.take (digitsLength r)) := by
    intro sign c r hc hr
    obtain ⟨ds, hne, hd⟩ := exists_ne_nil_digitsText_take hr
    have hm : c = 'e' ∨ c = 'E' := by simpa using hc
    exact ⟨some ⟨c, sign, ds, hm, hne⟩, by rw [Exponent.text, hd]⟩
  fun_cases exponentLength s with
  | case2 c hc r hr => simpa [Sign.text] using hmark .plus c r hc hr
  | case4 c hc r hr => simpa [Sign.text] using hmark .minus c r hc hr
  | case6 c hc r _ _ hr => simpa [Sign.text] using hmark .absent c r hc hr
  | _ => exact ⟨none, by simp [Exponent.text]⟩

lemma exists_unsignedText_take (s : List Char) :
    ∃ l : Literal, l.fraction ≠ some [] ∧ (startsUnsigned s = true → l.HasDigits) ∧
      l.unsignedText = s.take (unsignedLength s) := by
  obtain ⟨ws, hl, hw⟩ := exists_digitsText_take s
  obtain ⟨f, hne, hf⟩ := exists_fractionText_take (s.drop (digitsLength s))
  obtain ⟨e, he⟩ := exists_exponentText_take
    (s.drop (digitsLength s + fractionLength (s.drop (digitsLength s))))
  refine ⟨⟨.absent, ws, f, e⟩, hne, ?_, ?_⟩
  · intro hs hnil
    obtain ⟨rfl, hp⟩ := List.append_eq_nil_iff.mp hnil
    have hd : digitsLength s = 0 := hl.symm
    obtain rfl : f = none := by
      cases f with
      | none => rfl
      | some fs => exact absurd (congrArg some hp) hne
    rw [hd, List.drop_zero, fractionText] at hf
    revert hs hd hf
    fun_cases startsUnsigned s with
    | case1 r => simp +contextual [fractionLength]
    | case2 s _ =>
      intro hs hd
      rw [startsDigit_iff] at hs
      omega
  · rw [Literal.unsignedText, hw, hf, he, unsignedLength]
    simp only [List.take_add, List.append_assoc]

lemma unsignedLength_eq_zero {c : Char} (hd : c.isDigit = false) (hp : c ≠ '.') (he : c ≠ 'e')
    (hE : c ≠ 'E') (s : List Char) : unsignedLength (c :: s) = 0 := by
  have hw : digitsLength (c :: s) = 0 := by simp [digitsLength, hd]
  have hf : fractionLength (c :: s) = 0 := by simp [fractionLength, hp]
  have hx : exponentLength (c :: s) = 0 := by simp [exponentLength, he, hE]
  simp [unsignedLength, hw, hf, hx]

lemma unsignedLength_le_numberLength (s : List Char) : unsignedLength s ≤ numberLength s := by
  fun_cases numberLength s with
  | case1 s => simp [unsignedLength_eq_zero]
  | case2 s => simp [unsignedLength_eq_zero]
  | case3 s => exact le_rfl

/-- The number at the front of a text is a literal, with digits if it begins like a number. -/
theorem exists_text_take (s : List Char) :
    ∃ l : Literal, l.fraction ≠ some [] ∧ (startsNumber s = true → l.HasDigits) ∧
      l.text = s.take (numberLength s) := by
  have hsigned : ∀ (sign : Sign) (r : List Char), ∃ l : Literal, l.fraction ≠ some [] ∧
      (startsUnsigned r = true → l.HasDigits) ∧
      l.text = sign.text ++ r.take (unsignedLength r) := by
    intro sign r
    obtain ⟨l, hf, hd, ht⟩ := exists_unsignedText_take r
    exact ⟨{ l with sign := sign }, hf, hd, congrArg (sign.text ++ ·) ht⟩
  fun_cases startsNumber s with
  | case1 r => exact hsigned .plus r
  | case2 r => exact hsigned .minus r
  | case3 s hplus hminus =>
    rw [numberLength.eq_3 s hplus hminus]
    exact hsigned .absent s

lemma exponentLength_of_startsDigit {c : Char} {s : List Char} (hc : (c == 'e' || c == 'E') = true)
    (hs : startsDigit s = true) : exponentLength (c :: s) = digitsLength s + 1 := by
  obtain ⟨d, r, rfl⟩ : ∃ d r, s = d :: r := by
    cases s with
    | nil => simp [startsDigit] at hs
    | cons d r => exact ⟨d, r, rfl⟩
  obtain ⟨hminus, hplus⟩ := ne_sign_of_isDigit (c := d) hs
  simp [exponentLength, hc, hs, hminus, hplus]

lemma length_exponentText_le (e : Option Exponent) (s : List Char) :
    (Exponent.text e).length ≤ exponentLength (Exponent.text e ++ s) := by
  cases e with
  | none => exact Nat.zero_le _
  | some e =>
    have hm : (e.mark == 'e' || e.mark == 'E') = true := by simpa using e.isMark
    have hd := startsDigit_digitsText_append e.ne_nil s
    have hl := digitsLength_digitsText_append e.digits s
    rw [Exponent.text, List.cons_append, List.append_assoc, List.length_cons, List.length_append,
      length_digitsText]
    cases e.sign with
    | plus => simp [Sign.text, exponentLength, hm, hd, hl]; omega
    | minus => simp [Sign.text, exponentLength, hm, hd, hl]; omega
    | absent =>
      rw [Sign.text, List.nil_append, exponentLength_of_startsDigit hm hd, hl, List.length_nil]
      omega

lemma fractionLength_append {f : Option (List (Fin 10))} (hf : f ≠ some []) {s : List Char}
    (hs : Undigited s) (hp : s.head? ≠ some '.') :
    fractionLength (fractionText f ++ s) = (fractionText f).length := by
  cases f with
  | none =>
    cases s with
    | nil => rfl
    | cons c s =>
      have hc : c ≠ '.' := by simpa using hp
      simp [fractionText, fractionLength, hc]
  | some ds =>
    have hne : ds ≠ [] := fun h => hf (congrArg some h)
    rw [fractionText, List.cons_append, fractionLength, startsDigit_digitsText_append hne,
      digitsLength_digitsText_append, digitsLength_of_undigited hs]
    simp

lemma length_fractionText_le {f : Option (List (Fin 10))} (hf : f ≠ some []) (s : List Char) :
    (fractionText f).length ≤ fractionLength (fractionText f ++ s) := by
  cases f with
  | none => exact Nat.zero_le _
  | some ds =>
    have hne : ds ≠ [] := fun h => hf (congrArg some h)
    rw [fractionText, List.cons_append, fractionLength, startsDigit_digitsText_append hne,
      digitsLength_digitsText_append]
    simp

lemma length_unsignedText_le {l : Literal} (hf : l.fraction ≠ some []) (s : List Char) :
    l.unsignedText.length ≤ unsignedLength (l.unsignedText ++ s) := by
  simp only [Literal.unsignedText, List.append_assoc, unsignedLength, List.length_append,
    length_digitsText]
  cases he : l.exponent with
  | some e =>
    -- Before a mark the digits and the fraction end for certain.
    have hu : Undigited (Exponent.text (some e) ++ s) := undigited_cons e.isDigit_mark _
    have hp : (Exponent.text (some e) ++ s).head? ≠ some '.' := by
      rcases e.isMark with hm | hm <;> simp [Exponent.text, hm]
    have hx := length_exponentText_le (some e) s
    rw [digitsLength_digitsText_append,
      digitsLength_of_undigited (undigited_fraction_append _ hu), Nat.add_zero, ← List.drop_drop,
      drop_digitsText_append, fractionLength_append hf hu hp, List.drop_left]
    omega
  | none =>
    rw [digitsLength_digitsText_append, Exponent.text, List.nil_append, List.length_nil]
    cases hfr : l.fraction with
    | none =>
      rw [fractionText, List.length_nil]
      omega
    | some ds =>
      have hx := length_fractionText_le (hfr ▸ hf) s
      have hu : Undigited (fractionText (some ds) ++ s) := undigited_cons rfl _
      rw [digitsLength_of_undigited hu, Nat.add_zero, Nat.add_zero, drop_digitsText_append]
      omega

/-- No literal at the front of a text is longer than the number there. -/
theorem length_text_le {l : Literal} (hf : l.fraction ≠ some []) {s : List Char}
    (h : l.text <+: s) : l.text.length ≤ numberLength s := by
  obtain ⟨r, rfl⟩ := h
  have hu := length_unsignedText_le hf r
  rw [Literal.text, List.append_assoc, List.length_append]
  cases l.sign with
  | plus => simpa [Sign.text, numberLength, Nat.add_comm] using hu
  | minus => simpa [Sign.text, numberLength, Nat.add_comm] using hu
  | absent =>
    rw [Sign.text, List.length_nil, Nat.zero_add, List.nil_append]
    exact hu.trans (unsignedLength_le_numberLength _)

lemma digitsLength_le (s : List Char) : digitsLength s ≤ s.length :=
  (List.takeWhile_prefix _).length_le

lemma fractionLength_le (s : List Char) : fractionLength s ≤ s.length := by
  fun_cases fractionLength s with
  | case1 s => exact Nat.succ_le_succ (digitsLength_le s)
  | _ => exact Nat.zero_le _

lemma exponentLength_le (s : List Char) : exponentLength s ≤ s.length := by
  fun_cases exponentLength s with
  | case2 c hc r => exact Nat.add_le_add_right (digitsLength_le r) 2
  | case4 c hc r => exact Nat.add_le_add_right (digitsLength_le r) 2
  | case6 c hc r => exact Nat.add_le_add_right (digitsLength_le r) 1
  | _ => exact Nat.zero_le _

lemma unsignedLength_le (s : List Char) : unsignedLength s ≤ s.length := by
  have hw := digitsLength_le s
  have hf := fractionLength_le (s.drop (digitsLength s))
  have he := exponentLength_le (s.drop (digitsLength s + fractionLength (s.drop (digitsLength s))))
  rw [List.length_drop] at hf he
  rw [unsignedLength]
  omega

lemma numberLength_le (s : List Char) : numberLength s ≤ s.length := by
  fun_cases numberLength s with
  | case1 s => exact Nat.succ_le_succ (unsignedLength_le s)
  | case2 s => exact Nat.succ_le_succ (unsignedLength_le s)
  | case3 s => exact unsignedLength_le s

def isLiteralChar (c : Char) : Bool :=
  c.isDigit || c == '+' || c == '-' || c == '.' || c == 'e' || c == 'E'

lemma isLiteralChar_of_mem {l : Literal} {c : Char} (h : c ∈ l.text) : isLiteralChar c = true := by
  have hd : ∀ ds : List (Fin 10), c ∈ digitsText ds → isLiteralChar c = true := by
    intro ds hc
    simp [isLiteralChar, isDigit_of_mem_digitsText c hc]
  have hs : ∀ sign : Sign, c ∈ sign.text → isLiteralChar c = true := by
    rintro ⟨⟩ hc <;> simp [Sign.text] at hc <;> simp [isLiteralChar, hc]
  have hf : ∀ f, c ∈ fractionText f → isLiteralChar c = true := by
    rintro (_ | ds) hc
    · simp [fractionText] at hc
    · rcases List.mem_cons.mp hc with rfl | hc
      · rfl
      · exact hd ds hc
  have he : ∀ e, c ∈ Exponent.text e → isLiteralChar c = true := by
    rintro (_ | e) hc
    · simp [Exponent.text] at hc
    · rcases List.mem_cons.mp hc with rfl | hc
      · rcases e.isMark with hm | hm <;> rw [hm] <;> rfl
      · exact (List.mem_append.mp hc).elim (hs _) (hd _)
  simp only [Literal.text, Literal.unsignedText, List.mem_append] at h
  rcases h with h | h | h | h
  · exact hs _ h
  · exact hd _ h
  · exact hf _ h
  · exact he _ h

/-- A number ends where it ends in another text, if every literal at the front of the one text stands
at the front of the other. -/
lemma numberLength_congr {s u v : List Char} (h : numberLength (s ++ u) = s.length)
    (hv : ∀ l : Literal, l.text <+: s ++ v → l.text <+: s ++ u) :
    numberLength (s ++ v) = s.length := by
  obtain ⟨l, hf, -, ht⟩ := exists_text_take (s ++ u)
  obtain ⟨m, hg, -, hm⟩ := exists_text_take (s ++ v)
  rw [h, List.take_left] at ht
  apply Nat.le_antisymm
  · have hp : m.text <+: s ++ v := hm ▸ List.take_prefix _ _
    have hle := length_text_le hg (hv m hp)
    rwa [hm, List.length_take_of_le (numberLength_le _), h] at hle
  · have hle := length_text_le (s := s ++ v) hf (ht ▸ List.prefix_append s v)
    rwa [ht] at hle

lemma head?_ne {c : Char} {s : List Char} (h : ∀ t, s = c :: t → False) : s.head? ≠ some c := by
  intro hs
  obtain ⟨t, ht⟩ := List.head?_eq_some_iff.mp hs
  exact h t ht

/-- Length of a sign at an offset, if there is one. -/
def signAt (s : List Char) (k : Nat) : Nat :=
  if s[k]? == some '+' || s[k]? == some '-' then 1 else 0

lemma signAt_eq (s : List Char) (k : Nat) : signAt s k = signAt (s.drop k) 0 := by
  rw [signAt, signAt, List.getElem?_drop, Nat.add_zero]

lemma signAt_eq_zero {s : List Char} (hplus : ∀ r, s = '+' :: r → False)
    (hminus : ∀ r, s = '-' :: r → False) : signAt s 0 = 0 := by
  have hp := head?_ne hplus
  have hm := head?_ne hminus
  rw [List.head?_eq_getElem?] at hp hm
  simp [signAt, hp, hm]

lemma numberLength_eq (s : List Char) :
    numberLength s = signAt s 0 + unsignedLength (s.drop (signAt s 0)) := by
  fun_cases numberLength s with
  | case1 s => exact Nat.add_comm _ 1
  | case2 s => exact Nat.add_comm _ 1
  | case3 s hplus hminus => rw [signAt_eq_zero hplus hminus, Nat.zero_add, List.drop_zero]

lemma add_fractionLength_drop (s : List Char) (m : Nat) :
    m + fractionLength (s.drop m) =
      if s[m]? == some '.' && 0 < digitsLength (s.drop (m + 1)) then
        m + 1 + digitsLength (s.drop (m + 1))
      else m := by
  rw [← List.head?_drop, ← List.tail_drop]
  generalize s.drop m = r
  fun_cases fractionLength r with
  | case1 r h => simp [(startsDigit_iff r).mp h]; omega
  | case2 r h =>
    rw [startsDigit_iff] at h
    simp [h]
  | case3 r h =>
    simp [head?_ne h]

lemma exponentLength_cons (c : Char) (s : List Char) : exponentLength (c :: s) =
    if Numeral.isExponentMark c && 0 < digitsLength (s.drop (signAt s 0)) then
      1 + signAt s 0 + digitsLength (s.drop (signAt s 0))
    else 0 := by
  by_cases hm : Numeral.isExponentMark c = true
  · have hc : (c == 'e' || c == 'E') = true := hm
    by_cases hplus : ∃ r, s = '+' :: r
    · obtain ⟨r, rfl⟩ := hplus
      simp only [exponentLength, hc, hm, if_true, signAt, startsDigit_iff]
      simp [Nat.add_comm]
    by_cases hminus : ∃ r, s = '-' :: r
    · obtain ⟨r, rfl⟩ := hminus
      simp only [exponentLength, hc, hm, if_true, signAt, startsDigit_iff]
      simp [Nat.add_comm]
    have hz := signAt_eq_zero (fun r hr => hplus ⟨r, hr⟩) (fun r hr => hminus ⟨r, hr⟩)
    rw [exponentLength, hz]
    · simp [hc, hm, startsDigit_iff, Nat.add_comm]
    · exact fun r hr => hplus ⟨r, hr⟩
    · exact fun r hr => hminus ⟨r, hr⟩
  · have hc : (c == 'e' || c == 'E') = false := by simpa [Numeral.isExponentMark] using hm
    simp [exponentLength, hc, hm]

lemma add_exponentLength_drop (s : List Char) (m : Nat) :
    m + exponentLength (s.drop m) =
      if s[m]?.any Numeral.isExponentMark &&
          0 < digitsLength (s.drop (m + 1 + signAt s (m + 1))) then
        m + 1 + signAt s (m + 1) + digitsLength (s.drop (m + 1 + signAt s (m + 1)))
      else m := by
  rw [← List.head?_drop, signAt_eq s (m + 1), ← List.drop_drop, ← List.tail_drop]
  cases s.drop m with
  | nil => simp [exponentLength]
  | cons c r =>
    rw [exponentLength_cons, List.head?_cons, Option.any_some, List.tail_cons]
    split_ifs <;> omega

theorem leadingLength_eq_numberLength (s : List Char) :
    Numeral.leadingLength s = numberLength s := by
  have hf := add_fractionLength_drop s (signAt s 0 + digitsLength (s.drop (signAt s 0)))
  have he := add_exponentLength_drop s (signAt s 0 + digitsLength (s.drop (signAt s 0)) +
    fractionLength (s.drop (signAt s 0 + digitsLength (s.drop (signAt s 0)))))
  calc Numeral.leadingLength s = _ := by rw [hf]; rfl
    _ = _ := he.symm
    _ = numberLength s := by
      rw [numberLength_eq, unsignedLength]
      simp only [List.drop_drop, Nat.add_assoc]

lemma isBlank_of_isLiteralChar {c : Char} (h : isLiteralChar c = true) : isBlank c = false := by
  by_cases hn : isNumberHead c = true
  · exact isBlank_of_isNumberHead hn
  · have he : c = 'e' ∨ c = 'E' := by
      simp only [isLiteralChar, isNumberHead, Bool.or_eq_true, beq_iff_eq] at h hn
      tauto
    rcases he with rfl | rfl <;> rfl

lemma trim_text_append {l : Literal} (hl : l.HasDigits) (r : List Char) :
    trim (l.text ++ r) = l.text ++ trimEnd r :=
  trim_append (Literal.text_ne_nil hl) (fun _ hc => isBlank_of_isLiteralChar (isLiteralChar_of_mem hc)) r

lemma numberLength_le_numeric (s : List Char) : numberLength s ≤ (numeric s).2 := by
  fun_cases numeric s <;> simp only [] <;> omega

lemma leading?_eq {l : Literal} (hl : l.HasDigits) {v : List Char}
    (h : numberLength (l.text ++ v) = l.text.length) (F : Format) :
    Numeral.leading? F (l.text ++ v) = some (l.decimal.toBinary F l.sign.isNegative) := by
  rw [Numeral.leading?, leadingLength_eq_numberLength, h, List.take_left, Numeral.ofText_text hl]
  rfl

end FontSizeLint.Css.Lexer

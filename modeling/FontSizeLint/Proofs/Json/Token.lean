import FontSizeLint.Json.Reader
import FontSizeLint.Proofs.Json.Grammar

/-! The tokens of well-formed texts. A string, a number or a word of the grammar in front of more
text is one token, with the value that it denotes and its own length; a number only if what comes
next ends it. -/
namespace FontSizeLint.Json
open Numeric

namespace Token

lemma isSpace_of_mem_blanks : ∀ c ∈ blanks, isSpace c = true := by simp [blanks, isSpace]

lemma first_of_mem_blanks {c : Char} (hc : c ∈ blanks) (s : List Char) :
    first (c :: s) = (.space, 1) := by
  simp [first, isSpace_of_mem_blanks c hc]

/-- What parts the values of an array or object, or encloses them. -/
def marks : List Char := ['[', ']', '{', '}', ',', ':']

lemma isMark_of_mem_marks : ∀ c ∈ marks, isSpace c = false ∧ isMark c = true := by
  simp [marks, isSpace, isMark]

lemma first_of_mem_marks {c : Char} (hc : c ∈ marks) (s : List Char) :
    first (c :: s) = (.mark c, 1) := by
  simp [first, isMark_of_mem_marks c hc]

section Strings

lemma hexValue?_of_mem : ∀ d ∈ hexDigits, hexValue? d.1 = some d.2 := by decide

lemma utf8Size_of_mem_hexDigits : ∀ d ∈ hexDigits, d.1.utf8Size = 1 := by decide

lemma mapM_hexValue? {ds : List (Char × Nat)} (h : ∀ d ∈ ds, d ∈ hexDigits) :
    (ds.map Prod.fst).mapM hexValue? = some (ds.map Prod.snd) := by
  induction ds with
  | nil => rfl
  | cons d ds ih =>
    rw [List.forall_mem_cons] at h
    simp [hexValue?_of_mem d h.1, ih h.2]

lemma foldl_utf8Size {ds : List (Char × Nat)} (h : ∀ d ∈ ds, d ∈ hexDigits) (n : Nat) :
    (ds.map Prod.fst).foldl (fun n c => n + c.utf8Size) n = n + ds.length := by
  induction ds generalizing n with
  | nil => rfl
  | cons d ds ih =>
    rw [List.forall_mem_cons] at h
    rw [List.map_cons, List.foldl_cons, ih h.2, utf8Size_of_mem_hexDigits d h.1, List.length_cons]
    omega

lemma hex4_text_append (q : Hex4) (s : List Char) : hex4 (q.text ++ s) = .ok q.value := by
  have htake : (q.text ++ s).take 4 = q.text := by rw [← q.length_text, List.take_left]
  have hsize : q.text.foldl (fun n c => n + c.utf8Size) 0 = 4 := by
    rw [Hex4.text, foldl_utf8Size q.isHex, q.length_eq]
  have hmap : q.text.mapM hexValue? = some (q.digits.map Prod.snd) := mapM_hexValue? q.isHex
  rw [hex4, htake, hsize, hmap]
  simp [Hex4.value, List.foldl_map]

lemma numberedChar_text_append {q : Hex4} (h : q.value.isValidChar) (s : List Char) :
    numberedChar (q.text ++ s) = .ok (Char.ofNat q.value, 4) := by
  unfold Nat.isValidChar at h
  simp only [numberedChar, hex4_text_append, bind, Except.bind, Bool.and_eq_true, decide_eq_true_eq]
  rw [if_neg (by omega), if_neg (by omega)]

lemma numberedChar_surrogates {q r : Hex4} (hq : q.IsLeading) (hr : r.IsTrailing) (s : List Char) :
    numberedChar (q.text ++ ('\\' :: 'u' :: (r.text ++ s))) =
      .ok (Char.ofNat (0x10000 + (q.value - 0xD800) * 0x400 + (r.value - 0xDC00)), 10) := by
  unfold Hex4.IsLeading at hq
  unfold Hex4.IsTrailing at hr
  have hdrop : (q.text ++ ('\\' :: 'u' :: (r.text ++ s))).drop 4 = '\\' :: 'u' :: (r.text ++ s) := by
    rw [← q.length_text, List.drop_left]
  have htrail : trailingSurrogate ('\\' :: 'u' :: (r.text ++ s)) = .ok r.value := by
    simp [trailingSurrogate, hex4_text_append, bind, Except.bind, hr]
  simp only [numberedChar, hex4_text_append, hdrop, htrail, bind, Except.bind, Bool.and_eq_true,
    decide_eq_true_eq]
  rw [if_neg (by omega), if_pos hq]

lemma escape_letter : ∀ p ∈ letterEscapes, ∀ s, escape (p.1 :: s) = .ok (p.2, 1) := by
  simp [letterEscapes, escape]

lemma escape_append {e : List Char} {c : Char} (h : DenotesEscape e c) (s : List Char) :
    escape (e ++ s) = .ok (c, e.length) := by
  cases h with
  | letter h => exact escape_letter _ h s
  | @numbered q h =>
    rw [List.cons_append, escape, numberedChar_text_append h, List.length_cons, Hex4.length_text]
    rfl
  | @surrogates q r hq hr =>
    rw [List.cons_append, List.append_assoc, List.cons_append, List.cons_append, escape,
      numberedChar_surrogates hq hr]
    simp [Except.map, Hex4.length_text]

lemma characters_skip (s r : List Char) :
    characters s.length (s ++ r) = (characters 0 r).map fun p => (p.1, p.2 + s.length) := by
  induction s with
  | nil => cases h : characters 0 r <;> simp [h, Except.map]
  | cons c s ih =>
    rw [List.length_cons, List.cons_append, characters, ih]
    cases characters 0 r <;> simp [Except.map, Nat.add_assoc]

lemma characters_append {s : List Char} {c : Char} (h : DenotesChar s c) (r : List Char) :
    characters 0 (s ++ r) = (characters 0 r).map fun p => (c :: p.1, p.2 + s.length) := by
  cases h with
  | plain hc hq hb => simp [characters, hq, hb, Nat.not_lt.mpr hc]
  | @escaped e _ h =>
    have he : ¬ '\\'.toNat < 0x20 := by decide
    rw [List.cons_append, characters, escape_append h]
    simp only [Char.reduceBEq, Bool.false_eq_true, if_false, if_neg he, if_true, characters_skip]
    cases characters 0 r <;> simp [Except.map, Nat.add_assoc]

lemma characters_flatten {letters : List (List Char)} {t : List Char}
    (h : List.Forall₂ DenotesChar letters t) (r : List Char) :
    characters 0 (letters.flatten ++ '"' :: r) = .ok (t, letters.flatten.length + 1) := by
  induction h with
  | nil => rfl
  | @cons s c letters t hc _ ih =>
    rw [List.flatten_cons, List.append_assoc, characters_append hc, ih]
    simp only [Except.map, List.length_append]
    congr 2
    omega

lemma first_string {s : List Char} {t : String} (h : DenotesString s t) (r : List Char) :
    first (s ++ r) = (.scalar (.string t), s.length) := by
  obtain ⟨letters, hl, rfl⟩ := h
  rw [List.cons_append, List.append_assoc, List.cons_append, List.nil_append, first,
    characters_flatten hl]
  simp [isSpace, isMark]

end Strings

section Numbers

def delimiters : List Char := blanks ++ [',', ']', '}']

def Delimited (s : List Char) : Prop := ∀ c ∈ s.head?, c ∈ delimiters

lemma delimited_nil : Delimited [] := by simp [Delimited]

lemma delimited_cons {c : Char} (hc : c ∈ delimiters) (s : List Char) : Delimited (c :: s) := by
  rintro d ⟨⟩
  exact hc

lemma delimited_append (b : Blank) {s : List Char} (hs : Delimited s) :
    Delimited (b.text ++ s) := by
  cases hb : b.text with
  | nil => exact hs
  | cons c t =>
    have hc : c ∈ blanks := b.mem_blanks c (by simp [hb])
    exact delimited_cons (List.mem_append_left _ hc) _

lemma not_numeric_of_mem_delimiters :
    ∀ c ∈ delimiters, c.isDigit = false ∧ c ≠ '.' ∧ Numeral.isExponentMark c = false := by
  simp [delimiters, blanks, Numeral.isExponentMark]

/-- Neither a digit nor a point stands at the front. -/
def Unpointed (s : List Char) : Prop := Undigited s ∧ s.head? ≠ some '.'

lemma unpointed_exponent_append (e : Option Exponent) {s : List Char} (hs : Delimited s) :
    Unpointed (Exponent.text e ++ s) := by
  cases e with
  | none =>
    refine ⟨fun c hc => (not_numeric_of_mem_delimiters c (hs c hc)).1, fun h => ?_⟩
    exact (not_numeric_of_mem_delimiters '.' (hs '.' h)).2.1 rfl
  | some e =>
    refine ⟨undigited_cons e.isDigit_mark _, fun h => ?_⟩
    have hm : e.mark = '.' := by simpa [Exponent.text] using h
    rcases e.isMark with he | he <;> rw [he] at hm <;> exact absurd hm (by decide)

end Numbers
end Token

namespace Number
open Token

lemma digits_append {ds : List (Fin 10)} (hd : ds ≠ []) {s : List Char} (hs : Undigited s) :
    digits (digitsText ds ++ s) = .ok (digitsText ds) := by
  rw [digits, takeWhile_digitsText_append ds hs]
  cases h : digitsText ds with
  | nil => exact absurd (digitsText_eq_nil.mp h) hd
  | cons c cs => rfl

lemma whole_append {l : Literal} (hl : IsNumber l) {s : List Char} (hs : Undigited s) :
    whole (digitsText l.whole ++ s) = .ok (digitsText l.whole) := by
  rw [whole, digits_append hl.whole_ne hs]
  simp only [bind, Except.bind]
  split
  · rename_i c cs h
    obtain ⟨d, ds, hw⟩ := List.exists_cons_of_ne_nil hl.whole_ne
    have hzero : ∀ d : Fin 10, Nat.digitChar d = '0' → d = 0 := by decide
    rw [hw, digitsText_cons, List.cons.injEq] at h
    rw [hzero d h.1] at hw
    simp [hl.zero_alone ds hw] at h
  · rfl

lemma fraction_append {f : Option (List (Fin 10))} (hf : f ≠ some []) {s : List Char}
    (hs : Unpointed s) : fraction (fractionText f ++ s) = .ok (f.map digitsText) := by
  cases f with
  | none =>
    rw [fractionText, List.nil_append, fraction]
    · rfl
    · rintro r rfl
      exact hs.2 rfl
  | some ds =>
    have hd : ds ≠ [] := by rintro rfl; exact hf rfl
    rw [fractionText, List.cons_append, fraction, digits_append hd hs.1]
    rfl

lemma exponent_append (e : Option Exponent) {s : List Char} (hs : Delimited s) :
    exponent (Exponent.text e ++ s) =
      .ok (e.map fun e => (e.sign.isNegative, digitsText e.digits), (Exponent.text e).length) := by
  cases e with
  | none =>
    cases s with
    | nil => rfl
    | cons c s =>
      have hc : (c == 'e' || c == 'E') = false := (not_numeric_of_mem_delimiters c (hs c rfl)).2.2
      simp [Exponent.text, exponent, hc]
  | some e =>
    have hu : Undigited s := (unpointed_exponent_append none hs).1
    have hd := digits_append e.ne_nil hu
    have hm : (e.mark == 'e' || e.mark == 'E') = true := by simpa using e.isMark
    rw [Exponent.text, List.cons_append, List.append_assoc]
    cases hsign : e.sign with
    | plus => simp [exponent, hm, hd, Sign.text, Sign.isNegative, hsign, Except.map]
    | minus => simp [exponent, hm, hd, Sign.text, Sign.isNegative, hsign, Except.map]
    | absent =>
      obtain ⟨d, ds, he⟩ := List.exists_cons_of_ne_nil e.ne_nil
      have hn := ne_sign_of_isDigit (isDigit_digitChar d)
      have hne : ∀ c ∈ ['-', '+'], ∀ r, digitsText e.digits ++ s ≠ c :: r := by
        rintro c hc r h
        rw [he, digitsText_cons, List.cons_append, List.cons.injEq] at h
        rw [← h.1] at hc
        simp [hn] at hc
      rw [Sign.text, List.nil_append, exponent, if_pos hm, hd]
      · simp [Sign.isNegative, hsign, Except.map]
      · exact hne '-' (by simp)
      · exact hne '+' (by simp)

lemma drop_sign {l : Literal} (hl : IsNumber l) (s : List Char) :
    ((l.text ++ s).head? == some '-') = l.sign.isNegative ∧
      (if l.sign.isNegative then (l.text ++ s).drop 1 else l.text ++ s) = l.unsignedText ++ s := by
  obtain ⟨d, ds, hw⟩ := List.exists_cons_of_ne_nil hl.whole_ne
  have hn := ne_sign_of_isDigit (isDigit_digitChar d)
  cases hsign : l.sign with
  | plus => exact absurd hsign hl.sign_ne
  | minus => simp [Literal.text, hsign, Sign.text, Sign.isNegative]
  | absent => simp [Literal.text, Literal.unsignedText, hw, hsign, Sign.text, Sign.isNegative, hn.1]

/-- A number of the grammar is read to its end. -/
theorem read_append {l : Literal} (hl : IsNumber l) {x : Number} (hx : ofLiteral? l = some x)
    {s : List Char} (hs : Delimited s) : read (l.text ++ s) = .ok (x, l.text.length) := by
  have hu := unpointed_exponent_append l.exponent hs
  have hw := whole_append hl (undigited_fraction_append l.fraction hu.1)
  have hf := fraction_append hl.fraction_ne hu
  have he := exponent_append l.exponent hs
  have hfl : ((l.fraction.map digitsText).map fun ds => ds.length + 1).getD 0 =
      (fractionText l.fraction).length := by
    cases l.fraction <;> simp [fractionText]
  have hsl : (if l.sign.isNegative then 1 else 0) = l.sign.text.length := by
    cases hsign : l.sign with
    | plus => exact absurd hsign hl.sign_ne
    | minus => rfl
    | absent => rfl
  rw [read]
  simp only [drop_sign hl s, Literal.unsignedText, List.append_assoc, hw, bind, Except.bind,
    List.drop_left, hf, hfl, he]
  rw [ofLiteral?] at hx
  rw [hx, hsl]
  simp only [Literal.text, Literal.unsignedText, List.length_append]
  congr 2
  omega

end Number

namespace Token

def numberHeads : List Char := '-' :: digitsText [0, 1, 2, 3, 4, 5, 6, 7, 8, 9]

lemma numberHeads_spec : ∀ c ∈ numberHeads, isSpace c = false ∧ isMark c = false ∧
    (c == '"') = false ∧ (c == '-' || c.isDigit) = true := by
  simp [numberHeads, isSpace, isMark]

lemma exists_numberHead {l : Literal} (hl : IsNumber l) :
    ∃ c ∈ numberHeads, ∃ s, l.text = c :: s := by
  obtain ⟨d, ds, hw⟩ := List.exists_cons_of_ne_nil hl.whole_ne
  have hd : ∀ d : Fin 10, Nat.digitChar d ∈ numberHeads := by decide
  cases hsign : l.sign with
  | plus => exact absurd hsign hl.sign_ne
  | minus => exact ⟨'-', List.mem_cons_self, _, by rw [Literal.text, hsign]; rfl⟩
  | absent =>
    refine ⟨Nat.digitChar d, hd d,
      digitsText ds ++ (fractionText l.fraction ++ Exponent.text l.exponent), ?_⟩
    rw [Literal.text, hsign, Literal.unsignedText, hw]
    rfl

lemma first_number {l : Literal} (hl : IsNumber l) {x : Number} (hx : ofLiteral? l = some x)
    {s : List Char} (hs : Delimited s) :
    first (l.text ++ s) = (.scalar (.number x), l.text.length) := by
  have hread := Number.read_append hl hx hs
  obtain ⟨c, hc, r, ht⟩ := exists_numberHead hl
  obtain ⟨hspace, hmark, hquote, hnumber⟩ := numberHeads_spec c hc
  rw [ht, List.cons_append] at hread ⊢
  simp [first, hspace, hmark, hquote, hnumber, hread]

end Token
end FontSizeLint.Json

import FontSizeLint.Css.Token.Lexer
import FontSizeLint.Proofs.Text.Cut

/-! Where tokens end. No token ends between a carriage return and its line feed, so the position of
a token, which is counted token by token, is that of its offset in the text. -/
namespace FontSizeLint.Css
open Text

lemma ne_return_of_breakLength {c : Char} {s : List Char} (h : breakLength (c :: s) = 0) :
    c ≠ '\r' := by
  rintro rfl
  cases s with
  | nil => simp [breakLength, isBreak] at h
  | cons d s =>
    by_cases hd : d = '\n'
    · simp [hd, breakLength] at h
    · rw [breakLength.eq_2 _ _ (by simpa using hd)] at h
      simp [isBreak] at h

lemma intact_spaceLength (s : List Char) : Intact s (spaceLength s) := by
  fun_cases spaceLength s with
  | case1 c s hc => exact intact_one (by rintro rfl; simp at hc) s
  | case2 c s hc => exact intact_breakLength _
  | case3 => exact intact_zero []

lemma hexDigits_eq_take (s : List Char) : hexDigits s = s.take (hexDigits s).length :=
  List.prefix_iff_eq_take.mp ((List.takeWhile_prefix _).trans (List.take_prefix 6 s))

lemma intact_escapeLength {s : List Char} (h : breakLength s = 0) : Intact s (escapeLength s) := by
  fun_cases escapeLength s with
  | case1 => exact intact_zero []
  | case2 c s hc n =>
    apply Intact.add
    · apply intact_of_forall_take
      rw [← hexDigits_eq_take]
      rintro d hd rfl
      have hx := List.mem_takeWhile_imp hd
      simp [isHex] at hx
    · exact intact_spaceLength _
  | case3 c s hc => exact intact_one (ne_return_of_breakLength h) s

lemma intact_nameUnit (s : List Char) : Intact s (nameUnit s) := by
  fun_cases nameUnit s with
  | case1 => exact intact_zero []
  | case2 c s hc => exact intact_one (by rintro rfl; simp [isNameChar, isNameStart] at hc) s
  | case3 c s hc h =>
    obtain ⟨rfl, hb⟩ : c = '\\' ∧ breakLength s = 0 := by simpa using h
    exact (intact_escapeLength hb).cons (by decide)
  | case4 c s hc h => exact intact_zero _

lemma intact_nameLength (s : List Char) : Intact s (nameLength s) :=
  intact_runLength rfl intact_nameUnit s

namespace Lexer

lemma intact_digitsLength (s : List Char) : Intact s (digitsLength s) :=
  intact_takeWhile (by decide) s

lemma intact_fractionLength (s : List Char) : Intact s (fractionLength s) := by
  fun_cases fractionLength s with
  | case1 s h => exact (intact_digitsLength s).cons (by decide)
  | case2 s h => exact intact_zero _
  | case3 s h => exact intact_zero _

lemma intact_exponentLength (s : List Char) : Intact s (exponentLength s) := by
  have hmark : ∀ c : Char, (c == 'e' || c == 'E') = true → c ≠ '\r' := by
    rintro c hc rfl
    simp at hc
  fun_cases exponentLength s with
  | case1 => exact intact_zero []
  | case2 c hc r h => exact ((intact_digitsLength r).cons (by decide)).cons (hmark c hc)
  | case3 c hc r h => exact intact_zero _
  | case4 c hc r h => exact ((intact_digitsLength r).cons (by decide)).cons (hmark c hc)
  | case5 c hc r h => exact intact_zero _
  | case6 c hc r _ _ h => exact (intact_digitsLength r).cons (hmark c hc)
  | case7 c hc r _ _ h => exact intact_zero _
  | case8 c s hc => exact intact_zero _

lemma intact_unsignedLength (s : List Char) : Intact s (unsignedLength s) :=
  ((intact_digitsLength s).add (intact_fractionLength _)).add (intact_exponentLength _)

lemma intact_numberLength (s : List Char) : Intact s (numberLength s) := by
  fun_cases numberLength s with
  | case1 s => exact (intact_unsignedLength s).cons (by decide)
  | case2 s => exact (intact_unsignedLength s).cons (by decide)
  | case3 s => exact intact_unsignedLength _

lemma intact_numeric (s : List Char) : Intact s (numeric s).2 := by
  fun_cases numeric s with
  | case1 n r h => exact intact_succ h (by decide)
  | case2 n _ _ => exact (intact_numberLength s).add (intact_nameLength _)
  | case3 n _ _ => exact intact_numberLength s

lemma intact_stringUnit (quote : Char) (s : List Char) : Intact s (stringUnit quote s) := by
  fun_cases stringUnit quote s with
  | case1 => exact intact_zero []
  | case2 c s h => exact intact_zero _
  | case3 c s h hc =>
    apply Intact.cons (by rintro rfl; simp at hc)
    split_ifs with hb
    · exact intact_escapeLength (by simpa using hb)
    · exact intact_breakLength s
  | case4 c s h hc => exact intact_one (by rintro rfl; simp [isBreak] at h) s

lemma intact_quoted {quote : Char} (hq : quote ≠ '\r') (s : List Char) :
    Intact s (quoted quote s).2 := by
  fun_cases quoted quote s with
  | case1 n h => exact intact_of_drop_eq_nil h
  | case2 n c r h hc => exact intact_succ h (by simp_all)
  | case3 n c r h hc => exact intact_runLength rfl (intact_stringUnit quote) s

lemma isSpace_drop_spacesLength {s r : List Char} {c : Char}
    (h : s.drop (spacesLength s) = c :: r) : isSpace c = false := by
  have hd := List.head?_dropWhile_not isSpace s
  rw [spacesLength, drop_length_takeWhile] at h
  simpa [h] using hd

lemma intact_spacesLength (s : List Char) : Intact s (spacesLength s) := by
  rintro ⟨-, hn⟩
  obtain ⟨r, hr⟩ := List.head?_eq_some_iff.mp hn
  have hs := isSpace_drop_spacesLength hr
  simp [isSpace, isBreak] at hs

lemma intact_badUrlLength (s : List Char) : Intact s (badUrlLength s) := by
  have hu : badUrlUnit (s.drop (runLength badUrlUnit 0 s)) = 0 := unit_drop_runLength rfl s
  simp only [badUrlLength]
  cases h : s.drop (runLength badUrlUnit 0 s) with
  | nil => exact intact_of_drop_eq_nil h
  | cons c r =>
    have hc : c ≠ '\r' := by
      rintro rfl
      rw [h] at hu
      simp [badUrlUnit] at hu
    have hl : (c :: r).length.min 1 = 1 := Nat.min_eq_right (Nat.succ_pos _)
    rw [hl]
    exact intact_succ h hc

lemma intact_url? (s : List Char) : ∀ p, url? s = some p → Intact s p.2 := by
  fun_cases url? s with
  | case1 | case2 => simp
  | case3 start _ _ address stop h =>
    rintro p ⟨⟩
    exact intact_of_drop_eq_nil h
  | case4 start r _ _ address stop h =>
    rintro p ⟨⟩
    exact intact_succ h (by decide)
  | case5 start c rest hc _ _ address stop h =>
    rintro p ⟨⟩
    have hs : (s.drop address).drop (spacesLength (s.drop address)) = c :: rest := by
      rw [List.drop_drop]
      exact h
    have hr : c ≠ '\r' := by
      rintro rfl
      simpa [isSpace, isBreak] using isSpace_drop_spacesLength hs
    apply (intact_succ h hr).add
    rw [← List.drop_drop, h]
    exact intact_badUrlLength rest

lemma commentLength_pos {s : List Char} (h : s ≠ []) : 0 < commentLength s := by
  fun_cases commentLength s <;> simp_all

lemma intact_commentLength (s : List Char) : Intact s (commentLength s) := by
  fun_induction commentLength s with
  | case1 s => rintro ⟨hl, -⟩; simp at hl
  | case2 c s h ih =>
    by_cases hs : s = []
    · exact intact_of_length_le (by simp [hs])
    · rw [Nat.add_comm]
      exact Intact.add_pos (commentLength_pos hs) ih
  | case3 => exact intact_zero []

lemma intact_named (s : List Char) : Intact s (named s).2 := by
  fun_cases named s with
  | case1 n r h hu kind m hm =>
    apply (intact_succ h (by decide)).add
    rw [← List.drop_drop, h]
    exact intact_url? r _ hm
  | case2 n r h _ _ => exact intact_succ h (by decide)
  | case3 n r h _ => exact intact_succ h (by decide)
  | case4 n _ => exact intact_nameLength s

lemma intact_symbol (s : List Char) (hs : s.head? ≠ some '\r') : Intact s (symbol s).2 := by
  fun_cases symbol s with
  | case1 s kind n h =>
    have hq : Intact s (quoted '"' s).2 := intact_quoted (by decide) s
    rw [h] at hq
    exact hq.cons (by decide)
  | case2 s kind n h =>
    have hq : Intact s (quoted '\'' s).2 := intact_quoted (by decide) s
    rw [h] at hq
    exact hq.cons (by decide)
  | case3 s h => exact (intact_nameLength s).cons (by decide)
  | case5 s h => exact (intact_nameLength s).cons (by decide)
  | case7 s => exact ((intact_commentLength s).cons (by decide)).cons (by decide)
  -- one to four characters that the pattern spells out
  | case4 | case6 | case8 | case9 | case10 | case11 | case12 | case13 | case14 | case15 | case16
  | case17 | case18 | case19 | case20 | case21 | case22 => exact intact_of_forall_take (by simp)
  | case23 =>
    cases s with
    | nil => exact intact_of_length_le (by simp)
    | cons c s => exact intact_one (by simpa using hs) s

lemma head?_ne_return_of_spacesLength {s : List Char} (h : ¬ 0 < spacesLength s) :
    s.head? ≠ some '\r' := by
  intro hs
  obtain ⟨r, rfl⟩ := List.head?_eq_some_iff.mp hs
  simp [spacesLength, isSpace, isBreak] at h

/-- No token ends inside a break. -/
theorem intact_first (s : List Char) : Intact s (first s).2 := by
  fun_cases first s with
  | case1 => exact intact_spacesLength s
  | case2 => exact intact_numeric s
  | case3 _ _ hc =>
    unfold startsCdc at hc
    split at hc
    · exact intact_of_forall_take (by simp)
    · contradiction
  | case4 => exact intact_named s
  | case5 h => exact intact_symbol s (head?_ne_return_of_spacesLength h)

end Lexer

/-- A token as it stands at an offset of a text: read there by the lexer, placed where it stands. -/
structure Token.At (css : List Char) (o : Nat) (t : Token) : Prop where
  lt : o < css.length
  kind : t.kind = (Lexer.first (css.drop o)).1
  text : t.text = (css.drop o).take (Lexer.first (css.drop o)).2
  position : t.position = positionAt css o
  intact : Intact css o

def Token.textOf (ts : List Token) : List Char := (ts.map Token.text).flatten

@[simp] lemma Token.textOf_nil : Token.textOf [] = [] := rfl

@[simp] lemma Token.textOf_cons (t : Token) (ts : List Token) :
    Token.textOf (t :: ts) = t.text ++ Token.textOf ts := rfl

@[simp] lemma Token.textOf_append (ts us : List Token) :
    Token.textOf (ts ++ us) = Token.textOf ts ++ Token.textOf us := by simp [Token.textOf]

def tokensFrom (css : List Char) (o : Nat) : List Token :=
  Lexer.place (positionAt css o) (pieces Lexer.first 0 (css.drop o))

lemma tokens_eq_tokensFrom (css : List Char) : tokens css = tokensFrom css 0 := rfl

lemma positionAt_advance {css s : List Char} {o : Nat} (h : Intact css o)
    (hs : s <+: css.drop o) : (positionAt css o).advance s = positionAt css (o + s.length) := by
  obtain ⟨t, ht⟩ := hs
  have hp : ¬ PartsBreak (css.take o) s := by
    rintro ⟨hl, hn⟩
    exact h ⟨hl, by rw [← ht, List.head?_append, hn]; rfl⟩
  rw [← Position.advance_start, ← Position.advance_start, ← Position.advance_append _ _ _ hp,
    List.take_add, ← ht, List.take_left]

lemma tokensFrom_step {css : List Char} {o : Nat} {t : Token} {ts : List Token}
    (h : Intact css o) (hts : tokensFrom css o = t :: ts) :
    t.At css o ∧ Intact css (o + t.text.length) ∧ ts = tokensFrom css (o + t.text.length) := by
  by_cases hd : css.drop o = []
  · simp [tokensFrom, hd, pieces, Lexer.place] at hts
  have hlt : o < css.length := by simpa using hd
  rw [tokensFrom, pieces_step (Lexer.first_pos _) hd, Lexer.place, List.cons.injEq] at hts
  obtain ⟨rfl, rfl⟩ := hts
  refine ⟨⟨hlt, rfl, rfl, rfl, h⟩, h.add (Lexer.intact_first (css.drop o)).take, ?_⟩
  rw [tokensFrom, positionAt_advance h (List.take_prefix _ _), ← List.drop_drop, drop_length_take]

/-- Every token stands where the tokens before it end. -/
theorem tokensFrom_at {css : List Char} {ts us : List Token} {t : Token} {o : Nat}
    (h : Intact css o) (hts : tokensFrom css o = ts ++ t :: us) :
    t.At css (o + (Token.textOf ts).length) := by
  induction ts generalizing o with
  | nil => exact (tokensFrom_step h hts).1
  | cons u ts ih =>
    obtain ⟨-, hi, he⟩ := tokensFrom_step h hts
    rw [Token.textOf_cons, List.length_append, ← Nat.add_assoc]
    exact ih hi he.symm

theorem tokens_at {css : List Char} {ts us : List Token} {t : Token}
    (hts : tokens css = ts ++ t :: us) : t.At css (Token.textOf ts).length := by
  have h := tokensFrom_at (intact_zero css) ((tokens_eq_tokensFrom css).symm.trans hts)
  rwa [Nat.zero_add] at h

end FontSizeLint.Css

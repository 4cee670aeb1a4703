import FontSizeLint.Proofs.Css.Address

/-! Where a text may be cut off. In front of white space, of an exclamation mark, of a brace or of a
semicolon, every unit that the lexer measures is the same without what follows, or is cut off itself by
the end of the text, and what begins before the cut is told without what follows. -/
namespace FontSizeLint.Text

lemma length_takeWhile_eq_min (p : Char → Bool) (s r : List Char) :
    (s.takeWhile p).length = min s.length ((s ++ r).takeWhile p).length := by
  induction s with
  | nil => simp
  | cons c s ih => by_cases hc : p c = true <;> simp [hc, ih]

lemma breakLength_eq_min (s r : List Char) :
    breakLength s = min s.length (breakLength (s ++ r)) := by
  match s with
  | [] => simp [breakLength]
  | [c] =>
    rw [List.singleton_append, breakLength_cons, breakLength_cons, List.length_singleton]
    by_cases hc : c = '\r'
    · simp only [hc, List.head?_nil, isBreak]
      split_ifs <;> simp_all
    · simp only [hc, false_and, if_false]
      split_ifs <;> rfl
  | c :: d :: s =>
    rw [List.cons_append, List.cons_append, breakLength_cons, breakLength_cons, List.head?_cons,
      List.head?_cons, List.length_cons, List.length_cons]
    split_ifs <;> omega

lemma runLength_eq_min {unit : List Char → Nat} (nil : unit [] = 0) (r s : List Char) :
    (∀ n, unit (s.drop n) = min (s.drop n).length (unit (s.drop n ++ r))) →
      runLength unit 0 s = min s.length (runLength unit 0 (s ++ r)) := by
  induction s using runLength_induction nil with
  | stop s hz =>
    intro hu
    have hu := hu 0
    rw [List.drop_zero, hz] at hu
    by_cases hs : s = []
    · simp [hs]
    · have hpos := List.length_pos_iff.mpr hs
      rw [runLength_of_unit_eq_zero (by omega : unit (s ++ r) = 0), Nat.min_zero]
  | past s hs =>
    intro hu
    have hu := hu 0
    rw [List.drop_zero] at hu
    omega
  | more s n hpos hle ih =>
    intro hu
    have ih := ih fun k => by
      rw [List.drop_drop]
      exact hu (unit s + k)
    have hu := hu 0
    rw [List.drop_zero] at hu
    have hs : s ++ r ≠ [] := by
      intro he
      rw [(List.append_eq_nil_iff.mp he).1, nil] at hpos
      omega
    rw [List.length_drop] at ih
    rw [runLength_of_unit_pos hs (by omega), List.length_append]
    by_cases hend : unit (s ++ r) ≤ s.length
    · have heq : unit (s ++ r) = unit s := by omega
      rw [heq, List.drop_append_of_le_length hle]
      omega
    · omega

end FontSizeLint.Text

namespace FontSizeLint.Css
open Text Numeric

lemma spaceLength_eq_min (s r : List Char) :
    spaceLength s = min s.length (spaceLength (s ++ r)) := by
  cases s with
  | nil => simp [spaceLength]
  | cons c s =>
    have hb := breakLength_eq_min (c :: s) r
    rw [List.cons_append] at hb ⊢
    rw [spaceLength, spaceLength]
    split_ifs
    · simp
    · exact hb

lemma length_hexDigits_eq_min (s r : List Char) :
    (hexDigits s).length = min s.length (hexDigits (s ++ r)).length := by
  have hlen := length_takeWhile_eq_min isHex (s.take 6) (r.take (6 - s.length))
  have hsix := (List.takeWhile_prefix (l := s.take 6 ++ r.take (6 - s.length)) isHex).length_le
  unfold hexDigits
  rw [List.take_append]
  simp only [List.length_append, List.length_take] at hlen hsix ⊢
  omega

lemma escapeLength_eq_min (s r : List Char) :
    escapeLength s = min s.length (escapeLength (s ++ r)) := by
  cases s with
  | nil => simp [escapeLength]
  | cons c s =>
    by_cases hc : isHex c = true
    · have hlen := length_hexDigits_eq_min (c :: s) r
      have hspace := spaceLength_eq_min ((c :: s).drop (hexDigits (c :: s)).length) r
      rw [List.cons_append] at hlen ⊢
      simp only [escapeLength, hc, if_true]
      rw [List.length_drop] at hspace
      rw [← List.cons_append] at hlen ⊢
      by_cases hend : (hexDigits (c :: s ++ r)).length ≤ (c :: s).length
      · have heq : (hexDigits (c :: s ++ r)).length = (hexDigits (c :: s)).length := by omega
        rw [heq, List.drop_append_of_le_length (by omega)]
        omega
      · omega
    · simp [escapeLength, hc]

lemma escapedLength_eq_min (s r : List Char) :
    escapedLength s = min s.length (escapedLength (s ++ r)) := by
  have hb := breakLength_eq_min s r
  have he := escapeLength_eq_min s r
  cases s with
  | nil => simp [escapedLength, breakLength, escapeLength]
  | cons c s =>
    rw [List.length_cons] at hb he ⊢
    unfold escapedLength
    simp only [beq_iff_eq]
    split_ifs <;> omega

/-- The characters in front of which a text is cut. -/
def boundaries : List Char := [' ', '\t', '\n', '\r', '\x0c', '!', ';', '{', '}']

/-- A text and what is cut off behind it. No backslash is left that has had a break behind it, and
the text cut off is no argument in quotes. -/
structure Severs (s r : List Char) : Prop where
  head : ∀ c ∈ r.head?, c ∈ boundaries
  escape : s.getLast? = some '\\' → breakLength r = 0
  quote : ∀ c ∈ (r.drop (spacesLength r)).head?, c ≠ '"' ∧ c ≠ '\''

lemma severs_of_spaces {s gap r : List Char} (hgap : ∀ c ∈ gap, isSpace c = true)
    (hr : ∀ c ∈ r.head?, c = '!' ∨ isStop c = true)
    (hs : s.getLast? = some '\\' → ∀ c ∈ gap.head?, isBreak c = false) : Severs s (gap ++ r) := by
  have hmark : ∀ c, c = '!' ∨ isStop c = true →
      c ∈ boundaries ∧ isSpace c = false ∧ isBreak c = false ∧ c ≠ '"' ∧ c ≠ '\'' := by
    intro c hc
    rw [isStop_iff] at hc
    rcases hc with rfl | rfl | rfl | rfl <;> decide
  have hspace : ∀ c, isSpace c = true → c ∈ boundaries := by
    intro c hc
    simp only [isSpace, isBreak, Bool.or_eq_true, beq_iff_eq] at hc
    rcases hc with (rfl | rfl) | ((rfl | rfl) | rfl) <;> decide
  refine ⟨?_, ?_, ?_⟩
  · intro c hc
    cases gap with
    | nil => exact (hmark c (hr c hc)).1
    | cons d gap =>
      obtain rfl : d = c := by simpa using hc
      exact hspace d (hgap d List.mem_cons_self)
  · intro hlast
    have hbreak : ∀ c ∈ (gap ++ r).head?, isBreak c = false := by
      cases gap with
      | nil => exact fun c hc => (hmark c (hr c hc)).2.2.1
      | cons d gap => exact hs hlast
    cases h : gap ++ r with
    | nil => rfl
    | cons c t =>
      have hc : isBreak c = false := hbreak c (by rw [h]; rfl)
      have hret : c ≠ '\r' := by
        rintro rfl
        exact absurd hc (by decide)
      simp [breakLength_cons, hc, hret]
  · have hdrop : (gap ++ r).drop (spacesLength (gap ++ r)) = r := by
      rw [spacesLength, drop_length_takeWhile, List.dropWhile_append_of_pos hgap]
      cases r with
      | nil => rfl
      | cons c r => simp [(hmark c (hr c rfl)).2.1]
    rw [hdrop]
    exact fun c hc => (hmark c (hr c hc)).2.2.2

lemma severs_stop {c : Char} (hc : isStop c = true) (s r : List Char) : Severs s (c :: r) := by
  have hhead : ∀ d ∈ (c :: r).head?, d = '!' ∨ isStop d = true := by simpa using .inr hc
  exact severs_of_spaces (List.forall_mem_nil _) hhead (by simp)

lemma startsName_cons (c : Char) (s : List Char) : startsName (c :: s) =
    if c = '-' then s.head?.any fun d => isNameStart d || d == '-' || d == '\\'
    else if c = '\\' then breakLength s == 0 else isNameStart c := by
  by_cases hh : c = '-'
  · subst c
    cases s <;> simp [startsName, isNameStart]
  by_cases hb : c = '\\'
  · subst c
    rfl
  rw [if_neg hh, if_neg hb, startsName]
  · exact fun _ _ he => absurd he hh
  · exact fun he => absurd he hb

namespace Lexer

lemma startsCdc_iff (s : List Char) : startsCdc s = true ↔ ['-', '-', '>'] <+: s := by
  fun_cases startsCdc s with
  | case1 s => exact iff_of_true rfl (List.prefix_append ['-', '-', '>'] s)
  | case2 s hs =>
    apply iff_of_false Bool.false_ne_true
    rintro ⟨r, rfl⟩
    exact hs r rfl

lemma isPrefix_of_append_cons {c : Char} {m s r : List Char} (hc : c ∉ m.tail) (hs : s ≠ [])
    (h : m <+: s ++ c :: r) : m <+: s := by
  rcases List.prefix_or_prefix_of_prefix h (List.prefix_append s (c :: r)) with hp | ⟨t, rfl⟩
  · exact hp
  · cases t with
    | nil => simp
    | cons d t =>
      rw [List.prefix_append_right_inj, List.cons_prefix_cons] at h
      obtain ⟨rfl, -⟩ := h
      rw [List.tail_append_of_ne_nil hs] at hc
      simp at hc

end Lexer

namespace Severs
variable {s r : List Char}

lemma drop (h : Severs s r) (n : Nat) : Severs (s.drop n) r where
  head := h.head
  escape := by
    rw [List.getLast?_drop]
    split_ifs
    · simp
    · exact h.escape
  quote := h.quote

lemma head?_append (h : Severs s r) {q : Char} (hq : q ∉ boundaries) :
    (s ++ r).head? = some q ↔ s.head? = some q := by
  cases s with
  | cons c s => rfl
  | nil =>
    simp only [List.nil_append, List.head?_nil, reduceCtorEq, iff_false]
    exact fun hr => hq (h.head q hr)

lemma any_head?_append (h : Severs s r) {p : Char → Bool} (hp : boundaries.all (!p ·) = true) :
    (s ++ r).head?.any p = s.head?.any p := by
  cases s with
  | cons c s => rfl
  | nil =>
    cases hr : r.head? with
    | none => simp [hr]
    | some c =>
      have hc := List.all_eq_true.mp hp c (h.head c hr)
      simpa [hr] using hc

lemma breakLength_append_eq_zero_iff (h : Severs ('\\' :: s) r) :
    breakLength (s ++ r) = 0 ↔ breakLength s = 0 := by
  have hb := breakLength_eq_min s r
  cases s with
  | nil => exact iff_of_true (h.escape rfl) rfl
  | cons c s =>
    rw [List.length_cons] at hb
    omega

lemma escapeUnit_eq_min (h : Severs s r) (p : Char → Bool) (b : Bool) :
    escapeUnit p b s = min s.length (escapeUnit p b (s ++ r)) := by
  cases s with
  | nil => simp [escapeUnit]
  | cons c s =>
    by_cases hc : c = '\\'
    · subst c
      have hzero : (breakLength (s ++ r) == 0) = (breakLength s == 0) := by
        rw [Bool.eq_iff_iff, beq_iff_eq, beq_iff_eq, h.breakLength_append_eq_zero_iff]
      have he := escapedLength_eq_min s r
      simp only [List.cons_append, escapeUnit, if_true, hzero, List.length_cons]
      split_ifs <;> omega
    · simp only [List.cons_append, escapeUnit, hc, if_false, List.length_cons]
      split_ifs <;> omega

lemma runLength_eq_min (h : Severs s r) (p : Char → Bool) (b : Bool) :
    runLength (escapeUnit p b) 0 s = min s.length (runLength (escapeUnit p b) 0 (s ++ r)) :=
  Text.runLength_eq_min rfl r s fun n => (h.drop n).escapeUnit_eq_min p b

lemma nameLength_eq_min (h : Severs s r) :
    nameLength s = min s.length (nameLength (s ++ r)) := by
  rw [nameLength, nameLength, funext nameUnit_eq]
  exact h.runLength_eq_min isNameChar false

lemma startsName_append (h : Severs s r) : startsName (s ++ r) = startsName s := by
  cases s with
  | nil =>
    cases r with
    | nil => rfl
    | cons c r =>
      have hmiss : boundaries.all (fun c => !isNameStart c && c != '-' && c != '\\') = true := by
        decide
      obtain ⟨⟨hs, hh⟩, hb⟩ : (isNameStart c = false ∧ c ≠ '-') ∧ c ≠ '\\' := by
        simpa using List.all_eq_true.mp hmiss c (h.head c rfl)
      rw [List.nil_append, startsName]
      · exact hs
      · exact fun _ _ he => absurd he hh
      · exact fun he => absurd he hb
  | cons c s =>
    rw [List.cons_append, startsName_cons, startsName_cons,
      (h.drop 1).any_head?_append (s := s) (by decide)]
    by_cases hb : c = '\\'
    · subst c
      rw [Bool.eq_iff_iff]
      simp [h.breakLength_append_eq_zero_iff]
    · simp [hb]

open Lexer

lemma startsDigit_append (h : Severs s r) : startsDigit (s ++ r) = startsDigit s := by
  have heq : ∀ t, startsDigit t = t.head?.any Char.isDigit := by
    rintro (_ | ⟨c, t⟩) <;> rfl
  rw [heq, heq, h.any_head?_append (by decide)]

lemma startsUnsigned_append (h : Severs s r) : startsUnsigned (s ++ r) = startsUnsigned s := by
  cases s with
  | nil =>
    rw [List.nil_append, startsUnsigned]
    · exact startsDigit_append (s := []) h
    · rintro t rfl
      exact absurd (h.head '.' rfl) (by decide)
  | cons c s =>
    by_cases hc : c = '.'
    · rw [hc]
      exact startsDigit_append (h.drop 1)
    · have hne : ∀ t u, c :: t = '.' :: u → False := fun t u he => hc (List.cons.inj he).1
      rw [List.cons_append, startsUnsigned.eq_2 _ (hne _), startsUnsigned.eq_2 _ (hne _)]
      exact startsDigit_append h

lemma startsNumber_append (h : Severs s r) (hs : s ≠ []) :
    startsNumber (s ++ r) = startsNumber s := by
  obtain ⟨c, s, rfl⟩ := List.exists_cons_of_ne_nil hs
  by_cases hplus : c = '+'
  · rw [hplus]
    exact startsUnsigned_append (h.drop 1)
  by_cases hminus : c = '-'
  · rw [hminus]
    exact startsUnsigned_append (h.drop 1)
  have hp : ∀ t u, c :: t = '+' :: u → False := fun t u he => hplus (List.cons.inj he).1
  have hm : ∀ t u, c :: t = '-' :: u → False := fun t u he => hminus (List.cons.inj he).1
  rw [List.cons_append, startsNumber.eq_3 _ (hp _) (hm _), startsNumber.eq_3 _ (hp _) (hm _)]
  exact startsUnsigned_append h

lemma isPrefix_of_append (h : Severs s r) (hs : s ≠ []) {m : List Char}
    (hm : m.tail.all (!boundaries.contains ·) = true) (hp : m <+: s ++ r) : m <+: s := by
  cases r with
  | nil => rwa [List.append_nil] at hp
  | cons c r =>
    have hmiss : ∀ d ∈ m.tail, d ∉ boundaries := by simpa using hm
    exact isPrefix_of_append_cons (fun hc => hmiss c hc (h.head c rfl)) hs hp

lemma startsCdc_append (h : Severs s r) (hs : s ≠ []) : startsCdc (s ++ r) = startsCdc s := by
  rw [Bool.eq_iff_iff, startsCdc_iff, startsCdc_iff]
  exact ⟨h.isPrefix_of_append hs (by decide), fun hp => hp.trans (List.prefix_append s r)⟩

lemma startsHash_append (h : Severs s r) : startsHash (s ++ r) = startsHash s := by
  have hname := h.startsName_append
  cases s with
  | cons c s =>
    rw [List.cons_append] at hname ⊢
    rw [startsHash, startsHash, hname]
  | nil =>
    cases r with
    | nil => rfl
    | cons c r =>
      have hmiss : boundaries.all (fun c => !c.isDigit && c != '-') = true := by decide
      obtain ⟨hd, hh⟩ : c.isDigit = false ∧ c ≠ '-' := by
        simpa using List.all_eq_true.mp hmiss c (h.head c rfl)
      have hhash : startsHash (c :: r) = (startsName (c :: r) || c.isDigit || c == '-') := rfl
      rw [List.nil_append] at hname ⊢
      rw [hhash, hname, hd, beq_false_of_ne hh]
      rfl

lemma numberLength_append (h : Severs s r) : numberLength (s ++ r) = numberLength s := by
  have hl : (s.take (numberLength s)).length = numberLength s :=
    List.length_take_of_le (numberLength_le s)
  have hc := numberLength_congr (s := s.take (numberLength s)) (u := s.drop (numberLength s))
    (v := s.drop (numberLength s) ++ r)
  rw [← List.append_assoc, List.take_append_drop, hl] at hc
  apply hc rfl
  intro l hp
  rcases List.prefix_or_prefix_of_prefix hp (List.prefix_append s r) with hp | ⟨t, ht⟩
  · exact hp
  · cases t with
    | nil => simp [← ht]
    | cons d t =>
      rw [← ht] at hp
      obtain ⟨u, hu⟩ := (List.prefix_append_right_inj s).mp hp
      have hd := h.head d (by simp [← hu])
      have hmiss : boundaries.all (!isLiteralChar ·) = true := by decide
      have hlit : isLiteralChar d = true := isLiteralChar_of_mem (l := l) (by simp [← ht])
      simpa [hlit] using List.all_eq_true.mp hmiss d hd

end Severs

end FontSizeLint.Css

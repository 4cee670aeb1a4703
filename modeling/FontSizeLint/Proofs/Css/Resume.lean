import FontSizeLint.Proofs.Css.Severance

/-! Where reading can be resumed. A brace or a semicolon behind a text is a token of its own and leaves
the tokens of the text as they are, unless the text leaves its last token open; then that token takes
the mark in. -/
namespace FontSizeLint.Css
open Text Numeric

lemma nameLength_append_stop {c : Char} (hc : isStop c = true) (s : List Char) :
    (∀ r, nameLength (s ++ c :: r) = nameLength s) ∨
    nameLength s = s.length ∧ escapesNext s = true ∧ ∀ r, s.length < nameLength (s ++ c :: r) := by
  have hz : ∀ r, runLength (escapeUnit isNameChar false) 0 (c :: r) = 0 := by
    intro r
    apply runLength_of_unit_eq_zero
    rcases isStop_iff.mp hc with rfl | rfl | rfl <;> rfl
  have hname : ∀ t, nameLength t = runLength (escapeUnit isNameChar false) 0 t := by
    intro t
    rw [nameLength, funext nameUnit_eq]
  simp only [hname]
  have hrun := fun r => runLength_escapeUnit_append (p := isNameChar) (b := false)
    (endsEscape_of_isStop hc) r s
  rcases Nat.lt_or_eq_of_le (runLength_le (escapeUnit isNameChar false) 0 s) with hlt | heq
  · exact .inl fun r => (hrun r).1 hlt
  · cases he : escapesNext s with
    | false =>
      left
      intro r
      rw [((hrun r).2 heq).1 he, hz, heq, Nat.add_zero]
    | true => exact .inr ⟨heq, rfl, fun r => ((hrun r).2 heq).2 he⟩

namespace Lexer

/-- The characters that a string can hold unescaped between its quotes. -/
def isStringChar (q c : Char) : Bool := !(c == q || isBreak c)

lemma stringUnit_eq {q : Char} (hq : q ≠ '\\') (s : List Char) :
    stringUnit q s = escapeUnit (isStringChar q) true s := by
  cases s with
  | nil => rfl
  | cons c s =>
    by_cases hc : c = '\\'
    · have hb : isBreak '\\' = false := by decide
      simp [stringUnit, escapeUnit, escapedLength, hc, hb, Ne.symm hq]
    · by_cases hp : (c == q || isBreak c) = true <;>
        simp [stringUnit, escapeUnit, isStringChar, hc, hp]

lemma runLength_le_quoted (q : Char) (s : List Char) :
    runLength (stringUnit q) 0 s ≤ (quoted q s).2 := by
  fun_cases quoted q s with
  | case2 n d u hd hq => exact Nat.le_succ n
  | _ => exact le_rfl

lemma quoted_append_stop {c q : Char} (hc : isStop c = true) (hq : q = '"' ∨ q = '\'')
    (s : List Char) :
    (∀ r, quoted q (s ++ c :: r) = quoted q s) ∨
    quoted q s = (.string, s.length) ∧ closedBy q s = false ∧
      ∀ r, s.length < (quoted q (s ++ c :: r)).2 := by
  have hqe : EndsEscape q := by rcases hq with rfl | rfl <;> exact ⟨rfl, rfl⟩
  have hqb : q ≠ '\\' := by rcases hq with rfl | rfl <;> decide
  have hp : isStringChar q c = true := by
    rcases isStop_iff.mp hc with rfl | rfl | rfl <;> rcases hq with rfl | rfl <;> rfl
  have hrun := runLength_escapeUnit_append_mark (b := true) (endsEscape_of_isStop hc)
    (ne_backslash_of_isStop hc) hp s
  rw [← funext (stringUnit_eq hqb)] at hrun
  rcases hrun with ⟨hlt, hsame⟩ | ⟨hall, hmore⟩
  · left
    intro r
    obtain ⟨d, t, hd⟩ := List.exists_cons_of_ne_nil
      (List.drop_eq_nil_iff.not.mpr (Nat.not_le.mpr hlt))
    rw [quoted, quoted, hsame, List.drop_append_of_le_length hlt.le, hd]
    rfl
  · right
    refine ⟨by rw [quoted, hall, List.drop_length], ?_,
      fun r => (hmore r).trans_le (runLength_le_quoted q _)⟩
    rw [funext (stringUnit_eq hqb)] at hall
    exact closedBy_of_runLength_eq hqe hqb (by simp [isStringChar]) hall

lemma commentLength_append_stop {c : Char} (hc : isStop c = true) (s : List Char) :
    (∀ r, commentLength (s ++ c :: r) = commentLength s) ∨
    commentLength s = s.length ∧ ¬ ['*', '/'] <:+ s ∧
      ∀ r, s.length < commentLength (s ++ c :: r) := by
  fun_induction commentLength s with
  | case1 s => exact .inl fun r => rfl
  | case2 d s hd ih =>
    have hstep : ∀ r, commentLength (d :: s ++ c :: r) = commentLength (s ++ c :: r) + 1 := by
      intro r
      rw [List.cons_append, commentLength]
      rintro t rfl ht
      cases s with
      | nil =>
        obtain ⟨rfl, -⟩ := List.cons.inj ht
        exact absurd hc (by decide)
      | cons e s =>
        obtain ⟨rfl, -⟩ := List.cons.inj ht
        exact hd s rfl rfl
    rcases ih with ih | ⟨hl, hs, ih⟩
    · left
      intro r
      rw [hstep, ih]
    · right
      refine ⟨by rw [hl, List.length_cons], ?_, fun r => ?_⟩
      · rw [List.suffix_cons_iff]
        rintro (he | he)
        · obtain ⟨rfl, rfl⟩ := List.cons.inj he
          exact hd [] rfl rfl
        · exact hs he
      · rw [hstep, List.length_cons]
        exact Nat.succ_lt_succ (ih r)
  | case3 =>
    right
    refine ⟨rfl, by simp, fun r => ?_⟩
    exact commentLength_pos (by simp)

/-- In front of a mark a token is as at the end of the text, or is open and takes the mark in. -/
def Resumes (f : List Char → Kind × Nat) (c : Char) (s : List Char) : Prop :=
  (∀ r, f (s ++ c :: r) = f s) ∨
  (f s).1.isOpen s = true ∧ s.length ≤ (f s).2 ∧ ∀ r, s.length < (f (s ++ c :: r)).2

lemma exists_append_numberLength (s : List Char) :
    ∃ a u, s = a ++ u ∧ numberLength (a ++ u) = a.length ∧ '\\' ∉ a := by
  refine ⟨s.take (numberLength s), s.drop (numberLength s), (List.take_append_drop _ _).symm, ?_, ?_⟩
  · rw [List.take_append_drop, List.length_take_of_le (numberLength_le s)]
  · intro hm
    obtain ⟨l, -, -, hl⟩ := exists_text_take s
    rw [← hl] at hm
    exact absurd (isLiteralChar_of_mem hm) (by decide)

lemma resumes_numeric {c : Char} (hc : isStop c = true) (s : List Char) : Resumes numeric c s := by
  obtain ⟨a, u, rfl, ha, hmem⟩ := exists_append_numberLength s
  have hr : ∀ r, numberLength (a ++ (u ++ c :: r)) = a.length := by
    intro r
    rw [← List.append_assoc, (severs_stop hc _ r).numberLength_append, ha]
  have hpercent := fun r => head?_append_stop hc (q := '%') rfl u r
  have hname := fun r => (severs_stop hc u r).startsName_append
  simp only [Resumes, List.append_assoc, numeric_eq ha, numeric_eq (hr _), hpercent, hname]
  split_ifs with hp hn
  · exact .inl fun r => rfl
  · rcases nameLength_append_stop hc u with hsame | ⟨hall, hopen, hmore⟩
    · exact .inl fun r => by rw [hsame]
    · refine .inr ⟨(escapesNext_append hmem u).trans hopen, ?_, fun r => ?_⟩
      · rw [hall, List.length_append]
      · have hm := hmore r
        rw [List.length_append]
        omega
  · exact .inl fun r => rfl

lemma named_eq (s : List Char) : named s =
    if (s.drop (nameLength s)).head? = some '(' then
      if lower (unescape 0 (s.take (nameLength s))) == ['u', 'r', 'l'] then
        match url? (s.drop (nameLength s + 1)) with
        | some (kind, m) => (kind, nameLength s + 1 + m)
        | none => (.function, nameLength s + 1)
      else (.function, nameLength s + 1)
    else (.ident, nameLength s) := by
  by_cases hp : (s.drop (nameLength s)).head? = some '('
  · obtain ⟨t, ht⟩ := List.head?_eq_some_iff.mp hp
    rw [if_pos hp, ← List.drop_drop]
    simp only [named, ht]
    rfl
  · rw [if_neg hp]
    fun_cases named s with
    | case1 n r h | case2 n r h | case3 n r h =>
      rw [h] at hp
      exact absurd rfl hp
    | case4 => rfl

lemma isOpen_named {s t : List Char} (ht : s.drop (nameLength s) = '(' :: t)
    (hu : (lower (unescape 0 (s.take (nameLength s))) == ['u', 'r', 'l']) = true) (h : OpenUrl t) :
    (named s).2 = s.length ∧ (named s).1.isOpen s = true := by
  have hdrop : s.drop (nameLength s + 1) = t := by rw [← List.drop_drop, ht]; rfl
  have hlt := add_length_of_drop_eq_cons ht
  rw [named_eq, if_pos (by rw [ht]; rfl), if_pos hu, hdrop]
  rcases h with ⟨hurl, hopen⟩ | ⟨hurl, hopen⟩
  · refine ⟨by rw [hurl, ← hlt], ?_⟩
    rw [hurl, ← List.take_append_drop (nameLength s) s, ht]
    simp [Kind.isOpen, closedBy_append_cons, hopen]
  · refine ⟨by rw [hurl, ← hlt], ?_⟩
    simp [hurl, Kind.isOpen, hdrop, hopen]

lemma nameLength_le_named (s : List Char) : nameLength s ≤ (named s).2 := by
  fun_cases named s <;> simp only [] <;> omega

lemma resumes_named {c : Char} (hc : isStop c = true) (s : List Char) : Resumes named c s := by
  rcases nameLength_append_stop hc s with hsame | ⟨hall, hopen, hmore⟩
  · have hle := nameLength_le s
    have htake : ∀ r, (s ++ c :: r).take (nameLength s) = s.take (nameLength s) :=
      fun r => List.take_append_of_le_length hle
    have hhead : ∀ r, ((s ++ c :: r).drop (nameLength s)).head? = some '(' ↔
        (s.drop (nameLength s)).head? = some '(' := by
      intro r
      rw [List.drop_append_of_le_length hle, head?_append_stop hc rfl]
    simp only [Resumes, named_eq (s ++ c :: _), named_eq s, hsame, htake, hhead]
    split_ifs with hp hu
    · -- An address: what stands behind the parenthesis decides.
      obtain ⟨t, ht⟩ := List.head?_eq_some_iff.mp hp
      have hdrop : s.drop (nameLength s + 1) = t := by rw [← List.drop_drop, ht]; rfl
      have hlt := add_length_of_drop_eq_cons ht
      have hmark : ∀ r, (s ++ c :: r).drop (nameLength s + 1) = t ++ c :: r := by
        intro r
        rw [List.drop_append_of_le_length (by omega), hdrop]
      simp only [hdrop, hmark]
      rcases url?_append_stop hc t with hsame | ⟨hopen, hmore⟩
      · exact .inl fun r => by rw [hsame]
      · right
        obtain ⟨hlen, hopen⟩ := isOpen_named ht hu hopen
        rw [named_eq, if_pos hp, if_pos hu, hdrop] at hlen hopen
        refine ⟨hopen, hlen.ge, fun r => ?_⟩
        obtain ⟨p, hurl, hm⟩ := hmore r
        rw [hurl]
        simp only []
        omega
    · exact .inl fun r => rfl
    · exact .inl fun r => rfl
  · have hs : named s = (.ident, s.length) := by
      rw [named, hall, List.drop_length]
    rw [Resumes, hs]
    exact .inr ⟨hopen, le_rfl, fun r => (hmore r).trans_le (nameLength_le_named _)⟩

lemma resumes_quoted {c q : Char} (hc : isStop c = true) (hq : q = '"' ∨ q = '\'')
    (s : List Char) : Resumes symbol c (q :: s) := by
  have hsym : ∀ t, symbol (q :: t) = ((quoted q t).1, (quoted q t).2 + 1) := by
    rcases hq with rfl | rfl <;> exact fun t => rfl
  simp only [Resumes, List.cons_append, hsym]
  rcases quoted_append_stop hc hq s with hsame | ⟨hall, hopen, hmore⟩
  · exact .inl fun r => by rw [hsame]
  · right
    rw [hall]
    refine ⟨?_, le_rfl, fun r => Nat.succ_lt_succ (hmore r)⟩
    simp [Kind.isOpen, hopen]

lemma resumes_marked {c m : Char} {k : Kind} {starts : List Char → Bool} (hc : isStop c = true)
    (hm : m ≠ '\\') (hk : ∀ t, k.isOpen t = escapesNext t)
    (hsym : ∀ t, symbol (m :: t) = if starts t then (k, nameLength t + 1) else (.delim, 1))
    {s : List Char} (hstarts : ∀ r, starts (s ++ c :: r) = starts s) : Resumes symbol c (m :: s) := by
  simp only [Resumes, List.cons_append, hsym, hstarts]
  split_ifs
  · rcases nameLength_append_stop hc s with hsame | ⟨hall, hopen, hmore⟩
    · exact .inl fun r => by rw [hsame]
    · right
      rw [hall, hk, escapesNext_cons hm]
      exact ⟨hopen, le_rfl, fun r => Nat.succ_lt_succ (hmore r)⟩
  · exact .inl fun r => rfl

lemma resumes_comment {c : Char} (hc : isStop c = true) (s : List Char) :
    Resumes symbol c ('/' :: '*' :: s) := by
  have hsym : ∀ t, symbol ('/' :: '*' :: t) = (.comment, commentLength t + 2) := fun t => rfl
  simp only [Resumes, List.cons_append, hsym]
  rcases commentLength_append_stop hc s with hsame | ⟨hall, hopen, hmore⟩
  · exact .inl fun r => by rw [hsame]
  · right
    refine ⟨?_, ?_, fun r => ?_⟩
    · rw [← List.isSuffixOf_iff_suffix, Bool.not_eq_true] at hopen
      simp [Kind.isOpen, hopen]
    · rw [hall, List.length_cons, List.length_cons]
    · exact Nat.add_lt_add_right (hmore r) 2

/-- What the tokens with characters of their own begin with. -/
def marks : List (List Char) :=
  [['"'], ['\''], ['#'], ['@'], ['/', '*'], ['<', '!', '-', '-'], ['$', '='], ['*', '='],
    ['^', '='], ['|', '='], ['~', '='], [':'], [';'], [','], ['('], ['['], ['{'], [')'], [']'], ['}']]

/-- Whether the text begins with one of the marks. -/
def isMarked (s : List Char) : Bool := marks.any fun m => m.isPrefixOf s

lemma symbol_of_unmarked {s : List Char} (h : isMarked s = false) : symbol s = (.delim, 1) := by
  fun_cases symbol s with
  | case23 => rfl
  | _ => exact Bool.noConfusion (h : true = false)

lemma isMarked_iff {s : List Char} : isMarked s = true ↔ ∃ m ∈ marks, m <+: s := by
  simp [isMarked]

lemma notMem_tail_of_mem_marks {c : Char} (hc : isStop c = true) {m : List Char} (hm : m ∈ marks) :
    c ∉ m.tail := by
  have hall : (marks.all fun m => m.tail.all fun d => !isStop d) = true := rfl
  have htail : ∀ d ∈ m.tail, isStop d = false := by
    simpa using List.all_eq_true.mp hall m hm
  intro hmem
  rw [htail c hmem] at hc
  contradiction

lemma resumes_symbol {c : Char} (hc : isStop c = true) {s : List Char} (hs : s ≠ []) :
    Resumes symbol c s := by
  cases h : isMarked s with
  | false =>
    left
    intro r
    rw [symbol_of_unmarked h, symbol_of_unmarked]
    rw [← Bool.not_eq_true, isMarked_iff] at h ⊢
    rintro ⟨m, hm, hp⟩
    exact h ⟨m, hm, isPrefix_of_append_cons (notMem_tail_of_mem_marks hc hm) hs hp⟩
  | true =>
    obtain ⟨m, hm, t, rfl⟩ := isMarked_iff.mp h
    simp only [marks, List.mem_cons, List.not_mem_nil, or_false] at hm
    rcases hm with rfl | rfl | rfl | rfl | rfl | hm
    · exact resumes_quoted hc (.inl rfl) t
    · exact resumes_quoted hc (.inr rfl) t
    · exact resumes_marked hc (by decide) (fun u => rfl) (fun u => rfl)
        fun r => (severs_stop hc t r).startsHash_append
    · exact resumes_marked hc (by decide) (fun u => rfl) (fun u => rfl)
        fun r => (severs_stop hc t r).startsName_append
    · exact resumes_comment hc t
    · left
      intro r
      rcases hm with rfl | rfl | rfl | rfl | rfl | rfl | rfl | rfl | rfl | rfl | rfl | rfl | rfl |
        rfl | rfl <;> rfl

/-- In front of a mark every token is as at the end of the text, or is open and takes the mark in. -/
theorem resumes_first {c : Char} (hc : isStop c = true) {s : List Char} (hs : s ≠ []) :
    Resumes first c s := by
  have hnumeric := resumes_numeric hc s
  have hnamed := resumes_named hc s
  have hsymbol := resumes_symbol hc hs
  have hnumber := fun r => (severs_stop hc s r).startsNumber_append hs
  have hcdc := fun r => (severs_stop hc s r).startsCdc_append hs
  have hname := fun r => (severs_stop hc s r).startsName_append
  simp only [Resumes, first, spacesLength_append_stop hc, hnumber, hcdc, hname]
    at hnumeric hnamed hsymbol ⊢
  split_ifs
  · exact .inl fun r => rfl
  · exact hnumeric
  · exact .inl fun r => rfl
  · exact hnamed
  · exact hsymbol

end Lexer
end FontSizeLint.Css

import FontSizeLint.Proofs.Css.Severed
import FontSizeLint.Proofs.Css.SpelledName

/-! Tokens in front of a space and an exclamation mark. A token of a text ends there as at the end of the
text, unless the text leaves it open. White space and a name with an escape at its end take the space in,
and are otherwise what they were. -/
namespace FontSizeLint.Css
open Text Numeric

lemma severs_space_bang (s r : List Char) : Severs s (' ' :: '!' :: r) := by
  have hgap : ∀ c ∈ [' '], isSpace c = true := List.forall_mem_singleton.mpr rfl
  refine severs_of_spaces hgap (by simp) fun _ c hc => ?_
  obtain rfl : ' ' = c := by simpa using hc
  rfl

lemma escapeValue_append_space {e : List Char} (he : e ≠ []) :
    escapeValue (e ++ [' ']) = escapeValue e := by
  obtain ⟨c, e, rfl⟩ := List.exists_cons_of_ne_nil he
  have hdigits := hexDigits_append_cons (c := ' ') rfl (c :: e) []
  rw [List.cons_append] at hdigits ⊢
  rw [escapeValue, escapeValue, hdigits]

lemma escapeLength_digits {e : List Char} (he : e ≠ []) (h : hexDigits e = e) (r : List Char) :
    escapeLength (e ++ ' ' :: r) = e.length + 1 := by
  obtain ⟨c, e, rfl⟩ := List.exists_cons_of_ne_nil he
  have hc : isHex c = true := by
    have hmem : c ∈ hexDigits (c :: e) := by rw [h]; exact List.mem_cons_self
    exact List.mem_takeWhile_imp hmem
  have hdigits := hexDigits_append_cons (c := ' ') rfl (c :: e) r
  rw [h] at hdigits
  have hdrop : (c :: e ++ ' ' :: r).drop (c :: e).length = ' ' :: r := List.drop_left
  rw [List.cons_append] at hdigits hdrop ⊢
  simp only [escapeLength, hc, if_true, hdigits, hdrop, spaceLength, beq_self_eq_true, Bool.true_or]

lemma hexDigits_of_lt_escapedLength {e r : List Char} (he : e ≠ [])
    (h : e.length < escapedLength (e ++ ' ' :: r)) : hexDigits e = e := by
  have hb : breakLength (' ' :: r) = 0 := by simp [breakLength_cons, isBreak]
  have hble := breakLength_le e
  obtain ⟨c, e, rfl⟩ := List.exists_cons_of_ne_nil he
  rw [escapedLength, breakLength_append hb] at h
  split_ifs at h
  · simp only [List.cons_append, escapeLength] at h
    split_ifs at h
    · have hdigits := hexDigits_append_cons (c := ' ') rfl (c :: e) r
      have hdle := length_hexDigits_le_length (c :: e)
      rw [← List.cons_append, hdigits, List.drop_append_of_le_length hdle] at h
      by_contra hne
      have hrest : (c :: e).drop (hexDigits (c :: e)).length ≠ [] := by
        intro hnil
        have hfront : hexDigits (c :: e) <+: c :: e :=
          (List.takeWhile_prefix isHex).trans (List.take_prefix 6 _)
        exact hne (hfront.eq_of_length (Nat.le_antisymm hdle (List.drop_eq_nil_iff.mp hnil)))
      have hsle := spaceLength_le ((c :: e).drop (hexDigits (c :: e)).length)
      rw [List.length_drop] at hsle
      rw [spaceLength_append hb hrest] at h
      simp only [List.length_cons] at hsle hdle h
      omega
    · simp at h
  · omega

lemma unescape_append_space_of_unit {s : List Char} (hpos : 0 < escapeUnit isNameChar false s)
    (hunit : escapeUnit isNameChar false (s ++ [' ']) = escapeUnit isNameChar false s)
    (h : unescape 0 (s.drop (escapeUnit isNameChar false s) ++ [' ']) =
      unescape 0 (s.drop (escapeUnit isNameChar false s))) :
    unescape 0 (s ++ [' ']) = unescape 0 s := by
  cases s with
  | nil => simp [escapeUnit] at hpos
  | cons c e =>
    by_cases hc : c = '\\'
    · subst c
      have hb : breakLength (e ++ [' ']) = breakLength e := breakLength_append rfl e
      simp only [List.cons_append, escapeUnit, if_true, Bool.false_or, hb] at hpos hunit h ⊢
      have hzero : (breakLength e == 0) = true := by
        by_contra hz
        simp [hz] at hpos
      simp only [hzero, if_true] at hunit h
      have hlen : ∀ t, breakLength t = breakLength e → escapedLength t = escapeLength t := by
        intro t ht
        rw [escapedLength, ht, if_pos hzero]
      rw [hlen _ hb, hlen _ rfl, Nat.add_right_cancel_iff] at hunit
      rw [hlen _ rfl, List.drop_succ_cons] at h
      have hle := escapedLength_le e
      rw [hlen _ rfl] at hle
      have he : e ≠ [] := by
        rintro rfl
        exact absurd hunit (by decide)
      rw [unescape_backslash, unescape_backslash, hunit, List.drop_append_of_le_length hle, h,
        escapeValue_append_space he]
    · have hone : escapeUnit isNameChar false (c :: e) = 1 := by
        simp only [escapeUnit, hc, if_false] at hpos ⊢
        split_ifs at hpos ⊢
        · rfl
        · exact absurd hpos (Nat.lt_irrefl 0)
      rw [hone, List.drop_succ_cons, List.drop_zero] at h
      rw [List.cons_append, unescape_cons hc, unescape_cons hc, h]

lemma exists_of_lt_escapeUnit {s r : List Char} (hs : s ≠ [])
    (h : s.length < escapeUnit isNameChar false (s ++ ' ' :: r)) :
    s = ['\\'] ∨ ∃ e, s = '\\' :: e ∧ e ≠ [] ∧ hexDigits e = e ∧
      escapeUnit isNameChar false (s ++ ' ' :: r) = s.length + 1 := by
  obtain ⟨c, e, rfl⟩ := List.exists_cons_of_ne_nil hs
  rw [List.cons_append, escapeUnit] at h ⊢
  split_ifs at h ⊢ with hc hzero
  · subst c
    by_cases he : e = []
    · exact .inl (by rw [he])
    · have hdigits := hexDigits_of_lt_escapedLength he (Nat.lt_of_succ_lt_succ h)
      rw [Bool.false_or] at hzero
      rw [escapedLength, if_pos hzero, escapeLength_digits he hdigits]
      exact .inr ⟨e, rfl, he, hdigits, rfl⟩
  · exact absurd h (Nat.not_lt_zero _)
  · simp at h
  · exact absurd h (Nat.not_lt_zero _)

lemma unescape_digits {e : List Char} (he : e ≠ []) (h : hexDigits e = e) :
    unescape 0 ('\\' :: e ++ [' ']) = unescape 0 ('\\' :: e) := by
  have hspace := escapeLength_digits he h []
  have halone := escapeLength_append (r := [' ']) rfl e
  rw [hspace, Nat.min_eq_left (Nat.le_succ _)] at halone
  rw [List.cons_append, unescape_backslash, unescape_backslash, escapeValue_append_space he, hspace,
    halone, List.drop_length, List.drop_of_length_le (by simp)]

lemma nameLength_space {r : List Char} (s : List Char) : s.length < nameLength (s ++ ' ' :: '!' :: r) →
    escapesNext s = true ∨ nameLength (s ++ ' ' :: '!' :: r) = s.length + 1 ∧
      unescape 0 (s ++ [' ']) = unescape 0 s := by
  have nil : escapeUnit isNameChar false [] = 0 := rfl
  have hmin := fun s => (severs_space_bang s r).escapeUnit_eq_min isNameChar false
  simp only [nameLength, funext nameUnit_eq]
  induction s using runLength_induction nil with
  | stop s hs =>
    have hz : escapeUnit isNameChar false (s ++ ' ' :: '!' :: r) = 0 := by
      cases s with
      | nil => rfl
      | cons c s =>
        have hm := hmin (c :: s)
        rw [hs, List.length_cons] at hm
        omega
    simp [runLength_of_unit_eq_zero hz]
  | past s hs => exact absurd (escapeUnit_le s) (Nat.not_le.mpr hs)
  | more s n hpos hle ih =>
    intro hlt
    have hm := hmin s
    have hs : s ≠ [] := by
      rintro rfl
      exact absurd hpos (Nat.lt_irrefl 0)
    rw [runLength_of_unit_pos (by simp) (by omega)] at hlt ⊢
    rcases Nat.lt_or_ge s.length (escapeUnit isNameChar false (s ++ ' ' :: '!' :: r)) with hend | hend
    · -- The unit itself goes beyond the text.
      rcases exists_of_lt_escapeUnit hs hend with rfl | ⟨e, rfl, he, hdigits, hunit⟩
      · exact .inl rfl
      · have hbang : runLength (escapeUnit isNameChar false) 0 ('!' :: r) = 0 :=
          runLength_of_unit_eq_zero rfl
        have hdrop : ('\\' :: e ++ ' ' :: '!' :: r).drop (('\\' :: e).length + 1) = '!' :: r := by
          rw [← List.drop_drop, List.drop_left]
          rfl
        right
        rw [hunit, hdrop, hbang, List.length_append]
        exact ⟨Nat.min_eq_left (by simp), unescape_digits he hdigits⟩
    · -- What goes beyond the text stands behind the unit.
      rw [Nat.min_eq_right hend] at hm
      rw [← hm, List.drop_append_of_le_length hle, List.length_append] at hlt ⊢
      rw [List.length_drop] at ih
      by_cases hb : s = ['\\']
      · exact .inl (by rw [hb]; rfl)
      rw [escapesNext_drop_escapeUnit hb] at ih
      rcases ih (by omega) with hopen | ⟨hrun, hname⟩
      · exact .inl hopen
      refine .inr ⟨by omega, unescape_append_space_of_unit hpos ?_ hname⟩
      have hbang : Severs (s ++ [' ']) ('!' :: r) :=
        severs_of_spaces (List.forall_mem_nil _) (by simp) (by simp)
      have hspace := hbang.escapeUnit_eq_min isNameChar false
      rw [List.append_assoc, List.singleton_append, ← hm, List.length_append] at hspace
      omega

namespace Lexer

/-- A token that takes the space behind it in and is otherwise what it was. -/
structure Widens (k : Kind) (s : List Char) : Prop where
  isWide : k ∈ [.whitespace, .ident, .hash, .atKeyword, .dimension]
  name : k = .ident → unescape 0 (s ++ [' ']) = unescape 0 s

/-- A token that goes beyond the text is open at its end, or takes nothing but the space in. -/
def Spaced (f : List Char → Kind × Nat) (s r : List Char) : Prop :=
  s.length < (f (s ++ ' ' :: '!' :: r)).2 → (f s).2 = s.length ∧ ((f s).1.isOpen s = true ∨
    f (s ++ ' ' :: '!' :: r) = ((f s).1, s.length + 1) ∧ Widens (f s).1 s)

variable {s r : List Char}

lemma spaced_numeric : Spaced numeric s r := by
  obtain ⟨a, u, rfl, ha, hmem⟩ := exists_append_numberLength s
  have hu := severs_space_bang u r
  have har : numberLength (a ++ (u ++ ' ' :: '!' :: r)) = a.length := by
    rw [← List.append_assoc, (severs_space_bang (a ++ u) r).numberLength_append, ha]
  have hmin := hu.nameLength_eq_min
  intro hlt
  rw [List.append_assoc] at hlt ⊢
  rw [numeric_eq har] at hlt ⊢
  rw [numeric_eq ha]
  simp only [hu.head?_append (q := '%') (by decide), hu.startsName_append, List.length_append]
    at hlt ⊢
  split_ifs at hlt ⊢ with hp hn
  · obtain ⟨t, rfl⟩ := List.head?_eq_some_iff.mp hp
    simp at hlt
  · have hlt : u.length < nameLength (u ++ ' ' :: '!' :: r) := by omega
    refine ⟨by omega, ?_⟩
    rcases nameLength_space u hlt with hopen | ⟨hname, -⟩
    · exact .inl ((escapesNext_append hmem u).trans hopen)
    · exact .inr ⟨by rw [hname, Nat.add_assoc], by simp, by simp⟩
  · exact absurd hlt (Nat.not_lt.mpr (Nat.le_add_right _ _))

lemma quoted_of_lt {q : Char} (hq : q = '"' ∨ q = '\'')
    (hlt : s.length < (quoted q (s ++ ' ' :: '!' :: r)).2) :
    quoted q s = (.string, s.length) ∧ closedBy q s = false := by
  have hqe : EndsEscape q := by rcases hq with rfl | rfl <;> exact ⟨rfl, rfl⟩
  have hqb : q ≠ '\\' := by rcases hq with rfl | rfl <;> decide
  have hmin := (severs_space_bang s r).runLength_eq_min (isStringChar q) true
  rw [← funext (stringUnit_eq hqb)] at hmin
  have hall : runLength (stringUnit q) 0 s = s.length := by
    by_contra hne
    have hrun := runLength_le (stringUnit q) 0 s
    obtain ⟨d, t, hd⟩ := List.exists_cons_of_ne_nil
      (List.drop_eq_nil_iff.not.mpr (by omega : ¬ s.length ≤ runLength (stringUnit q) 0 s))
    have hlen := add_length_of_drop_eq_cons hd
    have heq : runLength (stringUnit q) 0 (s ++ ' ' :: '!' :: r) = runLength (stringUnit q) 0 s := by
      omega
    rw [quoted, heq, List.drop_append_of_le_length hrun, hd] at hlt
    simp only [List.cons_append] at hlt
    split_ifs at hlt <;> simp only [] at hlt <;> omega
  refine ⟨by rw [quoted, hall, List.drop_length], ?_⟩
  rw [funext (stringUnit_eq hqb)] at hall
  exact closedBy_of_runLength_eq hqe hqb (by simp [isStringChar]) hall

lemma commentLength_cons_le (c : Char) {s : List Char} (hs : s ≠ []) :
    commentLength (c :: s) ≤ commentLength s + 1 := by
  have hpos := commentLength_pos hs
  rw [commentLength.eq_def]
  split
  · exact Nat.succ_le_succ hpos
  · next heq =>
    obtain ⟨-, rfl⟩ := List.cons.inj heq
    exact le_rfl
  · exact Nat.zero_le _

lemma commentLength_append_le (h : ['*', '/'] <:+ s) (r : List Char) :
    commentLength (s ++ r) ≤ s.length := by
  obtain ⟨p, rfl⟩ := h
  induction p with
  | nil => exact le_rfl
  | cons c p ih =>
    have hstep := commentLength_cons_le c (s := p ++ ['*', '/'] ++ r) (by simp)
    exact hstep.trans (Nat.succ_le_succ ih)

lemma badUrlLength_of_lt (hlt : s.length < badUrlLength (s ++ r)) :
    badUrlLength s = s.length ∧ closedBy ')' s = false := by
  have hmin := badUrlLength_eq_min s r
  have hrun : runLength badUrlUnit 0 s = min s.length (runLength badUrlUnit 0 (s ++ r)) :=
    runLength_eq_min rfl r s fun n => badUrlUnit_eq_min _ r
  refine ⟨by omega, closedBy_of_runLength_badUrlUnit ?_⟩
  by_contra hne
  rw [badUrlLength_eq (s ++ r)] at hlt
  omega

lemma openAddress_of_lt (h : Severs s r) (hlt : s.length < (address (s ++ r)).2) : OpenAddress s := by
  have hmin := addressLength_eq_min h
  cases hd : s.drop (addressLength s) with
  | nil => exact openAddress_of_drop_eq_nil hd
  | cons d t =>
    have hlen := add_length_of_drop_eq_cons hd
    have heq : addressLength (s ++ r) = addressLength s := by omega
    have hdrop : (s ++ r).drop (addressLength (s ++ r)) = d :: (t ++ r) := by
      rw [heq, List.drop_append_of_le_length (addressLength_le s), hd, List.cons_append]
    rw [address_of_drop_eq_cons hdrop, heq] at hlt
    split_ifs at hlt with hp
    · simp only [] at hlt
      omega
    · obtain ⟨hall, hopen⟩ := badUrlLength_of_lt (s := t) (r := r) (by simp only [] at hlt; omega)
      exact openAddress_of_drop_eq_cons hd hp hall hopen

lemma openUrl_of_lt (h : Severs s r) {p : Kind × Nat} (hp : url? (s ++ r) = some p)
    (hlt : s.length < p.2) : OpenUrl s := by
  have hspaces := length_takeWhile_eq_min isSpace s r
  change spacesLength s = min s.length (spacesLength (s ++ r)) at hspaces
  by_cases hnil : s.drop (spacesLength s) = []
  · apply OpenAddress.openUrl
    · rw [hnil]
      exact openAddress_of_drop_eq_nil rfl
    · simp [hnil]
  · have hle := List.drop_eq_nil_iff.not.mp hnil
    have heq : spacesLength (s ++ r) = spacesLength s := by omega
    have hdrop : (s ++ r).drop (spacesLength (s ++ r)) = s.drop (spacesLength s) ++ r := by
      rw [heq, List.drop_append_of_le_length (spacesLength_le s)]
    obtain ⟨d, u, hu⟩ := List.exists_cons_of_ne_nil hnil
    have hhead : (s.drop (spacesLength s) ++ r).head? = (s.drop (spacesLength s)).head? := by
      rw [hu]
      rfl
    rw [url?_eq, hdrop, heq, hhead] at hp
    split_ifs at hp with hq
    cases hp
    refine OpenAddress.openUrl (openAddress_of_lt (h.drop _) ?_) hq
    rw [List.length_drop]
    simp only [] at hlt
    omega

lemma spaced_named : Spaced named s r := by
  intro hlt
  have h := severs_space_bang s r
  have hmin := h.nameLength_eq_min
  rcases Nat.lt_or_ge s.length (nameLength (s ++ ' ' :: '!' :: r)) with hend | hend
  · have hall : nameLength s = s.length := by omega
    have hs : named s = (.ident, s.length) := by rw [named, hall, List.drop_length]
    rw [hs]
    refine ⟨rfl, ?_⟩
    rcases nameLength_space s hend with hopen | ⟨hname, hkey⟩
    · exact .inl hopen
    · have hdrop : (s ++ ' ' :: '!' :: r).drop (s.length + 1) = '!' :: r := by
        rw [← List.drop_drop, List.drop_left]
        rfl
      exact .inr ⟨by rw [named_eq, hname, hdrop, if_neg (by simp)], by simp, fun _ => hkey⟩
  · have heq : nameLength (s ++ ' ' :: '!' :: r) = nameLength s := by omega
    have hle := nameLength_le s
    rw [named_eq, heq, List.drop_append_of_le_length hle, List.take_append_of_le_length hle] at hlt
    simp only [(h.drop (nameLength s)).head?_append (q := '(') (by decide)] at hlt
    split_ifs at hlt with hp hu
    · obtain ⟨t, ht⟩ := List.head?_eq_some_iff.mp hp
      have hlen := add_length_of_drop_eq_cons ht
      have hdrop : (s ++ ' ' :: '!' :: r).drop (nameLength s + 1) = t ++ ' ' :: '!' :: r := by
        rw [List.drop_append_of_le_length (by omega), ← List.drop_drop, ht]
        rfl
      rw [hdrop] at hlt
      cases hurl : url? (t ++ ' ' :: '!' :: r) with
      | none =>
        rw [hurl] at hlt
        simp only [] at hlt
        omega
      | some p =>
        rw [hurl] at hlt
        have hopen := openUrl_of_lt (severs_space_bang t r) hurl (by simp only [] at hlt; omega)
        obtain ⟨hall, hopen⟩ := isOpen_named ht hu hopen
        exact ⟨hall, .inl hopen⟩
    · obtain ⟨t, ht⟩ := List.head?_eq_some_iff.mp hp
      have hlen := add_length_of_drop_eq_cons ht
      simp only [] at hlt
      omega
    · exact absurd hlt (Nat.not_lt.mpr hle)

lemma spaced_marked {m : Char} {k : Kind} {starts : List Char → Bool} (hm : m ≠ '\\')
    (hk : k ∈ [.hash, .atKeyword])
    (hsym : ∀ t, symbol (m :: t) = if starts t then (k, nameLength t + 1) else (.delim, 1))
    (hstarts : starts (s ++ ' ' :: '!' :: r) = starts s) : Spaced symbol (m :: s) r := by
  have hmin := (severs_space_bang s r).nameLength_eq_min
  intro hlt
  simp only [List.cons_append, hsym, hstarts, List.length_cons] at hlt ⊢
  split_ifs at hlt ⊢
  · have hlt : s.length < nameLength (s ++ ' ' :: '!' :: r) := Nat.lt_of_succ_lt_succ hlt
    refine ⟨by simp only []; omega, ?_⟩
    simp only [List.mem_cons, List.not_mem_nil, or_false] at hk
    rcases nameLength_space s hlt with hopen | ⟨hname, -⟩
    · left
      have hown : k.isOpen (m :: s) = escapesNext (m :: s) := by rcases hk with rfl | rfl <;> rfl
      rw [hown, escapesNext_cons hm, hopen]
    · right
      refine ⟨by rw [hname], ?_, ?_⟩ <;> rcases hk with rfl | rfl <;> simp
  · simp at hlt

lemma spaced_quoted {q : Char} (hq : q = '"' ∨ q = '\'') : Spaced symbol (q :: s) r := by
  have hsym : ∀ t, symbol (q :: t) = ((quoted q t).1, (quoted q t).2 + 1) := by
    rcases hq with rfl | rfl <;> exact fun t => rfl
  intro hlt
  rw [List.cons_append, hsym] at hlt
  obtain ⟨hall, hopen⟩ := quoted_of_lt hq (Nat.lt_of_succ_lt_succ hlt)
  rw [hsym, hall]
  exact ⟨rfl, .inl (by simp [Kind.isOpen, hopen])⟩

lemma spaced_comment : Spaced symbol ('/' :: '*' :: s) r := by
  have hsym : ∀ t, symbol ('/' :: '*' :: t) = (.comment, commentLength t + 2) := fun t => rfl
  have hmin := commentLength_eq_min s (' ' :: '!' :: r)
  intro hlt
  rw [List.cons_append, List.cons_append, hsym] at hlt
  have hlt : s.length < commentLength (s ++ ' ' :: '!' :: r) := by simpa using hlt
  rw [hsym]
  refine ⟨by simp only [List.length_cons]; omega, .inl ?_⟩
  have hopen : ¬ ['*', '/'] <:+ s := fun h => Nat.not_lt.mpr (commentLength_append_le h _) hlt
  rw [← List.isSuffixOf_iff_suffix, Bool.not_eq_true] at hopen
  simp [Kind.isOpen, hopen]

lemma spaced_symbol (hs : s ≠ []) : Spaced symbol s r := by
  have hkept : symbol (s ++ ' ' :: '!' :: r) = symbol s → Spaced symbol s r := by
    intro hsame hlt
    rw [hsame] at hlt
    exact absurd hlt (Nat.not_lt.mpr (symbol_le hs))
  cases h : isMarked s with
  | false =>
    apply hkept
    rw [symbol_of_unmarked h, symbol_of_unmarked]
    rw [← Bool.not_eq_true, isMarked_iff] at h ⊢
    have hall : (marks.all fun m => !m.tail.contains ' ') = true := rfl
    rintro ⟨m, hm, hp⟩
    have hspace : ' ' ∉ m.tail := by simpa using List.all_eq_true.mp hall m hm
    exact h ⟨m, hm, isPrefix_of_append_cons hspace hs hp⟩
  | true =>
    obtain ⟨m, hm, t, rfl⟩ := isMarked_iff.mp h
    have ht := severs_space_bang t r
    simp only [marks, List.mem_cons, List.not_mem_nil, or_false] at hm
    rcases hm with rfl | rfl | rfl | rfl | rfl | hm
    · exact spaced_quoted (.inl rfl)
    · exact spaced_quoted (.inr rfl)
    · exact spaced_marked (by decide) (by simp) (fun u => rfl) ht.startsHash_append
    · exact spaced_marked (by decide) (by simp) (fun u => rfl) ht.startsName_append
    · exact spaced_comment
    · apply hkept
      rcases hm with rfl | rfl | rfl | rfl | rfl | rfl | rfl | rfl | rfl | rfl | rfl | rfl | rfl |
        rfl | rfl <;> rfl

/-- A token that goes beyond the text in front of a mark is open there, or takes nothing but the space in. -/
theorem spaced_first (hs : s ≠ []) : Spaced first s r := by
  have h := severs_space_bang s r
  have hnumeric := spaced_numeric (s := s) (r := r)
  have hnamed := spaced_named (s := s) (r := r)
  have hsymbol := spaced_symbol (r := r) hs
  have hspaces := length_takeWhile_eq_min isSpace s (' ' :: '!' :: r)
  change spacesLength s = min s.length (spacesLength (s ++ ' ' :: '!' :: r)) at hspaces
  have hpos := List.length_pos_iff.mpr hs
  have hzero : 0 < spacesLength (s ++ ' ' :: '!' :: r) ↔ 0 < spacesLength s := by omega
  simp only [Spaced, first, hzero, h.startsNumber_append hs, h.startsCdc_append hs,
    h.startsName_append] at hnumeric hnamed hsymbol ⊢
  split_ifs with hspace _ hcdc
  · intro hlt
    have hall : s.takeWhile isSpace = s :=
      (List.takeWhile_prefix isSpace).eq_of_length (show spacesLength s = s.length by omega)
    have hlen : spacesLength (s ++ ' ' :: '!' :: r) = s.length + 1 := by
      rw [spacesLength, List.takeWhile_append_of_pos (List.takeWhile_eq_self_iff.mp hall)]
      simp [isSpace, isBreak]
    exact ⟨by omega, .inr ⟨by rw [hlen], by simp, by simp⟩⟩
  · exact hnumeric
  · have hlen := ((startsCdc_iff s).mp hcdc).length_le
    exact fun hlt => absurd hlt (Nat.not_lt.mpr hlen)
  · exact hnamed
  · exact hsymbol

end Lexer

/-- A text that leaves no token open has its tokens also in front of a space and an exclamation mark. The
space is a token of its own, or part of the last one. -/
theorem bareTokens_space_bang {s : List Char} (hs : ∀ t ∈ (bareTokens s).getLast?, t.isOpen = false)
    (r : List Char) :
    bareTokens (s ++ ' ' :: '!' :: r) =
      bareTokens s ++ ⟨.whitespace, [' '], .start⟩ :: bareTokens ('!' :: r) ∨
    ∃ ts t, bareTokens s = ts ++ [t] ∧ Lexer.Widens t.kind t.text ∧
      bareTokens (s ++ ' ' :: '!' :: r) =
        ts ++ { t with text := t.text ++ [' '] } :: bareTokens ('!' :: r) := by
  induction s using (measure List.length).wf.induction with
  | h s ih =>
    by_cases hnil : s = []
    · subst s
      have hfirst : Lexer.first (' ' :: '!' :: r) = (.whitespace, 1) := rfl
      left
      rw [List.nil_append, bareTokens_step (by simp), hfirst]
      rfl
    have hpos := List.length_pos_iff.mpr hnil
    rcases Nat.lt_or_ge s.length (Lexer.first (s ++ ' ' :: '!' :: r)).2 with hlt | hge
    · -- The first token goes beyond the text, so that it is the only one of the text.
      obtain ⟨hall, hwide⟩ := Lexer.spaced_first hnil hlt
      have hone : bareTokens s = [⟨(Lexer.first s).1, s, .start⟩] := by
        rw [bareTokens_step hnil, List.take_of_length_le (by omega), List.drop_of_length_le (by omega)]
        rfl
      rcases hwide with hopen | ⟨hfirst, hwide⟩
      · have hclosed := hs ⟨(Lexer.first s).1, s, .start⟩ (by rw [hone]; rfl)
        rw [Token.isOpen, hopen] at hclosed
        contradiction
      · refine .inr ⟨[], _, hone, hwide, ?_⟩
        have hsplit : s ++ ' ' :: '!' :: r = (s ++ [' ']) ++ '!' :: r := by simp
        have hlen : s.length + 1 = (s ++ [' ']).length := by simp
        rw [bareTokens_step (by simp), hfirst, hlen, hsplit, List.take_left, List.drop_left]
        rfl
    · rcases Lexer.kept_first (severs_space_bang s r) hnil hge with hsame | ⟨-, -, hbreak⟩
      · have hle : (Lexer.first s).2 ≤ s.length := by
          rw [hsame]
          omega
        have hlast : ∀ t ∈ (bareTokens (s.drop (Lexer.first s).2)).getLast?, t.isOpen = false := by
          intro t ht
          apply hs
          rw [bareTokens_step hnil]
          exact List.mem_getLast?_cons ht
        rw [bareTokens_step (by simp), ← hsame, List.take_append_of_le_length hle,
          List.drop_append_of_le_length hle, bareTokens_step hnil]
        have hlt : (s.drop (Lexer.first s).2).length < s.length := by
          have hfirst := Lexer.first_pos s
          rw [List.length_drop]
          omega
        rcases ih _ hlt hlast with
          ih | ⟨ts, t, hts, hwide, hts'⟩
        · exact .inl (by rw [ih, List.cons_append])
        · exact .inr ⟨_ :: ts, t, by rw [hts, List.cons_append], hwide, by rw [hts', List.cons_append]⟩
      · exact absurd hbreak (by simp [isBreak])

end FontSizeLint.Css

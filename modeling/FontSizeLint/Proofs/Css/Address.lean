import FontSizeLint.Proofs.Css.Open

/-! Addresses in front of a mark. What stands behind `url(` ends before a brace or a semicolon as it
ends with the text, or is open there and takes the mark in. -/
namespace FontSizeLint.Css.Lexer
open Text

lemma runLength_append_cons {unit : List Char → Nat} {c : Char} (nil : unit [] = 0)
    (hle : ∀ s, unit s ≤ s.length) (hu : ∀ s r, s ≠ [] → unit (s ++ c :: r) = unit s)
    (r s : List Char) : runLength unit 0 (s ++ c :: r) = runLength unit 0 s +
      if runLength unit 0 s = s.length then runLength unit 0 (c :: r) else 0 := by
  induction s using runLength_induction nil with
  | stop s hs =>
    cases s with
    | nil => simp
    | cons d s =>
      rw [runLength_of_unit_eq_zero (by rw [hu _ r (by simp), hs]), if_neg (by simp)]
  | past s hs => exact absurd (hle s) (Nat.not_le.mpr hs)
  | more s n hpos hl ih =>
    have hs : s ≠ [] := by
      rintro rfl
      simp [nil] at hpos
    rw [runLength_of_unit_pos (by simp) (by rwa [hu s r hs]), hu s r hs,
      List.drop_append_of_le_length hl, ih, List.length_append, List.length_drop]
    split_ifs <;> omega

lemma badUrlUnit_le (s : List Char) : badUrlUnit s ≤ s.length := by
  fun_cases badUrlUnit s <;> simp

lemma badUrlUnit_cons_cons (d e : Char) (s : List Char) : badUrlUnit (d :: e :: s) =
    if d = ')' then 0 else if d = '\\' ∧ (e = ')' ∨ e = '\\') then 2 else 1 := by
  by_cases h₁ : d = ')'
  · rw [h₁]
    rfl
  by_cases h₂ : d = '\\' ∧ (e = ')' ∨ e = '\\')
  · obtain ⟨rfl, rfl | rfl⟩ := h₂ <;> rfl
  · rw [if_neg h₁, if_neg h₂, badUrlUnit]
    · exact h₁
    · rintro t hd ⟨⟩
      exact h₂ ⟨hd, .inl rfl⟩
    · rintro t hd ⟨⟩
      exact h₂ ⟨hd, .inr rfl⟩

lemma badUrlUnit_append_stop {c : Char} (hc : isStop c = true) (s r : List Char) (hs : s ≠ []) :
    badUrlUnit (s ++ c :: r) = badUrlUnit s := by
  match s, hs with
  | [d], _ =>
    rcases isStop_iff.mp hc with rfl | rfl | rfl <;>
      by_cases hd : d = ')' <;> simp [badUrlUnit, hd]
  | d :: e :: s, _ =>
    rw [List.cons_append, List.cons_append, badUrlUnit_cons_cons, badUrlUnit_cons_cons]

lemma closedBy_drop_badUrlUnit (s : List Char) :
    closedBy ')' (s.drop (badUrlUnit s)) = closedBy ')' s := by
  fun_cases badUrlUnit s with
  | case1 | case2 => rfl
  | case3 s | case4 s => exact (closedBy_backslash_cons ')' _ s).symm
  | case5 d s h₁ h₂ h₃ =>
    by_cases hd : d = '\\'
    · cases s with
      | nil => rw [hd]; rfl
      | cons e s =>
        have he₁ : e ≠ ')' := fun he => h₂ s hd (he ▸ rfl)
        have he₂ : e ≠ '\\' := fun he => h₃ s hd (he ▸ rfl)
        rw [hd, closedBy_backslash_cons]
        exact closedBy_append_cons he₂ he₁ [] s
    · exact (closedBy_append_cons hd h₁ [] s).symm

lemma closedBy_of_runLength_badUrlUnit {s : List Char} :
    runLength badUrlUnit 0 s = s.length → closedBy ')' s = false := by
  have nil : badUrlUnit [] = 0 := rfl
  induction s using runLength_induction nil with
  | stop s hs =>
    intro hl
    rw [List.length_eq_zero_iff.mp hl.symm]
    rfl
  | past s hs => exact absurd (badUrlUnit_le s) (Nat.not_le.mpr hs)
  | more s n hpos hl ih =>
    intro hn
    rw [← closedBy_drop_badUrlUnit]
    exact ih (by rw [List.length_drop]; omega)

lemma badUrlLength_eq (s : List Char) :
    badUrlLength s = min s.length (runLength badUrlUnit 0 s + 1) := by
  have hle := runLength_le badUrlUnit 0 s
  have hone : ∀ n : Nat, n.min 1 = min n 1 := fun n => rfl
  rw [badUrlLength, hone, List.length_drop]
  omega

lemma badUrlLength_le (s : List Char) : badUrlLength s ≤ s.length :=
  badUrlLength_eq s ▸ Nat.min_le_left _ _

lemma badUrlLength_append_stop {c : Char} (hc : isStop c = true) (s : List Char) :
    (∀ r, badUrlLength (s ++ c :: r) = badUrlLength s) ∨
    badUrlLength s = s.length ∧ closedBy ')' s = false ∧
      ∀ r, s.length < badUrlLength (s ++ c :: r) := by
  have hrun := fun r => runLength_append_cons rfl badUrlUnit_le (badUrlUnit_append_stop hc) r s
  have hle := runLength_le badUrlUnit 0 s
  by_cases hs : runLength badUrlUnit 0 s = s.length
  · right
    simp only [hs, if_true] at hrun
    refine ⟨by rw [badUrlLength_eq]; omega, closedBy_of_runLength_badUrlUnit hs, fun r => ?_⟩
    have hu : badUrlUnit (c :: r) = 1 := by
      rcases isStop_iff.mp hc with rfl | rfl | rfl <;> rfl
    have hp := runLength_pos (List.cons_ne_nil c r) (hu ▸ Nat.one_pos)
    rw [badUrlLength_eq, hrun, List.length_append, List.length_cons]
    omega
  · left
    intro r
    simp only [hs, if_false] at hrun
    rw [badUrlLength_eq, badUrlLength_eq, hrun, List.length_append]
    omega

lemma spacesLength_append_stop {c : Char} (hc : isStop c = true) (s r : List Char) :
    spacesLength (s ++ c :: r) = spacesLength s := by
  rw [spacesLength, spacesLength, takeWhile_append_cons (endsEscape_of_isStop hc).isSpace]

lemma spacesLength_le (s : List Char) : spacesLength s ≤ s.length :=
  (List.takeWhile_prefix _).length_le

/-- The characters that an address without quotes can hold unescaped. -/
def isAddressChar (c : Char) : Bool :=
  !(isSpace c || c == ')' || c == '(' || c == '"' || c == '\'' || isUnprintable c)

lemma urlUnit_eq (s : List Char) : urlUnit s = escapeUnit isAddressChar false s := by
  cases s with
  | nil => rfl
  | cons c s =>
    by_cases hc : c = '\\'
    · by_cases hb : breakLength s = 0 <;> simp [urlUnit, escapeUnit, escapedLength, hc, hb]
    · by_cases hp : (isSpace c || c == ')' || c == '(' || c == '"' || c == '\'' ||
        isUnprintable c) = true <;> simp [urlUnit, escapeUnit, isAddressChar, hc, hp]

lemma runLength_urlUnit_append_stop {c : Char} (hc : isStop c = true) (s : List Char) :
    (runLength urlUnit 0 s < s.length ∧
      ∀ r, runLength urlUnit 0 (s ++ c :: r) = runLength urlUnit 0 s) ∨
    runLength urlUnit 0 s = s.length ∧ ∀ r, s.length < runLength urlUnit 0 (s ++ c :: r) := by
  have hp : isAddressChar c = true := by
    rcases isStop_iff.mp hc with rfl | rfl | rfl <;> rfl
  rw [funext urlUnit_eq]
  exact runLength_escapeUnit_append_mark (endsEscape_of_isStop hc) (ne_backslash_of_isStop hc) hp s

/-- An address without quotes, from its first character on. -/
def address (s : List Char) : Kind × Nat :=
  match s.drop (addressLength s) with
  | [] => (.url, addressLength s)
  | ')' :: _ => (.url, addressLength s + 1)
  | _ :: rest => (.badUrl, addressLength s + 1 + badUrlLength rest)

lemma url?_eq (s : List Char) : url? s =
    if (s.drop (spacesLength s)).head? = some '"' ∨ (s.drop (spacesLength s)).head? = some '\''
    then none
    else some ((address (s.drop (spacesLength s))).1,
      spacesLength s + (address (s.drop (spacesLength s))).2) := by
  have hstop : spacesLength s + runLength urlUnit 0 (s.drop (spacesLength s)) +
      spacesLength (s.drop (spacesLength s + runLength urlUnit 0 (s.drop (spacesLength s)))) =
      spacesLength s + addressLength (s.drop (spacesLength s)) := by
    rw [addressLength, List.drop_drop, Nat.add_assoc]
  fun_cases url? s with
  | case1 start r h | case2 start r h => simp [start] at h; simp [h]
  | case3 start h₁ h₂ a stop h =>
    rw [if_neg (not_or.mpr ⟨head?_ne h₁, head?_ne h₂⟩)]
    simp only [stop, a, start, hstop, ← List.drop_drop] at h ⊢
    rw [address, h]
  | case4 start r h₁ h₂ a stop h =>
    rw [if_neg (not_or.mpr ⟨head?_ne h₁, head?_ne h₂⟩)]
    simp only [stop, a, start, hstop, ← List.drop_drop] at h ⊢
    rw [address, h]
    rfl
  | case5 start d r hd h₁ h₂ a stop h =>
    rw [if_neg (not_or.mpr ⟨head?_ne h₁, head?_ne h₂⟩)]
    simp only [stop, a, start, hstop, ← List.drop_drop] at h ⊢
    rw [address, h]
    simp [Nat.add_assoc]

lemma address_of_drop_eq_nil {s : List Char} (h : s.drop (addressLength s) = []) :
    address s = (.url, addressLength s) := by
  rw [address, h]

lemma address_of_drop_eq_cons {s r : List Char} {d : Char} (h : s.drop (addressLength s) = d :: r) :
    address s = if d = ')' then (.url, addressLength s + 1)
      else (.badUrl, addressLength s + 1 + badUrlLength r) := by
  rw [address, h]
  split_ifs with hd
  · rw [hd]
    rfl
  · simp

lemma addressLength_le (s : List Char) : addressLength s ≤ s.length := by
  have hr := runLength_le urlUnit 0 s
  have hs := spacesLength_le (s.drop (runLength urlUnit 0 s))
  rw [List.length_drop] at hs
  unfold addressLength
  omega

lemma closedBy_append_spaces {q : Char} (hq : isSpace q = false) (p : List Char) {s : List Char}
    (hs : s ≠ []) (h : spacesLength s = s.length) : closedBy q (p ++ s) = false := by
  have hall : ∀ d ∈ s, d ≠ '\\' ∧ d ≠ q := by
    rw [← (List.takeWhile_prefix isSpace).eq_of_length h]
    intro d hd
    have hsp := List.mem_takeWhile_imp hd
    constructor
    · rintro rfl
      exact absurd hsp (by decide)
    · rintro rfl
      rw [hq] at hsp
      contradiction
  obtain ⟨d, s, rfl⟩ := List.exists_cons_of_ne_nil hs
  rw [List.forall_mem_cons] at hall
  rw [closedBy_append_cons hall.1.1 hall.1.2, ← List.append_nil s, closedBy_append hall.2]
  rfl

/-- An address that goes to the end of the text and lacks its parenthesis there, or lacks the one behind
what spoils it. -/
def OpenAddress (s : List Char) : Prop :=
  address s = (.url, s.length) ∧ closedBy ')' s = false ∨
    address s = (.badUrl, s.length) ∧ closedBy ')' (s.drop (addressLength s + 1)) = false

lemma openAddress_of_drop_eq_nil {s : List Char} (h : s.drop (addressLength s) = []) :
    OpenAddress s := by
  have hl : addressLength s = s.length :=
    Nat.le_antisymm (addressLength_le s) (List.drop_eq_nil_iff.mp h)
  refine .inl ⟨by rw [address_of_drop_eq_nil h, hl], ?_⟩
  rcases Nat.lt_or_eq_of_le (runLength_le urlUnit 0 s) with hlt | hall
  · -- The address is whole, but white space is all that follows it.
    rw [← List.take_append_drop (runLength urlUnit 0 s) s]
    apply closedBy_append_spaces rfl
    · exact List.drop_eq_nil_iff.not.mpr (Nat.not_le.mpr hlt)
    · unfold addressLength at hl
      rw [List.length_drop]
      omega
  · rw [funext urlUnit_eq] at hall
    exact closedBy_of_runLength_eq ⟨rfl, rfl⟩ (by decide) rfl hall

lemma openAddress_of_drop_eq_cons {s t : List Char} {d : Char}
    (h : s.drop (addressLength s) = d :: t) (hd : d ≠ ')') (hall : badUrlLength t = t.length)
    (ht : closedBy ')' t = false) : OpenAddress s := by
  have hl := add_length_of_drop_eq_cons h
  refine .inr ⟨by rw [address_of_drop_eq_cons h, if_neg hd, hall, hl], ?_⟩
  rw [← List.drop_drop, h]
  exact ht

lemma addressLength_le_address (s : List Char) : addressLength s ≤ (address s).2 := by
  fun_cases address s <;> simp only [] <;> omega

lemma address_append_stop {c : Char} (hc : isStop c = true) (s : List Char) :
    (∀ r, address (s ++ c :: r) = address s) ∨
    OpenAddress s ∧ ∀ r, s.length < (address (s ++ c :: r)).2 := by
  rcases runLength_urlUnit_append_stop hc s with ⟨hlt, hrun⟩ | ⟨hall, hmore⟩
  · have hlen : ∀ r, addressLength (s ++ c :: r) = addressLength s := by
      intro r
      rw [addressLength, hrun, List.drop_append_of_le_length hlt.le, spacesLength_append_stop hc]
      rfl
    have hdrop : ∀ r, (s ++ c :: r).drop (addressLength (s ++ c :: r)) =
        s.drop (addressLength s) ++ c :: r := by
      intro r
      rw [hlen, List.drop_append_of_le_length (addressLength_le s)]
    cases hd : s.drop (addressLength s) with
    | nil =>
      refine .inr ⟨openAddress_of_drop_eq_nil hd, fun r => ?_⟩
      have hl := List.drop_eq_nil_iff.mp hd
      have hp : c ≠ ')' := by
        rintro rfl
        exact absurd hc (by decide)
      have hr : (s ++ c :: r).drop (addressLength (s ++ c :: r)) = c :: r := by
        rw [hdrop, hd, List.nil_append]
      rw [address_of_drop_eq_cons hr, if_neg hp, hlen]
      simp only []
      omega
    | cons d t =>
      simp only [hd, List.cons_append] at hdrop
      simp only [address_of_drop_eq_cons hd, address_of_drop_eq_cons (hdrop _), hlen]
      by_cases hp : d = ')'
      · simp [hp]
      have hlt := add_length_of_drop_eq_cons hd
      simp only [if_neg hp]
      rcases badUrlLength_append_stop hc t with hsame | ⟨hall, hopen, hmore⟩
      · exact .inl fun r => by rw [hsame]
      · refine .inr ⟨openAddress_of_drop_eq_cons hd hp hall hopen, fun r => ?_⟩
        have hm := hmore r
        omega
  · right
    have hl : addressLength s = s.length := by simp [addressLength, hall, spacesLength]
    refine ⟨openAddress_of_drop_eq_nil (by rw [hl, List.drop_length]), fun r => ?_⟩
    have hle := addressLength_le_address (s ++ c :: r)
    have hm := hmore r
    unfold addressLength at hle
    omega

/-- What stands behind `url(` goes to the end of the text and lacks its parenthesis. -/
def OpenUrl (s : List Char) : Prop :=
  url? s = some (.url, s.length) ∧ closedBy ')' s = false ∨
    url? s = some (.badUrl, s.length) ∧ closedBy ')' (behindSpoiler s) = false

lemma OpenAddress.openUrl {s : List Char} (h : OpenAddress (s.drop (spacesLength s)))
    (hq : ¬ ((s.drop (spacesLength s)).head? = some '"' ∨
      (s.drop (spacesLength s)).head? = some '\'')) : OpenUrl s := by
  have hle := spacesLength_le s
  have hl : spacesLength s + (s.drop (spacesLength s)).length = s.length := by
    rw [List.length_drop]
    omega
  rw [OpenUrl, url?_eq, if_neg hq]
  rcases h with ⟨ha, hopen⟩ | ⟨ha, hopen⟩
  · refine .inl ⟨by rw [ha, hl], ?_⟩
    rw [← List.takeWhile_append_dropWhile (p := isSpace) (l := s), ← drop_length_takeWhile,
      closedBy_append]
    · exact hopen
    · intro d hd
      have hsp := List.mem_takeWhile_imp hd
      constructor <;> rintro rfl <;> exact absurd hsp (by decide)
  · exact .inr ⟨by rw [ha, hl], hopen⟩

lemma url?_append_stop {c : Char} (hc : isStop c = true) (s : List Char) :
    (∀ r, url? (s ++ c :: r) = url? s) ∨
    OpenUrl s ∧ ∀ r, ∃ p, url? (s ++ c :: r) = some p ∧ s.length < p.2 := by
  have hle := spacesLength_le s
  have hdrop : ∀ r, (s ++ c :: r).drop (spacesLength s) = s.drop (spacesLength s) ++ c :: r :=
    fun r => List.drop_append_of_le_length hle
  have hdouble := fun t r => head?_append_stop hc (q := '"') rfl t r
  have hsingle := fun t r => head?_append_stop hc (q := '\'') rfl t r
  simp only [url?_eq, spacesLength_append_stop hc, hdrop, hdouble, hsingle]
  split_ifs with hq
  · exact .inl fun r => rfl
  · rcases address_append_stop hc (s.drop (spacesLength s)) with hsame | ⟨hopen, hmore⟩
    · exact .inl fun r => by rw [hsame]
    · refine .inr ⟨hopen.openUrl hq, fun r => ⟨_, rfl, ?_⟩⟩
      have hm := hmore r
      rw [List.length_drop] at hm
      omega

end FontSizeLint.Css.Lexer

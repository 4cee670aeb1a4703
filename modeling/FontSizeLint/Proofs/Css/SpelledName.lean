import FontSizeLint.Proofs.Css.Position
import FontSizeLint.Proofs.Css.Resume
import FontSizeLint.Proofs.Text.Spelling

/-! Names in other spellings. An escape and a name end at the same place in every spelling of a text,
and the name means the same in each but for the case of its letters. -/
namespace FontSizeLint.Css
open Text Text.Spelling

variable {w : Spelling} {s : List Char}

lemma keeps_spacesLength (s : List Char) : w.Keeps spacesLength s :=
  keeps_takeWhile (by decide) s

lemma keeps_spaceLength (hs : w.Admits s) : w.Keeps spaceLength s := by
  cases s with
  | nil => rfl
  | cons c s =>
    by_cases hc : c = ' ' ∨ c = '\t'
    · have hx : isBlind (· == c) = true := by rcases hc with rfl | rfl <;> decide
      have h1 : ∀ t, spaceLength (c :: t) = 1 := by
        intro t
        rcases hc with rfl | rfl <;> rfl
      rw [Keeps, spell_cons_of_isBlind hx, h1, h1, length_spell_take_succ hx]
      rfl
    · have hb : ∀ t : List Char, t.head?.any (fun d => d == ' ' || d == '\t') = false →
          spaceLength t = breakLength t := by
        rintro (_ | ⟨d, t⟩) hd
        · rfl
        · have hd' : (d == ' ' || d == '\t') = false := hd
          simp [spaceLength, hd']
      have hfirst : (c :: s).head?.any (fun d => d == ' ' || d == '\t') = false := by
        simpa using hc
      rw [Keeps, hb _ (by rw [any_head?_spell (by decide), hfirst]), hb _ hfirst]
      exact keeps_breakLength hs

lemma take_spell {s : List Char} (hs : ∀ c ∈ s, isBreak c = false) (n : Nat) :
    (w.spell s).take n = w.spell (s.take n) := by
  induction s generalizing n with
  | nil => simp
  | cons c s ih =>
    rw [List.forall_mem_cons] at hs
    obtain ⟨d, -, he⟩ := exists_spell_cons (w := w) hs.1
    cases n with
    | zero => simp
    | succ n => rw [he, List.take_succ_cons, ih hs.2, List.take_succ_cons, he]

lemma isBreak_of_isHex {c : Char} (h : isHex c = true) : isBreak c = false :=
  not_isBreak_of_blind (by decide) rfl h

lemma hexDigits_spell (s : List Char) : hexDigits (w.spell s) = w.spell (hexDigits s) := by
  have h : ∀ t : List Char, hexDigits t = (t.takeWhile isHex).take 6 := by
    intro t
    rw [hexDigits, List.take_takeWhile]
  rw [h, h, takeWhile_spell (by decide), take_spell]
  exact fun c hc => isBreak_of_isHex (List.mem_takeWhile_imp hc)

lemma keeps_hexDigits (s : List Char) : w.Keeps (fun s => (hexDigits s).length) s := by
  rw [Keeps, hexDigits_spell, ← hexDigits_eq_take]

lemma keeps_escapeLength (hs : w.Admits s) (hb : breakLength s = 0) : w.Keeps escapeLength s := by
  cases s with
  | nil => rfl
  | cons c s =>
    have hc : isBreak c = false := by simpa [breakLength_eq_zero_iff] using hb
    have hhex := keeps_hexDigits (w := w) (c :: s)
    have hsum := hhex.add (k := spaceLength) (keeps_spaceLength (hs.drop _))
    obtain ⟨d, hd, he⟩ := exists_spell_cons (w := w) hc
    have hx : isHex d = isHex c := blind_of_toLower_eq (by decide) hd
    rw [Keeps, he] at hsum ⊢
    by_cases hcx : isHex c = true
    · simpa only [escapeLength, hx, hcx, if_true] using hsum
    · simp only [escapeLength, hx, hcx, if_false, Bool.false_eq_true, length_spell_take_one hc]

lemma keeps_escapedLength (hs : w.Admits s) : w.Keeps escapedLength s := by
  have hz := breakLength_spell_eq_zero (w := w) s
  by_cases hb : breakLength s = 0
  · have hk := keeps_escapeLength hs hb
    simpa [Keeps, escapedLength, hb, hz] using hk
  · have hk := keeps_breakLength hs
    simpa [Keeps, escapedLength, hb, hz] using hk

lemma keeps_escapeUnit {p : Char → Bool} (hp : isBlind p = true) (hn : p '\n' = false) (b : Bool)
    (s : List Char) (hs : w.Admits s) : w.Keeps (escapeUnit p b) s := by
  cases s with
  | nil => rfl
  | cons c s =>
    by_cases hc : c = '\\'
    · have hx : isBlind (· == '\\') = true := by decide
      have hk := keeps_escapedLength hs.of_cons
      rw [hc, Keeps, spell_cons_of_isBlind hx]
      by_cases hb : (b || breakLength s == 0) = true
      · have hb' : (b || breakLength (w.spell s) == 0) = true := by
          simpa [breakLength_spell_eq_zero] using hb
        simp only [escapeUnit, hb, hb', if_true]
        rw [hk, length_spell_take_succ hx]
      · have hb' : ¬ (b || breakLength (w.spell s) == 0) = true := by
          simpa [breakLength_spell_eq_zero] using hb
        simp [escapeUnit, hb, hb']
    · have hfirst : (w.spell (c :: s)).head? ≠ some '\\' := by
        rw [ne_eq, head?_spell_eq_some (by decide)]
        simpa using hc
      have hunit : ∀ t : List Char, t.head? ≠ some '\\' →
          escapeUnit p b t = if t.head?.any p then 1 else 0 := by
        rintro (_ | ⟨d, t⟩) hd
        · rfl
        · have hd' : d ≠ '\\' := by simpa using hd
          rw [escapeUnit, if_neg hd']
          rfl
      rw [Keeps, hunit _ hfirst, hunit _ (by simpa using hc), any_head?_spell hp]
      cases hpc : p c with
      | false => rw [List.head?_cons, Option.any_some, hpc]; rfl
      | true =>
        have hb := not_isBreak_of_blind hp hn hpc
        rw [List.head?_cons, Option.any_some, hpc, if_pos rfl, length_spell_take_one hb]

lemma keeps_nameLength (s : List Char) (hs : w.Admits s) : w.Keeps nameLength s := by
  have h := keeps_runLength (w := w) rfl (keeps_escapeUnit (p := isNameChar) (by decide) rfl false) s hs
  rwa [← funext nameUnit_eq] at h

lemma startsName_eq (s : List Char) : startsName s =
    if s.head? = some '-' then s.tail.head?.any fun c => isNameStart c || c == '-' || c == '\\'
    else if s.head? = some '\\' then breakLength s.tail == 0
    else s.head?.any isNameStart := by
  cases s with
  | nil => rfl
  | cons c s => simp [startsName_cons]

lemma startsName_spell (s : List Char) : startsName (w.spell s) = startsName s := by
  have hminus := head?_spell_eq_some (w := w) (x := '-') (by decide) s
  have hback := head?_spell_eq_some (w := w) (x := '\\') (by decide) s
  simp only [startsName_eq, hminus, hback]
  split_ifs with h₁ h₂
  · obtain ⟨r, rfl⟩ := List.head?_eq_some_iff.mp h₁
    rw [spell_cons_of_isBlind (by decide)]
    exact any_head?_spell (by decide) r
  · obtain ⟨r, rfl⟩ := List.head?_eq_some_iff.mp h₂
    rw [spell_cons_of_isBlind (by decide), List.tail_cons, List.tail_cons, Bool.eq_iff_iff, beq_iff_eq,
      beq_iff_eq]
    exact breakLength_spell_eq_zero r
  · exact any_head?_spell (by decide) s

section Prefix
variable {n : Nat}

lemma breakLength_take (h : breakLength s ≤ n) : breakLength (s.take n) = breakLength s := by
  cases s with
  | nil => simp
  | cons c s =>
    cases n with
    | zero => exact (Nat.le_zero.mp h).symm
    | succ n =>
      rw [breakLength_cons] at h
      rw [List.take_succ_cons, breakLength_cons, breakLength_cons, List.head?_take]
      by_cases hn : n = 0
      · have hpair : ¬ (c = '\r' ∧ s.head? = some '\n') := by
          intro hpair
          rw [if_pos hpair] at h
          omega
        simp [hn, hpair]
      · simp [hn]

lemma spaceLength_take (h : spaceLength s ≤ n) : spaceLength (s.take n) = spaceLength s := by
  cases s with
  | nil => simp
  | cons c s =>
    cases n with
    | zero => exact (Nat.le_zero.mp h).symm
    | succ n =>
      rw [List.take_succ_cons, spaceLength, spaceLength]
      rw [spaceLength] at h
      split_ifs with hc
      · rfl
      · rw [if_neg hc] at h
        exact breakLength_take h

lemma hexDigits_take (h : (hexDigits s).length ≤ n) : hexDigits (s.take n) = hexDigits s := by
  rw [hexDigits, List.take_take, Nat.min_comm, ← List.take_take, ← List.take_takeWhile]
  exact List.take_of_length_le h

lemma escapeLength_take (h : escapeLength s ≤ n) : escapeLength (s.take n) = escapeLength s := by
  cases s with
  | nil => simp
  | cons c s =>
    have hpos : 0 < escapeLength (c :: s) := by
      by_cases hc : isHex c = true <;> simp [escapeLength, hc, hexDigits]
    obtain ⟨m, rfl⟩ := Nat.exists_eq_succ_of_ne_zero (hpos.trans_le h).ne'
    rw [escapeLength] at h
    rw [List.take_succ_cons, escapeLength, escapeLength]
    split_ifs with hc
    · rw [if_pos hc] at h
      have hx := hexDigits_take (s := c :: s) (n := m + 1) (by simp only at h; omega)
      rw [List.take_succ_cons] at hx
      simp only [hx]
      rw [← List.take_succ_cons, List.drop_take, spaceLength_take]
      simp only at h
      omega
    · rfl

lemma escapedLength_take (h : escapedLength s ≤ n) : escapedLength (s.take n) = escapedLength s := by
  unfold escapedLength at h ⊢
  by_cases hb : breakLength s = 0
  · have ht := breakLength_take (s := s) (n := n) (by omega)
    simp only [ht, hb, beq_self_eq_true, if_true] at h ⊢
    exact escapeLength_take h
  · have hne : (breakLength s == 0) = false := by simpa using hb
    simp only [hne] at h
    rw [breakLength_take h]
    simp only [hne]
    rfl

lemma escapeUnit_take {p : Char → Bool} {b : Bool} (hpos : 0 < escapeUnit p b s)
    (h : escapeUnit p b s ≤ n) : escapeUnit p b (s.take n) = escapeUnit p b s := by
  cases s with
  | nil => simp
  | cons c s =>
    obtain ⟨m, rfl⟩ := Nat.exists_eq_succ_of_ne_zero (hpos.trans_le h).ne'
    rw [List.take_succ_cons]
    by_cases hc : c = '\\'
    · by_cases hb : (b || breakLength s == 0) = true
      · simp only [escapeUnit, hc, hb, if_true] at h ⊢
        have hle : escapedLength s ≤ m := Nat.le_of_succ_le_succ h
        have hb' : (b || breakLength (s.take m) == 0) = true := by
          cases b with
          | true => rfl
          | false =>
            have hz : breakLength s = 0 := by simpa using hb
            simp [breakLength_take (s := s) (n := m) (by omega), hz]
        rw [if_pos hb', escapedLength_take hle]
      · simp [escapeUnit, hc, hb] at hpos
    · simp only [escapeUnit, hc, if_false]

lemma runLength_take {unit : List Char → Nat} (nil : unit [] = 0)
    (h : ∀ s n, 0 < unit s → unit s ≤ n → unit (s.take n) = unit s) (s : List Char) :
    runLength unit 0 (s.take (runLength unit 0 s)) = runLength unit 0 s := by
  induction s using runLength_induction nil with
  | stop s _ => rw [List.take_zero]; rfl
  | past s hu =>
    have hne : s ≠ [] := by rintro rfl; simp [nil] at hu
    rw [List.take_length, runLength_of_unit_pos hne (by omega), List.drop_eq_nil_of_le hu.le,
      Nat.min_eq_right hu.le]
    rfl
  | more s n hpos hle ih =>
    have hu := h s (unit s + n) hpos (Nat.le_add_right _ _)
    have hne : s.take (unit s + n) ≠ [] := by
      intro he
      rw [he, nil] at hu
      omega
    rw [runLength_of_unit_pos hne (by omega), hu, List.drop_take, Nat.add_sub_cancel_left, ih,
      List.length_take]
    omega

lemma nameLength_take (s : List Char) : nameLength (s.take (nameLength s)) = nameLength s := by
  rw [nameLength, nameLength, funext nameUnit_eq]
  exact runLength_take rfl (fun _ _ hpos hle => escapeUnit_take hpos hle) s

end Prefix

lemma hexValue_toLower (c : Char) : hexValue c.toLower = hexValue c := by
  induction c using toLower_induction with
  | capital i hi => revert i; decide
  | other c hc => rfl

lemma ofHex_spell {s : List Char} (hs : ∀ c ∈ s, isHex c = true) : ofHex (w.spell s) = ofHex s := by
  have hlower : ∀ t, ofHex (lower t) = ofHex t := by
    intro t
    simp only [ofHex, lower, List.foldl_map, hexValue_toLower]
  rw [← hlower, lower_spell fun c hc => isBreak_of_isHex (hs c hc), hlower]

lemma toLower_escapeValue_spell (hb : breakLength s = 0) :
    (escapeValue (w.spell s)).toLower = (escapeValue s).toLower := by
  cases s with
  | nil => rfl
  | cons c s =>
    have hc : isBreak c = false := by simpa [breakLength_eq_zero_iff] using hb
    have hhex := hexDigits_spell (w := w) (c :: s)
    obtain ⟨d, hd, he⟩ := exists_spell_cons (w := w) hc
    have hx : isHex d = isHex c := blind_of_toLower_eq (by decide) hd
    have hz : (d == '\x00') = (c == '\x00') := blind_of_toLower_eq (p := (· == '\x00')) (by decide) hd
    rw [he] at hhex ⊢
    simp only [escapeValue, hx, hz, hhex,
      ofHex_spell (fun c hc => List.mem_takeWhile_imp hc : ∀ c ∈ hexDigits _, _)]
    split_ifs
    · rfl
    · rfl
    · exact hd

lemma unescape_eq_drop (n : Nat) (s : List Char) : unescape n s = unescape 0 (s.drop n) := by
  induction s generalizing n with
  | nil => simp [unescape]
  | cons c s ih =>
    cases n with
    | zero => rfl
    | succ n => rw [unescape, ih, List.drop_succ_cons]

lemma unescape_backslash (s : List Char) :
    unescape 0 ('\\' :: s) = escapeValue s :: unescape 0 (s.drop (escapeLength s)) := by
  rw [← unescape_eq_drop]
  rfl

lemma unescape_cons {c : Char} (hc : c ≠ '\\') (s : List Char) :
    unescape 0 (c :: s) = (if c == '\x00' then replacement else c) :: unescape 0 s := by
  rw [unescape, if_neg (by simpa using hc)]

lemma lower_unescape_spell : w.Admits s → nameLength s = s.length →
    lower (unescape 0 (w.spell s)) = lower (unescape 0 s) := by
  have nil : escapeUnit isNameChar false [] = 0 := rfl
  rw [nameLength, funext nameUnit_eq]
  induction s using runLength_induction nil with
  | stop s _ =>
    intro _ hl
    rw [List.length_eq_zero_iff.mp hl.symm]
    rfl
  | past s hu => exact absurd (escapeUnit_le s) (Nat.not_le.mpr hu)
  | more s n hpos hle ih =>
    intro hs hl
    rw [List.length_drop] at ih
    have ih := ih (hs.drop _) (by omega)
    cases s with
    | nil => rfl
    | cons c s =>
      by_cases hc : c = '\\'
      · subst c
        have hb : breakLength s = 0 := by
          by_contra hb
          simp [escapeUnit, hb] at hpos
        have hk := keeps_escapeLength hs.of_cons hb
        simp only [escapeUnit, escapedLength, hb, beq_self_eq_true, Bool.or_true, if_true,
          List.drop_succ_cons] at ih
        rw [spell_cons_of_isBlind (by decide), unescape_backslash, unescape_backslash, hk.drop, lower,
          lower, List.map_cons, List.map_cons, toLower_escapeValue_spell hb]
        exact congrArg _ ih
      · have hn : isNameChar c = true := by
          by_contra hn
          simp [escapeUnit, hc, hn] at hpos
        have hb : isBreak c = false := not_isBreak_of_blind (by decide) rfl hn
        obtain ⟨d, hd, he⟩ := exists_spell_cons (w := w) hb
        have hdb : (d == '\\') = (c == '\\') :=
          blind_of_toLower_eq (p := (· == '\\')) (by decide) hd
        have hz : (d == '\x00') = (c == '\x00') :=
          blind_of_toLower_eq (p := (· == '\x00')) (by decide) hd
        simp only [escapeUnit, hc, hn, if_false, if_true, List.drop_succ_cons, List.drop_zero] at ih
        rw [he, unescape_cons (by simpa [hc] using hdb), unescape_cons hc, hz, lower, lower,
          List.map_cons, List.map_cons]
        congr 1
        split_ifs
        · rfl
        · exact hd

end FontSizeLint.Css

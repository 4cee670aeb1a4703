import FontSizeLint.Proofs.Css.SpelledNumber

/-! Tokens in other spellings. Whatever the lexer looks at is the same in every spelling of a text, so the
text has the same tokens in each, at the same places, and names keep their meaning. -/
namespace FontSizeLint.Css
open Text Text.Spelling

/-- A reader of the front of a text finds a token of the same kind there in this spelling. -/
def Reads (w : Spelling) (f : List Char → Kind × Nat) (s : List Char) : Prop :=
  f (w.spell s) = ((f s).1, (w.spell (s.take (f s).2)).length)

lemma Reads.kind {w : Spelling} {f : List Char → Kind × Nat} {s : List Char} (h : Reads w f s) :
    (f (w.spell s)).1 = (f s).1 := by
  rw [h]

lemma Reads.keeps {w : Spelling} {f : List Char → Kind × Nat} {s : List Char} (h : Reads w f s) :
    w.Keeps (fun s => (f s).2) s := by
  rw [Keeps, h]

namespace Lexer

variable {w : Spelling} {s : List Char}

lemma reads_numeric (hs : w.Admits s) : Reads w numeric s := by
  have heq : ∀ t, numeric t =
      if (t.drop (numberLength t)).head? = some '%' then (.percentage, numberLength t + 1)
      else if startsName (t.drop (numberLength t)) then
        (.dimension, numberLength t + nameLength (t.drop (numberLength t)))
      else (.number, numberLength t) := by
    intro t
    have hl : (t.take (numberLength t)).length = numberLength t :=
      List.length_take_of_le (numberLength_le t)
    have h := numeric_eq (s := t.take (numberLength t)) (u := t.drop (numberLength t))
    rw [List.take_append_drop, hl] at h
    exact h rfl
  have hk := keeps_numberLength (w := w) s
  have hp := head?_spell_eq_some (w := w) (x := '%') (by decide) (s.drop (numberLength s))
  have hsum := hk.add (keeps_nameLength _ (hs.drop _))
  rw [Keeps, hk.drop] at hsum
  simp only [Reads, heq, hk.drop, hp, startsName_spell]
  split_ifs with h₁ h₂
  · obtain ⟨r, hr⟩ := List.head?_eq_some_iff.mp h₁
    rw [length_spell_take_of_drop hr rfl, hk]
  · rw [hsum]
  · rw [hk]

lemma reads_quoted {q : Char} (hq : q = '"' ∨ q = '\'') (hs : w.Admits s) :
    Reads w (quoted q) s := by
  have hq₁ : q ≠ '\\' := by rcases hq with rfl | rfl <;> decide
  have hq₂ : isBlind (· == q) = true := by rcases hq with rfl | rfl <;> decide
  have hq₃ : isBlind (isStringChar q) = true := by rcases hq with rfl | rfl <;> decide
  have heq : ∀ t, quoted q t =
      if t.drop (runLength (stringUnit q) 0 t) = [] then (.string, runLength (stringUnit q) 0 t)
      else if (t.drop (runLength (stringUnit q) 0 t)).head? = some q then
        (.string, runLength (stringUnit q) 0 t + 1)
      else (.badString, runLength (stringUnit q) 0 t) := by
    intro t
    rw [quoted]
    cases t.drop (runLength (stringUnit q) 0 t) with
    | nil => rfl
    | cons c r => by_cases hc : c = q <;> simp [hc]
  have hk : w.Keeps (runLength (stringUnit q) 0) s := by
    rw [funext (stringUnit_eq hq₁)]
    exact keeps_runLength rfl (keeps_escapeUnit hq₃ (by simp [isStringChar, isBreak]) true) s hs
  have hd := head?_spell_eq_some (w := w) hq₂ (s.drop (runLength (stringUnit q) 0 s))
  simp only [Reads, heq, hk.drop, spell_eq_nil, hd]
  split_ifs with h₁ h₂
  · rw [hk]
  · obtain ⟨r, hr⟩ := List.head?_eq_some_iff.mp h₂
    rw [length_spell_take_of_drop hr (not_isBreak_of_isBlind hq₂), hk]
  · rw [hk]

lemma commentLength_append {p : List Char} (hp : '*' ∉ p) (s : List Char) :
    commentLength (p ++ s) = p.length + commentLength s := by
  induction p with
  | nil => simp
  | cons c p ih =>
    rw [List.mem_cons, not_or] at hp
    rw [List.cons_append, commentLength, ih hp.2, List.length_cons]
    · omega
    · rintro t rfl -
      exact hp.1 rfl

lemma commentLength_star {s : List Char} (hs : s.head? ≠ some '/') :
    commentLength ('*' :: s) = commentLength s + 1 := by
  rw [commentLength]
  rintro r - rfl
  exact hs rfl

lemma notMem_write {c x : Char} (hx : isBlind (· == x) = true) (hc : c ≠ x) : x ∉ w.write c := by
  intro hmem
  have h := blind_of_mem_write hx hmem
  simp only [beq_self_eq_true, eq_comm (a := true), beq_iff_eq] at h
  exact hc h

lemma keeps_commentLength (s : List Char) : w.Keeps commentLength s := by
  unfold Keeps
  induction s with
  | nil => rfl
  | cons c s ih =>
    by_cases hc : c = '*'
    · subst c
      rw [spell_cons_of_isBlind (by decide)]
      by_cases hd : s.head? = some '/'
      · obtain ⟨r, rfl⟩ := List.head?_eq_some_iff.mp hd
        rw [spell_cons_of_isBlind (by decide), commentLength, commentLength,
          length_spell_take_succ (by decide), length_spell_take_succ (by decide)]
        rfl
      · have hd' : (w.spell s).head? ≠ some '/' := by rwa [ne_eq, head?_spell_eq_some (by decide)]
        rw [commentLength_star hd, commentLength_star hd', ih, length_spell_take_succ (by decide)]
    · have h := commentLength_append (p := [c]) (by simpa using Ne.symm hc) s
      rw [List.singleton_append] at h
      rw [spell_cons, commentLength_append (notMem_write (by decide) hc), ih, h, List.length_singleton,
        Nat.add_comm 1, List.take_succ_cons, spell_cons, List.length_append]

lemma badUrlLength_step {s : List Char} (h : 0 < badUrlUnit s) :
    badUrlLength s = badUrlUnit s + badUrlLength (s.drop (badUrlUnit s)) := by
  have hs : s ≠ [] := by
    rintro rfl
    simp [badUrlUnit] at h
  simp only [badUrlLength]
  rw [runLength_of_unit_pos hs h, Nat.min_eq_left (badUrlUnit_le s), ← List.drop_drop, Nat.add_assoc]

lemma badUrlUnit_plain {c : Char} (h₁ : c ≠ ')') (h₂ : c ≠ '\\') (s : List Char) :
    badUrlUnit (c :: s) = 1 := by
  rw [badUrlUnit]
  · exact h₁
  · exact fun _ hc => absurd hc h₂
  · exact fun _ hc => absurd hc h₂

lemma badUrlLength_append {p : List Char} (hp : ∀ c ∈ p, c ≠ ')' ∧ c ≠ '\\') (s : List Char) :
    badUrlLength (p ++ s) = p.length + badUrlLength s := by
  induction p with
  | nil => simp
  | cons c p ih =>
    rw [List.forall_mem_cons] at hp
    have hu := badUrlUnit_plain hp.1.1 hp.1.2 (p ++ s)
    rw [List.cons_append, badUrlLength_step (by omega), hu, List.drop_succ_cons, List.drop_zero,
      ih hp.2, List.length_cons]
    omega

lemma badUrlLength_escaped {e : Char} (he : e = ')' ∨ e = '\\') (s : List Char) :
    badUrlLength ('\\' :: e :: s) = badUrlLength s + 2 := by
  have hu : badUrlUnit ('\\' :: e :: s) = 2 := by rcases he with rfl | rfl <;> rfl
  rw [badUrlLength_step (by omega), hu, Nat.add_comm]
  rfl

lemma badUrlLength_backslash {s : List Char} (h₁ : s.head? ≠ some ')') (h₂ : s.head? ≠ some '\\') :
    badUrlLength ('\\' :: s) = badUrlLength s + 1 := by
  have hu : badUrlUnit ('\\' :: s) = 1 := by
    cases s with
    | nil => rfl
    | cons e s =>
      rw [badUrlUnit_cons_cons]
      simp_all
  rw [badUrlLength_step (by omega), hu, Nat.add_comm]
  rfl

lemma keeps_badUrlLength (s : List Char) : w.Keeps badUrlLength s := by
  unfold Keeps
  induction s using (measure List.length).wf.induction with
  | h s ih =>
    cases s with
    | nil => rfl
    | cons c s =>
      have ihs : badUrlLength (w.spell s) = (w.spell (s.take (badUrlLength s))).length :=
        ih s (Nat.lt_succ_self s.length)
      by_cases hp : c = ')'
      · subst c
        have h : ∀ t, badUrlLength (')' :: t) = 1 := by
          intro t
          simp [badUrlLength, runLength, badUrlUnit]
        rw [spell_cons_of_isBlind (by decide), h, h, length_spell_take_one rfl]
      by_cases hc : c = '\\'
      · subst c
        have hx : isBlind (· == '\\') = true := by decide
        rw [spell_cons_of_isBlind hx]
        by_cases hesc : s.head? = some ')' ∨ s.head? = some '\\'
        · obtain ⟨e, he, r, rfl⟩ : ∃ e, (e = ')' ∨ e = '\\') ∧ ∃ r, s = e :: r := by
            rcases hesc with hesc | hesc <;> obtain ⟨r, rfl⟩ := List.head?_eq_some_iff.mp hesc
            · exact ⟨')', .inl rfl, r, rfl⟩
            · exact ⟨'\\', .inr rfl, r, rfl⟩
          have hb : isBlind (· == e) = true := by rcases he with rfl | rfl <;> decide
          have ihr : badUrlLength (w.spell r) = (w.spell (r.take (badUrlLength r))).length :=
            ih r (Nat.lt_succ_of_lt (Nat.lt_succ_self r.length))
          rw [spell_cons_of_isBlind hb, badUrlLength_escaped he, badUrlLength_escaped he, ihr,
            length_spell_take_succ hx, length_spell_take_succ hb]
        · rw [not_or] at hesc
          have h₁ : (w.spell s).head? ≠ some ')' := (head?_spell_eq_some (by decide) s).not.mpr hesc.1
          have h₂ : (w.spell s).head? ≠ some '\\' := (head?_spell_eq_some hx s).not.mpr hesc.2
          rw [badUrlLength_backslash h₁ h₂, badUrlLength_backslash hesc.1 hesc.2, ihs,
            length_spell_take_succ hx]
      · have h := badUrlLength_append (p := [c]) (by simpa using ⟨hp, hc⟩) s
        have hw : ∀ d ∈ w.write c, d ≠ ')' ∧ d ≠ '\\' := by
          intro d hd
          exact ⟨ne_of_mem_of_not_mem hd (notMem_write (by decide) hp),
            ne_of_mem_of_not_mem hd (notMem_write (by decide) hc)⟩
        rw [List.singleton_append] at h
        rw [spell_cons, badUrlLength_append hw, ihs, h, List.length_singleton, Nat.add_comm 1,
          List.take_succ_cons, spell_cons, List.length_append]

lemma keeps_addressLength (hs : w.Admits s) : w.Keeps addressLength s := by
  have hk : w.Keeps (runLength urlUnit 0) s := by
    rw [funext urlUnit_eq]
    exact keeps_runLength rfl (keeps_escapeUnit (by decide) rfl false) s hs
  exact hk.add (keeps_spacesLength _)

lemma reads_address (hs : w.Admits s) : Reads w address s := by
  have hk := keeps_addressLength hs
  cases hd : s.drop (addressLength s) with
  | nil =>
    have hd' : (w.spell s).drop (addressLength (w.spell s)) = [] := by
      rw [hk.drop, hd]
      rfl
    rw [Reads, address_of_drop_eq_nil hd, address_of_drop_eq_nil hd', hk]
  | cons c r =>
    have hb : isBreak c = false := by
      have hd₂ := hd
      rw [addressLength, ← List.drop_drop] at hd₂
      have hsp := isSpace_drop_spacesLength hd₂
      simp only [isSpace, Bool.or_eq_false_iff] at hsp
      exact hsp.2
    obtain ⟨d, hlow, he⟩ := exists_spell_cons (w := w) hb
    have hp : d = ')' ↔ c = ')' := by
      have h := blind_of_toLower_eq (p := (· == ')')) (by decide) hlow
      rwa [Bool.eq_iff_iff, beq_iff_eq, beq_iff_eq] at h
    have hd' : (w.spell s).drop (addressLength (w.spell s)) = d :: w.spell r := by
      rw [hk.drop, hd, he]
    have hlen := length_spell_take_of_drop (w := w) hd hb
    simp only [Reads, address_of_drop_eq_cons hd, address_of_drop_eq_cons hd', hp]
    split_ifs
    · rw [hlen, hk]
    · rw [length_spell_take_add, hlen, ← List.drop_drop, hd, hk, keeps_badUrlLength]
      rfl

lemma url?_spell (hs : w.Admits s) : url? (w.spell s) =
    (url? s).map fun p => (p.1, (w.spell (s.take p.2)).length) := by
  have hk := keeps_spacesLength (w := w) s
  have ha : address (w.spell (s.drop (spacesLength s))) = _ := reads_address (hs.drop _)
  have hdouble := head?_spell_eq_some (w := w) (x := '"') (by decide) (s.drop (spacesLength s))
  have hsingle := head?_spell_eq_some (w := w) (x := '\'') (by decide) (s.drop (spacesLength s))
  simp only [url?_eq, hk.drop, hdouble, hsingle, ha]
  split_ifs
  · rfl
  · rw [Option.map_some, length_spell_take_add, hk]

lemma reads_named (hs : w.Admits s) : Reads w named s := by
  have hk := keeps_nameLength s hs
  have hp := head?_spell_eq_some (w := w) (x := '(') (by decide) (s.drop (nameLength s))
  have hkey : lower (unescape 0 (w.spell (s.take (nameLength s)))) =
      lower (unescape 0 (s.take (nameLength s))) := by
    apply lower_unescape_spell (hs.take _)
    rw [nameLength_take, List.length_take_of_le (nameLength_le s)]
  simp only [Reads, named_eq, hk.take, hk.drop, hp, hkey]
  by_cases hopen : (s.drop (nameLength s)).head? = some '('
  · obtain ⟨r, hr⟩ := List.head?_eq_some_iff.mp hopen
    have hlen := length_spell_take_of_drop (w := w) hr rfl
    have hdrop : s.drop (nameLength s + 1) = r := by rw [← List.drop_drop, hr]; rfl
    have hdrop' : (w.spell s).drop (nameLength (w.spell s) + 1) = w.spell r := by
      rw [← List.drop_drop, hk.drop, hr, spell_cons_of_isBlind (by decide)]
      rfl
    have hr' : w.Admits r := hdrop ▸ hs.drop _
    simp only [hopen, if_true, hdrop, hdrop', url?_spell hr']
    split_ifs
    · cases url? r with
      | none => simp [hlen, hk.eq]
      | some p => simp [length_spell_take_add, hlen, hdrop, hk.eq]
    · simp [hlen, hk.eq]
  · simp only [hopen, if_false, hk.eq]

lemma startsCdc_spell (s : List Char) : startsCdc (w.spell s) = startsCdc s := by
  rw [Bool.eq_iff_iff, startsCdc_iff, startsCdc_iff,
    isPrefix_spell_iff (List.all_eq_true.mp (by decide))]

lemma startsHash_spell (s : List Char) : startsHash (w.spell s) = startsHash s := by
  have h : ∀ t, startsHash t = (startsName t || t.head?.any fun c => c.isDigit || c == '-') := by
    rintro (_ | ⟨c, t⟩)
    · rfl
    · simp [startsHash, Bool.or_assoc]
  rw [h, h, startsName_spell, any_head?_spell (by decide)]

lemma isBlind_of_mem_marks {m : List Char} (hm : m ∈ marks) : ∀ x ∈ m, isBlind (· == x) = true := by
  have h : (marks.all fun m => m.all fun x => isBlind (· == x)) = true := by decide
  simp only [List.all_eq_true] at h
  exact h m hm

lemma isMarked_spell (s : List Char) : isMarked (w.spell s) = isMarked s := by
  rw [Bool.eq_iff_iff, isMarked_iff, isMarked_iff]
  exact exists_congr fun m => and_congr_right fun hm => isPrefix_spell_iff (isBlind_of_mem_marks hm) s

lemma length_spell_take_append {m : List Char} (hm : ∀ x ∈ m, isBlind (· == x) = true) (n : Nat)
    (s : List Char) : (w.spell ((m ++ s).take (n + m.length))).length =
      (w.spell (s.take n)).length + m.length := by
  rw [Nat.add_comm n, List.take_length_add_append, spell_append, spell_eq_self hm, List.length_append,
    Nat.add_comm]

lemma reads_marked {m : List Char} {f : List Char → Kind × Nat} (hm : m ∈ marks)
    (hf : ∀ t, symbol (m ++ t) = ((f t).1, (f t).2 + m.length)) {s : List Char} (h : Reads w f s) :
    Reads w symbol (m ++ s) := by
  have hx := isBlind_of_mem_marks hm
  rw [Reads, spell_append, spell_eq_self hx, hf, hf, h, length_spell_take_append hx]

lemma reads_name {k : Kind} {starts : List Char → Bool} (hs : w.Admits s)
    (hstarts : starts (w.spell s) = starts s) :
    Reads w (fun t => if starts t then (k, nameLength t) else (.delim, 0)) s := by
  simp only [Reads, hstarts]
  split_ifs
  · rw [keeps_nameLength s hs]
  · rfl

lemma reads_symbol (hs : w.Admits s) (hne : s ≠ []) (hb : s.head?.any isBreak = false) :
    Reads w symbol s := by
  cases h : isMarked s with
  | false =>
    obtain ⟨c, s, rfl⟩ := List.exists_cons_of_ne_nil hne
    rw [Reads, symbol_of_unmarked h, symbol_of_unmarked ((isMarked_spell _).trans h),
      length_spell_take_one hb]
  | true =>
    obtain ⟨m, hm, t, rfl⟩ := isMarked_iff.mp h
    have ht : w.Admits t := fun c hc => hs c (List.mem_append_right m hc)
    have hplain : ∀ k : Kind, Reads w (fun _ => (k, 0)) t := fun k => rfl
    have hm' := hm
    simp only [marks, List.mem_cons, List.not_mem_nil, or_false] at hm'
    rcases hm' with rfl | rfl | rfl | rfl | rfl | hm'
    · exact reads_marked hm (fun t => rfl) (reads_quoted (.inl rfl) ht)
    · exact reads_marked hm (fun t => rfl) (reads_quoted (.inr rfl) ht)
    · apply reads_marked hm _ (reads_name (k := .hash) ht (startsHash_spell t))
      intro t
      simp only [symbol, List.singleton_append]
      split_ifs <;> rfl
    · apply reads_marked hm _ (reads_name (k := .atKeyword) ht (startsName_spell t))
      intro t
      simp only [symbol, List.singleton_append]
      split_ifs <;> rfl
    · have hcomment : Reads w (fun t => (.comment, commentLength t)) t := by
        rw [Reads, keeps_commentLength t]
      exact reads_marked hm (fun t => rfl) hcomment
    · rcases hm' with rfl | rfl | rfl | rfl | rfl | rfl | rfl | rfl | rfl | rfl | rfl | rfl | rfl |
        rfl | rfl <;> exact reads_marked hm (fun t => rfl) (hplain _)

lemma head?_any_isBreak_of_spacesLength (h : ¬ 0 < spacesLength s) : s.head?.any isBreak = false := by
  cases s with
  | nil => rfl
  | cons c s =>
    by_contra hc
    have hsp : isSpace c = true := by
      rw [isSpace, show isBreak c = true by simpa using hc, Bool.or_true]
    simp [spacesLength, hsp] at h

/-- The first token is of the same kind in every spelling, and as long. -/
theorem reads_first (hs : w.Admits s) (hne : s ≠ []) : Reads w first s := by
  have hspaces := keeps_spacesLength (w := w) s
  have hpos : 0 < spacesLength (w.spell s) ↔ 0 < spacesLength s := by
    rw [Nat.pos_iff_ne_zero, Nat.pos_iff_ne_zero, ne_eq, hspaces.eq_zero_iff hne]
  have hnumeric := reads_numeric hs
  have hnamed := reads_named hs
  have hsymbol := reads_symbol hs hne
  simp only [Reads, first, hpos, startsNumber_spell, startsCdc_spell, startsName_spell]
    at hnumeric hnamed hsymbol ⊢
  split_ifs with h₁ h₂ h₃ h₄
  · rw [hspaces]
  · exact hnumeric
  · obtain ⟨r, rfl⟩ := (startsCdc_iff s).mp h₃
    have hlen := length_spell_take_append (w := w) (m := ['-', '-', '>'])
      (List.all_eq_true.mp (by decide)) 0 r
    exact congrArg _ hlen.symm
  · exact hnamed
  · exact hsymbol (head?_any_isBreak_of_spacesLength h₁)

lemma pieces_spell (hs : w.Admits s) :
    pieces first 0 (w.spell s) = (pieces first 0 s).map fun p => (p.1, w.spell p.2) := by
  induction s using (measure List.length).wf.induction with
  | h s ih =>
    by_cases hne : s = []
    · rw [hne]
      rfl
    have hfirst := reads_first hs hne
    have hpos := first_pos s
    rw [pieces_step (first_pos _) (by simpa using hne), pieces_step hpos hne, hfirst.keeps.take,
      hfirst.keeps.drop, List.map_cons, hfirst.kind, ih _ _ (hs.drop _)]
    change (s.drop _).length < s.length
    have hlen := List.length_pos_iff.mpr hne
    rw [List.length_drop]
    omega

lemma place_spell (p : Position) {ps : List (Kind × List Char)} (hps : ∀ q ∈ ps, w.Admits q.2) :
    place p (ps.map fun q => (q.1, w.spell q.2)) =
      (place p ps).map fun t => { t with text := w.spell t.text } := by
  induction ps generalizing p with
  | nil => rfl
  | cons q ps ih =>
    rw [List.forall_mem_cons] at hps
    simp only [List.map_cons, place, Position.advance_spell p hps.1, ih _ hps.2]

lemma first_of_atKeyword {s : List Char} : (first s).1 = .atKeyword →
    ∃ r, s = '@' :: r ∧ (first s).2 = nameLength r + 1 := by
  fun_cases first s with
  | case1 | case3 => simp
  | case2 => fun_cases numeric s <;> simp
  | case4 =>
    fun_cases named s with
    | case1 n r h _ kind m hm =>
      have hurl : ∀ p, url? r = some p → p.1 ≠ .atKeyword := by fun_cases url? r <;> simp
      exact fun hk => absurd hk (hurl (kind, m) hm)
    | _ => simp
  | case5 =>
    have hquoted : ∀ q t, (quoted q t).1 ≠ .atKeyword := by
      intro q t
      fun_cases quoted q t <;> simp
    fun_cases symbol s with
    | case1 t kind n h => exact fun hk => absurd (h ▸ hk) (hquoted '"' t)
    | case2 t kind n h => exact fun hk => absurd (h ▸ hk) (hquoted '\'' t)
    | case5 t h => exact fun _ => ⟨t, rfl, rfl⟩
    | _ => simp

end Lexer

def Token.spelled (w : Spelling) (t : Token) : Token := { t with text := w.spell t.text }

variable {w : Spelling} {s : List Char}

lemma admits_of_mem_tokens (hs : w.Admits s) {t : Token} (ht : t ∈ tokens s) : w.Admits t.text := by
  intro c hc
  apply hs c
  rw [← tokens_flatten s]
  exact List.mem_flatten.mpr ⟨t.text, List.mem_map_of_mem ht, hc⟩

/-- A text has the same tokens in every spelling, at the same places. -/
theorem tokens_spell (hs : w.Admits s) : tokens (w.spell s) = (tokens s).map (Token.spelled w) := by
  rw [tokens, Lexer.pieces_spell hs, Lexer.place_spell]
  · rfl
  · intro q hq c hc
    apply hs c
    have hf := pieces_flatten (fun s _ => Lexer.first_pos s) 0 s
    rw [List.drop_zero] at hf
    rw [← hf]
    exact List.mem_flatten.mpr ⟨q.2, List.mem_map_of_mem hq, hc⟩

/-- Names keep their meaning. -/
theorem key_spelled (hs : w.Admits s) {t : Token} (ht : t ∈ tokens s) : (t.spelled w).key = t.key := by
  obtain ⟨ts, us, hts⟩ := List.append_of_mem ht
  have hat := tokens_at hts
  generalize (Token.textOf ts).length = o at hat
  have hadm := hs.drop o
  have hname : ∀ r, w.Admits r → lower (unescape 0 (w.spell (r.take (nameLength r)))) =
      lower (unescape 0 (r.take (nameLength r))) := by
    intro r hr
    apply lower_unescape_spell (hr.take _)
    rw [nameLength_take, List.length_take_of_le (nameLength_le r)]
  by_cases hi : t.kind = .ident
  · have hf := Lexer.first_of_ident (hat.kind.symm.trans hi)
    have htext := hat.text
    rw [hf] at htext
    simp only [Token.key, Token.name, Token.spelled, hi, htext]
    exact hname _ hadm
  by_cases ha : t.kind = .atKeyword
  · obtain ⟨r, hr, hf⟩ := Lexer.first_of_atKeyword (hat.kind.symm.trans ha)
    have htext := hat.text
    rw [hf, hr, List.take_succ_cons] at htext
    have hx : isBlind (· == '@') = true := by decide
    simp only [Token.key, Token.name, Token.spelled, ha, htext, spell_cons_of_isBlind hx,
      List.drop_succ_cons, List.drop_zero]
    exact hname r (hr ▸ hadm).of_cons
  · have hnone : ∀ u : Token, u.kind = t.kind → u.key = [] := by
      intro u hu
      unfold Token.key Token.name
      rw [hu]
      split
      · contradiction
      · contradiction
      · rfl
    rw [hnone t rfl, hnone (t.spelled w) rfl]

end FontSizeLint.Css

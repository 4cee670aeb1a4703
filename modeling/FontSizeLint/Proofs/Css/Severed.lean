import FontSizeLint.Proofs.Css.Splice

/-! Tokens of a text that is cut off. A token that ends before the cut is the same in what is left; only
a string that a break spoils at the cut becomes one that the end of the text closes. -/
namespace FontSizeLint.Css
open Text Numeric

namespace Lexer
variable {s r : List Char}

/-- A token that ends before the cut is the same in what is left, but for a string that a break spoils
at the cut. -/
def Kept (f : List Char → Kind × Nat) (s r : List Char) : Prop :=
  (f (s ++ r)).2 ≤ s.length →
    f s = f (s ++ r) ∨ f (s ++ r) = (.badString, s.length) ∧ f s = (.string, s.length) ∧
      r.head?.any isBreak = true

lemma kept_numeric (h : Severs s r) : Kept numeric s r := by
  intro hle
  left
  obtain ⟨a, u, rfl, ha, -⟩ := exists_append_numberLength s
  have hu : Severs u r := by simpa using h.drop a.length
  have har : numberLength (a ++ (u ++ r)) = a.length := by
    rw [← List.append_assoc, h.numberLength_append, ha]
  have hmin := hu.nameLength_eq_min
  rw [List.append_assoc] at hle ⊢
  rw [numeric_eq har] at hle ⊢
  rw [numeric_eq ha]
  simp only [hu.head?_append (q := '%') (by decide), hu.startsName_append, List.length_append]
    at hle ⊢
  split_ifs at hle ⊢
  · rfl
  · rw [hmin, Nat.min_eq_right (by omega)]
  · rfl

lemma kept_quoted (h : Severs s r) {q : Char} (hq : q ≠ '\\') : Kept (quoted q) s r := by
  intro hle
  have hmin := h.runLength_eq_min (isStringChar q) true
  rw [← funext (stringUnit_eq hq)] at hmin
  rcases Nat.lt_or_eq_of_le ((runLength_le_quoted q (s ++ r)).trans hle) with hlt | heq
  · obtain ⟨d, t, hd⟩ := List.exists_cons_of_ne_nil
      (List.drop_eq_nil_iff.not.mpr (Nat.not_le.mpr hlt))
    rw [Nat.min_eq_right hlt.le] at hmin
    left
    rw [quoted, quoted, hmin, List.drop_append_of_le_length hlt.le, hd]
    rfl
  · rw [heq, Nat.min_self] at hmin
    have hs : quoted q s = (.string, s.length) := by rw [quoted, hmin, List.drop_length]
    cases r with
    | nil => exact .inl (by rw [List.append_nil])
    | cons c r =>
      have hsr : quoted q (s ++ c :: r) =
          if c == q then (.string, s.length + 1) else (.badString, s.length) := by
        rw [quoted, heq, List.drop_left]
      rw [hsr] at hle ⊢
      split_ifs at hle ⊢ with hc
      · exact absurd hle (Nat.not_succ_le_self _)
      · refine .inr ⟨rfl, hs, ?_⟩
        have hstop : stringUnit q ((s ++ c :: r).drop (runLength (stringUnit q) 0 (s ++ c :: r))) = 0 :=
          unit_drop_runLength rfl _
        rw [heq, List.drop_left, stringUnit_eq hq, escapeUnit] at hstop
        have hback : c ≠ '\\' := by
          rintro rfl
          exact absurd (h.head _ rfl) (by decide)
        simpa [hback, isStringChar, hc] using hstop

lemma badUrlUnit_eq_min (s r : List Char) :
    badUrlUnit s = min s.length (badUrlUnit (s ++ r)) := by
  match s with
  | [] => simp [badUrlUnit]
  | [d] =>
    cases r with
    | nil => exact (Nat.min_eq_right (badUrlUnit_le [d])).symm
    | cons e r =>
      rw [List.singleton_append, badUrlUnit_cons_cons, List.length_singleton]
      by_cases hd : d = ')'
      · subst d
        rfl
      · have hone : badUrlUnit [d] = 1 := by simp [badUrlUnit]
        rw [hone, if_neg hd]
        split_ifs <;> omega
  | d :: e :: s =>
    rw [List.cons_append, List.cons_append, badUrlUnit_cons_cons, badUrlUnit_cons_cons,
      List.length_cons, List.length_cons]
    split_ifs <;> omega

lemma badUrlLength_eq_min (s r : List Char) :
    badUrlLength s = min s.length (badUrlLength (s ++ r)) := by
  have hrun : runLength badUrlUnit 0 s = min s.length (runLength badUrlUnit 0 (s ++ r)) :=
    runLength_eq_min rfl r s fun n => badUrlUnit_eq_min _ r
  rw [badUrlLength_eq, badUrlLength_eq, List.length_append]
  omega

lemma addressLength_eq_min (h : Severs s r) :
    addressLength s = min s.length (addressLength (s ++ r)) := by
  have hmin := h.runLength_eq_min isAddressChar false
  rw [← funext urlUnit_eq] at hmin
  have hle := addressLength_le s
  have hspaces := length_takeWhile_eq_min isSpace (s.drop (runLength urlUnit 0 s)) r
  change spacesLength _ = min _ (spacesLength _) at hspaces
  rw [List.length_drop] at hspaces
  unfold addressLength at hle ⊢
  rcases Nat.lt_or_ge (runLength urlUnit 0 (s ++ r)) s.length with hlt | hge
  · rw [Nat.min_eq_right hlt.le] at hmin
    rw [← hmin, List.drop_append_of_le_length (by omega)]
    omega
  · omega

lemma address_of_severs (h : Severs s r) (hle : (address (s ++ r)).2 ≤ s.length) :
    address s = address (s ++ r) := by
  have hk : addressLength s = addressLength (s ++ r) := by
    rw [addressLength_eq_min h, Nat.min_eq_right ((addressLength_le_address (s ++ r)).trans hle)]
  have hkle := addressLength_le s
  have hdrop : (s ++ r).drop (addressLength (s ++ r)) = s.drop (addressLength s) ++ r := by
    rw [← hk, List.drop_append_of_le_length hkle]
  cases hd : s.drop (addressLength s) with
  | nil =>
    have hend := List.drop_eq_nil_iff.mp hd
    rw [hd, List.nil_append] at hdrop
    cases r with
    | nil => rw [List.append_nil]
    | cons c r =>
      -- What follows the address would be taken in.
      rw [address_of_drop_eq_cons hdrop] at hle
      split_ifs at hle <;> simp only [] at hle <;> omega
  | cons d t =>
    have hlen := add_length_of_drop_eq_cons hd
    have hbad := badUrlLength_eq_min t r
    rw [hd, List.cons_append] at hdrop
    rw [address_of_drop_eq_cons hdrop] at hle ⊢
    rw [address_of_drop_eq_cons hd, ← hk] at *
    split_ifs at hle ⊢
    · rfl
    · simp only [] at hle
      rw [hbad, Nat.min_eq_right (by omega)]

lemma address_pos {s : List Char} (hs : s ≠ []) : 0 < (address s).2 := by
  have hpos := List.length_pos_iff.mpr hs
  cases hd : s.drop (addressLength s) with
  | nil =>
    rw [address_of_drop_eq_nil hd]
    exact hpos.trans_le (List.drop_eq_nil_iff.mp hd)
  | cons d t =>
    rw [address_of_drop_eq_cons hd]
    split_ifs <;> simp only [] <;> omega

lemma url?_of_severs (h : Severs s r) :
    (url? (s ++ r) = none → url? s = none) ∧
      ∀ p, url? (s ++ r) = some p → p.2 ≤ s.length → url? s = some p := by
  by_cases hr : r = []
  · subst r
    rw [List.append_nil]
    exact ⟨id, fun p hp _ => hp⟩
  have hk := length_takeWhile_eq_min isSpace s r
  change spacesLength s = min s.length (spacesLength (s ++ r)) at hk
  rw [url?_eq, url?_eq]
  rcases Nat.lt_or_ge (spacesLength (s ++ r)) s.length with hlt | hge
  · -- The address begins before the cut.
    rw [Nat.min_eq_right hlt.le] at hk
    have hu := h.drop (spacesLength s)
    have hdrop : (s ++ r).drop (spacesLength (s ++ r)) = s.drop (spacesLength s) ++ r := by
      rw [← hk, List.drop_append_of_le_length (by omega)]
    rw [hdrop, ← hk]
    simp only [hu.head?_append (q := '"') (by decide), hu.head?_append (q := '\'') (by decide)]
    split_ifs
    · exact ⟨id, fun p hp _ => hp⟩
    · refine ⟨fun hnone => by simp at hnone, ?_⟩
      rintro p ⟨⟩ hle
      rw [address_of_severs hu (by rw [List.length_drop]; omega)]
  · -- All before the cut is white space.
    have hall : s.takeWhile isSpace = s := by
      rw [Nat.min_eq_left hge] at hk
      exact (List.takeWhile_prefix isSpace).eq_of_length hk
    have hdrop : (s ++ r).drop (spacesLength (s ++ r)) = r.drop (spacesLength r) := by
      rw [spacesLength, spacesLength, drop_length_takeWhile, drop_length_takeWhile,
        List.dropWhile_append_of_pos (List.takeWhile_eq_self_iff.mp hall)]
    have hquote := h.quote
    rw [if_neg (c := _ ∨ _) (by
      rw [hdrop]
      rintro (hq | hq)
      · exact (hquote _ hq).1 rfl
      · exact (hquote _ hq).2 rfl)]
    refine ⟨fun hnone => by simp at hnone, ?_⟩
    rintro p ⟨⟩ hle
    simp only [] at hle
    have hbehind : (s ++ r).drop (spacesLength (s ++ r)) = r := by
      have heq : spacesLength (s ++ r) = s.length := by omega
      rw [heq, List.drop_left]
    have hpos := address_pos hr
    rw [hbehind] at hle
    omega

lemma kept_named (h : Severs s r) : Kept named s r := by
  intro hle
  left
  have hn : nameLength (s ++ r) = nameLength s := by
    have hmin := h.nameLength_eq_min
    have hr := (nameLength_le_named (s ++ r)).trans hle
    omega
  have hnle := nameLength_le s
  have hhead := (h.drop (nameLength s)).head?_append (q := '(') (by decide)
  rw [named_eq (s ++ r)] at hle ⊢
  rw [named_eq s]
  rw [hn, List.drop_append_of_le_length hnle, List.take_append_of_le_length hnle] at hle ⊢
  simp only [hhead] at hle ⊢
  split_ifs at hle ⊢ with hp hu
  · obtain ⟨t, ht⟩ := List.head?_eq_some_iff.mp hp
    have hlt := add_length_of_drop_eq_cons ht
    have hdrop : (s ++ r).drop (nameLength s + 1) = s.drop (nameLength s + 1) ++ r :=
      List.drop_append_of_le_length (by omega)
    have hurl := url?_of_severs (h.drop (nameLength s + 1))
    rw [hdrop] at hle ⊢
    cases hsome : url? (s.drop (nameLength s + 1) ++ r) with
    | none => rw [hurl.1 hsome]
    | some p =>
      rw [hsome] at hle
      rw [hurl.2 p hsome (by rw [List.length_drop]; simp only [] at hle; omega)]
  · rfl
  · rfl

lemma commentLength_eq_min (s r : List Char) :
    commentLength s = min s.length (commentLength (s ++ r)) := by
  fun_induction commentLength s with
  | case1 s => simp [commentLength]
  | case2 d s hd ih =>
    rw [List.length_cons]
    cases s with
    | nil =>
      have hpos := commentLength_pos (s := [d] ++ r) (by simp)
      simp only [List.length_nil, commentLength]
      omega
    | cons e s =>
      have hstep : commentLength (d :: e :: s ++ r) = commentLength (e :: s ++ r) + 1 := by
        rw [List.cons_append, commentLength]
        rintro t rfl ht
        obtain ⟨rfl, -⟩ := List.cons.inj ht
        exact hd s rfl rfl
      rw [hstep]
      omega
  | case3 => simp

lemma kept_marked {m : Char} {k : Kind} {starts : List Char → Bool}
    (hsymbol : ∀ t, symbol (m :: t) = if starts t then (k, nameLength t + 1) else (.delim, 1))
    (h : Severs s r) (hstarts : starts (s ++ r) = starts s) : Kept symbol (m :: s) r := by
  intro hle
  left
  have hmin := h.nameLength_eq_min
  rw [List.cons_append] at hle ⊢
  rw [hsymbol (s ++ r), hstarts] at hle ⊢
  rw [hsymbol s]
  split_ifs at hle ⊢
  · rw [hmin, Nat.min_eq_right (Nat.le_of_succ_le_succ hle)]
  · rfl

lemma isMarked_append (h : Severs s r) (hs : s ≠ []) (hle : (symbol (s ++ r)).2 ≤ s.length)
    (hm : isMarked (s ++ r) = true) : isMarked s = true := by
  have hmarks : (marks.all fun m => m.tail.all (!boundaries.contains ·) ||
      m == ['<', '!', '-', '-']) = true := by
    decide
  obtain ⟨m, hm, hp⟩ := isMarked_iff.mp hm
  refine isMarked_iff.mpr ⟨m, hm, ?_⟩
  have hone := List.all_eq_true.mp hmarks m hm
  rw [Bool.or_eq_true, beq_iff_eq] at hone
  rcases hone with htail | rfl
  · exact h.isPrefix_of_append hs htail hp
  · -- An exclamation mark stands in this one, so that only its length tells where it ends.
    refine List.prefix_of_prefix_length_le hp (List.prefix_append s r) ?_
    obtain ⟨u, hu⟩ := hp
    rw [← hu] at hle
    exact hle

lemma kept_symbol (h : Severs s r) (hs : s ≠ []) : Kept symbol s r := by
  intro hle
  cases hmarked : isMarked s with
  | false =>
    left
    rw [symbol_of_unmarked hmarked, symbol_of_unmarked]
    rw [← Bool.not_eq_true] at hmarked ⊢
    exact fun hr => hmarked (isMarked_append h hs hle hr)
  | true =>
    obtain ⟨m, hm, t, rfl⟩ := isMarked_iff.mp hmarked
    have hquoted : ∀ {q : Char}, q ≠ '\\' → Severs t r →
        (∀ u, symbol (q :: u) = ((quoted q u).1, (quoted q u).2 + 1)) → Kept symbol (q :: t) r := by
      intro q hq ht hsymbol hle
      rw [List.cons_append, hsymbol (t ++ r)] at hle
      rw [List.cons_append, hsymbol (t ++ r), hsymbol t]
      rcases kept_quoted ht hq (Nat.le_of_succ_le_succ hle) with hsame | ⟨hbad, hstring, hbreak⟩
      · exact .inl (by rw [hsame])
      · exact .inr (by simp [hbad, hstring, hbreak])
    simp only [marks, List.mem_cons, List.not_mem_nil, or_false] at hm
    rcases hm with rfl | rfl | rfl | rfl | rfl | hm
    · exact hquoted (by decide) (h.drop 1) (fun u => rfl) hle
    · exact hquoted (by decide) (h.drop 1) (fun u => rfl) hle
    · exact kept_marked (fun u => rfl) (h.drop 1) (h.drop 1).startsHash_append hle
    · exact kept_marked (fun u => rfl) (h.drop 1) (h.drop 1).startsName_append hle
    · left
      have hmin := commentLength_eq_min t r
      have hle : commentLength (t ++ r) + 2 ≤ t.length + 2 := hle
      have heq : commentLength t = commentLength (t ++ r) := by omega
      exact congrArg (fun n => (Kind.comment, n + 2)) heq
    · left
      rcases hm with rfl | rfl | rfl | rfl | rfl | rfl | rfl | rfl | rfl | rfl | rfl | rfl | rfl |
        rfl | rfl <;> rfl

theorem kept_first (h : Severs s r) (hs : s ≠ []) : Kept first s r := by
  have hnumeric := kept_numeric h
  have hnamed := kept_named h
  have hsymbol := kept_symbol h hs
  have hspaces := length_takeWhile_eq_min isSpace s r
  change spacesLength s = min s.length (spacesLength (s ++ r)) at hspaces
  have hpos := List.length_pos_iff.mpr hs
  have hzero : 0 < spacesLength (s ++ r) ↔ 0 < spacesLength s := by omega
  simp only [Kept, first, hzero, h.startsNumber_append hs, h.startsCdc_append hs,
    h.startsName_append] at hnumeric hnamed hsymbol ⊢
  split_ifs
  · intro hle
    rw [hspaces, Nat.min_eq_right hle]
    exact .inl rfl
  · exact hnumeric
  · exact fun _ => .inl rfl
  · exact hnamed
  · exact hsymbol

end Lexer

/-- Tokens of a text that end where it is cut are the tokens of what is left, but for a spoiled string
at the cut. -/
theorem bareTokens_of_severs {s r : List Char} (h : Severs s r) {ts us : List Token}
    (hts : bareTokens (s ++ r) = ts ++ us) (hs : Token.textOf ts = s) :
    bareTokens s = ts ∨ ∃ vs t, ts = vs ++ [t] ∧ t.kind = .badString ∧
      bareTokens s = vs ++ [{ t with kind := .string }] := by
  induction ts generalizing s with
  | nil => exact .inl (by rw [← hs]; rfl)
  | cons t ts ih =>
    have hne : s ++ r ≠ [] := by
      intro hnil
      rw [hnil, bareTokens_nil] at hts
      simp at hts
    have hmem : ∀ u ∈ t :: ts, u.text ≠ [] := by
      intro u hu
      apply text_ne_nil_of_mem_bareTokens (s := s ++ r)
      rw [hts]
      exact List.mem_append_left us hu
    rw [bareTokens_step hne, List.cons_append, List.cons.injEq] at hts
    obtain ⟨ht, hts⟩ := hts
    -- The token ends before the cut.
    have hn : (Lexer.first (s ++ r)).2 ≤ s.length := by
      have hlen := congrArg List.length hs
      have hle := Lexer.first_le hne
      rw [← ht, Token.textOf_cons, List.length_append, List.length_take] at hlen
      omega
    have hsne : s ≠ [] := List.length_pos_iff.mp ((Lexer.first_pos _).trans_le hn)
    have htext : t.text = s.take (Lexer.first (s ++ r)).2 := by
      rw [← ht, List.take_append_of_le_length hn]
    have hrest : Token.textOf ts = s.drop (Lexer.first (s ++ r)).2 := by
      have hsplit := hs.trans (List.take_append_drop (Lexer.first (s ++ r)).2 s).symm
      rw [Token.textOf_cons, htext] at hsplit
      exact List.append_cancel_left hsplit
    rw [bareTokens_step hsne]
    rcases Lexer.kept_first h hsne (by omega) with hsame | ⟨hbad, hstring, -⟩
    · rw [List.drop_append_of_le_length hn] at hts
      have hhead : (⟨(Lexer.first s).1, s.take (Lexer.first s).2, .start⟩ : Token) = t := by
        rw [← ht, hsame, List.take_append_of_le_length hn]
      rw [hhead, hsame]
      rcases ih (h.drop _) hts hrest with hall | ⟨vs, u, rfl, hu, hvs⟩
      · exact .inl (by rw [hall])
      · exact .inr ⟨t :: vs, u, rfl, hu, by rw [hvs, List.cons_append]⟩
    · right
      rw [hbad] at ht hrest htext
      rw [List.drop_length] at hrest
      have hnil : ts = [] := by
        cases ts with
        | nil => rfl
        | cons u ts => simp [hmem u (by simp)] at hrest
      refine ⟨[], t, by rw [hnil]; rfl, by rw [← ht], ?_⟩
      rw [hstring, List.drop_length, ← ht, List.take_append_of_le_length le_rfl]
      rfl

end FontSizeLint.Css

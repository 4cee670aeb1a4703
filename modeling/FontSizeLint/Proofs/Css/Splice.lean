import FontSizeLint.Proofs.Css.Resume
import FontSizeLint.Proofs.Css.Unplaced

/-! Tokens of texts that are joined. Behind a text that ends with a brace or a semicolon of its own the
lexer begins afresh, and so it does at a brace behind a text that leaves nothing open. -/
namespace FontSizeLint.Css
open Text

namespace Lexer

lemma numeric_le (s : List Char) : (numeric s).2 ≤ s.length := by
  have hn := numberLength_le s
  fun_cases numeric s with
  | case1 n r h =>
    have hl := add_length_of_drop_eq_cons h
    simp only []
    omega
  | case2 n _ _ =>
    have hm := nameLength_le (s.drop n)
    rw [List.length_drop] at hm
    simp only []
    omega
  | case3 n _ _ => exact hn

lemma quoted_le (q : Char) (s : List Char) : (quoted q s).2 ≤ s.length := by
  have hn := runLength_le (stringUnit q) 0 s
  fun_cases quoted q s with
  | case1 n h => exact hn
  | case2 n c r h hc =>
    have hl := add_length_of_drop_eq_cons h
    simp only []
    omega
  | case3 n c r h hc => exact hn

lemma address_le (s : List Char) : (address s).2 ≤ s.length := by
  have hn := addressLength_le s
  cases h : s.drop (addressLength s) with
  | nil =>
    rw [address_of_drop_eq_nil h]
    exact hn
  | cons d r =>
    have hl := add_length_of_drop_eq_cons h
    have hb := badUrlLength_le r
    rw [address_of_drop_eq_cons h]
    split_ifs <;> simp only [] <;> omega

lemma url?_le {s : List Char} {p : Kind × Nat} (h : url? s = some p) : p.2 ≤ s.length := by
  have hs := spacesLength_le s
  have ha := address_le (s.drop (spacesLength s))
  rw [List.length_drop] at ha
  rw [url?_eq] at h
  split_ifs at h
  cases h
  simp only []
  omega

lemma named_le (s : List Char) : (named s).2 ≤ s.length := by
  have hn := nameLength_le s
  fun_cases named s with
  | case1 n r h hu kind m hm =>
    have hl := add_length_of_drop_eq_cons h
    have hle := url?_le hm
    simp only [] at hle ⊢
    omega
  | case2 n r h | case3 n r h =>
    have hl := add_length_of_drop_eq_cons h
    simp only []
    omega
  | case4 n => exact hn

lemma commentLength_le (s : List Char) : commentLength s ≤ s.length := by
  fun_induction commentLength s with
  | case1 s => simp
  | case2 d s _ ih => exact Nat.succ_le_succ ih
  | case3 => exact le_rfl

lemma symbol_le {s : List Char} (hs : s ≠ []) : (symbol s).2 ≤ s.length := by
  fun_cases symbol s with
  | case1 s kind n h =>
    have hl := quoted_le '"' s
    rw [h] at hl
    exact Nat.succ_le_succ hl
  | case2 s kind n h =>
    have hl := quoted_le '\'' s
    rw [h] at hl
    exact Nat.succ_le_succ hl
  | case3 s | case5 s => exact Nat.succ_le_succ (nameLength_le s)
  | case7 s => exact Nat.add_le_add_right (commentLength_le s) 2
  | case23 => exact List.length_pos_iff.mpr hs
  | _ => simp

lemma first_le {s : List Char} (hs : s ≠ []) : (first s).2 ≤ s.length := by
  fun_cases first s with
  | case1 => exact spacesLength_le s
  | case2 => exact numeric_le s
  | case3 _ _ h => exact ((startsCdc_iff s).mp h).length_le
  | case4 => exact named_le s
  | case5 => exact symbol_le hs

end Lexer

lemma bareTokens_nil : bareTokens [] = [] := rfl

lemma bareTokens_step {s : List Char} (hs : s ≠ []) : bareTokens s =
    ⟨(Lexer.first s).1, s.take (Lexer.first s).2, .start⟩ ::
      bareTokens (s.drop (Lexer.first s).2) := by
  rw [bareTokens, pieces_step (Lexer.first_pos s) hs]
  rfl

lemma textOf_bareTokens (s : List Char) : Token.textOf (bareTokens s) = s := by
  have h := pieces_flatten (fun s _ => Lexer.first_pos s) 0 s
  simpa [Token.textOf, bareTokens, Function.comp_def] using h

lemma text_ne_nil_of_mem_bareTokens {s : List Char} {t : Token} (h : t ∈ bareTokens s) :
    t.text ≠ [] := by
  obtain ⟨p, hp, rfl⟩ := List.mem_map.mp h
  exact pieces_ne_nil _ _ _ p hp

/-- A text in front of a mark has the tokens that it has alone, or its last token is open and takes the
mark in. -/
theorem bareTokens_append_stop {c : Char} (hc : isStop c = true) (s : List Char) :
    (∀ r, bareTokens (s ++ c :: r) = bareTokens s ++ bareTokens (c :: r)) ∨
    ∃ ts t k, bareTokens s = ts ++ [t] ∧ t.isOpen = true ∧
      bareTokens (s ++ [c]) = ts ++ [⟨k, t.text ++ [c], .start⟩] := by
  induction s using (measure List.length).wf.induction with
  | h s ih =>
    by_cases hs : s = []
    · subst s
      exact .inl fun r => rfl
    rcases Lexer.resumes_first hc hs with hsame | ⟨hopen, hall, hmore⟩
    · -- The first token is the same, so that the rest of the text decides.
      have hle := Lexer.first_le hs
      have hpos := Lexer.first_pos s
      have hstep : ∀ r, bareTokens (s ++ c :: r) =
          ⟨(Lexer.first s).1, s.take (Lexer.first s).2, .start⟩ ::
            bareTokens (s.drop (Lexer.first s).2 ++ c :: r) := by
        intro r
        rw [bareTokens_step (by simp), hsame, List.take_append_of_le_length hle,
          List.drop_append_of_le_length hle]
      have hlt : (s.drop (Lexer.first s).2).length < s.length := by
        rw [List.length_drop]
        omega
      rw [bareTokens_step hs]
      rcases ih _ hlt with ih | ⟨ts, t, k, hts, hopen, hts'⟩
      · exact .inl fun r => by rw [hstep, ih, List.cons_append]
      · refine .inr ⟨_ :: ts, t, k, by rw [hts, List.cons_append], hopen, ?_⟩
        rw [hstep, hts', List.cons_append]
    · have hn := hmore []
      have htake : s.take (Lexer.first s).2 = s := List.take_of_length_le (by omega)
      have hdrop : s.drop (Lexer.first s).2 = [] := List.drop_of_length_le (by omega)
      refine .inr ⟨[], ⟨(Lexer.first s).1, s, .start⟩, (Lexer.first (s ++ [c])).1, ?_, hopen, ?_⟩
      · rw [bareTokens_step hs, htake, hdrop]
        rfl
      · have hl : (s ++ [c]).length ≤ (Lexer.first (s ++ [c])).2 := by
          rw [List.length_append, List.length_singleton]
          omega
        rw [bareTokens_step (by simp), List.take_of_length_le hl, List.drop_of_length_le hl]
        rfl

def stopToken (c : Char) : Token :=
  ⟨if c = '{' then .opening .curly else if c = '}' then .closing .curly else .semicolon, [c], .start⟩

lemma first_stop {c : Char} (hc : isStop c = true) (r : List Char) :
    Lexer.first (c :: r) = ((stopToken c).kind, 1) := by
  rcases isStop_iff.mp hc with rfl | rfl | rfl <;> rfl

lemma bareTokens_stop {c : Char} (hc : isStop c = true) (r : List Char) :
    bareTokens (c :: r) = stopToken c :: bareTokens r := by
  rw [bareTokens_step (by simp), first_stop hc]
  rfl

def Ends (s : List Char) : Prop := ∀ r, bareTokens (s ++ r) = bareTokens s ++ bareTokens r

lemma ends_nil : Ends [] := fun _ => rfl

lemma Ends.append {s t : List Char} (hs : Ends s) (ht : Ends t) : Ends (s ++ t) := by
  intro r
  rw [List.append_assoc, hs, ht, hs, List.append_assoc]

lemma bareTokens_append_of_not_isOpen {c : Char} (hc : isStop c = true) {s : List Char}
    (h : ∀ t ∈ (bareTokens s).getLast?, t.isOpen = false) (r : List Char) :
    bareTokens (s ++ c :: r) = bareTokens s ++ stopToken c :: bareTokens r := by
  rcases bareTokens_append_stop hc s with hsame | ⟨ts, t, k, hts, hopen, -⟩
  · rw [hsame, bareTokens_stop hc]
  · rw [h t (by simp [hts])] at hopen
    contradiction

def Kind.isStop : Kind → Bool
  | semicolon => true
  | opening .curly => true
  | closing .curly => true
  | _ => false

/-- What all tokens of a kind begin with, for the kinds that a sign makes. -/
def Kind.sign : Kind → List Char
  | comment => ['/', '*']
  | colon => [':']
  | semicolon => [';']
  | comma => [',']
  | opening .curly => ['{']
  | closing .round => [')']
  | closing .square => [']']
  | closing .curly => ['}']
  | _ => []

namespace Lexer

lemma sign_numeric (s : List Char) : (numeric s).1.sign = [] := by
  fun_cases numeric s <;> rfl

lemma sign_quoted (q : Char) (s : List Char) : (quoted q s).1.sign = [] := by
  fun_cases quoted q s <;> rfl

lemma sign_url? {s : List Char} {p : Kind × Nat} (h : url? s = some p) : p.1.sign = [] := by
  revert h
  fun_cases url? s <;> simp <;> rintro rfl <;> rfl

lemma sign_named (s : List Char) : (named s).1.sign = [] := by
  fun_cases named s with
  | case1 n r h hu kind m hm => exact sign_url? (p := (kind, m)) hm
  | _ => rfl

lemma sign_isPrefix (s : List Char) : (first s).1.sign <+: s := by
  have hnil : ∀ {k : Kind}, k.sign = [] → k.sign <+: s := fun h => h ▸ List.nil_prefix
  fun_cases first s with
  | case1 | case3 => exact List.nil_prefix
  | case2 => exact hnil (sign_numeric s)
  | case4 => exact hnil (sign_named s)
  | case5 =>
    fun_cases symbol s with
    | case1 t kind n h => exact hnil (by simpa [h] using sign_quoted '"' t)
    | case2 t kind n h => exact hnil (by simpa [h] using sign_quoted '\'' t)
    | case7 t => exact ⟨t, rfl⟩
    | case14 t | case15 t | case16 t | case19 t | case20 t | case21 t | case22 t => exact ⟨t, rfl⟩
    | _ => exact List.nil_prefix

lemma exists_stop_of_first {s : List Char} (h : (first s).1.isStop = true) :
    ∃ c r, isStop c = true ∧ s = c :: r := by
  obtain ⟨r, hr⟩ := sign_isPrefix s
  have hsign : ∀ k : Kind, k.isStop = true → ∃ c, isStop c = true ∧ k.sign = [c] := by
    intro k hk
    fun_cases Kind.isStop k with
    | case1 | case2 | case3 => exact ⟨_, rfl, rfl⟩
    | case4 => simp [Kind.isStop] at hk
  obtain ⟨c, hc, hs⟩ := hsign _ h
  exact ⟨c, r, hc, by rw [← hr, hs, List.singleton_append]⟩

end Lexer

lemma exists_first_of_mem_bareTokens {s : List Char} {t : Token} (h : t ∈ bareTokens s) :
    ∃ u, u ≠ [] ∧ t = ⟨(Lexer.first u).1, u.take (Lexer.first u).2, .start⟩ := by
  induction s using (measure List.length).wf.induction with
  | h s ih =>
    by_cases hs : s = []
    · simp [hs, bareTokens_nil] at h
    rw [bareTokens_step hs, List.mem_cons] at h
    rcases h with rfl | h
    · exact ⟨s, hs, rfl⟩
    · apply ih _ _ h
      change (s.drop _).length < s.length
      have hpos := Lexer.first_pos s
      have hlen := List.length_pos_iff.mpr hs
      rw [List.length_drop]
      omega

lemma exists_stopToken {s : List Char} {t : Token} (h : t ∈ bareTokens s)
    (hk : t.kind.isStop = true) : ∃ c, isStop c = true ∧ t.text = [c] := by
  obtain ⟨u, hu, rfl⟩ := exists_first_of_mem_bareTokens h
  obtain ⟨c, r, hc, rfl⟩ := Lexer.exists_stop_of_first hk
  refine ⟨c, hc, ?_⟩
  rw [first_stop hc]
  rfl

lemma ends_of_getLast? {s : List Char} {t : Token} (h : (bareTokens s).getLast? = some t)
    (hk : t.kind.isStop = true) : Ends s := by
  obtain ⟨c, hc, ht⟩ := exists_stopToken (List.mem_of_getLast? h) hk
  obtain ⟨ts, hts⟩ := List.getLast?_eq_some_iff.mp h
  have htext : s = Token.textOf ts ++ [c] := by
    rw [← textOf_bareTokens s, hts, Token.textOf_append, Token.textOf_cons, ht, Token.textOf_nil]
    rfl
  rcases bareTokens_append_stop hc (Token.textOf ts) with hsame | ⟨us, u, k, hus, -, hus'⟩
  · intro r
    rw [htext, List.append_assoc, List.singleton_append, hsame, hsame, bareTokens_stop hc,
      bareTokens_stop hc, bareTokens_nil, List.append_assoc]
    rfl
  · -- A token that took the mark in would have more text.
    rw [← htext, hts] at hus'
    have hu := (List.append_inj' hus' rfl).2
    rw [List.singleton_inj] at hu
    rw [hu] at ht
    have hnil : u.text = [] := by simpa using ht
    exact absurd hnil (text_ne_nil_of_mem_bareTokens (s := Token.textOf ts) (by simp [hus]))

lemma bareTokens_space (s : List Char) : ∃ w ts, w.kind = .whitespace ∧ w.isOpen = false ∧
    bareTokens (' ' :: s) = w :: ts ∧
    (bareTokens s = ts ∨ ∃ v, v.kind = .whitespace ∧ bareTokens s = v :: ts) := by
  have hspaces : spacesLength (' ' :: s) = spacesLength s + 1 := by
    simp [spacesLength, isSpace]
  have hfirst : Lexer.first (' ' :: s) = (.whitespace, spacesLength s + 1) := by
    rw [Lexer.first, if_pos (by omega), hspaces]
  refine ⟨⟨.whitespace, ' ' :: s.take (spacesLength s), .start⟩, bareTokens (s.drop (spacesLength s)),
    rfl, ?_, ?_, ?_⟩
  · have hw : '\\' ∉ ' ' :: s.takeWhile isSpace := by
      rw [List.mem_cons, not_or]
      refine ⟨by decide, fun hm => ?_⟩
      exact absurd (List.mem_takeWhile_imp hm) (by decide)
    have he := escapesNext_append hw []
    rw [List.append_nil, List.prefix_iff_eq_take.mp (List.takeWhile_prefix isSpace)] at he
    exact he
  · rw [bareTokens_step (by simp), hfirst]
    rfl
  · by_cases hs : spacesLength s = 0
    · exact .inl (by rw [hs, List.drop_zero])
    · right
      have hpos : 0 < spacesLength s := by omega
      have hne : s ≠ [] := by
        rintro rfl
        exact hs rfl
      have hf : Lexer.first s = (.whitespace, spacesLength s) := by
        rw [Lexer.first, if_pos hpos]
      refine ⟨⟨.whitespace, s.take (spacesLength s), .start⟩, rfl, ?_⟩
      rw [bareTokens_step hne, hf]

lemma nameLength_append_space {name : List Char} (h : ∀ c ∈ name, c.isAlpha = true)
    (r : List Char) : nameLength (name ++ ' ' :: r) = name.length := by
  induction name with
  | nil => rfl
  | cons c s ih =>
    rw [List.forall_mem_cons] at h
    have hu : nameUnit (c :: (s ++ ' ' :: r)) = 1 := by
      simp [nameUnit, isNameChar, isNameStart, h.1]
    rw [List.cons_append, nameLength, runLength, hu, List.length_cons, ← ih h.2]
    rfl

lemma bareTokens_atKeyword {name : List Char} (hne : name ≠ []) (h : ∀ c ∈ name, c.isAlpha = true)
    (r : List Char) : bareTokens ('@' :: name ++ ' ' :: r) =
      ⟨.atKeyword, '@' :: name, .start⟩ :: bareTokens (' ' :: r) := by
  have hstarts : startsName (name ++ ' ' :: r) = true := by
    obtain ⟨c, s, rfl⟩ := List.exists_cons_of_ne_nil hne
    have hc := h c (by simp)
    rw [List.cons_append, startsName]
    · simp [isNameStart, hc]
    · rintro d t rfl
      simp at hc
    · rintro rfl
      simp at hc
  have hfirst : Lexer.first ('@' :: (name ++ ' ' :: r)) = (.atKeyword, name.length + 1) := by
    have hsym : ∀ t, Lexer.first ('@' :: t) =
        if startsName t then (.atKeyword, nameLength t + 1) else (.delim, 1) := fun t => rfl
    rw [hsym, if_pos hstarts, nameLength_append_space h]
  rw [List.cons_append, bareTokens_step (by simp), hfirst]
  simp

end FontSizeLint.Css

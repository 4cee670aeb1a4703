import FontSizeLint.Proofs.Css.Append

/-! What a text leaves open at its end: an escape, a string, a comment or an address. A run of
characters and escapes in front of a mark either ends before the mark, or takes it in because the text
before the mark leaves something open. -/
namespace FontSizeLint.Css
open Text

/-- Whether the text ends with a backslash that is not itself escaped. -/
def escapesNext : List Char → Bool
  | [] => false
  | [c] => c == '\\'
  | c :: d :: s => if c == '\\' then escapesNext s else escapesNext (d :: s)

/-- Whether the text ends with a given character that is not escaped. -/
def closedBy (c : Char) (s : List Char) : Bool := s.getLast? == some c && !escapesNext s.dropLast

/-- Length of an address without quotes and of the white space behind it. -/
def Lexer.addressLength (s : List Char) : Nat :=
  runLength urlUnit 0 s + spacesLength (s.drop (runLength urlUnit 0 s))

/-- The text behind the character that spoils an address. -/
def Lexer.behindSpoiler (s : List Char) : List Char :=
  let address := s.drop (spacesLength s)
  address.drop (addressLength address + 1)

/-- Whether a token with a given text lacks its end. A string needs its quote again, a comment its mark,
an address its parenthesis, and a spoiled one its parenthesis behind what spoils it; any other token
only needs not to end within an escape. -/
def Kind.isOpen : Kind → List Char → Bool
  | string, q :: s => !closedBy q s
  | comment, s => !(['*', '/'].isSuffixOf (s.drop 2))
  | url, s => !closedBy ')' s
  | badUrl, s => !closedBy ')' (Lexer.behindSpoiler (s.drop (nameLength s + 1)))
  | _, s => escapesNext s

def Token.isOpen (t : Token) : Bool := t.kind.isOpen t.text

lemma escapesNext_cons {c : Char} (hc : c ≠ '\\') (s : List Char) :
    escapesNext (c :: s) = escapesNext s := by
  cases s <;> simp [escapesNext, hc]

lemma escapesNext_append_cons {c : Char} (hc : c ≠ '\\') (p s : List Char) :
    escapesNext (p ++ c :: s) = escapesNext s := by
  fun_induction escapesNext p with
  | case1 => exact escapesNext_cons hc s
  | case2 d =>
    by_cases hd : d = '\\'
    · simp [escapesNext, hd]
    · rw [List.cons_append, escapesNext_cons hd, List.nil_append, escapesNext_cons hc]
  | case3 d e p hd ih =>
    simp only [List.cons_append, escapesNext, hd, if_true]
    exact ih
  | case4 d e p hd ih =>
    simp only [List.cons_append, escapesNext, hd]
    exact ih

lemma escapesNext_append {p : List Char} (hp : '\\' ∉ p) (s : List Char) :
    escapesNext (p ++ s) = escapesNext s := by
  induction p with
  | nil => rfl
  | cons c p ih =>
    rw [List.mem_cons, not_or] at hp
    rw [List.cons_append, escapesNext_cons (Ne.symm hp.1), ih hp.2]

lemma closedBy_iff {c : Char} {s : List Char} :
    closedBy c s = true ↔ ∃ r, s = r ++ [c] ∧ escapesNext r = false := by
  simp only [closedBy, Bool.and_eq_true, beq_iff_eq, Bool.not_eq_true']
  constructor
  · rintro ⟨hl, he⟩
    obtain ⟨r, rfl⟩ := List.getLast?_eq_some_iff.mp hl
    exact ⟨r, rfl, by simpa using he⟩
  · rintro ⟨r, rfl, he⟩
    simpa using he

lemma closedBy_append_cons {d q : Char} (hd : d ≠ '\\') (hq : d ≠ q) (p s : List Char) :
    closedBy q (p ++ d :: s) = closedBy q s := by
  rcases List.eq_nil_or_concat' s with rfl | ⟨s, e, rfl⟩
  · simp [closedBy, hq]
  · have ha : p ++ d :: (s ++ [e]) = (p ++ d :: s) ++ [e] := by simp
    rw [ha, closedBy, closedBy, List.getLast?_concat, List.getLast?_concat, List.dropLast_concat,
      List.dropLast_concat, escapesNext_append_cons hd]

lemma closedBy_append {q : Char} {p : List Char} (hp : ∀ d ∈ p, d ≠ '\\' ∧ d ≠ q) (s : List Char) :
    closedBy q (p ++ s) = closedBy q s := by
  induction p with
  | nil => rfl
  | cons d p ih =>
    rw [List.forall_mem_cons] at hp
    rw [← ih hp.2]
    exact closedBy_append_cons hp.1.1 hp.1.2 [] (p ++ s)

lemma closedBy_backslash_cons (q d : Char) (s : List Char) :
    closedBy q ('\\' :: d :: s) = closedBy q s := by
  rcases List.eq_nil_or_concat' s with rfl | ⟨s, e, rfl⟩
  · simp [closedBy, escapesNext]
  · have ha : '\\' :: d :: (s ++ [e]) = ('\\' :: d :: s) ++ [e] := by simp
    rw [ha, closedBy, closedBy, List.getLast?_concat, List.getLast?_concat, List.dropLast_concat,
      List.dropLast_concat, escapesNext]
    rfl

lemma takeWhile_append_cons {p : Char → Bool} {c : Char} (hc : p c = false) (s r : List Char) :
    (s ++ c :: r).takeWhile p = s.takeWhile p := by
  induction s with
  | nil => simp [hc]
  | cons d s ih => by_cases hd : p d = true <;> simp [hd, ih]

lemma hexDigits_append_cons {c : Char} (hc : isHex c = false) (s r : List Char) :
    hexDigits (s ++ c :: r) = hexDigits s := by
  unfold hexDigits
  rw [List.take_append]
  cases h6 : 6 - s.length with
  | zero => rw [List.take_zero, List.append_nil]
  | succ n => rw [List.take_succ_cons, takeWhile_append_cons hc]

/-- A character that ends white space and hexadecimal digits. -/
structure EndsEscape (c : Char) : Prop where
  isHex : isHex c = false
  isSpace : isSpace c = false

namespace EndsEscape
variable {c : Char}

lemma isBreak (h : EndsEscape c) : isBreak c = false := by
  have hs := h.isSpace
  simp only [Css.isSpace, Bool.or_eq_false_iff] at hs
  exact hs.2

lemma breakLength (h : EndsEscape c) (r : List Char) : breakLength (c :: r) = 0 := by
  have hr : c ≠ '\r' := by
    rintro rfl
    exact absurd h.isBreak (by decide)
  simp [breakLength_cons, hr, h.isBreak]

lemma spaceLength (h : EndsEscape c) (s r : List Char) :
    spaceLength (s ++ c :: r) = spaceLength s := by
  by_cases hs : s = []
  · have hsp := h.isSpace
    simp only [Css.isSpace, Bool.or_eq_false_iff] at hsp
    rw [hs, List.nil_append, Css.spaceLength, h.breakLength]
    simp [hsp, Css.spaceLength]
  · exact spaceLength_append (h.breakLength r) hs

end EndsEscape

lemma length_hexDigits_le_length (s : List Char) : (hexDigits s).length ≤ s.length := by
  have hw := (List.takeWhile_prefix (l := s.take 6) isHex).length_le
  rw [List.length_take] at hw
  unfold hexDigits
  omega

/-- What a backslash takes in of the text behind it. -/
def escapedLength (s : List Char) : Nat :=
  if breakLength s == 0 then escapeLength s else breakLength s

lemma EndsEscape.escapeLength {c : Char} (h : EndsEscape c) {s : List Char} (hs : s ≠ [])
    (r : List Char) : escapeLength (s ++ c :: r) = escapeLength s := by
  obtain ⟨d, s, rfl⟩ := List.exists_cons_of_ne_nil hs
  have hh := hexDigits_append_cons h.isHex (d :: s) r
  have hd : ((d :: s) ++ c :: r).drop (hexDigits (d :: s)).length =
      (d :: s).drop (hexDigits (d :: s)).length ++ c :: r :=
    List.drop_append_of_le_length (length_hexDigits_le_length _)
  rw [List.cons_append] at hh hd
  simp only [List.cons_append, Css.escapeLength, hh, hd, h.spaceLength]

lemma EndsEscape.escapedLength {c : Char} (h : EndsEscape c) {s : List Char} (hs : s ≠ [])
    (r : List Char) : escapedLength (s ++ c :: r) = escapedLength s := by
  rw [Css.escapedLength, Css.escapedLength, breakLength_append (h.breakLength r),
    h.escapeLength hs]

lemma escapedLength_le (s : List Char) : escapedLength s ≤ s.length := by
  have he := escapeLength_append (r := []) rfl s
  have hb := breakLength_le s
  rw [List.append_nil] at he
  unfold escapedLength
  split_ifs <;> omega

lemma escapedLength_pos (c : Char) (s : List Char) : 0 < escapedLength (c :: s) := by
  unfold escapedLength
  split_ifs with hb
  · by_cases hc : isHex c = true <;> simp [escapeLength, hc, hexDigits]
  · simp only [beq_iff_eq] at hb
    omega

lemma backslash_notMem_take_breakLength (s : List Char) : '\\' ∉ s.take (breakLength s) := by
  fun_cases breakLength s with
  | case1 s => simp
  | case2 c s h hc =>
    have hne : '\\' ≠ c := by
      rintro rfl
      simp [isBreak] at hc
    simpa using hne
  | case3 c s h hc => simp
  | case4 => simp

lemma backslash_notMem_take_spaceLength (s : List Char) : '\\' ∉ s.take (spaceLength s) := by
  fun_cases spaceLength s with
  | case1 c s hc =>
    have hne : '\\' ≠ c := by
      rintro rfl
      simp at hc
    simpa using hne
  | case2 c s hc => exact backslash_notMem_take_breakLength (c :: s)
  | case3 => simp

lemma backslash_notMem_escaped (c : Char) (s : List Char) :
    '\\' ∉ s.take (escapedLength (c :: s) - 1) := by
  unfold escapedLength
  split_ifs with hb
  · by_cases hc : isHex c = true
    · have hsub : ∀ n, s.take (n - 1) ⊆ (c :: s).take n := by
        intro n x hx
        cases n with
        | zero => simp at hx
        | succ n => exact List.mem_cons_of_mem c hx
      intro hmem
      have hx := hsub _ hmem
      simp only [escapeLength, hc, if_true, List.take_add, List.mem_append] at hx
      rcases hx with hx | hx
      · rw [← hexDigits_eq_take] at hx
        exact absurd (List.mem_takeWhile_imp hx) (by decide)
      · exact backslash_notMem_take_spaceLength _ hx
    · simp [escapeLength, hc]
  · have hx := backslash_notMem_take_breakLength (c :: s)
    cases hn : breakLength (c :: s) with
    | zero => simp
    | succ n =>
      rw [hn, List.take_succ_cons, List.mem_cons, not_or] at hx
      exact hx.2

lemma escapesNext_backslash (c : Char) (s : List Char) :
    escapesNext ('\\' :: c :: s) = escapesNext ((c :: s).drop (escapedLength (c :: s))) := by
  obtain ⟨n, hn⟩ := Nat.exists_eq_succ_of_ne_zero (escapedLength_pos c s).ne'
  have hmem := backslash_notMem_escaped c s
  rw [hn, Nat.succ_sub_one] at hmem
  calc escapesNext ('\\' :: c :: s) = escapesNext s := by simp [escapesNext]
    _ = escapesNext (s.take n ++ s.drop n) := by rw [List.take_append_drop]
    _ = escapesNext (s.drop n) := escapesNext_append hmem _
    _ = escapesNext ((c :: s).drop (escapedLength (c :: s))) := by rw [hn, List.drop_succ_cons]

/-- One character with a property or one escape; an escaped break may count as one. -/
def escapeUnit (p : Char → Bool) (b : Bool) : List Char → Nat
  | [] => 0
  | c :: s =>
    if c = '\\' then if b || breakLength s == 0 then escapedLength s + 1 else 0
    else if p c then 1 else 0

lemma nameUnit_eq (s : List Char) : nameUnit s = escapeUnit isNameChar false s := by
  cases s with
  | nil => rfl
  | cons c s =>
    by_cases hc : c = '\\'
    · have hn : isNameChar '\\' = false := by decide
      simp only [nameUnit, escapeUnit, escapedLength, hc, hn]
      by_cases hb : breakLength s = 0 <;> simp [hb]
    · simp [nameUnit, escapeUnit, hc]

section EscapeUnit
variable {p : Char → Bool} {b : Bool}

lemma escapeUnit_le (s : List Char) : escapeUnit p b s ≤ s.length := by
  fun_cases escapeUnit p b s with
  | case2 s => exact Nat.succ_le_succ (escapedLength_le s)
  | _ => simp

lemma escapeUnit_append {c : Char} (h : EndsEscape c) {s : List Char} (hs : s ≠ [])
    (hb : s ≠ ['\\']) (r : List Char) :
    escapeUnit p b (s ++ c :: r) = escapeUnit p b s := by
  obtain ⟨d, s, rfl⟩ := List.exists_cons_of_ne_nil hs
  by_cases hd : d = '\\'
  · have hne : s ≠ [] := by
      rintro rfl
      exact hb (by rw [hd])
    simp only [List.cons_append, escapeUnit, hd, if_true, breakLength_append (h.breakLength r),
      h.escapedLength hne]
  · simp only [List.cons_append, escapeUnit, hd, if_false]

lemma escapeUnit_backslash {c : Char} (h : EndsEscape c) (r : List Char) :
    escapeUnit p b ('\\' :: c :: r) = 2 := by
  simp [escapeUnit, escapedLength, h.breakLength r, escapeLength, h.isHex]

lemma escapesNext_drop_escapeUnit {s : List Char} (hs : s ≠ ['\\']) :
    escapesNext (s.drop (escapeUnit p b s)) = escapesNext s := by
  cases s with
  | nil => rfl
  | cons c s =>
    by_cases hc : c = '\\'
    · subst c
      simp only [escapeUnit, if_true]
      split_ifs
      · obtain ⟨d, t, rfl⟩ : ∃ d t, s = d :: t :=
          List.exists_cons_of_ne_nil (by rintro rfl; exact hs rfl)
        rw [escapesNext_backslash, List.drop_succ_cons]
      · rfl
    · simp only [escapeUnit, hc, if_false]
      split_ifs
      · exact (escapesNext_cons hc s).symm
      · rfl

/-- How far a run goes in front of a mark that ends escapes. If it ended before the mark it still does.
If it went to the end, the mark is next, unless an open escape takes it in. -/
theorem runLength_escapeUnit_append {c : Char} (h : EndsEscape c) (r s : List Char) :
    (runLength (escapeUnit p b) 0 s < s.length →
      runLength (escapeUnit p b) 0 (s ++ c :: r) =
        runLength (escapeUnit p b) 0 s) ∧
    (runLength (escapeUnit p b) 0 s = s.length →
      (escapesNext s = false → runLength (escapeUnit p b) 0 (s ++ c :: r) =
        s.length + runLength (escapeUnit p b) 0 (c :: r)) ∧
      (escapesNext s = true →
        s.length < runLength (escapeUnit p b) 0 (s ++ c :: r))) := by
  have nil : escapeUnit p b [] = 0 := rfl
  induction s using runLength_induction nil with
  | stop s hu =>
    by_cases hs : s = []
    · subst s
      simp [escapesNext]
    · have hb : s ≠ ['\\'] := by
        rintro rfl
        simp [escapeUnit, escapedLength, breakLength, escapeLength] at hu
      have hl := List.length_pos_iff.mpr hs
      refine ⟨fun _ => ?_, fun hz => by omega⟩
      rw [runLength_of_unit_eq_zero]
      rw [escapeUnit_append h hs hb, hu]
  | past s hu =>
    have hle := escapeUnit_le (p := p) (b := b) s
    omega
  | more s n hpos hle ih =>
    have hs : s ≠ [] := by
      rintro rfl
      simp [escapeUnit] at hpos
    have hsr : s ++ c :: r ≠ [] := by simp
    by_cases hb : s = ['\\']
    · subst s
      have hu := escapeUnit_backslash (p := p) (b := b) h r
      have hrun : 2 ≤ runLength (escapeUnit p b) 0 (['\\'] ++ c :: r) := by
        rw [runLength_of_unit_pos hsr (by rw [List.singleton_append, hu]; omega),
          List.singleton_append, hu, List.length_cons, List.length_cons]
        omega
      rw [List.length_singleton] at hle
      refine ⟨fun hn => ?_, fun _ => ⟨fun he => ?_, fun _ => hrun⟩⟩
      · rw [List.length_singleton] at hn
        omega
      · simp [escapesNext] at he
    · have hu := escapeUnit_append (p := p) (b := b) h hs hb r
      have hrun : runLength (escapeUnit p b) 0 (s ++ c :: r) =
          escapeUnit p b s + runLength (escapeUnit p b) 0
            (s.drop (escapeUnit p b s) ++ c :: r) := by
        rw [runLength_of_unit_pos hsr (by omega), hu, List.length_append,
          List.drop_append_of_le_length hle]
        omega
      rw [escapesNext_drop_escapeUnit hb, List.length_drop] at ih
      obtain ⟨ih₁, ih₂⟩ := ih
      refine ⟨fun hn => ?_, fun hn => ⟨fun he => ?_, fun he => ?_⟩⟩
      · rw [hrun, ih₁ (by omega)]
      · rw [hrun, (ih₂ (by omega)).1 he]
        omega
      · have hlt := (ih₂ (by omega)).2 he
        omega

lemma runLength_escapeUnit_append_mark {c : Char} (h : EndsEscape c) (hc : c ≠ '\\')
    (hp : p c = true) (s : List Char) :
    (runLength (escapeUnit p b) 0 s < s.length ∧
      ∀ r, runLength (escapeUnit p b) 0 (s ++ c :: r) = runLength (escapeUnit p b) 0 s) ∨
    runLength (escapeUnit p b) 0 s = s.length ∧
      ∀ r, s.length < runLength (escapeUnit p b) 0 (s ++ c :: r) := by
  have hrun := fun r => runLength_escapeUnit_append (p := p) (b := b) h r s
  rcases Nat.lt_or_eq_of_le (runLength_le (escapeUnit p b) 0 s) with hlt | heq
  · exact .inl ⟨hlt, fun r => (hrun r).1 hlt⟩
  · refine .inr ⟨heq, fun r => ?_⟩
    cases he : escapesNext s with
    | true => exact ((hrun r).2 heq).2 he
    | false =>
      have hu : escapeUnit p b (c :: r) = 1 := by simp [escapeUnit, hc, hp]
      have hpos := runLength_pos (List.cons_ne_nil c r) (hu ▸ Nat.one_pos)
      have hn := ((hrun r).2 heq).1 he
      omega

lemma closedBy_of_runLength_eq {q : Char} (h : EndsEscape q) (hq : q ≠ '\\')
    (hp : p q = false) {s : List Char}
    (hs : runLength (escapeUnit p b) 0 s = s.length) : closedBy q s = false := by
  rw [← Bool.not_eq_true, closedBy_iff]
  rintro ⟨r, rfl, he⟩
  have hz : runLength (escapeUnit p b) 0 [q] = 0 :=
    runLength_of_unit_eq_zero (by simp [escapeUnit, hq, hp])
  have hle := runLength_le (escapeUnit p b) 0 r
  obtain ⟨h₁, h₂⟩ := runLength_escapeUnit_append (p := p) (b := b) h [] r
  rw [hs, List.length_append, List.length_singleton] at h₁ h₂
  rcases Nat.lt_or_eq_of_le hle with hlt | heq
  · have hn := h₁ hlt
    omega
  · have hn := (h₂ heq).1 he
    omega

end EscapeUnit

/-- The marks that end rules and statements, or begin a block of them. -/
def isStop (c : Char) : Bool := c == '{' || c == '}' || c == ';'

lemma isStop_iff {c : Char} : isStop c = true ↔ c = '{' ∨ c = '}' ∨ c = ';' := by
  simp [isStop, or_assoc]

lemma endsEscape_of_isStop {c : Char} (hc : isStop c = true) : EndsEscape c := by
  rcases isStop_iff.mp hc with rfl | rfl | rfl <;> exact ⟨rfl, rfl⟩

lemma ne_backslash_of_isStop {c : Char} (hc : isStop c = true) : c ≠ '\\' := by
  rcases isStop_iff.mp hc with rfl | rfl | rfl <;> decide

lemma head?_append_stop {c q : Char} (hc : isStop c = true) (hq : isStop q = false) (s r : List Char) :
    (s ++ c :: r).head? = some q ↔ s.head? = some q := by
  cases s with
  | nil =>
    have hne : c ≠ q := by
      rintro rfl
      rw [hc] at hq
      contradiction
    simpa using hne
  | cons d s => rfl

end FontSizeLint.Css

import FontSizeLint.Proofs.Text.Cut
import FontSizeLint.Proofs.Css.Append
import FontSizeLint.Text.Blank

/-! Other spellings of a text. A spelling writes a text anew, character by character: a letter perhaps
in lower case, a break perhaps as another break. What a scan looks at is the same in both texts, so it
ends at the same place. -/
namespace FontSizeLint.Text

lemma toLower_induction {motive : Char → Char → Prop}
    (capital : ∀ i < 26, motive (Char.ofNat (i + 65)) (Char.ofNat (i + 65)).toLower)
    (other : ∀ c, c.toLower = c → motive c c) (c : Char) : motive c c.toLower := by
  by_cases hc : c.isUpper = true
  · have hrange : c.val ≥ 'A'.val ∧ c.val ≤ 'Z'.val := of_decide_eq_true hc
    have hn : 65 ≤ c.toNat ∧ c.toNat ≤ 90 :=
      hrange.imp UInt32.le_iff_toNat_le.mp UInt32.le_iff_toNat_le.mp
    have hi := capital (c.toNat - 65) (by omega)
    rwa [Nat.sub_add_cancel hn.1, Char.ofNat_toNat] at hi
  · have hrange : ¬ (c.val ≥ 'A'.val ∧ c.val ≤ 'Z'.val) := fun hr => hc (decide_eq_true hr)
    have hl : c.toLower = c := dif_neg hrange
    rw [hl]
    exact other c hl

lemma toLower_toLower (c : Char) : c.toLower.toLower = c.toLower := by
  induction c using toLower_induction with
  | capital i hi => revert i; decide
  | other c hc => exact hc

/-- Whether a property is one that letters have in both cases or in none, and breaks all or none. -/
def isBlind (p : Char → Bool) : Bool :=
  ((List.range 26).all fun i => p (Char.ofNat (i + 65)).toLower == p (Char.ofNat (i + 65))) &&
    p '\n' == p '\r' && p '\r' == p '\x0c'

section Blind
variable {p : Char → Bool}

lemma blind_toLower (hp : isBlind p = true) (c : Char) : p c.toLower = p c := by
  induction c using toLower_induction with
  | capital i hi =>
    simp only [isBlind, Bool.and_eq_true, List.all_eq_true, List.mem_range, beq_iff_eq] at hp
    exact hp.1.1 i hi
  | other c _ => rfl

lemma blind_of_toLower_eq (hp : isBlind p = true) {c d : Char} (h : d.toLower = c.toLower) :
    p d = p c := by
  rw [← blind_toLower hp d, h, blind_toLower hp]

lemma blind_breaks (hp : isBlind p = true) {c d : Char} (hc : isBreak c = true)
    (hd : isBreak d = true) : p c = p d := by
  simp only [isBlind, Bool.and_eq_true, beq_iff_eq] at hp
  rcases isBreak_iff.mp hc with rfl | rfl | rfl <;> rcases isBreak_iff.mp hd with rfl | rfl | rfl <;>
    simp [hp]

lemma not_isBreak_of_blind (hp : isBlind p = true) (hn : p '\n' = false) {c : Char} (hc : p c = true) :
    isBreak c = false := by
  rw [← Bool.not_eq_true]
  intro hb
  rw [blind_breaks hp hb (d := '\n') rfl, hn] at hc
  contradiction

lemma not_isBreak_of_isBlind {x : Char} (hx : isBlind (· == x) = true) : isBreak x = false := by
  rw [← Bool.not_eq_true]
  intro hb
  have hn := blind_breaks hx hb (d := '\n') rfl
  have hr := blind_breaks hx hb (d := '\r') rfl
  simp only [beq_self_eq_true, eq_comm (a := true), beq_iff_eq] at hn hr
  rw [← hn] at hr
  exact absurd hr (by decide)

end Blind

/-- A way to write texts anew. It is for texts of the characters that it admits: of these, the breaks
stay whole. -/
structure Spelling where
  write : Char → List Char
  write_letter : ∀ c, isBreak c = false → write c = [c] ∨ write c = [c.toLower]
  write_break : ∀ c, isBreak c = true → write c ≠ [] ∧ ∀ d ∈ write c, isBreak d = true
  admits : Char → Bool
  breakLength_write : ∀ s : List Char, (∀ c ∈ s, admits c = true) →
    breakLength (s.flatMap write) = ((s.take (breakLength s)).flatMap write).length

namespace Spelling
variable (w : Spelling)

def spell (s : List Char) : List Char := s.flatMap w.write

/-- A text that the spelling is for. -/
def Admits (s : List Char) : Prop := ∀ c ∈ s, w.admits c = true

variable {w}

lemma Admits.drop {s : List Char} (h : w.Admits s) (n : Nat) : w.Admits (s.drop n) :=
  fun c hc => h c (List.mem_of_mem_drop hc)

lemma Admits.take {s : List Char} (h : w.Admits s) (n : Nat) : w.Admits (s.take n) :=
  fun c hc => h c (List.mem_of_mem_take hc)

lemma Admits.of_cons {c : Char} {s : List Char} (h : w.Admits (c :: s)) : w.Admits s :=
  h.drop 1

@[simp] lemma spell_nil : w.spell [] = [] := rfl

lemma spell_cons (c : Char) (s : List Char) : w.spell (c :: s) = w.write c ++ w.spell s := rfl

@[simp] lemma spell_append (s t : List Char) : w.spell (s ++ t) = w.spell s ++ w.spell t :=
  List.flatMap_append

lemma write_ne_nil (c : Char) : w.write c ≠ [] := by
  cases hc : isBreak c with
  | true => exact (w.write_break c hc).1
  | false => rcases w.write_letter c hc with h | h <;> simp [h]

@[simp] lemma spell_eq_nil {s : List Char} : w.spell s = [] ↔ s = [] := by
  cases s with
  | nil => simp
  | cons c s => simp [spell_cons, write_ne_nil]

lemma length_le_length_spell (s : List Char) : s.length ≤ (w.spell s).length := by
  induction s with
  | nil => exact le_rfl
  | cons c s ih =>
    have hc := List.length_pos_iff.mpr (w.write_ne_nil c)
    rw [spell_cons, List.length_append, List.length_cons]
    omega

lemma blind_of_mem_write {p : Char → Bool} (hp : isBlind p = true) {c d : Char}
    (hd : d ∈ w.write c) : p d = p c := by
  cases hc : isBreak c with
  | true => exact blind_breaks hp ((w.write_break c hc).2 d hd) hc
  | false =>
    rcases w.write_letter c hc with h | h <;> rw [h, List.mem_singleton] at hd <;> rw [hd]
    exact blind_toLower hp c

lemma exists_spell_cons {c : Char} (hc : isBreak c = false) :
    ∃ d, d.toLower = c.toLower ∧ ∀ s, w.spell (c :: s) = d :: w.spell s := by
  rcases w.write_letter c hc with h | h
  · exact ⟨c, rfl, fun s => by rw [spell_cons, h]; rfl⟩
  · exact ⟨c.toLower, toLower_toLower c, fun s => by rw [spell_cons, h]; rfl⟩

lemma write_of_isBlind {x : Char} (hx : isBlind (· == x) = true) : w.write x = [x] := by
  have hl : x.toLower = x := by simpa using blind_toLower hx x
  rcases w.write_letter x (not_isBreak_of_isBlind hx) with h | h
  · exact h
  · rw [h, hl]

lemma spell_cons_of_isBlind {x : Char} (hx : isBlind (· == x) = true) (s : List Char) :
    w.spell (x :: s) = x :: w.spell s := by
  rw [spell_cons, write_of_isBlind hx]
  rfl

lemma any_head?_spell {p : Char → Bool} (hp : isBlind p = true) (s : List Char) :
    (w.spell s).head?.any p = s.head?.any p := by
  cases s with
  | nil => rfl
  | cons c s =>
    obtain ⟨d, t, hd⟩ := List.exists_cons_of_ne_nil (w.write_ne_nil c)
    rw [spell_cons, hd]
    exact blind_of_mem_write hp (hd ▸ List.mem_cons_self)

lemma all_spell {p : Char → Bool} (hp : isBlind p = true) (s : List Char) :
    (w.spell s).all p = s.all p := by
  induction s with
  | nil => rfl
  | cons c s ih =>
    obtain ⟨d, t, hd⟩ := List.exists_cons_of_ne_nil (w.write_ne_nil c)
    have hc : (w.write c).all p = p c := by
      rw [Bool.eq_iff_iff, List.all_eq_true]
      constructor
      · intro h
        rw [← blind_of_mem_write hp (w := w) (c := c) (d := d) (by simp [hd])]
        exact h d (by simp [hd])
      · exact fun h x hx => (blind_of_mem_write hp hx).trans h
    rw [spell_cons, List.all_append, ih, hc, List.all_cons]

lemma head?_spell_eq_some {x : Char} (hx : isBlind (· == x) = true) (s : List Char) :
    (w.spell s).head? = some x ↔ s.head? = some x := by
  have h := any_head?_spell (w := w) hx s
  rw [Bool.eq_iff_iff] at h
  simpa [Option.any_eq_true] using h

lemma spell_eq_cons {x : Char} (hx : isBlind (· == x) = true) {s t : List Char}
    (h : w.spell s = x :: t) : ∃ r, s = x :: r ∧ t = w.spell r := by
  have hh := (head?_spell_eq_some (w := w) hx s).mp (by rw [h]; rfl)
  obtain ⟨r, rfl⟩ := List.head?_eq_some_iff.mp hh
  rw [spell_cons_of_isBlind hx] at h
  exact ⟨r, rfl, (List.cons.inj h).2.symm⟩

lemma isPrefix_spell_iff {m : List Char} (hm : ∀ x ∈ m, isBlind (· == x) = true) (s : List Char) :
    m <+: w.spell s ↔ m <+: s := by
  induction m generalizing s with
  | nil => simp
  | cons x m ih =>
    rw [List.forall_mem_cons] at hm
    constructor
    · rintro ⟨t, ht⟩
      obtain ⟨r, rfl, hr⟩ := spell_eq_cons hm.1 ht.symm
      exact List.cons_prefix_cons.mpr ⟨rfl, (ih hm.2 r).mp ⟨t, hr⟩⟩
    · rintro ⟨t, rfl⟩
      rw [List.cons_append, spell_cons_of_isBlind hm.1, List.cons_prefix_cons]
      exact ⟨rfl, (ih hm.2 _).mpr (List.prefix_append m t)⟩

lemma spell_eq_self {m : List Char} (hm : ∀ x ∈ m, isBlind (· == x) = true) : w.spell m = m := by
  induction m with
  | nil => rfl
  | cons x m ih =>
    rw [List.forall_mem_cons] at hm
    rw [spell_cons_of_isBlind hm.1, ih hm.2]

lemma lower_spell {s : List Char} (hs : ∀ c ∈ s, isBreak c = false) :
    lower (w.spell s) = lower s := by
  induction s with
  | nil => rfl
  | cons c s ih =>
    rw [List.forall_mem_cons] at hs
    obtain ⟨d, hd, he⟩ := exists_spell_cons (w := w) hs.1
    rw [he, lower, lower, List.map_cons, List.map_cons, hd]
    exact congrArg _ (ih hs.2)

end Spelling

section Runs
variable {f : Char → List Char} {p : Char → Bool}

lemma takeWhile_flatMap (hne : ∀ c, f c ≠ []) (hf : ∀ c, ∀ d ∈ f c, p d = p c) (s : List Char) :
    (s.flatMap f).takeWhile p = (s.takeWhile p).flatMap f := by
  induction s with
  | nil => rfl
  | cons c s ih =>
    rw [List.flatMap_cons]
    cases hc : p c with
    | true =>
      have hall : ∀ d ∈ f c, p d = true := fun d hd => (hf c d hd).trans hc
      rw [List.takeWhile_append_of_pos hall, ih, List.takeWhile_cons_of_pos hc, List.flatMap_cons]
    | false =>
      obtain ⟨d, t, hd⟩ := List.exists_cons_of_ne_nil (hne c)
      have hp : ¬ p d = true := by simp [hf c d (by simp [hd]), hc]
      rw [hd, List.cons_append, List.takeWhile_cons_of_neg hp, List.takeWhile_cons_of_neg (by simp [hc])]
      rfl

lemma dropWhile_flatMap (hne : ∀ c, f c ≠ []) (hf : ∀ c, ∀ d ∈ f c, p d = p c) (s : List Char) :
    (s.flatMap f).dropWhile p = (s.dropWhile p).flatMap f := by
  apply (List.append_right_inj ((s.flatMap f).takeWhile p)).mp
  rw [List.takeWhile_append_dropWhile, takeWhile_flatMap hne hf, ← List.flatMap_append,
    List.takeWhile_append_dropWhile]

end Runs

namespace Spelling
variable {w : Spelling} {p : Char → Bool}

lemma takeWhile_spell (hp : isBlind p = true) (s : List Char) :
    (w.spell s).takeWhile p = w.spell (s.takeWhile p) :=
  takeWhile_flatMap write_ne_nil (fun _ _ hd => blind_of_mem_write hp hd) s

lemma dropWhile_spell (hp : isBlind p = true) (s : List Char) :
    (w.spell s).dropWhile p = w.spell (s.dropWhile p) :=
  dropWhile_flatMap write_ne_nil (fun _ _ hd => blind_of_mem_write hp hd) s

lemma isBlind_isBlank : isBlind isBlank = true := by decide

lemma trimEnd_spell (s : List Char) : trimEnd (w.spell s) = w.spell (trimEnd s) := by
  have hrev : ∀ t : List Char, (w.spell t.reverse).reverse = t.flatMap fun c => (w.write c).reverse := by
    intro t
    rw [spell, List.reverse_flatMap, List.reverse_reverse]
    rfl
  have hd := dropWhile_flatMap (f := fun c => (w.write c).reverse) (p := isBlank)
    (fun c => by simpa using write_ne_nil c)
    (fun c d hd => blind_of_mem_write isBlind_isBlank (List.mem_reverse.mp hd)) s.reverse
  rw [← hrev, ← hrev, List.reverse_reverse] at hd
  rw [trimEnd, hd, List.reverse_reverse, trimEnd]

lemma trim_spell (s : List Char) : trim (w.spell s) = w.spell (trim s) := by
  rw [trim, trimStart, dropWhile_spell isBlind_isBlank, trimEnd_spell, trim, trimStart]

variable (w) in
/-- A measure of the front of a text that takes the same of it in this spelling. -/
def Keeps (measure : List Char → Nat) (s : List Char) : Prop :=
  measure (w.spell s) = (w.spell (s.take (measure s))).length

section Keeps
variable {m k : List Char → Nat} {s : List Char}

lemma drop_length_spell (n : Nat) (s : List Char) :
    (w.spell s).drop (w.spell (s.take n)).length = w.spell (s.drop n) := by
  conv_lhs => rw [← List.take_append_drop n s, spell_append]
  simp

lemma Keeps.eq (h : w.Keeps m s) : m (w.spell s) = (w.spell (s.take (m s))).length := h

lemma Keeps.drop (h : w.Keeps m s) : (w.spell s).drop (m (w.spell s)) = w.spell (s.drop (m s)) := by
  rw [h, drop_length_spell]

lemma Keeps.take (h : w.Keeps m s) : (w.spell s).take (m (w.spell s)) = w.spell (s.take (m s)) := by
  rw [h]
  conv_lhs => rw [← List.take_append_drop (m s) s, spell_append]
  simp

lemma length_spell_take_add (a b : Nat) (s : List Char) :
    (w.spell (s.take (a + b))).length =
      (w.spell (s.take a)).length + (w.spell ((s.drop a).take b)).length := by
  rw [List.take_add, spell_append, List.length_append]

lemma Keeps.add (hm : w.Keeps m s) (hk : w.Keeps k (s.drop (m s))) :
    w.Keeps (fun s => m s + k (s.drop (m s))) s := by
  rw [Keeps, length_spell_take_add, hm.drop, hk, hm]

lemma Keeps.eq_zero_iff (h : w.Keeps m s) (hs : s ≠ []) : m (w.spell s) = 0 ↔ m s = 0 := by
  rw [h, List.length_eq_zero_iff, spell_eq_nil, List.take_eq_nil_iff]
  simp [hs]

lemma keeps_takeWhile (hp : isBlind p = true) (s : List Char) :
    w.Keeps (fun s => (s.takeWhile p).length) s := by
  rw [Keeps, takeWhile_spell hp, ← List.prefix_iff_eq_take.mp (List.takeWhile_prefix p)]

lemma length_spell_take_one {c : Char} (hc : isBreak c = false) (s : List Char) :
    (w.spell ((c :: s).take 1)).length = 1 := by
  obtain ⟨d, -, he⟩ := exists_spell_cons (w := w) hc
  rw [List.take_succ_cons, List.take_zero, he]
  rfl

lemma length_spell_take_of_drop {n : Nat} {c : Char} {r : List Char} (h : s.drop n = c :: r)
    (hc : isBreak c = false) :
    (w.spell (s.take (n + 1))).length = (w.spell (s.take n)).length + 1 := by
  rw [length_spell_take_add, h, length_spell_take_one hc]

lemma length_spell_take_succ {x : Char} (hx : isBlind (· == x) = true) (n : Nat) (s : List Char) :
    (w.spell ((x :: s).take (n + 1))).length = (w.spell (s.take n)).length + 1 := by
  rw [List.take_succ_cons, spell_cons_of_isBlind hx, List.length_cons]

lemma keeps_runLength {unit : List Char → Nat} (nil : unit [] = 0)
    (h : ∀ s, w.Admits s → w.Keeps unit s) : ∀ s, w.Admits s → w.Keeps (runLength unit 0) s := by
  intro s
  unfold Keeps
  induction s using runLength_induction nil with
  | stop s hu =>
    intro hs
    have hk := h s hs
    rw [Keeps, hu] at hk
    rw [runLength_of_unit_eq_zero hk]
    rfl
  | past s hu =>
    intro hs
    have hne : s ≠ [] := by rintro rfl; simp [nil] at hu
    have hk := h s hs
    rw [Keeps, List.take_of_length_le hu.le] at hk
    have hpos : 0 < (w.spell s).length := by
      rw [List.length_pos_iff, ne_eq, spell_eq_nil]
      exact hne
    rw [runLength_of_unit_pos (by simpa using hne) (by omega), hk, List.drop_length, List.take_length]
    simp [runLength]
  | more s n hpos hle ih =>
    intro hs
    have hne : s ≠ [] := by rintro rfl; simp [nil] at hpos
    have hk := h s hs
    have hz := hk.eq_zero_iff hne
    have hlen : unit (w.spell s) ≤ (w.spell s).length := by
      rw [hk, ← List.take_append_drop (unit s) s, spell_append, List.length_append]
      simp
    rw [runLength_of_unit_pos (by simpa using hne) (by omega), hk.drop, ih (hs.drop _),
      length_spell_take_add, Nat.min_eq_left hlen, hk]

end Keeps

lemma keeps_breakLength {s : List Char} (hs : w.Admits s) : w.Keeps breakLength s :=
  w.breakLength_write s hs

lemma breakLength_eq_zero_iff (s : List Char) :
    breakLength s = 0 ↔ s.head?.any isBreak = false := by
  cases s with
  | nil => simp [breakLength]
  | cons c s =>
    rw [breakLength_cons]
    by_cases hc : isBreak c = true
    · simp [hc]
      split_ifs <;> simp
    · have hr : c ≠ '\r' := by
        rintro rfl
        exact hc rfl
      simp [hc, hr]

lemma isBlind_isBreak : isBlind isBreak = true := by decide

lemma breakLength_spell_eq_zero (s : List Char) :
    breakLength (w.spell s) = 0 ↔ breakLength s = 0 := by
  rw [breakLength_eq_zero_iff, breakLength_eq_zero_iff, any_head?_spell isBlind_isBreak]

end Spelling

namespace Position

lemma advance_step (p : Position) {s : List Char} (hs : s ≠ []) : p.advance s =
    if breakLength s = 0 then advance ⟨p.line, p.col + (s.head?.map units).getD 0⟩ (s.drop 1)
    else advance ⟨p.line + 1, 1⟩ (s.drop (breakLength s)) := by
  fun_cases advance p s with
  | case1 => exact absurd rfl hs
  | case2 s => rfl
  | case3 c s h hc => rw [breakLength.eq_2 _ _ h, if_pos hc]; simp
  | case4 c s h hc => rw [breakLength.eq_2 _ _ h, if_neg hc]; simp

lemma units_toLower (c : Char) : units c.toLower = units c := by
  have h : isBlind (fun c => decide (units c = 1)) = true := by decide
  have hl := blind_toLower h c
  have hu : ∀ d, units d = 1 ∨ units d = 2 := by
    intro d
    unfold units
    split_ifs <;> simp
  simp only [decide_eq_decide] at hl
  rcases hu c with hc | hc <;> rcases hu c.toLower with hd | hd <;> omega

/-- A text takes the same place in every spelling. -/
theorem advance_spell {w : Spelling} (p : Position) {s : List Char} (hs : w.Admits s) :
    p.advance (w.spell s) = p.advance s := by
  induction s using (measure List.length).wf.induction generalizing p with
  | h s ih =>
    by_cases hne : s = []
    · rw [hne]; rfl
    have hl := List.length_pos_iff.mpr hne
    have hk := Spelling.keeps_breakLength hs
    rw [advance_step p (by simpa using hne), advance_step p hne, hk.drop]
    simp only [Spelling.breakLength_spell_eq_zero]
    split_ifs with hb
    · obtain ⟨c, s, rfl⟩ := List.exists_cons_of_ne_nil hne
      have hc : isBreak c = false := by simpa [Spelling.breakLength_eq_zero_iff] using hb
      obtain ⟨d, hd, he⟩ := Spelling.exists_spell_cons (w := w) hc
      have hu : units d = units c := by rw [← units_toLower, hd, units_toLower]
      rw [he]
      simp only [List.head?_cons, Option.map_some, Option.getD_some, List.drop_succ_cons,
        List.drop_zero, hu]
      exact ih s (by simp [InvImage, WellFoundedRelation.rel]) _ hs.of_cons
    · apply ih _ _ _ (hs.drop _)
      change (s.drop (breakLength s)).length < s.length
      rw [List.length_drop]
      omega

end Position
end FontSizeLint.Text

import FontSizeLint.Text.Scan
import FontSizeLint.Proofs.Text.Offset

/-! Cuts that leave breaks whole, and the ends of runs. A scan that goes over a text by units ends
inside no break if no unit does. -/
namespace FontSizeLint.Text

/-- The offset stands inside no break. -/
def Intact (s : List Char) (n : Nat) : Prop := ¬ PartsBreak (s.take n) (s.drop n)

lemma intact_zero (s : List Char) : Intact s 0 := by simp [Intact, PartsBreak]

lemma intact_of_length_le {s : List Char} {n : Nat} (h : s.length ≤ n) : Intact s n := by
  simp [Intact, PartsBreak, List.drop_eq_nil_of_le h]

lemma intact_of_drop_eq_nil {s : List Char} {n : Nat} (h : s.drop n = []) : Intact s n :=
  intact_of_length_le (List.drop_eq_nil_iff.mp h)

lemma intact_of_forall_take {s : List Char} {n : Nat} (h : ∀ c ∈ s.take n, c ≠ '\r') :
    Intact s n := by
  rintro ⟨hl, -⟩
  exact h '\r' (List.mem_of_getLast? hl) rfl

lemma intact_one {c : Char} (hc : c ≠ '\r') (s : List Char) : Intact (c :: s) 1 := by
  apply intact_of_forall_take
  simpa using hc

lemma Intact.add_pos {s : List Char} {m k : Nat} (hk : 0 < k) (h : Intact (s.drop m) k) :
    Intact s (m + k) := by
  rintro ⟨hl, hn⟩
  by_cases hm : s.drop m = []
  · have hd := List.drop_eq_nil_iff.mp hm
    rw [List.drop_eq_nil_of_le (by omega)] at hn
    simp at hn
  · apply h
    constructor
    · rw [List.take_add, List.getLast?_append] at hl
      have hne : ((s.drop m).take k).getLast? ≠ none := by
        simp only [ne_eq, List.getLast?_eq_none_iff, List.take_eq_nil_iff, hm, or_false]
        omega
      obtain ⟨c, hc⟩ := Option.ne_none_iff_exists'.mp hne
      rw [hc] at hl ⊢
      simpa using hl
    · rwa [List.drop_drop]

lemma Intact.add {s : List Char} {m k : Nat} (hm : Intact s m) (h : Intact (s.drop m) k) :
    Intact s (m + k) := by
  cases k with
  | zero => exact hm
  | succ k => exact Intact.add_pos (Nat.succ_pos k) h

lemma Intact.cons {c : Char} {s : List Char} {n : Nat} (hc : c ≠ '\r') (h : Intact s n) :
    Intact (c :: s) (n + 1) := by
  rw [Nat.add_comm]
  exact (intact_one hc s).add h

lemma intact_succ {s r : List Char} {n : Nat} {c : Char} (h : s.drop n = c :: r) (hc : c ≠ '\r') :
    Intact s (n + 1) := by
  apply Intact.add_pos Nat.one_pos
  rw [h]
  exact intact_one hc r

lemma runLength_eq_drop (unit : List Char → Nat) (n : Nat) (s : List Char) :
    runLength unit n s = min n s.length + runLength unit 0 (s.drop n) := by
  induction s generalizing n with
  | nil => simp [runLength]
  | cons c s ih =>
    cases n with
    | zero => simp
    | succ n =>
      simp only [runLength, ih n, List.length_cons, List.drop_succ_cons]
      omega

lemma runLength_of_unit_pos {unit : List Char → Nat} {s : List Char} (hs : s ≠ [])
    (hu : 0 < unit s) :
    runLength unit 0 s = min (unit s) s.length + runLength unit 0 (s.drop (unit s)) := by
  obtain ⟨c, s, rfl⟩ := List.exists_cons_of_ne_nil hs
  obtain ⟨n, hn⟩ := Nat.exists_eq_succ_of_ne_zero hu.ne'
  simp only [runLength, hn, runLength_eq_drop unit n, List.length_cons, List.drop_succ_cons]
  omega

lemma runLength_of_unit_eq_zero {unit : List Char → Nat} {s : List Char} (hu : unit s = 0) :
    runLength unit 0 s = 0 := by
  cases s with
  | nil => rfl
  | cons c s => simp [runLength, hu]

/-- Induction along a run: it stops where no unit is, goes past the end of the text with a unit that
is longer, or goes on behind a unit. -/
theorem runLength_induction {unit : List Char → Nat} {motive : List Char → Nat → Prop}
    (nil : unit [] = 0)
    (stop : ∀ s, unit s = 0 → motive s 0)
    (past : ∀ s, s.length < unit s → motive s s.length)
    (more : ∀ s n, 0 < unit s → unit s ≤ s.length → motive (s.drop (unit s)) n →
      motive s (unit s + n))
    (s : List Char) : motive s (runLength unit 0 s) := by
  induction s using (measure List.length).wf.induction with
  | h s ih =>
    by_cases hu : unit s = 0
    · rw [runLength_of_unit_eq_zero hu]
      exact stop s hu
    have hs : s ≠ [] := by rintro rfl; exact hu nil
    have hp := List.length_pos_iff.mpr hs
    rw [runLength_of_unit_pos hs (by omega)]
    by_cases hl : unit s ≤ s.length
    · rw [Nat.min_eq_left hl]
      apply more s _ (by omega) hl
      apply ih
      change (s.drop (unit s)).length < s.length
      rw [List.length_drop]
      omega
    · rw [Nat.min_eq_right (by omega), List.drop_eq_nil_of_le (by omega)]
      exact past s (by omega)

lemma intact_runLength {unit : List Char → Nat} (nil : unit [] = 0)
    (h : ∀ s, Intact s (unit s)) (s : List Char) : Intact s (runLength unit 0 s) := by
  induction s using runLength_induction nil with
  | stop s _ => exact intact_zero s
  | past s _ => exact intact_of_length_le le_rfl
  | more s n _ _ hn => exact (h s).add hn

lemma unit_drop_runLength {unit : List Char → Nat} (nil : unit [] = 0) (s : List Char) :
    unit (s.drop (runLength unit 0 s)) = 0 := by
  induction s using runLength_induction nil with
  | stop s hs => exact hs
  | past s _ => rwa [List.drop_length]
  | more s n _ _ hn => rwa [← List.drop_drop]

lemma drop_length_takeWhile (p : Char → Bool) (s : List Char) :
    s.drop (s.takeWhile p).length = s.dropWhile p := by
  obtain ⟨t, ht⟩ : ∃ t, t = s.takeWhile p := ⟨_, rfl⟩
  rw [← ht]
  conv_lhs => rw [← List.takeWhile_append_dropWhile (p := p) (l := s), ← ht]
  exact List.drop_left

lemma intact_takeWhile {p : Char → Bool} (hp : p '\r' = false) (s : List Char) :
    Intact s (s.takeWhile p).length := by
  apply intact_of_forall_take
  rw [← List.prefix_iff_eq_take.mp (List.takeWhile_prefix p)]
  rintro c hc rfl
  rw [List.mem_takeWhile_imp hc] at hp
  contradiction

lemma intact_breakLength (s : List Char) : Intact s (breakLength s) := by
  fun_cases breakLength s with
  | case1 s => rintro ⟨hl, -⟩; simp at hl
  | case2 c s h hc =>
    rintro ⟨hl, hn⟩
    cases s with
    | nil => simp at hn
    | cons d s =>
      have hr : c = '\r' := by simpa using hl
      have hd : d = '\n' := by simpa using hn
      exact h s hr (by rw [hd])
  | case3 c s h hc => exact intact_zero _
  | case4 => exact intact_zero []

lemma add_length_of_drop_eq_cons {s r : List Char} {n : Nat} {c : Char} (h : s.drop n = c :: r) :
    n + 1 + r.length = s.length := by
  have hl := congrArg List.length h
  rw [List.length_drop, List.length_cons] at hl
  omega

lemma drop_length_take (s : List Char) (n : Nat) : s.drop (s.take n).length = s.drop n := by
  by_cases hn : n ≤ s.length
  · rw [List.length_take_of_le hn]
  · rw [List.length_take, Nat.min_eq_right (by omega), List.drop_length,
      List.drop_eq_nil_of_le (by omega)]

lemma Intact.take {s : List Char} {n : Nat} (h : Intact s n) : Intact s (s.take n).length := by
  by_cases hn : n ≤ s.length
  · rwa [List.length_take_of_le hn]
  · exact intact_of_length_le (by rw [List.length_take]; omega)

end FontSizeLint.Text

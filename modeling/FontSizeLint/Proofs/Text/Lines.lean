import FontSizeLint.Proofs.Text.Offset
import FontSizeLint.Text.Highlight

/-! Texts without breaks, and texts put together from them with a line feed behind each. -/
namespace FontSizeLint.Text

def Unbroken (s : List Char) : Prop := ∀ c ∈ s, isBreak c = false

instance (s : List Char) : Decidable (Unbroken s) := List.decidableBAll _ s

@[simp] lemma unbroken_nil : Unbroken [] := List.forall_mem_nil _

@[simp] lemma unbroken_cons {c : Char} {s : List Char} :
    Unbroken (c :: s) ↔ isBreak c = false ∧ Unbroken s := List.forall_mem_cons

@[simp] lemma unbroken_append {s t : List Char} :
    Unbroken (s ++ t) ↔ Unbroken s ∧ Unbroken t := List.forall_mem_append

lemma Unbroken.subset {s t : List Char} (h : Unbroken t) (hs : s ⊆ t) : Unbroken s :=
  fun c hc => h c (hs hc)

lemma unbroken_of_isDigit {s : List Char} (h : ∀ c ∈ s, c.isDigit = true) : Unbroken s := by
  intro c hc
  rw [← Bool.not_eq_true]
  intro hb
  have hd := h c hc
  rcases isBreak_iff.mp hb with rfl | rfl | rfl <;> exact absurd hd (by decide)

lemma unbroken_toString (n : Nat) : Unbroken (toString n).toList := by
  rw [Nat.toString_eq_repr, Nat.repr_eq_ofList_toDigits, String.toList_ofList]
  exact unbroken_of_isDigit fun c hc => Nat.isDigit_of_mem_toDigits (by decide) (by decide) hc

lemma unbroken_of_mem_lines (s : List Char) : ∀ l ∈ lines s, Unbroken l := by
  fun_induction lines s with
  | case1 => simp
  | case2 s ih => simpa using ih
  | case3 c s _ hc ih => simpa using ih
  | case4 c s _ hc hs ih => simpa using hc
  | case5 c s _ hc l ls hs ih =>
    rw [hs] at ih
    simpa [hc] using ih

lemma unbroken_of_line? {s l : List Char} {n : Nat} (h : line? s n = some l) : Unbroken l := by
  cases n with
  | zero => simp at h
  | succ n => exact unbroken_of_mem_lines s l (List.mem_of_getElem? h)

lemma unbroken_highlight {l : List Char} (h : Unbroken l) (start span : Nat) :
    Unbroken (highlight l start span) := by
  have hdrop (n : Nat) : Unbroken (l.drop n) := h.subset (List.drop_subset n l)
  have hspan : Unbroken ((l.drop start).take span) := (hdrop start).subset (List.take_subset _ _)
  unfold highlight
  split_ifs
  · exact h
  · simp only [unbroken_append]
    exact ⟨⟨⟨⟨h.subset (List.take_subset _ _), by decide⟩, hspan⟩, by decide⟩, hdrop _⟩

lemma lines_feed_cons (s : List Char) : lines ('\n' :: s) = [] :: lines s := by
  rw [lines.eq_3 _ _ (by simp), if_pos (by decide)]

lemma no_pair_of_isBreak_eq_false {c : Char} (hc : isBreak c = false) (s : List Char) :
    ∀ t, c = '\r' → s = '\n' :: t → False := by
  rintro t rfl
  exact absurd hc (by decide)

lemma lines_unbroken_append {l s x : List Char} {xs : List (List Char)} (h : Unbroken l)
    (hs : lines s = x :: xs) : lines (l ++ s) = (l ++ x) :: xs := by
  induction l with
  | nil => exact hs
  | cons c l ih =>
    rw [unbroken_cons] at h
    rw [List.cons_append, lines.eq_3 _ _ (no_pair_of_isBreak_eq_false h.1 _), h.1, if_neg (by decide),
      ih h.2]
    rfl

lemma breaks_unbroken_append {l : List Char} (h : Unbroken l) (s : List Char) :
    breaks (l ++ s) = breaks s := by
  induction l with
  | nil => rfl
  | cons c l ih =>
    rw [unbroken_cons] at h
    rw [List.cons_append, breaks.eq_3 _ _ (no_pair_of_isBreak_eq_false h.1 _), h.1,
      if_neg (by decide), ih h.2]

lemma lines_append_feed {l : List Char} (h : Unbroken l) (s : List Char) :
    lines (l ++ '\n' :: s) = l :: lines s := by
  have hl := lines_unbroken_append h (lines_feed_cons s)
  rwa [List.append_nil] at hl

lemma lines_flatMap_feed {ls : List (List Char)} (h : ∀ l ∈ ls, Unbroken l) :
    lines (ls.flatMap (· ++ ['\n'])) = ls ++ [[]] := by
  induction ls with
  | nil => rfl
  | cons l ls ih =>
    rw [List.forall_mem_cons] at h
    rw [List.flatMap_cons, List.append_assoc, List.singleton_append, lines_append_feed h.1, ih h.2,
      List.cons_append]

lemma count_flatMap_feed {ls : List (List Char)} (h : ∀ l ∈ ls, Unbroken l) :
    (ls.flatMap (· ++ ['\n'])).count '\n' = ls.length := by
  induction ls with
  | nil => rfl
  | cons l ls ih =>
    rw [List.forall_mem_cons] at h
    have hl : l.count '\n' = 0 := List.count_eq_zero.mpr fun hc => absurd (h.1 _ hc) (by decide)
    simp [hl, ih h.2]

lemma eq_feed_of_mem_flatMap {ls : List (List Char)} (h : ∀ l ∈ ls, Unbroken l) {c : Char}
    (hc : c ∈ ls.flatMap (· ++ ['\n'])) (hb : isBreak c = true) : c = '\n' := by
  obtain ⟨l, hl, hc⟩ := List.mem_flatMap.mp hc
  rcases List.mem_append.mp hc with hc | hc
  · exact absurd (h l hl c hc) (by simp [hb])
  · exact List.mem_singleton.mp hc

end FontSizeLint.Text

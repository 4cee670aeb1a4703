import FontSizeLint.Text.Blank
import Mathlib.Data.List.DropRight
import Mathlib.Tactic.Lemma

/-! Trimming cuts blanks off both ends of a text and nothing else. -/
namespace FontSizeLint.Text

lemma exists_trim (s : List Char) : ∃ l r, s = l ++ (trim s ++ r) ∧
    (∀ c ∈ l, isBlank c = true) ∧ ∀ c ∈ r, isBlank c = true := by
  refine ⟨s.takeWhile isBlank, ((trimStart s).reverse.takeWhile isBlank).reverse, ?_,
    fun c hc => List.mem_takeWhile_imp hc,
    fun c hc => List.mem_takeWhile_imp (List.mem_reverse.mp hc)⟩
  rw [trim, trimEnd, ← List.reverse_append, List.takeWhile_append_dropWhile, List.reverse_reverse,
    trimStart, List.takeWhile_append_dropWhile]

lemma trimEnd_subset (s : List Char) : trimEnd s ⊆ s := by
  intro c hc
  rw [trimEnd, List.mem_reverse] at hc
  exact List.mem_reverse.mp ((List.dropWhile_sublist isBlank).subset hc)

lemma trim_subset (s : List Char) : trim s ⊆ s :=
  List.Subset.trans (trimEnd_subset _) (List.dropWhile_sublist isBlank).subset

lemma trimEnd_cons {c : Char} (hc : isBlank c = false) (s : List Char) :
    trimEnd (c :: s) = c :: trimEnd s := by
  simp only [trimEnd, List.reverse_cons, List.dropWhile_append]
  split_ifs with h
  · simp [List.isEmpty_iff.mp h, hc]
  · simp

lemma trim_cons {c : Char} (hc : isBlank c = false) (s : List Char) :
    trim (c :: s) = c :: trimEnd s := by
  rw [trim, trimStart, List.dropWhile_cons_of_neg (by simp [hc]), trimEnd_cons hc]

lemma trimEnd_append {s : List Char} (hs : ∀ c ∈ s, isBlank c = false) (r : List Char) :
    trimEnd (s ++ r) = s ++ trimEnd r := by
  induction s with
  | nil => rfl
  | cons c s ih =>
    rw [List.forall_mem_cons] at hs
    rw [List.cons_append, trimEnd_cons hs.1, ih hs.2, List.cons_append]

lemma trim_append {s : List Char} (hne : s ≠ []) (hs : ∀ c ∈ s, isBlank c = false)
    (r : List Char) : trim (s ++ r) = s ++ trimEnd r := by
  obtain ⟨c, s, rfl⟩ := List.exists_cons_of_ne_nil hne
  rw [List.forall_mem_cons] at hs
  rw [List.cons_append, trim_cons hs.1, trimEnd_append hs.2, List.cons_append]

lemma trim_eq_self {s : List Char} (hs : ∀ c ∈ s, isBlank c = false) : trim s = s := by
  rcases eq_or_ne s [] with rfl | hne
  · rfl
  · have h := trim_append hne hs []
    rwa [List.append_nil, show trimEnd [] = [] from rfl, List.append_nil] at h

lemma trimEnd_isPrefix (s : List Char) : trimEnd s <+: s := List.rdropWhile_prefix isBlank s

lemma isBlank_of_head?_trim (s : List Char) : ∀ x ∈ (trim s).head?, isBlank x = false := by
  intro x hx
  obtain ⟨r, hr⟩ := trimEnd_isPrefix (trimStart s)
  have hhead : (s.dropWhile isBlank).head? = some x := by
    change (trimStart s).head? = some x
    rw [← hr, List.head?_append, show (trimEnd (trimStart s)).head? = some x from hx, Option.some_or]
  have hnot := List.head?_dropWhile_not isBlank s
  rw [hhead] at hnot
  simpa using hnot

lemma trim_isPrefix_iff {x : Char} {s rest : List Char} (h : x :: s <+: x :: rest) :
    trim (x :: s) ≠ [] ∧ trim (x :: s) <+: x :: rest ↔ isBlank x = false := by
  constructor
  · rintro ⟨hne, hprefix⟩
    obtain ⟨y, t, hy⟩ := List.exists_cons_of_ne_nil hne
    rw [hy] at hprefix
    obtain ⟨rfl, -⟩ := List.cons_prefix_cons.mp hprefix
    exact isBlank_of_head?_trim (y :: s) y (by rw [hy]; rfl)
  · intro hx
    rw [trim_cons hx]
    refine ⟨List.cons_ne_nil _ _, List.IsPrefix.trans ?_ h⟩
    exact List.cons_prefix_cons.mpr ⟨rfl, trimEnd_isPrefix s⟩

lemma trimStart_append_cons {c : Char} (hc : isBlank c = false) (s r : List Char) :
    trimStart (s ++ c :: r) = trimStart s ++ c :: r := by
  rw [trimStart, trimStart, List.dropWhile_append]
  split_ifs with h
  · simp [List.isEmpty_iff.mp h, hc]
  · rfl

lemma trimEnd_append_cons {c : Char} (hc : isBlank c = false) (s r : List Char) :
    trimEnd (s ++ c :: r) = s ++ c :: trimEnd r := by
  have h := trimStart_append_cons hc r.reverse s.reverse
  rw [trimStart, trimStart] at h
  rw [trimEnd, trimEnd, List.reverse_append, List.reverse_cons, List.append_assoc,
    List.singleton_append, h]
  simp

lemma trimEnd_append_blanks {r : List Char} (hr : ∀ c ∈ r, isBlank c = true) (s : List Char) :
    trimEnd (s ++ r) = trimEnd s := by
  rw [trimEnd, trimEnd, List.reverse_append, List.dropWhile_append_of_pos (by simpa using hr)]

lemma trim_blanks {l r : List Char} (hl : ∀ c ∈ l, isBlank c = true)
    (hr : ∀ c ∈ r, isBlank c = true) (s : List Char) : trim (l ++ (s ++ r)) = trim s := by
  rw [trim, trim, trimStart, trimStart, List.dropWhile_append_of_pos hl, List.dropWhile_append]
  split_ifs with h
  · rw [List.isEmpty_iff.mp h, List.dropWhile_eq_nil_iff.mpr hr]
  · exact trimEnd_append_blanks hr _

end FontSizeLint.Text

/-! Scanning a text by units, each measured by its number of characters at the front of what is
left. The recursion is on the text: the counter holds how many characters of the unit that has
been entered are still to pass. -/
namespace FontSizeLint.Text

/-- Length of the consecutive units at the front of a text; a unit of no characters ends them. -/
def runLength (unit : List Char → Nat) : Nat → List Char → Nat
  | _, [] => 0
  | n + 1, _ :: s => runLength unit n s + 1
  | 0, c :: s =>
    match unit (c :: s) with
    | 0 => 0
    | n + 1 => runLength unit n s + 1

/-- Cuts a text into pieces. `first` labels the piece at the front of a text and measures it; a
piece of no characters ends them. -/
def pieces {α : Type} (first : List Char → α × Nat) : Nat → List Char → List (α × List Char)
  | _, [] => []
  | n + 1, _ :: s => pieces first n s
  | 0, c :: s =>
    match first (c :: s) with
    | (_, 0) => []
    | (a, n + 1) => (a, c :: s.take n) :: pieces first n s

theorem runLength_le (unit : List Char → Nat) (n : Nat) (s : List Char) :
    runLength unit n s ≤ s.length := by
  induction s generalizing n with
  | nil => simp [runLength]
  | cons c s ih =>
    cases n with
    | zero =>
      simp only [runLength]
      split
      · simp
      · simpa using ih _
    | succ n => simpa [runLength] using ih n

theorem runLength_pos {unit : List Char → Nat} {s : List Char} (hs : s ≠ []) (hu : 0 < unit s) :
    0 < runLength unit 0 s := by
  cases s with
  | nil => contradiction
  | cons c s =>
    rw [runLength]
    split
    next h => omega
    next => exact Nat.succ_pos _

theorem pieces_eq_drop {α : Type} (first : List Char → α × Nat) (n : Nat) (s : List Char) :
    pieces first n s = pieces first 0 (s.drop n) := by
  induction s generalizing n with
  | nil => simp [pieces]
  | cons c s ih =>
    cases n with
    | zero => rfl
    | succ n => simpa [pieces] using ih n

/-- The first piece of a text, and the pieces behind it. -/
theorem pieces_step {α : Type} {first : List Char → α × Nat} {s : List Char}
    (h : 0 < (first s).2) (hs : s ≠ []) : pieces first 0 s =
      ((first s).1, s.take (first s).2) :: pieces first 0 (s.drop (first s).2) := by
  cases s with
  | nil => contradiction
  | cons c s =>
    rw [pieces]
    split
    next a hf => simp [hf] at h
    next a n hf => rw [hf, pieces_eq_drop, List.take_succ_cons, List.drop_succ_cons]

/-- If every piece has some characters, nothing of the text is lost, and nothing is in two pieces. -/
theorem pieces_flatten {α : Type} {first : List Char → α × Nat}
    (h : ∀ s, s ≠ [] → 0 < (first s).2) (n : Nat) (s : List Char) :
    ((pieces first n s).map Prod.snd).flatten = s.drop n := by
  induction s generalizing n with
  | nil => simp [pieces]
  | cons c s ih =>
    cases n with
    | zero =>
      have hpos := h (c :: s) (List.cons_ne_nil c s)
      rw [pieces]
      split
      next a hf => simp [hf] at hpos
      next => simp [ih]
    | succ n => simpa [pieces] using ih n

theorem pieces_ne_nil {α : Type} (first : List Char → α × Nat) (n : Nat) (s : List Char) :
    ∀ p ∈ pieces first n s, p.2 ≠ [] := by
  induction s generalizing n with
  | nil => simp [pieces]
  | cons c s ih =>
    cases n with
    | zero =>
      rw [pieces]
      split
      next => simp
      next => simpa using ih _
    | succ n => simpa [pieces] using ih n

end FontSizeLint.Text

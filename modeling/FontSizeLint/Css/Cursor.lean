import FontSizeLint.Css.Token.Lexer

/-! Going through a text token by token. -/
namespace FontSizeLint.Css
open Text

/-- A place in a text: what is left of it, and the position there. -/
structure Cursor where
  rest : List Char
  position : Position
  deriving DecidableEq

/-- What a reader may be told to read up to. -/
inductive Delimiter
  | semicolon
  | brace
  | closing (b : Bracket)
  deriving DecidableEq

def Delimiter.char : Delimiter → Char
  | semicolon => ';'
  | brace => '{'
  | closing .round => ')'
  | closing .square => ']'
  | closing .curly => '}'

namespace Cursor
variable {c d : Cursor} {t : Token}

def start (s : List Char) : Cursor := ⟨s, .start⟩

def left (c : Cursor) : Nat := c.rest.length

def advance (n : Nat) (c : Cursor) : Cursor := ⟨c.rest.drop n, c.position.advance (c.rest.take n)⟩

/-- The token at a place, and the place behind it. -/
def next? (c : Cursor) : Option (Token × Cursor) :=
  if c.rest.isEmpty then none
  else
    let (kind, n) := Lexer.first c.rest
    some (⟨kind, c.rest.take n, c.position⟩, c.advance n)

theorem exists_of_next? (h : c.next? = some (t, d)) :
    c.rest ≠ [] ∧ d = c.advance (Lexer.first c.rest).2 := by
  rw [next?] at h
  split at h
  next => contradiction
  next hc => exact ⟨by simpa using hc, (Prod.mk.inj (Option.some.inj h)).2.symm⟩

theorem rest_isSuffix_of_next? (h : c.next? = some (t, d)) : d.rest <:+ c.rest := by
  rw [(exists_of_next? h).2]
  exact List.drop_suffix _ _

theorem left_lt_of_next? (h : c.next? = some (t, d)) : d.left < c.left := by
  obtain ⟨hne, rfl⟩ := exists_of_next? h
  have hpos := Lexer.first_pos c.rest
  have hlen := List.length_pos_iff.mpr hne
  rw [left, left, advance, List.length_drop]
  omega

def upTo (c d : Cursor) : List Char := c.rest.take (c.left - d.left)

def meets (stops : List Delimiter) (c : Cursor) : Bool :=
  c.rest.head?.any (stops.map Delimiter.char).contains

/-- Passes over tokens of the given kinds. -/
def skip (kinds : Kind → Bool) (c : Cursor) : Cursor :=
  match _h : c.next? with
  | none => c
  | some (t, d) => if kinds t.kind then d.skip kinds else c
termination_by c.left
decreasing_by exact left_lt_of_next? ‹_›

/-- The brackets that are open behind a token, the innermost first. -/
def nesting (t : Token) (opened : List Bracket) : List Bracket :=
  match t.kind.opens?, opened with
  | some b, bs => b :: bs
  | none, b :: bs => if t.kind == .closing b then bs else b :: bs
  | none, [] => []

/-- Goes on until the given brackets are closed, or the text ends. -/
def leave (opened : List Bracket) (c : Cursor) : Cursor :=
  match _h : c.next? with
  | none => c
  | some (t, d) =>
    match nesting t opened with
    | [] => d
    | b :: bs => d.leave (b :: bs)
termination_by c.left
decreasing_by exact left_lt_of_next? ‹_›

theorem rest_leave_isSuffix (opened : List Bracket) (c : Cursor) : (c.leave opened).rest <:+ c.rest := by
  fun_induction leave opened c with
  | case1 => exact List.suffix_refl _
  | case2 _ _ _ _ h => exact rest_isSuffix_of_next? h
  | case3 _ _ _ _ h _ _ _ ih => exact ih.trans (rest_isSuffix_of_next? h)

/-- Goes on until one of the delimiters comes next, blocks apart, or the text ends. -/
def find (stops : List Delimiter) (c : Cursor) : Cursor :=
  if c.meets stops then c
  else
    match _h : c.next? with
    | none => c
    | some (t, d) =>
      match t.kind.opens? with
      | none => d.find stops
      | some b => (d.leave [b]).find stops
termination_by c.left
decreasing_by
  · exact left_lt_of_next? ‹_›
  · exact Nat.lt_of_le_of_lt (rest_leave_isSuffix _ _).length_le (left_lt_of_next? ‹_›)

end Cursor
end FontSizeLint.Css

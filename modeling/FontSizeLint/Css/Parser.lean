import FontSizeLint.Css.Cursor

/-! Parsers on their way through a text. A reader takes a parser on, and may fail; wherever it is left
then, the parser goes on from there. -/
namespace FontSizeLint.Css
open Text

/-- A parser at a place. It reads no further than to certain delimiters. If a bracket has just been
read, its block is passed over unless it is entered. -/
structure Parser where
  cursor : Cursor
  opened : Option Bracket
  stops : List Delimiter
  deriving DecidableEq

/-- What a reader reads unless it fails, and the parser then. -/
abbrev Reply (α : Type) := Option α × Parser

namespace Parser
variable {α : Type}

def start (s : List Char) : Parser := ⟨.start s, none, []⟩

/-- Passes over the block of a bracket just read. -/
def settle (p : Parser) : Parser :=
  match p.opened with
  | none => p
  | some b => { p with cursor := p.cursor.leave [b], opened := none }

def skip (kinds : Kind → Bool) (p : Parser) : Parser :=
  { p.settle with cursor := p.settle.cursor.skip kinds }

/-- Whether the text ends here, or a delimiter that is not read over. -/
def atEnd (p : Parser) : Bool := p.cursor.rest.isEmpty || p.cursor.meets p.stops

def token (p : Parser) : Reply Token :=
  if p.settle.atEnd then (none, p.settle)
  else
    match p.settle.cursor.next? with
    | none => (none, p.settle)
    | some (t, c) => (some t, ⟨c, t.kind.opens?, p.stops⟩)

def next (p : Parser) : Reply Token := (p.skip Kind.isTrivia).token

def expect (wanted : Token → Bool) (p : Parser) : Reply Token :=
  let (t, q) := p.next
  (t.filter wanted, q)

/-- Reads, or stays where it is. -/
def attempt (read : Parser → Reply α) (p : Parser) : Reply α :=
  match read p with
  | (none, _) => (none, p)
  | (some a, q) => (some a, q)

theorem rest_settle_isSuffix (p : Parser) : p.settle.cursor.rest <:+ p.cursor.rest := by
  rw [settle]
  split
  · exact List.suffix_refl _
  · exact Cursor.rest_leave_isSuffix _ _

theorem left_lt_of_token {p q : Parser} {t : Token} (h : p.token = (some t, q)) :
    q.cursor.left < p.cursor.left := by
  rw [token] at h
  split at h
  · simp at h
  · split at h
    · simp at h
    next u c hc =>
      obtain rfl := (Prod.mk.inj h).2
      exact Nat.lt_of_lt_of_le (Cursor.left_lt_of_next? hc) p.rest_settle_isSuffix.length_le

def drain (p : Parser) : Parser :=
  match _h : p.token with
  | (none, q) => q
  | (some _, q) => q.drain
termination_by p.cursor.left
decreasing_by exact left_lt_of_token ‹_›

/-! What follows gives no result where a parser is asked for what cannot be, as is a block where no
bracket has been read. -/

/-- Reads, and fails if something is left. -/
def wholly (read : Parser → Option (Reply α)) (p : Parser) : Option (Reply α) := do
  let (a, q) ← read p
  return (if q.next.1.isSome then none else a, q)

/-- Reads up to one of the delimiters, and goes on to it. -/
def before (delimiters : List Delimiter) (read : Parser → Option (Reply α)) (p : Parser) :
    Option (Reply α) := do
  let (a, q) ← wholly read { p with stops := delimiters ++ p.stops }
  return (a, ⟨q.settle.cursor.find (delimiters ++ p.stops), none, p.stops⟩)

/-- Reads up to one of the delimiters, and goes on behind it, and behind the block if it is a brace. -/
def through (delimiters : List Delimiter) (read : Parser → Option (Reply α)) (p : Parser) :
    Option (Reply α) := do
  let (a, q) ← p.before delimiters read
  if q.atEnd then return (a, q)
  let c := q.cursor.advance 1
  return (a, { q with cursor := if q.cursor.meets [.brace] then c.leave [.curly] else c })

/-- Reads in the block of a bracket just read, and goes on behind it. -/
def block (read : Parser → Option (Reply α)) (p : Parser) : Option (Reply α) := do
  let b ← p.opened
  let (a, q) ← wholly read ⟨p.cursor, none, [.closing b]⟩
  return (a, ⟨q.settle.cursor.leave [b], none, p.stops⟩)

end Parser

/-- An iteration of a loop: the last one, or one with more behind it. -/
inductive Round (α : Type)
  | last (after : Parser)
  | more (a : α) (after : Parser)

/-- Goes through a loop, in no more than a given number of iterations. -/
def Parser.loopWithin {α : Type} (round : Parser → Option (Round α)) :
    Nat → Parser → Option (List α × Parser)
  | 0, _ => none
  | n + 1, p => do
    match ← round p with
    | .last q => return ([], q)
    | .more a q =>
      let (as, r) ← loopWithin round n q
      return (a :: as, r)

/-- Goes through a loop. There is no result if it takes more iterations than the text has characters
left, and one more that finds the end. -/
def Parser.loop {α : Type} (round : Parser → Option (Round α)) (p : Parser) :
    Option (List α × Parser) :=
  loopWithin round (p.cursor.left + 1) p

end FontSizeLint.Css

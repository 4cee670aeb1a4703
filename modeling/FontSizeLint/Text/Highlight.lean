/-! Terminal colours: a highlighted span of a line and a muted text. -/
namespace FontSizeLint.Text

def magenta : List Char := "\x1b[35m".toList
def brightBlack : List Char := "\x1b[90m".toList

/-- Switches back to the default foreground, and changes nothing else. -/
def plain : List Char := "\x1b[39m".toList

/-- Colours `span` characters of `line` from the offset `start` on, or those there are. An offset
past the end leaves the line as it is. -/
def highlight (line : List Char) (start span : Nat) : List Char :=
  if line.length < start then line
  else line.take start ++ magenta ++ (line.drop start).take span ++ plain ++ line.drop (start + span)

def muted (s : List Char) : List Char := brightBlack ++ s ++ plain

example : highlight "a: 1".toList 3 3 = "a: \x1b[35m1\x1b[39m".toList := by decide

/-! Highlighting by byte offsets. -/

/-- What a text has before and behind a byte offset, if that stands between two characters. -/
def splitAt? (s : String) (o : Nat) : Option (String × String) :=
  if h : (String.Pos.Raw.mk o).IsValid s then
    some ((s.sliceTo ⟨⟨o⟩, h⟩).copy, (s.sliceFrom ⟨⟨o⟩, h⟩).copy)
  else none

/-- Where characters begin, in bytes, the first of them at a given offset. -/
def charOffsets (o : Nat) : List Char → List Nat
  | [] => []
  | c :: s => o :: charOffsets (o + c.utf8Size) s

/-- The byte offset of the character under an index, and of the end of the text under the index behind
the last character. -/
def byteOffset? (s : String) (i : Nat) : Option Nat :=
  (charOffsets 0 s.toList ++ [s.utf8ByteSize])[i]?

/-- Numbers of bytes and of characters are words of 64 bits. -/
def wordLimit : Nat := UInt64.size

def checkedAdd (m n : Nat) : Option Nat := if m + n < wordLimit then some (m + n) else none

def checkedSub (m n : Nat) : Option Nat := if n ≤ m then some (m - n) else none

/-- The bytes of a line from the character under an index on, for as many characters as are asked for
or as there are. There are none for an index past the end. -/
def byteSpan? (line : String) (start count : Nat) : Option (Nat × Nat) :=
  (byteOffset? line start).map fun first =>
    (first, ((checkedAdd start count).bind (byteOffset? line)).getD line.utf8ByteSize)

/-- Colours the span of bytes, and fails if that splits a character or the span ends before it begins. -/
def highlightBytes? (line : String) (start : Nat) (matched : String) : Option String :=
  match byteSpan? line start matched.length with
  | none => some line
  | some (first, stop) => do
    let (head, rest) ← splitAt? line first
    let (target, tail) ← splitAt? rest (← checkedSub stop first)
    some (head ++ String.ofList magenta ++ target ++ String.ofList plain ++ tail)

end FontSizeLint.Text

import FontSizeLint.Text.Line

/-! Positions in a text: the line, and the column in UTF-16 code units, both counted from one. -/
namespace FontSizeLint.Text

structure Position where
  line : Nat
  col : Nat
  deriving DecidableEq, Repr, Inhabited

namespace Position

def start : Position := ⟨1, 1⟩

/-- Code units of a character in UTF-16. -/
def units (c : Char) : Nat := if c.toNat < 0x10000 then 1 else 2

/-- The position behind a piece of text that begins at `p`. -/
def advance (p : Position) : List Char → Position
  | [] => p
  | '\r' :: '\n' :: s => advance ⟨p.line + 1, 1⟩ s
  | c :: s =>
    if isBreak c then advance ⟨p.line + 1, 1⟩ s else advance ⟨p.line, p.col + units c⟩ s

@[simp] theorem advance_nil (p : Position) : p.advance [] = p := rfl

theorem units_pos (c : Char) : 0 < units c := by unfold units; split <;> decide

example : start.advance "a😀\r\nb".toList = ⟨2, 2⟩ := by decide

end Position
end FontSizeLint.Text

/-! Line breaks and the lines of a text. A break is a line feed, a carriage return, a form feed,
or a carriage return and a line feed together. -/
namespace FontSizeLint.Text

def isBreak (c : Char) : Bool := c == '\n' || c == '\r' || c == '\x0c'

/-- Number of characters of the break at the front of the text, zero if there is none. -/
def breakLength : List Char → Nat
  | '\r' :: '\n' :: _ => 2
  | c :: _ => if isBreak c then 1 else 0
  | [] => 0

/-- The lines of a text without their breaks; a text has one line more than breaks. -/
def lines : List Char → List (List Char)
  | [] => [[]]
  | '\r' :: '\n' :: s => [] :: lines s
  | c :: s =>
    if isBreak c then [] :: lines s
    else match lines s with
      | [] => [[c]]
      | l :: ls => (c :: l) :: ls

/-- The line of a given number, counted from one. -/
def line? (s : List Char) : Nat → Option (List Char)
  | 0 => none
  | n + 1 => (lines s)[n]?

theorem lines_ne_nil (s : List Char) : lines s ≠ [] := by
  fun_cases lines s <;> simp_all

@[simp] theorem line?_zero (s : List Char) : line? s 0 = none := rfl

example : lines "a\rb\x0cc\r\nd\n".toList = ["a", "b", "c", "d", ""].map String.toList := by decide

end FontSizeLint.Text

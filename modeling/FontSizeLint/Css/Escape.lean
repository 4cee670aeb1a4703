import FontSizeLint.Text.Line
import FontSizeLint.Text.Scan

/-! Escapes and names. A backslash before hexadecimal digits stands for the character of that
number, before another character for that character. -/
namespace FontSizeLint.Css
open Text

/-- CSS white space: space, tabulator and line breaks. -/
def isSpace (c : Char) : Bool := c == ' ' || c == '\t' || isBreak c

/-- Length of the white space at the front of the text. -/
def spacesLength (s : List Char) : Nat := (s.takeWhile isSpace).length

/-- Length of one unit of white space, a carriage return and line feed being one. -/
def spaceLength : List Char → Nat
  | c :: s => if c == ' ' || c == '\t' then 1 else breakLength (c :: s)
  | [] => 0

def isHex (c : Char) : Bool := c.isDigit || ('a' ≤ c && c ≤ 'f') || ('A' ≤ c && c ≤ 'F')

def hexValue (c : Char) : Nat :=
  if c.isDigit then c.toNat - 48 else if 'a' ≤ c then c.toNat - 87 else c.toNat - 55

def ofHex (s : List Char) : Nat := s.foldl (fun n c => 16 * n + hexValue c) 0

/-- The hexadecimal digits of an escape, six at most. -/
def hexDigits (s : List Char) : List Char := (s.take 6).takeWhile isHex

/-- Stands for whatever has no character of its own. -/
def replacement : Char := '\ufffd'

/-- The character of a number; there is none for zero, a surrogate or a number out of range. -/
def scalar (n : Nat) : Char :=
  if h : n.isValidChar then
    if n = 0 then replacement else Char.ofNatAux n h
  else replacement

/-- Length of the escape behind a backslash. Hexadecimal digits take one white space with them. -/
def escapeLength : List Char → Nat
  | [] => 0
  | c :: s =>
    if isHex c then
      let n := (hexDigits (c :: s)).length
      n + spaceLength ((c :: s).drop n)
    else 1

/-- The character that the escape behind a backslash stands for. -/
def escapeValue : List Char → Char
  | [] => replacement
  | c :: s =>
    if isHex c then scalar (ofHex (hexDigits (c :: s)))
    else if c == '\x00' then replacement else c

/-- The text with its escapes resolved. The counter passes over an escape that has been read. -/
def unescape : Nat → List Char → List Char
  | _, [] => []
  | n + 1, _ :: s => unescape n s
  | 0, c :: s =>
    if c == '\\' then escapeValue s :: unescape (escapeLength s) s
    else (if c == '\x00' then replacement else c) :: unescape 0 s

/-- Letters, the underscore, NUL and everything beyond ASCII. -/
def isNameStart (c : Char) : Bool := c.isAlpha || c == '_' || c == '\x00' || 0x80 ≤ c.toNat

def isNameChar (c : Char) : Bool := isNameStart c || c.isDigit || c == '-'

/-- Whether a name begins here. Behind a hyphen a backslash always counts, also before a break. -/
def startsName : List Char → Bool
  | '-' :: c :: _ => isNameStart c || c == '-' || c == '\\'
  | '\\' :: s => breakLength s == 0
  | c :: _ => isNameStart c
  | [] => false

/-- One character or one escape of a name; a backslash before a break is no escape. -/
def nameUnit : List Char → Nat
  | [] => 0
  | c :: s =>
    if isNameChar c then 1
    else if c == '\\' && breakLength s == 0 then escapeLength s + 1
    else 0

def nameLength (s : List Char) : Nat := runLength nameUnit 0 s

theorem nameLength_le (s : List Char) : nameLength s ≤ s.length := runLength_le _ _ _

theorem nameUnit_pos (s : List Char) : startsName s = true → s ≠ [] ∧ 0 < nameUnit s := by
  fun_cases startsName s with
  | case1 c s => intro _; exact ⟨by simp, by simp [nameUnit, isNameChar]⟩
  | case2 s =>
    intro h
    refine ⟨by simp, ?_⟩
    simp [nameUnit, isNameChar, isNameStart, h]
  | case3 c s _ _ =>
    intro h
    exact ⟨by simp, by simp [nameUnit, isNameChar, h]⟩
  | case4 => simp

theorem nameLength_pos {s : List Char} (h : startsName s = true) : 0 < nameLength s := by
  obtain ⟨hs, hu⟩ := nameUnit_pos s h
  exact runLength_pos hs hu

example : unescape 0 "f\\6f nt\\-\\0".toList = "font-\ufffd".toList := by decide

end FontSizeLint.Css

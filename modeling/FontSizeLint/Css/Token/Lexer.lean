import FontSizeLint.Css.Token

/-! From text to tokens. Every text is cut into tokens without rest; what fits nothing else is a
token of one character. -/
namespace FontSizeLint.Css
open Text

namespace Lexer

def startsDigit : List Char → Bool
  | c :: _ => c.isDigit
  | [] => false

/-- A digit, or a point and a digit. -/
def startsUnsigned : List Char → Bool
  | '.' :: s => startsDigit s
  | s => startsDigit s

def startsNumber : List Char → Bool
  | '+' :: s => startsUnsigned s
  | '-' :: s => startsUnsigned s
  | s => startsUnsigned s

def digitsLength (s : List Char) : Nat := (s.takeWhile Char.isDigit).length

/-- Length of an exponent, zero unless a digit stands in it. -/
def exponentLength : List Char → Nat
  | [] => 0
  | c :: s =>
    if c == 'e' || c == 'E' then
      match s with
      | '+' :: r => if startsDigit r then digitsLength r + 2 else 0
      | '-' :: r => if startsDigit r then digitsLength r + 2 else 0
      | r => if startsDigit r then digitsLength r + 1 else 0
    else 0

/-- Length of a fraction, zero unless a digit follows the point. -/
def fractionLength : List Char → Nat
  | '.' :: s => if startsDigit s then digitsLength s + 1 else 0
  | _ => 0

def unsignedLength (s : List Char) : Nat :=
  let whole := digitsLength s
  let mantissa := whole + fractionLength (s.drop whole)
  mantissa + exponentLength (s.drop mantissa)

def numberLength : List Char → Nat
  | '+' :: s => unsignedLength s + 1
  | '-' :: s => unsignedLength s + 1
  | s => unsignedLength s

def numeric (s : List Char) : Kind × Nat :=
  let n := numberLength s
  match s.drop n with
  | '%' :: _ => (.percentage, n + 1)
  | r => if startsName r then (.dimension, n + nameLength r) else (.number, n)

/-- One character or one escape inside quotes; an escaped break is passed over as well. -/
def stringUnit (quote : Char) : List Char → Nat
  | [] => 0
  | c :: s =>
    if c == quote || isBreak c then 0
    else if c == '\\' then
      (if breakLength s == 0 then escapeLength s else breakLength s) + 1
    else 1

/-- The string behind an opening quote: it ends with its quote or the text. A bare break spoils it
and is not part of it. -/
def quoted (quote : Char) (s : List Char) : Kind × Nat :=
  let n := runLength (stringUnit quote) 0 s
  match s.drop n with
  | [] => (.string, n)
  | c :: _ => if c == quote then (.string, n + 1) else (.badString, n)

/-- Control characters that an address without quotes cannot hold. -/
def isUnprintable (c : Char) : Bool :=
  let n := c.toNat
  (0x01 ≤ n && n ≤ 0x08) || n == 0x0B || (0x0E ≤ n && n ≤ 0x1F) || n == 0x7F

/-- One character or one escape of an address without quotes. -/
def urlUnit : List Char → Nat
  | [] => 0
  | c :: s =>
    if c == '\\' then if breakLength s == 0 then escapeLength s + 1 else 0
    else if isSpace c || c == ')' || c == '(' || c == '"' || c == '\'' || isUnprintable c then 0
    else 1

/-- One character of a spoiled address, or a backslash with the parenthesis or backslash behind. -/
def badUrlUnit : List Char → Nat
  | [] => 0
  | ')' :: _ => 0
  | '\\' :: ')' :: _ => 2
  | '\\' :: '\\' :: _ => 2
  | _ :: _ => 1

/-- Length of a spoiled address up to and with its parenthesis. -/
def badUrlLength (s : List Char) : Nat :=
  let n := runLength badUrlUnit 0 s
  n + (s.drop n).length.min 1

/-- The address behind `url(`, or nothing if it is quoted and so an argument like any other. -/
def url? (s : List Char) : Option (Kind × Nat) :=
  let start := spacesLength s
  match s.drop start with
  | '"' :: _ => none
  | '\'' :: _ => none
  | r =>
    let address := start + runLength urlUnit 0 r
    let stop := address + spacesLength (s.drop address)
    match s.drop stop with
    | [] => some (.url, stop)
    | ')' :: _ => some (.url, stop + 1)
    | _ :: rest => some (.badUrl, stop + 1 + badUrlLength rest)

/-- A name alone, or with a parenthesis a function or an address. -/
def named (s : List Char) : Kind × Nat :=
  let n := nameLength s
  match s.drop n with
  | '(' :: r =>
    if lower (unescape 0 (s.take n)) == ['u', 'r', 'l'] then
      match url? r with
      | some (kind, m) => (kind, n + 1 + m)
      | none => (.function, n + 1)
    else (.function, n + 1)
  | _ => (.ident, n)

/-- Length of a comment behind its opening, up to and with its end. -/
def commentLength : List Char → Nat
  | '*' :: '/' :: _ => 2
  | _ :: s => commentLength s + 1
  | [] => 0

def startsHash : List Char → Bool
  | [] => false
  | c :: s => startsName (c :: s) || c.isDigit || c == '-'

/-- A token that begins with a character of its own. -/
def symbol : List Char → Kind × Nat
  | '"' :: s => let (kind, n) := quoted '"' s; (kind, n + 1)
  | '\'' :: s => let (kind, n) := quoted '\'' s; (kind, n + 1)
  | '#' :: s => if startsHash s then (.hash, nameLength s + 1) else (.delim, 1)
  | '@' :: s => if startsName s then (.atKeyword, nameLength s + 1) else (.delim, 1)
  | '/' :: '*' :: s => (.comment, commentLength s + 2)
  | '<' :: '!' :: '-' :: '-' :: _ => (.cdo, 4)
  | '$' :: '=' :: _ => (.matching, 2)
  | '*' :: '=' :: _ => (.matching, 2)
  | '^' :: '=' :: _ => (.matching, 2)
  | '|' :: '=' :: _ => (.matching, 2)
  | '~' :: '=' :: _ => (.matching, 2)
  | ':' :: _ => (.colon, 1)
  | ';' :: _ => (.semicolon, 1)
  | ',' :: _ => (.comma, 1)
  | '(' :: _ => (.opening .round, 1)
  | '[' :: _ => (.opening .square, 1)
  | '{' :: _ => (.opening .curly, 1)
  | ')' :: _ => (.closing .round, 1)
  | ']' :: _ => (.closing .square, 1)
  | '}' :: _ => (.closing .curly, 1)
  | _ => (.delim, 1)

def startsCdc : List Char → Bool
  | '-' :: '-' :: '>' :: _ => true
  | _ => false

/-- Kind and length of the token at the front of the text. -/
def first (s : List Char) : Kind × Nat :=
  if 0 < spacesLength s then (.whitespace, spacesLength s)
  else if startsNumber s then numeric s
  else if startsCdc s then (.cdc, 3)
  else if startsName s then named s
  else symbol s

theorem digitsLength_pos {s : List Char} (h : startsDigit s = true) : 0 < digitsLength s := by
  cases s with
  | nil => simp [startsDigit] at h
  | cons c s =>
    have hc : c.isDigit = true := h
    simp [digitsLength, hc]

theorem unsignedLength_pos {s : List Char} : startsUnsigned s = true → 0 < unsignedLength s := by
  fun_cases startsUnsigned s with
  | case1 r =>
    intro h
    have hd : digitsLength ('.' :: r) = 0 := rfl
    have hf : 0 < fractionLength ('.' :: r) := by simp [fractionLength, h]
    simp only [unsignedLength, hd, List.drop_zero]
    omega
  | case2 s _ =>
    intro h
    have hd := digitsLength_pos h
    simp only [unsignedLength]
    omega

theorem numberLength_pos {s : List Char} : startsNumber s = true → 0 < numberLength s := by
  fun_cases startsNumber s with
  | case1 r | case2 r => exact fun _ => Nat.succ_pos _
  | case3 s hp hm =>
    intro h
    rw [numberLength]
    · exact unsignedLength_pos h
    · exact hp
    · exact hm

theorem numeric_pos {s : List Char} (h : startsNumber s = true) : 0 < (numeric s).2 := by
  have hn := numberLength_pos h
  fun_cases numeric s <;> simp <;> omega

theorem named_pos {s : List Char} (h : startsName s = true) : 0 < (named s).2 := by
  have hn := nameLength_pos h
  fun_cases named s <;> simp <;> omega

theorem symbol_pos (s : List Char) : 0 < (symbol s).2 := by
  fun_cases symbol s <;> simp

/-- Every token has at least one character. -/
theorem first_pos (s : List Char) : 0 < (first s).2 := by
  fun_cases first s with
  | case1 h => exact h
  | case2 _ h => exact numeric_pos h
  | case3 => exact Nat.succ_pos 2
  | case4 _ _ _ h => exact named_pos h
  | case5 => exact symbol_pos s

/-- Gives each piece of text that begins at `p` its position. -/
def place (p : Position) : List (Kind × List Char) → List Token
  | [] => []
  | (kind, text) :: rest => ⟨kind, text, p⟩ :: place (p.advance text) rest

theorem place_text (p : Position) (ps : List (Kind × List Char)) :
    (place p ps).map Token.text = ps.map Prod.snd := by
  induction ps generalizing p with
  | nil => rfl
  | cons _ _ ih => simp [place, ih]

end Lexer

def tokens (s : List Char) : List Token := Lexer.place .start (pieces Lexer.first 0 s)

/-- The tokens as written make up the text. -/
theorem tokens_flatten (s : List Char) : ((tokens s).map Token.text).flatten = s := by
  simp [tokens, Lexer.place_text, pieces_flatten fun s _ => Lexer.first_pos s]

theorem tokens_text_ne_nil (s : List Char) : ∀ t ∈ tokens s, t.text ≠ [] := by
  intro t ht
  have h : t.text ∈ (pieces Lexer.first 0 s).map Prod.snd := by
    rw [← Lexer.place_text .start]
    exact List.mem_map_of_mem ht
  obtain ⟨p, hp, he⟩ := List.mem_map.mp h
  exact he ▸ pieces_ne_nil _ _ _ p hp

example : (tokens "12.5e1px /**/url( a".toList).map Token.kind =
    [.dimension, .whitespace, .comment, .url] := by decide

end FontSizeLint.Css

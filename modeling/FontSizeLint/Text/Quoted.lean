import FontSizeLint.Text.Unshown

/-! Texts in quotation marks, as messages show them. -/
namespace FontSizeLint.Text

/-- A character inside quotation marks. What cannot be seen is written by name or by number. -/
def quotedChar (c : Char) : List Char :=
  if c == '"' || c == '\\' then ['\\', c]
  else if c == '\n' then ['\\', 'n']
  else if c == '\r' then ['\\', 'r']
  else if c == '\t' then ['\\', 't']
  else if c == '\x00' then ['\\', '0']
  else if isUnshown c then ['\\', 'u', '{'] ++ Nat.toDigits 16 c.toNat ++ ['}']
  else [c]

def quoted (s : List Char) : List Char := '"' :: s.flatMap quotedChar ++ ['"']

end FontSizeLint.Text

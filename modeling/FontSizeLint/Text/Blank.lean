/-! Blank characters, the ones cut off when a text is trimmed, and ASCII lower case. -/
namespace FontSizeLint.Text

/-- The characters with the Unicode property White_Space. -/
def isBlank (c : Char) : Bool :=
  let n := c.toNat
  (0x09 ≤ n && n ≤ 0x0D) || n == 0x20 || n == 0x85 || n == 0xA0 || n == 0x1680 ||
    (0x2000 ≤ n && n ≤ 0x200A) || n == 0x2028 || n == 0x2029 || n == 0x202F || n == 0x205F ||
    n == 0x3000

def trimStart (s : List Char) : List Char := s.dropWhile isBlank

def trimEnd (s : List Char) : List Char := (s.reverse.dropWhile isBlank).reverse

def trim (s : List Char) : List Char := trimEnd (trimStart s)

/-- ASCII letters in lower case, everything else as it is. -/
def lower (s : List Char) : List Char := s.map Char.toLower

@[simp] theorem trim_nil : trim [] = [] := rfl

@[simp] theorem lower_length (s : List Char) : (lower s).length = s.length := by simp [lower]

end FontSizeLint.Text

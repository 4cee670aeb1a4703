import FontSizeLint.Json.Number
import FontSizeLint.Proofs.Numeric.Literal

/-! The grammar of JSON texts, and the values that they denote. The entries of an object stand as
they are written: in that order, and those of one name all of them. -/
namespace FontSizeLint.Json
open Numeric

/-- What may stand around a value, a name or a mark. -/
def blanks : List Char := [' ', '\t', '\n', '\r']

structure Blank where
  text : List Char
  mem_blanks : ∀ c ∈ text, c ∈ blanks

def Blank.none : Blank := ⟨[], by simp⟩

/-- A text between blanks, and what it denotes. -/
structure Padded (α : Type) where
  before : Blank
  core : List Char
  after : Blank
  meaning : α

namespace Padded

variable {α : Type}

def text (p : Padded α) : List Char := p.before.text ++ (p.core ++ p.after.text)

def bare (s : List Char) (a : α) : Padded α := ⟨.none, s, .none, a⟩

lemma text_bare (s : List Char) (a : α) : (bare s a).text = s := List.append_nil s

end Padded

def hexDigits : List (Char × Nat) :=
  ['0', '1', '2', '3', '4', '5', '6', '7', '8', '9', 'a', 'b', 'c', 'd', 'e', 'f'].zipIdx ++
    ['A', 'B', 'C', 'D', 'E', 'F'].zipIdx 10

/-- Four hexadecimal digits. -/
structure Hex4 where
  digits : List (Char × Nat)
  length_eq : digits.length = 4
  isHex : ∀ d ∈ digits, d ∈ hexDigits

namespace Hex4

def text (q : Hex4) : List Char := q.digits.map Prod.fst

lemma length_text (q : Hex4) : q.text.length = 4 := by rw [text, List.length_map, q.length_eq]

def value (q : Hex4) : Nat := q.digits.foldl (fun n d => 16 * n + d.2) 0

def IsLeading (q : Hex4) : Prop := 0xD800 ≤ q.value ∧ q.value ≤ 0xDBFF

def IsTrailing (q : Hex4) : Prop := 0xDC00 ≤ q.value ∧ q.value ≤ 0xDFFF

end Hex4

/-- The escapes of one letter, and the characters that they denote. -/
def letterEscapes : List (Char × Char) :=
  [('"', '"'), ('\\', '\\'), ('/', '/'), ('b', '\x08'), ('f', '\x0c'), ('n', '\n'), ('r', '\r'),
    ('t', '\t')]

/-- What an escape denotes, the backslash left out. -/
inductive DenotesEscape : List Char → Char → Prop
  | letter {e c : Char} (h : (e, c) ∈ letterEscapes) : DenotesEscape [e] c
  | numbered {q : Hex4} (h : q.value.isValidChar) :
    DenotesEscape ('u' :: q.text) (Char.ofNat q.value)
  | surrogates {q r : Hex4} (hq : q.IsLeading) (hr : r.IsTrailing) :
    DenotesEscape ('u' :: (q.text ++ '\\' :: 'u' :: r.text))
      (Char.ofNat (0x10000 + (q.value - 0xD800) * 0x400 + (r.value - 0xDC00)))

/-- One character of a string. -/
inductive DenotesChar : List Char → Char → Prop
  | plain {c : Char} (hc : 0x20 ≤ c.toNat) (hq : c ≠ '"') (hb : c ≠ '\\') : DenotesChar [c] c
  | escaped {e : List Char} {c : Char} (h : DenotesEscape e c) : DenotesChar ('\\' :: e) c

def DenotesString (s : List Char) (t : String) : Prop :=
  ∃ letters, List.Forall₂ DenotesChar letters t.toList ∧ s = '"' :: (letters.flatten ++ ['"'])

/-- The decimal numbers of the grammar: no plus, and digits before and behind a point, of which
only a zero alone begins with zero. -/
structure IsNumber (l : Literal) : Prop where
  sign_ne : l.sign ≠ .plus
  whole_ne : l.whole ≠ []
  zero_alone : ∀ ds, l.whole = 0 :: ds → ds = []
  fraction_ne : l.fraction ≠ some []

/-- The number of a literal, none if it is out of range. -/
def ofLiteral? (l : Literal) : Option Number :=
  Number.Parts.number? l.sign.isNegative
    ⟨digitsText l.whole, l.fraction.map digitsText,
      l.exponent.map fun e => (e.sign.isNegative, digitsText e.digits)⟩

/-- A name and its value. -/
structure Member where
  name : Padded String
  value : Padded Json

namespace Member

def text (m : Member) : List Char := m.name.text ++ ':' :: m.value.text

def entry (m : Member) : String × Json := (m.name.meaning, m.value.meaning)

end Member

/-- `Denotes n s v` says that the text `s` denotes the value `v`, with at most `n` arrays and
objects one within the other. -/
inductive Denotes : Nat → List Char → Json → Prop
  | null {n : Nat} : Denotes n ['n', 'u', 'l', 'l'] .null
  | true {n : Nat} : Denotes n ['t', 'r', 'u', 'e'] (.bool true)
  | false {n : Nat} : Denotes n ['f', 'a', 'l', 's', 'e'] (.bool false)
  | number {n : Nat} {l : Literal} {x : Number} (hl : IsNumber l) (hx : ofLiteral? l = some x) :
    Denotes n l.text (.number x)
  | string {n : Nat} {s : List Char} {t : String} (h : DenotesString s t) : Denotes n s (.string t)
  | emptyArray {n : Nat} (b : Blank) : Denotes (n + 1) ('[' :: (b.text ++ [']'])) (.array [])
  | array {n : Nat} {items : List (Padded Json)} (hne : items ≠ [])
    (h : ∀ p ∈ items, Denotes n p.core p.meaning) :
    Denotes (n + 1) ('[' :: ([','].intercalate (items.map Padded.text) ++ [']']))
      (.array (items.map Padded.meaning))
  | emptyObject {n : Nat} (b : Blank) : Denotes (n + 1) ('{' :: (b.text ++ ['}'])) (.object [])
  | object {n : Nat} {members : List Member} (hne : members ≠ [])
    (hk : ∀ m ∈ members, DenotesString m.name.core m.name.meaning)
    (h : ∀ m ∈ members, Denotes n m.value.core m.value.meaning) :
    Denotes (n + 1) ('{' :: ([','].intercalate (members.map Member.text) ++ ['}']))
      (.object (members.map Member.entry))

/-- The text is one value between blanks, and `v` is that value. -/
def IsText (s : List Char) (v : Json) : Prop :=
  ∃ (p : Padded Json) (n : Nat), p.text = s ∧ p.meaning = v ∧ Denotes n p.core p.meaning

end FontSizeLint.Json

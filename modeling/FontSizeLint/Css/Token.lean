import FontSizeLint.Css.Escape
import FontSizeLint.Text.Position
import FontSizeLint.Text.Blank

/-! Tokens of a style sheet: what kind, as written, and where. -/
namespace FontSizeLint.Css
open Text

inductive Bracket
  | round
  | square
  | curly
  deriving DecidableEq, Repr

inductive Kind
  | whitespace
  | comment
  | ident
  | function
  | atKeyword
  | hash
  | string
  | badString
  | url
  | badUrl
  | number
  | percentage
  | dimension
  | cdo
  | cdc
  | colon
  | semicolon
  | comma
  | opening (bracket : Bracket)
  | closing (bracket : Bracket)
  | matching
  | delim
  deriving DecidableEq, Repr

structure Token where
  kind : Kind
  text : List Char
  position : Position
  deriving DecidableEq, Repr

namespace Kind

/-- White space and comments. -/
def isTrivia : Kind → Bool
  | whitespace => true
  | comment => true
  | _ => false

/-- Numbers, with or without a unit or a percent sign. -/
def isNumeric : Kind → Bool
  | number => true
  | percentage => true
  | dimension => true
  | _ => false

/-- The bracket a token opens; a function opens a round one. -/
def opens? : Kind → Option Bracket
  | opening b => some b
  | function => some .round
  | _ => none

end Kind

namespace Token

/-- Whether the token is one character that has no other role. -/
def isDelim (t : Token) (c : Char) : Bool := t.kind == .delim && t.text == [c]

/-- The name of an identifier or at-keyword, escapes resolved, letters as written. -/
def name (t : Token) : List Char :=
  match t.kind with
  | .ident => unescape 0 t.text
  | .atKeyword => unescape 0 (t.text.drop 1)
  | _ => []

/-- The name in ASCII lower case, in which names are compared. -/
def key (t : Token) : List Char := lower t.name

end Token
end FontSizeLint.Css

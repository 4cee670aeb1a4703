import FontSizeLint.Css.Component
import FontSizeLint.Numeric.Numeral

/-! Declarations and the parts of their values. -/
namespace FontSizeLint.Css
open Text Numeric

/-- One component of a value: its number if it begins with one, the text as written, the place. -/
structure Part where
  value : Option Single
  text : String
  position : Position
  deriving DecidableEq

/-- A property with its value, placed at the property name. The text is the whole value as
written, less a mark of importance. -/
structure Declaration where
  name : String
  text : String
  parts : List Part
  important : Bool
  position : Position
  deriving DecidableEq

def importantWord : List Char := "important".toList

namespace Part

def ofComponent (c : Component) : Part :=
  let text := trim c.text
  let value := if c.head.kind.isNumeric then Numeral.leading? single text else none
  ⟨value, String.ofList text, c.position⟩

/-- Commas and slashes stand between parts and are none. -/
def isSeparator : Component → Bool
  | .leaf t => t.kind == .comma || t.isDelim '/'
  | .block .. => false

def isBang : Component → Bool
  | .leaf t => t.isDelim '!'
  | .block .. => false

def isImportantWord : Component → Bool
  | .leaf t => t.kind == .ident && t.key == importantWord
  | .block .. => false

/-- Takes the marks of importance out, an exclamation mark and the word behind it, and tells
whether there was one. -/
def dropMarks : List Component → List Component × Bool
  | c :: d :: cs =>
    if isBang c && isImportantWord d then ((dropMarks cs).1, true)
    else
      let (rest, marked) := dropMarks (d :: cs)
      (c :: rest, marked)
  | cs => (cs, false)

/-- The parts of a value in source order, and whether it holds a mark of importance. -/
def ofValue (value : List Component) : List Part × Bool :=
  let (cs, marked) := dropMarks (value.filter fun c => !c.isTrivia)
  ((cs.filter fun c => !isSeparator c).map ofComponent, marked)

end Part

/-- What stands before the last occurrence of `!important`, in any ASCII case. -/
def beforeMark? : List Char → Option (List Char)
  | [] => none
  | c :: s =>
    match beforeMark? s with
    | some before => some (c :: before)
    | none => if lower ((c :: s).take 10) == '!' :: importantWord then some [] else none

/-- The text of a value less a mark of importance and all behind it, and whether there is one. -/
def splitMark (value : List Char) : List Char × Bool :=
  let whole := trim value
  match beforeMark? whole with
  | some before => (trimEnd before, true)
  | none => (whole, false)

namespace Declaration

/-- A declaration from its name and the components behind the colon. A mark counts as one if the
components or the text show it. -/
def ofValue (name : Token) (value : List Component) : Declaration :=
  let (parts, marked) := Part.ofValue value
  let (text, cut) := splitMark (Component.textOf value)
  { name := String.ofList name.key
    text := String.ofList text
    parts := parts
    important := marked || cut
    position := name.position }

/-- A statement is a declaration if it is a name, a colon and a value. -/
def ofStatement? : List Component → Option Declaration
  | .leaf t :: rest =>
    if t.kind == .ident then
      match rest.dropWhile Component.isTrivia with
      | .leaf colon :: value => if colon.kind == .colon then some (ofValue t value) else none
      | _ => none
    else none
  | _ => none

end Declaration

/-- Whether a statement begun so is an at-rule, which a block in braces ends. -/
def isAtStatement : List Component → Bool
  | c :: _ => c.isLeaf .atKeyword
  | [] => false

/-- The statements in the body of a block, cut at semicolons and behind the blocks of at-rules.
Trivia before a statement is skipped. `begun` is the statement read so far. -/
def statements (begun : List Component) : List Component → List (List Component)
  | [] => [begun]
  | c :: cs =>
    if c.isLeaf .semicolon then begun :: statements [] cs
    else if isAtStatement begun && c.braced?.isSome then (begun ++ [c]) :: statements [] cs
    else if begun.isEmpty && c.isTrivia then statements [] cs
    else statements (begun ++ [c]) cs

/-- The declarations in the body of a block; other statements say nothing. -/
def declarations (body : List Component) : List Declaration :=
  (statements [] body).filterMap Declaration.ofStatement?

end FontSizeLint.Css

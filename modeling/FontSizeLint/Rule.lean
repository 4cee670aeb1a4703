import FontSizeLint.Css.Declaration
import FontSizeLint.Record
import FontSizeLint.Text.Highlight
import FontSizeLint.Threshold

/-! The rule that font sizes have a minimum, below which dense scripts are hard to read. -/
namespace FontSizeLint
open Text Css

/-- A rule under its name, for one source text, with the least size it accepts. -/
structure Rule where
  name : String
  source : String
  minimum : Threshold

/-- What a rule finds at a part of a value. -/
inductive Finding
  | violation (record : Record)
  /-- The part is too small, but its line is none of the source. -/
  | offSource (line : Nat) (text : String)

namespace Rule

def usualName : String := "min-font-size"

/-- The property that the rule is about. -/
def property : String := "font-size"

def line? (r : Rule) (n : Nat) : Option (List Char) := Text.line? r.source.toList n

/-- The complaint without the line complained about. -/
def stem (r : Rule) : List Char :=
  "font-size should not be less than ".toList ++ r.minimum.text ++ "px".toList

/-- A line in backticks with a complaint behind it. -/
def complaint (line stem : List Char) : String :=
  String.ofList ('`' :: line ++ '`' :: ' ' :: stem)

/-- The record for a part on a given line. The highlighted span is as long as the part, and begins
at its column, which is taken as a count of characters. -/
def record (r : Rule) (part : Part) (line : List Char) : Record where
  ruleName := r.name
  line := part.position.line
  col := part.position.col
  message := complaint line r.stem
  colorMessage :=
    complaint (highlight line (part.position.col - 1) part.text.length) (muted r.stem)

def inspect (r : Rule) (part : Part) : Option Finding :=
  match part.value with
  | none => none
  | some m =>
    if r.minimum.violatedBy m then
      match r.line? part.position.line with
      | some line => some (.violation (r.record part line))
      | none => some (.offSource part.position.line part.text)
    else none

/-- What the rule finds in a declaration, in the order of its parts. -/
def findings (r : Rule) (d : Declaration) : List Finding :=
  if d.name = property then d.parts.filterMap r.inspect else []

end Rule
end FontSizeLint

import FontSizeLint.Css.Declaration

/-! Style sheets: rules with their declarations. At-rules that group rules are dissolved. -/
namespace FontSizeLint.Css
open Text

/-- A rule, with its selector or at-rule as written. -/
structure StyleRule where
  prelude : String
  declarations : List Declaration
  deriving DecidableEq

structure Stylesheet where
  rules : List StyleRule
  deriving DecidableEq

def Stylesheet.declarations (s : Stylesheet) : List Declaration :=
  s.rules.flatMap StyleRule.declarations

/-- At-rules whose block holds rules. -/
def groupNames : List (List Char) :=
  ["media", "supports", "layer", "container", "document"].map String.toList

/-- What has been read of the next rule. -/
inductive Pending
  /-- Nothing, and no rule has been met. -/
  | fresh
  | nothing
  /-- An at-rule of a given name, in lower case. -/
  | atRule (name : List Char) (prelude : List Component)
  | qualified (prelude : List Component)
  /-- An at-rule that says nothing, whatever follows. -/
  | ignored

/-- What the rule list becomes with one more component. -/
inductive Progress
  | reading (p : Pending)
  /-- The component is the block of a rule. -/
  | rule (prelude : List Char)
  /-- The component is a block of rules. -/
  | group
  /-- A rule ends that says nothing. -/
  | dropped

def isBetweenRules (c : Component) : Bool := c.isTrivia || c.isLeaf .cdo || c.isLeaf .cdc

/-- The header of an at-rule that holds declarations. -/
def atHeader (name prelude : List Char) : List Char :=
  if prelude.isEmpty then '@' :: name else '@' :: name ++ ' ' :: prelude

/-- A selector that begins like the declaration of a custom property makes no rule. -/
def isCustomProperty : List Component → Bool
  | .leaf t :: rest =>
    t.kind == .ident && t.name.take 2 == ['-', '-'] &&
      match rest.dropWhile Component.isTrivia with
      | c :: _ => c.isLeaf .colon
      | [] => false
  | _ => false

def written (prelude : List Component) : List Char := trim (Component.textOf prelude)

namespace Pending

def start (first : Bool) : Component → Progress
  | .leaf t =>
    if t.kind == .atKeyword then
      if first && t.key == "charset".toList then .reading .ignored
      else .reading (.atRule t.key [])
    else .reading (.qualified [.leaf t])
  | c => if c.braced?.isSome then .rule [] else .reading (.qualified [c])

def next : Pending → Component → Progress
  | fresh, c => if isBetweenRules c then .reading fresh else start true c
  | nothing, c => if isBetweenRules c then .reading nothing else start false c
  | atRule name prelude, c =>
    if c.isLeaf .semicolon then .dropped
    else if c.braced?.isSome then
      if groupNames.contains name then .group else .rule (atHeader name (written prelude))
    else .reading (atRule name (prelude ++ [c]))
  | qualified prelude, c =>
    if c.braced?.isSome then
      if isCustomProperty prelude then .dropped else .rule (written prelude)
    else .reading (qualified (prelude ++ [c]))
  | ignored, c =>
    if c.isLeaf .semicolon || c.braced?.isSome then .dropped else .reading ignored

end Pending

mutual
def Component.innerRules : Component → List StyleRule
  | .leaf _ => []
  | .block _ body _ => rulesFrom .fresh body
/-- The rules in a list of components; one that the end cuts short of its block says nothing. -/
def rulesFrom (p : Pending) : List Component → List StyleRule
  | [] => []
  | c :: cs =>
    match p.next c with
    | .reading p' => rulesFrom p' cs
    | .rule prelude =>
      ⟨String.ofList prelude, declarations (c.braced?.getD [])⟩ :: rulesFrom .nothing cs
    | .group => c.innerRules ++ rulesFrom .nothing cs
    | .dropped => rulesFrom .nothing cs
end

/-- The style sheet that a text is. Every text is one. -/
def Stylesheet.ofText (css : List Char) : Stylesheet :=
  ⟨rulesFrom .fresh (components (tokens css))⟩

end FontSizeLint.Css

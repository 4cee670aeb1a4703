import FontSizeLint.Css.Token.Lexer

/-! Component values: tokens, and blocks from a bracket to its partner. -/
namespace FontSizeLint.Css
open Text

/-- A token of its own, or a block with its opening token and, unless the text ended before, its
closing one. -/
inductive Component
  | leaf (token : Token)
  | block (opener : Token) (body : List Component) (closer : Option Token)

namespace Component

mutual
def text : Component → List Char
  | leaf t => t.text
  | block o body c => o.text ++ textOf body ++ (c.map Token.text).getD []
def textOf : List Component → List Char
  | [] => []
  | c :: cs => c.text ++ textOf cs
end

@[simp] theorem textOf_append (cs ds : List Component) :
    textOf (cs ++ ds) = textOf cs ++ textOf ds := by
  induction cs with
  | nil => simp [textOf]
  | cons c cs ih => simp [textOf, ih]

def head : Component → Token
  | leaf t => t
  | block o _ _ => o

def position (c : Component) : Position := c.head.position

/-- Whether the component is one token of a given kind. -/
def isLeaf (kind : Kind) : Component → Bool
  | leaf t => t.kind == kind
  | block .. => false

def isTrivia : Component → Bool
  | leaf t => t.kind.isTrivia
  | block .. => false

/-- The components between the braces, for a block in braces. -/
def braced? : Component → Option (List Component)
  | block o body _ => if o.kind == .opening .curly then some body else none
  | leaf _ => none

end Component

/-- Components under construction: those of the innermost open block, the latest first, and for
each open block its opening token with what stands before it. -/
structure Nest where
  current : List Component
  outer : List (Token × List Component)

namespace Nest

def empty : Nest := ⟨[], []⟩

def append (c : Component) (n : Nest) : Nest := { n with current := c :: n.current }

/-- Ends the innermost open block. -/
def close (closer : Option Token) (n : Nest) : Nest :=
  match n.outer with
  | [] => n
  | (opener, before) :: outer => ⟨.block opener n.current.reverse closer :: before, outer⟩

/-- Whether a closing bracket is the partner of the innermost open block. -/
def awaits (b : Bracket) (n : Nest) : Bool :=
  match n.outer with
  | [] => false
  | (opener, _) :: _ => opener.kind.opens? == some b

/-- Takes in one token. A closing bracket without its partner innermost is a token of its own. -/
def push (n : Nest) (t : Token) : Nest :=
  match t.kind.opens? with
  | some _ => ⟨[], (t, n.current) :: n.outer⟩
  | none =>
    match t.kind with
    | .closing b => if n.awaits b then n.close (some t) else n.append (.leaf t)
    | _ => n.append (.leaf t)

/-- Ends the open blocks around `inner`, from the innermost outwards. -/
def closeAll (inner : List Component) : List (Token × List Component) → List Component
  | [] => inner
  | (opener, before) :: outer => closeAll (.block opener inner.reverse none :: before) outer

/-- All components, every open block ended with the text. -/
def finish (n : Nest) : List Component := (closeAll n.current n.outer).reverse

end Nest

def components (ts : List Token) : List Component := (ts.foldl Nest.push .empty).finish

example : (components (tokens "a(b;]c".toList)).map Component.text = ["a(b;]c".toList] := by
  decide +kernel

end FontSizeLint.Css

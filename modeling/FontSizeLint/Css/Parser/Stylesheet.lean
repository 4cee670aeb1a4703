import FontSizeLint.Css.Parser
import FontSizeLint.Css.Stylesheet

/-! Style sheets read in one pass over the text, by three loops: over the parts of a value, over the
items in the body of a block, and over rules. -/
namespace FontSizeLint.Css
open Text Numeric

/-- What an iteration on a value meets. -/
inductive Met
  | mark
  | separator
  | part (p : Part)

namespace Met

def part? : Met → Option Part
  | part p => some p
  | _ => none

def isMark : Met → Bool
  | mark => true
  | _ => false

end Met

namespace Parser
variable {α β : Type}

def mark (p : Parser) : Reply Token :=
  match p.expect (·.isDelim '!') with
  | (none, q) => (none, q)
  | (some _, q) => q.expect fun t => t.kind == .ident && t.key == importantWord

/-- The part from a place, where a token begins, up to the parser. -/
def part (t : Token) (c : Cursor) (p : Parser) : Part :=
  let text := trim (c.upTo p.cursor)
  ⟨if t.kind.isNumeric then Numeral.leading? single text else none, String.ofList text, c.position⟩

def valueRound (p : Parser) : Option (Round Met) := do
  let p := p.skip Kind.isTrivia
  match p.attempt mark with
  | (some _, q) => return .more .mark q
  | (none, p) =>
    match p.next with
    | (none, q) => return .last q
    | (some t, q) =>
      if t.kind == .comma || t.isDelim '/' then return .more .separator q
      if t.kind.opens?.isNone then return .more (.part (q.part t p.cursor)) q
      match ← q.block fun r => return (some (), r.drain) with
      | (none, q) => return .last q
      | (some _, q) => return .more (.part (q.part t p.cursor)) q

def value (name : Token) (p : Parser) : Option (Reply Declaration) := do
  let (ms, q) ← p.loop valueRound
  let (text, cut) := splitMark (p.cursor.upTo q.cursor)
  return (some
    { name := String.ofList name.key
      text := String.ofList text
      parts := ms.filterMap Met.part?
      important := ms.any Met.isMark || cut
      position := name.position }, q)

def declaration (name : Token) (p : Parser) : Option (Reply Declaration) :=
  match p.expect (·.kind == .colon) with
  | (none, q) => some (none, q)
  | (some _, q) => q.value name

def refuse (p : Parser) : Option (Reply α) := some (none, p)

def accept (p : Parser) : Option (Reply Unit) := some (some (), p)

/-- An at-rule behind its name, with a reader for the prelude and one for the block. Without a block it
says nothing. Its prelude ends only where it is read up to. -/
def atRule (prelude : Parser → Option (Reply β)) (body : β → Parser → Option (Reply α)) (p : Parser) :
    Option (Reply α) := do
  let (text, q) ← p.before [.semicolon, .brace] prelude
  match q.next with
  | (none, q) => return (none, q)
  | (some t, q) =>
    match t.kind, text with
    | .semicolon, _ => return (none, q)
    | .opening .curly, some text => q.block (body text)
    | .opening .curly, none => return (none, q)
    | _, _ => none

/-- An iteration on the body of a block: a declaration, something else that is read to its end, or what
may stand between. -/
def bodyRound (p : Parser) : Option (Round (Option Declaration)) := do
  match (p.skip Kind.isTrivia).token with
  | (none, q) => return .last q
  | (some t, q) =>
    match t.kind with
    | .whitespace | .comment | .semicolon | .closing .curly => return .more none q
    | .atKeyword =>
      let (d, q) ← q.atRule accept fun _ => refuse
      return .more d q
    | .ident =>
      let (d, q) ← q.through [.semicolon] (declaration t)
      return .more d q
    | _ =>
      let (d, q) ← q.through [.semicolon] refuse
      return .more d q

def declarations (p : Parser) : Option (Reply (List Declaration)) := do
  let (ds, q) ← p.loop bodyRound
  return (some (ds.filterMap id), q)

def prelude (p : Parser) : Option (Reply (List Char)) :=
  some (some (trim (p.cursor.upTo p.drain.cursor)), p.drain)

/-- A name that begins with two hyphens, and a colon. -/
def customProperty (p : Parser) : Reply Token :=
  match p.expect (·.kind == .ident) with
  | (none, q) => (none, q)
  | (some t, q) =>
    if t.name.take 2 == ['-', '-'] then q.expect (·.kind == .colon) else (none, q)

def styleRule (prelude : List Char) (p : Parser) : Option (Reply (List StyleRule)) := do
  let (ds, q) ← p.declarations
  return (ds.map fun ds => [⟨String.ofList prelude, ds⟩], q)

def qualifiedRule (p : Parser) : Option (Reply (List StyleRule)) := do
  let p := p.skip Kind.isTrivia
  match p.attempt customProperty with
  | (some _, q) =>
    let (_, q) ← q.through [.brace] accept
    return (none, q)
  | (none, p) =>
    let (text, q) ← p.before [.brace] prelude
    match q.expect (·.kind == .opening .curly), text with
    | (some _, q), some text => q.block (styleRule text)
    | (_, q), _ => return (none, q)

def atKeyword (p : Parser) : Reply Token :=
  let (t, q) := p.token
  (t.filter (·.kind == .atKeyword), q)

/-- An iteration on rules, with a reader for the block of a group. Whether it is the first tells how a
character set is read. -/
def ruleRound (group : Parser → Option (Reply (List StyleRule))) (first : Bool) (p : Parser) :
    Option (Round (List StyleRule)) := do
  let p := p.skip fun k => k.isTrivia || k == .cdo || k == .cdc
  if p.atEnd then return .last p
  match p.attempt atKeyword with
  | (some t, q) =>
    if first && t.key == "charset".toList then
      let (_, q) ← q.through [.semicolon, .brace] accept
      return .more [] q
    let (rs, q) ← q.atRule prelude fun text =>
      if groupNames.contains t.key then group else styleRule (atHeader t.key text)
    return .more (rs.getD []) q
  | (none, p) =>
    let (rs, q) ← p.qualifiedRule
    return .more (rs.getD []) q

/-- The rules that come next, in no more than a given number of iterations one behind and within
another. -/
def rulesWithin : Nat → Bool → Parser → Option (Reply (List StyleRule))
  | 0, _, _ => none
  | n + 1, first, p => do
    match ← p.ruleRound (rulesWithin n true) first with
    | .last q => return (some [], q)
    | .more rs q =>
      let (more, q) ← rulesWithin n false q
      return (more.map (rs ++ ·), q)

/-- The rules that come next. There is no result if that takes more iterations than the text has
characters left, and one more that finds the end. -/
def rules (first : Bool) (p : Parser) : Option (Reply (List StyleRule)) :=
  rulesWithin (p.cursor.left + 1) first p

end Parser

/-- The style sheet that is read, if reading ends. -/
def Stylesheet.read? (css : List Char) : Option Stylesheet := do
  let (rules, _) ← (Parser.start css).rules true
  return ⟨← rules⟩

example : (Stylesheet.read? "@media{a{b:1}}c{d:2}".toList).map (·.rules.map StyleRule.prelude) =
    some ["a", "c"] := by
  decide +kernel

end FontSizeLint.Css

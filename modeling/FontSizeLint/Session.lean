import FontSizeLint.Css.Stylesheet
import FontSizeLint.Report
import FontSizeLint.Rule

/-! Sessions: listeners that hear of every declaration, and lists that collect the records of
rules. A name stands for a list; several names, and any number of rules, may share one. -/
namespace FontSizeLint
open Text Css

inductive Level
  | trace
  | debug
  | warn
  deriving DecidableEq

/-- What a session says about its work. -/
inductive Notice
  | enabled (rule : String) (minimum : Threshold)
  | disabled (rule : String)
  | visited (name : String) (position : Position)
  | offSource (rule : String) (line : Nat) (text : String)
  | walked (declarations rules listeners : Nat)

namespace Notice

def level : Notice → Level
  | enabled .. => .debug
  | disabled .. => .debug
  | visited .. => .trace
  | offSource .. => .warn
  | walked .. => .debug

def message : Notice → String
  | enabled rule minimum => rule ++ ": minimum font size " ++ String.ofList minimum.text ++ "px"
  | disabled rule => rule ++ ": no usable threshold configured, skipping"
  | visited name position =>
    "property `" ++ name ++ "` at " ++ toString position.line ++ ":" ++ toString position.col
  | offSource rule line text =>
    rule ++ ": line " ++ toString line ++ " is outside the source, dropping diagnostic for `" ++
      text ++ "`"
  | walked declarations rules listeners =>
    "walked " ++ toString declarations ++ " declarations across " ++ toString rules ++
      " rules for " ++ toString listeners ++ " listeners"

end Notice

/-- What hears of declarations: a rule that collects into a list, or a probe that tells what it
has seen. -/
inductive Listener
  | rule (rule : Rule) (list : Nat)
  | probe (tag : String)

/-- What happens in a session. -/
inductive Effect
  | collect (list : Nat) (record : Record)
  | sighting (tag : String) (declaration : Declaration)
  | notice (n : Notice)

def Listener.hear (d : Declaration) : Listener → List Effect
  | rule r list =>
    (r.findings d).map fun
      | .violation record => .collect list record
      | .offSource line text => .notice (.offSource r.name line text)
  | probe tag => [.sighting tag d]

/-- The lists made so far, the list behind each name, and the listeners in order. -/
structure Session where
  lists : List (List Record)
  names : List (String × Nat)
  listeners : List Listener

/-- One request to a session. -/
inductive Step
  | create (name : String) (records : List Record)
  | share (source name : String)
  | push (name : String) (record : Record)
  | size (name : String)
  | snapshot (name : String)
  | take (name : String)
  | same (name other : String)
  | register (name rule source : String) (minimum : Option Threshold)
  /-- Registers a rule with whatever threshold a configuration value is. -/
  | configure (name rule source : String) (value : Json)
  | listen (tag : String)
  | fire (declaration : Declaration)
  | parse (css : String)
  | render (name : String) (color : Bool)

inductive Reply
  | nothing
  | flag (b : Bool)
  | count (n : Nat)
  | size (length : Nat) (isEmpty : Bool)
  | records (rs : List Record)
  | text (s : String)

structure Outcome where
  session : Session
  reply : Reply
  effects : List Effect

namespace Session

def empty : Session := ⟨[], [], []⟩

/-- The list behind a name. -/
def list? (s : Session) (name : String) : Option Nat :=
  (s.names.find? fun n => n.1 == name).map Prod.snd

def records (s : Session) (list : Nat) : List Record := s.lists[list]?.getD []

def bind (s : Session) (name : String) (list : Nat) : Session :=
  { s with names := (name, list) :: s.names.filter fun n => n.1 != name }

def append (s : Session) (list : Nat) (record : Record) : Session :=
  { s with lists := s.lists.modify list (· ++ [record]) }

/-- The lists after an effect; only collecting changes one. -/
def apply (s : Session) : Effect → Session
  | .collect list record => s.append list record
  | _ => s

/-- What the listeners do about a declaration, each in turn. -/
def hear (s : Session) (d : Declaration) : List Effect := s.listeners.flatMap (Listener.hear d)

def walk (s : Session) (sheet : Stylesheet) : List Effect :=
  (sheet.declarations.flatMap fun d => .notice (.visited d.name d.position) :: s.hear d) ++
    [.notice (.walked sheet.declarations.length sheet.rules.length s.listeners.length)]

/-- Lets effects happen. -/
def perform (s : Session) (reply : Reply) (effects : List Effect) : Outcome :=
  ⟨effects.foldl apply s, reply, effects⟩

/-- Walks a style sheet, and answers how many declarations it has. -/
def visit (s : Session) (sheet : Stylesheet) : Outcome :=
  s.perform (.count sheet.declarations.length) (s.walk sheet)

/-- Answers from the list behind a name; a name that stands for none changes nothing. -/
def withList (s : Session) (name : String) (f : Nat → Outcome) : Outcome :=
  match s.list? name with
  | some list => f list
  | none => ⟨s, .nothing, []⟩

/-- Registers a rule that collects into a list; one without threshold is left out. The answer is
that the list is still the one given. -/
def register (s : Session) (list : Nat) (rule source : String) : Option Threshold → Outcome
  | none => s.perform (.flag true) [.notice (.disabled rule)]
  | some minimum =>
    perform { s with listeners := s.listeners ++ [.rule ⟨rule, source, minimum⟩ list] }
      (.flag true) [.notice (.enabled rule minimum)]

def step (s : Session) : Step → Outcome
  | .create name records =>
    ⟨bind { s with lists := s.lists ++ [records] } name s.lists.length, .nothing, []⟩
  | .share source name => s.withList source fun list => ⟨s.bind name list, .nothing, []⟩
  | .push name record => s.withList name fun list => ⟨s.append list record, .nothing, []⟩
  | .size name =>
    s.withList name fun list =>
      ⟨s, .size (s.records list).length (s.records list).isEmpty, []⟩
  | .snapshot name => s.withList name fun list => ⟨s, .records (s.records list), []⟩
  | .take name =>
    s.withList name fun list =>
      ⟨{ s with lists := s.lists.set list [] }, .records (s.records list), []⟩
  | .same name other =>
    s.withList name fun a => s.withList other fun b => ⟨s, .flag (a == b), []⟩
  | .register name rule source minimum =>
    s.withList name fun list => s.register list rule source minimum
  | .configure name rule source value =>
    s.withList name fun list => s.register list rule source (Threshold.ofJson? value)
  | .listen tag => ⟨{ s with listeners := s.listeners ++ [.probe tag] }, .nothing, []⟩
  | .fire d => s.perform .nothing (s.hear d)
  | .parse css => s.visit (Stylesheet.ofText css.toList)
  | .render name color =>
    s.withList name fun list => ⟨s, .text (Report.render color (s.records list)), []⟩

/-- The outcomes of steps taken one after the other. -/
def run (s : Session) : List Step → List Outcome
  | [] => []
  | x :: xs => s.step x :: run (s.step x).session xs

def sizes (s : Session) : List (String × Nat) :=
  s.names.map fun (name, list) => (name, (s.records list).length)

end Session

/-- What checking one style sheet gives. -/
structure Lint where
  listeners : Nat
  walked : Nat
  records : List Record
  notices : List Notice

def Effect.notice? : Effect → Option Notice
  | .notice n => some n
  | _ => none

/-- Checks a style sheet against itself in a session of its own, with one rule that is configured
by a value. -/
def lint (css name : String) (value : Json) : Lint :=
  let created := (Session.empty.step (.create "" [])).session
  let registered := created.step (.configure "" name css value)
  let sheet := Stylesheet.ofText css.toList
  let visited := registered.session.visit sheet
  { listeners := registered.session.listeners.length
    walked := sheet.declarations.length
    records := visited.session.records 0
    notices := (registered.effects ++ visited.effects).filterMap Effect.notice? }

end FontSizeLint

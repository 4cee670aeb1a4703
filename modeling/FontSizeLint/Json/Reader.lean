import FontSizeLint.Json.Number
import FontSizeLint.Text.Scan

/-! Reading JSON texts. The text is cut into tokens, faulty ones included; the tokens drive a
machine that keeps the arrays and objects begun. The first fault met is the error. -/
namespace FontSizeLint.Json
open Text

inductive Token
  | space
  | mark (c : Char)
  | scalar (value : Json)
  /-- A string that is faulty. -/
  | badString (e : ReadError)
  /-- Any other faulty token. -/
  | badScalar (e : ReadError)

namespace Token

def isSpace (c : Char) : Bool := c == ' ' || c == '\n' || c == '\r' || c == '\t'

def isMark (c : Char) : Bool :=
  c == '[' || c == ']' || c == '{' || c == '}' || c == ',' || c == ':'

def hexValue? (c : Char) : Option Nat :=
  if c.isDigit then some (c.toNat - 48)
  else if 'a' ≤ c && c ≤ 'f' then some (c.toNat - 87)
  else if 'A' ≤ c && c ≤ 'F' then some (c.toNat - 55)
  else none

/-- Four hexadecimal digits. A text of fewer than four bytes has ended, whatever they are. -/
def hex4 (s : List Char) : Except ReadError Nat :=
  if (s.take 4).foldl (fun n c => n + c.utf8Size) 0 < 4 then .error .ended
  else
    match (s.take 4).mapM hexValue? with
    | some ds => .ok (ds.foldl (fun n d => 16 * n + d) 0)
    | none => .error .malformed

/-- The second of two surrogates, behind the first. -/
def trailingSurrogate (s : List Char) : Except ReadError Nat :=
  match s with
  | [] => .error .ended
  | ['\\'] => .error .ended
  | '\\' :: 'u' :: r => do
    let n ← hex4 r
    if 0xDC00 ≤ n && n ≤ 0xDFFF then .ok n else .error .malformed
  | _ => .error .malformed

/-- The character that an escape by number stands for, and the length of the escape behind its
letter. Two surrogates make one character, and one makes none. -/
def numberedChar (s : List Char) : Except ReadError (Char × Nat) := do
  let n ← hex4 s
  if 0xDC00 ≤ n && n ≤ 0xDFFF then .error .malformed
  else if 0xD800 ≤ n && n ≤ 0xDBFF then
    let m ← trailingSurrogate (s.drop 4)
    .ok (Char.ofNat (0x10000 + (n - 0xD800) * 0x400 + (m - 0xDC00)), 10)
  else .ok (Char.ofNat n, 4)

/-- The character of an escape and its length behind the backslash. -/
def escape (s : List Char) : Except ReadError (Char × Nat) :=
  match s with
  | [] => .error .ended
  | '"' :: _ => .ok ('"', 1)
  | '\\' :: _ => .ok ('\\', 1)
  | '/' :: _ => .ok ('/', 1)
  | 'b' :: _ => .ok ('\x08', 1)
  | 'f' :: _ => .ok ('\x0c', 1)
  | 'n' :: _ => .ok ('\n', 1)
  | 'r' :: _ => .ok ('\r', 1)
  | 't' :: _ => .ok ('\t', 1)
  | 'u' :: r => (numberedChar r).map fun (c, n) => (c, n + 1)
  | _ => .error .malformed

/-- The string behind a quotation mark, and its length with the closing mark. The counter passes
over an escape that has been read. -/
def characters : Nat → List Char → Except ReadError (List Char × Nat)
  | _, [] => .error .ended
  | n + 1, _ :: s => (characters n s).map fun (cs, k) => (cs, k + 1)
  | 0, c :: s =>
    if c == '"' then .ok ([], 1)
    else if c.toNat < 0x20 then .error .malformed
    else if c == '\\' then
      match escape s with
      | .error e => .error e
      | .ok (d, n) => (characters n s).map fun (cs, k) => (d :: cs, k + 1)
    else (characters 0 s).map fun (cs, k) => (c :: cs, k + 1)

def word (value : Json) : List Char → List Char → Except ReadError Json
  | [], _ => .ok value
  | _ :: _, [] => .error .ended
  | w :: ws, c :: s => if c = w then word value ws s else .error .malformed

def ofWord (value : Json) (w s : List Char) : Token × Nat :=
  match word value w s with
  | .ok v => (.scalar v, w.length)
  | .error e => (.badScalar e, 1)

/-- The token at the front of the text and its length. -/
def first (s : List Char) : Token × Nat :=
  match s with
  | [] => (.space, 0)
  | c :: r =>
    if isSpace c then (.space, 1)
    else if isMark c then (.mark c, 1)
    else if c == '"' then
      match characters 0 r with
      | .ok (cs, n) => (.scalar (.string (String.ofList cs)), n + 1)
      | .error e => (.badString e, 1)
    else if c == '-' || c.isDigit then
      match Number.read s with
      | .ok (n, k) => (.scalar (.number n), k)
      | .error e => (.badScalar e, 1)
    else if c == 'n' then ofWord .null ['n', 'u', 'l', 'l'] s
    else if c == 't' then ofWord (.bool true) ['t', 'r', 'u', 'e'] s
    else if c == 'f' then ofWord (.bool false) ['f', 'a', 'l', 's', 'e'] s
    else (.badScalar .malformed, 1)

end Token

/-- An array or object that waits for a value. -/
inductive Frame
  | array (items : List Json)
  | object (entries : List (String × Json)) (key : String)

/-- What the reader has to see next; open frames have the innermost first. -/
inductive State
  /-- A value, or the end of an array just begun. -/
  | value (frames : List Frame) (mayEnd : Bool)
  /-- A key, or the end of an object just begun. -/
  | key (entries : List (String × Json)) (frames : List Frame) (mayEnd : Bool)
  | colon (entries : List (String × Json)) (key : String) (frames : List Frame)
  | afterItem (items : List Json) (frames : List Frame)
  | afterEntry (entries : List (String × Json)) (frames : List Frame)
  /-- A value has been read. -/
  | done (v : Json)
  /-- A value has been read, and something that does not belong to it. -/
  | trailing (v : Json)

namespace State

def supply (v : Json) : List Frame → State
  | [] => done v
  | .array items :: frames => afterItem (items ++ [v]) frames
  | .object entries k :: frames => afterEntry (enter k v entries) frames

/-- As many arrays and objects may be open at once. -/
def depthLimit : Nat := 127

def deeper (frames : List Frame) (s : State) : Except ReadError State :=
  if frames.length < depthLimit then .ok s else .error .malformed

def stepValue (frames : List Frame) (mayEnd : Bool) : Token → Except ReadError State
  | .space => .ok (value frames mayEnd)
  | .scalar v => .ok (supply v frames)
  | .badString e => .error e
  | .badScalar e => .error e
  | .mark '[' => deeper frames (value (.array [] :: frames) true)
  | .mark '{' => deeper frames (key [] frames true)
  | .mark ']' =>
    match mayEnd, frames with
    | true, .array items :: outer => .ok (supply (.array items) outer)
    | _, _ => .error .malformed
  | .mark _ => .error .malformed

def stepKey (entries : List (String × Json)) (frames : List Frame) (mayEnd : Bool) :
    Token → Except ReadError State
  | .space => .ok (key entries frames mayEnd)
  | .scalar (.string k) => .ok (colon entries k frames)
  | .badString e => .error e
  | .mark '}' => if mayEnd then .ok (supply (.object entries) frames) else .error .malformed
  | _ => .error .malformed

/-- One more token. -/
def step : State → Token → Except ReadError State
  | value frames mayEnd, t => stepValue frames mayEnd t
  | key entries frames mayEnd, t => stepKey entries frames mayEnd t
  | colon entries k frames, t =>
    match t with
    | .space => .ok (colon entries k frames)
    | .mark ':' => .ok (value (.object entries k :: frames) false)
    | _ => .error .malformed
  | afterItem items frames, t =>
    match t with
    | .space => .ok (afterItem items frames)
    | .mark ',' => .ok (value (.array items :: frames) false)
    | .mark ']' => .ok (supply (.array items) frames)
    | _ => .error .malformed
  | afterEntry entries frames, t =>
    match t with
    | .space => .ok (afterEntry entries frames)
    | .mark ',' => .ok (key entries frames false)
    | .mark '}' => .ok (supply (.object entries) frames)
    | _ => .error .malformed
  | done v, t =>
    match t with
    | .space => .ok (done v)
    | _ => .ok (trailing v)
  | trailing v, _ => .ok (trailing v)

/-- The value read when the text ends, and whether anything stood behind it. -/
def result : State → Except ReadError (Json × Bool)
  | done v => .ok (v, false)
  | trailing v => .ok (v, true)
  | _ => .error .ended

end State

/-- Reads the value at the front of a text, and tells whether anything stands behind it. -/
def readLeading (s : List Char) : Except ReadError (Json × Bool) := do
  (← ((pieces Token.first 0 s).map Prod.fst).foldlM State.step (.value [] false)).result

def read (s : List Char) : Except ReadError Json := do
  match ← readLeading s with
  | (v, false) => .ok v
  | (_, true) => .error .malformed

end FontSizeLint.Json

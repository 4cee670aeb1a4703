import FontSizeLint.Numeric.Binary

/-! JSON values. -/
namespace FontSizeLint
open Numeric

/-- A JSON number is kept as an integer if it is written as one and fits in 64 bits, signed or
not, and as a finite binary number otherwise. -/
inductive Json.Number
  | integer (n : Int)
  | real (x : Double)
  deriving DecidableEq

/-- A JSON value. The entries of an object have an order. -/
inductive Json
  | null
  | bool (b : Bool)
  | number (n : Json.Number)
  | string (s : String)
  | array (items : List Json)
  | object (entries : List (String × Json))

namespace Json

/-- Enters a value under a key into entries sorted by key, in place of one that was there. -/
def enter (key : String) (value : Json) : List (String × Json) → List (String × Json)
  | [] => [(key, value)]
  | (k, v) :: entries =>
    if key = k then (key, value) :: entries
    else if key < k then (key, value) :: (k, v) :: entries
    else (k, v) :: enter key value entries

def get? (key : String) : Json → Option Json
  | object entries => (entries.find? fun e => e.1 == key).map Prod.snd
  | _ => none

end Json
end FontSizeLint

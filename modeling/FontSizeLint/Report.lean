import FontSizeLint.Json.Reader
import FontSizeLint.Record

/-! Reports: records as lines for a terminal, or as a JSON text. -/
namespace FontSizeLint.Report

/-- What is said of a record, with or without colours. -/
def row (color : Bool) (r : Record) : String :=
  "    line " ++ toString r.line ++ ", col " ++ toString r.col ++ ": " ++
    (if color then r.colorMessage else r.message) ++ " (" ++ r.ruleName ++ ")"

def line (color : Bool) (r : Record) : String := row color r ++ "\n"

def render (color : Bool) (records : List Record) : String :=
  String.join (records.map (line color))

def json (records : List Record) : String :=
  String.ofList ((Json.array (records.map Record.toJson)).pretty 0)

/-- Why a text is no list of records. -/
inductive Error
  | unreadable (e : Json.ReadError)
  | notAList (value : Json)
  | badRecord (e : Record.Error)

def ofJson (s : String) : Except Error (List Record) :=
  match Json.read s.toList with
  | .error e => .error (.unreadable e)
  | .ok (.array items) =>
    match items.mapM Record.ofJson with
    | .ok records => .ok records
    | .error e => .error (.badRecord e)
  | .ok value => .error (.notAList value)

end FontSizeLint.Report

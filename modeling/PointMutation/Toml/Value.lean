import PointMutation.Text.Basic
import PointMutation.Number.Double

/-!
# TOML values

A TOML document is a list of statements: headers, and entries that give keys their values. A value
is a scalar, an array or a table, and a table remembers how it came to be, since that decides how
it may be added to.
-/

namespace PointMutation.Toml

abbrev Key := Text

/-- How a table came to be. -/
inductive Origin
  /-- By a header of its own. -/
  | header
  /-- By a header that goes through it. -/
  | passage
  /-- By a key with dots in it. -/
  | dotted
  /-- Written as a value. -/
  | inline
  deriving DecidableEq, Repr

/-- A value. -/
inductive Value
  | string (t : Text)
  | integer (i : Int)
  | float (d : Double)
  | boolean (b : Bool)
  /-- A date, a time, or both, as it is written. -/
  | moment (t : Text)
  | array (items : List Value)
  | table (origin : Origin) (entries : List (Key × Value))
  /-- Tables of the same header one after the other. -/
  | tables (items : List (List (Key × Value)))
  deriving Repr

/-- Keys with their values in the order of the document. -/
abbrev Entries := List (Key × Value)

/-- A statement of a document. -/
inductive Statement
  /-- The entries behind it belong to the table of a path. -/
  | header (path : List Key)
  /-- The entries behind it belong to another table of a path. -/
  | arrayHeader (path : List Key)
  /-- A key, perhaps in a table below, and its value. -/
  | entry (path : List Key) (key : Key) (value : Value)
  deriving Repr

namespace Value

/-- What kind of value it is, in complaints about it. -/
def kind : Value → String
  | string _ => "string"
  | integer _ => "integer"
  | float _ => "float"
  | boolean _ => "boolean"
  | moment _ => "datetime"
  | array _ => "array"
  | table .inline _ => "inline table"
  | table _ _ => "table"
  | tables _ => "array of tables"

end Value

end PointMutation.Toml

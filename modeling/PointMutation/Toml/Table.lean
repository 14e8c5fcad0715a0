import PointMutation.Toml.Value

/-!
# Tables of TOML

The statements of a document are put together into one table. A header opens a table, which may
have been passed through by longer headers before but not opened, and an entry is added to the
table that was opened last. A key with dots leads through tables of its own, which headers do not
reach and which may be added to as long as the table around them is open.
-/

namespace PointMutation.Toml

/-- The value of a key. -/
def find? (k : Key) (es : Entries) : Option Value := es.lookup k

/-- Gives a key that is there already another value, without changing the order. -/
def replaceKey (k : Key) (v : Value) : Entries → Entries
  | [] => []
  | e :: es => if e.1 = k then (k, v) :: es else e :: replaceKey k v es

/-- Takes a key away. -/
def removeKey (k : Key) (es : Entries) : Entries := es.filter fun e => e.1 != k

/-- Whether keys with dots may lead through a table, or headers. -/
def leads (via : Origin) (o : Origin) : Bool :=
  match via, o with
  | _, .inline => false
  | .dotted, .header => false
  | _, _ => true

/-- Changes the last one of some tables. -/
def changeLast (f : Entries → Option Entries) : List Entries → Option (List Entries)
  | [] => none
  | [t] => (f t).map ([·])
  | t :: ts => (changeLast f ts).map (t :: ·)

/-- Changes the table at the end of a path, which is told how it came to be. Tables that are
missing on the way are made. -/
def change (via : Origin) (f : Origin → Entries → Option Entries) :
    List Key → Origin → Entries → Option Entries
  | [], o, es => f o es
  | k :: path, _, es =>
    match find? k es with
    | none => (change via f path via []).map fun t => es ++ [(k, .table via t)]
    | some (.table o t) =>
      if leads via o then (change via f path o t).map fun t => replaceKey k (.table o t) es
      else none
    | some (.tables ts) =>
      (changeLast (change via f path .header) ts).map fun ts => replaceKey k (.tables ts) es
    | some _ => none

/-- Opens the table of a key: one that was not there, or that headers only went through, and which
now comes last. -/
def openTable (k : Key) (es : Entries) : Option Entries :=
  match find? k es with
  | none => some (es ++ [(k, .table .header [])])
  | some (.table .passage t) => some (removeKey k es ++ [(k, .table .header t)])
  | some _ => none

/-- Opens another table of a key. -/
def openNext (k : Key) (es : Entries) : Option Entries :=
  match find? k es with
  | none => some (es ++ [(k, .tables [[]])])
  | some (.tables ts) => some (replaceKey k (.tables (ts ++ [[]])) es)
  | some _ => none

/-- Adds an entry to a table. Only a key with dots reaches the tables that such keys make. -/
def add (path : List Key) (k : Key) (v : Value) (es : Entries) : Option Entries :=
  let put (o : Origin) (es : Entries) : Option Entries :=
    if (o == .dotted) == path.isEmpty then none
    else
      match find? k es with
      | none => some (es ++ [(k, v)])
      | some _ => none
  change .dotted put path .header es

/-- Changes the table that was opened last. -/
def changeOpen (f : Entries → Option Entries) : List Key → Entries → Option Entries
  | [], es => f es
  | k :: path, es =>
    match find? k es with
    | some (.table o t) => (changeOpen f path t).map fun t => replaceKey k (.table o t) es
    | some (.tables ts) =>
      (changeLast (changeOpen f path) ts).map fun ts => replaceKey k (.tables ts) es
    | _ => none

/-- The table of some statements, behind others of which `opened` is the last header. -/
def assembleFrom : List Statement → List Key → Entries → Option Entries
  | [], _, es => some es
  | .header path :: ss, _, es =>
    match path.getLast? with
    | none => none
    | some k =>
      match change .passage (fun _ => openTable k) path.dropLast .header es with
      | some es => assembleFrom ss path es
      | none => none
  | .arrayHeader path :: ss, _, es =>
    match path.getLast? with
    | none => none
    | some k =>
      match change .passage (fun _ => openNext k) path.dropLast .header es with
      | some es => assembleFrom ss path es
      | none => none
  | .entry path k v :: ss, opened, es =>
    match changeOpen (add path k v) opened es with
    | some es => assembleFrom ss opened es
    | none => none

/-- The table of a document. -/
def assemble (ss : List Statement) : Option Entries := assembleFrom ss [] []

/-- The entries of a table that is written as a value. -/
def assembleInline : List (List Key × Key × Value) → Entries → Option Entries
  | [], es => some es
  | (path, k, v) :: ps, es =>
    match add path k v es with
    | some es => assembleInline ps es
    | none => none

end PointMutation.Toml

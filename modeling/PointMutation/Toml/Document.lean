import PointMutation.Toml.Quoted
import PointMutation.Toml.Scalar
import PointMutation.Toml.Table

/-!
# TOML documents

Reads the text of a document: statements, each on a line of its own, with comments and empty lines
between them. Arrays may go on over several lines, tables written as values may not. Values are
nested less than eighty deep, and a key has fewer than eighty parts.
-/

namespace PointMutation.Toml

/-! ## Blanks -/

def isBlank (c : Char) : Bool := c == ' ' || c == '\t'

/-- Passes over spaces and tabs. -/
def skipBlanks (t : Text) : Text := t.dropWhile isBlank

/-- Passes over blanks, line ends and comments, from inside a comment or not. -/
def skipLines : Bool → Text → Option Text
  | _, [] => some []
  | _, '\n' :: r => skipLines false r
  | _, '\r' :: '\n' :: r => skipLines false r
  | true, c :: r => if isPlain c then skipLines true r else none
  | false, c :: r =>
    if isBlank c then skipLines false r
    else if c == '#' then skipLines true r
    else some (c :: r)

/-- Passes over a comment up to the end of its line. -/
def skipComment : Text → Option Text
  | [] => some []
  | '\n' :: r => some r
  | '\r' :: '\n' :: r => some r
  | c :: r => if isPlain c then skipComment r else none

/-- Passes over the rest of a line, which holds nothing but a comment. -/
def endLine (t : Text) : Option Text :=
  match skipBlanks t with
  | [] => some []
  | '\n' :: r => some r
  | '\r' :: '\n' :: r => some r
  | '#' :: r => skipComment r
  | _ => none

/-! ## Keys -/

/-- Reads one part of a key. -/
def readPart (t : Text) : Option (Key × Text) :=
  match t with
  | '"' :: r => readBasic r
  | '\'' :: r => readLiteral r
  | t =>
    if (t.takeWhile isBare).isEmpty then none
    else some (t.takeWhile isBare, t.dropWhile isBare)

/-- Reads a key of up to `fuel` parts with the blanks around them. -/
def readKey : Nat → Text → Option (List Key × Text)
  | 0, _ => none
  | fuel + 1, t =>
    match readPart (skipBlanks t) with
    | none => none
    | some (k, r) =>
      match skipBlanks r with
      | '.' :: r =>
        match readKey fuel r with
        | some (ks, r) => some (k :: ks, r)
        | none => none
      | r => some ([k], r)

/-- The greatest number of parts of a key, and how deep values are nested at most. -/
def mostParts : Nat := 79

/-- A key as its path and its last part. -/
def splitKey (ks : List Key) : Option (List Key × Key) :=
  match ks.getLast? with
  | some k => some (ks.dropLast, k)
  | none => none

/-! ## Values -/

mutual

/-- Reads a value that may hold others `depth` deep. -/
def readValue : Nat → Nat → Text → Option (Value × Text)
  | 0, _, _ => none
  | fuel + 1, depth, t =>
    match t with
    | '[' :: r =>
      if depth = 0 then none
      else
        match readItems fuel (depth - 1) r with
        | some (vs, r) => some (.array vs, r)
        | none => none
    | '\x7b' :: r =>
      if depth = 0 then none
      else
        match readPairs fuel (depth - 1) true r with
        | some (ps, r) => (assembleInline ps []).map fun es => (.table .inline es, r)
        | none => none
    | '"' :: r => (readString ('"' :: r)).map fun (s, r) => (.string s, r)
    | '\'' :: r => (readString ('\'' :: r)).map fun (s, r) => (.string s, r)
    | t => readScalar t

/-- Reads the items of an array up to its end. -/
def readItems : Nat → Nat → Text → Option (List Value × Text)
  | 0, _, _ => none
  | fuel + 1, depth, t =>
    match skipLines false t with
    | some (']' :: r) => some ([], r)
    | some t =>
      match readValue fuel depth t with
      | none => none
      | some (v, r) =>
        match skipLines false r with
        | some (',' :: r) =>
          match readItems fuel depth r with
          | some (vs, r) => some (v :: vs, r)
          | none => none
        | some (']' :: r) => some ([v], r)
        | _ => none
    | none => none

/-- Reads the entries of a table up to its end, of which there is one unless `first`. -/
def readPairs : Nat → Nat → Bool → Text → Option (List (List Key × Key × Value) × Text)
  | 0, _, _, _ => none
  | fuel + 1, depth, first, t =>
    match first, skipBlanks t with
    | true, '\x7d' :: r => some ([], r)
    | _, t =>
      match readKey mostParts t with
      | some (ks, '=' :: r) =>
        match splitKey ks, readValue fuel depth (skipBlanks r) with
        | some (path, k), some (v, r) =>
          match skipBlanks r with
          | ',' :: r =>
            match readPairs fuel depth false r with
            | some (ps, r) => some ((path, k, v) :: ps, r)
            | none => none
          | '\x7d' :: r => some ([(path, k, v)], r)
          | _ => none
        | _, _ => none
      | _ => none

end

/-! ## Statements -/

/-- Reads the closing bracket of a header and the rest of its line. -/
def endHeader (closing : Text) (t : Text) : Option Text :=
  if t.take closing.length = closing then endLine (t.drop closing.length) else none

/-- Reads a statement with the rest of its line. -/
def readStatement (t : Text) : Option (Statement × Text) :=
  match t with
  | '[' :: '[' :: r =>
    match readKey mostParts r with
    | some (ks, r) => (endHeader [']', ']'] r).map fun r => (.arrayHeader ks, r)
    | none => none
  | '[' :: r =>
    match readKey mostParts r with
    | some (ks, r) => (endHeader [']'] r).map fun r => (.header ks, r)
    | none => none
  | t =>
    match readKey mostParts t with
    | some (ks, '=' :: r) =>
      match splitKey ks, readValue (2 * r.length + 2) mostParts (skipBlanks r) with
      | some (path, k), some (v, r) => (endLine r).map fun r => (.entry path k v, r)
      | _, _ => none
    | _ => none

/-- Reads up to `fuel` statements. -/
def readStatements : Nat → Text → Option (List Statement)
  | 0, _ => none
  | fuel + 1, t =>
    match skipLines false t with
    | none => none
    | some [] => some []
    | some t =>
      match readStatement t with
      | none => none
      | some (s, r) => (readStatements fuel r).map (s :: ·)

/-- Reads the statements of a document. A mark of the byte order may stand in front of them. -/
def readDocument (t : Text) : Option (List Statement) :=
  match t with
  | '\ufeff' :: r => readStatements (r.length + 1) r
  | t => readStatements (t.length + 1) t

/-- Reads a document as one table. -/
def read (t : Text) : Option Entries := (readDocument t).bind assemble

/-! ## Writing -/

/-- A number as it is written, which shows that it is no whole number. -/
def writeFloat : Double → Text
  | .nan => "nan".toList
  | .infinite s => (if s then "-inf" else "inf").toList
  | d => d.literal

/-- A key with dots between its parts. -/
def writePath (path : List Key) : Text := ['.'].intercalate (path.map writeKey)

mutual

/-- A value as it is written behind its key. -/
def writeValue : Value → Text
  | .string t => quote t
  | .integer i => (toString i).toList
  | .float d => writeFloat d
  | .boolean b => (if b then "true" else "false").toList
  | .moment t => t
  | .array vs => '[' :: writeItems vs ++ [']']
  | .table _ es => '\x7b' :: writePairs es ++ ['\x7d']
  | .tables ts => '[' :: writeTables ts ++ [']']

/-- Values with commas between them. -/
def writeItems : List Value → Text
  | [] => []
  | [v] => writeValue v
  | v :: vs => writeValue v ++ ',' :: ' ' :: writeItems vs

/-- Keys and values with commas between them. -/
def writePairs : List (Key × Value) → Text
  | [] => []
  | [e] => ' ' :: writePair e ++ [' ']
  | e :: es => ' ' :: writePair e ++ ',' :: writePairs es

/-- A key with its value. -/
def writePair : Key × Value → Text
  | (k, v) => writeKey k ++ " = ".toList ++ writeValue v

/-- Tables with commas between them. -/
def writeTables : List (List (Key × Value)) → Text
  | [] => []
  | [t] => '\x7b' :: writePairs t ++ ['\x7d']
  | t :: ts => '\x7b' :: writePairs t ++ "\x7d, ".toList ++ writeTables ts

end

/-- A statement with its line end. -/
def writeStatement : Statement → Text
  | .header path => '[' :: writePath path ++ [']', '\n']
  | .arrayHeader path => '[' :: '[' :: writePath path ++ [']', ']', '\n']
  | .entry path k v => writePath (path ++ [k]) ++ " = ".toList ++ writeValue v ++ ['\n']

/-- Whether a statement opens a table. -/
def Statement.isHeader : Statement → Bool
  | entry .. => false
  | _ => true

/-- Statements with an empty line in front of each header but the first statement. -/
def write : List Statement → Text
  | [] => []
  | s :: ss =>
    writeStatement s ++ ss.flatMap fun s =>
      if s.isHeader then '\n' :: writeStatement s else writeStatement s

end PointMutation.Toml

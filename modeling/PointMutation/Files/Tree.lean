import PointMutation.Files.Path

/-!
# File trees

A file tree has folders, and files with their contents. It is read and written through paths, which
start from one of its folders. Of a file whose contents are no text only that is known.
-/

namespace PointMutation

/-- The names from the root down to a folder or a file. -/
abbrev Location := List Text

/-- What a file holds. -/
inductive Contents
  | text (t : Text)
  /-- Bytes that are no text. -/
  | binary
  deriving DecidableEq, Repr

/-- Folders and files, and the folder where paths start. -/
structure FileTree where
  start : Location
  folders : List Location
  files : List (Location × Contents)
  deriving DecidableEq, Repr

namespace FileTree

/-- A tree whose only folder is the one where paths start. -/
def empty : FileTree := ⟨[], [], []⟩

def isFolderAt (t : FileTree) (l : Location) : Bool := l.isEmpty || t.folders.contains l

/-- The contents of the file at a location. -/
def contents? (t : FileTree) (l : Location) : Option Contents := t.files.lookup l

def isFileAt (t : FileTree) (l : Location) : Bool := (t.contents? l).isSome

/-! ## Looking up -/

/-- Goes on from a folder by one part of a path. -/
def enter (t : FileTree) (l : Location) (p : Text) : Option Location :=
  if !t.isFolderAt l then none
  else if Path.isStill p then some l
  else if p = Path.up then some l.dropLast
  else if t.isFolderAt (l ++ [p]) || t.isFileAt (l ++ [p]) then some (l ++ [p])
  else none

/-- Where a path starts. -/
def origin (t : FileTree) (p : Text) : Location :=
  match p with
  | '/' :: _ => []
  | _ => t.start

/-- The location that a path leads to, if there is anything. -/
def locate (t : FileTree) (p : Text) : Option Location :=
  if p.isEmpty then none else (Path.parts p).foldlM t.enter (t.origin p)

def isFolder (t : FileTree) (p : Text) : Bool :=
  match t.locate p with
  | some l => t.isFolderAt l
  | none => false

def isFile (t : FileTree) (p : Text) : Bool :=
  match t.locate p with
  | some l => t.isFileAt l
  | none => false

/-- The text of a file. -/
def readText (t : FileTree) (p : Text) : Option Text :=
  match t.locate p with
  | some l =>
    match t.contents? l with
    | some (.text s) => some s
    | _ => none
  | none => none

/-- What is behind a location on the way to another one below it. -/
def below? (l m : Location) : Option Location :=
  if l.length < m.length ∧ m.take l.length = l then some (m.drop l.length) else none

/-- The files at any depth below a folder, by the way to them. -/
def filesBelow (t : FileTree) (l : Location) : List Location :=
  t.files.filterMap fun f => below? l f.1

/-! ## Writing -/

/-- Adds a folder. -/
def addFolder (t : FileTree) (l : Location) : FileTree :=
  if t.isFolderAt l then t else { t with folders := t.folders ++ [l] }

/-- Goes on from a folder by one part of a path, and makes the folder if nothing is there. -/
def enterMaking (l : Location) (p : Text) : StateT FileTree Option Location := fun t =>
  if Path.isStill p || p = Path.up then (t.enter l p).map (·, t)
  else if !t.isFolderAt l || t.isFileAt (l ++ [p]) then none
  else some (l ++ [p], t.addFolder (l ++ [p]))

/-- Whether the last part of a path is a dot, which no new folder can have as its name. -/
def endsInDot (p : Text) : Bool :=
  match (Path.parts p).reverse.dropWhile List.isEmpty with
  | q :: _ => q = Path.here
  | [] => false

/-- Makes the folder of a path with all the folders around it. -/
def makeFolders (t : FileTree) (p : Text) : Option FileTree :=
  if p.isEmpty || t.isFolder p then some t
  else if endsInDot p then none
  else ((Path.parts p).foldlM enterMaking (t.origin p) t).map (·.2)

/-- Gives a file contents. -/
def put (l : Location) (c : Contents) : List (Location × Contents) → List (Location × Contents)
  | [] => [(l, c)]
  | f :: fs => if f.1 = l then (l, c) :: fs else f :: put l c fs

/-- Where a file is to be written: below a folder that is there, and not in place of one. -/
def locateNew (t : FileTree) (p : Text) : Option Location :=
  let name := Path.lastPart p
  if Path.isStill name || name = Path.up then none
  else
    match (Path.parts p).dropLast.foldlM t.enter (t.origin p) with
    | none => none
    | some l => if t.isFolderAt l && !t.isFolderAt (l ++ [name]) then some (l ++ [name]) else none

/-- Writes a file. -/
def writeText (t : FileTree) (p s : Text) : Option FileTree :=
  (t.locateNew p).map fun l => { t with files := put l (.text s) t.files }

/-! ## Making trees -/

/-- Adds all the folders around a location. -/
def addAround (t : FileTree) (l : Location) : FileTree :=
  (List.range l.length).foldl (fun t n => t.addFolder (l.take n)) t

/-- Adds a file with the folders around it. -/
def addFile (t : FileTree) (l : Location) (c : Contents) : FileTree :=
  let t := t.addAround l
  { t with files := put l c t.files }

/-- A tree of folders and files that paths start above. -/
def ofLists (start : Location) (folders : List Location) (files : List (Location × Contents)) :
    FileTree :=
  let t : FileTree := (addAround ⟨start, [], []⟩ start).addFolder start
  let t := folders.foldl (fun t l => (t.addAround (start ++ l)).addFolder (start ++ l)) t
  files.foldl (fun t f => t.addFile (start ++ f.1) f.2) t

end FileTree

end PointMutation

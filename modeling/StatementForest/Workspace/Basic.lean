import StatementForest.Collection.Roll
import StatementForest.Workspace.Path

/-!
# Workspaces

A workspace is a picture of a part of a file system: files with their texts,
directories, and the directory in which a command runs.  A location is the list
of names that leads to an entry from the root.

Main results:

- `Workspace.entryAt?_write`: what was written is found at its place, and nothing else changes.

Current gaps:

- A workspace has neither links nor permissions, and nothing else changes it while a command runs.
-/

namespace StatementForest

/-- The names that lead from the root to an entry. -/
abbrev Location := List String

namespace Location

/-- A location as an absolute path. -/
def render (l : Location) : String := "/" ++ "/".intercalate l

/-- A location and all directories above it, the nearest first. -/
def chain (l : Location) : List Location :=
  (List.range (l.length + 1)).map fun n => l.take (l.length - n)

end Location

/-- What stands at a location. -/
inductive FileEntry where
  /-- A file with its text, unless it holds no text. -/
  | file (text : Option String)
  | directory
  deriving DecidableEq, Inhabited

/-- Whether an entry is a file. -/
def FileEntry.isFile : FileEntry → Bool
  | .file _ => true
  | .directory => false

/-- Why a file cannot be used. -/
inductive FileFault where
  | missing
  | notDirectory
  | isDirectory
  | noText
  deriving DecidableEq, Repr

/-- The message of a file that cannot be used. -/
def FileFault.message : FileFault → String
  | .missing => "No such file or directory (os error 2)"
  | .notDirectory => "Not a directory (os error 20)"
  | .isDirectory => "Is a directory (os error 21)"
  | .noText => "stream did not contain valid UTF-8"

/-- A picture of a part of a file system. -/
structure Workspace where
  /-- The directory in which a command runs. -/
  home : Location := []
  entries : Roll Location FileEntry := {}
  deriving Inhabited

namespace Workspace

/-- What stands at a location.  The root is a directory. -/
def entryAt? (w : Workspace) (l : Location) : Option FileEntry :=
  if l.isEmpty then some .directory else w.entries.find? l

/-- Go on from a location by one part of a path. -/
def step (w : Workspace) (l : Location) (part : PathPart) : Except FileFault Location :=
  match part with
  | .root => .ok []
  | .current => .ok l
  | .parent => if w.entryAt? l = some .directory then .ok l.dropLast else .error .notDirectory
  | .name text =>
    if w.entryAt? l ≠ some .directory then .error .notDirectory
    else if (w.entryAt? (l ++ [text])).isSome then .ok (l ++ [text])
    else .error .missing

/-- The location of an entry that a path leads to. -/
def locate (w : Workspace) (path : String) : Except FileFault Location := do
  if path.isEmpty then throw .missing
  let l ← (Path.parts path).foldlM w.step w.home
  if Path.endsInDirectory path && w.entryAt? l ≠ some .directory then throw .notDirectory
  return l

/-- What a path leads to. -/
def entry? (w : Workspace) (path : String) : Option FileEntry :=
  match w.locate path with
  | .ok l => w.entryAt? l
  | .error _ => none

/-- Whether a path leads to an entry. -/
def contains (w : Workspace) (path : String) : Bool := (w.entry? path).isSome

/-- Whether a path leads to a directory. -/
def isDirectory (w : Workspace) (path : String) : Bool := w.entry? path = some .directory

/-- Whether a path leads to a file. -/
def isFile (w : Workspace) (path : String) : Bool := (w.entry? path).any FileEntry.isFile

/-- The text of an entry. -/
def textOf (e : FileEntry) : Except FileFault String :=
  match e with
  | .file (some text) => .ok text
  | .file none => .error .noText
  | .directory => .error .isDirectory

/-- The text of the file that a path leads to. -/
def read (w : Workspace) (path : String) : Except FileFault String := do
  let l ← w.locate path
  match w.entryAt? l with
  | some e => textOf e
  | none => .error .missing

/-- The files below a directory, as paths that begin with the path of the directory. -/
def filesBelow (w : Workspace) (directory : String) : List String :=
  match w.locate directory with
  | .error _ => []
  | .ok l => w.entries.entries.filterMap fun (m, e) =>
    if e.isFile && List.isPrefixOf l m then
      some ((m.drop l.length).foldl Path.child directory)
    else none

/-- A workspace with a further entry, and with all directories above it. -/
def insert (w : Workspace) (l : Location) (e : FileEntry) : Workspace :=
  { w with
    entries := (l.chain.drop 1).foldl (fun entries m => entries.insertNew m .directory)
      (w.entries.insert l e) }

/-- The location that a path leads to when no links are followed. -/
def lexicalLocation (w : Workspace) (path : String) : Location :=
  (Path.parts path).foldl
    (fun l part =>
      match part with
      | .root => []
      | .current => l
      | .parent => l.dropLast
      | .name text => l ++ [text])
    w.home

/-- Write a file in the directory in which a command runs. -/
def write (w : Workspace) (name text : String) : Except FileFault Workspace :=
  let l := w.home ++ [name]
  if w.entryAt? l = some .directory then .error .isDirectory
  else .ok { w with entries := w.entries.insert l (.file (some text)) }

/-- Writing a file changes what stands at its place, and nothing else. -/
theorem entryAt?_write {w w' : Workspace} {name text : String}
    (h : w.write name text = .ok w') (l : Location) :
    w'.entryAt? l = if l = w.home ++ [name] then some (.file (some text)) else w.entryAt? l := by
  simp only [write] at h
  split at h
  · cases h
  · cases h
    split
    · next heq => simp [entryAt?, heq]
    · next hne =>
      rw [entryAt?, entryAt?, Roll.find?_insert_of_ne _ _ hne]

end Workspace

end StatementForest

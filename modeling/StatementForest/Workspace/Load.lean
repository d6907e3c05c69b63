import StatementForest.Configuration.Codec
import StatementForest.Document.Codec
import StatementForest.Grammar.Codec
import StatementForest.Workspace.Basic

/-!
# Loading files

Documents, grammars and configurations are read from files whose extensions tell
the format.  The configuration of a command is found by looking through the
directory in which it runs and those above it.
-/

namespace StatementForest
namespace Workspace

/-- The text of a file, or a failure that names the path. -/
def readFile (w : Workspace) (path : String) : Except Failure String :=
  match w.read path with
  | .ok text => .ok text
  | .error fault => .error (.file path fault.message)

/-- The format that the extension of a path announces. -/
def formatOf? (path : String) : Option Format := (Path.extension? path).bind Format.ofExtension?

/-- Load a document.  Without a source of its own it is named after its file. -/
def loadDocument (w : Workspace) (path : String) : Except Failure DocumentSpec := do
  let text ← w.readFile path
  match formatOf? path with
  | some .json => named (← DocumentSpec.ofText .json path text)
  | some .yaml => named (← DocumentSpec.ofText .yaml path text)
  | _ => throw (.document path .unsupportedExtension)
where
  /-- The document with a source. -/
  named (spec : DocumentSpec) : Except Failure DocumentSpec :=
    return { spec with source := spec.source.or (Path.fileName? path) }

/-- Load a grammar. -/
def loadGrammar (w : Workspace) (path : String) : Except Failure Grammar := do
  let text ← w.readFile path
  match formatOf? path with
  | some .json => Grammar.ofText .json text
  | some .yaml => Grammar.ofText .yaml text
  | _ => throw (.grammar (.unsupportedExtension path))

/-! ### Configurations -/

/-- Load a configuration and check its codes. -/
def loadConfiguration (w : Workspace) (path : String) : Except Failure Configuration := do
  let text ← w.readFile path
  match formatOf? path with
  | none => throw (.config (.unsupportedExtension path))
  | some format =>
    let c ← Configuration.ofText format path text
    c.validate
    return c

/-- A failure while a configuration was loaded, with the path of its file. -/
def inFile (path : String) : Failure → Failure
  | .config fault => .config (.inFile path fault)
  | .file path' cause =>
    if path = path' then .config (.unreadableFile path cause) else .file path' cause
  | failure => failure

/-- Load the configuration of a command from a file. -/
def configurationFrom (w : Workspace) (path : String) : Except Failure Configuration :=
  (w.loadConfiguration path).mapError (inFile path)

/-- The names of configuration files, those looked for first in front. -/
def configurationNames : List String :=
  [".yangtreerc.json", ".yangtreerc.toml", "yangtree.yaml", "yangtree.yml", "yangtree.json"]

/-- The configuration file that is found first from a location upwards. -/
def nearestConfiguration? (w : Workspace) (l : Location) : Option Location :=
  (l.chain.flatMap fun directory => configurationNames.map (directory ++ [·])).find?
    fun candidate => (w.entryAt? candidate).any FileEntry.isFile

/-- The path of the configuration file that holds for a place. -/
def discover (w : Workspace) (start : String) : Except Failure (Option String) :=
  match w.locate start with
  | .ok l => .ok ((w.nearestConfiguration? l).map Location.render)
  | .error fault => .error (.config (.invalidPath fault.message))

/-- The configuration of a command: the one of a given file, else the nearest one
from a place upwards, else the default. -/
def configuration (w : Workspace) (custom start : Option String) :
    Except Failure Configuration := do
  match custom with
  | some path =>
    if w.contains path then w.configurationFrom path
    else throw (.config (.missingFile path))
  | none =>
    match ← w.discover (start.getD ".") with
    | some path => w.configurationFrom path
    | none => return {}

/-! ### Collecting documents -/

/-- Whether a file found in a directory is taken for a document. -/
def isDocument (path : String) : Bool :=
  let isText := (Path.extension? path).any ["json", "yaml", "yml"].contains
  isText && !(Path.fileName? path).any configurationNames.contains

/-- The documents that a path stands for: itself, or those below a directory. -/
def documentsAt (w : Workspace) (path : String) : Option (List String) :=
  if w.isDirectory path then some ((w.filesBelow path).filter isDocument)
  else if w.isFile path then some [path]
  else none

/-- Leave out every path that has the same parts as the one before it. -/
def dropRepeated : List String → List String
  | [] => []
  | [path] => [path]
  | path :: next :: rest =>
    if Path.parts path = Path.parts next then dropRepeated (path :: rest)
    else path :: dropRepeated (next :: rest)
termination_by paths => paths.length

/-- The documents that several paths stand for, in the order of paths; the first
path without an entry is a failure. -/
def collectDocuments (w : Workspace) (paths : List String) : Except String (List String) := do
  let found ← paths.mapM fun path =>
    match w.documentsAt path with
    | some files => .ok files
    | none => .error path
  return dropRepeated (found.flatten.mergeSort Path.precedes)

end Workspace
end StatementForest

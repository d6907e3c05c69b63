import StatementForest.Finding.Basic

/-!
# Failures

Findings describe problems of the modelled input.  A failure is something else:
a number that names no statement, a change that would break the forest, a file
that cannot be read, or the stop that a caller asked for.

Current gaps:

- The detail about a malformed text is left to its reader.  Only the kind of the failure and the
  file that it names are meant to be exact.
-/

namespace StatementForest

/-- The number of a tree.  It is unbounded here, while a program keeps it in 32 bits: what is said
about numbers holds of a program with fewer than `2 ^ 32` trees. -/
structure RootId where
  index : Nat
  deriving DecidableEq, Repr, Inhabited

/-- The number of the same tree behind `offset` others. -/
def RootId.shift (id : RootId) (offset : Nat) : RootId := ⟨id.index + offset⟩

/-- Why a change of the forest is refused. -/
inductive MutationFault where
  /-- A statement would end up below itself. -/
  | underOwnDescendant (child parent : NodeId)
  /-- The top statement of a tree stays where it is. -/
  | topStatement (node : NodeId)
  /-- The statement to take out is no child of the parent. -/
  | notAChild (child parent : NodeId)
  /-- Only detached statements can be discarded. -/
  | stillInTree (node : NodeId)
  /-- A tree cannot be its own submodule. -/
  | ownSubmodule
  /-- A reason given by a caller. -/
  | refused (reason : String)
  deriving DecidableEq, Repr

/-- The message of a refused change. -/
def MutationFault.message : MutationFault → String
  | .underOwnDescendant child parent =>
    "cannot add " ++ child.render ++ " under its own descendant " ++ parent.render
  | .topStatement node =>
    node.render ++ " is the top statement of a tree and cannot be re-parented"
  | .notAChild child parent => child.render ++ " is not a child of " ++ parent.render
  | .stillInTree node => node.render ++ " is still part of a tree"
  | .ownSubmodule => "a tree root cannot own itself as submodule"
  | .refused reason => reason

/-- The message of a file that could not be read. -/
def fileMessage (path cause : String) : String :=
  "IO error for path '" ++ path ++ "': " ++ cause

/-- Why a configuration is refused. -/
inductive ConfigFault where
  | unknownCode (code : String)
  | unsupportedExtension (path : String)
  | malformed (path detail : String)
  | missingFile (path : String)
  | invalidPath (cause : String)
  /-- The file at `path` holds a configuration that is refused. -/
  | inFile (path : String) (fault : ConfigFault)
  /-- The file at `path` could not be read. -/
  | unreadableFile (path cause : String)
  /-- A reason given by a caller. -/
  | refused (reason : String)
  deriving DecidableEq, Repr

namespace ConfigFault

/-- The message of a refused configuration. -/
def message : ConfigFault → String
  | .unknownCode code => "Unknown finding code: " ++ code
  | .unsupportedExtension path =>
    "Unsupported config file extension (expected .json, .toml, .yaml or .yml): " ++ path
  | .malformed path detail => "Failed to parse '" ++ path ++ "': " ++ detail
  | .missingFile path => "Config file not found: " ++ path
  | .invalidPath cause => "Invalid path: " ++ cause
  | .inFile path fault =>
    "Failed to load config from '" ++ path ++ "': Configuration error: " ++ fault.message
  | .unreadableFile path cause =>
    "Failed to load config from '" ++ path ++ "': " ++ fileMessage path cause
  | .refused reason => reason

/-- Whether the text of a configuration could not be understood at all. -/
def isMalformed : ConfigFault → Bool
  | .malformed .. => true
  | .inFile _ fault => fault.isMalformed
  | _ => false

end ConfigFault

/-- Why a document is refused. -/
inductive DocumentFault where
  | unsupportedExtension
  | malformed (detail : String)
  deriving DecidableEq, Repr

/-- The message of a refused document. -/
def DocumentFault.message : DocumentFault → String
  | .unsupportedExtension => "Unsupported file extension (expected .json, .yaml or .yml)"
  | .malformed detail => detail

/-- Why a grammar is refused. -/
inductive GrammarFault where
  | unsupportedExtension (path : String)
  | malformed (detail : String)
  deriving DecidableEq, Repr

/-- The message of a refused grammar. -/
def GrammarFault.message : GrammarFault → String
  | .unsupportedExtension path => "Unsupported grammar file extension: " ++ path
  | .malformed detail => detail

/-- Why an operation of the library has no result. -/
inductive Failure where
  | config (fault : ConfigFault)
  | file (path cause : String)
  | document (source : String) (fault : DocumentFault)
  | grammar (fault : GrammarFault)
  /-- The number names no live statement. -/
  | nodeNotFound (id : NodeId)
  /-- The number names no tree. -/
  | rootNotFound (id : RootId)
  | invalidMutation (fault : MutationFault)
  /-- The first finding that reaches the severity at which to stop. -/
  | failFast (finding : Finding)
  /-- A reason given by a caller. -/
  | internal (reason : String)
  deriving DecidableEq, Repr

namespace Failure

/-- The message of a failure. -/
def message : Failure → String
  | .config fault => "Configuration error: " ++ fault.message
  | .file path cause => fileMessage path cause
  | .document source fault => "Document error in '" ++ source ++ "': " ++ fault.message
  | .grammar fault => "Grammar error: " ++ fault.message
  | .nodeNotFound id => "Statement node " ++ toString id.index ++ " not found"
  | .rootNotFound id => "Tree root " ++ toString id.index ++ " not found"
  | .invalidMutation fault => "Invalid mutation: " ++ fault.message
  | .failFast finding => "Fail-fast triggered: " ++ finding.render
  | .internal reason => "Internal error: " ++ reason

end Failure

end StatementForest

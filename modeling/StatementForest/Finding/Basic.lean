import StatementForest.Finding.Kind

/-!
# Findings

Problems of the modelled input never stop the library.  Each becomes a finding,
which names what it is about, its kind and a message.  Two findings are the same
when all three agree.
-/

namespace StatementForest

/-- The number of a statement slot.  It is unbounded here, while a program keeps it in 32 bits: what
is said about numbers holds of a program with fewer than `2 ^ 32` slots. -/
structure NodeId where
  index : Nat
  deriving DecidableEq, Repr, Inhabited

namespace NodeId

/-- A statement number as it is written in messages. -/
def render (id : NodeId) : String := "#" ++ toString id.index

/-- The number of the same slot behind `offset` others. -/
def shift (id : NodeId) (offset : Nat) : NodeId := ⟨id.index + offset⟩

end NodeId

/-- Where a document element was written. -/
structure Origin where
  /-- Name of the document. -/
  source : Option String
  /-- Name of the element, with its qualifier. -/
  name : String
  /-- Line of the element, when known. -/
  line : Option Nat
  deriving DecidableEq, Repr

/-- An origin as it is written in reports. -/
def Origin.render (o : Origin) : String :=
  let name := "'" ++ o.name ++ "'"
  match o.source, o.line with
  | some source, some line => source ++ ":" ++ toString line ++ " " ++ name
  | some source, none => source ++ " " ++ name
  | none, some line => "line " ++ toString line ++ " " ++ name
  | none, none => name

/-- What a finding is about. -/
inductive Subject where
  /-- A statement of the forest. -/
  | statement (node : NodeId) (origin : Origin)
  /-- A document element that never became a statement. -/
  | element (origin : Origin)
  /-- Nothing in particular. -/
  | general
  deriving DecidableEq, Repr

namespace Subject

/-- The statement a finding is about. -/
def node? : Subject → Option NodeId
  | .statement node _ => some node
  | _ => none

/-- The document element a finding is about. -/
def origin? : Subject → Option Origin
  | .statement _ origin | .element origin => some origin
  | .general => none

/-- The same subject behind `offset` other statement slots. -/
def shift (offset : Nat) : Subject → Subject
  | .statement node origin => .statement (node.shift offset) origin
  | subject => subject

end Subject

/-- One problem of the input. -/
structure Finding where
  subject : Subject
  kind : FindingKind
  message : String
  deriving DecidableEq, Repr

namespace Finding

/-- The statement a finding is about. -/
def node? (f : Finding) : Option NodeId := f.subject.node?

/-- The same finding behind `offset` other statement slots. -/
def shift (offset : Nat) (f : Finding) : Finding :=
  { f with subject := f.subject.shift offset }

/-- A finding as one line of a report. -/
def render (f : Finding) : String :=
  let headline := "[" ++ f.kind.code ++ "] " ++ f.message
  match f.subject.origin? with
  | some origin => headline ++ " (" ++ origin.render ++ ")"
  | none => headline

end Finding

/-- Add a finding at the end of a list that does not hold it yet. -/
def insertFinding (findings : List Finding) (f : Finding) : List Finding :=
  if f ∈ findings then findings else findings ++ [f]

theorem mem_insertFinding {findings : List Finding} {f g : Finding} :
    g ∈ insertFinding findings f ↔ g ∈ findings ∨ g = f := by
  unfold insertFinding
  split
  · constructor
    · exact .inl
    · rintro (h | rfl) <;> assumption
  · simp

end StatementForest

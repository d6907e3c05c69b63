import StatementForest.Document.Element
import StatementForest.Extension.Rule
import StatementForest.Failure
import StatementForest.Statement.Status

/-!
# The statement store

A store holds the statements of one or more trees in numbered slots.  A
statement owns its children through a list of their numbers, and points back to
its parent and its tree.  The slot of a discarded statement stays empty for
good, so an old number is reported as missing and never means a newer statement.

Main results:

- `Store.get?_update_self`, `Store.get?_update_of_ne`: what an update of one
  statement does to a lookup.
- `Store.get?_alloc_self`, `Store.get?_alloc_of_ne`: what a new statement does to
  a lookup.

Current gaps:

- Numbers of statements and trees are unbounded.  The numbers that are modelled have 32 bits, so a
  store is assumed to have fewer than `2 ^ 32` slots and trees.
-/

namespace StatementForest

/-- A value that a pass keeps with a statement. -/
inductive CustomValue where
  | text (value : String)
  | bool (value : Bool)
  | int (value : Int)
  | list (items : List CustomValue)
  /-- A handle of an object that copies of the statement share. -/
  | shared (handle : Int)
  deriving Inhabited

/-- What a statement is. -/
inductive Variant where
  /-- A statement of the core language. -/
  | core (keyword : Keyword)
  /-- An extension, with the place of the supplier that knows it. -/
  | extension (supplier : Option Nat) (extensionClass : ExtensionClass)
  deriving DecidableEq

/-- One statement. -/
structure Node where
  key : Key
  variant : Variant
  /-- The document element that the statement views. -/
  element : Element
  parent : Option NodeId := none
  root : RootId
  children : List NodeId := []
  namespaceUri : Option String := none
  status : Status := .current
  conformance : Option Conformance := none
  config : Bool := true
  findings : List Finding := []
  data : Dictionary CustomValue := Dictionary.empty
  /-- Position among siblings of the same key, where that has a meaning. -/
  order : Option Nat := none

namespace Node

/-- The keyword of a statement of the core language. -/
def keyword? (n : Node) : Option Keyword :=
  match n.variant with
  | .core k => some k
  | .extension .. => none

/-- Whether a statement is the core statement of a keyword. -/
def isKeyword (n : Node) (k : Keyword) : Bool := n.keyword? == some k

/-- Whether a statement is an extension. -/
def isExtension (n : Node) : Bool := n.keyword?.isNone

/-- The name of a statement as it is written in its document. -/
def name (n : Node) : String := n.element.name

/-- The argument of a statement without blank ends, or the empty text. -/
def argument (n : Node) : String := n.element.argument

/-- The subject of findings about a statement. -/
def subject (n : Node) (id : NodeId) : Subject := .statement id n.element.origin

/-- Whether the position among siblings of the same key has a meaning. -/
def orderMatters (n : Node) : Bool :=
  match n.variant with
  | .core k => k.orderMatters
  | .extension _ c => c.orderMatters

/-- Keep a value with a statement, in place of one under the same name. -/
def setData (n : Node) (name : String) (value : CustomValue) : Node :=
  { n with data := n.data.insert name value }

/-- Add a value to the list kept under a name; what is no list gives way to one. -/
def pushData (n : Node) (name : String) (value : CustomValue) : Node :=
  match n.data.find? name with
  | some (.list items) => n.setData name (.list (items ++ [value]))
  | _ => n.setData name (.list [value])

/-- Forget the value kept under a name. -/
def eraseData (n : Node) (name : String) : Node :=
  { n with data := n.data.erase name }

end Node

/-- One module or submodule tree. -/
structure Tree where
  source : Option String
  top : Option NodeId := none
  /-- The tree of the module that owns a submodule. -/
  owner : Option RootId := none
  /-- The trees of the submodules that a module owns. -/
  submodules : List RootId := []
  conformance : Conformance

/-- All statements of one or more trees. -/
structure Store where
  slots : Array (Option Node) := #[]
  trees : Array Tree := #[]
  deriving Inhabited

/-- An operation on a store.  The store it leaves behind counts also when it fails. -/
abbrev StoreM := ExceptT Failure (StateM Store)

namespace Store

/-! ### Lookup -/

/-- The live statement with a number. -/
def get? (s : Store) (id : NodeId) : Option Node := s.slots[id.index]?.join

/-- The tree with a number. -/
def tree? (s : Store) (id : RootId) : Option Tree := s.trees[id.index]?

/-- The live statement with a number, or the failure that there is none. -/
def node (s : Store) (id : NodeId) : Except Failure Node :=
  match s.get? id with
  | some n => .ok n
  | none => .error (.nodeNotFound id)

/-- The tree with a number, or the failure that there is none. -/
def tree (s : Store) (id : RootId) : Except Failure Tree :=
  match s.tree? id with
  | some t => .ok t
  | none => .error (.rootNotFound id)

/-- Whether a number belongs to a live statement. -/
def contains (s : Store) (id : NodeId) : Bool := (s.get? id).isSome

/-- The numbers of all slots. -/
def slotIds (s : Store) : List NodeId := (List.range s.slots.size).map NodeId.mk

/-- The numbers of all live statements. -/
def liveIds (s : Store) : List NodeId := s.slotIds.filter s.contains

/-- The numbers of all trees. -/
def treeIds (s : Store) : List RootId := (List.range s.trees.size).map RootId.mk

/-- The number of live statements. -/
def size (s : Store) : Nat := s.liveIds.length

/-- The children of a statement; none for a number without a statement. -/
def childrenOf (s : Store) (id : NodeId) : List NodeId :=
  match s.get? id with
  | some n => n.children
  | none => []

/-- The parent of a statement. -/
def parentOf (s : Store) (id : NodeId) : Option NodeId := (s.get? id).bind (·.parent)

/-- The children of a statement that satisfy a test, in order. -/
def childrenWhere (s : Store) (id : NodeId) (p : Node → Bool) : List NodeId :=
  (s.childrenOf id).filter fun c => (s.get? c).any p

/-- The children with a key, in order. -/
def childrenWithKey (s : Store) (id : NodeId) (key : Key) : List NodeId :=
  s.childrenWhere id (·.key == key)

/-- The core children with a keyword, in order. -/
def childrenOfKeyword (s : Store) (id : NodeId) (k : Keyword) : List NodeId :=
  s.childrenWhere id (·.isKeyword k)

/-- The first core child with a keyword. -/
def firstOfKeyword (s : Store) (id : NodeId) (k : Keyword) : Option NodeId :=
  (s.childrenOfKeyword id k).head?

/-- The statement of the first core child with a keyword. -/
def firstNodeOfKeyword (s : Store) (id : NodeId) (k : Keyword) : Option Node :=
  (s.firstOfKeyword id k).bind s.get?

/-- The number of the tree of a statement. -/
def rootOf (s : Store) (id : NodeId) : Option RootId := (s.get? id).map (·.root)

/-- The top statement of a tree. -/
def topOf (s : Store) (root : RootId) : Option NodeId := (s.tree? root).bind (·.top)

/-- The tree of the module that owns a submodule. -/
def ownerOf (s : Store) (root : RootId) : Option RootId := (s.tree? root).bind (·.owner)

/-- The trees of the submodules that a module owns; none for a number without a tree. -/
def submodulesOf (s : Store) (root : RootId) : List RootId :=
  match s.tree? root with
  | some t => t.submodules
  | none => []

/-- Whether a statement is the top of a tree. -/
def isTop (s : Store) (id : NodeId) : Bool := s.trees.any (·.top == some id)

/-! ### Update -/

/-- Change one live statement. -/
def update (s : Store) (id : NodeId) (f : Node → Node) : Store :=
  { s with slots := s.slots.modify id.index (·.map f) }

/-- Change one tree. -/
def updateTree (s : Store) (id : RootId) (f : Tree → Tree) : Store :=
  { s with trees := s.trees.modify id.index f }

/-- Put a new statement into the next slot. -/
def alloc (s : Store) (n : Node) : NodeId × Store :=
  (⟨s.slots.size⟩, { s with slots := s.slots.push (some n) })

/-- Empty a slot for good. -/
def free (s : Store) (id : NodeId) : Store :=
  { s with slots := s.slots.modify id.index fun _ => none }

/-- Add a tree without statements. -/
def addTree (s : Store) (source : Option String) (conformance : Conformance) : RootId × Store :=
  (⟨s.trees.size⟩, { s with trees := s.trees.push { source, conformance } })

/-- Keep a finding with the live statement it is about. -/
def attachFinding (s : Store) (f : Finding) : Store :=
  match f.node? with
  | some id => s.update id fun n => { n with findings := insertFinding n.findings f }
  | none => s

/-! ### Lookup after an update -/

/-- The changed statement is found under its number. -/
theorem get?_update_self (s : Store) (id : NodeId) (f : Node → Node) :
    (s.update id f).get? id = (s.get? id).map f := by
  simp only [get?, update, Array.getElem?_modify]
  rcases h : s.slots[id.index]? with _ | _ | n <;> simp

/-- Other numbers keep their statements when one is changed. -/
theorem get?_update_of_ne (s : Store) {id other : NodeId} (f : Node → Node) (h : other ≠ id) :
    (s.update id f).get? other = s.get? other := by
  have hne : id.index ≠ other.index := fun heq => h (by cases id; cases other; simp_all)
  simp [get?, update, Array.getElem?_modify, hne]

/-- An empty slot has no statement. -/
theorem get?_free_self (s : Store) (id : NodeId) : (s.free id).get? id = none := by
  simp only [get?, free, Array.getElem?_modify]
  rcases h : s.slots[id.index]? with _ | _ | n <;> simp

/-- Other numbers keep their statements when a slot is emptied. -/
theorem get?_free_of_ne (s : Store) {id other : NodeId} (h : other ≠ id) :
    (s.free id).get? other = s.get? other := by
  have hne : id.index ≠ other.index := fun heq => h (by cases id; cases other; simp_all)
  simp [get?, free, Array.getElem?_modify, hne]

/-- A new statement is found under its number. -/
theorem get?_alloc_self (s : Store) (n : Node) :
    (s.alloc n).2.get? (s.alloc n).1 = some n := by
  simp [alloc, get?]

/-- Other numbers keep their statements when one is made. -/
theorem get?_alloc_of_ne (s : Store) (n : Node) {id : NodeId} (h : id ≠ (s.alloc n).1) :
    (s.alloc n).2.get? id = s.get? id := by
  have hne : id.index ≠ s.slots.size := fun heq => h (by cases id; simp_all [alloc])
  simp [alloc, get?, Array.getElem?_push, hne]

/-- Changing a statement keeps the trees. -/
@[simp]
theorem trees_update (s : Store) (id : NodeId) (f : Node → Node) :
    (s.update id f).trees = s.trees := rfl

/-- Changing a statement keeps the number of slots. -/
@[simp]
theorem size_slots_update (s : Store) (id : NodeId) (f : Node → Node) :
    (s.update id f).slots.size = s.slots.size := by
  simp [update]

end Store

namespace StoreM

/-- Read the store in a way that may fail. -/
def query {α : Type} (f : Store → Except Failure α) : StoreM α := do
  match f (← get) with
  | .ok a => pure a
  | .error e => throw e

/-- Read a live statement. -/
def node (id : NodeId) : StoreM Node := query (·.node id)

/-- Read a tree. -/
def tree (id : RootId) : StoreM Tree := query (·.tree id)

/-- Read the children of a live statement. -/
def childrenOf (id : NodeId) : StoreM (List NodeId) := do
  return (← node id).children

/-- Read the children of a live statement that have a key, in order. -/
def childrenWithKey (id : NodeId) (key : Key) : StoreM (List NodeId) := do
  let _ ← node id
  return (← get).childrenWithKey id key

/-- Read the core children of a live statement that have a keyword, in order. -/
def childrenOfKeyword (id : NodeId) (k : Keyword) : StoreM (List NodeId) := do
  let _ ← node id
  return (← get).childrenOfKeyword id k

/-- Change a live statement. -/
def update (id : NodeId) (f : Node → Node) : StoreM Unit := do
  let _ ← node id
  modify (·.update id f)

/-- Change a tree. -/
def updateTree (id : RootId) (f : Tree → Tree) : StoreM Unit := do
  let _ ← tree id
  modify (·.updateTree id f)

/-- Make a statement the top of a tree. -/
def setTop (root : RootId) (top : NodeId) : StoreM Unit :=
  updateTree root fun t => { t with top := some top }

end StoreM

end StatementForest

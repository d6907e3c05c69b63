import StatementForest.Command.Style
import StatementForest.Schema.Basic

/-!
# Outlines of statement trees

A tree is shown with one line for each statement, indented by its depth.  Nodes
of the data model are marked as writable or read-only, statements that are not
current carry their status, and those with findings a mark.

Main results:

- `Outline.length_linesWithin`: an outline has one line for each statement of the subtree.
-/

namespace StatementForest
namespace Outline

/-- The line of the top of a tree. -/
def topLine (coloured : Bool) (n : Node) : String :=
  let uri := match n.namespaceUri with
    | some uri => " (" ++ Style.dimmed.paint coloured uri ++ ")"
    | none => ""
  Style.bold.paint coloured n.key.render ++ " " ++ n.argument ++ uri ++ "\n"

/-- The line of a statement at some depth below the top. -/
def line (coloured : Bool) (depth : Nat) (n : Node) : String :=
  let isDataNode := n.keyword?.any (·.definesSchemaNode)
  let access :=
    if isDataNode then Style.cyan.paint coloured (if n.config then "rw" else "ro") ++ " "
    else ""
  let name :=
    if n.isExtension then Style.magenta.paint coloured n.key.render else n.key.render
  let argument := if n.argument.isEmpty then "" else " " ++ n.argument
  let status :=
    if isDataNode && n.status ≠ .current then
      " [" ++ Style.yellow.paint coloured n.status.text ++ "]"
    else ""
  let mark := if n.findings.isEmpty then "" else " " ++ Style.boldRed.paint coloured "!"
  String.ofList (List.replicate (2 * depth) ' ') ++ access ++ name ++ argument ++ status ++
    mark ++ "\n"

/-- The lines of a statement and of those at most `height` levels below it. -/
def linesWithin (s : Store) (coloured : Bool) : (height depth : Nat) → NodeId → List String
  | 0, _, _ => []
  | height + 1, depth, id =>
    match s.get? id with
    | none => []
    | some n =>
      line coloured depth n ::
        n.children.flatMap (linesWithin s coloured height (depth + 1))

/-- An outline has one line for each statement that a walk of the same height meets, by induction
on the height. -/
theorem length_linesWithin {s : Store} (coloured : Bool) {height : Nat} (depth : Nat)
    {id : NodeId} {below : List NodeId} (h : s.descendantsWithin height id = .ok below) :
    (linesWithin s coloured height depth id).length = below.length := by
  induction height generalizing depth id below with
  | zero => cases h
  | succ height ih =>
    rw [Store.descendantsWithin, Store.node] at h
    rw [linesWithin]
    rcases hn : s.get? id with _ | n
    · rw [hn] at h
      cases h
    have hchildren : ∀ (children : List NodeId) (lists : List (List NodeId)),
        children.mapM (s.descendantsWithin height) = .ok lists →
        (children.flatMap (linesWithin s coloured height (depth + 1))).length =
          lists.flatten.length := by
      intro children
      induction children with
      | nil =>
        intro lists hlists
        cases hlists
        rfl
      | cons c rest ihrest =>
        intro lists hlists
        rw [List.mapM_cons] at hlists
        rcases hc : s.descendantsWithin height c with _ | own
        · rw [hc] at hlists
          cases hlists
        rcases hrest : rest.mapM (s.descendantsWithin height) with _ | others
        · rw [hc, hrest] at hlists
          cases hlists
        rw [hc, hrest] at hlists
        cases hlists
        rw [List.flatMap_cons, List.flatten_cons, List.length_append, List.length_append,
          ih _ hc, ihrest others hrest]
    rcases hlists : n.children.mapM (s.descendantsWithin height) with _ | lists
    · simp only [hn, bind, Except.bind, hlists] at h
      cases h
    · simp only [hn, bind, Except.bind, hlists] at h
      cases h
      rw [List.length_cons, List.length_cons, hchildren n.children lists hlists]

/-- The outline of a tree. -/
def render (s : Store) (coloured : Bool) (top : NodeId) : String :=
  match s.get? top with
  | none => ""
  | some n =>
    topLine coloured n ++
      String.join (n.children.flatMap (linesWithin s coloured s.slots.size 1))

end Outline
end StatementForest

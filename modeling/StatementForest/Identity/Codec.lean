import StatementForest.Identity.Registry
import StatementForest.Statement.Codec

/-!
# The written form of identities

An identity is written with what it is derived from and what is derived from it, a
registry with all of its identities and the cycles among them.
-/

namespace StatementForest
namespace IdentityRegistry

/-- The members that tell of an identity's place among the others. -/
def placeMembers (r : IdentityRegistry) (i : GlobalName) : List (String × Data) :=
  [("statement", .ofNat? ((r.statementOf? i).map (·.index))),
    ("bases", GlobalName.renderAll (r.bases i)),
    ("derivatives", GlobalName.renderAll (r.derivatives i)),
    ("closure", GlobalName.renderAll (r.closure i))]

/-- Write that there is no cycle, or what the first one is. -/
def acyclicData (r : IdentityRegistry) : Data :=
  match r.checkAcyclic Digraph.hasCycle with
  | .ok () => .bool true
  | .error cycle => .text (cycleMessage cycle)

/-- Write all identities and the cycles among them. -/
def toData (r : IdentityRegistry) : Data :=
  .record [("len", .ofNat r.size), ("is_empty", .bool (r.size = 0)),
    ("list", .list (r.entries.map fun e =>
      .record (("identity", e.identity.toData) :: r.placeMembers e.identity))),
    ("cycles", .list (r.cycles.map GlobalName.renderAll)), ("acyclic", r.acyclicData)]

end IdentityRegistry
end StatementForest

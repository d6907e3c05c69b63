import StatementForest.Data.Read
import StatementForest.Data.Shape
import StatementForest.Data.Yaml.Parser

/-!
# What a reader sees of a YAML document

A reader sees the values that it looks at, and at a reference the value of the anchor.
It follows no more references, and goes down no deeper, than the limits allow.  What it
does not look at may be of any size and refer to itself.

Main results:

- `Yaml.select_spends`: a reader follows no more references than it has left, by induction on the
  levels.

Current gaps:

- Only the number of references is counted here.  What a reader sees of a document without
  references is not stated on its own.
-/

namespace StatementForest
namespace Yaml

/-- The deepest nesting of lists and records. -/
def nestingLimit : Nat := 128

/-- There may be this number of times as many references as values. -/
def repetitionLimit : Nat := 100

/-- A step of a reader that has a number of references left to follow. -/
abbrev SelectM := StateT Nat Option

/-- The value that stands at a place of a document. -/
def follow (d : Document) : Node → SelectM Node
  | .reference number => do
    let left ← get
    if left = 0 then failure
    set (left - 1)
    match d.target? number with
    | some value => return value
    | none => failure
  | value => return value

/-- The text of the key of a record member. -/
def keyText (d : Document) (key : Node) : SelectM String := do
  match ← follow d key with
  | .scalar data =>
    match data.asText? with
    | some s => return s
    | none => failure
  | _ => failure

/-- What a reader sees of a value in a record of the shape `around`, where lists and
records may be nested `depth` levels deep. -/
def select (d : Document) : (depth : Nat) → (around shape : Shape) → Node → SelectM Data
  | 0, _, _, value => do
    match ← follow d value with
    | .scalar data => return data
    | _ => failure
  | depth + 1, around, shape, value => do
    match ← follow d value, Shape.within around shape with
    | .scalar data, _ => return data
    | .list items, .list item => return .list (← items.mapM (select d depth around item))
    | .record members, .dictionary item =>
      return .record (← members.mapM fun (key, value) => do
        return (← keyText d key, ← select d depth around item value))
    | .record members, .record fields =>
      return .record (← members.mapM fun (key, value) => do
        let name ← keyText d key
        match fields.lookup name with
        | some field => return (name, ← select d depth (.record fields) field value)
        | none => return (name, .unreadable))
    | _, _ => failure

/-- Read a text for a reader that looks at a value of a shape. -/
def parse (shape : Shape) (s : String) : Option Data := do
  let d ← document? s
  (select d nestingLimit shape shape d.root).run' (repetitionLimit * d.size)

/-! ### References that are left -/

/-- A reader has at most the references left that it had before. -/
def SelectM.Spends {α : Type} (m : SelectM α) : Prop :=
  ∀ left a left', m left = some (a, left') → left' ≤ left

namespace SelectM.Spends

variable {α β : Type}

/-- Returning a value adds no references. -/
theorem pure (a : α) : Spends (Pure.pure a : SelectM α) := by
  rintro left a left' h
  cases h
  exact Nat.le_refl _

/-- Failing adds no references. -/
theorem failure : Spends (Alternative.failure : SelectM α) := by
  rintro left a left' h
  cases h

/-- Two readers that add no references add none one after the other. -/
theorem bind {m : SelectM α} {f : α → SelectM β} (hm : Spends m) (hf : ∀ a, Spends (f a)) :
    Spends (m >>= f) := by
  rintro left b left' h
  obtain ⟨⟨a, between⟩, ha, hb⟩ := Option.bind_eq_some_iff.mp h
  exact Nat.le_trans (hf a between b left' hb) (hm left a between ha)

/-- A row of readers that add no references adds none. -/
theorem mapM {f : α → SelectM β} (hf : ∀ a, Spends (f a)) (items : List α) :
    Spends (items.mapM f) := by
  induction items with
  | nil => exact .pure _
  | cons a items ih =>
    rw [List.mapM_cons]
    exact (hf a).bind fun _ => ih.bind fun _ => .pure _

end SelectM.Spends

/-- Following a reference spends one of those that are left. -/
theorem follow_reference (d : Document) (number left : Nat) :
    follow d (.reference number) (left + 1) = (d.target? number).map (·, left) := by
  simp only [follow]
  rcases d.target? number <;> rfl

/-- Following a value never adds references. -/
theorem follow_spends (d : Document) (value : Node) : (follow d value).Spends := by
  rcases value with data | items | members | number
  case reference =>
    rintro (_ | left) a left' h
    · cases h
    · rw [follow_reference] at h
      obtain ⟨_, _, heq⟩ := Option.map_eq_some_iff.mp h
      cases heq
      exact Nat.le_succ left
  all_goals exact .pure _

/-- Reading a key never adds references. -/
theorem keyText_spends (d : Document) (key : Node) : (keyText d key).Spends := by
  refine (follow_spends d key).bind fun value => ?_
  split
  · split
    · exact .pure _
    · exact .failure
  · exact .failure

/-- Reading a value never adds references, by recursion on the depth. -/
theorem select_spends (d : Document) (depth : Nat) (around shape : Shape) (value : Node) :
    (select d depth around shape value).Spends := by
  induction depth generalizing around shape value with
  | zero =>
    rw [select]
    refine (follow_spends d value).bind fun value => ?_
    split
    · exact .pure _
    · exact .failure
  | succ depth ih =>
    rw [select]
    refine (follow_spends d value).bind fun value => ?_
    split
    · exact .pure _
    · exact (SelectM.Spends.mapM (ih _ _) _).bind fun _ => .pure _
    · refine (SelectM.Spends.mapM (fun m => ?_) _).bind fun _ => .pure _
      exact (keyText_spends d m.1).bind fun _ => (ih _ _ _).bind fun _ => .pure _
    · refine (SelectM.Spends.mapM (fun m => ?_) _).bind fun _ => .pure _
      refine (keyText_spends d m.1).bind fun name => ?_
      split
      · exact (ih _ _ _).bind fun _ => .pure _
      · exact .pure _
    · exact .failure

end Yaml
end StatementForest

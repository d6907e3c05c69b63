/-!
# Shapes

A shape tells what a reader looks at in a value, and so what it passes over.
-/

namespace StatementForest

/-- What a reader looks at in a value. -/
inductive Shape where
  /-- A text, a number, a truth value or one of several words. -/
  | scalar
  | list (item : Shape)
  /-- A record with any member names. -/
  | dictionary (value : Shape)
  /-- A record with some fields.  Its other members are passed over. -/
  | record (fields : List (String × Shape))
  /-- What the reader of the record around looks at. -/
  | enclosing
  deriving Inhabited

namespace Shape

/-- A shape inside of a record that has the shape `around`. -/
def within (around : Shape) : Shape → Shape
  | .enclosing => around
  | shape => shape

end Shape
end StatementForest

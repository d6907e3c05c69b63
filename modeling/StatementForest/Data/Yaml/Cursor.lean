import StatementForest.Data.Yaml.Character

/-!
# Places in YAML text

Structure is shown by indentation, so a reader has to know the column in which it
stands.  It also has to know the line and the number of octets so far, because a key
must be short and stand in one line.

Main results:

- `Yaml.Cursor.skip_skip`: skipping twice is skipping the sum.
-/

namespace StatementForest
namespace Yaml

/-- A place in a text. -/
structure Cursor where
  /-- The text behind the place. -/
  rest : List Char
  /-- The number of octets in front of it. -/
  index : Nat := 0
  line : Nat := 0
  column : Nat := 0

namespace Cursor

/-- The number of octets up to some characters behind a place. -/
def indexAfter (n : Nat) (c : Cursor) : Nat :=
  (c.rest.take n).foldl (fun index d => index + d.utf8Size) c.index

/-- Skip some characters of the line. -/
def skip (n : Nat) (c : Cursor) : Cursor :=
  { c with rest := c.rest.drop n, index := c.indexAfter n, column := c.column + n }

/-- Skipping twice is skipping the sum. -/
theorem skip_skip (m n : Nat) (c : Cursor) : (c.skip m).skip n = c.skip (m + n) := by
  have hindex : (c.skip m).indexAfter n = c.indexAfter (m + n) := by
    simp only [indexAfter, skip, List.take_add, List.foldl_append]
  rw [skip, skip, skip, Cursor.mk.injEq]
  refine ⟨List.drop_drop, hindex, rfl, Nat.add_assoc _ _ _⟩

/-- The beginning of the next line, behind a line break of some characters. -/
def nextLine (n : Nat) (c : Cursor) : Cursor :=
  { rest := c.rest.drop n, index := c.indexAfter n, line := c.line + 1, column := 0 }

/-- Take the line break at a place, if there is one: the character that it stands for
and the beginning of the next line. -/
def takeBreak? (c : Cursor) : Option (Char × Cursor) :=
  match c.rest with
  | '\r' :: '\n' :: _ => some ('\n', c.nextLine 2)
  | b :: _ =>
    if b == '\u2028' || b == '\u2029' then some (b, c.nextLine 1)
    else if isBreak b then some ('\n', c.nextLine 1)
    else none
  | [] => none

/-- The characters of a class at a place, and the place behind them.  No line break is
in the class. -/
def span (inClass : Char → Bool) (c : Cursor) : List Char × Cursor :=
  let run := c.rest.takeWhile inClass
  (run, c.skip run.length)

/-- The place behind the characters of a class. -/
def pass (inClass : Char → Bool) (c : Cursor) : Cursor := (c.span inClass).2

/-- The end of the line, when there is a comment at a place. -/
def passComment (c : Cursor) : Cursor :=
  if c.rest.head? = some '#' then c.pass (!isBreak ·) else c

/-- The beginning of the next line, when nothing but a comment is left of this one. -/
def endLine? (c : Cursor) : Option Cursor :=
  let c := (c.pass isBlank).passComment
  match c.takeBreak? with
  | some (_, next) => some next
  | none => if c.rest.isEmpty then some c else none

/-- Whether a mark that begins or ends a document stands at a place. -/
def isAtMarker (c : Cursor) : Bool := c.column = 0 && isMarker c.rest

end Cursor
end Yaml
end StatementForest

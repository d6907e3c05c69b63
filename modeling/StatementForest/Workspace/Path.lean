import StatementForest.Text.Blank

/-!
# Paths

A path is written with slashes between its parts.  Empty parts do not count, nor
does a dot, except at the very front.  Paths are ordered by their parts: the root
stands before a leading dot, then come two dots, then names.

Main results:

- `Path.splitSlashes_append`, `Path.parts_append`: the parts of a path are those before a slash
  and those behind it.
- `Path.parts_child`: a name below a directory is one part more.
-/

namespace StatementForest

/-- One part of a path. -/
inductive PathPart where
  | root
  | current
  | parent
  | name (text : String)
  deriving DecidableEq, Repr

namespace PathPart

/-- The place of a kind of part in the order of paths. -/
def rank : PathPart → Nat
  | .root => 0
  | .current => 1
  | .parent => 2
  | .name _ => 3

/-- The order of parts. -/
def compare : PathPart → PathPart → Ordering
  | .name a, .name b => Ord.compare a b
  | a, b => Ord.compare a.rank b.rank

end PathPart

namespace Path

/-- Cut a text at every slash. -/
def splitSlashes : List Char → List (List Char)
  | [] => [[]]
  | c :: cs =>
    if c = '/' then [] :: splitSlashes cs
    else
      match splitSlashes cs with
      | [] => [[c]]
      | piece :: pieces => (c :: piece) :: pieces

/-- The part that a piece between slashes stands for, if it counts. -/
def partOf? (piece : List Char) : Option PathPart :=
  match piece with
  | [] | ['.'] => none
  | ['.', '.'] => some .parent
  | piece => some (.name (String.ofList piece))

/-- The parts of a path. -/
def parts (path : String) : List PathPart :=
  let pieces := splitSlashes path.toList
  let front :=
    match pieces with
    | [] :: _ :: _ => [PathPart.root]
    | ['.'] :: _ => [PathPart.current]
    | _ => []
  front ++ pieces.filterMap partOf?

/-- Whether a path can only mean a directory, as its last piece does not count. -/
def endsInDirectory (path : String) : Bool :=
  match (splitSlashes path.toList).getLast? with
  | some [] | some ['.'] => true
  | _ => false

/-- The order of lists of parts. -/
def compareParts : List PathPart → List PathPart → Ordering
  | [], [] => .eq
  | [], _ :: _ => .lt
  | _ :: _, [] => .gt
  | a :: as, b :: bs => (a.compare b).then (compareParts as bs)

/-- Whether a path stands before another or has the same parts. -/
def precedes (a b : String) : Bool := (compareParts (parts a) (parts b)).isLE

/-- The name at the end of a path. -/
def fileName? (path : String) : Option String :=
  match (parts path).getLast? with
  | some (.name text) => some text
  | _ => none

/-- The texts before and after the last dot of a name. -/
def splitLastDot (name : List Char) : Option (List Char × List Char) :=
  (Text.splitChars '.' name.reverse).map fun (after, before) => (before.reverse, after.reverse)

/-- What follows the last dot of the name at the end of a path, unless the name
begins with this dot. -/
def extension? (path : String) : Option String := do
  let (before, after) ← splitLastDot (← fileName? path).toList
  if before.isEmpty then none else return String.ofList after

/-- The paths of the directories on the way to the end of a path. -/
def leading (path : String) : List String :=
  let pieces := (splitSlashes path.toList).map String.ofList
  (List.range pieces.length).filterMap fun n =>
    let front := "/".intercalate (pieces.take n)
    if front.isEmpty then none else some front

/-- A name below a directory. -/
def child (directory name : String) : String :=
  if directory.toList.getLast? = some '/' then directory ++ name
  else directory ++ "/" ++ name

/-- Some piece is always left, and it is empty only if it is followed by others or the text is
empty. -/
theorem splitSlashes_eq_cons (cs : List Char) : ∃ piece pieces,
    splitSlashes cs = piece :: pieces ∧ (piece = [] → pieces = [] → cs = []) := by
  induction cs with
  | nil => exact ⟨[], [], rfl, fun _ _ => rfl⟩
  | cons c cs ih =>
    obtain ⟨piece, pieces, hpieces, -⟩ := ih
    rw [splitSlashes]
    split
    · exact ⟨[], splitSlashes cs, rfl, fun _ h => by rw [hpieces] at h; cases h⟩
    · rw [hpieces]
      exact ⟨c :: piece, pieces, rfl, fun h => by cases h⟩

/-- The pieces around a slash are those before it and those behind it. -/
theorem splitSlashes_append (cs ds : List Char) :
    splitSlashes (cs ++ '/' :: ds) = splitSlashes cs ++ splitSlashes ds := by
  induction cs with
  | nil => rfl
  | cons c cs ih =>
    obtain ⟨piece, pieces, hpieces, -⟩ := splitSlashes_eq_cons cs
    rw [List.cons_append, splitSlashes, splitSlashes, ih, hpieces]
    split <;> rfl

/-- A text without slashes is one piece. -/
theorem splitSlashes_of_not_mem {cs : List Char} (h : '/' ∉ cs) : splitSlashes cs = [cs] := by
  induction cs with
  | nil => rfl
  | cons c cs ih =>
    rw [List.mem_cons, not_or] at h
    rw [splitSlashes, if_neg (Ne.symm h.1), ih h.2]

/-- A piece behind a slash is a further part, if it counts. -/
theorem parts_append (front back : List Char) (h : front ≠ []) (hback : '/' ∉ back) :
    parts (String.ofList (front ++ '/' :: back)) =
      parts (String.ofList front) ++ (partOf? back).toList := by
  obtain ⟨piece, pieces, hpieces, hempty⟩ := splitSlashes_eq_cons front
  have hpart : [back].filterMap partOf? = (partOf? back).toList := by
    rw [List.filterMap_cons, List.filterMap_nil]
    rcases partOf? back <;> rfl
  simp only [parts, String.toList_ofList]
  rw [splitSlashes_append, splitSlashes_of_not_mem hback, hpieces, List.filterMap_append, hpart,
    ← List.append_assoc]
  congr 2
  rcases piece with _ | ⟨c, rest⟩
  · rcases pieces with _ | ⟨second, pieces⟩
    · exact absurd (hempty rfl rfl) h
    · rfl
  · rw [List.cons_append]
    split <;> split <;> simp_all

/-- The parts of a path to a name below a directory are those of the directory and the name. -/
theorem parts_child {directory name : String} (h : directory ≠ "") (hslash : '/' ∉ name.toList)
    (hname : name ∉ ["", ".", ".."]) :
    parts (child directory name) = parts directory ++ [.name name] := by
  have hpart : partOf? name.toList = some (.name name) := by
    simp only [List.mem_cons, List.not_mem_nil, or_false, not_or, ← String.toList_inj] at hname
    unfold partOf?
    split
    · next heq => exact absurd heq hname.1
    · next heq => exact absurd heq hname.2.1
    · next heq => exact absurd heq hname.2.2
    · rw [String.ofList_toList]
  have hdirectory : directory.toList ≠ [] := fun heq => h (String.toList_eq_nil_iff.mp heq)
  rw [child]
  split
  · next hlast =>
    obtain ⟨front, hfront⟩ := List.getLast?_eq_some_iff.mp hlast
    have htext : directory ++ name = String.ofList (front ++ '/' :: name.toList) := by
      rw [← String.toList_inj, String.toList_append, String.toList_ofList, hfront,
        List.append_assoc]
      rfl
    have hfront' : directory = String.ofList (front ++ '/' :: []) := by
      rw [← String.toList_inj, String.toList_ofList, hfront]
    rw [htext]
    rcases front with _ | ⟨c, front⟩
    · rw [hfront', parts, List.nil_append, String.toList_ofList, splitSlashes, if_pos rfl,
        splitSlashes_of_not_mem hslash, List.filterMap_cons, List.filterMap_cons, hpart]
      rfl
    · rw [parts_append _ _ (List.cons_ne_nil _ _) hslash, hpart, hfront',
        parts_append _ _ (List.cons_ne_nil _ _) List.not_mem_nil]
      exact congrArg (· ++ _) (List.append_nil _).symm
  · have htext : directory ++ "/" ++ name =
        String.ofList (directory.toList ++ '/' :: name.toList) := by
      simp only [← String.toList_inj, String.toList_append, String.toList_ofList,
        List.append_assoc]
      rfl
    rw [htext, parts_append _ _ hdirectory hslash, String.ofList_toList, hpart]
    rfl

end Path

end StatementForest

import StatementForest.Data.Toml.Scalar
import StatementForest.Data.Toml.Table

/-!
# Reading TOML text

A text is a sequence of assignments, grouped below table headers.  Keys may be
dotted, and neither a key nor a table may be defined twice.

Main results:

- `Toml.exists_record_of_parse`: a text is read as a record whose keys differ.

Current gaps:

- No grammar of TOML is stated.  What is known of a text that is read is the shape of the result,
  and that the keys of its outermost table differ.
- Dates and times are told by their shape and kept as texts.
-/

namespace StatementForest
namespace Toml

/-! ### Values -/

mutual

/-- Read a value with at most `depth` nested lists and tables. -/
def readValue (fuel depth : Nat) (cs : List Char) : Option (Data × List Char) :=
  match fuel with
  | 0 => none
  | fuel + 1 =>
    match cs with
    | '[' :: rest =>
      match depth with
      | 0 => none
      | depth + 1 => (readItems fuel depth (skipSpace false rest)).map fun (items, rest) =>
        (.list items, rest)
    | '\x7b' :: rest =>
      match depth with
      | 0 => none
      | depth + 1 => (readMembers fuel depth {} (skipSpace false rest)).map fun (t, rest) =>
        (t.toData, rest)
    | cs =>
      match readString cs with
      | some (s, rest) => some (.text s, rest)
      | none => readScalar cs

/-- Read the items of a list up to its closing bracket. -/
def readItems (fuel depth : Nat) (cs : List Char) : Option (List Data × List Char) :=
  match fuel with
  | 0 => none
  | fuel + 1 =>
    match cs with
    | ']' :: rest => some ([], rest)
    | cs =>
      match readValue fuel depth cs with
      | none => none
      | some (item, rest) =>
        match skipSpace false rest with
        | ']' :: rest => some ([item], rest)
        | ',' :: rest => (readItems fuel depth (skipSpace false rest)).map
          fun (items, rest) => (item :: items, rest)
        | _ => none

/-- Read the members of a table between braces after some others.  Lines may end anywhere
but within a key. -/
def readMembers (fuel depth : Nat) (t : Table) (cs : List Char) :
    Option (Table × List Char) :=
  match fuel with
  | 0 => none
  | fuel + 1 =>
    match cs with
    | '\x7d' :: rest => some (t, rest)
    | cs =>
      match readKey cs with
      | none => none
      | some (key, rest) =>
        match skipSpace false rest with
        | '=' :: rest =>
          match readValue fuel depth (skipSpace false rest) with
          | none => none
          | some (value, rest) =>
            match t.put key value with
            | none => none
            | some t =>
              match skipSpace false rest with
              | '\x7d' :: rest => some (t, rest)
              | ',' :: rest => readMembers fuel depth t (skipSpace false rest)
              | _ => none
        | _ => none

end

/-! ### Texts -/

/-- The deepest nesting of lists and of tables between braces. -/
def nestingLimit : Nat := 80

/-- A text in the course of being read. -/
structure Reading where
  root : Table := {}
  /-- The header that assignments stand below. -/
  header : List String := []

/-- Read a line that is a header or an assignment. -/
def readLine (r : Reading) (cs : List Char) : Option (Reading × List Char) :=
  match cs with
  | '[' :: '[' :: rest => do
    let (header, rest) ← readKey rest
    match rest with
    | ']' :: ']' :: rest => return (⟨← r.root.openItem header, header⟩, ← endOfLine rest)
    | _ => none
  | '[' :: rest => do
    let (header, rest) ← readKey rest
    match rest with
    | ']' :: rest => return (⟨← r.root.openTable header, header⟩, ← endOfLine rest)
    | _ => none
  | cs => do
    let (key, rest) ← readKey cs
    match rest with
    | '=' :: rest =>
      let (value, rest) ← readValue (2 * cs.length + 2) nestingLimit (skipBlanks rest)
      let root ← Table.changeAt false (Table.put key value) r.header r.root
      return (⟨root, r.header⟩, ← endOfLine rest)
    | _ => none

/-- Read lines up to the end of the text. -/
def readLines (r : Reading) : (fuel : Nat) → List Char → Option Reading
  | 0, _ => none
  | fuel + 1, cs =>
    match skipSpace false cs with
    | [] => some r
    | cs =>
      match readLine r cs with
      | some (r, rest) => readLines r fuel rest
      | none => none

/-- Read a text as a record.  A mark of the byte order may stand in front of it. -/
def parse (s : String) : Option Data :=
  let cs := s.toList
  let cs := if cs.head? = some '\ufeff' then cs.tail else cs
  (readLines {} (cs.length + 1) cs).map (·.root.toData)

/-! ### Keys of a text -/

/-- A line keeps the keys of the text apart. -/
theorem distinct_of_readLine {r r' : Reading} {cs rest : List Char} (h : r.root.Distinct)
    (hline : readLine r cs = some (r', rest)) : r'.root.Distinct := by
  unfold readLine at hline
  split at hline
  · obtain ⟨⟨header, behind⟩, -, hline⟩ := Option.bind_eq_some_iff.mp hline
    dsimp only at hline
    split at hline
    · obtain ⟨root, hroot, hline⟩ := Option.bind_eq_some_iff.mp hline
      obtain ⟨_, -, hline⟩ := Option.bind_eq_some_iff.mp hline
      cases hline
      exact h.openItem hroot
    · cases hline
  · obtain ⟨⟨header, behind⟩, -, hline⟩ := Option.bind_eq_some_iff.mp hline
    dsimp only at hline
    split at hline
    · obtain ⟨root, hroot, hline⟩ := Option.bind_eq_some_iff.mp hline
      obtain ⟨_, -, hline⟩ := Option.bind_eq_some_iff.mp hline
      cases hline
      exact h.openTable hroot
    · cases hline
  · obtain ⟨⟨key, behind⟩, -, hline⟩ := Option.bind_eq_some_iff.mp hline
    dsimp only at hline
    split at hline
    · obtain ⟨⟨value, behind⟩, -, hline⟩ := Option.bind_eq_some_iff.mp hline
      obtain ⟨root, hroot, hline⟩ := Option.bind_eq_some_iff.mp hline
      obtain ⟨_, -, hline⟩ := Option.bind_eq_some_iff.mp hline
      cases hline
      exact h.changeAt (fun _ _ ht h => h.put ht) hroot
    · cases hline

/-- Lines keep the keys of the text apart, by induction on their number. -/
theorem distinct_of_readLines {r r' : Reading} {fuel : Nat} {cs : List Char}
    (h : r.root.Distinct) (hlines : readLines r fuel cs = some r') : r'.root.Distinct := by
  induction fuel generalizing r cs with
  | zero => cases hlines
  | succ fuel ih =>
    rw [readLines] at hlines
    split at hlines
    · cases hlines
      exact h
    · split at hlines
      · next hline => exact ih (distinct_of_readLine h hline) hlines
      · cases hlines

/-- A text is read as a record whose keys differ. -/
theorem exists_record_of_parse {s : String} {data : Data} (h : parse s = some data) :
    ∃ members, data = .record members ∧ (members.map (·.1)).Nodup := by
  obtain ⟨r, hlines, rfl⟩ := Option.map_eq_some_iff.mp h
  have hkeys : ∀ members : List (String × Entry),
      (membersToData members).map (·.1) = members.map (·.1) := by
    intro members
    induction members with
    | nil => rfl
    | cons m members ih =>
      obtain ⟨key, entry⟩ := m
      rw [membersToData, List.map_cons, List.map_cons, ih]
  refine ⟨_, rfl, ?_⟩
  rw [hkeys]
  have hempty : ({} : Reading).root.Distinct := List.nodup_nil
  exact distinct_of_readLines hempty hlines

end Toml
end StatementForest

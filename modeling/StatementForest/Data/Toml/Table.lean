import StatementForest.Data.Basic

/-!
# TOML tables

A table may be filled from several places of a text: below its header, through dotted
keys, or below the headers of tables that lie in it.  Which of these may still add to a
table depends on what has made it.

Main results:

- `Toml.Table.find?_of_insert`: a value is given only to a key that is new.
- `Toml.Table.Distinct.put`, `Toml.Table.Distinct.openTable`, `Toml.Table.Distinct.openItem`: the
  keys of a table differ, whatever is added to it.
-/

namespace StatementForest
namespace Toml

/-- What has made a table. -/
inductive Origin where
  | header
  /-- The header of a table that lies in it. -/
  | inner
  /-- A dotted key that passes it. -/
  | dotted
  deriving DecidableEq

/-- What stands under a key. -/
inductive Entry where
  | value (data : Data)
  | table (origin : Origin) (members : List (String × Entry))
  /-- Tables under one header: the last one, and those in front of it, the latest first. -/
  | tables (last : List (String × Entry)) (earlier : List (List (String × Entry)))

/-- A table in the course of being read. -/
structure Table where
  origin : Origin := .header
  members : List (String × Entry) := []

mutual

/-- An entry as data. -/
def Entry.toData : Entry → Data
  | .value data => data
  | .table _ members => .record (membersToData members)
  | .tables last earlier => .list (allToData earlier [.record (membersToData last)])

/-- The members of a table as data. -/
def membersToData : List (String × Entry) → List (String × Data)
  | [] => []
  | (key, entry) :: members => (key, entry.toData) :: membersToData members

/-- Tables, the last one first, as data in front of others. -/
def allToData : List (List (String × Entry)) → List Data → List Data
  | [], items => items
  | members :: earlier, items => allToData earlier (.record (membersToData members) :: items)

end

namespace Table

/-- A table as data. -/
def toData (t : Table) : Data := .record (membersToData t.members)

/-- What stands under a key. -/
def find? (t : Table) (key : String) : Option Entry := t.members.lookup key

/-- Set what stands under a key. -/
def set (t : Table) (key : String) (entry : Entry) : Table :=
  if (t.find? key).isNone then { t with members := t.members ++ [(key, entry)] }
  else { t with members := t.members.map fun m => if m.1 == key then (key, entry) else m }

/-- Change the table at a path below a table, which is made if it is not there.  The
path of a dotted key passes no table that has a header, and no path passes a value. -/
def changeAt (dotted : Bool) (change : Table → Option Table) :
    List String → Table → Option Table
  | [], t => change t
  | key :: path, t =>
    match t.find? key with
    | none => do
      let inner ← changeAt dotted change path ⟨if dotted then .dotted else .inner, []⟩
      return t.set key (.table inner.origin inner.members)
    | some (.table origin members) =>
      if dotted && origin = .header then none
      else do
        let inner ← changeAt dotted change path ⟨origin, members⟩
        return t.set key (.table inner.origin inner.members)
    | some (.tables last earlier) => do
      let inner ← changeAt dotted change path ⟨.header, last⟩
      return t.set key (.tables inner.members earlier)
    | some (.value _) => none

/-- Give a value to a new key of a table that was made in the same way. -/
def insert (dotted : Bool) (key : String) (value : Data) (t : Table) : Option Table :=
  if decide (t.origin = .dotted) != dotted || (t.find? key).isSome then none
  else some (t.set key (.value value))

/-- Give a value to a key, which may be dotted. -/
def put (key : List String) (value : Data) (t : Table) : Option Table :=
  match key.getLast? with
  | none => none
  | some last =>
    let path := key.dropLast
    let dotted := !path.isEmpty
    changeAt dotted (insert dotted last value) path t

/-- Make the table of a header.  It was not there, or only tables in it were. -/
def openTable (header : List String) (t : Table) : Option Table :=
  match header.getLast? with
  | none => none
  | some last =>
    changeAt false (fun t =>
      match t.find? last with
      | none => some (t.set last (.table .header []))
      | some (.table .inner members) => some (t.set last (.table .header members))
      | some _ => none) header.dropLast t

/-- Make one more table of a header that may be repeated. -/
def openItem (header : List String) (t : Table) : Option Table :=
  match header.getLast? with
  | none => none
  | some last =>
    changeAt false (fun t =>
      match t.find? last with
      | none => some (t.set last (.tables [] []))
      | some (.tables item earlier) => some (t.set last (.tables [] (item :: earlier)))
      | some _ => none) header.dropLast t

/-! ### Keys -/

/-- Replacing what stands under a key changes the lookup of no other key. -/
theorem lookup_replace_of_ne (members : List (String × Entry)) {key other : String}
    (entry : Entry) (h : other ≠ key) :
    (members.map fun m => if m.1 == key then (key, entry) else m).lookup other =
      members.lookup other := by
  induction members with
  | nil => rfl
  | cons m members ih =>
    rw [List.map_cons, List.lookup_cons, List.lookup_cons, ih]
    by_cases hm : m.1 = key
    · rw [if_pos (beq_iff_eq.mpr hm), hm, beq_false_of_ne h]
    · rw [if_neg fun heq => hm (beq_iff_eq.mp heq)]

/-- What stands under a key is found in the place of what stood there. -/
theorem lookup_replace_self {members : List (String × Entry)} {key : String} (entry : Entry)
    (h : (members.lookup key).isSome = true) :
    (members.map fun m => if m.1 == key then (key, entry) else m).lookup key = some entry := by
  induction members with
  | nil => cases h
  | cons m members ih =>
    rw [List.map_cons, List.lookup_cons]
    by_cases hm : m.1 = key
    · rw [if_pos (beq_iff_eq.mpr hm), beq_self_eq_true]
    · have hne : (key == m.1) = false := beq_false_of_ne (Ne.symm hm)
      rw [List.lookup_cons, hne] at h
      rw [if_neg fun heq => hm (beq_iff_eq.mp heq), hne]
      exact ih h

/-- A table with a new entry has this one under its key, and the others as before. -/
theorem find?_set (t : Table) (key : String) (entry : Entry) (other : String) :
    (t.set key entry).find? other = if other = key then some entry else t.find? other := by
  rw [Table.set]
  split
  · next hnone =>
    rw [Option.isNone_iff_eq_none] at hnone
    rw [find?, List.lookup_append, ← find?]
    by_cases hother : other = key
    · rw [if_pos hother, hother, hnone, Option.none_or, List.lookup_cons_self]
    · rw [if_neg hother, List.lookup_cons, beq_false_of_ne hother]
      exact Option.or_none
  · next hsome =>
    split
    · next hother =>
      rw [Bool.not_eq_true, Option.isNone_eq_false_iff] at hsome
      rw [hother]
      exact lookup_replace_self entry hsome
    · next hother => exact lookup_replace_of_ne t.members entry hother

/-- A value is given only to a key that is new, and changes what stands under no other one. -/
theorem find?_of_insert {dotted : Bool} {key : String} {value : Data} {t t' : Table}
    (h : t.insert dotted key value = some t') :
    t.find? key = none ∧ t'.find? key = some (.value value) ∧
      ∀ other, other ≠ key → t'.find? other = t.find? other := by
  rw [insert] at h
  split at h
  · cases h
  · next hnew =>
    simp only [Bool.or_eq_true, not_or, Bool.not_eq_true, Option.isSome_eq_false_iff,
      Option.isNone_iff_eq_none] at hnew
    cases h
    refine ⟨hnew.2, ?_, fun other hother => ?_⟩
    · rw [find?_set, if_pos rfl]
    · rw [find?_set, if_neg hother]

/-- Nothing is found under a key that no member has. -/
theorem find?_eq_none_iff {t : Table} {key : String} :
    t.find? key = none ↔ key ∉ t.members.map (·.1) := by
  rw [find?, List.lookup_eq_none_iff, List.mem_map]
  constructor
  · rintro h ⟨m, hm, rfl⟩
    exact bne_iff_ne.mp (h m hm) rfl
  · exact fun h m hm => bne_iff_ne.mpr fun heq => h ⟨m, hm, heq.symm⟩

/-- The keys of a table differ. -/
def Distinct (t : Table) : Prop := (t.members.map (·.1)).Nodup

/-- Setting an entry repeats no key. -/
theorem Distinct.set {t : Table} (h : t.Distinct) (key : String) (entry : Entry) :
    (t.set key entry).Distinct := by
  rw [Table.set]
  split
  · next hnone =>
    rw [Option.isNone_iff_eq_none, find?_eq_none_iff] at hnone
    rw [Distinct, List.map_append, List.nodup_append]
    refine ⟨h, List.pairwise_singleton _ _, fun a ha b hb => ?_⟩
    rw [List.mem_singleton.mp hb]
    rintro rfl
    exact hnone ha
  · have hkeys : (t.members.map fun m => if m.1 == key then (key, entry) else m).map (·.1) =
        t.members.map (·.1) := by
      rw [List.map_map]
      refine List.map_congr_left fun m _ => ?_
      rw [Function.comp_apply]
      split
      · next heq => exact (beq_iff_eq.mp heq).symm
      · rfl
    rw [Distinct, hkeys]
    exact h

/-- A change at a path keeps the keys of a table apart when the change itself does. -/
theorem Distinct.changeAt {dotted : Bool} {change : Table → Option Table}
    (hchange : ∀ t t', change t = some t' → t.Distinct → t'.Distinct) {path : List String}
    {t t' : Table} (h : t.Distinct) (heq : Table.changeAt dotted change path t = some t') :
    t'.Distinct := by
  rcases path with _ | ⟨key, path⟩
  · exact hchange t t' heq h
  rw [Table.changeAt] at heq
  split at heq
  · obtain ⟨inner, -, heq⟩ := Option.bind_eq_some_iff.mp heq
    cases heq
    exact h.set _ _
  · split at heq
    · cases heq
    · obtain ⟨inner, -, heq⟩ := Option.bind_eq_some_iff.mp heq
      cases heq
      exact h.set _ _
  · obtain ⟨inner, -, heq⟩ := Option.bind_eq_some_iff.mp heq
    cases heq
    exact h.set _ _
  · cases heq

/-- Putting a value at a path repeats no key. -/
theorem Distinct.put {key : List String} {value : Data} {t t' : Table} (h : t.Distinct)
    (heq : t.put key value = some t') : t'.Distinct := by
  rw [Table.put] at heq
  split at heq
  · cases heq
  · refine h.changeAt (fun t t' ht h => ?_) heq
    rw [insert] at ht
    split at ht <;> cases ht
    exact h.set _ _

/-- Opening a table repeats no key. -/
theorem Distinct.openTable {header : List String} {t t' : Table} (h : t.Distinct)
    (heq : t.openTable header = some t') : t'.Distinct := by
  rw [Table.openTable] at heq
  split at heq
  · cases heq
  · refine h.changeAt (fun t t' ht h => ?_) heq
    split at ht <;> cases ht <;> exact h.set _ _

/-- Opening an item of an array of tables repeats no key. -/
theorem Distinct.openItem {header : List String} {t t' : Table} (h : t.Distinct)
    (heq : t.openItem header = some t') : t'.Distinct := by
  rw [Table.openItem] at heq
  split at heq
  · cases heq
  · refine h.changeAt (fun t t' ht h => ?_) heq
    split at ht <;> cases ht <;> exact h.set _ _

end Table
end Toml
end StatementForest

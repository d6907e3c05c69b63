/-!
# Rolls

A roll maps keys to values and remembers the order in which its keys were first
written.  Writing a known key again changes its value and keeps its place.

Main results:

- `Roll.find?_insert_self`, `Roll.find?_insert_of_ne`: a lookup after an
  insertion.
- `Roll.keys_insert`: a new key comes last, and a known one keeps its place.
-/

namespace StatementForest

/-- Entries in the order of their first insertion. -/
structure Roll (κ : Type) (α : Type) where
  entries : List (κ × α) := []

namespace Roll

variable {κ α : Type} [DecidableEq κ]

/-- Write an entry in place of the one with its key, or at the end. -/
def insertEntry (key : κ) (value : α) : List (κ × α) → List (κ × α)
  | [] => [(key, value)]
  | (k, v) :: rest =>
    if k = key then (key, value) :: rest else (k, v) :: insertEntry key value rest

/-- Write an entry. -/
def insert (r : Roll κ α) (key : κ) (value : α) : Roll κ α :=
  ⟨insertEntry key value r.entries⟩

/-- The value stored under a key. -/
def find? (r : Roll κ α) (key : κ) : Option α :=
  r.entries.lookup key

/-- Whether a key has an entry. -/
def contains (r : Roll κ α) (key : κ) : Bool :=
  (r.find? key).isSome

/-- Write an entry unless its key has one. -/
def insertNew (r : Roll κ α) (key : κ) (value : α) : Roll κ α :=
  if r.contains key then r else r.insert key value

omit [DecidableEq κ] in
/-- The keys in the order of their first insertion. -/
def keys (r : Roll κ α) : List κ := r.entries.map (·.1)

omit [DecidableEq κ] in
/-- The values in the order in which their keys were first inserted. -/
def values (r : Roll κ α) : List α := r.entries.map (·.2)

omit [DecidableEq κ] in
/-- The number of entries. -/
def size (r : Roll κ α) : Nat := r.entries.length

/-- A value that is written is found under its key. -/
@[simp]
theorem find?_insert_self (r : Roll κ α) (key : κ) (value : α) :
    (r.insert key value).find? key = some value := by
  obtain ⟨entries⟩ := r
  simp only [find?, insert]
  induction entries with
  | nil => simp [insertEntry]
  | cons e rest ih =>
    obtain ⟨k, v⟩ := e
    by_cases hk : k = key
    · simp [insertEntry, hk]
    · simp [insertEntry, hk, List.lookup_cons, beq_false_of_ne (Ne.symm hk), ih]

/-- Writing changes nothing under another key. -/
theorem find?_insert_of_ne (r : Roll κ α) {key other : κ} (value : α) (h : other ≠ key) :
    (r.insert key value).find? other = r.find? other := by
  obtain ⟨entries⟩ := r
  simp only [find?, insert]
  induction entries with
  | nil => simp [insertEntry, List.lookup_cons, beq_false_of_ne h]
  | cons e rest ih =>
    obtain ⟨k, v⟩ := e
    by_cases hk : k = key
    · subst hk
      simp [insertEntry, List.lookup_cons, beq_false_of_ne h]
    · simp [insertEntry, hk, List.lookup_cons, ih]

/-- A new key goes to the end, and a known one stays in its place. -/
theorem keys_insert (r : Roll κ α) (key : κ) (value : α) :
    (r.insert key value).keys = if key ∈ r.keys then r.keys else r.keys ++ [key] := by
  obtain ⟨entries⟩ := r
  simp only [keys, insert]
  induction entries with
  | nil => simp [insertEntry]
  | cons e rest ih =>
    obtain ⟨k, v⟩ := e
    by_cases hk : k = key
    · simp [insertEntry, hk]
    · simp only [insertEntry, hk, if_false, List.map_cons, List.mem_cons, ih, Ne.symm hk,
        false_or]
      split <;> next hmem => simp [hmem]

end Roll

end StatementForest

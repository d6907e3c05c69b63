/-!
# Dictionaries

A dictionary maps texts to values.  Its entries are kept in strictly increasing
order of their keys, so two dictionaries with the same entries are equal and
the entries come out in one order whatever the order of insertion was.

Main results:

- `Dictionary.find?_insert_self`, `Dictionary.find?_insert_of_ne`: a lookup
  after an insertion.
- `Dictionary.ofList_entries`: a dictionary is rebuilt from its entries.
-/

namespace StatementForest

/-- The keys of an entry list are strictly increasing. -/
def SortedKeys {α : Type} (entries : List (String × α)) : Prop :=
  entries.Pairwise fun a b => a.1 < b.1

/-- A finite map from texts to values, with its keys in increasing order. -/
structure Dictionary (α : Type) where
  entries : List (String × α)
  sorted : SortedKeys entries

namespace Dictionary

variable {α β : Type}

instance [DecidableEq α] : DecidableEq (Dictionary α) := fun a b =>
  if h : a.entries = b.entries then isTrue (by cases a; cases b; simp_all)
  else isFalse fun heq => h (heq ▸ rfl)

/-- The dictionary without entries. -/
def empty : Dictionary α := ⟨[], List.Pairwise.nil⟩

instance : Inhabited (Dictionary α) := ⟨empty⟩

/-- Put an entry at its place in a sorted entry list, replacing one with its key. -/
def insertEntry (key : String) (value : α) : List (String × α) → List (String × α)
  | [] => [(key, value)]
  | (k, v) :: rest =>
    if key < k then (key, value) :: (k, v) :: rest
    else if key = k then (key, value) :: rest
    else (k, v) :: insertEntry key value rest

/-- An entry after inserting has the new key, or was there under its own. -/
theorem fst_mem_insertEntry {key k : String} {value : α} {entries : List (String × α)} {v : α}
    (h : (k, v) ∈ insertEntry key value entries) : k = key ∨ ∃ w, (k, w) ∈ entries := by
  induction entries with
  | nil => simp_all [insertEntry]
  | cons e rest ih =>
    obtain ⟨k', v'⟩ := e
    simp only [insertEntry] at h
    split at h
    · simp only [List.mem_cons, Prod.mk.injEq] at h
      rcases h with h | h | h
      · exact .inl h.1
      · exact .inr ⟨v', by simp [h.1]⟩
      · exact .inr ⟨v, by simp [h]⟩
    · split at h
      · simp only [List.mem_cons, Prod.mk.injEq] at h
        rcases h with h | h
        · exact .inl h.1
        · exact .inr ⟨v, by simp [h]⟩
      · simp only [List.mem_cons, Prod.mk.injEq] at h
        rcases h with h | h
        · exact .inr ⟨v', by simp [h.1]⟩
        · rcases ih h with h | ⟨w, h⟩
          · exact .inl h
          · exact .inr ⟨w, by simp [h]⟩

/-- Inserting keeps the keys in order. -/
theorem sortedKeys_insertEntry {key : String} {value : α} {entries : List (String × α)}
    (h : SortedKeys entries) : SortedKeys (insertEntry key value entries) := by
  induction entries with
  | nil => simp [insertEntry, SortedKeys]
  | cons e rest ih =>
    obtain ⟨k, v⟩ := e
    have hrest : SortedKeys rest := List.Pairwise.of_cons h
    have hlt : ∀ e ∈ rest, k < e.1 := fun _ he => List.rel_of_pairwise_cons h he
    simp only [insertEntry]
    split
    · next hkey =>
      refine List.Pairwise.cons (fun e he => ?_) h
      rcases List.mem_cons.mp he with rfl | he
      · exact hkey
      · exact String.lt_trans hkey (hlt e he)
    · next hkey =>
      split
      · next heq =>
        subst heq
        exact List.Pairwise.cons hlt hrest
      · next hne =>
        refine List.Pairwise.cons (fun e he => ?_) (ih hrest)
        rcases fst_mem_insertEntry (k := e.1) (v := e.2) he with heq | ⟨w, hw⟩
        · simp only [heq]
          exact Std.lt_of_le_of_ne (Std.not_lt.mp hkey) (Ne.symm hne)
        · exact hlt (e.1, w) hw

/-- Add an entry, replacing the one with the same key. -/
def insert (d : Dictionary α) (key : String) (value : α) : Dictionary α :=
  ⟨insertEntry key value d.entries, sortedKeys_insertEntry d.sorted⟩

/-- The value stored under a key. -/
def find? (d : Dictionary α) (key : String) : Option α :=
  d.entries.lookup key

/-- Whether a key has an entry. -/
def contains (d : Dictionary α) (key : String) : Bool :=
  (d.find? key).isSome

/-- Remove the entry of a key. -/
def erase (d : Dictionary α) (key : String) : Dictionary α :=
  ⟨d.entries.filter (·.1 != key), List.Pairwise.filter _ d.sorted⟩

/-- The number of entries. -/
def size (d : Dictionary α) : Nat := d.entries.length

/-- Whether there are no entries. -/
def isEmpty (d : Dictionary α) : Bool := d.entries.isEmpty

/-- The keys in increasing order. -/
def keys (d : Dictionary α) : List String := d.entries.map (·.1)

/-- Add entries from left to right, so that the last one of a key stays. -/
def insertAll (d : Dictionary α) (entries : List (String × α)) : Dictionary α :=
  entries.foldl (fun d e => d.insert e.1 e.2) d

/-- The dictionary of an entry list; the last entry of a key stays. -/
def ofList (entries : List (String × α)) : Dictionary α :=
  empty.insertAll entries

/-- Change every value. -/
def map (f : α → β) (d : Dictionary α) : Dictionary β :=
  ⟨d.entries.map fun e => (e.1, f e.2), by simpa [SortedKeys, List.pairwise_map] using d.sorted⟩

/-- Dictionaries with the same entries are equal. -/
@[ext]
theorem ext {a b : Dictionary α} (h : a.entries = b.entries) : a = b := by
  cases a; cases b; simp_all

/-- The new value is found under its key. -/
theorem lookup_insertEntry_self {key : String} {value : α} {entries : List (String × α)} :
    (insertEntry key value entries).lookup key = some value := by
  induction entries with
  | nil => simp [insertEntry]
  | cons e rest ih =>
    obtain ⟨k, v⟩ := e
    simp only [insertEntry]
    split
    · simp
    · split
      · simp
      · next hne => simp [List.lookup_cons, beq_false_of_ne hne, ih]

/-- Under every other key the same value is found. -/
theorem lookup_insertEntry_of_ne {key other : String} {value : α} {entries : List (String × α)}
    (hne : other ≠ key) :
    (insertEntry key value entries).lookup other = entries.lookup other := by
  induction entries with
  | nil => simp [insertEntry, List.lookup_cons, beq_false_of_ne hne]
  | cons e rest ih =>
    obtain ⟨k, v⟩ := e
    simp only [insertEntry]
    split
    · simp [List.lookup_cons, beq_false_of_ne hne]
    · split
      · next heq =>
        subst heq
        simp [List.lookup_cons, beq_false_of_ne hne]
      · simp [List.lookup_cons, ih]

/-- Nothing is found in an empty dictionary. -/
@[simp]
theorem find?_empty (key : String) : (empty : Dictionary α).find? key = none := rfl

/-- A value that is inserted is found under its key. -/
@[simp]
theorem find?_insert_self (d : Dictionary α) (key : String) (value : α) :
    (d.insert key value).find? key = some value :=
  lookup_insertEntry_self

/-- Inserting changes nothing under another key. -/
theorem find?_insert_of_ne (d : Dictionary α) {key other : String} (value : α)
    (h : other ≠ key) : (d.insert key value).find? other = d.find? other :=
  lookup_insertEntry_of_ne h

/-! ### Rebuilding -/

/-- A key that is greater than all others goes to the end. -/
theorem insertEntry_of_forall_lt {key : String} {value : α} {entries : List (String × α)}
    (h : ∀ e ∈ entries, e.1 < key) : insertEntry key value entries = entries ++ [(key, value)] := by
  induction entries with
  | nil => rfl
  | cons e rest ih =>
    obtain ⟨k, v⟩ := e
    have hk : k < key := h (k, v) (by simp)
    have hnot : ¬ key < k := fun h' => String.lt_irrefl _ (String.lt_trans hk h')
    have hne : key ≠ k := fun h' => String.lt_irrefl k (by rw [h'] at hk; exact hk)
    simp [insertEntry, hnot, hne, ih fun e he => h e (by simp [he])]

/-- Entries that come in order are appended. -/
theorem insertAll_entries_of_sorted {d : Dictionary α} {entries : List (String × α)}
    (h : SortedKeys (d.entries ++ entries)) :
    (d.insertAll entries).entries = d.entries ++ entries := by
  induction entries generalizing d with
  | nil => simp [insertAll]
  | cons e rest ih =>
    obtain ⟨k, v⟩ := e
    have hins : (d.insert k v).entries = d.entries ++ [(k, v)] := by
      refine insertEntry_of_forall_lt fun e he => ?_
      exact (List.pairwise_append.mp h).2.2 e he (k, v) (by simp)
    have hnext : SortedKeys ((d.insert k v).entries ++ rest) := by
      simpa [hins] using h
    have := ih hnext
    simpa [insertAll, hins] using this

/-- Putting the entries of a dictionary together gives the dictionary back. -/
@[simp]
theorem ofList_entries (d : Dictionary α) : ofList d.entries = d := by
  apply ext
  simpa [ofList, empty] using
    insertAll_entries_of_sorted (d := (empty : Dictionary α)) (by simpa [empty] using d.sorted)

end Dictionary

instance {α : Type} [Repr α] : Repr (Dictionary α) := ⟨fun d => reprPrec d.entries⟩

end StatementForest

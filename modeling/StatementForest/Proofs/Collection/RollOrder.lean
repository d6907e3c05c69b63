import Mathlib.Data.List.Perm.Basic
import StatementForest.Proofs.Schema.LinkingSuccess

/-!
# Rolls that are written in another order

A roll is written from lists of entries, one list after another.  When different lists have
no key in common, each makes a part of the roll of its own.  So the parts only change places
when the lists do, and a lookup finds the same.

Main results:

- Theorem `Roll.entries_ofItems_flatMap`: lists without common keys make parts of a roll.
- Theorem `Roll.perm_ofItems`: the lists in another order, with other values, make a roll
  with the same entries in another order.
- Theorem `Roll.find?_of_perm`: a lookup in it finds the same.
-/

namespace StatementForest
namespace Roll

variable {κ α β : Type} [DecidableEq κ] {r r' : Roll κ α} {key : κ} {v : α}

/-! ## Writing many entries -/

/-- Write entries one after another. -/
def writeAll (r : Roll κ α) (items : List (κ × α)) : Roll κ α :=
  items.foldl (fun r e => r.insert e.1 e.2) r

/-- A roll that is written from nothing. -/
def ofItems (items : List (κ × α)) : Roll κ α := writeAll {} items

/-- Entries and more entries are written one after the other. -/
theorem writeAll_append (r : Roll κ α) (items items' : List (κ × α)) :
    r.writeAll (items ++ items') = (r.writeAll items).writeAll items' :=
  List.foldl_append

/-- A key is there when it was there before or has been written. -/
theorem mem_keys_writeAll {items : List (κ × α)} :
    key ∈ (r.writeAll items).keys ↔ key ∈ r.keys ∨ ∃ v, (key, v) ∈ items := by
  induction items generalizing r with
  | nil => simp [writeAll]
  | cons e rest ih =>
    have hkeys : key ∈ (r.insert e.1 e.2).keys ↔ key ∈ r.keys ∨ key = e.1 := by
      rw [keys_insert]
      split
      · next hmem => exact ⟨.inl, fun h => h.elim id fun heq => heq ▸ hmem⟩
      · rw [List.mem_append, List.mem_singleton]
    have hhead : (∃ v, (key, v) = e) ↔ key = e.1 :=
      ⟨fun ⟨_, h⟩ => h ▸ rfl, fun h => ⟨e.2, by rw [h]⟩⟩
    simp only [List.mem_cons, exists_or, hhead]
    rw [← or_assoc, ← hkeys]
    exact ih (r := r.insert e.1 e.2)

/-- Writing an entry repeats no key. -/
theorem nodup_keys_insert (h : r.keys.Nodup) : (r.insert key v).keys.Nodup := by
  rw [keys_insert]
  split
  · exact h
  · next hnot => exact List.nodup_append_comm.mp (List.nodup_cons.mpr ⟨hnot, h⟩)

/-- Writing an entry under a new key repeats no key. -/
theorem nodup_keys_insertNew (h : r.keys.Nodup) : (r.insertNew key v).keys.Nodup := by
  unfold insertNew
  split
  · exact h
  · exact nodup_keys_insert h

/-- Writing entries repeats no key. -/
theorem nodup_keys_writeAll {items : List (κ × α)} (h : r.keys.Nodup) :
    (r.writeAll items).keys.Nodup := by
  induction items generalizing r with
  | nil => exact h
  | cons e rest ih => exact ih (nodup_keys_insert h)

/-- No key of a roll that is written from nothing is repeated. -/
theorem nodup_keys_ofItems (items : List (κ × α)) : (ofItems items).keys.Nodup :=
  nodup_keys_writeAll List.nodup_nil

/-- Every entry was written. -/
theorem mem_of_mem_ofItems {items : List (κ × α)} {e : κ × α} (h : e ∈ (ofItems items).entries) :
    e ∈ items := by
  have hinsert : ∀ (d : κ × α) (entries : List (κ × α)), e ∈ insertEntry d.1 d.2 entries →
      e ∈ entries ∨ e = d := by
    intro d entries
    induction entries with
    | nil => exact fun hmem => .inr (List.mem_singleton.mp hmem)
    | cons c rest ih =>
      rw [insertEntry]
      split
      · exact fun hmem => (List.mem_cons.mp hmem).symm.imp_left (List.mem_cons_of_mem c)
      · intro hmem
        obtain rfl | hmem := List.mem_cons.mp hmem
        · exact .inl List.mem_cons_self
        · exact (ih hmem).imp_left (List.mem_cons_of_mem c)
  have hwritten : ∀ (items : List (κ × α)) (r : Roll κ α), e ∈ (r.writeAll items).entries →
      e ∈ r.entries ∨ e ∈ items := by
    intro items
    induction items with
    | nil => exact fun _ hmem => .inl hmem
    | cons d rest ih =>
      intro r hmem
      obtain hmem | hmem := ih (r.insert d.1 d.2) hmem
      · obtain hmem | rfl := hinsert d r.entries hmem
        · exact .inl hmem
        · exact .inr List.mem_cons_self
      · exact .inr (List.mem_cons_of_mem d hmem)
  exact (hwritten items {} h).resolve_left List.not_mem_nil

/-! ## Parts of a roll -/

/-- An entry is written behind entries of other keys, which stay as they are. -/
theorem insertEntry_append {earlier later : List (κ × α)} (h : ∀ e ∈ earlier, e.1 ≠ key) :
    insertEntry key v (earlier ++ later) = earlier ++ insertEntry key v later := by
  induction earlier with
  | nil => rfl
  | cons e rest ih =>
    rw [List.cons_append, insertEntry, if_neg (h e List.mem_cons_self),
      ih fun e he => h e (List.mem_cons_of_mem _ he)]
    rfl

/-- Entries with other keys leave the first part of a roll as it is. -/
theorem entries_writeAll_append {earlier later items : List (κ × α)}
    (h : ∀ e ∈ earlier, ∀ i ∈ items, e.1 ≠ i.1) :
    (writeAll ⟨earlier ++ later⟩ items).entries = earlier ++ (writeAll ⟨later⟩ items).entries := by
  induction items generalizing later with
  | nil => rfl
  | cons i rest ih =>
    have hstep : insertEntry i.1 i.2 (earlier ++ later) = earlier ++ insertEntry i.1 i.2 later :=
      insertEntry_append fun e he => h e he i List.mem_cons_self
    change (writeAll ⟨insertEntry i.1 i.2 (earlier ++ later)⟩ rest).entries = _
    rw [hstep]
    exact ih fun e he j hj => h e he j (List.mem_cons_of_mem _ hj)

/-- Lists without common keys make parts of a roll. -/
theorem entries_ofItems_flatMap {ι : Type} {items : ι → List (κ × α)} {lists : List ι}
    (h : lists.Pairwise fun i j => ∀ e ∈ items i, ∀ e' ∈ items j, e.1 ≠ e'.1) :
    (ofItems (lists.flatMap items)).entries =
      lists.flatMap fun i => (ofItems (items i)).entries := by
  induction lists with
  | nil => rfl
  | cons i rest ih =>
    obtain ⟨hfirst, hrest⟩ := List.pairwise_cons.mp h
    have happly : ofItems (items i ++ rest.flatMap items) =
        writeAll ⟨(ofItems (items i)).entries ++ []⟩ (rest.flatMap items) := by
      rw [ofItems, writeAll_append, List.append_nil]
      rfl
    rw [List.flatMap_cons, List.flatMap_cons, happly, entries_writeAll_append, ← ih hrest]
    · rfl
    · intro e he e' he'
      obtain ⟨j, hj, he'⟩ := List.mem_flatMap.mp he'
      have hkey : e.1 ∈ (ofItems (items i)).keys := List.mem_map_of_mem he
      obtain hnil | ⟨v, hv⟩ := mem_keys_writeAll.mp hkey
      · cases hnil
      · exact hfirst j hj _ hv e' he'

/-- Entries with different keys are kept as they are written. -/
theorem entries_ofItems_of_nodup {items : List (κ × α)} (h : (items.map (·.1)).Nodup) :
    (ofItems items).entries = items := by
  have hapart : items.Pairwise fun i j => ∀ e ∈ [i], ∀ e' ∈ [j], e.1 ≠ e'.1 := by
    refine (List.pairwise_map.mp h).imp fun {i j} hne e he e' he' => ?_
    rwa [List.mem_singleton.mp he, List.mem_singleton.mp he']
  have hparts : (ofItems (items.flatMap fun i => [i])).entries =
      items.flatMap fun i => (ofItems [i]).entries := entries_ofItems_flatMap hapart
  rw [List.flatMap_singleton'] at hparts
  rw [hparts]
  exact List.flatMap_singleton' items

/-! ## Other values -/

/-- Values may be changed before or after an entry is written. -/
theorem insertEntry_map (w : α → β) (key : κ) (v : α) (entries : List (κ × α)) :
    insertEntry key (w v) (entries.map (Prod.map id w)) =
      (insertEntry key v entries).map (Prod.map id w) := by
  induction entries with
  | nil => rfl
  | cons e rest ih =>
    obtain ⟨k, u⟩ := e
    simp only [List.map_cons, Prod.map, id_eq, insertEntry]
    split
    · rfl
    · rw [List.map_cons]
      exact congrArg _ ih

/-- Values may be changed before or after a roll is written. -/
theorem entries_ofItems_map (w : α → β) (items : List (κ × α)) :
    (ofItems (items.map (Prod.map id w))).entries =
      (ofItems items).entries.map (Prod.map id w) := by
  have hwrite : ∀ (items entries : List (κ × α)),
      (writeAll ⟨entries.map (Prod.map id w)⟩ (items.map (Prod.map id w))).entries =
        (writeAll ⟨entries⟩ items).entries.map (Prod.map id w) := by
    intro items
    induction items with
    | nil => exact fun _ => rfl
    | cons i rest ih =>
      intro entries
      have hstep := insertEntry_map w i.1 i.2 entries
      change (writeAll ⟨insertEntry i.1 (w i.2) (entries.map (Prod.map id w))⟩ _).entries = _
      rw [hstep]
      exact ih _
  exact hwrite items []

/-- Lists in another order, with other values, make a roll with the same entries in another
order. -/
theorem perm_ofItems {ι ι' : Type} {g : ι → ι'} {w : α → β} {items : ι → List (κ × α)}
    {items' : ι' → List (κ × β)} {lists : List ι} {lists' : List ι'}
    (hperm : (lists.map g).Perm lists')
    (hitems : ∀ i ∈ lists, items' (g i) = (items i).map (Prod.map id w))
    (h : lists.Pairwise fun i j => ∀ e ∈ items i, ∀ e' ∈ items j, e.1 ≠ e'.1) :
    (ofItems (lists'.flatMap items')).entries.Perm
      ((ofItems (lists.flatMap items)).entries.map (Prod.map id w)) := by
  have hmapped : (lists.map g).Pairwise fun i j =>
      ∀ e ∈ items' i, ∀ e' ∈ items' j, e.1 ≠ e'.1 := by
    refine List.pairwise_map.mpr (h.imp_of_mem fun {i j} hi hj hij e he e' he' => ?_)
    rw [hitems i hi] at he
    rw [hitems j hj] at he'
    obtain ⟨d, hd, rfl⟩ := List.mem_map.mp he
    obtain ⟨d', hd', rfl⟩ := List.mem_map.mp he'
    exact hij d hd d' hd'
  have h' := (hperm.pairwise_iff fun {i j} hij e he e' he' heq =>
    hij e' he' e he heq.symm).mp hmapped
  rw [entries_ofItems_flatMap h, entries_ofItems_flatMap h']
  refine (hperm.symm.flatMap_right _).trans (List.Perm.of_eq ?_)
  rw [List.flatMap_map, List.map_flatMap]
  refine List.flatMap_congr fun i hi => ?_
  rw [hitems i hi, entries_ofItems_map]

/-! ## Lookups -/

/-- What is found under a key is the entry of the key, when no key is repeated. -/
theorem find?_eq_some_iff (h : r.keys.Nodup) : r.find? key = some v ↔ (key, v) ∈ r.entries := by
  rw [find?, List.lookup_eq_some_iff]
  constructor
  · rintro ⟨earlier, later, heq, -⟩
    rw [heq]
    exact List.mem_append_right _ List.mem_cons_self
  · intro hmem
    obtain ⟨earlier, later, heq⟩ := List.append_of_mem hmem
    refine ⟨earlier, later, heq, fun e he => ?_⟩
    rw [keys, heq, List.map_append, List.nodup_append] at h
    have hne := h.2.2 e.1 (List.mem_map_of_mem he) key List.mem_cons_self
    exact bne_iff_ne.mpr hne.symm

/-- A roll contains the keys of its entries. -/
theorem contains_iff : r.contains key = true ↔ key ∈ r.keys := by
  rw [contains, ← Bool.not_eq_false, Option.isSome_eq_false_iff, Option.isNone_iff_eq_none, find?,
    List.lookup_eq_none_iff, keys, List.mem_map]
  simp only [bne_iff_ne, not_forall, not_not, exists_prop]
  exact exists_congr fun e => and_congr_right fun _ => eq_comm

/-- A roll does not contain other keys. -/
theorem contains_of_not_mem_keys (h : key ∉ r.keys) : r.contains key = false := by
  rw [← Bool.not_eq_true, contains_iff]
  exact h

/-- A lookup finds the same, whatever the order of the entries. -/
theorem find?_of_perm {w : α → β} {q : Roll κ β}
    (hperm : q.entries.Perm (r.entries.map (Prod.map id w))) (h : r.keys.Nodup) (key : κ) :
    q.find? key = (r.find? key).map w := by
  have hkeys : q.keys.Perm r.keys := by
    refine (hperm.map (·.1)).trans (List.Perm.of_eq ?_)
    rw [List.map_map]
    rfl
  have h' := hkeys.nodup_iff.mpr h
  refine Option.ext fun u => ?_
  rw [find?_eq_some_iff h', hperm.mem_iff, List.mem_map, Option.map_eq_some_iff]
  constructor
  · rintro ⟨⟨k, v⟩, hmem, heq⟩
    cases heq
    exact ⟨v, (find?_eq_some_iff h).mpr hmem, rfl⟩
  · rintro ⟨v, hv, rfl⟩
    exact ⟨(key, v), (find?_eq_some_iff h).mp hv, rfl⟩

end Roll
end StatementForest

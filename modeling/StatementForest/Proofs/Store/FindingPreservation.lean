import StatementForest.Proofs.Store.OperationRelations

/-!
# Operations that keep findings

No operation of the store gives a statement the findings of another one, or takes findings
away.  A statement that was there before keeps its findings, and a new one starts without
any, in the next slot that was never used.

Main results:

- Theorem `Store.KeepsFindings.trans`: findings are kept by one step after another.
- Theorem `Store.keepsFindings_update`, `Store.keepsFindings_alloc`, `Store.keepsFindings_free`:
  every step keeps them.
- Theorem `Store.KeepsFindings.stepwise`: and so every operation does.
-/

namespace StatementForest

/-! ## Findings that are kept -/

/-- A statement of the second store has the findings that it had in the first one, or else is
new and has none. -/
structure Store.KeepsFindings (s t : Store) : Prop where
  size_le : s.slots.size ≤ t.slots.size
  findings : ∀ x n, t.get? x = some n →
    (∃ m, s.get? x = some m ∧ n.findings = m.findings) ∨
      s.slots.size ≤ x.index ∧ n.findings = []

namespace Store

variable {s t u : Store}

namespace KeepsFindings

theorem refl (s : Store) : KeepsFindings s s := ⟨Nat.le_refl _, fun _ n hn => .inl ⟨n, hn, rfl⟩⟩

theorem trans (h : KeepsFindings s t) (h' : KeepsFindings t u) : KeepsFindings s u where
  size_le := Nat.le_trans h.size_le h'.size_le
  findings x n hn := by
    obtain ⟨m, hm, hnm⟩ | ⟨hx, hnone⟩ := h'.findings x n hn
    · rw [hnm]
      exact h.findings x m hm
    · exact .inr ⟨Nat.le_trans h.size_le hx, hnone⟩

/-- A change of trees keeps the findings of all statements. -/
theorem of_slots_eq (h : t.slots = s.slots) : KeepsFindings s t where
  size_le := Nat.le_of_eq (by rw [h])
  findings x n hn := by
    rw [get?, h, ← get?] at hn
    exact .inl ⟨n, hn, rfl⟩

end KeepsFindings

/-- A change that keeps the findings of a statement keeps all findings. -/
theorem keepsFindings_update {f : Node → Node} (hf : ∀ n, (f n).findings = n.findings)
    (id : NodeId) :
    KeepsFindings s (s.update id f) where
  size_le := Nat.le_of_eq (size_slots_update s id f).symm
  findings x n hn := by
    by_cases hx : x = id
    · subst hx
      rw [get?_update_self, Option.map_eq_some_iff] at hn
      obtain ⟨m, hm, rfl⟩ := hn
      exact .inl ⟨m, hm, hf m⟩
    · rw [get?_update_of_ne s f hx] at hn
      exact .inl ⟨n, hn, rfl⟩

/-- Emptying a slot keeps the findings of all others. -/
theorem keepsFindings_free (id : NodeId) : KeepsFindings s (s.free id) where
  size_le := by simp [free]
  findings x n hn := by
    by_cases hx : x = id
    · rw [hx, get?_free_self] at hn
      cases hn
    · rw [get?_free_of_ne s hx] at hn
      exact .inl ⟨n, hn, rfl⟩

/-- A new statement has no findings. -/
theorem keepsFindings_alloc {n : Node} (hnone : n.findings = []) :
    KeepsFindings s (s.alloc n).2 where
  size_le := by simp [alloc]
  findings x m hm := by
    by_cases hx : x = (s.alloc n).1
    · subst hx
      rw [get?_alloc_self] at hm
      cases hm
      exact .inr ⟨Nat.le_refl _, hnone⟩
    · rw [get?_alloc_of_ne s n hx] at hm
      exact .inl ⟨m, hm, rfl⟩

end Store

/-! ## Operations -/

/-- All operations on a store keep findings. -/
theorem Store.KeepsFindings.stepwise : Stepwise Store.KeepsFindings where
  refl := refl
  trans := trans
  of_update _ id _ hf := keepsFindings_update hf.findings id
  of_alloc _ _ hnone := keepsFindings_alloc hnone
  of_slots_eq := of_slots_eq

/-- An operation of the store that keeps findings, also when it fails. -/
def PreservesFindings {α : Type} (m : StoreM α) : Prop := ∀ s : Store, s.KeepsFindings (m s).2

end StatementForest

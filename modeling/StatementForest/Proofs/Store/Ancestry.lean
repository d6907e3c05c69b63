import StatementForest.Store.Traversal
import Mathlib.Data.List.Nodup

/-!
# Ancestry

Where a statement stands is told by its parent, the parent of that, and so on.
This module is about this relation alone, without the lists of children.

Main results:

- Theorem `Store.Grounded.not_below_parent`: a statement whose chain of parents
  ends does not stand above its own parent.
- Theorem `Store.Below.antisymm`, `Store.Below.linear`: the statements above a
  statement are in one line.
- Theorem `Store.Grounded.of_changed`, `Store.below_congr`: what a change of
  some parents means for the chains.
-/

namespace StatementForest
namespace Store

/-! ## Chains of parents -/

/-- The chain of parents of a statement ends. -/
inductive Grounded (s : Store) : NodeId → Prop where
  | top {x : NodeId} (h : s.parentOf x = none) : Grounded s x
  | under {x p : NodeId} (h : s.parentOf x = some p) (hp : Grounded s p) : Grounded s x

/-- `s.Below a x`: the statement `x` is `a` or stands below it. -/
inductive Below (s : Store) (a : NodeId) : NodeId → Prop where
  | self : Below s a a
  | under {x p : NodeId} (h : s.parentOf x = some p) (hp : Below s a p) : Below s a x

/-- `s.Depth x d`: the chain of parents of `x` ends after `d` steps. -/
inductive Depth (s : Store) : NodeId → Nat → Prop where
  | top {x : NodeId} (h : s.parentOf x = none) : Depth s x 0
  | under {x p : NodeId} {d : Nat} (h : s.parentOf x = some p) (hp : Depth s p d) :
      Depth s x (d + 1)

variable {s t : Store} {a b c p x : NodeId}

/-- A statement with a parent is below it. -/
theorem below_of_parentOf (h : s.parentOf x = some p) : s.Below p x := .under h .self

theorem Below.trans (hab : s.Below a b) (hbc : s.Below b c) : s.Below a c := by
  induction hbc with
  | self => exact hab
  | under h _ ih => exact .under h ih

/-- Below a parentless statement only itself has it above. -/
theorem Below.eq_of_parentOf_eq_none (h : s.Below a x) (hx : s.parentOf x = none) : a = x := by
  cases h with
  | self => rfl
  | under hp _ => rw [hx] at hp; cases hp

/-- What stands above a statement with a parent is the statement or stands above the parent. -/
theorem below_iff_of_parentOf (h : s.parentOf x = some p) :
    s.Below a x ↔ a = x ∨ s.Below a p := by
  constructor
  · intro hax
    cases hax with
    | self => exact .inl rfl
    | under h' hp =>
      rw [h] at h'
      cases h'
      exact .inr hp
  · rintro (rfl | hap)
    · exact .self
    · exact .under h hap

/-- A statement that is strictly below another has a parent that is still below it. -/
theorem Below.exists_parent (h : s.Below a x) (hne : a ≠ x) :
    ∃ p, s.parentOf x = some p ∧ s.Below a p := by
  cases h with
  | self => exact absurd rfl hne
  | under hp hap => exact ⟨_, hp, hap⟩

/-- The chain of parents of a parent ends, too. -/
theorem Grounded.parent (h : s.Grounded x) (hp : s.parentOf x = some p) : s.Grounded p := by
  cases h with
  | top hnone => rw [hp] at hnone; cases hnone
  | under hq hgq =>
    rw [hp] at hq
    cases hq
    exact hgq

/-- The chain of a parent does not lead back to the child. -/
theorem Grounded.not_below_parent (hp : s.Grounded p) (hx : s.parentOf x = some p) :
    ¬ s.Below x p := by
  induction hp generalizing x with
  | top hnone =>
    intro hxp
    have heq := hxp.eq_of_parentOf_eq_none hnone
    rw [heq, hnone] at hx
    cases hx
  | @under p q hq _ ih =>
    intro hxp
    rcases (below_iff_of_parentOf hq).mp hxp with rfl | hxq
    · rw [hq] at hx
      cases hx
      exact ih hq .self
    · -- then `p` itself would stand above its parent `q`
      exact ih hq ((below_of_parentOf hx).trans hxq)

/-- Two statements that stand below each other are the same. -/
theorem Below.antisymm (hx : s.Grounded x) (hax : s.Below a x) (hxa : s.Below x a) :
    a = x := by
  by_contra hne
  obtain ⟨p, hp, hap⟩ := hax.exists_parent hne
  exact (hx.parent hp).not_below_parent hp (hxa.trans hap)

/-- Of two statements above a third one, one stands above the other. -/
theorem Below.linear (hax : s.Below a x) (hbx : s.Below b x) :
    s.Below a b ∨ s.Below b a := by
  induction hbx with
  | self => exact .inl hax
  | under h hp ih =>
    rcases (below_iff_of_parentOf h).mp hax with rfl | hap
    · exact .inr (.under h hp)
    · exact ih hap

/-- Above every statement stands one without a parent. -/
theorem Grounded.exists_parentless (hx : s.Grounded x) :
    ∃ a, s.Below a x ∧ s.parentOf a = none := by
  induction hx with
  | @top x h => exact ⟨x, .self, h⟩
  | under h _ ih =>
    obtain ⟨a, ha, hnone⟩ := ih
    exact ⟨a, .under h ha, hnone⟩

/-! ## Depth -/

/-- A statement whose chain of parents ends has a depth. -/
theorem Grounded.exists_depth (hx : s.Grounded x) : ∃ d, s.Depth x d := by
  induction hx with
  | top h => exact ⟨0, .top h⟩
  | under h _ ih =>
    obtain ⟨d, hd⟩ := ih
    exact ⟨d + 1, .under h hd⟩

/-- The statements on a chain of `d` parents are `d + 1` different ones. -/
theorem Depth.exists_chain {d : Nat} (h : s.Depth x d) (hx : s.Grounded x) :
    ∃ chain : List NodeId, chain.length = d + 1 ∧ chain.Nodup ∧ ∀ y ∈ chain, s.Below y x := by
  induction h with
  | @top x h => exact ⟨[x], rfl, List.nodup_singleton x, by simp [Below.self]⟩
  | @under x p d h _ ih =>
    obtain ⟨chain, hlen, hnodup, hbelow⟩ := ih (hx.parent h)
    refine ⟨x :: chain, by simp [hlen], ?_, ?_⟩
    · rw [List.nodup_cons]
      refine ⟨fun hmem => ?_, hnodup⟩
      exact (hx.parent h).not_below_parent h (hbelow x hmem)
    · intro y hy
      rcases List.mem_cons.mp hy with rfl | hy
      · exact .self
      · exact .under h (hbelow y hy)

/-- The walk upwards finds the statements above, once it goes on for long enough. -/
theorem mem_chainWithin {d steps : Nat} (h : s.Depth x d) (hsteps : d ≤ steps) :
    a ∈ s.chainWithin steps x ↔ s.Below a x := by
  induction h generalizing steps with
  | @top x hx =>
    have hiff : s.Below a x ↔ a = x :=
      ⟨fun hax => hax.eq_of_parentOf_eq_none hx, fun heq => heq ▸ .self⟩
    cases steps with
    | zero => simp [chainWithin, hiff]
    | succ steps => simp [chainWithin_succ, hx, hiff]
  | @under x p d hp _ ih =>
    cases steps with
    | zero => omega
    | succ steps =>
      have ih' : a ∈ s.chainWithin steps p ↔ s.Below a p := ih (by omega)
      simp [chainWithin_succ, hp, ih', below_iff_of_parentOf hp]

/-! ## Changes of parents -/

/-- A chain in one store is a chain in another one that has the same parents along it. -/
theorem Below.of_parentOf_eq (h : s.Below a x)
    (heq : ∀ y, s.Below y x → t.parentOf y = s.parentOf y) : t.Below a x := by
  induction h with
  | self => exact .self
  | @under x p hp _ ih =>
    refine .under (by rw [heq x .self]; exact hp) (ih fun y hy => heq y (.under hp hy))

/-- The statements above one whose whole chain keeps its parents stay the same. -/
theorem below_congr (heq : ∀ y, s.Below y x → t.parentOf y = s.parentOf y) :
    t.Below a x ↔ s.Below a x := by
  constructor
  · intro h
    induction h with
    | self => exact .self
    | @under x p hp _ ih =>
      rw [heq x .self] at hp
      exact .under hp (ih fun y hy => heq y (.under hp hy))
  · exact fun h => h.of_parentOf_eq heq

/-- With the same parents the same statements stand below each other. -/
theorem below_congr_of_parentOf_eq (heq : ∀ y, t.parentOf y = s.parentOf y) :
    t.Below a x ↔ s.Below a x :=
  below_congr fun y _ => heq y

/-- What stands below a statement does not depend on the parent of that statement. -/
theorem Below.of_parentOf_eq_of_ne (h : s.Below a x)
    (heq : ∀ y, y ≠ a → t.parentOf y = s.parentOf y) : t.Below a x := by
  induction h with
  | self => exact .self
  | @under x p hp _ ih =>
    by_cases hx : x = a
    · exact hx ▸ .self
    · exact .under (by rw [heq x hx]; exact hp) ih

/-- What stands below a statement does not depend on its own parent. -/
theorem below_congr_of_ne (heq : ∀ y, y ≠ a → t.parentOf y = s.parentOf y) :
    t.Below a x ↔ s.Below a x :=
  ⟨fun h => h.of_parentOf_eq_of_ne fun y hy => (heq y hy).symm,
    fun h => h.of_parentOf_eq_of_ne heq⟩

/-- A chain stays grounded when each of its parents stays the same or is
replaced at a place that is grounded. -/
theorem Grounded.of_changed (hx : s.Grounded x)
    (h : ∀ y, s.Below y x → t.parentOf y = s.parentOf y ∨ t.Grounded y) : t.Grounded x := by
  induction hx with
  | @top x hnone =>
    rcases h x .self with heq | hg
    · exact .top (by rw [heq]; exact hnone)
    · exact hg
  | @under x p hp _ ih =>
    rcases h x .self with heq | hg
    · exact .under (by rw [heq]; exact hp) (ih fun y hy => h y (.under hp hy))
    · exact hg

/-- The chain of parents ends in a store with the same parents on it. -/
theorem Grounded.of_parentOf_eq (hx : s.Grounded x)
    (heq : ∀ y, s.Below y x → t.parentOf y = s.parentOf y) : t.Grounded x :=
  hx.of_changed fun y hy => .inl (heq y hy)

/-- Statements keep their chains when others get a parent or lose theirs, unless the
chain passes one of these. -/
theorem Depth.of_parentOf_eq {d : Nat} (h : s.Depth x d)
    (heq : ∀ y, s.Below y x → t.parentOf y = s.parentOf y) : t.Depth x d := by
  induction h with
  | @top x hnone => exact .top (by rw [heq x .self]; exact hnone)
  | @under x p d hp _ ih =>
    exact .under (by rw [heq x .self]; exact hp) (ih fun y hy => heq y (.under hp hy))

end Store
end StatementForest

import StatementForest.Build.Context

/-!
# Outcomes of operations

An operation ends with a result or with a failure, and leaves a state behind in
both cases.  `Yields` says what holds at the end, with one condition for results
and one for failures, and is derived along the steps of the operation.

Main results:

- Theorem `Yields.bind`: the outcome of two steps from the outcomes of each.
- Theorems `Yields.forM`, `Yields.forM_of_invariant`: the outcome of a loop from
  what one step hands on.
- Theorem `Yields.onStore`: an operation of the store as a building step.
-/

namespace StatementForest

variable {σ α β : Type}

/-- What holds when an operation that started in a state has ended: `Q` of a
result, `E` of a failure, each with the state that is left behind. -/
def Yields (E : Failure → σ → Prop) (m : ExceptT Failure (StateM σ) α) (s : σ)
    (Q : α → σ → Prop) : Prop :=
  match m s with
  | (.ok a, t) => Q a t
  | (.error e, t) => E e t

/-- An operation that ends with a result. -/
def Succeeds (m : ExceptT Failure (StateM σ) α) (s : σ) (Q : α → σ → Prop) : Prop :=
  Yields (fun _ _ => False) m s Q

/-! ## Single steps -/

/-- The second of two operations starts where the first one ended. -/
theorem bind_apply (m : ExceptT Failure (StateM σ) α) (f : α → ExceptT Failure (StateM σ) β)
    (s : σ) :
    (m >>= f) s = match m s with
      | (.ok a, t) => f a t
      | (.error e, t) => (.error e, t) := by
  change (ExceptT.bind m f) s = _
  simp only [ExceptT.bind, ExceptT.mk]
  change StateT.bind m _ s = _
  simp only [StateT.bind]
  rcases m s with ⟨_ | a, t⟩ <;> rfl

/-- A failure of the first operation ends both. -/
theorem bind_apply_of_error {m : ExceptT Failure (StateM σ) α}
    {f : α → ExceptT Failure (StateM σ) β} {s t : σ} {e : Failure} (h : m s = (.error e, t)) :
    (m >>= f) s = (.error e, t) := by
  rw [bind_apply, h]

@[simp]
theorem pure_apply (a : α) (s : σ) :
    (pure a : ExceptT Failure (StateM σ) α) s = (.ok a, s) := rfl

@[simp]
theorem throw_apply (e : Failure) (s : σ) :
    (throw e : ExceptT Failure (StateM σ) α) s = (.error e, s) := rfl

@[simp]
theorem get_apply (s : σ) : (get : ExceptT Failure (StateM σ) σ) s = (.ok s, s) := rfl

@[simp]
theorem modify_apply (f : σ → σ) (s : σ) :
    (modify f : ExceptT Failure (StateM σ) PUnit) s = (.ok ⟨⟩, f s) := rfl

@[simp]
theorem modifyGet_apply (f : σ → α × σ) (s : σ) :
    (modifyGet f : ExceptT Failure (StateM σ) α) s = (.ok (f s).1, (f s).2) := rfl

/-- Leaving a result aside is going on with nothing. -/
theorem discard_eq_bind (m : ExceptT Failure (StateM σ) α) :
    Functor.discard m = m >>= fun _ => pure () := by
  rw [Functor.discard, LawfulFunctor.map_const, Function.comp_apply, map_eq_pure_bind]

/-- Reading leaves the store as it is. -/
@[simp]
theorem query_apply (f : Store → Except Failure α) (s : Store) :
    StoreM.query f s = (f s, s) := by
  unfold StoreM.query
  rw [bind_apply]
  simp only [get_apply]
  rcases f s with e | a <;> rfl

/-! ## Rules for outcomes -/

namespace Yields

variable {E E' : Failure → σ → Prop} {Q : α → σ → Prop} {s : σ}

/-- Less can be said about a more general end. -/
theorem mono {m : ExceptT Failure (StateM σ) α} {Q' : α → σ → Prop}
    (h : Yields E m s Q) (hQ : ∀ a t, Q a t → Q' a t)
    (hE : ∀ e t, E e t → E' e t) : Yields E' m s Q' := by
  unfold Yields at *
  rcases hm : m s with ⟨_ | a, t⟩ <;> rw [hm] at h
  · exact hE _ _ h
  · exact hQ _ _ h

/-- The condition for results can be weakened on its own. -/
theorem imp {m : ExceptT Failure (StateM σ) α} {Q' : α → σ → Prop}
    (h : Yields E m s Q) (hQ : ∀ a t, Q a t → Q' a t) :
    Yields E m s Q' :=
  h.mono hQ fun _ _ hE => hE

/-- Two things that hold at the end hold together. -/
theorem and {m : ExceptT Failure (StateM σ) α} {Q' : α → σ → Prop}
    (h : Yields E m s Q) (h' : Yields E' m s Q') :
    Yields E m s fun a t => Q a t ∧ Q' a t := by
  unfold Yields at *
  rcases hm : m s with ⟨_ | a, t⟩ <;> rw [hm] at h h'
  · exact h
  · exact ⟨h, h'⟩

/-- An operation that succeeds has any condition on its failures. -/
theorem of_succeeds {m : ExceptT Failure (StateM σ) α} (h : Succeeds m s Q) :
    Yields E m s Q :=
  mono h (fun _ _ hQ => hQ) fun _ _ => False.elim

/-- The outcome of two steps. -/
theorem bind {m : ExceptT Failure (StateM σ) α} {f : α → ExceptT Failure (StateM σ) β}
    {Q' : β → σ → Prop} (h : Yields E m s Q)
    (hf : ∀ a t, Q a t → Yields E (f a) t Q') : Yields E (m >>= f) s Q' := by
  unfold Yields at *
  rw [bind_apply]
  rcases hm : m s with ⟨_ | a, t⟩ <;> rw [hm] at h
  · exact h
  · exact hf a t h

/-- The outcome of a step whose end is known. -/
theorem bind_of_eq {m : ExceptT Failure (StateM σ) α} {f : α → ExceptT Failure (StateM σ) β}
    {Q' : β → σ → Prop} {a : α} {t : σ} (hm : m s = (.ok a, t))
    (hf : Yields E (f a) t Q') : Yields E (m >>= f) s Q' := by
  unfold Yields at *
  rw [bind_apply, hm]
  exact hf

/-- Returning a value yields it. -/
theorem pure {a : α} (h : Q a s) : Yields E (pure a) s Q := h

/-- Failing yields the failure. -/
theorem throw {e : Failure} (h : E e s) :
    Yields E (throw e : ExceptT Failure (StateM σ) α) s Q := h

/-- The outcome of an operation whose end is known. -/
theorem of_eq {m : ExceptT Failure (StateM σ) α} {a : α} {t : σ} (hm : m s = (.ok a, t))
    (h : Q a t) : Yields E m s Q := by
  unfold Yields
  rw [hm]
  exact h

/-- The outcome of an operation whose failure is known. -/
theorem of_error {m : ExceptT Failure (StateM σ) α} {e : Failure} {t : σ}
    (hm : m s = (.error e, t)) (h : E e t) : Yields E m s Q := by
  unfold Yields
  rw [hm]
  exact h

/-- A failure of the first step is the failure of both. -/
theorem bind_of_error {m : ExceptT Failure (StateM σ) α}
    {f : α → ExceptT Failure (StateM σ) β} {Q' : β → σ → Prop} {e : Failure} {t : σ}
    (hm : m s = (.error e, t)) (h : E e t) : Yields E (m >>= f) s Q' :=
  of_error (bind_apply_of_error hm) h

/-- The rest of an operation starts from the state that it reads. -/
theorem bind_get {f : σ → ExceptT Failure (StateM σ) β} {Q' : β → σ → Prop}
    (h : Yields E (f s) s Q') : Yields E (get >>= f) s Q' :=
  bind_of_eq (get_apply s) h

/-- What holds of results holds of the result that there is. -/
theorem result {m : ExceptT Failure (StateM σ) α} {a : α} {t : σ} (h : Yields E m s Q)
    (hm : m s = (.ok a, t)) : Q a t := by
  unfold Yields at h
  rwa [hm] at h

/-- What holds of failures holds of the failure that there is. -/
theorem failure {m : ExceptT Failure (StateM σ) α} {e : Failure} {t : σ} (h : Yields E m s Q)
    (hm : m s = (.error e, t)) : E e t := by
  unfold Yields at h
  rwa [hm] at h

/-- What holds at any end holds of the state that is left. -/
theorem snd {m : ExceptT Failure (StateM σ) α} {P : σ → Prop}
    (h : Yields (fun _ t => P t) m s fun _ t => P t) : P (m s).2 := by
  unfold Yields at h
  rcases hm : m s with ⟨_ | a, t⟩ <;> rw [hm] at h <;> exact h

/-- A result that is not needed does not change the outcome. -/
theorem discard {m : ExceptT Failure (StateM σ) α} {P : σ → Prop}
    (h : Yields E m s fun _ t => P t) :
    Yields E (Functor.discard m) s fun _ t => P t := by
  rw [discard_eq_bind]
  exact h.bind fun _ _ ht => pure ht

/-! ### Loops -/

/-- What holds of the items that are left holds of fewer items after each step. -/
theorem forM {f : α → ExceptT Failure (StateM σ) PUnit} {I : List α → σ → Prop}
    {items : List α} (hstart : I items s)
    (hstep : ∀ item rest t, I (item :: rest) t →
      Yields E (f item) t fun _ u => I rest u) :
    Yields E (items.forM f) s fun _ t => I [] t := by
  induction items generalizing s with
  | nil => exact hstart
  | cons item rest ih =>
    change Yields E (f item >>= fun _ => rest.forM f) s _
    exact bind (hstep item rest s hstart) fun _ t ht => ih ht

/-- As before, when every step has a result. -/
theorem mapM {f : α → ExceptT Failure (StateM σ) β} {I : List α → σ → Prop}
    {items : List α} (hstart : I items s)
    (hstep : ∀ item rest t, I (item :: rest) t →
      Yields E (f item) t fun _ u => I rest u) :
    Yields E (items.mapM f) s fun _ t => I [] t := by
  induction items generalizing s with
  | nil => exact hstart
  | cons item rest ih =>
    rw [List.mapM_cons]
    refine bind (hstep item rest s hstart) fun _ t ht => ?_
    exact bind (ih ht) fun _ u hu => pure hu

/-- A loop keeps what every step keeps. -/
theorem forM_of_invariant {f : α → ExceptT Failure (StateM σ) PUnit} {I : σ → Prop}
    {items : List α} (hstart : I s)
    (hstep : ∀ item ∈ items, ∀ t, I t → Yields E (f item) t fun _ u => I u) :
    Yields E (items.forM f) s fun _ t => I t := by
  have h : Yields E (items.forM f) s fun _ t => I t ∧ ∀ item ∈ ([] : List α), item ∈ items := by
    refine forM (I := fun rest t => I t ∧ ∀ item ∈ rest, item ∈ items)
      ⟨hstart, fun _ hmem => hmem⟩ ?_
    intro item rest t ⟨ht, hsub⟩
    apply (hstep item (hsub item List.mem_cons_self) t ht).imp
    intro _ u hu
    exact ⟨hu, fun x hx => hsub x (List.mem_cons_of_mem _ hx)⟩
  exact h.imp fun _ _ ht => ht.1

end Yields

/-- An operation that succeeds has a result. -/
theorem Succeeds.exists_result {m : ExceptT Failure (StateM σ) α} {Q : α → σ → Prop} {s : σ}
    (h : Succeeds m s Q) : ∃ a t, m s = (.ok a, t) ∧ Q a t := by
  rcases hm : m s with ⟨e | a, t⟩
  · exact (Yields.failure h hm).elim
  · exact ⟨a, t, rfl, Yields.result h hm⟩

/-- An operation that has a result under one condition only, and then just one. -/
theorem Succeeds.exactly {m : ExceptT Failure (StateM σ) α} {s : σ} {C : Prop}
    {Q : α → σ → Prop}
    (hneeds : ∀ a t, m s = (.ok a, t) → C) (hdoes : C → Succeeds m s Q)
    (hunique : ∀ a t b u, Q a t → Q b u → a = b ∧ t = u) :
    ((∃ a t, m s = (.ok a, t)) ↔ C) ∧ ∀ a t, m s = (.ok a, t) ↔ C ∧ Q a t := by
  have hfinds : C → ∃ a t, m s = (.ok a, t) := fun hc =>
    let ⟨a, t, hrun, _⟩ := (hdoes hc).exists_result
    ⟨a, t, hrun⟩
  refine ⟨⟨fun ⟨a, t, hrun⟩ => hneeds a t hrun, hfinds⟩, fun a t => ⟨fun hrun => ?_, ?_⟩⟩
  · have hc := hneeds a t hrun
    exact ⟨hc, Yields.result (hdoes hc) hrun⟩
  · rintro ⟨hc, hq⟩
    obtain ⟨b, u, hrun, hq'⟩ := (hdoes hc).exists_result
    obtain ⟨rfl, rfl⟩ := hunique a t b u hq hq'
    exact hrun

/-! ## Steps on the store -/

namespace StoreM

variable {s : Store} {id : NodeId} {n : Node} {r : RootId} {tree : Tree}

theorem node_apply (h : s.get? id = some n) : StoreM.node id s = (.ok n, s) := by
  simp only [StoreM.node, query_apply, Store.node, h]

theorem node_apply_of_none (h : s.get? id = none) :
    StoreM.node id s = (.error (.nodeNotFound id), s) := by
  simp only [StoreM.node, query_apply, Store.node, h]

theorem tree_apply (h : s.tree? r = some tree) : StoreM.tree r s = (.ok tree, s) := by
  simp only [StoreM.tree, query_apply, Store.tree, h]

theorem tree_apply_of_none (h : s.tree? r = none) :
    StoreM.tree r s = (.error (.rootNotFound r), s) := by
  simp only [StoreM.tree, query_apply, Store.tree, h]

theorem childrenOf_apply (h : s.get? id = some n) :
    StoreM.childrenOf id s = (.ok n.children, s) := by
  simp only [StoreM.childrenOf, bind_apply, node_apply h, pure_apply]

theorem childrenWithKey_apply (h : s.get? id = some n) (key : Key) :
    StoreM.childrenWithKey id key s = (.ok (s.childrenWithKey id key), s) := by
  simp only [StoreM.childrenWithKey, bind_apply, node_apply h, get_apply, pure_apply]

theorem childrenOfKeyword_apply (h : s.get? id = some n) (k : Keyword) :
    StoreM.childrenOfKeyword id k s = (.ok (s.childrenOfKeyword id k), s) := by
  simp only [StoreM.childrenOfKeyword, bind_apply, node_apply h, get_apply, pure_apply]

theorem update_apply (h : s.get? id = some n) (f : Node → Node) :
    StoreM.update id f s = (.ok ⟨⟩, s.update id f) := by
  simp only [StoreM.update, bind_apply, node_apply h, modify_apply]

theorem updateTree_apply (h : s.tree? r = some tree) (f : Tree → Tree) :
    StoreM.updateTree r f s = (.ok ⟨⟩, s.updateTree r f) := by
  simp only [StoreM.updateTree, bind_apply, tree_apply h, modify_apply]

end StoreM

/-- A building step that only works on the store. -/
theorem onStore_apply (m : StoreM α) (state : BuildState) :
    BuildM.onStore m state = ((m state.store).1, { state with store := (m state.store).2 }) := by
  rcases state with ⟨store, log⟩
  rfl

/-- The outcome of an operation of the store is that of the building step. -/
theorem Yields.onStore {E : Failure → BuildState → Prop} {m : StoreM α} {state : BuildState}
    {Q : α → Store → Prop}
    (h : Yields (fun e t => E e { state with store := t }) m state.store Q) :
    Yields E (BuildM.onStore m) state fun a t =>
      Q a t.store ∧ t.log = state.log := by
  unfold Yields at *
  rw [onStore_apply]
  rcases hm : m state.store with ⟨_ | a, t⟩ <;> rw [hm] at h
  · exact h
  · exact ⟨h, rfl⟩

end StatementForest

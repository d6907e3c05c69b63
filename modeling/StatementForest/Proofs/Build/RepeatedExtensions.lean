import StatementForest.Proofs.Build.ChildNumbering
import StatementForest.Proofs.Build.SingleUseExtensions

/-!
# Extensions that occur too often

When a statement has been built, each extension below it whose rule allows one of it is called
repeated exactly when an earlier child of its parent has its key.  Where no core statement has the
key either, these are the children of the key behind the first one, and their order is that of the
document, whatever prefixes they were written with.

A core statement is never called repeated.  It has the key of an extension when a qualifier is bound
to the module of the core language, and then it counts like the others.

Main results:

- Theorem `CallsRightly.trans`: what is said of statements stays right from step to step.
- Theorem `BuildM.populate_callsRightly`: after populating, the right statements are called
  repeated, by recursion on the element.
- Theorem `CalledRightly.childrenWithKey_view`: the children of a key stand in document order.
- Theorem `BuildM.process_calls_repeated`: what is called repeated in the subtree of a new
  statement.

Current gaps:

- Suppliers know extensions by rules alone.  Classes with checks of their own are not modelled.
-/

namespace StatementForest

open Store ChildStep

/-! ## Statements that are called rightly -/

/-- A statement is what its element stands for, its children view what the steps extract from the
element, and it is called repeated when it is. -/
structure CalledRightly (env : Environment) (s : Store) (x : NodeId) : Prop where
  called : s.CalledRepeated x ↔ s.IsRepeated x
  viewed : ∃ e r, env.suppliers.resolveElement e = .ok r ∧
    s.faceOf x = some (r.key, r.variant, e) ∧ (s.childrenOf x).map s.elementOf =
      ((extracted (env.stepsFor e r.variant)).filter (·.isStatement)).map some

/-- A statement stays called rightly while other statements are added, behind it if they are
children of its parent. -/
theorem CalledRightly.extend {env : Environment} {s t : Store} {x : NodeId}
    (h : CalledRightly env s x)
    (o : s.Owned) (hst : Extends s t) (hx : s.contains x = true)
    (hcalled : t.CalledRepeated x ↔ s.CalledRepeated x)
    (hchildren : t.childrenOf x = s.childrenOf x)
    (hgrown : ∀ p, s.parentOf x = some p → s.childrenOf p <+: t.childrenOf p) :
    CalledRightly env t x where
  called := (hcalled.trans h.called).trans (isRepeated_iff_of_extends o hst hx hgrown).symm
  viewed := by
    obtain ⟨e, r, hr, hface, hview⟩ := h.viewed
    refine ⟨e, r, hr, (hst.faceOf x hx).trans hface, ?_⟩
    rw [hchildren, hst.map_elementOf fun c hc => o.wired.contains_child hc, hview]

/-- Statements have been added below one that was there, and are called rightly.  The others keep
what they are called and their children, and the one gets its new children behind the old ones. -/
structure CallsRightly (env : Environment) (id : NodeId) (a b : BuildState) : Prop where
  ext : Extends a.store b.store
  policy : b.log.policy = a.log.policy
  called : ∀ x, a.store.contains x = true → x ≠ id →
    (b.store.CalledRepeated x ↔ a.store.CalledRepeated x)
  childrenOf : ∀ x, a.store.contains x = true → x ≠ id →
    b.store.childrenOf x = a.store.childrenOf x
  grown : a.store.childrenOf id <+: b.store.childrenOf id
  judged : ∀ x, b.store.contains x = true → a.store.contains x = false → CalledRightly env b.store x

namespace CallsRightly

variable {env : Environment} {id c : NodeId} {a b d : BuildState}

/-- The children of a statement that was there come first among its children. -/
theorem children_prefix (h : CallsRightly env id a b) {p : NodeId}
    (hp : a.store.contains p = true) :
    a.store.childrenOf p <+: b.store.childrenOf p := by
  by_cases hpid : p = id
  · exact hpid ▸ h.grown
  · exact h.childrenOf p hp hpid ▸ List.prefix_rfl

/-- A step that only records findings and calls nothing repeated calls the right statements so. -/
theorem of_recordsFindings {findings : List Finding} (o : a.store.Owned)
    (h : RecordsFindings findings a b)
    (hsame : BuildM.SameCalls a b) : CallsRightly env id a b where
  ext := Extends.of_parallel o h.parallel
  policy := h.log.policy
  called x _ _ := hsame x
  childrenOf x _ _ := h.parallel.childrenOf x
  grown := h.parallel.childrenOf _ ▸ List.prefix_rfl
  judged x hx hnew := by
    rw [h.parallel.contains, hnew] at hx
    cases hx

/-- First a statement gets children, then the same one does, or a new one that is called rightly at
the end. -/
theorem trans (h : CallsRightly env id a b) (h' : CallsRightly env c b d)
    (hid : a.store.contains id = true)
    (hc : c = id ∨ a.store.contains c = false ∧ CalledRightly env d.store c) :
    CallsRightly env id a d := by
  have hne : ∀ x, a.store.contains x = true → x ≠ id → x ≠ c := by
    rintro x hx hxid rfl
    obtain rfl | ⟨hnew, -⟩ := hc
    · exact hxid rfl
    · exact ne_of_contains hx hnew rfl
  refine ⟨h.ext.trans h'.ext, h'.policy.trans h.policy, fun x hx hxid => ?_, fun x hx hxid => ?_,
    h.grown.trans (h'.children_prefix (h.ext.contains id hid)), fun x hx hnew => ?_⟩
  · exact (h'.called x (h.ext.contains x hx) (hne x hx hxid)).trans (h.called x hx hxid)
  · exact (h'.childrenOf x (h.ext.contains x hx) (hne x hx hxid)).trans (h.childrenOf x hx hxid)
  rcases hold : b.store.contains x with _ | _
  · exact h'.judged x hx hold
  by_cases hxc : x = c
  · obtain rfl | ⟨-, hrightly⟩ := hc
    · exact absurd hxc.symm (ne_of_contains hid hnew)
    · exact hxc ▸ hrightly
  · refine (h.judged x hold hnew).extend h.ext.owned h'.ext hold (h'.called x hold hxc)
      (h'.childrenOf x hold hxc) fun p hp => ?_
    exact h'.children_prefix (h.ext.owned.wired.contains_parent hp)

end CallsRightly

/-! ## New statements -/

/-- A statement that has just been made is what its element stands for, has no children, is called
nothing, and is the last child of its parent. -/
structure Store.JustMade (s : Store) (id : NodeId) (e : Element) (r : Resolution) : Prop where
  face : s.faceOf id = some (r.key, r.variant, e)
  childrenOf : s.childrenOf id = []
  uncalled : ¬ s.CalledRepeated id
  last : ∀ p, s.parentOf id = some p → ∃ earlier, s.childrenOf p = earlier ++ [id]

/-- A statement that has just been made has no children. -/
theorem Store.JustMade.blank {s : Store} {id : NodeId} {e : Element} {r : Resolution}
    (h : s.JustMade id e r) : s.Blank id e r.variant := by
  obtain ⟨n, hn, hface⟩ := Option.map_eq_some_iff.mp h.face
  exact ⟨n, hn, congrArg (·.2.2) hface, congrArg (·.2.1) hface,
    (childrenOf_of_get? hn).symm.trans h.childrenOf⟩

namespace Store.Made

variable {s t : Store} {e : Element} {r : Resolution} {parent? : Option NodeId} {root : RootId}

/-- Making a statement for an element leaves one that has just been made. -/
theorem justMade (h : Made s t e r parent? root) : t.JustMade s.fresh e r := by
  obtain ⟨own, hbelow, hown⟩ := h.made
  refine ⟨?_, h.blank.childrenOf, ?_, fun p hp => ?_⟩
  · rw [faceOf, hown]
    rfl
  · rintro ⟨n, hn, f, hf, -⟩
    cases hown.symm.trans hn
    cases hf
  · obtain rfl : parent? = some p := (parentOf_of_get? hown).symm.trans hp
    obtain ⟨m, hm, -⟩ := Option.map_eq_some_iff.mp hbelow
    rw [h.childrenOf (contains_iff.mpr ⟨m, hm⟩), if_pos rfl]
    exact ⟨_, rfl⟩

/-- What is called repeated is not touched. -/
theorem sameCalls (h : Made s t e r parent? root) : s.SameCalls t := by
  intro x
  rcases hn : s.get? x with _ | n
  · by_cases hx : x = s.fresh
    · have hnot : ¬ s.CalledRepeated x := fun ⟨n, hsome, _⟩ => by
        rw [hn] at hsome
        cases hsome
      exact iff_of_false (hx ▸ h.justMade.uncalled) hnot
    · rw [CalledRepeated, CalledRepeated, h.vacant x hx hn, hn]
  · rw [CalledRepeated, CalledRepeated, h.stayed x n hn, hn]
    simp

end Store.Made

namespace CallsRightly

/-- A new statement stays the last child of its parent while it gets children. -/
theorem last {env : Environment} {id : NodeId} {a b : BuildState} {e : Element} {r : Resolution}
    (h : CallsRightly env id a b) (hid : a.store.contains id = true) (w : a.store.Wired)
    (hnascent : a.store.JustMade id e r) {p : NodeId} (hp : b.store.parentOf id = some p) :
    ∃ earlier, b.store.childrenOf p = earlier ++ [id] := by
  rw [h.ext.parentOf id hid] at hp
  obtain ⟨earlier, hearlier⟩ := hnascent.last p hp
  have hne : p ≠ id := by
    rintro rfl
    rw [hnascent.childrenOf] at hearlier
    simp at hearlier
  exact ⟨earlier, (h.childrenOf p (w.contains_parent hp) hne).trans hearlier⟩

variable {env : Environment} {id : NodeId} {a b d : BuildState} {child : Element} {r : Resolution}
  {root : RootId}

/-- A new statement has been put below another one, and has been populated. -/
theorem of_child (hid : a.store.contains id = true) (hlog : b.log = a.log)
    (hmade : Made a.store b.store child r (some id) root) (hext : Extends a.store b.store)
    (h : CallsRightly env a.store.fresh b d) (hrightly : CalledRightly env d.store a.store.fresh) :
    CallsRightly env id a d ∧ (d.store.CalledRepeated id ↔ a.store.CalledRepeated id) := by
  have hcalled : ∀ x, a.store.contains x = true →
      (d.store.CalledRepeated x ↔ a.store.CalledRepeated x) := fun x hx =>
    (h.called x (hext.contains x hx) (ne_fresh_of_contains hx)).trans (hmade.sameCalls x)
  refine ⟨⟨hext.trans h.ext, h.policy.trans (by rw [hlog]), fun x hx _ => hcalled x hx,
    fun x hx hxid => ?_, ?_, fun x hx hnew => ?_⟩, hcalled id hid⟩
  · rw [h.childrenOf x (hext.contains x hx) (ne_fresh_of_contains hx), hmade.childrenOf hx,
      if_neg fun heq => hxid (Option.some.inj heq).symm]
  · rw [h.childrenOf id (hext.contains id hid) (ne_fresh_of_contains hid), hmade.childrenOf hid,
      if_pos rfl]
    exact List.prefix_append _ _
  · rcases hold : b.store.contains x with _ | _
    · exact h.judged x hx hold
    · rw [hmade.eq_fresh hold hnew]
      exact hrightly

end CallsRightly

/-! ## Populating -/

namespace BuildM

variable {env : Environment} {state : BuildState} {id : NodeId} {e : Element} {r : Resolution}
  {s : Store}

/-- A state in which a statement can get children, and in which what is wrong with extensions is
reported. -/
structure ReadyForChildren (id : NodeId) (state : BuildState) : Prop where
  owned : state.store.Owned
  contains : state.store.contains id = true
  shown : state.log.policy.suppresses .invalidExtension = false

/-- A relation that can be put together while a statement gets its children, and that holds of
checks that keep something else. -/
structure ChildRelation (env : Environment) (id : NodeId) (S R : BuildState → BuildState → Prop) :
    Prop where
  refl : ∀ a, ReadyForChildren id a → R a a
  trans : ∀ {a b c}, ReadyForChildren id a → R a b → R b c → R a c
  ready : ∀ {a b}, ReadyForChildren id a → R a b → ReadyForChildren id b
  check : ∀ {m : BuildM Unit} {a}, ReadyForChildren id a → OnlyReports env m a → Relates S m →
    Succeeds m a fun _ b => R a b

namespace ChildRelation

variable {S R : BuildState → BuildState → Prop} (g : ChildRelation env id S R)

include g

/-- It holds of the steps for the children if it holds of each of them. -/
theorem runSteps (h : ReadyForChildren id state) {name : String} {steps : List ChildStep}
    {extract : (child : Element) → .extract child ∈ steps → BuildM Unit}
    (hrepeated : ∀ message, Relates S (reportOn env id .cardinalityViolation message))
    (hextract : ∀ child hstep t, ReadyForChildren id t →
      Succeeds (extract child hstep) t fun _ u => R t u) :
    Succeeds (BuildM.runSteps env id name steps extract) state fun _ t => R state t := by
  refine runSteps_composes (R := fun _ => R)
    (I := ReadyForChildren id) g.refl g.trans g.ready h hextract ?_
  exact fun child t ht => g.check ht (OnlyReports.reportOn ht.contains _ _) (hrepeated _)

/-- Then it holds of populating a core statement. -/
theorem populate_core {k : Keyword} (h : ReadyForChildren id state)
    (hrepeated : ∀ message, Relates S (reportOn env id .cardinalityViolation message))
    (hmissing : Relates S (reportMissing env id (env.grammar.below k) e))
    (hcomplete : Relates S (completeCore env id k (env.grammar.below k) e))
    (hextract : ∀ child ∈ e.children, ∀ t, ReadyForChildren id t →
      Succeeds (Functor.discard (extractChild env id child)) t fun _ u => R t u) :
    Succeeds (populate env id e (.core k)) state fun _ t => R state t := by
  rw [BuildM.populate_core]
  refine Yields.bind (g.runSteps h hrepeated fun child hstep =>
    hextract child (mem_of_extract_mem_grammarSteps hstep)) fun _ a ha => ?_
  have hreadya := g.ready h ha
  refine Yields.bind (g.check hreadya (OnlyReports.reportMissing hreadya.contains _ e) hmissing)
    fun _ b hb => ?_
  have hreadyb := g.ready hreadya hb
  refine Yields.bind (g.runSteps hreadyb hrepeated fun child hstep =>
    hextract child (mem_of_extract_mem_extensionSteps hstep)) fun _ c hc => ?_
  have hreadyc := g.ready hreadyb hc
  refine (g.check hreadyc (OnlyReports.completeCore hreadyc.owned.wired hreadyc.contains k _ e)
    hcomplete).imp fun _ d hd => ?_
  exact g.trans h ha (g.trans hreadya hb (g.trans hreadyb hc hd))

end ChildRelation

/-- A child element is reported when no statement can be made of it.  Otherwise the new statement is
put below its parent and populated, in a state that is ready for that. -/
theorem extractChild_makes {child : Element} {Q : BuildState → Prop} (h : ReadyForChildren id state)
    (hreport : ∀ f, child.Rejects f → (∀ x, f.node? = some x → state.store.contains x = true) →
      Succeeds (report env f) state fun _ t => Q t)
    (hpopulate : ∀ r root (t : BuildState), env.suppliers.resolveElement child = .ok r →
      t.log = state.log → ReadyForChildren state.store.fresh t → Extends state.store t.store →
      Made state.store t.store child r (some id) root →
      Succeeds (populate env state.store.fresh child r.variant) t fun _ u => Q u) :
    Succeeds (Functor.discard (extractChild env id child)) state fun _ t => Q t := by
  refine extractChild_succeeds (A := fun r root t => Extends state.store t ∧
    Made state.store t child r (some id) root) h.contains (fun f _ hrejects => ?_)
    (fun r root hr => ?_) ?_
  · refine hreport f hrejects fun x hx => ?_
    have hnode : f.node? = none := by cases hrejects <;> rfl
    rw [hnode] at hx
    cases hx
  · obtain ⟨t, hrun, ht⟩ := StoreM.instantiate_some_created h.owned h.contains hr root
    obtain ⟨-, hblank, ot, hlink, -⟩ :=
      Yields.result (instantiate_some_blank h.owned h.contains hr root) hrun
    exact Yields.of_eq hrun ⟨rfl, hblank, Extends.of_fresh ot hlink, ht⟩
  · rintro r root t - hr hlog - ⟨hext, hmade⟩
    exact hpopulate r root t hr hlog
      ⟨hext.owned, hmade.blank.contains, by rw [hlog, h.shown]⟩ hext hmade

/-- While a statement gets its children it is called what it was. -/
def KeepsOwnCalls (env : Environment) (id : NodeId) (a b : BuildState) : Prop :=
  CallsRightly env id a b ∧ (b.store.CalledRepeated id ↔ a.store.CalledRepeated id)

/-- Recording findings that call nothing repeated keeps what a statement is called. -/
theorem KeepsOwnCalls.of_recordsFindings {findings : List Finding} {a b : BuildState}
    (o : a.store.Owned)
    (h : RecordsFindings findings a b ∧ SameCalls a b) : KeepsOwnCalls env id a b :=
  ⟨.of_recordsFindings o h.1 h.2, h.2 id⟩

theorem KeepsOwnCalls.trans {a b c : BuildState} (h : KeepsOwnCalls env id a b)
    (h' : KeepsOwnCalls env id b c) (hid : a.store.contains id = true) : KeepsOwnCalls env id a c :=
  ⟨h.1.trans h'.1 hid (.inl rfl), h'.2.trans h.2⟩

/-- A state stays ready for children while the statement is called the same. -/
theorem ReadyForChildren.keepsOwnCalls {a b : BuildState} (h : ReadyForChildren id a)
    (hab : KeepsOwnCalls env id a b) :
    ReadyForChildren id b where
  owned := hab.1.ext.owned
  contains := hab.1.ext.contains id h.contains
  shown := by rw [hab.1.policy, h.shown]

/-- A check that calls nothing repeated. -/
theorem keepsOwnCalls_of_onlyReports {α : Type} {m : BuildM α} (hstop : env.stopAt = none)
    (h : ReadyForChildren id state) (hreports : OnlyReports env m state)
    (hsame : Relates SameCalls m) :
    Succeeds m state fun _ t => KeepsOwnCalls env id state t :=
  (same_of_onlyReports hstop hreports hsame).imp fun _ _ ht => .of_recordsFindings h.owned ht

/-- Calling a statement the same is a relation for getting children. -/
theorem childRelation_keepsOwnCalls (hstop : env.stopAt = none) (id : NodeId) :
    ChildRelation env id SameCalls (KeepsOwnCalls env id) where
  refl a ha := .of_recordsFindings ha.owned ⟨RecordsFindings.refl a, SameCalls.composable.refl a⟩
  trans ha hab hbc := hab.trans hbc ha.contains
  ready ha hab := ha.keepsOwnCalls hab
  check ha hreports hsame := keepsOwnCalls_of_onlyReports hstop ha hreports hsame

/-- A child element becomes a statement that is called rightly, given that statements are populated
from it. -/
theorem extractChild_callsRightly (hstop : env.stopAt = none) {child : Element}
    (hpopulate : ∀ (r : Resolution) (c : NodeId) (t : BuildState),
      env.suppliers.resolveElement child = .ok r → ReadyForChildren c t →
        t.store.JustMade c child r →
        Succeeds (populate env c child r.variant) t fun _ u =>
          CallsRightly env c t u ∧ CalledRightly env u.store c)
    (h : ReadyForChildren id state) :
    Succeeds (Functor.discard (extractChild env id child)) state fun _ t =>
      KeepsOwnCalls env id state t := by
  refine extractChild_makes h (fun f hrejects hlive => ?_) fun r root t hr hlog ht hext hmade => ?_
  · refine keepsOwnCalls_of_onlyReports hstop h (OnlyReports.report hlive)
      (SameCalls.report fun x hx => ?_)
    cases hrejects <;> cases hx
  · refine (hpopulate r _ t hr ht hmade.justMade).imp fun _ u hu => ?_
    exact CallsRightly.of_child h.contains hlog hmade hext hu.1 hu.2

/-- Populating a core statement calls the right statements repeated, when extracting each child
does. -/
theorem populate_core_callsRightly (hstop : env.stopAt = none) {k : Keyword}
    (h : ReadyForChildren id state)
    (hextract : ∀ child ∈ e.children, ∀ t, ReadyForChildren id t →
      Succeeds (Functor.discard (extractChild env id child)) t fun _ u =>
        KeepsOwnCalls env id t u) :
    Succeeds (populate env id e (.core k)) state fun _ t => KeepsOwnCalls env id state t :=
  (childRelation_keepsOwnCalls hstop id).populate_core h (fun _ => SameCalls.reportOn id nofun)
    (SameCalls.reportMissing id _ e) (SameCalls.completeCore id k _ e) hextract

/-- Populating an extension calls it repeated when its rule asks for that. -/
theorem populate_extension_callsRightly (hstop : env.stopAt = none) {supplier : Option Nat}
    {c : ExtensionClass} (h : ReadyForChildren id state)
    (hextract : ∀ child ∈ e.children, ∀ t, ReadyForChildren id t →
      Succeeds (Functor.discard (extractChild env id child)) t fun _ u =>
        KeepsOwnCalls env id t u) :
    Succeeds (populate env id e (.extension supplier c)) state fun _ t =>
      ∃ a, KeepsOwnCalls env id state a ∧ Parallel a.store t.store ∧ CallsRightly env id state t ∧
        (t.store.CalledRepeated id ↔ state.store.CalledRepeated id ∨ a.store.Exceeds id c) := by
  rw [populate_extension]
  refine Yields.bind ((childRelation_keepsOwnCalls hstop id).runSteps h
    (fun _ => SameCalls.reportOn id nofun) fun child hstep =>
    hextract child (mem_of_extract_mem_freeSteps hstep)) fun _ a ha => ?_
  have hready := h.keepsOwnCalls ha
  refine (completeExtension_calls hstop hready.shown hready.contains hready.owned.wired c).imp ?_
  intro _ t ⟨ht, hcalls⟩
  refine ⟨a, ha, ht.parallel, ha.1.trans ?_ h.contains (.inl rfl), ?_⟩
  · exact {
      ext := Extends.of_parallel hready.owned ht.parallel
      policy := ht.log.policy
      called := fun x _ hx => (hcalls x).trans (or_iff_left fun hself => hx hself.1)
      childrenOf := fun x _ _ => ht.parallel.childrenOf x
      grown := ht.parallel.childrenOf _ ▸ List.prefix_rfl
      judged := fun x hx hnew => by
        rw [ht.parallel.contains, hnew] at hx
        cases hx }
  · rw [hcalls id, ha.2]
    simp

/-- After populating a new statement it is called rightly, and so is every statement that is made
for it. -/
theorem populate_callsRightly (hstop : env.stopAt = none)
    (hrules : ∀ s ∈ env.suppliers.members, s.MadeOfRules) (e : Element) (r : Resolution)
    (id : NodeId) (state : BuildState) (hr : env.suppliers.resolveElement e = .ok r)
    (h : ReadyForChildren id state) (hnascent : state.store.JustMade id e r) :
    Succeeds (populate env id e r.variant) state fun _ t =>
      CallsRightly env id state t ∧ CalledRightly env t.store id := by
  have hextract : ∀ child ∈ e.children, ∀ t, ReadyForChildren id t →
      Succeeds (Functor.discard (extractChild env id child)) t
        fun _ u => KeepsOwnCalls env id t u := by
    intro child hmem t ht
    have := Element.sizeOf_lt_of_mem_children hmem
    exact extractChild_callsRightly hstop (fun r c u hr hu hnew =>
      populate_callsRightly hstop hrules child r c u hr hu hnew) ht
  have hid := h.contains
  suffices hcalls : Succeeds (populate env id e r.variant) state fun _ t =>
      CallsRightly env id state t ∧ (t.store.CalledRepeated id ↔ t.store.IsRepeated id) by
    refine (hcalls.and (populate_extractsChildren hstop h.owned hnascent.blank)).imp ?_
    intro _ t ⟨⟨hjudging, hcalled⟩, hextracted⟩
    refine ⟨hjudging, hcalled, e, r, hr, (hjudging.ext.faceOf id hid).trans hnascent.face, ?_⟩
    rw [hextracted.view, hnascent.childrenOf]
    rfl
  obtain ⟨key, k | ⟨supplier, c⟩⟩ := r
  · refine (populate_core_callsRightly hstop h hextract).imp fun _ t ⟨hjudging, hcalled⟩ => ?_
    refine ⟨hjudging, iff_of_false (fun hcall => hnascent.uncalled (hcalled.mp hcall)) ?_⟩
    rintro ⟨_, _, _, _, _, hface, -⟩
    rw [hjudging.ext.faceOf id hid, hnascent.face] at hface
    cases hface
  · refine (populate_extension_callsRightly hstop h hextract).imp ?_
    intro _ t ⟨a, ha, hparallel, hjudging, hcalled⟩
    refine ⟨hjudging, hcalled.trans ((or_iff_right hnascent.uncalled).trans ?_)⟩
    have oa := ha.1.ext.owned
    have hkey : ∀ rule, c = .ruled rule → rule.key = key := by
      rintro rule rfl
      exact Suppliers.key_of_resolveElement hrules hr
    have hface := (ha.1.ext.faceOf id hid).trans hnascent.face
    rw [← isRepeated_iff_exceeds oa.wired.nodup_children hface hkey fun p =>
      ha.1.last hid h.owned.wired hnascent]
    refine (isRepeated_iff_of_extends oa (Extends.of_parallel oa hparallel)
      (ha.1.ext.contains id hid) fun p _ => ?_).symm
    exact hparallel.childrenOf p ▸ List.prefix_rfl
termination_by sizeOf e

end BuildM

/-! ## Document order -/

/-- No list of the grammar names an extension. -/
def Grammar.NamesNoExtension (g : Grammar) : Prop :=
  ∀ name c, g.find? name = some c → ∀ child, c.allows child = true → ':' ∉ child.toList

/-- Proper lists name no extension. -/
theorem Grammar.Proper.namesNoExtension {g : Grammar} (h : g.Proper) : g.NamesNoExtension :=
  fun name c hc => (h name c hc).unqualified

/-- The lists of a keyword name no extension when the grammar names none. -/
theorem Grammar.NamesNoExtension.below {g : Grammar} (h : g.NamesNoExtension) (k : Keyword)
    {child : String} (hallows : (g.below k).allows child = true) : ':' ∉ child.toList := by
  rw [Grammar.below] at hallows
  rcases hc : g.find? k.text with _ | c <;> rw [hc] at hallows
  · cases hallows
  · exact h _ c hc child hallows

namespace Element

/-- The element uses the extension of a key. -/
def uses (key : Key) (e : Element) : Bool := e.extensionKey? = some key

variable {e : Element} {key : Key}

/-- An element that uses an extension has a bound qualifier. -/
theorem isBound_of_uses (h : e.uses key = true) : e.isBound = true := by
  rw [← isSome_extensionKey?, of_decide_eq_true h]
  rfl

/-- An element that uses an extension has a qualifier. -/
theorem isQualified_of_uses (h : e.uses key = true) : e.isQualified = true :=
  isQualified_of_isBound (isBound_of_uses h)

/-- An element that uses an extension becomes a statement. -/
theorem isStatement_of_uses (h : e.uses key = true) : e.isStatement = true := by
  rw [isStatement, if_pos (isQualified_of_uses h), isBound_of_uses h]

end Element

/-- A test that all uses of an extension pass takes none of them away. -/
theorem filter_uses_filter {key : Key} {test : Element → Bool}
    (h : ∀ child : Element, child.uses key = true → test child = true) (children : List Element) :
    (children.filter test).filter (·.uses key) = children.filter (·.uses key) := by
  rw [List.filter_filter]
  refine List.filter_congr fun child _ => ?_
  rcases huses : child.uses key with _ | _
  · rfl
  · rw [h child huses]
    rfl

/-- Children without qualifiers use no extension. -/
theorem filter_uses_eq_nil {key : Key} {children : List Element}
    (h : ∀ child ∈ children, child.isQualified = false) :
    children.filter (·.uses key) = [] := by
  refine List.filter_eq_nil_iff.mpr fun child hmem huses => ?_
  have hqualified := Element.isQualified_of_uses huses
  rw [h child hmem] at hqualified
  cases hqualified

/-- Of the children of an element those that use an extension become statements in the order of the
document. -/
theorem filter_uses_stepsFor {env : Environment} (hg : env.grammar.NamesNoExtension) (e : Element)
    (v : Variant) (key : Key) :
    ((extracted (env.stepsFor e v)).filter (·.isStatement)).filter (·.uses key) =
      e.children.filter (·.uses key) := by
  rw [filter_uses_filter fun _ => Element.isStatement_of_uses]
  have hqualified : (e.children.filter (·.isQualified)).filter (·.uses key) =
      e.children.filter (·.uses key) :=
    filter_uses_filter (fun _ => Element.isQualified_of_uses) e.children
  cases v with
  | core k =>
    have hplain : ∀ child ∈ extracted (grammarSteps (env.grammar.below k) e.children),
        child.isQualified = false := by
      intro child hmem
      have hallows := allows_of_mem_grammarSteps (mem_extracted.mp hmem)
      rw [Element.isQualified, ← Bool.not_eq_true, List.contains_iff_mem]
      exact hg.below k hallows
    rw [Environment.stepsFor, extracted_append, List.filter_append, filter_uses_eq_nil hplain,
      extracted_extensionSteps, hqualified, List.nil_append]
  | extension supplier c =>
    have hplain : ∀ child ∈ e.children.filter (!·.isQualified), child.isQualified = false :=
      fun child hmem => by simpa using (List.mem_filter.mp hmem).2
    rw [Environment.stepsFor, extracted_freeSteps, List.filter_append, filter_uses_eq_nil hplain,
      hqualified, List.nil_append]

/-- A key of the core language may belong to core statements.  This one is an extension then. -/
def Store.IsProperUse (s : Store) (key : Key) (c : NodeId) : Prop :=
  key.isCore = true → ∀ n, s.get? c = some n → n.isExtension = true

namespace CalledRightly

variable {env : Environment} {s : Store} {p c : NodeId} {key : Key}

/-- A statement has the key of the extension that its element uses, unless it is a core
statement. -/
theorem hasKey_eq_uses (h : CalledRightly env s c)
    (hkeyed : s.hasKey key c = true → s.IsProperUse key c) :
    s.hasKey key c = (s.elementOf c).any (·.uses key) := by
  obtain ⟨e, r, hr, hface, -⟩ := h.viewed
  have helement : s.elementOf c = some e := by
    rw [elementOf, hface]
    rfl
  have hkey : s.hasKey key c = decide (r.key = key) := by
    rw [hasKey, hface]
    rfl
  rw [helement, Option.any_some, Element.uses, hkey, decide_eq_decide]
  constructor
  · rintro rfl
    obtain ⟨⟨k, hk⟩, hcore⟩ | ⟨huses, -⟩ := Suppliers.resolveElement_cases hr
    · obtain ⟨n, hn, hnface⟩ := Option.map_eq_some_iff.mp hface
      have hvariant : n.variant = .core k := (congrArg (·.2.1) hnface).trans hk
      have hextension := hkeyed (by rw [hkey, decide_eq_true rfl]) hcore n hn
      simp [Node.isExtension, Node.keyword?, hvariant] at hextension
    · exact huses
  · intro huses
    rw [Suppliers.resolveElement_of_extensionKey? _ huses] at hr
    rw [← Except.ok.inj hr]

/-- The children of a key stand in the order of the document, when none of them is a core
statement. -/
theorem childrenWithKey_view (hg : env.grammar.NamesNoExtension) (h : CalledRightly env s p)
    (hchildren : ∀ c ∈ s.childrenOf p, CalledRightly env s c)
    (hkeyed : ∀ c ∈ s.childrenWithKey p key, s.IsProperUse key c)
    {e : Element} (he : s.elementOf p = some e) :
    (s.childrenWithKey p key).map s.elementOf = (e.children.filter (·.uses key)).map some := by
  obtain ⟨e', r, -, hface, hview⟩ := h.viewed
  obtain rfl : e' = e := by
    rw [elementOf, hface] at he
    exact Option.some.inj he
  have hkeys : s.childrenWithKey p key =
      (s.childrenOf p).filter ((fun e? => e?.any (·.uses key)) ∘ s.elementOf) := by
    rw [childrenWithKey_eq]
    refine List.filter_congr fun c hc => (hchildren c hc).hasKey_eq_uses fun hkey => ?_
    refine hkeyed c ?_
    rw [childrenWithKey_eq]
    exact List.mem_filter.mpr ⟨hc, hkey⟩
  rw [hkeys, ← List.filter_map, hview, List.filter_map, ← filter_uses_stepsFor hg e' r.variant key]
  rfl

/-- An extension with the key of a rule that allows one is repeated when it stands behind the first
child of its key. -/
theorem isRepeated_iff_mem_tail (h : CalledRightly env s c) (w : s.Wired) {i : Nat}
    {rule : ExtensionRule}
    (hrule : env.suppliers.resolve? key = some (i, .ruled rule)) (honce : rule.repeatable = false)
    (hc : c ∈ s.childrenWithKey p key) (hkeyed : s.IsProperUse key c) :
    s.IsRepeated c ↔ c ∈ (s.childrenWithKey p key).tail := by
  have hmem := hc
  rw [childrenWithKey_eq, List.mem_filter] at hmem
  have hparent := w.parentOf_of_mem hmem.1
  obtain ⟨e, r, hr, hface, -⟩ := h.viewed
  have huses : e.extensionKey? = some key := by
    have hany : s.hasKey key c = _ := h.hasKey_eq_uses fun _ => hkeyed
    rw [hmem.2, elementOf, hface] at hany
    exact of_decide_eq_true hany.symm
  rw [Suppliers.resolveElement_of_extensionKey? _ huses, Suppliers.variantOf, hrule] at hr
  obtain rfl := Except.ok.inj hr
  rw [← earlierTwins_ne_zero_iff (w.nodup_children p) hc]
  constructor
  · rintro ⟨_, _, _, _, q, hface', -, hq, htwins⟩
    rw [hface] at hface'
    rw [hparent] at hq
    cases hface'
    cases hq
    exact htwins
  · exact fun htwins => ⟨key, some i, rule, e, p, hface, honce, hparent, htwins⟩

end CalledRightly

/-! ## The subtree of a new statement -/

namespace BuildM

variable {env : Environment} {state : BuildState} {id : NodeId} {e : Element} {s : Store}

/-- A new statement is processed by populating it. -/
theorem process_of_blank {v : Variant} (h : state.store.Blank id e v) :
    process env id state = populate env id e v state := by
  obtain ⟨n, hn, rfl, rfl, -⟩ := h
  rw [process, bind_apply, Reading.node_apply hn]

/-- Processing a new statement never fails when nothing asks to stop.  Then every statement in its
subtree is called rightly, and no other statement is called repeated that was not before. -/
theorem process_callsRightly (hstop : env.stopAt = none)
    (hrules : ∀ s ∈ env.suppliers.members, s.MadeOfRules)
    (hshown : state.log.policy.suppresses .invalidExtension = false) (o : state.store.Owned)
    {parent? : Option NodeId} {root : RootId}
    (hnew : StoreM.instantiate env.suppliers e parent? root state.store =
      (.ok (.created id), s)) :
    ∃ t, process env id { state with store := s } = (.ok (), t) ∧ t.store.Owned ∧
      t.store.elementOf id = some e ∧
      (∀ x, t.store.CalledRepeated x → state.store.CalledRepeated x ∨ t.store.IsRepeated x) ∧
      ∀ x, t.store.Below id x → CalledRightly env t.store x := by
  have os : s.Owned := (StoreM.instantiate_outcome o env.suppliers e parent? root).result hnew
  obtain ⟨rfl, r, hr, hmade⟩ := StoreM.made_of_instantiate_eq o hnew
  have hid := hmade.blank.contains
  obtain ⟨_, t, hrun, hjudging, hrightly⟩ := (populate_callsRightly hstop hrules e r _
    { state with store := s } hr ⟨os, hid, hshown⟩ hmade.justMade).exists_result
  refine ⟨t, (process_of_blank hmade.blank).trans hrun, hjudging.ext.owned, ?_, fun x hx => ?_,
    fun x hx => ?_⟩
  · rw [hjudging.ext.elementOf hid, hmade.blank.elementOf]
  · by_cases hself : x = state.store.fresh
    · exact .inr (hself ▸ hrightly.called.mp (hself ▸ hx))
    rcases hold : s.contains x with _ | _
    · have hlive : t.store.contains x = true := by
        obtain ⟨m, hm, -⟩ := hx
        exact contains_iff.mpr ⟨m, hm⟩
      exact .inr ((hjudging.judged x hlive hold).called.mp hx)
    · exact .inl ((hmade.sameCalls x).mp ((hjudging.called x hold hself).mp hx))
  · obtain rfl | ⟨hlive, hfresh⟩ :=
      hjudging.ext.new_of_below os.wired hmade.blank.childrenOf hx
    · exact hrightly
    · exact hjudging.judged x hlive hfresh

/-- Processing a new statement never fails when nothing asks to stop.  Then exactly those extensions
in its subtree are called repeated whose rule allows one and whose parent has an earlier child of
their key.  When no core child of the parent has the key either, these are the children of the key
behind the first one, in the order of the document.  Nothing else is called repeated that was not
before. -/
theorem process_calls_repeated (hstop : env.stopAt = none) (hg : env.grammar.NamesNoExtension)
    (hrules : ∀ s ∈ env.suppliers.members, s.MadeOfRules)
    (hshown : state.log.policy.suppresses .invalidExtension = false) (o : state.store.Owned)
    {parent? : Option NodeId} {root : RootId}
    (hnew : StoreM.instantiate env.suppliers e parent? root state.store =
      (.ok (.created id), s)) :
    ∃ t, process env id { state with store := s } = (.ok (), t) ∧ t.store.elementOf id = some e ∧
      (∀ x, t.store.CalledRepeated x → state.store.CalledRepeated x ∨ t.store.IsRepeated x) ∧
      (∀ x, t.store.Below id x → (t.store.CalledRepeated x ↔ t.store.IsRepeated x)) ∧
      ∀ p, t.store.Below id p → ∃ n, t.store.get? p = some n ∧ ∀ key i rule,
        env.suppliers.resolve? key = some (i, .ruled rule) → rule.repeatable = false →
        (key.isCore = true → ∀ c ∈ t.store.childrenWithKey p key, ∀ m,
          t.store.get? c = some m → m.isExtension = true) →
        (t.store.childrenWithKey p key).map t.store.elementOf =
            (n.element.children.filter (·.uses key)).map some ∧
          ∀ c ∈ t.store.childrenWithKey p key,
            t.store.CalledRepeated c ↔ c ∈ (t.store.childrenWithKey p key).tail := by
  obtain ⟨t, hrun, ot, helement, hothers, hrightly⟩ :=
    process_callsRightly hstop hrules hshown o hnew
  refine ⟨t, hrun, helement, hothers, fun x hx => (hrightly x hx).called, fun p hp => ?_⟩
  have hchildren : ∀ c ∈ t.store.childrenOf p, CalledRightly env t.store c := fun c hc =>
    hrightly c (.under (ot.wired.parentOf_of_mem hc) hp)
  obtain ⟨_, r, -, hface, -⟩ := (hrightly p hp).viewed
  obtain ⟨n, hn, -⟩ := Option.map_eq_some_iff.mp hface
  refine ⟨n, hn, fun key i rule hrule honce hextension => ⟨?_, fun c hc => ?_⟩⟩
  · exact (hrightly p hp).childrenWithKey_view hg hchildren (fun c hc hcore =>
      hextension hcore c hc) (elementOf_of_get? hn)
  · have hmem := hc
    rw [childrenWithKey_eq, List.mem_filter] at hmem
    have hj := hchildren c hmem.1
    rw [hj.called, hj.isRepeated_iff_mem_tail ot.wired hrule honce hc fun hcore =>
      hextension hcore c hc]

/-! ### Samples -/

/-- A rule that allows one leaf, as if leaves were extensions. -/
def leafRule : ExtensionRule where
  key := Key.core "leaf"

/-- A rule that allows one mark. -/
def markRule : ExtensionRule where
  key := ⟨"vendor", "mark"⟩

/-- An environment whose only supplier knows one rule. -/
def ruledBy (rule : ExtensionRule) : Environment where
  grammar := .standard
  suppliers := ⟨[Supplier.withRule { name := "supplier" } rule]⟩

/-- An element in a module that has two prefixes for the vendor. -/
def vendorElement (name : String) (children : List Element) : Element :=
  { name, value := none, line := none, source := none, children,
    scope := { home := "m", bindings := Dictionary.ofList [("x", "vendor"), ("y", "vendor")] } }

/-- A supplier of one rule is made of rules. -/
theorem madeOfRules_ruledBy (rule : ExtensionRule) :
    ∀ s ∈ (ruledBy rule).suppliers.members, s.MadeOfRules :=
  List.forall_mem_singleton.mpr (.withRule rule (.empty _))

/-- A container with two marks, written with different prefixes and apart from each other. -/
def markedContainer : Element :=
  vendorElement "container"
    [vendorElement "x:mark" [], vendorElement "leaf" [], vendorElement "y:mark" []]

/-- Only the second one of the marks is called repeated. -/
theorem process_calls_repeated_markedContainer : ∃ s t c d,
    StoreM.instantiate (ruledBy markRule).suppliers markedContainer none ⟨0⟩ ({} : Store) =
        (.ok (.created ⟨0⟩), s) ∧
      process (ruledBy markRule) ⟨0⟩ { store := s } = (.ok (), t) ∧
      t.store.childrenWithKey ⟨0⟩ markRule.key = [c, d] ∧
      t.store.elementOf d = some (vendorElement "y:mark" []) ∧
      ¬ t.store.CalledRepeated c ∧ t.store.CalledRepeated d := by
  have hcontainer : (ruledBy markRule).suppliers.resolveElement markedContainer =
      .ok ⟨Key.core "container", .core .container⟩ := by rfl
  obtain ⟨s, hs, -⟩ := StoreM.instantiate_none_created (s := {}) hcontainer ⟨0⟩
  have hprocess := @process_calls_repeated (ruledBy markRule) {} ⟨0⟩ markedContainer s rfl
    Grammar.proper_standard.namesNoExtension (madeOfRules_ruledBy markRule) rfl Owned.empty
    none ⟨0⟩ hs
  obtain ⟨t, hrun, helement, -, -, hmarks⟩ := hprocess
  obtain ⟨n, hn, hmarks⟩ := hmarks ⟨0⟩ .self
  rw [elementOf_of_get? hn] at helement
  obtain ⟨hview, hcalled⟩ := hmarks markRule.key 0 markRule rfl rfl
    fun hcore => absurd hcore (by decide)
  rw [Option.some.inj helement] at hview
  have huses : markedContainer.children.filter (·.uses markRule.key) =
      [vendorElement "x:mark" [], vendorElement "y:mark" []] := by rfl
  rw [huses] at hview
  obtain ⟨c, _, hkeys, hc, hrest⟩ := List.map_eq_cons_iff.mp hview
  obtain ⟨d, rfl, hd⟩ := List.map_eq_singleton_iff.mp hrest
  have hne : c ≠ d := by
    rintro rfl
    have hname := congrArg (Option.map Element.name) (hc.symm.trans hd)
    exact absurd hname (by decide)
  refine ⟨s, t, c, d, hs, hrun, hkeys, hd, ?_, ?_⟩
  · rw [hcalled c (by simp [hkeys]), hkeys]
    simpa using hne
  · rw [hcalled d (by simp [hkeys]), hkeys]
    exact List.mem_cons_self

/-- A container with two leaves. -/
def leafyContainer : Element :=
  vendorElement "container" [vendorElement "leaf" [], vendorElement "leaf" []]

/-- A rule that allows one leaf takes leaves for extensions.  The second leaf has its key, and is
not called repeated. -/
theorem process_spares_second_leaf : ∃ s t c,
    StoreM.instantiate (ruledBy leafRule).suppliers leafyContainer none ⟨0⟩ ({} : Store) =
        (.ok (.created ⟨0⟩), s) ∧
      process (ruledBy leafRule) ⟨0⟩ { store := s } = (.ok (), t) ∧
      (ruledBy leafRule).stopAt = none ∧ (ruledBy leafRule).grammar.NamesNoExtension ∧
      (∀ s ∈ (ruledBy leafRule).suppliers.members, s.MadeOfRules) ∧
      (ruledBy leafRule).suppliers.resolve? leafRule.key = some (0, .ruled leafRule) ∧
      leafRule.repeatable = false ∧
      c ∈ (t.store.childrenWithKey ⟨0⟩ leafRule.key).tail ∧ ¬ t.store.CalledRepeated c := by
  have hcontainer : (ruledBy leafRule).suppliers.resolveElement leafyContainer =
      .ok ⟨Key.core "container", .core .container⟩ := by rfl
  obtain ⟨s, hs, -⟩ := StoreM.instantiate_none_created (s := {}) hcontainer ⟨0⟩
  obtain ⟨t, hrun, ot, helement, -, hrightly⟩ := @process_callsRightly (ruledBy leafRule) {} ⟨0⟩
    leafyContainer s rfl (madeOfRules_ruledBy leafRule) rfl Owned.empty none ⟨0⟩ hs
  obtain ⟨e, r, hr, hface, hview⟩ := (hrightly ⟨0⟩ .self).viewed
  obtain rfl : e = leafyContainer := by
    rw [elementOf, hface] at helement
    exact Option.some.inj helement
  obtain rfl := Except.ok.inj (hr.symm.trans hcontainer)
  have hkept : (extracted ((ruledBy leafRule).stepsFor leafyContainer (.core .container))).filter
      (·.isStatement) = [vendorElement "leaf" [], vendorElement "leaf" []] := by rfl
  rw [hkept] at hview
  obtain ⟨c, _, hchildren, hc, hrest⟩ := List.map_eq_cons_iff.mp hview
  obtain ⟨d, rfl, hd⟩ := List.map_eq_singleton_iff.mp hrest
  have hleaf : ∀ x ∈ t.store.childrenOf ⟨0⟩, t.store.elementOf x = some (vendorElement "leaf" []) →
      t.store.hasKey leafRule.key x = true ∧ ¬ t.store.CalledRepeated x := by
    intro x hx hleaf
    have hj := hrightly x (.under (ot.wired.parentOf_of_mem hx) .self)
    obtain ⟨e, r, hr, hface, -⟩ := hj.viewed
    obtain rfl : e = vendorElement "leaf" [] := by
      rw [elementOf, hface] at hleaf
      exact Option.some.inj hleaf
    have hresolve : (ruledBy leafRule).suppliers.resolveElement (vendorElement "leaf" []) =
        .ok ⟨Key.core "leaf", .core .leaf⟩ := by rfl
    obtain rfl := Except.ok.inj (hr.symm.trans hresolve)
    refine ⟨hasKey_of_faceOf hface, fun hcall => ?_⟩
    obtain ⟨_, _, _, _, _, hface', -⟩ := hj.called.mp hcall
    rw [hface] at hface'
    cases hface'
  obtain ⟨hckey, -⟩ := hleaf c (by simp [hchildren]) hc
  obtain ⟨hdkey, hnot⟩ := hleaf d (by simp [hchildren]) hd
  refine ⟨s, t, d, hs, hrun, rfl, Grammar.proper_standard.namesNoExtension,
    madeOfRules_ruledBy leafRule, rfl, rfl, ?_, hnot⟩
  rw [childrenWithKey_eq, hchildren]
  simp [hckey, hdkey]

end BuildM
end StatementForest

import StatementForest.Proofs.Build.CheckFaults
import StatementForest.Proofs.Store.InstantiateEffect

/-!
# What is said about extensions that may occur once

The rule of an extension may allow one of it below a parent.  An extension is looked at for this
when its own children are in place, which is before the next child of its parent is made.  It is
the last child then, so its parent has several children of its key when an earlier one has the key.
The children that come later change neither this nor what has been said.

Main results:

- Theorem `BuildM.completeExtension_calls`: completing an extension calls it repeated when its
  parent has several children of its key, and calls nothing else so.
- Theorem `Store.isRepeated_iff_exceeds`: for the last child of a parent this is so when an earlier
  one has its key.
- Theorem `Store.isRepeated_iff_of_extends`: an extension stays repeated or not.
- Theorem `Store.earlierTwins_ne_zero_iff`: the children behind the first one of their key.
-/

namespace StatementForest

open Store

/-! ## Suppliers of rules -/

/-- Suppliers that know extensions by rules alone, each under its own key. -/
inductive Supplier.MadeOfRules : Supplier → Prop where
  | empty (name : String) : MadeOfRules { name }
  | withRule {s : Supplier} (rule : ExtensionRule) (h : MadeOfRules s) :
      MadeOfRules (s.withRule rule)

/-- What such a supplier knows under a key is a rule with this key. -/
theorem Supplier.MadeOfRules.key_of_find? {s : Supplier} (h : s.MadeOfRules) {key : Key}
    {c : ExtensionClass} (hc : s.find? key = some c) :
    ∃ rule, c = .ruled rule ∧ rule.key = key := by
  induction h with
  | empty name => cases hc
  | @withRule s rule _ ih =>
    by_cases hkey : key = rule.key
    · rw [hkey, find?, Supplier.withRule, Roll.find?_insert_self] at hc
      cases hc
      exact ⟨rule, rfl, hkey.symm⟩
    · rw [find?, Supplier.withRule, Roll.find?_insert_of_ne _ _ hkey] at hc
      exact ih hc

/-- What is found among suppliers is known to one of them. -/
theorem Suppliers.exists_find?_of_findFrom {key : Key} {members : List Supplier} {index i : Nat}
    {c : ExtensionClass} (h : findFrom key index members = some (i, c)) :
    ∃ s ∈ members, s.find? key = some c := by
  induction members generalizing index with
  | nil => cases h
  | cons s rest ih =>
    rw [findFrom] at h
    split at h
    · next hc =>
      cases h
      exact ⟨s, List.mem_cons_self, hc⟩
    · obtain ⟨s', hs', hc⟩ := ih h
      exact ⟨s', List.mem_cons_of_mem _ hs', hc⟩

/-- Among suppliers of rules a key belongs to the rule that is found by it. -/
theorem Suppliers.key_of_resolve? {suppliers : Suppliers}
    (h : ∀ s ∈ suppliers.members, s.MadeOfRules) {key : Key} {i : Nat} {rule : ExtensionRule}
    (hrule : suppliers.resolve? key = some (i, .ruled rule)) : rule.key = key := by
  obtain ⟨s, hs, hc⟩ := exists_find?_of_findFrom hrule
  obtain ⟨_, ⟨⟩, hkey⟩ := (h s hs).key_of_find? hc
  exact hkey

/-! ## Elements that use extensions -/

/-- The key of the extension that an element uses, if its qualifier is bound. -/
def Element.extensionKey? (e : Element) : Option Key :=
  match e.splitName with
  | (some qualifier, name) => (e.scope.module? qualifier).map fun module => ⟨module, name⟩
  | (none, _) => none

/-- An element uses an extension when its qualifier is bound. -/
theorem Element.isSome_extensionKey? (e : Element) : e.extensionKey?.isSome = e.isBound := by
  rw [extensionKey?, isBound]
  split <;> simp_all

/-- The variant of the statements of an extension. -/
def Suppliers.variantOf (s : Suppliers) (key : Key) : Variant :=
  match s.resolve? key with
  | some (index, c) => .extension (some index) c
  | none => .extension none .generic

/-- An element that uses an extension stands for it. -/
theorem Suppliers.resolveElement_of_extensionKey? (s : Suppliers) {e : Element} {key : Key}
    (h : e.extensionKey? = some key) : s.resolveElement e = .ok ⟨key, s.variantOf key⟩ := by
  rw [Element.extensionKey?] at h
  split at h
  · next qualifier name hsplit =>
    obtain ⟨module, hmodule, rfl⟩ := Option.map_eq_some_iff.mp h
    rw [resolveElement, hsplit, variantOf]
    simp only [hmodule]
    rcases s.resolve? ⟨module, name⟩ with _ | ⟨index, c⟩ <;> rfl
  · cases h

/-- A statement is made for a keyword or for the use of an extension. -/
theorem Suppliers.resolveElement_cases {s : Suppliers} {e : Element} {r : Resolution}
    (h : s.resolveElement e = .ok r) : (∃ k, r.variant = .core k) ∧ r.key.isCore = true ∨
      e.extensionKey? = some r.key ∧ r.variant = s.variantOf r.key := by
  rcases hkey : e.extensionKey? with _ | key
  · left
    rw [Element.extensionKey?] at hkey
    rw [resolveElement] at h
    split at hkey
    · next qualifier name hsplit =>
      simp only [hsplit, Option.map_eq_none_iff.mp hkey] at h
      cases h
    · next name hsplit =>
      rcases hk : Keyword.ofText? name with _ | k <;> simp only [hsplit, hk] at h <;> cases h
      exact ⟨⟨k, rfl⟩, Key.isCore_core name⟩
  · rw [resolveElement_of_extensionKey? s hkey] at h
    cases h
    exact .inr ⟨rfl, rfl⟩

/-- Among suppliers of rules the rule of a statement has the key of the statement. -/
theorem Suppliers.key_of_resolveElement {suppliers : Suppliers}
    (h : ∀ s ∈ suppliers.members, s.MadeOfRules) {e : Element} {key : Key} {supplier : Option Nat}
    {rule : ExtensionRule}
    (hr : suppliers.resolveElement e = .ok ⟨key, .extension supplier (.ruled rule)⟩) :
    rule.key = key := by
  obtain ⟨⟨_, ⟨⟩⟩, -⟩ | ⟨-, hvariant⟩ := resolveElement_cases hr
  rw [variantOf] at hvariant
  split at hvariant
  · next hrule =>
    cases hvariant
    exact key_of_resolve? h hrule
  · cases hvariant

/-! ## Extensions that are called repeated -/

namespace Store

variable {s t : Store} {x id p c : NodeId} {key : Key}

/-- A finding of the statement says that it occurs too often below its parent. -/
def CalledRepeated (s : Store) (x : NodeId) : Prop :=
  ∃ n, s.get? x = some n ∧ ∃ f ∈ n.findings, (f.kind, f.message) = Fault.repetition

/-- The same statements are called repeated in two stores. -/
def SameCalls (s t : Store) : Prop := ∀ x, t.CalledRepeated x ↔ s.CalledRepeated x

/-- A change that keeps the findings of a statement calls the same statements repeated. -/
theorem calledRepeated_update {f : Node → Node} (hf : ∀ n, (f n).findings = n.findings)
    (id : NodeId) : (s.update id f).CalledRepeated x ↔ s.CalledRepeated x := by
  rw [CalledRepeated, CalledRepeated, get?_update]
  split
  · rcases s.get? x with _ | n
    · rfl
    · simp [hf]
  · rfl

/-- A new statement is called nothing. -/
theorem calledRepeated_alloc {n : Node} (hnone : n.findings = []) :
    (s.alloc n).2.CalledRepeated x ↔ s.CalledRepeated x := by
  by_cases hx : x = s.fresh
  · rw [CalledRepeated, CalledRepeated, hx, get?_alloc_fresh, get?_fresh]
    simp [hnone]
  · rw [CalledRepeated, CalledRepeated, get?_alloc_of_ne _ _ hx]

/-- All operations on a store call the same statements repeated. -/
theorem SameCalls.stepwise : Stepwise SameCalls where
  refl _ _ := Iff.rfl
  trans h h' x := (h' x).trans (h x)
  of_update _ id _ hf _ := calledRepeated_update hf.findings id
  of_alloc _ _ hnone _ := calledRepeated_alloc hnone
  of_slots_eq h x := by rw [CalledRepeated, CalledRepeated, get?, get?, h]

/-- Attaching a finding calls a statement repeated only when it says so of this statement. -/
theorem calledRepeated_attachFinding (f : Finding) :
    (s.attachFinding f).CalledRepeated x ↔ s.CalledRepeated x ∨
      s.contains x = true ∧ f.node? = some x ∧ (f.kind, f.message) = Fault.repetition := by
  rw [attachFinding]
  rcases f.node? with _ | id
  · simp
  by_cases hx : x = id
  · subst hx
    rw [CalledRepeated, CalledRepeated, get?_update_self, contains]
    rcases s.get? x with _ | n <;> simp [mem_insertFinding, or_and_right, exists_or]
  · have hne : some id ≠ some x := fun h => hx (Option.some.inj h).symm
    rw [CalledRepeated, get?_update_of_ne s _ hx, ← CalledRepeated]
    simp [hne]

end Store

namespace BuildM

variable {env : Environment} {state : BuildState} {id x : NodeId} {f : Finding}

/-- Two states in which the same statements are called repeated. -/
def SameCalls (a b : BuildState) : Prop := a.store.SameCalls b.store

/-- Steps that call the same statements repeated do so one after the other. -/
theorem SameCalls.composable : Composable SameCalls where
  refl _ _ := Iff.rfl
  trans h h' x := (h' x).trans (h x)

/-- A step on the store calls the same statements repeated when the operation does. -/
theorem SameCalls.onStore {α : Type} {m : StoreM α} (h : Relates Store.SameCalls m) :
    Relates SameCalls (onStore m) := fun state => by
  rw [onStore_apply]
  exact h state.store

/-- A report of a kind that is not suppressed. -/
theorem report_apply_of_shown (hstop : env.stopAt = none)
    (hshown : state.log.policy.suppresses f.kind = false) :
    report env f state = (.ok (), reported state f) := by
  rw [SeverityPolicy.suppresses, Option.isNone_eq_false_iff, Option.isSome_iff_exists] at hshown
  obtain ⟨severity, hseverity⟩ := hshown
  rw [report_apply_of_some hseverity, hstop]
  rfl

/-- A report calls a statement repeated only when it says so of this statement. -/
theorem reported_calls : (reported state f).store.CalledRepeated x ↔
    state.store.CalledRepeated x ∨ state.store.contains x = true ∧ f.node? = some x ∧
      (f.kind, f.message) = Fault.repetition :=
  calledRepeated_attachFinding f

/-- A report of something else. -/
theorem SameCalls.report (h : ∀ x, f.node? = some x → (f.kind, f.message) ≠ Fault.repetition) :
    Relates SameCalls (report env f) := by
  intro state
  rcases hsev : state.log.severityOf f with _ | severity
  · rw [report_apply_of_none hsev]
    exact composable.refl state
  rw [report_apply_of_some hsev]
  intro x
  rw [reported_calls]
  exact or_iff_left fun ⟨_, hnode, hremarks⟩ => h x hnode hremarks

/-- A report about something else calls the same statements repeated. -/
theorem SameCalls.reportOn (id : NodeId) {kind : FindingKind} {message : String}
    (h : (kind, message) ≠ Fault.repetition) : Relates SameCalls (reportOn env id kind message) :=
  composable.bind (onStore (Store.SameCalls.stepwise.node id)) fun _ => report fun _ _ => h

/-- Most checks call nothing repeated. -/
theorem SameCalls.checkRelation : CheckRelation env SameCalls where
  toComposable := composable
  blame id fault? h := by
    cases fault? with
    | none => exact composable.pure ()
    | some fault => exact reportOn id (h fault rfl).ne_repetition
  recordVersion id := onStore (Store.SameCalls.stepwise.recordVersion id)

/-- Reporting missing children calls the same statements repeated. -/
theorem SameCalls.reportMissing (id : NodeId) (c : Cardinalities) (e : Element) :
    Relates SameCalls (reportMissing env id c e) :=
  composable.forM _ fun _ _ => reportOn id nofun

/-- Completing a core statement calls the same statements repeated. -/
theorem SameCalls.completeCore (id : NodeId) (k : Keyword) (c : Cardinalities) (e : Element) :
    Relates SameCalls (completeCore env id k c e) := by
  refine composable.bind (checkRelation.checkCoreArgument id k) fun _ => ?_
  refine composable.bind (checkRelation.checkContent id k) fun _ => ?_
  refine composable.bind (composable.forM _ fun child _ => report fun x hx => ?_) fun _ => ?_
  · cases hx
  · exact onStore (Store.SameCalls.stepwise.numberChildren id)

end BuildM

/-! ## Extensions that are repeated -/

namespace Store

variable {s t : Store} {x id p c : NodeId} {key : Key} {earlier later children : List NodeId}

/-- Whether a statement has a key. -/
def hasKey (s : Store) (key : Key) (c : NodeId) : Bool := (s.faceOf c).any (·.1 = key)

/-- The rule of an extension allows one of it below a parent, and an earlier child of its parent
has its key. -/
def IsRepeated (s : Store) (x : NodeId) : Prop :=
  ∃ key supplier rule e p, s.faceOf x = some (key, .extension supplier (.ruled rule), e) ∧
    rule.repeatable = false ∧ s.parentOf x = some p ∧
    s.earlierTwins (s.childrenOf p) x key ≠ 0

/-- The rule of an extension allows one of it below a parent, and its parent has several children
with the key of the rule. -/
def Exceeds (s : Store) (id : NodeId) (c : ExtensionClass) : Prop :=
  ∃ rule p, c = .ruled rule ∧ rule.repeatable = false ∧ s.parentOf id = some p ∧
    2 ≤ (s.childrenWithKey p rule.key).length

/-- A rule that allows one of an extension is exceeded by two children with its key. -/
theorem exceeds_ruled_iff {s : Store} {id : NodeId} {n : Node} (hn : s.get? id = some n)
    {rule : ExtensionRule} : s.Exceeds id (.ruled rule) ↔
      rule.repeatable = false ∧ ∃ p, n.parent = some p ∧
        2 ≤ (s.childrenWithKey p rule.key).length := by
  rw [Exceeds, parentOf_of_get? hn]
  constructor
  · rintro ⟨_, p, ⟨⟩, hrule, hp, hmany⟩
    exact ⟨hrule, p, hp, hmany⟩
  · rintro ⟨hrule, p, hp, hmany⟩
    exact ⟨rule, p, rfl, hrule, hp, hmany⟩

/-- Whether a statement has a key is read off the statement. -/
theorem hasKey_eq (s : Store) (key : Key) (c : NodeId) :
    s.hasKey key c = (s.get? c).any (·.key = key) := by
  rw [hasKey, faceOf, Option.any_map]
  rfl

/-- A statement has the key that belongs to what it is. -/
theorem hasKey_of_faceOf {v : Variant} {e : Element} (h : s.faceOf x = some (key, v, e)) :
    s.hasKey key x = true := by
  simp [hasKey, h]

/-- The children with a key are selected from all children. -/
theorem childrenWithKey_eq (s : Store) (p : NodeId) (key : Key) :
    s.childrenWithKey p key = (s.childrenOf p).filter (s.hasKey key) := by
  rw [childrenWithKey, childrenWhere]
  refine List.filter_congr fun c _ => ?_
  rw [hasKey_eq]
  rcases s.get? c with _ | n <;> simp [Bool.beq_eq_decide_eq]

/-- The children with a key are the same in stores with the same links. -/
theorem childrenWithKey_of_parallel (h : Parallel s t) (p : NodeId) (key : Key) :
    t.childrenWithKey p key = s.childrenWithKey p key := by
  rw [childrenWithKey_eq, childrenWithKey_eq, h.childrenOf]
  refine List.filter_congr fun c _ => ?_
  rw [hasKey, hasKey, h.faceOf]

/-- The same rules are exceeded in stores with the same links. -/
theorem exceeds_iff_of_parallel (h : Parallel s t) (id : NodeId) (c : ExtensionClass) :
    t.Exceeds id c ↔ s.Exceeds id c := by
  simp only [Exceeds, h.parentOf, childrenWithKey_of_parallel h]

/-- The twins of a child stand in front of it. -/
theorem earlierTwins_append_cons (h : x ∉ earlier) :
    s.earlierTwins (earlier ++ x :: later) x key = earlier.countP (s.hasKey key) := by
  rw [earlierTwins, List.takeWhile_append_of_pos, List.takeWhile_cons_of_neg (by simp),
    List.append_nil]
  · exact List.countP_congr fun c _ => by rw [hasKey_eq]
  · intro y hy
    exact decide_eq_true fun heq => h (heq ▸ hy)

/-- Children that come later change nothing. -/
theorem earlierTwins_append (hx : x ∈ children) (later : List NodeId) :
    s.earlierTwins (children ++ later) x key = s.earlierTwins children x key := by
  obtain ⟨before, behind, rfl, hnot⟩ := List.eq_append_cons_of_mem hx
  rw [List.append_assoc, List.cons_append, earlierTwins_append_cons hnot,
    earlierTwins_append_cons hnot]

/-- The children with an earlier twin are those behind the first child of their key. -/
theorem earlierTwins_ne_zero_iff (hnodup : (s.childrenOf p).Nodup)
    (hc : c ∈ s.childrenWithKey p key) : s.earlierTwins (s.childrenOf p) c key ≠ 0 ↔
      c ∈ (s.childrenWithKey p key).tail := by
  rw [childrenWithKey_eq, List.mem_filter] at hc
  obtain ⟨before, behind, heq, hnot⟩ := List.eq_append_cons_of_mem hc.1
  rw [heq, List.nodup_append] at hnodup
  have hbehind : c ∉ behind := (List.nodup_cons.mp hnodup.2.1).1
  rw [childrenWithKey_eq, heq, earlierTwins_append_cons hnot, List.filter_append,
    List.filter_cons_of_pos hc.2, List.countP_eq_length_filter, Ne, List.length_eq_zero_iff]
  rcases before.filter (s.hasKey key) with _ | ⟨first, rest⟩
  · -- it is the first child of its key, and does not occur again
    have hlater : c ∉ behind.filter (s.hasKey key) := fun h => hbehind (List.mem_of_mem_filter h)
    simp [hlater]
  · simp

/-- An extension that stays where it is stays repeated or not while the other children of its
parent only become more. -/
theorem isRepeated_iff_of_extends (o : s.Owned) (hst : Extends s t) (hx : s.contains x = true)
    (h : ∀ p, s.parentOf x = some p → s.childrenOf p <+: t.childrenOf p) :
    t.IsRepeated x ↔ s.IsRepeated x := by
  have htwins : ∀ key p, s.parentOf x = some p → t.earlierTwins (t.childrenOf p) x key =
      s.earlierTwins (s.childrenOf p) x key := by
    intro key p hp
    obtain ⟨later, hlater⟩ := h p hp
    rw [← hlater, earlierTwins_append (o.wired.mem_of_parentOf hp)]
    exact earlierTwins_congr (fun c hc => hst.faceOf c (o.wired.contains_child hc)) x key
  rw [IsRepeated, IsRepeated, hst.faceOf x hx, hst.parentOf x hx]
  constructor
  · rintro ⟨key, supplier, rule, e, p, hface, hrule, hp, hcount⟩
    exact ⟨key, supplier, rule, e, p, hface, hrule, hp, htwins key p hp ▸ hcount⟩
  · rintro ⟨key, supplier, rule, e, p, hface, hrule, hp, hcount⟩
    exact ⟨key, supplier, rule, e, p, hface, hrule, hp, (htwins key p hp).symm ▸ hcount⟩

/-- The last child of a parent is repeated when the parent has several children of its key. -/
theorem isRepeated_iff_exceeds {supplier : Option Nat} {d : ExtensionClass} {e : Element}
    (hnodup : ∀ p, (s.childrenOf p).Nodup)
    (hface : s.faceOf x = some (key, .extension supplier d, e))
    (hkey : ∀ rule, d = .ruled rule → rule.key = key)
    (hlast : ∀ p, s.parentOf x = some p → ∃ earlier, s.childrenOf p = earlier ++ [x]) :
    s.IsRepeated x ↔ s.Exceeds x d := by
  have hcount : ∀ p, s.parentOf x = some p →
      (s.earlierTwins (s.childrenOf p) x key ≠ 0 ↔ 2 ≤ (s.childrenWithKey p key).length) := by
    intro p hp
    obtain ⟨earlier, hearlier⟩ := hlast p hp
    have hnot : x ∉ earlier := by
      have := hnodup p
      rw [hearlier, List.nodup_append] at this
      exact fun hmem => this.2.2 x hmem x List.mem_cons_self rfl
    rw [hearlier, earlierTwins_append_cons hnot, childrenWithKey_eq, hearlier,
      ← List.countP_eq_length_filter, List.countP_append, List.countP_singleton,
      if_pos (hasKey_of_faceOf hface)]
    omega
  constructor
  · rintro ⟨_, _, rule, _, p, hface', hrule, hp, htwins⟩
    obtain ⟨rfl, ⟨rfl, rfl⟩, rfl⟩ : _ = _ ∧ (_ = _ ∧ _ = _) ∧ _ = _ := by
      simpa using hface.symm.trans hface'
    refine ⟨rule, p, rfl, hrule, hp, ?_⟩
    rw [hkey rule rfl]
    exact (hcount p hp).mp htwins
  · rintro ⟨rule, p, rfl, hrule, hp, hmany⟩
    rw [hkey rule rfl] at hmany
    exact ⟨key, supplier, rule, e, p, hface, hrule, hp, (hcount p hp).mpr hmany⟩

end Store

/-! ## Complete extensions -/

namespace BuildM

variable {env : Environment} {state : BuildState} {id : NodeId} {rule : ExtensionRule}

/-- A check that touches no link and calls nothing repeated. -/
theorem same_of_onlyReports {α : Type} {m : BuildM α} (hstop : env.stopAt = none)
    (h : OnlyReports env m state)
    (hsame : Relates SameCalls m) :
    Succeeds m state fun _ t => RecordsFindings [] state t ∧ SameCalls state t :=
  (onlyReports_recordsFindings hstop h).and (hsame.yields state)

/-- The check of how often an extension occurs says so of the extension alone. -/
theorem checkRepetition_calls (hstop : env.stopAt = none)
    (hshown : state.log.policy.suppresses .invalidExtension = false)
    (hid : state.store.contains id = true) (w : state.store.Wired) :
    Succeeds (checkRepetition env id rule) state fun _ t => RecordsFindings [] state t ∧
      ∀ x, t.store.CalledRepeated x ↔ state.store.CalledRepeated x ∨
        x = id ∧ state.store.Exceeds id (.ruled rule) := by
  suffices h : Succeeds (checkRepetition env id rule) state fun _ t =>
      ∀ x, t.store.CalledRepeated x ↔ state.store.CalledRepeated x ∨
        x = id ∧ state.store.Exceeds id (.ruled rule) from
    (onlyReports_recordsFindings hstop (OnlyReports.checkRepetition w hid rule)).and h
  obtain ⟨n, hn⟩ := contains_iff.mp hid
  rw [checkRepetition, exceeds_ruled_iff hn]
  rcases rule.repeatable with _ | _
  swap
  · exact Yields.pure (by simp)
  refine Yields.bind_of_eq (Reading.node_apply hn) ?_
  rcases hp : n.parent with _ | p
  · exact Yields.pure (by simp)
  obtain ⟨m, hm⟩ := contains_iff.mp (w.contains_of_parent hn hp)
  refine Yields.bind_of_eq (Reading.childrenWithKey_apply hm rule.key) ?_
  rw [Fault.repetitionFault?_eq]
  split
  · next hfew => exact Yields.pure (by simp [Nat.not_le.mpr (Nat.lt_succ_of_le hfew)])
  · next hmany =>
    refine Yields.bind_of_eq (Reading.node_apply hn) ?_
    refine Yields.of_eq (report_apply_of_shown hstop (by exact hshown)) fun x => ?_
    rw [reported_calls]
    refine or_congr_right ⟨fun ⟨_, hx, _⟩ => ?_, ?_⟩
    · exact ⟨(Option.some.inj hx).symm, rfl, p, rfl, Nat.lt_of_not_le hmany⟩
    · rintro ⟨rfl, -⟩
      exact ⟨hid, rfl, rfl⟩

/-- The check of an extension calls it repeated when its parent has several of it. -/
theorem checkRule_calls (hstop : env.stopAt = none)
    (hshown : state.log.policy.suppresses .invalidExtension = false)
    (hid : state.store.contains id = true) (w : state.store.Wired) :
    Succeeds (checkRule env id rule) state fun _ t => RecordsFindings [] state t ∧
      ∀ x, t.store.CalledRepeated x ↔ state.store.CalledRepeated x ∨
        x = id ∧ state.store.Exceeds id (.ruled rule) := by
  have g := @SameCalls.checkRelation env
  obtain ⟨n, hn⟩ := contains_iff.mp hid
  refine Yields.bind_of_eq (Reading.node_apply hn) ?_
  refine Yields.bind (same_of_onlyReports hstop (OnlyReports.blame hid _)
    (g.blame id fun _ => .policy)) ?_
  intro _ a ⟨ha, hsame⟩
  have hlive := (ha.parallel.contains id).trans hid
  refine Yields.bind (same_of_onlyReports hstop (OnlyReports.blame hlive _)
    (g.blame id fun _ => .form)) ?_
  intro _ b ⟨hb, hsame'⟩
  have hlive := (hb.parallel.contains id).trans hlive
  have w := (w.of_parallel ha.parallel).of_parallel hb.parallel
  refine Yields.bind (same_of_onlyReports hstop (OnlyReports.checkParent w hlive rule)
    (g.checkParent id rule)) ?_
  intro _ c ⟨hc, hsame''⟩
  have hlive := (hc.parallel.contains id).trans hlive
  have hall := (ha.trans hb).trans hc
  rw [← hall.log.policy] at hshown
  refine (checkRepetition_calls hstop hshown hlive (w.of_parallel hc.parallel)).imp ?_
  intro _ t ⟨ht, hcalls⟩
  refine ⟨hall.trans ht, fun x => ?_⟩
  rw [hcalls, exceeds_iff_of_parallel hall.parallel, hsame'' x, hsame' x, hsame x]

/-- Completing an extension calls it repeated when its rule asks for that, and calls nothing else
so. -/
theorem completeExtension_calls (hstop : env.stopAt = none)
    (hshown : state.log.policy.suppresses .invalidExtension = false)
    (hid : state.store.contains id = true) (w : state.store.Wired) (c : ExtensionClass) :
    Succeeds (completeExtension env id c) state fun _ t => RecordsFindings [] state t ∧
      ∀ x, t.store.CalledRepeated x ↔ state.store.CalledRepeated x ∨
        x = id ∧ state.store.Exceeds id c := by
  rcases c with _ | rule
  · refine Yields.pure ⟨RecordsFindings.refl state, fun x => (or_iff_left ?_).symm⟩
    rintro ⟨-, _, _, ⟨⟩, -⟩
  refine Yields.bind (checkRule_calls hstop hshown hid w) fun _ a ⟨ha, hcalls⟩ => ?_
  have hlive := (ha.parallel.contains id).trans hid
  have w := w.of_parallel ha.parallel
  refine (same_of_onlyReports hstop (OnlyReports.followUp w hlive rule.followUp)
    (SameCalls.checkRelation.followUp id rule.followUp)).imp ?_
  exact fun _ t ⟨ht, hsame⟩ => ⟨ha.trans ht, fun x => (hsame x).trans (hcalls x)⟩

end BuildM
end StatementForest

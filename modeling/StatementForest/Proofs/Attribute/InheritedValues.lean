import StatementForest.Proofs.Schema.LinkingSuccess
import StatementForest.Proofs.Store.Renaming

/-!
# Attributes that are handed down

A walk that hands a value down reaches every statement of a subtree once, and finds its
value from that of its parent.  So the value of a statement depends on the path from the
top only, and the attributes of a tree do not depend on those of other trees.

Main results:

- Theorem `StoreM.inherit_spec`: what a statement gets is what is handed down to it, by
  induction on the levels that are left.
- Theorem `StoreM.applyAttributes_spec`: every statement below a top gets the attributes
  of its tree and of its path.
- Theorem `Store.Renamed.attributesAssigned`: statements under new numbers get the same attributes.
-/

namespace StatementForest

open Store

variable {α : Type}

/-! ## Reading along the same links -/

namespace Store.Parallel

variable {s t : Store} {x : NodeId} {r : RootId}

/-- A live statement is one of the other store, too, and is what it was. -/
theorem exists_get? (h : Parallel s t) {n : Node} (hn : s.get? x = some n) :
    ∃ m, t.get? x = some m ∧ m.face = n.face := by
  have hface := h.faceOf x
  rwa [Store.faceOf, Store.faceOf, hn, Option.map_some, Option.map_eq_some_iff] at hface

/-- A number without a statement has none in a store with the same links. -/
theorem get?_eq_none (h : Parallel s t) (hx : s.get? x = none) : t.get? x = none := by
  have hface := h.faceOf x
  rwa [Store.faceOf, Store.faceOf, hx, Option.map_none, Option.map_eq_none_iff] at hface

/-- What depends on the face of a statement is found out in both stores. -/
theorem map_get? (h : Parallel s t) {β : Type} {w : Node → β}
    (hw : ∀ n m, m.face = n.face → w m = w n) (x : NodeId) :
    (t.get? x).map w = (s.get? x).map w :=
  map_get?_of_faceOf hw (h.faceOf x)

end Store.Parallel

/-- Statements that are the same thing are of the same keyword. -/
theorem Node.isKeyword_of_face {n m : Node} (h : m.face = n.face) (k : Keyword) :
    m.isKeyword k = n.isKeyword k := by
  have hvariant : m.variant = n.variant := congrArg (·.2.1) h
  rw [isKeyword, isKeyword, keyword?, keyword?, hvariant]

theorem Node.element_of_face {n m : Node} (h : m.face = n.face) : m.element = n.element :=
  congrArg (·.2.2) h

theorem Node.argument_of_face {n m : Node} (h : m.face = n.face) :
    m.argument = n.argument := by
  rw [argument, argument, element_of_face h]

namespace Store.Parallel

variable {s t : Store} {x : NodeId} {r : RootId}

/-- The children of a keyword are the same in stores with the same links. -/
theorem childrenOfKeyword (h : Parallel s t) (x : NodeId) (k : Keyword) :
    t.childrenOfKeyword x k = s.childrenOfKeyword x k := by
  rw [Store.childrenOfKeyword, Store.childrenOfKeyword, childrenWhere, childrenWhere,
    h.childrenOf]
  refine List.filter_congr fun c _ => ?_
  have hc := congrArg (Option.any id) (h.map_get? (fun _ _ hf => Node.isKeyword_of_face hf k) c)
  rwa [Option.any_map, Option.any_map] at hc

/-- What is read off the first child of a keyword is the same in stores with the same links. -/
theorem map_firstNodeOfKeyword (h : Parallel s t) {β : Type} {w : Node → β}
    (hw : ∀ n m, m.face = n.face → w m = w n) (x : NodeId) (k : Keyword) :
    (t.firstNodeOfKeyword x k).map w = (s.firstNodeOfKeyword x k).map w := by
  rw [firstNodeOfKeyword, firstNodeOfKeyword, firstOfKeyword, firstOfKeyword,
    h.childrenOfKeyword]
  rcases (s.childrenOfKeyword x k).head? with _ | c
  · rfl
  · exact h.map_get? hw c

/-- The tree that owns a tree is the same in stores with the same links. -/
theorem owningTree (h : Parallel s t) (r : RootId) : t.owningTree r = s.owningTree r := by
  have htree : t.tree r = s.tree r := by rw [tree, tree, tree?, tree?, h.trees]
  rw [Store.owningTree, Store.owningTree, htree]
  rcases s.tree r with e | tree
  · rfl
  simp only [bind, Except.bind]
  rcases tree.top with _ | top
  · rfl
  dsimp only
  rcases hn : s.get? top with _ | n
  · rw [node, node, hn, h.get?_eq_none hn]
  · obtain ⟨m, hm, hface⟩ := h.exists_get? hn
    rw [node_of_get? hn, node_of_get? hm]
    simp only [Node.isKeyword_of_face hface]

/-- The namespace of a tree depends on links and faces only. -/
theorem namespaceOf (h : Parallel s t) (r : RootId) : t.namespaceOf r = s.namespaceOf r := by
  rw [Store.namespaceOf, Store.namespaceOf, h.owningTree]
  rcases s.owningTree r with e | _ | owner
  · rfl
  · rfl
  have htree : t.tree owner = s.tree owner := by rw [tree, tree, tree?, tree?, h.trees]
  simp only [bind, Except.bind, htree]
  rcases s.tree owner with e | tree
  · rfl
  dsimp only
  rcases tree.top with _ | top
  · rfl
  dsimp only
  rcases hn : s.get? top with _ | n
  · rw [node, node, hn, h.get?_eq_none hn]
  · obtain ⟨m, hm, -⟩ := h.exists_get? hn
    rw [node_of_get? hn, node_of_get? hm]
    exact congrArg Except.ok (h.map_firstNodeOfKeyword (fun _ _ hf => Node.argument_of_face hf) _ _)

end Store.Parallel

/-! ## Values along a path -/

/-- A value is handed down from a statement to those below it, by a rule for every step. -/
inductive Store.Inherits (s : Store) (rule : Store → NodeId → α → α) (top : NodeId)
    (inherited : α) : NodeId → α → Prop where
  | top : s.Inherits rule top inherited top (rule s top inherited)
  | child {x c : NodeId} {value : α} (h : s.Inherits rule top inherited x value)
      (hc : s.parentOf c = some x) : s.Inherits rule top inherited c (rule s c value)

/-- A rule that looks at nothing but links and what statements are. -/
def ReadsLinksOnly (rule : Store → NodeId → α → α) : Prop :=
  ∀ s t, Parallel s t → ∀ x value, rule t x value = rule s x value

namespace Store.Inherits

variable {s t : Store} {rule : Store → NodeId → α → α} {top x : NodeId} {inherited value : α}

/-- A value is handed down to statements below the one where it starts. -/
theorem stands_below (h : s.Inherits rule top inherited x value) : s.Below top x := by
  induction h with
  | top => exact .self
  | child _ hc ih => exact .under hc ih

/-- Something is handed down to every statement of the subtree. -/
theorem exists_of_below (h : s.Below top x) (rule : Store → NodeId → α → α) (inherited : α) :
    ∃ value, s.Inherits rule top inherited x value := by
  induction h with
  | self => exact ⟨_, .top⟩
  | under hp _ ih =>
    obtain ⟨value, hvalue⟩ := ih
    exact ⟨_, .child hvalue hp⟩

/-- What is handed down reaches a statement itself, or comes through one of its children. -/
theorem down (h : s.Inherits rule top inherited x value) :
    x = top ∧ value = rule s top inherited ∨
      ∃ c, s.parentOf c = some top ∧ s.Inherits rule c (rule s top inherited) x value := by
  induction h with
  | top => exact .inl ⟨rfl, rfl⟩
  | @child y c v _ hc ih =>
    obtain ⟨rfl, rfl⟩ | ⟨d, hd, hv⟩ := ih
    · exact .inr ⟨c, hc, .top⟩
    · exact .inr ⟨d, hd, hv.child hc⟩

/-- The same value is handed down in a store with the same links. -/
theorem of_parallel (h : s.Inherits rule top inherited x value) (hst : Parallel s t)
    (hrule : ReadsLinksOnly rule) : t.Inherits rule top inherited x value := by
  induction h with
  | top =>
    rw [← hrule s t hst]
    exact .top
  | child _ hc ih =>
    rw [← hrule s t hst]
    refine .child ih ?_
    rw [hst.parentOf, hc]

end Store.Inherits

/-! ## Handing down -/

namespace StoreM

variable {rule : Store → NodeId → α → α} {write : α → Node → Node} {s t : Store} {id : NodeId}

/-- Values have been handed down from some statements. -/
structure HandsDown (rule : Store → NodeId → α → α) (write : α → Node → Node) (inherited : α)
    (starts : List NodeId) (s t : Store) : Prop where
  parallel : Parallel s t
  reached : ∀ c ∈ starts, ∀ x value, s.Inherits rule c inherited x value →
    t.get? x = (s.get? x).map (write value)
  other : ∀ x, (∀ c ∈ starts, ¬ s.Below c x) → t.get? x = s.get? x

/-- Handing down to one sibling after another does not mix them up. -/
theorem HandsDown.cons {inherited : α} {c : NodeId} {rest : List NodeId} {u : Store}
    (hrule : ReadsLinksOnly rule) (h : HandsDown rule write inherited [c] s t)
    (h' : HandsDown rule write inherited rest t u)
    (hapart : ∀ d ∈ rest, ∀ x, s.Below c x → ¬ s.Below d x) :
    HandsDown rule write inherited (c :: rest) s u where
  parallel := h.parallel.trans h'.parallel
  reached d hd x value hx := by
    obtain rfl | hd := List.mem_cons.mp hd
    · rw [h'.other x, h.reached d List.mem_cons_self x value hx]
      intro d' hd' hbelow
      exact hapart d' hd' x hx.stands_below (h.parallel.below_iff.mp hbelow)
    · rw [h'.reached d hd x value (hx.of_parallel h.parallel hrule), h.other x]
      intro d' hd' hbelow
      rw [List.mem_singleton.mp hd'] at hbelow
      exact hapart d hd x hbelow hx.stands_below
  other x hx := by
    rw [h'.other x, h.other x]
    · intro d hd
      rw [List.mem_singleton.mp hd]
      exact hx c List.mem_cons_self
    · intro d hd hbelow
      exact hx d (List.mem_cons_of_mem _ hd) (h.parallel.below_iff.mp hbelow)

/-- A statement gets its value before its children do. -/
theorem HandsDown.of_children (w : s.Wired) (hrule : ReadsLinksOnly rule)
    (hwrite : ∀ a, Node.KeepsLinks (write a)) {inherited : α} {children : List NodeId}
    (hchildren : s.childrenOf id = children)
    (h : HandsDown rule write (rule s id inherited) children
      (s.update id (write (rule s id inherited))) t) :
    HandsDown rule write inherited [id] s t := by
  have hfirst : Parallel s (s.update id (write (rule s id inherited))) :=
    parallel_update (hwrite _) id
  have hparent : ∀ c ∈ children, s.parentOf c = some id := fun c hc =>
    w.parentOf_of_mem (hchildren ▸ hc)
  refine ⟨hfirst.trans h.parallel, fun c hc x value hx => ?_, fun x hx => ?_⟩
  · rw [List.mem_singleton.mp hc] at hx
    obtain ⟨rfl, rfl⟩ | ⟨d, hd, hx⟩ := hx.down
    · rw [h.other x, get?_update_self]
      intro d hd hbelow
      exact (w.grounded _).not_below_parent (hparent d hd) (hfirst.below_iff.mp hbelow)
    · have hmem : d ∈ children := hchildren ▸ w.mem_of_parentOf hd
      have hne : x ≠ id := by
        rintro rfl
        exact (w.grounded _).not_below_parent hd hx.stands_below
      rw [h.reached d hmem x value (hx.of_parallel hfirst hrule), get?_update_of_ne s _ hne]
  · have hnot := hx id List.mem_cons_self
    have hne : x ≠ id := by
      rintro rfl
      exact hnot .self
    rw [h.other x, get?_update_of_ne s _ hne]
    intro d hd hbelow
    exact hnot ((below_of_parentOf (hparent d hd)).trans (hfirst.below_iff.mp hbelow))

/-- Handing down over enough levels gives each statement the value that is due to it. -/
theorem inheritWithin_spec (hrule : ReadsLinksOnly rule) (hwrite : ∀ a, Node.KeepsLinks (write a))
    {height d : Nat} (w : s.Wired) (hid : s.contains id = true) (hd : s.Depth id d)
    (hh : s.slots.size ≤ height + d) (inherited : α) :
    Succeeds (inheritWithin rule write height inherited id) s fun _ t =>
      HandsDown rule write inherited [id] s t := by
  induction height generalizing s id d inherited with
  | zero =>
    have hlt := w.depth_lt_size hd hid
    omega
  | succ height ih =>
    obtain ⟨n, hn⟩ := contains_iff.mp hid
    rw [inheritWithin_succ]
    refine Yields.bind_of_eq (node_apply hn) (Yields.bind_get ?_)
    apply Yields.bind_of_eq (update_apply hn _)
    -- the loop over siblings, whose subtrees lie apart
    have hloop : ∀ (value : α) (siblings : List NodeId) (u : Store), Parallel s u →
        siblings.Nodup → (∀ c ∈ siblings, c ∈ s.childrenOf id) →
        Succeeds (siblings.forM fun child => inheritWithin rule write height value child) u
          fun _ t => HandsDown rule write value siblings u t := by
      intro value siblings
      induction siblings with
      | nil =>
        intro u _ _ _
        exact Yields.pure ⟨Parallel.refl u, fun _ hc => absurd hc List.not_mem_nil, fun _ _ => rfl⟩
      | cons c rest ihrest =>
        intro u hu hnodup hmem
        obtain ⟨hnot, hnodup⟩ := List.nodup_cons.mp hnodup
        have hc := hmem c List.mem_cons_self
        have wu := w.of_parallel hu
        have hlive : u.contains c = true := by rw [hu.contains, w.contains_child hc]
        have hdepth : u.Depth c (d + 1) :=
          (w.depth_child hd hc).of_parentOf_eq fun y _ => hu.parentOf y
        refine Yields.bind (ih wu hlive hdepth (by rw [hu.size]; omega) value) fun _ v hv => ?_
        refine (ihrest v (hu.trans hv.parallel) hnodup fun e he =>
          hmem e (List.mem_cons_of_mem _ he)).imp fun _ t ht => ?_
        refine hv.cons hrule ht fun e he x hx hx' => ?_
        have hne : e ≠ c := fun heq => hnot (heq ▸ he)
        have hchildren := hu.childrenOf id
        rw [← hchildren] at hc
        have hmem' := hmem e (List.mem_cons_of_mem _ he)
        rw [← hchildren] at hmem'
        exact wu.not_below_of_siblings hmem' hc hne hx' hx
    have hchildren : s.childrenOf id = n.children := childrenOf_of_get? hn
    refine (hloop _ _ _ (parallel_update (hwrite _) id) ?_ ?_).imp fun _ t ht => ?_
    · rw [← hchildren]
      exact w.nodup_children id
    · intro c hc
      rwa [hchildren]
    · exact ht.of_children w hrule hwrite hchildren

/-- What a statement gets is what is handed down to it. -/
theorem inherit_spec (hrule : ReadsLinksOnly rule) (hwrite : ∀ a, Node.KeepsLinks (write a))
    (w : s.Wired) (hid : s.contains id = true) (inherited : α) :
    Succeeds (inherit rule write inherited id) s fun _ t =>
      HandsDown rule write inherited [id] s t := by
  obtain ⟨d, hd⟩ := (w.grounded id).exists_depth
  exact Yields.bind_get (inheritWithin_spec hrule hwrite w hid hd (by omega) inherited)

end StoreM

/-! ## The rules for status and config -/

namespace Store

variable {f : Renaming} {a b : Store}

/-- A statement declares the status that its first `status` says. -/
theorem declaredStatus_eq (s : Store) (x : NodeId) : s.declaredStatus x =
    ((s.firstNodeOfKeyword x .status).map (·.argument)).bind Status.ofText? := by
  rw [declaredStatus, Option.bind_map]
  rfl

/-- A statement denies its config by its keyword, or by what its first `config` says. -/
theorem declaresConfigFalse_eq (s : Store) (x : NodeId) : s.declaresConfigFalse x =
    (((s.get? x).map (·.keyword?)).any (Option.any (·.forcesConfigFalse)) ||
      ((s.firstNodeOfKeyword x .config).map (·.argument)).any (· == "false")) := by
  rw [declaresConfigFalse, Option.any_map, Option.any_map]
  rcases s.get? x with _ | n <;> rfl

/-- The rule for status looks at links only. -/
theorem readsLinksOnly_statusBelow : ReadsLinksOnly statusBelow := by
  intro s t h x status
  rw [statusBelow, statusBelow, declaredStatus_eq, declaredStatus_eq,
    h.map_firstNodeOfKeyword fun _ _ hf => Node.argument_of_face hf]

/-- The rule for config looks at links only. -/
theorem readsLinksOnly_configBelow : ReadsLinksOnly configBelow := by
  intro s t h x config
  have hkeyword : ∀ n m : Node, m.face = n.face → m.keyword? = n.keyword? := fun n m hf => by
    have hvariant : m.variant = n.variant := congrArg (·.2.1) hf
    rw [Node.keyword?, Node.keyword?, hvariant]
  rw [configBelow, configBelow, declaresConfigFalse_eq, declaresConfigFalse_eq,
    h.map_firstNodeOfKeyword fun _ _ hf => Node.argument_of_face hf, h.map_get? hkeyword]

/-- A rule that makes no difference between numbers. -/
def IgnoresNumbers (f : Renaming) {α : Type} (rule : Store → NodeId → α → α) : Prop :=
  ∀ a b, Renamed f a b → ∀ x value, rule b (f.node x) value = rule a x value

/-- The rule for status makes no difference between numbers. -/
theorem ignoresNumbers_statusBelow (f : Renaming) : IgnoresNumbers f statusBelow := by
  intro a b h x status
  rw [statusBelow, statusBelow, declaredStatus_eq, declaredStatus_eq,
    h.map_firstNodeOfKeyword fun _ _ hnm => hnm.argument]

/-- The rule for config makes no difference between numbers. -/
theorem ignoresNumbers_configBelow (f : Renaming) : IgnoresNumbers f configBelow := by
  intro a b h x config
  have hkeyword : ∀ n m : Node, n.Renamed f m → m.keyword? = n.keyword? := fun n m hnm => by
    rw [Node.keyword?, Node.keyword?, hnm.variant]
  rw [configBelow, configBelow, declaresConfigFalse_eq, declaresConfigFalse_eq,
    h.map_firstNodeOfKeyword fun _ _ hnm => hnm.argument, h.map_get? hkeyword]

/-- Different trees have no statement in common. -/
theorem Rooted.eq_of_below {s : Store} (hr : s.Rooted) {r q : RootId}
    {top top' x : NodeId} (htop : s.topOf r = some top) (htop' : s.topOf q = some top')
    (h : s.Below top x) (h' : s.Below top' x) : r = q := by
  have hroot := hr.rootOf_eq_of_below h
  rw [hr.rootOf_eq_of_below h', hr.rootOf_top r top htop, hr.rootOf_top q top' htop'] at hroot
  exact (Option.some.inj hroot).symm

/-- The same is handed down to statements under new numbers. -/
theorem Inherits.of_renamed {rule : Store → NodeId → α → α} {top x : NodeId}
    {inherited value : α} (h : a.Inherits rule top inherited x value) (hab : Renamed f a b)
    (hrule : IgnoresNumbers f rule) : b.Inherits rule (f.node top) inherited (f.node x) value := by
  induction h with
  | top =>
    rw [← hrule a b hab]
    exact .top
  | child _ hc ih =>
    rw [← hrule a b hab]
    refine .child ih ?_
    rw [hab.parentOf, hc]
    rfl

end Store

/-! ## The attributes of trees -/

/-- A statement with its four attributes. -/
def Node.withAttributes (n : Node) (uri : Option String) (conformance : Conformance)
    (status : Status)
    (config : Bool) : Node :=
  { n with namespaceUri := uri, conformance := some conformance, status, config }

namespace StoreM

variable {s t u : Store} {r : RootId}

/-- The statements of some trees have got the attributes of their tree and their path. -/
structure AttributesAssigned (roots : List RootId) (s t : Store) : Prop where
  parallel : Parallel s t
  attributesAssigned : ∀ r ∈ roots, ∀ tree top uri x status config, s.tree? r = some tree →
    tree.top = some top → s.namespaceOf r = .ok uri →
    s.Inherits statusBelow top .current x status → s.Inherits configBelow top true x config →
    t.get? x = (s.get? x).map fun n => n.withAttributes uri tree.conformance status config
  other : ∀ x, (∀ r ∈ roots, ∀ top, s.topOf r = some top → ¬ s.Below top x) →
    t.get? x = s.get? x

/-- A change of a subtree changes every statement in it, and no link. -/
theorem updateBelow_parallel {id : NodeId} (w : s.Wired) (hid : s.contains id = true)
    {f : Node → Node} (hf : Node.KeepsLinks f) :
    Succeeds (updateBelow id f) s fun _ t => Parallel s t ∧
      (∀ x, s.Below id x → t.get? x = (s.get? x).map f) ∧
      ∀ x, ¬ s.Below id x → t.get? x = s.get? x := by
  obtain ⟨t, ht, -, -, hbelow, hother⟩ := updateBelow_spec w hid f
  have hparallel : Yields (fun _ _ => False) (updateBelow id f) s fun _ t => Parallel s t :=
    updateBelow_succeeds w hid hf
  exact Yields.of_eq ht ⟨hparallel.result ht, hbelow, hother⟩

/-- Assigning the attributes of a tree gives each of its statements those that are due to it. -/
theorem applyTreeAttributes_spec (o : s.Owned) {tree : Tree} (h : s.tree? r = some tree) :
    Succeeds (applyTreeAttributes r) s fun _ t => AttributesAssigned [r] s t := by
  apply Yields.bind_of_eq (tree_apply h)
  rcases htop : tree.top with _ | top
  · refine Yields.pure ⟨Parallel.refl s, fun q hq tree' top _ _ _ _ ht htop' => ?_, fun _ _ => rfl⟩
    rw [List.mem_singleton.mp hq, h] at ht
    cases ht
    rw [htop] at htop'
    cases htop'
  obtain ⟨n, hn⟩ := o.rooted.exists_top h htop
  have hlive := contains_iff.mpr ⟨n, hn⟩
  obtain ⟨uri, huri⟩ := o.namespaceOf_eq_ok h
  apply Yields.bind_of_eq (node_apply hn)
  apply Yields.bind_of_eq (a := uri) (t := s) (by rw [query_apply, huri])
  have hnext : ∀ t, Parallel s t → t.Wired ∧ t.contains top = true := fun t ht =>
    ⟨o.wired.of_parallel ht, by rw [ht.contains, hlive]⟩
  refine Yields.bind (updateBelow_parallel o.wired hlive (Node.keepsLinks_namespace uri)) ?_
  intro _ t ⟨ht, htBelow, htOther⟩
  obtain ⟨wt, hlive⟩ := hnext t ht
  refine Yields.bind (updateBelow_parallel wt hlive
    (Node.keepsLinks_conformance (some tree.conformance))) ?_
  intro _ u ⟨hu, huBelow, huOther⟩
  have hsu := ht.trans hu
  obtain ⟨wu, hlive⟩ := hnext u hsu
  refine Yields.bind (inherit_spec readsLinksOnly_statusBelow Node.keepsLinks_status wu hlive _) ?_
  intro _ v hv
  have hsv := hsu.trans hv.parallel
  obtain ⟨wv, hlive⟩ := hnext v hsv
  refine (inherit_spec readsLinksOnly_configBelow Node.keepsLinks_config wv hlive true).imp ?_
  intro _ w hw
  refine ⟨hsv.trans hw.parallel, ?_, fun x hx => ?_⟩
  · intro q hq tree' top' uri' x status config htree htop' huri' hstatus hconfig
    rw [List.mem_singleton.mp hq] at htree huri'
    rw [h] at htree
    cases htree
    rw [htop] at htop'
    cases htop'
    rw [huri] at huri'
    cases huri'
    have hbelow := hstatus.stands_below
    rw [hw.reached top List.mem_cons_self x config
      (hconfig.of_parallel hsv readsLinksOnly_configBelow),
      hv.reached top List.mem_cons_self x status
        (hstatus.of_parallel hsu readsLinksOnly_statusBelow),
      huBelow x (ht.below_iff.mpr hbelow), htBelow x hbelow]
    rcases s.get? x with _ | n <;> rfl
  · have hnot : ¬ s.Below top x := by
      refine hx r List.mem_cons_self top ?_
      rw [topOf, h, Option.bind_some, htop]
    have hsingle : ∀ v, Parallel s v → ∀ c ∈ [top], ¬ v.Below c x := fun v hv c hc hbelow => by
      rw [List.mem_singleton.mp hc] at hbelow
      exact hnot (hv.below_iff.mp hbelow)
    rw [hw.other x (hsingle v hsv), hv.other x (hsingle u hsu),
      huOther x fun hbelow => hnot (ht.below_iff.mp hbelow), htOther x hnot]

/-- Dressing one tree and then others dresses them all. -/
theorem AttributesAssigned.cons (o : s.Owned) {rest : List RootId} (hnot : r ∉ rest)
    (h : AttributesAssigned [r] s t)
    (h' : AttributesAssigned rest t u) : AttributesAssigned (r :: rest) s u where
  parallel := h.parallel.trans h'.parallel
  attributesAssigned := by
    intro q hq tree top uri x status config htree htop huri hstatus hconfig
    have htopOf : s.topOf q = some top := by rw [topOf, htree, Option.bind_some, htop]
    have hbelow := hstatus.stands_below
    -- a statement stands in one tree only
    have halone : ∀ p top', s.topOf p = some top' → s.Below top' x → p = q :=
      fun p top' htop' hbelow' => o.rooted.eq_of_below htop' htopOf hbelow' hbelow
    obtain rfl | hq := List.mem_cons.mp hq
    · rw [h'.other x, h.attributesAssigned q List.mem_cons_self tree top uri x status config htree
        htop huri
        hstatus hconfig]
      intro p hp top' htop' hbelow'
      rw [h.parallel.topOf] at htop'
      exact hnot (halone p top' htop' (h.parallel.below_iff.mp hbelow') ▸ hp)
    · have htree' : t.tree? q = some tree := by rw [tree?, h.parallel.trees, ← tree?, htree]
      rw [h'.attributesAssigned q hq tree top uri x status config htree' htop
        (by rw [h.parallel.namespaceOf, huri])
        (hstatus.of_parallel h.parallel readsLinksOnly_statusBelow)
        (hconfig.of_parallel h.parallel readsLinksOnly_configBelow), h.other x]
      intro p hp top' htop' hbelow'
      rw [List.mem_singleton.mp hp] at htop'
      exact hnot (halone r top' htop' hbelow' ▸ hq)
  other x hx := by
    rw [h'.other x, h.other x]
    · intro p hp top' htop'
      rw [List.mem_singleton.mp hp] at htop'
      exact hx r List.mem_cons_self top' htop'
    · intro p hp top' htop' hbelow'
      rw [h.parallel.topOf] at htop'
      exact hx p (List.mem_cons_of_mem _ hp) top' htop' (h.parallel.below_iff.mp hbelow')

/-- Every statement below a top gets the attributes of its tree and of its path. -/
theorem applyAttributes_spec (o : s.Owned) :
    Succeeds applyAttributes s fun _ t => AttributesAssigned s.treeIds s t := by
  have hloop : ∀ (roots : List RootId) (t : Store), Parallel s t → roots.Nodup →
      (∀ r ∈ roots, r ∈ s.treeIds) →
      Succeeds (roots.forM applyTreeAttributes) t fun _ u => AttributesAssigned roots t u := by
    intro roots
    induction roots with
    | nil =>
      intro t _ _ _
      exact Yields.pure ⟨Parallel.refl t, fun _ hr => absurd hr List.not_mem_nil, fun _ _ => rfl⟩
    | cons r rest ih =>
      intro t ht hnodup hmem
      obtain ⟨hnot, hnodup⟩ := List.nodup_cons.mp hnodup
      have ot := o.of_parallel ht
      obtain ⟨tree, htree⟩ := exists_tree_of_mem_treeIds (hmem r List.mem_cons_self)
      have htree' : t.tree? r = some tree := by rw [tree?, ht.trees, ← tree?, htree]
      refine Yields.bind (applyTreeAttributes_spec ot htree') fun _ u hu => ?_
      refine (ih u (ht.trans hu.parallel) hnodup fun q hq =>
        hmem q (List.mem_cons_of_mem _ hq)).imp fun _ v hv => ?_
      exact hu.cons ot hnot hv
  exact Yields.bind_get (hloop s.treeIds s (Parallel.refl s) (Renamed.nodup_treeIds s)
    fun _ hr => hr)

end StoreM

/-! ## Attributes under new numbers -/

/-- Statements under new numbers get the same attributes. -/
theorem Store.Renamed.attributesAssigned {f : Renaming} {a b a' b' : Store} (h : Renamed f a b)
    (oa : a.Owned) (ha : StoreM.AttributesAssigned a.treeIds a a')
    (hb : StoreM.AttributesAssigned b.treeIds b b') :
    Renamed f a' b' where
  size := by rw [hb.parallel.size, ha.parallel.size, h.size]
  size_trees := by rw [hb.parallel.trees, ha.parallel.trees, h.size_trees]
  get? x := by
    by_cases hx : ∃ r top, a.topOf r = some top ∧ a.Below top x
    · obtain ⟨r, top, htop, hbelow⟩ := hx
      obtain ⟨tree, htree, htopt⟩ := Option.bind_eq_some_iff.mp htop
      obtain ⟨tree', htree', hlone⟩ := h.exists_tree? htree
      obtain ⟨uri, huri⟩ := oa.namespaceOf_eq_ok htree
      obtain ⟨status, hstatus⟩ := Inherits.exists_of_below hbelow statusBelow .current
      obtain ⟨config, hconfig⟩ := Inherits.exists_of_below hbelow configBelow true
      have htopt' : tree'.top = some (f.node top) := by
        have heq : tree'.top = tree.top.map f.node := congrArg Tree.top hlone
        rw [heq, htopt]
        rfl
      have hconformance : tree'.conformance = tree.conformance :=
        (congrArg Tree.conformance hlone :)
      have hmem : ∀ {s : Store} {q : RootId} {t : Tree}, s.tree? q = some t → q ∈ s.treeIds :=
        fun ht => Renamed.mem_treeIds_iff.mpr (by rw [ht]; rfl)
      rw [ha.attributesAssigned r (hmem htree) tree top uri x status config htree htopt huri hstatus
        hconfig,
        hb.attributesAssigned (f.tree r) (hmem htree') tree' (f.node top) uri
          (f.node x) status config htree'
          htopt' (h.namespaceOf huri) (hstatus.of_renamed h (ignoresNumbers_statusBelow f))
          (hconfig.of_renamed h (ignoresNumbers_configBelow f)), hconformance]
      rcases hn : a.get? x with _ | n
      · rw [h.get?_eq_none hn]
        rfl
      · obtain ⟨m, hm, hnm⟩ := h.exists_get? hn
        have hsame : n.withAttributes uri tree.conformance status config |>.Renamed f
            (m.withAttributes uri tree.conformance status config) :=
          hnm.congr (w := fun n => n.withAttributes uri tree.conformance status config)
            (fun _ => rfl)
            fun _ => rfl
        rw [hm]
        exact congrArg some hsame
    · rw [ha.other x fun r _ top htop hbelow => hx ⟨r, top, htop, hbelow⟩, hb.other (f.node x)]
      · exact h.get? x
      · intro r _ top htop hbelow
        have hback := h.symm.below hbelow
        have htop' := h.symm.topOf r
        rw [htop] at htop'
        refine hx ⟨_, _, htop', ?_⟩
        rwa [Renaming.symm, Equiv.symm_apply_apply] at hback
  tree? r := by
    simp only [Store.tree?, ha.parallel.trees, hb.parallel.trees]
    exact h.tree? r

end StatementForest

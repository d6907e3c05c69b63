import Mathlib.Tactic.SplitIfs
import StatementForest.Proofs.Schema.LinkingSuccess
import StatementForest.Proofs.Store.Renaming

/-!
# Documents in another order

What is built for one document becomes a block of numbers in the merged store.  When two
neighbouring documents change places, so do their blocks, and this is a renaming.  Every
other order of the documents comes about by such changes.

Main results:

- Theorem `Store.Renamed.absorb`: stores that differ in their numbers still do so with
  further statements behind them.
- Theorem `Store.renamed_swap`: two blocks change places.
- Theorem `Schema.gather_perm`: documents in another order give the same statements and
  the same findings under new numbers, by induction on the permutation.
-/

namespace StatementForest

open Store

/-! ## Exchanging blocks -/

/-- Two neighbouring blocks of `m` and `n` numbers behind `o` others change places. -/
def blockSwap (o m n : Nat) : Equiv.Perm Nat where
  toFun i := if i < o then i else if i < o + m then i + n
    else if i < o + m + n then i - m else i
  invFun i := if i < o then i else if i < o + n then i + m
    else if i < o + n + m then i - n else i
  left_inv i := by
    dsimp only
    split_ifs <;> omega
  right_inv i := by
    dsimp only
    split_ifs <;> omega

section BlockSwap

variable {o m n i : Nat}

/-- Numbers in front of both blocks stay. -/
theorem blockSwap_of_lt (h : i < o) : blockSwap o m n i = i := if_pos h

/-- The first block goes behind the second one. -/
theorem blockSwap_first (h : i < m) : blockSwap o m n (i + o) = i + (o + n) := by
  change ite _ _ _ = _
  rw [if_neg (by omega), if_pos (by omega)]
  omega

/-- The second block goes in front of the first one. -/
theorem blockSwap_second (h : i < n) : blockSwap o m n (i + (o + m)) = i + o := by
  change ite _ _ _ = _
  rw [if_neg (by omega), if_neg (by omega), if_pos (by omega)]
  omega

/-- Numbers behind both blocks stay. -/
theorem blockSwap_of_le (h : o + m + n ≤ i) : blockSwap o m n i = i := by
  change ite _ _ _ = _
  rw [if_neg (by omega), if_neg (by omega), if_neg (by omega)]

end BlockSwap

namespace Renaming

/-- New numbers that are found from the old ones. -/
def ofIndices (p q : Equiv.Perm Nat) : Renaming where
  node := ⟨fun x => ⟨p x.index⟩, fun x => ⟨p.symm x.index⟩, fun x => by simp, fun x => by simp⟩
  tree := ⟨fun r => ⟨q r.index⟩, fun r => ⟨q.symm r.index⟩, fun r => by simp, fun r => by simp⟩

/-- Only numbers below some bounds are changed. -/
structure Within (f : Renaming) (slots trees : Nat) : Prop where
  node : ∀ x : NodeId, slots ≤ x.index → f.node x = x
  tree : ∀ r : RootId, trees ≤ r.index → f.tree r = r

namespace Within

variable {f g : Renaming} {slots trees : Nat}

theorem refl (slots trees : Nat) : Within .refl slots trees := ⟨fun _ _ => rfl, fun _ _ => rfl⟩

theorem trans (h : f.Within slots trees) (h' : g.Within slots trees) :
    (f.trans g).Within slots trees where
  node x hx := (congrArg g.node (h.node x hx)).trans (h'.node x hx)
  tree r hr := (congrArg g.tree (h.tree r hr)).trans (h'.tree r hr)

/-- A renaming within some bounds is within wider ones. -/
theorem mono {slots' trees' : Nat} (h : f.Within slots trees) (hslots : slots ≤ slots')
    (htrees : trees ≤ trees') : f.Within slots' trees' where
  node x hx := h.node x (hslots.trans hx)
  tree r hr := h.tree r (htrees.trans hr)

/-- A number below the bound stays there, since those above are taken. -/
theorem node_lt (h : f.Within slots trees) {x : NodeId} (hx : x.index < slots) :
    (f.node x).index < slots := by
  by_contra hge
  have hsame := f.node.injective (h.node (f.node x) (by omega))
  rw [hsame] at hge
  exact hge hx

/-- A number of a tree within the bounds stays within them. -/
theorem tree_lt (h : f.Within slots trees) {r : RootId} (hr : r.index < trees) :
    (f.tree r).index < trees := by
  by_contra hge
  have hsame := f.tree.injective (h.tree (f.tree r) (by omega))
  rw [hsame] at hge
  exact hge hr

end Within
end Renaming

/-! ## Stores that refer to themselves only -/

/-- Every link of a store leads to a number that the store has given out. -/
structure Store.Confined (s : Store) : Prop where
  parent : ∀ x n p, s.get? x = some n → n.parent = some p → p.index < s.slots.size
  children : ∀ x n, s.get? x = some n → ∀ c ∈ n.children, c.index < s.slots.size
  root : ∀ x n, s.get? x = some n → n.root.index < s.trees.size
  top : ∀ r t x, s.tree? r = some t → t.top = some x → x.index < s.slots.size
  owner : ∀ r t q, s.tree? r = some t → t.owner = some q → q.index < s.trees.size

/-- The links of a store that holds the trees of some documents stay within it. -/
theorem TreesOf.confined {documents : List SchemaDocument} {s : Store}
    (h : TreesOf documents s) : s.Confined where
  parent x n p hn hp := lt_size_of_contains (h.owned.wired.contains_of_parent hn hp)
  children x n hn c hc := by
    rw [← childrenOf_of_get? hn] at hc
    exact lt_size_of_contains (h.owned.wired.contains_child hc)
  root x n hn := by
    -- the tree is that of the top above the statement
    have hlive := contains_iff.mpr ⟨n, hn⟩
    obtain ⟨a, hax, hnone⟩ := (h.owned.wired.grounded x).exists_parentless
    have ha := h.owned.wired.contains_of_below hlive hax
    obtain ⟨r, hr⟩ := isTop_iff.mp (h.planted a ha hnone)
    have hroot := h.owned.rooted.rootOf_eq_of_below hax
    rw [rootOf_of_get? hn, h.owned.rooted.rootOf_top r a hr] at hroot
    obtain ⟨t, ht, -⟩ := Option.bind_eq_some_iff.mp hr
    rw [Option.some.inj hroot]
    exact lt_size_of_tree? ht
  top r t x ht hx := by
    have htop : s.topOf r = some x := by rw [topOf, ht, Option.bind_some, hx]
    exact lt_size_of_contains (contains_of_rootOf (h.owned.rooted.rootOf_top r x htop))
  owner r t q ht hq := by
    have howner : s.ownerOf r = some q := by rw [ownerOf, ht, Option.bind_some, hq]
    obtain ⟨t', ht'⟩ := h.owned.affiliated.exists_tree howner
    exact lt_size_of_tree? ht'

/-! ## Renaming behind other statements -/

/-- New numbers for a block of statements whose links stay in the block. -/
theorem Node.shift_rename {f : Renaming} {n : Node} {slots trees slots' trees' : Nat}
    (hparent : ∀ p, n.parent = some p → f.node (p.shift slots) = p.shift slots')
    (hchildren : ∀ c ∈ n.children, f.node (c.shift slots) = c.shift slots')
    (hroot : f.tree (n.root.shift trees) = n.root.shift trees') :
    (n.shift slots trees).rename f = (n.shift slots' trees').bare := by
  have hp : (n.parent.map (·.shift slots)).map f.node = n.parent.map (·.shift slots') := by
    rw [Option.map_map]
    exact Option.map_congr fun p hp => hparent p hp
  have hc : (n.children.map (·.shift slots)).map f.node = n.children.map (·.shift slots') := by
    rw [List.map_map]
    exact List.map_congr_left fun c hc => hchildren c hc
  rw [Node.rename, Node.shift, Node.bare, Node.shift]
  simp only [hp, hc, hroot]

/-- A tree that is shifted and renamed is the tree shifted elsewhere, when its links agree. -/
theorem Tree.shift_rename {f : Renaming} {t : Tree} {slots trees slots' trees' : Nat}
    (htop : ∀ x, t.top = some x → f.node (x.shift slots) = x.shift slots')
    (howner : ∀ q, t.owner = some q → f.tree (q.shift trees) = q.shift trees') :
    (t.shift slots trees).rename f = (t.shift slots' trees').lone := by
  have hx : (t.top.map (·.shift slots)).map f.node = t.top.map (·.shift slots') := by
    rw [Option.map_map]
    exact Option.map_congr fun x hx => htop x hx
  have hq : (t.owner.map (·.shift trees)).map f.tree = t.owner.map (·.shift trees') := by
    rw [Option.map_map]
    exact Option.map_congr fun q hq => howner q hq
  rw [Tree.rename, Tree.shift, Tree.lone, Tree.shift]
  simp only [hx, hq]

/-- Shifting a statement by nothing takes only its findings away. -/
theorem Node.shift_zero_bare (n : Node) : (n.shift 0 0).bare = n.bare := by
  simp [Node.shift, Node.bare, NodeId.shift, RootId.shift]

/-- Shifting a tree by nothing takes only the list of its submodules away. -/
theorem Tree.shift_zero_lone (t : Tree) : (t.shift 0 0).lone = t.lone := by
  simp [Tree.shift, Tree.lone, NodeId.shift, RootId.shift]

/-- A finding that is shifted and renamed is the finding shifted elsewhere. -/
theorem Finding.shift_rename {f : Renaming} {g : Finding} {slots slots' : Nat}
    (h : ∀ x, g.node? = some x → f.node (x.shift slots) = x.shift slots') :
    (g.shift slots).rename f = g.shift slots' := by
  obtain ⟨subject, kind, message⟩ := g
  cases subject with
  | statement x origin =>
    have hx := h x rfl
    simp only [Finding.shift, Finding.rename, Subject.shift, Subject.rename, hx]
  | element origin => rfl
  | general => rfl

/-- Findings about a block of statements, under the new numbers of the block. -/
theorem Finding.exists_shift_rename_iff {f : Renaming} {findings : List Finding}
    {slots slots' : Nat} (h : ∀ g ∈ findings, ∀ x, g.node? = some x →
      f.node (x.shift slots) = x.shift slots') (g : Finding) :
    (∃ g' ∈ findings, g.rename f = g'.shift slots') ↔ ∃ g' ∈ findings, g = g'.shift slots := by
  refine exists_congr fun g' => and_congr_right fun hg' => ?_
  rw [← Finding.shift_rename (h g' hg'), (Finding.rename_injective f).eq_iff]

/-- Findings about statements that keep their numbers. -/
theorem Finding.mem_rename_iff {f : Renaming} {findings : List Finding}
    (h : ∀ g ∈ findings, ∀ x, g.node? = some x → f.node x = x) (g : Finding) :
    g.rename f ∈ findings ↔ g ∈ findings := by
  have hzero : ∀ g : Finding, g.shift 0 = g := by
    rintro ⟨subject, kind, message⟩
    cases subject <;> rfl
  have hsame : (∃ g' ∈ findings, g.rename f = g'.shift 0) ↔ ∃ g' ∈ findings, g = g'.shift 0 :=
    Finding.exists_shift_rename_iff h g
  simpa only [hzero, exists_eq_right'] using hsame

namespace Store

variable {f : Renaming} {a b c s : Store}

/-- The slots of two merged stores add up. -/
@[simp]
theorem size_slots_absorb (s t : Store) :
    (s.absorb t).slots.size = s.slots.size + t.slots.size := by
  simp [absorb]

/-- The trees of two merged stores add up. -/
@[simp]
theorem size_trees_absorb (s t : Store) :
    (s.absorb t).trees.size = s.trees.size + t.trees.size := by
  simp [absorb]

/-- There is no statement behind the last slot. -/
theorem get?_eq_none_of_le {x : NodeId} (h : s.slots.size ≤ x.index) : s.get? x = none := by
  rw [get?, Array.getElem?_eq_none h]
  rfl

/-- There is no tree behind the last one. -/
theorem tree?_eq_none_of_le {r : RootId} (h : s.trees.size ≤ r.index) : s.tree? r = none :=
  Array.getElem?_eq_none h

/-- Stores that differ in their numbers still do so with further statements behind them. -/
theorem Renamed.absorb (h : Renamed f a b) (hf : f.Within a.slots.size a.trees.size)
    (c : Store) : Renamed f (a.absorb c) (b.absorb c) where
  size := by rw [size_slots_absorb, size_slots_absorb, h.size]
  size_trees := by rw [size_trees_absorb, size_trees_absorb, h.size_trees]
  get? x := by
    obtain hx | ⟨y, rfl⟩ := x.lt_or_shift a.slots.size
    · have hfx := hf.node_lt hx
      rw [← h.size] at hfx
      rw [get?_absorb_left hx, get?_absorb_left hfx]
      exact h.get? x
    · have hfix : ∀ y : NodeId, f.node (y.shift a.slots.size) = y.shift a.slots.size :=
        fun y => hf.node _ (Nat.le_add_left _ _)
      have hfixTree : ∀ r : RootId, f.tree (r.shift a.trees.size) = r.shift a.trees.size :=
        fun r => hf.tree _ (Nat.le_add_left _ _)
      have hright : (b.absorb c).get? (y.shift a.slots.size) =
          (c.get? y).map (Node.shift a.slots.size a.trees.size) := by
        rw [← h.size, ← h.size_trees, get?_absorb_right]
      rw [hfix, hright, get?_absorb_right, Option.map_map, Option.map_map]
      refine congrArg (Option.map · (c.get? y)) (funext fun n => ?_)
      exact (Node.shift_rename (fun p _ => hfix p) (fun d _ => hfix d) (hfixTree _)).symm
  tree? r := by
    obtain hr | ⟨q, rfl⟩ := r.lt_or_shift a.trees.size
    · have hfr := hf.tree_lt hr
      rw [← h.size_trees] at hfr
      rw [tree?_absorb_left hr, tree?_absorb_left hfr]
      exact h.tree? r
    · have hfix : ∀ y : NodeId, f.node (y.shift a.slots.size) = y.shift a.slots.size :=
        fun y => hf.node _ (Nat.le_add_left _ _)
      have hfixTree : ∀ r : RootId, f.tree (r.shift a.trees.size) = r.shift a.trees.size :=
        fun r => hf.tree _ (Nat.le_add_left _ _)
      have hright : (b.absorb c).tree? (q.shift a.trees.size) =
          (c.tree? q).map (Tree.shift a.slots.size a.trees.size) := by
        rw [← h.size, ← h.size_trees, tree?_absorb_right]
      rw [hfixTree, hright, tree?_absorb_right, Option.map_map, Option.map_map]
      refine congrArg (Option.map · (c.tree? q)) (funext fun t => ?_)
      exact (Tree.shift_rename (fun x _ => hfix x) fun p _ => hfixTree p).symm

/-! ## Two blocks change places -/

/-- The renaming by which two stores behind a third one change places. -/
def swapRenaming (s a b : Store) : Renaming :=
  .ofIndices (blockSwap s.slots.size a.slots.size b.slots.size)
    (blockSwap s.trees.size a.trees.size b.trees.size)

section Swap

variable {x : NodeId} {r : RootId}

/-- Statements of the store in front keep their numbers. -/
theorem swap_node_of_lt (h : x.index < s.slots.size) : (swapRenaming s a b).node x = x :=
  congrArg NodeId.mk (blockSwap_of_lt h)

theorem swap_tree_of_lt (h : r.index < s.trees.size) : (swapRenaming s a b).tree r = r :=
  congrArg RootId.mk (blockSwap_of_lt h)

/-- Statements of the first store go behind those of the second one. -/
theorem swap_node_first (h : x.index < a.slots.size) :
    (swapRenaming s a b).node (x.shift s.slots.size) =
      x.shift (s.slots.size + b.slots.size) :=
  congrArg NodeId.mk (blockSwap_first h)

theorem swap_tree_first (h : r.index < a.trees.size) :
    (swapRenaming s a b).tree (r.shift s.trees.size) =
      r.shift (s.trees.size + b.trees.size) :=
  congrArg RootId.mk (blockSwap_first h)

/-- Statements of the second store go in front of those of the first one. -/
theorem swap_node_second (h : x.index < b.slots.size) :
    (swapRenaming s a b).node (x.shift (s.slots.size + a.slots.size)) =
      x.shift s.slots.size :=
  congrArg NodeId.mk (blockSwap_second h)

theorem swap_tree_second (h : r.index < b.trees.size) :
    (swapRenaming s a b).tree (r.shift (s.trees.size + a.trees.size)) =
      r.shift s.trees.size :=
  congrArg RootId.mk (blockSwap_second h)

/-- Only the numbers of the three stores are changed. -/
theorem swap_within (s a b : Store) : (swapRenaming s a b).Within
    ((s.absorb a).absorb b).slots.size ((s.absorb a).absorb b).trees.size where
  node x hx := by
    rw [size_slots_absorb, size_slots_absorb] at hx
    exact congrArg NodeId.mk (blockSwap_of_le hx)
  tree r hr := by
    rw [size_trees_absorb, size_trees_absorb] at hr
    exact congrArg RootId.mk (blockSwap_of_le hr)

end Swap

/-- A number behind which two blocks stand is in one of them, or is not. -/
theorem block_cases (i o m n : Nat) :
    i < o ∨ (∃ j, j < m ∧ i = j + o) ∨ (∃ j, j < n ∧ i = j + (o + m)) ∨ o + m + n ≤ i := by
  by_cases ho : i < o
  · exact .inl ho
  by_cases hm : i < o + m
  · exact .inr (.inl ⟨i - o, by omega, by omega⟩)
  by_cases hn : i < o + m + n
  · exact .inr (.inr (.inl ⟨i - (o + m), by omega, by omega⟩))
  · exact .inr (.inr (.inr (by omega)))

/-- Where a lookup in three merged stores ends. -/
theorem get?_absorb_absorb_first (s : Store) {a b : Store} {x : NodeId}
    (h : x.index < a.slots.size) : ((s.absorb a).absorb b).get? (x.shift s.slots.size) =
      (a.get? x).map (Node.shift s.slots.size s.trees.size) := by
  rw [get?_absorb_left, get?_absorb_right]
  change x.index + s.slots.size < _
  rw [size_slots_absorb]
  omega

/-- A statement of the second of two stores is found behind those of the first one. -/
theorem get?_absorb_absorb_second (s a : Store) {b : Store} {x : NodeId} :
    ((s.absorb a).absorb b).get? (x.shift (s.slots.size + a.slots.size)) =
      (b.get? x).map (Node.shift (s.slots.size + a.slots.size) (s.trees.size + a.trees.size)) := by
  rw [← size_slots_absorb, ← size_trees_absorb, get?_absorb_right]

/-- A tree of the first of two stores is found behind those in front. -/
theorem tree?_absorb_absorb_first (s : Store) {a b : Store} {r : RootId}
    (h : r.index < a.trees.size) : ((s.absorb a).absorb b).tree? (r.shift s.trees.size) =
      (a.tree? r).map (Tree.shift s.slots.size s.trees.size) := by
  rw [tree?_absorb_left, tree?_absorb_right]
  change r.index + s.trees.size < _
  rw [size_trees_absorb]
  omega

/-- A tree of the second of two stores is found behind those of the first one. -/
theorem tree?_absorb_absorb_second (s a : Store) {b : Store} {r : RootId} :
    ((s.absorb a).absorb b).tree? (r.shift (s.trees.size + a.trees.size)) =
      (b.tree? r).map (Tree.shift (s.slots.size + a.slots.size) (s.trees.size + a.trees.size)) := by
  rw [← size_slots_absorb, ← size_trees_absorb, tree?_absorb_right]

/-- A block keeps its statements when it gets new numbers. -/
theorem Confined.map_shift_rename {slots trees slots' trees' : Nat} (h : a.Confined)
    (hnode : ∀ x : NodeId, x.index < a.slots.size → f.node (x.shift slots) = x.shift slots')
    (htree : ∀ r : RootId, r.index < a.trees.size → f.tree (r.shift trees) = r.shift trees')
    (x : NodeId) : ((a.get? x).map (Node.shift slots' trees')).map Node.bare =
      ((a.get? x).map (Node.shift slots trees)).map (Node.rename f) := by
  rw [Option.map_map, Option.map_map]
  refine Option.map_congr fun n hn => (Node.shift_rename ?_ ?_ ?_).symm
  · exact fun p hp => hnode p (h.parent x n p hn hp)
  · exact fun c hc => hnode c (h.children x n hn c hc)
  · exact htree _ (h.root x n hn)

/-- Trees that are shifted one way or another are renamed into each other. -/
theorem Confined.map_shift_rename_tree {slots trees slots' trees' : Nat} (h : a.Confined)
    (hnode : ∀ x : NodeId, x.index < a.slots.size → f.node (x.shift slots) = x.shift slots')
    (htree : ∀ r : RootId, r.index < a.trees.size → f.tree (r.shift trees) = r.shift trees')
    (r : RootId) : ((a.tree? r).map (Tree.shift slots' trees')).map Tree.lone =
      ((a.tree? r).map (Tree.shift slots trees)).map (Tree.rename f) := by
  rw [Option.map_map, Option.map_map]
  refine Option.map_congr fun t ht => (Tree.shift_rename ?_ ?_).symm
  · exact fun x hx => hnode x (h.top r t x ht hx)
  · exact fun q hq => htree q (h.owner r t q ht hq)

/-- The statements before two blocks keep their numbers. -/
theorem Confined.map_rename (h : s.Confined)
    (hnode : ∀ x : NodeId, x.index < s.slots.size → f.node x = x)
    (htree : ∀ r : RootId, r.index < s.trees.size → f.tree r = r) (x : NodeId) :
    (s.get? x).map Node.bare = (s.get? x).map (Node.rename f) := by
  refine Option.map_congr fun n hn => ?_
  have hshift : (n.shift 0 0).rename f = (n.shift 0 0).bare := Node.shift_rename
    (fun p hp => hnode p (h.parent x n p hn hp)) (fun c hc => hnode c (h.children x n hn c hc))
    (htree _ (h.root x n hn))
  rw [← Node.rename_bare, Node.shift_zero_bare, Node.rename_bare] at hshift
  exact hshift.symm

/-- Trees of a confined store are the same under a renaming that keeps its numbers. -/
theorem Confined.map_rename_tree (h : s.Confined)
    (hnode : ∀ x : NodeId, x.index < s.slots.size → f.node x = x)
    (htree : ∀ r : RootId, r.index < s.trees.size → f.tree r = r) (r : RootId) :
    (s.tree? r).map Tree.lone = (s.tree? r).map (Tree.rename f) := by
  refine Option.map_congr fun t ht => ?_
  have hshift : (t.shift 0 0).rename f = (t.shift 0 0).lone := Tree.shift_rename
    (fun x hx => hnode x (h.top r t x ht hx)) fun q hq => htree q (h.owner r t q ht hq)
  rw [← Tree.rename_lone, Tree.shift_zero_lone, Tree.rename_lone] at hshift
  exact hshift.symm

/-- Every statement is found again when two blocks change places. -/
theorem map_get?_swap (hs : s.Confined) (ha : a.Confined) (hb : b.Confined) (x : NodeId) :
    (((s.absorb b).absorb a).get? ((swapRenaming s a b).node x)).map Node.bare =
      (((s.absorb a).absorb b).get? x).map (Node.rename (swapRenaming s a b)) := by
  obtain ⟨i⟩ := x
  obtain hi | ⟨j, hj, rfl⟩ | ⟨j, hj, rfl⟩ | hi :=
    block_cases i s.slots.size a.slots.size b.slots.size
  · have hlt : ∀ t : Store, i < (s.absorb t).slots.size := fun t => by
      rw [size_slots_absorb]
      omega
    rw [swap_node_of_lt hi, get?_absorb_left (hlt b), get?_absorb_left hi,
      get?_absorb_left (hlt a), get?_absorb_left hi]
    exact hs.map_rename (fun _ h => swap_node_of_lt h) (fun _ h => swap_tree_of_lt h) _
  · have hfirst := get?_absorb_absorb_first s (b := b) (x := ⟨j⟩) hj
    have hsecond := get?_absorb_absorb_second s b (b := a) (x := ⟨j⟩)
    have hswap := swap_node_first (s := s) (b := b) (x := ⟨j⟩) hj
    change ((s.absorb a).absorb b).get? ⟨j + s.slots.size⟩ = _ at hfirst
    change (swapRenaming s a b).node ⟨j + s.slots.size⟩ = _ at hswap
    rw [hswap, hsecond, hfirst]
    exact ha.map_shift_rename (fun _ h => swap_node_first h) (fun _ h => swap_tree_first h) _
  · have hfirst := get?_absorb_absorb_first s (b := a) (x := ⟨j⟩) hj
    have hsecond := get?_absorb_absorb_second s a (b := b) (x := ⟨j⟩)
    have hswap := swap_node_second (s := s) (a := a) (x := ⟨j⟩) hj
    change ((s.absorb a).absorb b).get? ⟨j + (s.slots.size + a.slots.size)⟩ = _ at hsecond
    change (swapRenaming s a b).node ⟨j + (s.slots.size + a.slots.size)⟩ = _ at hswap
    rw [hswap, hsecond, hfirst]
    exact hb.map_shift_rename (fun _ h => swap_node_second h) (fun _ h => swap_tree_second h) _
  · have hle : ((s.absorb a).absorb b).slots.size ≤ i := by
      rw [size_slots_absorb, size_slots_absorb]
      omega
    have hle' : ((s.absorb b).absorb a).slots.size ≤ i := by
      rw [size_slots_absorb, size_slots_absorb]
      omega
    rw [(swap_within s a b).node _ hle, get?_eq_none_of_le hle, get?_eq_none_of_le hle']
    rfl

/-- Every tree is found again when two blocks change places. -/
theorem map_tree?_swap (hs : s.Confined) (ha : a.Confined) (hb : b.Confined) (r : RootId) :
    (((s.absorb b).absorb a).tree? ((swapRenaming s a b).tree r)).map Tree.lone =
      (((s.absorb a).absorb b).tree? r).map (Tree.rename (swapRenaming s a b)) := by
  obtain ⟨i⟩ := r
  obtain hi | ⟨j, hj, rfl⟩ | ⟨j, hj, rfl⟩ | hi :=
    block_cases i s.trees.size a.trees.size b.trees.size
  · have hlt : ∀ t : Store, i < (s.absorb t).trees.size := fun t => by
      rw [size_trees_absorb]
      omega
    rw [swap_tree_of_lt hi, tree?_absorb_left (hlt b), tree?_absorb_left hi,
      tree?_absorb_left (hlt a), tree?_absorb_left hi]
    exact hs.map_rename_tree (fun _ h => swap_node_of_lt h) (fun _ h => swap_tree_of_lt h) _
  · have hfirst := tree?_absorb_absorb_first s (b := b) (r := ⟨j⟩) hj
    have hsecond := tree?_absorb_absorb_second s b (b := a) (r := ⟨j⟩)
    have hswap := swap_tree_first (s := s) (b := b) (r := ⟨j⟩) hj
    change ((s.absorb a).absorb b).tree? ⟨j + s.trees.size⟩ = _ at hfirst
    change (swapRenaming s a b).tree ⟨j + s.trees.size⟩ = _ at hswap
    rw [hswap, hsecond, hfirst]
    exact ha.map_shift_rename_tree (fun _ h => swap_node_first h)
      (fun _ h => swap_tree_first h) _
  · have hfirst := tree?_absorb_absorb_first s (b := a) (r := ⟨j⟩) hj
    have hsecond := tree?_absorb_absorb_second s a (b := b) (r := ⟨j⟩)
    have hswap := swap_tree_second (s := s) (a := a) (r := ⟨j⟩) hj
    change ((s.absorb a).absorb b).tree? ⟨j + (s.trees.size + a.trees.size)⟩ = _ at hsecond
    change (swapRenaming s a b).tree ⟨j + (s.trees.size + a.trees.size)⟩ = _ at hswap
    rw [hswap, hsecond, hfirst]
    exact hb.map_shift_rename_tree (fun _ h => swap_node_second h)
      (fun _ h => swap_tree_second h) _
  · have hle : ((s.absorb a).absorb b).trees.size ≤ i := by
      rw [size_trees_absorb, size_trees_absorb]
      omega
    have hle' : ((s.absorb b).absorb a).trees.size ≤ i := by
      rw [size_trees_absorb, size_trees_absorb]
      omega
    rw [(swap_within s a b).tree _ hle, tree?_eq_none_of_le hle, tree?_eq_none_of_le hle']
    rfl

/-- Two blocks of statements behind others change places. -/
theorem renamed_swap (hs : s.Confined) (ha : a.Confined) (hb : b.Confined) :
    Renamed (swapRenaming s a b) ((s.absorb a).absorb b) ((s.absorb b).absorb a) where
  size := by
    simp only [size_slots_absorb]
    omega
  size_trees := by
    simp only [size_trees_absorb]
    omega
  get? := map_get?_swap hs ha hb
  tree? := map_tree?_swap hs ha hb

end Store

/-! ## States of a build -/

/-- The second state is the first one with new numbers.  The findings are the same, in
some order. -/
structure BuildState.Renamed (f : Renaming) (a b : BuildState) : Prop where
  store : a.store.Renamed f b.store
  policy : b.log.policy = a.log.policy
  mem_log : ∀ g, g.rename f ∈ b.log.entries ↔ g ∈ a.log.entries

namespace BuildState

variable {f g : Renaming} {a b c s : BuildState}

namespace Renamed

theorem refl (a : BuildState) : Renamed .refl a a where
  store := .refl a.store
  policy := rfl
  mem_log g := by rw [Finding.rename_refl]

theorem trans (h : Renamed f a b) (h' : Renamed g b c) : Renamed (f.trans g) a c where
  store := h.store.trans h'.store
  policy := h'.policy.trans h.policy
  mem_log g := by rw [Finding.rename_trans, h'.mem_log, h.mem_log]

/-- What is put behind a renamed state keeps its numbers. -/
theorem absorb (h : Renamed f a b) (hf : f.Within a.store.slots.size a.store.trees.size)
    (c : BuildState) : Renamed f (a.absorb c) (b.absorb c) where
  store := h.store.absorb hf c.store
  policy := by
    rw [BuildState.absorb, FindingLog.policy_addAll, h.policy]
    exact (FindingLog.policy_addAll _ _).symm
  mem_log g := by
    have hshift : ∀ g' : Finding, (g'.shift a.store.slots.size).rename f =
        g'.shift a.store.slots.size := fun g' =>
      Finding.shift_rename fun x _ => hf.node _ (Nat.le_add_left _ _)
    have hsame : ∀ g' : Finding, g.rename f = g'.shift b.store.slots.size ↔
        g = g'.shift a.store.slots.size := by
      intro g'
      rw [h.store.size, ← hshift g', (Finding.rename_injective f).eq_iff, hshift g']
    rw [mem_absorb, mem_absorb, h.mem_log, h.policy]
    simp only [hsame, Finding.kind_rename]

end Renamed

/-- What was built for two documents changes places. -/
theorem renamed_swap (hs : s.Anchored) (ha : a.Anchored) (hb : b.Anchored)
    (hstore : s.store.Confined ∧ a.store.Confined ∧ b.store.Confined) :
    Renamed (swapRenaming s.store a.store b.store) ((s.absorb a).absorb b)
      ((s.absorb b).absorb a) where
  store := Store.renamed_swap hstore.1 hstore.2.1 hstore.2.2
  policy := by simp only [absorb, FindingLog.policy_addAll]
  mem_log g := by
    have hold := Finding.mem_rename_iff (f := swapRenaming s.store a.store b.store)
      (fun g' hg' x hx => swap_node_of_lt (lt_size_of_contains (hs g' hg' x hx))) g
    have hfirst := Finding.exists_shift_rename_iff (f := swapRenaming s.store a.store b.store)
      (fun g' hg' x hx => swap_node_first (lt_size_of_contains (ha g' hg' x hx))) g
    have hsecond := Finding.exists_shift_rename_iff (f := swapRenaming s.store a.store b.store)
      (fun g' hg' x hx => swap_node_second (lt_size_of_contains (hb g' hg' x hx))) g
    have hsize : ∀ c : BuildState, (s.absorb c).store.slots.size =
        s.store.slots.size + c.store.slots.size := fun c => size_slots_absorb _ _
    have hpolicy : ∀ c : BuildState, (s.absorb c).log.policy = s.log.policy := fun c =>
      FindingLog.policy_addAll _ _
    simp only [mem_absorb, hsize, hpolicy, hold, hfirst, hsecond, Finding.kind_rename, or_assoc]
    exact or_congr_right or_comm

end BuildState

/-! ## Lists of documents -/

namespace Schema

variable {env : Environment} {policy : SeverityPolicy} {a b : BuildState} {f : Renaming}
  {earlier documents documents' : List SchemaDocument}

/-- What is built for some documents is put behind what was there. -/
theorem size_gather (env : Environment) (policy : SeverityPolicy) (a : BuildState)
    (documents : List SchemaDocument) :
    a.store.slots.size ≤ (gather env policy a documents).store.slots.size ∧
      a.store.trees.size ≤ (gather env policy a documents).store.trees.size := by
  induction documents generalizing a with
  | nil => exact ⟨Nat.le_refl _, Nat.le_refl _⟩
  | cons d rest ih =>
    obtain ⟨hslots, htrees⟩ := ih (a.absorb (d.built env policy))
    have hslots' : (a.absorb (d.built env policy)).store.slots.size = _ := size_slots_absorb _ _
    have htrees' : (a.absorb (d.built env policy)).store.trees.size = _ := size_trees_absorb _ _
    exact ⟨(Nat.le_add_right _ _).trans (hslots' ▸ hslots),
      (Nat.le_add_right _ _).trans (htrees' ▸ htrees)⟩

/-- States that differ in their numbers still do so with further documents behind them. -/
theorem gather_renamed (h : a.Renamed f b)
    (hf : f.Within a.store.slots.size a.store.trees.size) (documents : List SchemaDocument) :
    (gather env policy a documents).Renamed f (gather env policy b documents) := by
  induction documents generalizing a b with
  | nil => exact h
  | cons d rest ih =>
    refine ih (h.absorb hf (d.built env policy)) (hf.mono ?_ ?_)
    · exact (Nat.le_add_right _ _).trans_eq (size_slots_absorb _ _).symm
    · exact (Nat.le_add_right _ _).trans_eq (size_trees_absorb _ _).symm

/-- A renaming of the trees under which each tree belongs to the same document. -/
def TracksDocuments (f : Renaming) (documents documents' : List SchemaDocument) : Prop :=
  ∀ r : RootId, documents'[(f.tree r).index]? = documents[r.index]?

/-- Two neighbours of a list change places as their numbers do. -/
theorem getElem?_blockSwap {α : Type} (earlier : List α) (x y : α) (rest : List α) (i : Nat) :
    (earlier ++ y :: x :: rest)[blockSwap earlier.length 1 1 i]? =
      (earlier ++ x :: y :: rest)[i]? := by
  obtain hi | ⟨j, hj, rfl⟩ | ⟨j, hj, rfl⟩ | hi := block_cases i earlier.length 1 1
  · rw [blockSwap_of_lt hi, List.getElem?_append_left hi, List.getElem?_append_left hi]
  · obtain rfl : j = 0 := by omega
    rw [blockSwap_first hj]
    simp
  · obtain rfl : j = 0 := by omega
    rw [blockSwap_second hj]
    simp
  · obtain ⟨k, rfl⟩ : ∃ k, i = earlier.length + (k + 2) :=
      ⟨i - (earlier.length + 2), by omega⟩
    rw [blockSwap_of_le hi, List.getElem?_append_right (Nat.le_add_right _ _),
      List.getElem?_append_right (Nat.le_add_right _ _), Nat.add_sub_cancel_left]
    rfl

/-- Documents in another order give the same statements and the same findings under new
numbers. -/
theorem gather_perm (hstop : env.stopAt = none) (policy : SeverityPolicy)
    (hperm : documents.Perm documents')
    (ha : Sound env.suppliers earlier a) :
    ∃ f : Renaming, (gather env policy a documents).Renamed f (gather env policy a documents') ∧
      f.Within (gather env policy a documents).store.slots.size
        (gather env policy a documents).store.trees.size ∧
      TracksDocuments f (earlier ++ documents) (earlier ++ documents') := by
  induction hperm generalizing earlier a with
  | nil => exact ⟨.refl, .refl _, .refl _ _, fun r => rfl⟩
  | cons d _ ih =>
    obtain ⟨f, hrenamed, hwithin, htracks⟩ := ih (ha.absorb (d.build_sound hstop policy).2)
    rw [List.append_assoc, List.append_assoc] at htracks
    exact ⟨f, hrenamed, hwithin, htracks⟩
  | swap d e rest =>
    have hd := (d.build_sound hstop policy).2
    have he := (e.build_sound hstop policy).2
    have hswap := BuildState.renamed_swap ha.anchored he.anchored hd.anchored
      ⟨ha.treesOf.confined, he.treesOf.confined, hd.treesOf.confined⟩
    have hwithin := swap_within a.store (e.built env policy).store (d.built env policy).store
    have hsize := size_gather env policy ((a.absorb (e.built env policy)).absorb
      (d.built env policy)) rest
    simp only [gather_cons]
    refine ⟨_, gather_renamed hswap hwithin rest, hwithin.mono hsize.1 hsize.2, fun r => ?_⟩
    have hcount : a.store.trees.size = earlier.length := ha.treesOf.size_trees
    have hone : (e.built env policy).store.trees.size = 1 := he.treesOf.size_trees
    have hone' : (d.built env policy).store.trees.size = 1 := hd.treesOf.size_trees
    have hindex : ((swapRenaming a.store (e.built env policy).store
        (d.built env policy).store).tree r).index = blockSwap earlier.length 1 1 r.index := by
      change blockSwap _ _ _ _ = _
      rw [hcount, hone, hone']
    rw [hindex]
    exact getElem?_blockSwap earlier e d rest r.index
  | trans _ _ ih ih' =>
    obtain ⟨f, hrenamed, hwithin, htracks⟩ := ih ha
    obtain ⟨g, hrenamed', hwithin', htracks'⟩ := ih' ha
    rw [hrenamed.store.size, hrenamed.store.size_trees] at hwithin'
    refine ⟨f.trans g, hrenamed.trans hrenamed', hwithin.trans hwithin', fun r => ?_⟩
    exact (htracks' (f.tree r)).trans (htracks r)

/-- Merging documents in another order gives the same statements and the same findings
under new numbers. -/
theorem merge_perm (hstop : env.stopAt = none) (hperm : documents.Perm documents') :
    ∃ (f : Renaming) (a b : BuildState), merge env policy documents = .ok a ∧
      merge env policy documents' = .ok b ∧ a.Renamed f b ∧
      Sound env.suppliers documents a ∧ Sound env.suppliers documents' b ∧
      TracksDocuments f documents documents' := by
  have hempty := sound_empty env.suppliers policy
  obtain ⟨f, hrenamed, -, htracks⟩ := gather_perm hstop policy hperm hempty
  exact ⟨f, _, _, merge_eq_gather hstop policy documents, merge_eq_gather hstop policy documents',
    hrenamed, gather_sound hstop policy hempty documents,
    gather_sound hstop policy hempty documents', htracks⟩

end Schema
end StatementForest

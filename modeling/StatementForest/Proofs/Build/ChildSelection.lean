import Mathlib.Algebra.Order.Group.Multiset
import Mathlib.Data.List.Induction
import Mathlib.Data.List.Perm.Basic
import Mathlib.Tactic.Abel
import StatementForest.Build.ChildPlan
import StatementForest.Build.Instantiate
import StatementForest.Grammar.Standard

/-!
# Which children become statements

The steps for the children of an element come from five passes over them.  When the
lists of a grammar do not overlap, no child is looked at by two of the passes, so the
children are exactly those that become statements, those that are rejected, those that
repeat another one, and those that no list names.

Main results:

- Theorem `Grammar.proper_standard`: the lists of the standard grammar do not overlap.
- Theorem `Suppliers.resolveElement_outcome`: of which elements statements are made.
- Theorem `Cardinalities.kept_eq`, `keptFreely_eq`: what the steps make statements of.
- Theorem `Cardinalities.exists_rest`, `exists_rest_keptFreely`: no child is taken
  twice, and what is left out is left out for a reason.
- Theorem `find?_mem_unexpectedChildren`: a child that no list names is complained
  about under its name.
-/

namespace StatementForest

/-! ## Elements that become statements -/

namespace Element

/-- Whether the name is a keyword of the core language. -/
def isCore (e : Element) : Bool := Keyword.isKeyword e.name

/-- Whether the name has a qualifier that is bound where the element was written. -/
def isBound (e : Element) : Bool :=
  match e.splitName with
  | (some qualifier, _) => (e.scope.module? qualifier).isSome
  | (none, _) => false

/-- Whether a statement can be made of the element. -/
def isStatement (e : Element) : Bool := if e.isQualified then e.isBound else e.isCore

/-- The findings about elements of which no statement can be made. -/
inductive Rejects (e : Element) : Finding → Prop where
  | unknown (hname : e.isQualified = false) (hcore : e.isCore = false) :
      e.Rejects (unknownStatement e)
  | unbound {qualifier name : String} (hname : e.splitName = (some qualifier, name))
      (hscope : e.scope.module? qualifier = none) : e.Rejects (unboundQualifier e qualifier)

/-- A name without a qualifier is the whole name. -/
theorem splitName_of_not_isQualified {e : Element} (h : e.isQualified = false) :
    e.splitName = (none, e.name) := by
  have hmem : ':' ∉ e.name.toList := by
    rwa [isQualified, ← Bool.not_eq_true, List.contains_iff_mem] at h
  rw [splitName, Text.splitAtFirst_eq_none_iff.mpr hmem]

/-- A name with a qualifier has two parts. -/
theorem exists_splitName {e : Element} (h : e.isQualified = true) :
    ∃ qualifier name, e.splitName = (some qualifier, name) := by
  have hmem : ':' ∈ e.name.toList := by rwa [isQualified, List.contains_iff_mem] at h
  rcases hsplit : Text.splitAtFirst ':' e.name with _ | ⟨qualifier, name⟩
  · exact absurd hmem (Text.splitAtFirst_eq_none_iff.mp hsplit)
  · exact ⟨qualifier, name, by rw [splitName, hsplit]⟩

/-- A bound name has a qualifier. -/
theorem isQualified_of_isBound {e : Element} (h : e.isBound = true) : e.isQualified = true := by
  rcases hq : e.isQualified with _ | _
  · rw [isBound, splitName_of_not_isQualified hq] at h
    cases h
  · rfl

/-- Only the name decides whether there is a qualifier. -/
theorem isQualified_congr {e e' : Element} (h : e.name = e'.name) :
    e.isQualified = e'.isQualified := by
  rw [isQualified, isQualified, h]

end Element

/-- A statement is made of an element, or a finding tells why there is none. -/
theorem Suppliers.resolveElement_outcome (s : Suppliers) (e : Element) :
    (e.isStatement = true ∧ ∃ r, s.resolveElement e = .ok r) ∨
      e.isStatement = false ∧ ∃ f, s.resolveElement e = .error f ∧ e.Rejects f := by
  rcases hq : e.isQualified with _ | _
  · rw [Element.isStatement, hq, resolveElement, Element.splitName_of_not_isQualified hq,
      if_neg Bool.false_ne_true]
    rcases hk : Keyword.ofText? e.name with _ | k
    · have hcore : e.isCore = false := by rw [Element.isCore, Keyword.isKeyword, hk]; rfl
      exact .inr ⟨hcore, unknownStatement e, by simp only [hk], .unknown hq hcore⟩
    · have hcore : e.isCore = true := by rw [Element.isCore, Keyword.isKeyword, hk]; rfl
      exact .inl ⟨hcore, ⟨Key.core e.name, .core k⟩, by simp only [hk]⟩
  · obtain ⟨qualifier, name, hsplit⟩ := Element.exists_splitName hq
    rw [Element.isStatement, hq, if_pos rfl, Element.isBound, resolveElement, hsplit]
    rcases hm : e.scope.module? qualifier with _ | m
    · refine .inr ⟨by simp only [hm]; rfl, unboundQualifier e qualifier, by simp only [hm], ?_⟩
      exact .unbound hsplit hm
    · refine .inl ⟨by simp only [hm]; rfl, ?_⟩
      simp only [hm]
      rcases s.resolve? ⟨m, name⟩ with _ | ⟨index, c⟩
      · exact ⟨_, rfl⟩
      · exact ⟨_, rfl⟩

/-! ## Kept children -/

/-- The first child of each of the names, in document order. -/
def firstOccurrences (names : List String) (children : List Element) : List Element :=
  (children.filter fun e => names.contains e.name).eraseDupsBy fun a b => a.name == b.name

/-- Every child with one of the names, in document order. -/
def allOccurrences (names : List String) (children : List Element) : List Element :=
  children.filter fun e => names.contains e.name

/-- The children of a core element that become statements, in the order of the
statements. -/
def Cardinalities.kept (c : Cardinalities) (children : List Element) : List Element :=
  (firstOccurrences c.mandatorySingleton children ++ allOccurrences c.mandatoryMultiple children ++
    firstOccurrences c.optionalSingleton children ++
    allOccurrences c.optionalMultiple children).filter (·.isCore) ++
  children.filter (·.isBound)

/-- The children of an extension that become statements, in the order of the statements. -/
def keptFreely (children : List Element) : List Element :=
  children.filter (fun e => !e.isQualified && e.isCore) ++ children.filter (·.isBound)

/-- The four lists name no child twice, and no extension. -/
structure Cardinalities.Proper (c : Cardinalities) : Prop where
  disjoint : [c.mandatorySingleton, c.mandatoryMultiple, c.optionalSingleton,
    c.optionalMultiple].Pairwise List.Disjoint
  unqualified : ∀ name, c.allows name = true → ':' ∉ name.toList

/-- The lists of every statement name no child twice, and no extension. -/
def Grammar.Proper (g : Grammar) : Prop := ∀ name c, g.find? name = some c → c.Proper

/-- The names in the four lists. -/
def Cardinalities.names (c : Cardinalities) : List String :=
  c.mandatorySingleton ++ c.mandatoryMultiple ++ c.optionalSingleton ++ c.optionalMultiple

/-- What is allowed is named in one of the four lists. -/
theorem Cardinalities.allows_iff {c : Cardinalities} {name : String} :
    c.allows name = true ↔ name ∈ c.names := by
  simp [allows, names, or_assoc]

instance decidableDisjoint (l l' : List String) : Decidable (l.Disjoint l') :=
  decidable_of_iff (∀ a ∈ l, a ∉ l') Iff.rfl

instance Cardinalities.decidableProper (c : Cardinalities) : Decidable c.Proper :=
  decidable_of_iff ([c.mandatorySingleton, c.mandatoryMultiple, c.optionalSingleton,
      c.optionalMultiple].Pairwise List.Disjoint ∧ ∀ name ∈ c.names, ':' ∉ name.toList)
    ⟨fun h => ⟨h.1, fun name hname => h.2 name (allows_iff.mp hname)⟩,
      fun h => ⟨h.disjoint, fun name hname => h.unqualified name (allows_iff.mpr hname)⟩⟩

/-- Empty lists are proper. -/
theorem Cardinalities.proper_default : ({} : Cardinalities).Proper where
  disjoint := by simp
  unqualified := by simp [allows]

/-- The lists of a keyword are proper when the grammar is. -/
theorem Grammar.Proper.below {g : Grammar} (h : g.Proper) (k : Keyword) : (g.below k).Proper := by
  rw [Grammar.below]
  rcases hc : g.find? k.text with _ | c
  · exact Cardinalities.proper_default
  · exact h _ c hc

/-- What a dictionary of entries holds is one of the entries. -/
theorem Dictionary.mem_of_find?_ofList {α : Type} {entries : List (String × α)} {key : String}
    {value : α} (h : (ofList entries).find? key = some value) : (key, value) ∈ entries := by
  induction entries using List.reverseRecOn with
  | nil => cases h
  | append_singleton entries e ih =>
    have hlast : ofList (entries ++ [e]) = (ofList entries).insert e.1 e.2 := by
      rw [ofList, insertAll, List.foldl_append]
      rfl
    rw [hlast] at h
    by_cases hkey : key = e.1
    · rw [hkey, find?_insert_self] at h
      cases h
      rw [hkey]
      exact List.mem_append_right _ List.mem_cons_self
    · rw [find?_insert_of_ne _ _ hkey] at h
      exact List.mem_append_left _ (ih h)

/-- The standard grammar is proper. -/
theorem Grammar.proper_standard : Grammar.standard.Proper := by
  have hall : ∀ e ∈ standardEntries ++ childless.map fun name =>
      (name, Cardinalities.mk [] [] [] []), e.2.Proper := by
    intro e he
    obtain he | he := List.mem_append.mp he
    · have hentries : ∀ e ∈ standardEntries, e.2.Proper := by decide
      exact hentries e he
    · obtain ⟨name, -, rfl⟩ := List.mem_map.mp he
      exact Cardinalities.proper_default
  intro name c hc
  exact hall (name, c) (Dictionary.mem_of_find?_ofList hc)

/-! ## Extracted children -/

namespace ChildStep

/-- The child that a step makes a statement of. -/
def child? : ChildStep → Option Element
  | .extract child => some child
  | .repeated _ => none

/-- The name of the child that a step is about. -/
def name : ChildStep → String
  | .extract child => child.name
  | .repeated name => name

/-- The children that steps make statements of. -/
def extracted (steps : List ChildStep) : List Element := steps.filterMap child?

/-- What is extracted by steps and more steps is extracted one after the other. -/
theorem extracted_append (steps steps' : List ChildStep) :
    extracted (steps ++ steps') = extracted steps ++ extracted steps' := List.filterMap_append

/-- Extracting children one by one extracts all of them. -/
theorem extracted_map_extract (children : List Element) :
    extracted (children.map .extract) = children := by
  rw [extracted, List.filterMap_map]
  exact List.filterMap_some

/-- What is extracted is the child of a step. -/
theorem mem_extracted {steps : List ChildStep} {child : Element} :
    child ∈ extracted steps ↔ .extract child ∈ steps := by
  rw [extracted, List.mem_filterMap]
  constructor
  · rintro ⟨step, hmem, hchild⟩
    cases step with
    | extract other =>
      cases hchild
      exact hmem
    | repeated name => cases hchild
  · exact fun h => ⟨_, h, rfl⟩

end ChildStep

open ChildStep

variable {names seen : List String} {c : Cardinalities} {children : List Element}

/-- Names that have been seen are passed over, and of the others the first child counts. -/
theorem extracted_singletonSteps_of_seen (names seen : List String) (children : List Element) :
    extracted (singletonSteps names seen children) =
      (children.filter fun e => names.contains e.name && !seen.contains e.name).eraseDupsBy
        fun a b => a.name == b.name := by
  induction children generalizing seen with
  | nil => rfl
  | cons child rest ih =>
    rw [singletonSteps]
    rcases hname : names.contains child.name with _ | _
    · rw [if_neg Bool.false_ne_true,
        List.filter_cons_of_neg (by rw [hname]; exact Bool.false_ne_true)]
      exact ih seen
    rw [if_pos rfl]
    rcases hseen : seen.contains child.name with _ | _
    · rw [if_neg Bool.false_ne_true, List.filter_cons_of_pos (by simp only [hname, hseen]; rfl),
        List.eraseDupsBy_cons, List.filter_filter]
      have htail := ih (child.name :: seen)
      have hsame : ∀ e : Element,
          (names.contains e.name && !(child.name :: seen).contains e.name) =
            (decide ((e.name == child.name) = false) &&
              (names.contains e.name && !seen.contains e.name)) := by
        intro e
        rw [List.contains_cons]
        rcases e.name == child.name <;> simp
      simp only [hsame] at htail
      exact congrArg (child :: ·) htail
    · rw [if_pos rfl, List.filter_cons_of_neg (by simp only [hname, hseen]; decide)]
      exact ih seen

/-- Of the names that may occur once the first occurrences are extracted. -/
theorem extracted_singletonSteps (names : List String) (children : List Element) :
    extracted (singletonSteps names [] children) = firstOccurrences names children := by
  rw [extracted_singletonSteps_of_seen, firstOccurrences]
  simp

/-- Of the names that may occur often all occurrences are extracted. -/
theorem extracted_multipleSteps (names : List String) (children : List Element) :
    extracted (multipleSteps names children) = allOccurrences names children :=
  extracted_map_extract _

/-- Of the extensions all are extracted. -/
theorem extracted_extensionSteps (children : List Element) :
    extracted (extensionSteps children) = children.filter (·.isQualified) :=
  extracted_map_extract _

/-- What the grammar asks for is extracted in the order of its four lists. -/
theorem extracted_grammarSteps (c : Cardinalities) (children : List Element) :
    extracted (grammarSteps c children) =
      firstOccurrences c.mandatorySingleton children ++
        allOccurrences c.mandatoryMultiple children ++
        firstOccurrences c.optionalSingleton children ++
        allOccurrences c.optionalMultiple children := by
  simp only [grammarSteps, extracted_append, extracted_singletonSteps, extracted_multipleSteps]

/-- Without a grammar the core children are extracted first, and then the extensions. -/
theorem extracted_freeSteps (children : List Element) :
    extracted (freeSteps children) =
      children.filter (!·.isQualified) ++ children.filter (·.isQualified) := by
  rw [freeSteps, extracted_append, extracted_map_extract, extracted_extensionSteps]

/-- Of the qualified children those with a bound qualifier become statements. -/
theorem filter_isStatement_qualified (children : List Element) :
    (children.filter (·.isQualified)).filter (·.isStatement) = children.filter (·.isBound) := by
  rw [List.filter_filter]
  refine List.filter_congr fun e _ => ?_
  rw [Element.isStatement]
  rcases hq : e.isQualified with _ | _
  · rw [Bool.and_false]
    rcases hb : e.isBound with _ | _
    · rfl
    · rw [Element.isQualified_of_isBound hb] at hq
      cases hq
  · rw [if_pos rfl, Bool.and_true]

/-- Steps for names that may occur once are about children with these names. -/
theorem contains_of_mem_singletonSteps {step : ChildStep}
    (h : step ∈ singletonSteps names seen children) : names.contains step.name = true := by
  induction children generalizing seen with
  | nil => cases h
  | cons child rest ih =>
    rw [singletonSteps] at h
    split at h
    · next hname =>
      split at h
      · obtain rfl | h := List.mem_cons.mp h
        · exact hname
        · exact ih h
      · obtain rfl | h := List.mem_cons.mp h
        · exact hname
        · exact ih h
    · exact ih h

/-- Steps for names that may occur often are about these names. -/
theorem contains_of_mem_multipleSteps {step : ChildStep}
    (h : step ∈ multipleSteps names children) : names.contains step.name = true := by
  obtain ⟨child, hmem, rfl⟩ := List.mem_map.mp h
  exact (List.mem_filter.mp hmem).2

/-- The names that the steps of a grammar are about are in one of its lists. -/
theorem allows_of_mem_grammarSteps {step : ChildStep} (h : step ∈ grammarSteps c children) :
    c.allows step.name = true := by
  simp only [grammarSteps, List.mem_append] at h
  simp only [Cardinalities.allows, Bool.or_eq_true]
  obtain ((h | h) | h) | h := h
  · exact .inl (.inl (.inl (contains_of_mem_singletonSteps h)))
  · exact .inl (.inl (.inr (contains_of_mem_multipleSteps h)))
  · exact .inl (.inr (contains_of_mem_singletonSteps h))
  · exact .inr (contains_of_mem_multipleSteps h)

/-- Only children that may occur once are passed over as repeated ones. -/
theorem mem_singletonSteps_of_repeated_mem {name : String}
    (h : .repeated name ∈ grammarSteps c children) :
    .repeated name ∈ singletonSteps c.mandatorySingleton [] children ∨
      .repeated name ∈ singletonSteps c.optionalSingleton [] children := by
  have hmultiple : ∀ names : List String, .repeated name ∉ multipleSteps names children := by
    intro names hmem
    obtain ⟨child, -, hstep⟩ := List.mem_map.mp hmem
    cases hstep
  simp only [grammarSteps, List.mem_append] at h
  obtain ((h | h) | h) | h := h
  · exact .inl h
  · exact absurd h (hmultiple _)
  · exact .inr h
  · exact absurd h (hmultiple _)

/-- Only names that may occur once are called repeated. -/
theorem contains_of_repeated_mem_grammarSteps {name : String}
    (h : .repeated name ∈ grammarSteps c children) :
    (c.mandatorySingleton ++ c.optionalSingleton).contains name = true := by
  rw [List.contains_append, Bool.or_eq_true]
  exact (mem_singletonSteps_of_repeated_mem h).imp contains_of_mem_singletonSteps
    contains_of_mem_singletonSteps

/-- A name that is repeated occurs twice, or once more after it has been seen. -/
theorem le_countP_of_repeated_mem_singletonSteps {name : String}
    (h : .repeated name ∈ singletonSteps names seen children) :
    (if seen.contains name then 1 else 2) ≤ children.countP (·.name == name) := by
  induction children generalizing seen with
  | nil => cases h
  | cons child rest ih =>
    rw [List.countP_cons]
    rw [singletonSteps] at h
    split at h
    · split at h
      · next hseen =>
        obtain heq | h := List.mem_cons.mp h
        · cases heq
          rw [if_pos hseen, if_pos (beq_self_eq_true _)]
          omega
        · exact Nat.le_add_right_of_le (ih h)
      · obtain heq | h := List.mem_cons.mp h
        · cases heq
        · have hle := ih h
          rw [List.contains_cons] at hle
          by_cases heq : name = child.name
          · subst heq
            rw [beq_self_eq_true, Bool.true_or, if_pos rfl] at hle
            rw [if_pos (beq_self_eq_true _)]
            split <;> omega
          · rw [beq_false_of_ne heq, Bool.false_or] at hle
            exact Nat.le_add_right_of_le hle
    · exact Nat.le_add_right_of_le (ih h)

/-- A name that is called repeated occurs at least twice. -/
theorem two_le_countP_of_repeated_mem_grammarSteps {name : String}
    (h : .repeated name ∈ grammarSteps c children) :
    2 ≤ children.countP (·.name == name) := by
  obtain h | h := mem_singletonSteps_of_repeated_mem h
  · exact le_countP_of_repeated_mem_singletonSteps h
  · exact le_countP_of_repeated_mem_singletonSteps h

namespace Cardinalities.Proper

/-- What a proper list allows is no extension. -/
theorem isQualified_of_allows (h : c.Proper) {child : Element} (ha : c.allows child.name = true) :
    child.isQualified = false := by
  have hcolon := h.unqualified _ ha
  rwa [Element.isQualified, ← Bool.not_eq_true, List.contains_iff_mem]

end Cardinalities.Proper

/-! ## What the steps keep -/

/-- Of the children that the grammar foresees those with a keyword become statements, and
of the others those with a bound qualifier. -/
theorem Cardinalities.kept_eq (h : c.Proper) (children : List Element) :
    (extracted (grammarSteps c children) ++ extracted (extensionSteps children)).filter
      (·.isStatement) = c.kept children := by
  have hcore : (extracted (grammarSteps c children)).filter (·.isStatement) =
      (extracted (grammarSteps c children)).filter (·.isCore) := by
    refine List.filter_congr fun e he => ?_
    have hq := h.isQualified_of_allows (allows_of_mem_grammarSteps (mem_extracted.mp he))
    rw [Element.isStatement, hq, if_neg Bool.false_ne_true]
  rw [List.filter_append, hcore, extracted_extensionSteps, filter_isStatement_qualified,
    extracted_grammarSteps, kept]

/-- The children of an extension that become statements are those that are kept freely. -/
theorem keptFreely_eq (children : List Element) :
    (extracted (freeSteps children)).filter (·.isStatement) = keptFreely children := by
  have hcore : (children.filter (!·.isQualified)).filter (·.isStatement) =
      children.filter fun e => !e.isQualified && e.isCore := by
    rw [List.filter_filter]
    refine List.filter_congr fun e _ => ?_
    rw [Element.isStatement]
    rcases e.isQualified with _ | _
    · rw [if_neg Bool.false_ne_true, Bool.not_false, Bool.and_true, Bool.true_and]
    · rw [Bool.not_true, Bool.and_false, Bool.false_and]
  rw [extracted_freeSteps, List.filter_append, hcore, filter_isStatement_qualified, keptFreely]

/-! ## What the steps leave out -/

/-- Two disjoint tests pick the elements of one filter. -/
theorem perm_filter_or {α : Type} {p q : α → Bool} {items : List α}
    (h : ∀ a ∈ items, p a = true → q a = false) :
    (items.filter fun a => p a || q a).Perm (items.filter p ++ items.filter q) := by
  have hleft : (items.filter fun a => p a || q a).filter p = items.filter p := by
    rw [List.filter_filter]
    refine List.filter_congr fun a _ => ?_
    rcases p a <;> rfl
  have hright : ((items.filter fun a => p a || q a).filter fun a => !p a) = items.filter q := by
    rw [List.filter_filter]
    refine List.filter_congr fun a ha => ?_
    rcases hp : p a with _ | _
    · rfl
    · exact (h a ha hp).symm
  have hperm := List.filter_append_perm p (items.filter fun a => p a || q a)
  rw [hleft, hright] at hperm
  exact hperm.symm

/-- A child with one of the names is the first one of its name, or repeats it. -/
theorem exists_perm_singletonSteps (names seen : List String) (children : List Element) :
    ∃ again, (allOccurrences names children).Perm
        (extracted (singletonSteps names seen children) ++ again) ∧
      ∀ e ∈ again, .repeated e.name ∈ singletonSteps names seen children := by
  induction children generalizing seen with
  | nil => exact ⟨[], List.Perm.refl _, fun _ he => absurd he List.not_mem_nil⟩
  | cons child rest ih =>
    rw [singletonSteps, allOccurrences]
    rcases hname : names.contains child.name with _ | _
    · rw [if_neg Bool.false_ne_true, List.filter_cons_of_neg (by rw [hname]; decide)]
      exact ih seen
    rw [if_pos rfl, List.filter_cons_of_pos (by exact hname)]
    rcases seen.contains child.name with _ | _
    · rw [if_neg Bool.false_ne_true]
      obtain ⟨again, hperm, hagain⟩ := ih (child.name :: seen)
      exact ⟨again, hperm.cons child, fun e he => List.mem_cons_of_mem _ (hagain e he)⟩
    · rw [if_pos rfl]
      obtain ⟨again, hperm, hagain⟩ := ih seen
      refine ⟨child :: again, (hperm.cons child).trans List.perm_middle.symm, fun e he => ?_⟩
      obtain rfl | he := List.mem_cons.mp he
      · exact List.mem_cons_self
      · exact List.mem_cons_of_mem _ (hagain e he)

/-- No child has a name of two of the lists. -/
theorem Cardinalities.Proper.perm_allows (h : c.Proper) (children : List Element) :
    (children.filter fun e => c.allows e.name).Perm
      (allOccurrences c.mandatorySingleton children ++
        allOccurrences c.mandatoryMultiple children ++
        allOccurrences c.optionalSingleton children ++
        allOccurrences c.optionalMultiple children) := by
  have hdisjoint := h.disjoint
  simp only [List.pairwise_cons, List.mem_cons, List.not_mem_nil, or_false, forall_eq_or_imp,
    forall_eq, false_imp_iff, implies_true, List.Pairwise.nil, and_true] at hdisjoint
  obtain ⟨⟨hab, has, hao⟩, ⟨hbs, hbo⟩, hso⟩ := hdisjoint
  have hnot : ∀ {l l' : List String}, l.Disjoint l' → ∀ e : Element,
      l.contains e.name = true → l'.contains e.name = false := by
    intro l l' hll e he
    rw [← Bool.not_eq_true, List.contains_iff_mem]
    exact hll (List.contains_iff_mem.mp he)
  refine (perm_filter_or fun e _ he => ?_).trans
    (((perm_filter_or fun e _ he => ?_).trans
      ((perm_filter_or fun e _ he => ?_).append_right _)).append_right _)
  · simp only [Bool.or_eq_true] at he
    obtain (he | he) | he := he
    · exact hnot hao e he
    · exact hnot hbo e he
    · exact hnot hso e he
  · simp only [Bool.or_eq_true] at he
    obtain he | he := he
    · exact hnot has e he
    · exact hnot hbs e he
  · exact hnot hab e he

/-- The children that the grammar foresees are extracted, or repeat another one. -/
theorem Cardinalities.Proper.exists_perm_grammarSteps (h : c.Proper) (children : List Element) :
    ∃ again, (children.filter fun e => c.allows e.name).Perm
        (extracted (grammarSteps c children) ++ again) ∧
      ∀ e ∈ again, .repeated e.name ∈ grammarSteps c children := by
  obtain ⟨again, hperm, hagain⟩ := exists_perm_singletonSteps c.mandatorySingleton [] children
  obtain ⟨again', hperm', hagain'⟩ := exists_perm_singletonSteps c.optionalSingleton [] children
  refine ⟨again ++ again', ?_, fun e he => ?_⟩
  · refine (h.perm_allows children).trans ?_
    simp only [grammarSteps, extracted_append, extracted_multipleSteps]
    have hall := ((hperm.append_right (allOccurrences c.mandatoryMultiple children)).append
      hperm').append_right (allOccurrences c.optionalMultiple children)
    refine hall.trans ?_
    rw [← Multiset.coe_eq_coe]
    simp only [← Multiset.coe_add]
    abel
  · simp only [grammarSteps, List.mem_append]
    obtain he | he := List.mem_append.mp he
    · exact .inl (.inl (.inl (hagain e he)))
    · exact .inl (.inr (hagain' e he))

/-- The children that the grammar does not foresee are extensions, or unexpected. -/
theorem Cardinalities.Proper.perm_not_allows (h : c.Proper) (children : List Element) :
    (children.filter fun e => !c.allows e.name).Perm (extracted (extensionSteps children) ++
      children.filter fun e => !e.isQualified && !c.allows e.name) := by
  have hqualified := List.filter_append_perm (·.isQualified)
    (children.filter fun e => !c.allows e.name)
  rw [List.filter_filter, List.filter_filter] at hqualified
  have hsame : (children.filter fun e => e.isQualified && !c.allows e.name) =
      children.filter (·.isQualified) := by
    refine List.filter_congr fun e _ => ?_
    rcases hq : e.isQualified with _ | _
    · rfl
    · rcases ha : c.allows e.name with _ | _
      · rfl
      · rw [h.isQualified_of_allows ha] at hq
        cases hq
  rw [hsame] at hqualified
  rw [extracted_extensionSteps]
  exact hqualified.symm

/-- Why no statement is made of a child of a core element. -/
inductive Cardinalities.LeavesOut (c : Cardinalities) (children : List Element)
    (child : Element) : Prop where
  | rejected (hstep : .extract child ∈ grammarSteps c children ++ extensionSteps children)
      (hstatement : child.isStatement = false) : c.LeavesOut children child
  | repeated (hstep : .repeated child.name ∈ grammarSteps c children) :
      c.LeavesOut children child
  | unexpected (hmem : child ∈ children) (hname : child.isQualified = false)
      (hallows : c.allows child.name = false) : c.LeavesOut children child

/-- Every child of a core element is kept once, or is left out for a reason. -/
theorem Cardinalities.exists_rest (h : c.Proper) (children : List Element) :
    ∃ rest, children.Perm (c.kept children ++ rest) ∧
      ∀ child ∈ rest, c.LeavesOut children child := by
  obtain ⟨again, hperm, hagain⟩ := h.exists_perm_grammarSteps children
  have hsplit := List.filter_append_perm (fun e : Element => c.allows e.name) children
  have htaken := List.filter_append_perm (·.isStatement)
    (extracted (grammarSteps c children) ++ extracted (extensionSteps children))
  rw [kept_eq h, ← extracted_append] at htaken
  refine ⟨(extracted (grammarSteps c children ++ extensionSteps children)).filter
    (!·.isStatement) ++ (again ++ children.filter fun e => !e.isQualified && !c.allows e.name),
    ?_, fun child hchild => ?_⟩
  · have hall : children.Perm (extracted (grammarSteps c children ++ extensionSteps children) ++
        (again ++ children.filter fun e => !e.isQualified && !c.allows e.name)) := by
      refine hsplit.symm.trans ((hperm.append (h.perm_not_allows children)).trans ?_)
      rw [extracted_append, ← Multiset.coe_eq_coe]
      simp only [← Multiset.coe_add]
      abel
    rw [← List.append_assoc]
    exact hall.trans (htaken.symm.append_right _)
  · obtain hchild | hchild := List.mem_append.mp hchild
    · obtain ⟨hmem, hnot⟩ := List.mem_filter.mp hchild
      rw [mem_extracted] at hmem
      exact .rejected hmem (by rwa [Bool.not_eq_true'] at hnot)
    obtain hchild | hchild := List.mem_append.mp hchild
    · exact .repeated (hagain child hchild)
    · obtain ⟨hmem, hnot⟩ := List.mem_filter.mp hchild
      rw [Bool.and_eq_true, Bool.not_eq_true', Bool.not_eq_true'] at hnot
      exact .unexpected hmem hnot.1 hnot.2

/-- Every child of an extension is kept once, or no statement can be made of it. -/
theorem exists_rest_keptFreely (children : List Element) :
    ∃ rest, children.Perm (keptFreely children ++ rest) ∧
      ∀ child ∈ rest, .extract child ∈ freeSteps children ∧ child.isStatement = false := by
  have htaken := List.filter_append_perm (·.isStatement) (extracted (freeSteps children))
  have hall : children.Perm (extracted (freeSteps children)) := by
    rw [extracted_freeSteps]
    exact (List.filter_append_perm (·.isQualified) children).symm.trans List.perm_append_comm
  rw [keptFreely_eq] at htaken
  refine ⟨(extracted (freeSteps children)).filter (!·.isStatement),
    hall.trans htaken.symm, fun child hchild => ?_⟩
  obtain ⟨hmem, hnot⟩ := List.mem_filter.mp hchild
  exact ⟨mem_extracted.mp hmem, by rwa [Bool.not_eq_true'] at hnot⟩

/-! ## Complaints about names -/

/-- The first child of a name that no list has is complained about. -/
theorem find?_mem_unexpectedChildren {child : Element} (hmem : child ∈ children)
    (hname : child.isQualified = false) (hallows : c.allows child.name = false)
    (hseen : child.name ∉ seen) :
    ∃ first ∈ unexpectedChildren c seen children,
      children.find? (·.name == child.name) = some first := by
  induction children generalizing seen with
  | nil => cases hmem
  | cons e rest ih =>
    rw [unexpectedChildren]
    by_cases heq : e.name = child.name
    · have hskip : (e.isQualified || c.allows e.name || seen.contains e.name) = false := by
        rw [Element.isQualified_congr heq, heq, hname, hallows, Bool.false_or, Bool.false_or,
          ← Bool.not_eq_true, List.contains_iff_mem]
        exact hseen
      rw [if_neg (by rw [hskip]; exact Bool.false_ne_true)]
      exact ⟨e, List.mem_cons_self, List.find?_cons_of_pos (by exact beq_iff_eq.mpr heq)⟩
    · have hrest : child ∈ rest := by
        obtain rfl | h := List.mem_cons.mp hmem
        · exact absurd rfl heq
        · exact h
      rw [List.find?_cons_of_neg (by exact fun h => heq (beq_iff_eq.mp h))]
      split
      · exact ih hrest hseen
      · have hseen' : child.name ∉ e.name :: seen := by
          rw [List.mem_cons, not_or]
          exact ⟨Ne.symm heq, hseen⟩
        obtain ⟨first, hfirst, hfind⟩ := ih hrest hseen'
        exact ⟨first, List.mem_cons_of_mem _ hfirst, hfind⟩

end StatementForest

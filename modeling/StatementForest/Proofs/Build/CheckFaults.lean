import StatementForest.Proofs.Build.ChildCoverage
import StatementForest.Proofs.Store.OperationRelations

/-!
# What checks do

A complete statement is checked by looking at statements and blaming some of them.  What it is
blamed for is one of a few faults, or that an extension is repeated below its parent.  None of this
could be taken for a remark about the children that its element has.  So a relation between the
states before and after holds of every check as soon as it can be put together, holds of blaming a
statement for what checks find, and holds of keeping the numbers of a version.

Main results:

- Theorem `Fault.FoundByCheck.noRemark`, `Fault.FoundByCheck.ne_repetition`: what checks find is no
  remark, and no repetition.
- Theorem `BlameRelation.checkCoreArgument`, `BlameRelation.checkContent`: such a relation holds of
  the checks of a core statement.
- Theorem `NoRemarkRelation.completeExtension`: it holds of the checks of an extension.
-/

namespace StatementForest

/-! ## Beginnings of messages -/

namespace Text

/-- The text begins with the characters. -/
def Begins (cs : List Char) (s : String) : Prop := cs <+: s.toList

variable {cs ds : List Char} {s t : String}

/-- A text that is put together begins with the first of its characters. -/
theorem begins_ofList (cs rest : List Char) : Begins cs (String.ofList (cs ++ rest)) := by
  rw [Begins, String.toList_ofList]
  exact List.prefix_append cs rest

/-- A longer text begins with the same characters. -/
theorem Begins.append (h : Begins cs s) (t : String) : Begins cs (s ++ t) := by
  rw [Begins, String.toList_append]
  exact h.trans (List.prefix_append _ _)

/-- Texts with different beginnings are different. -/
theorem Begins.ne (hs : Begins cs s) (ht : Begins ds t) (h : ¬ cs <+: ds ∧ ¬ ds <+: cs) :
    s ≠ t := by
  rintro rfl
  exact (List.prefix_or_prefix_of_prefix hs ht).elim h.1 h.2

end Text

/-! ## Remarks and other findings -/

/-- The message about a child that must occur once and does not occur. -/
def requiredMessage (child parent : String) : String :=
  "Statement '" ++ child ++ "' required under '" ++ parent ++ "'."

/-- The message about a child that must occur at least once and does not occur. -/
def requiredOnceMessage (child parent : String) : String :=
  "Statement '" ++ child ++ "' required at least once under '" ++ parent ++ "'."

/-- How messages about missing children begin. -/
def lackBeginning : List Char := ['S', 't', 'a', 't', 'e', 'm', 'e', 'n', 't', ' ']

/-- The message about a child that must occur once begins like all messages about missing children.
-/
theorem begins_requiredMessage (child parent : String) :
    Text.Begins lackBeginning (requiredMessage child parent) :=
  ((((Text.begins_ofList _ _).append _).append _).append _).append _

/-- The message about a child that must occur at least once begins in the same way. -/
theorem begins_requiredOnceMessage (child parent : String) :
    Text.Begins lackBeginning (requiredOnceMessage child parent) :=
  ((((Text.begins_ofList _ _).append _).append _).append _).append _

/-- What an element lacks is told child by child. -/
theorem mem_missingMessages {c : Cardinalities} {e : Element} {message : String} :
    message ∈ missingMessages c e ↔ ∃ name, e.hasChild name = false ∧
      (name ∈ c.mandatorySingleton ∧ message = requiredMessage name e.name ∨
        name ∈ c.mandatoryMultiple ∧ message = requiredOnceMessage name e.name) := by
  simp only [missingMessages, List.mem_append, List.mem_map, List.mem_filter, Bool.not_eq_true']
  constructor
  · rintro (⟨name, ⟨hmem, hlacks⟩, rfl⟩ | ⟨name, ⟨hmem, hlacks⟩, rfl⟩)
    · exact ⟨name, hlacks, .inl ⟨hmem, rfl⟩⟩
    · exact ⟨name, hlacks, .inr ⟨hmem, rfl⟩⟩
  · rintro ⟨name, hlacks, ⟨hmem, rfl⟩ | ⟨hmem, rfl⟩⟩
    · exact .inl ⟨name, ⟨hmem, hlacks⟩, rfl⟩
    · exact .inr ⟨name, ⟨hmem, hlacks⟩, rfl⟩

/-- A finding that looks like a remark about some statement. -/
inductive Finding.LikeRemark : Finding → Prop where
  | repeated (x : NodeId) (e : Element) (name : String) : LikeRemark (repeatedFinding x e name)
  | required (x : NodeId) (e : Element) (name : String) :
      LikeRemark (missingFinding x e (requiredMessage name e.name))
  | requiredOnce (x : NodeId) (e : Element) (name : String) :
      LikeRemark (missingFinding x e (requiredOnceMessage name e.name))
  | unexpected (e child : Element) : LikeRemark (unexpectedFinding e child)

namespace Fault

/-- A fault that does not look like a remark, whatever statement it is in. -/
def NoRemark (fault : Fault) : Prop :=
  ∀ x origin, ¬ Finding.LikeRemark
    { subject := .statement x origin, kind := fault.1, message := fault.2 }

/-- A fault of a kind that no remark about a statement has. -/
def Plain (fault : Fault) : Prop :=
  fault.1 ≠ .cardinalityViolation ∧ fault.1 ≠ .missingRequiredChild

/-- A fault of a kind that no remark has looks like none. -/
theorem Plain.noRemark {fault : Fault} (h : fault.Plain) : fault.NoRemark := by
  rintro x origin hlike
  generalize hf : Finding.mk _ _ _ = f at hlike
  cases hlike with
  | «repeated» => exact h.1 (congrArg Finding.kind hf)
  | required => exact h.2 (congrArg Finding.kind hf)
  | requiredOnce => exact h.2 (congrArg Finding.kind hf)
  | unexpected => cases hf

/-- Something else may be required of a statement than a child. -/
theorem noRemark_of_begins {cs : List Char} {message : String} (hmessage : Text.Begins cs message)
    (hcs : ¬ cs <+: lackBeginning ∧ ¬ lackBeginning <+: cs) :
    NoRemark (.missingRequiredChild, message) := by
  rintro x origin hlike
  generalize hf : Finding.mk _ _ _ = f at hlike
  cases hlike with
  | «repeated» => cases congrArg Finding.kind hf
  | required =>
    exact hmessage.ne (begins_requiredMessage _ _) hcs (congrArg Finding.message hf)
  | requiredOnce =>
    exact hmessage.ne (begins_requiredOnceMessage _ _) hcs (congrArg Finding.message hf)
  | unexpected => cases hf

/-- A useless deviation is no remark. -/
theorem noRemark_idleFault (operation : String) : NoRemark (idleFault operation) := by
  have hmessage : Text.Begins ['S', 't', 'a', 't', 'e', 'm', 'e', 'n', 't', 's']
      (idleFault operation).2 := ((Text.begins_ofList _ _).append _).append _
  exact noRemark_of_begins hmessage (by decide)

/-- A fault in the types of a statement is a missing child, and no remark about one. -/
theorem noRemark_typeFault? {types : List NodeId} {fault : Fault}
    (h : typeFault? types = some fault) :
    fault.1 = .missingRequiredChild ∧ fault.NoRemark := by
  rw [typeFault?, Option.ite_none_left_eq_some] at h
  obtain ⟨-, rfl⟩ := Option.some.inj h.2
  have hmessage : Text.Begins ['A'] "A 'type' statement is required for the annotation." :=
    Text.begins_ofList _ _
  exact ⟨rfl, noRemark_of_begins hmessage (by decide)⟩

/-- What is found when a condition does not hold is the fault that is written there. -/
theorem eq_of_else {p : Prop} [Decidable p] {found fault : Fault}
    (h : (if p then none else some found) = some fault) : fault = found := by
  rw [Option.ite_none_left_eq_some] at h
  exact (Option.some.inj h.2).symm

/-- What is found when a condition holds is the fault that is written there. -/
theorem eq_of_then {p : Prop} [Decidable p] {found fault : Fault}
    (h : (if p then some found else none) = some fault) : fault = found := by
  rw [Option.ite_none_right_eq_some] at h
  exact (Option.some.inj h.2).symm

/-- The kind of what a test finds. -/
theorem kind_of_else {p : Prop} [Decidable p] {kind : FindingKind} {message : String}
    {fault : Fault} {kinds : List FindingKind}
    (h : (if p then none else some (kind, message)) = some fault) (hkind : kind ∈ kinds) :
    fault.1 ∈ kinds := by
  rwa [eq_of_else h]

/-- A fault that is found when a condition holds is of the kind that is written there. -/
theorem kind_of_then {p : Prop} [Decidable p] {kind : FindingKind} {message : String}
    {fault : Fault} {kinds : List FindingKind}
    (h : (if p then some (kind, message) else none) = some fault) (hkind : kind ∈ kinds) :
    fault.1 ∈ kinds := by
  rwa [eq_of_then h]

/-! ## What checks find -/

/-- That an extension occurs too often below its parent. -/
def repetition : Fault :=
  (.invalidExtension, "The allowed maximum cardinality for this extension statement is 1.")

/-- An extension is blamed when it is not the only one of its key below its parent. -/
theorem repetitionFault?_eq (twins : List NodeId) :
    repetitionFault? twins = if twins.length ≤ 1 then none else some repetition := rfl

/-- What the checks of a complete statement blame a statement for, besides its repetition. -/
inductive FoundByCheck : Fault → Prop where
  | argument {rule : ArgumentRule} {name : String} {value : Option String} {fault : Fault}
      (h : rule.fault? name value = some fault) : FoundByCheck fault
  | lack (n : Node) (child : Keyword) {kind : FindingKind}
      (h : kind = .enumWithoutValue ∨ kind = .bitWithoutPosition) :
        FoundByCheck (lackFault n child kind)
  | useless {n : Node} {fault : Fault} (h : uselessFault? n = some fault) : FoundByCheck fault
  | standing {n : Node} {fault : Fault} (h : standingFault? n = some fault) : FoundByCheck fault
  | idle (operation : String) : FoundByCheck (idleFault operation)
  | policy {rule : ExtensionRule} {n : Node} {fault : Fault}
      (h : policyFault? rule n = some fault) :
      FoundByCheck fault
  | form {rule : ExtensionRule} {n : Node} {fault : Fault} (h : formFault? rule n = some fault) :
      FoundByCheck fault
  | parent {rule : ExtensionRule} {p : Node} {fault : Fault}
      (h : parentFault? rule p = some fault) :
      FoundByCheck fault
  | types {types : List NodeId} {fault : Fault} (h : typeFault? types = some fault) :
      FoundByCheck fault
  | sides {side : String} {annotated : List NodeId} {fault : Fault}
      (h : sideFault? side annotated = some fault) : FoundByCheck fault

/-- The kinds of what is wrong with arguments. -/
def argumentKinds : List FindingKind :=
  [.invalidSyntax, .invalidIdentifier, .invalidValue, .invalidStatus, .emptyDocumentation,
    .illegalIfFeatureSyntax]

/-- The kinds of what is wrong with contents, when it is not that a child is missing. -/
def contentKinds : List FindingKind :=
  [.enumWithoutValue, .bitWithoutPosition, .illegalChildStatement, .invalidDeviateProperty]

end Fault

/-- That no statement can be made of an element is no remark. -/
theorem Element.Rejects.not_likeRemark {e : Element} {f : Finding} (h : e.Rejects f) :
    ¬ f.LikeRemark := by
  intro hlike
  cases hlike with
  | «repeated» => nomatch h
  | required => nomatch h
  | requiredOnce => nomatch h
  | unexpected e' child =>
    generalize hf : unexpectedFinding e' child = f at h
    have hkind := congrArg Finding.kind hf
    rw [unexpectedFinding, unexpectedFault] at hkind
    cases h with
    | unknown =>
      have hmessage := congrArg Finding.message hf
      rw [unexpectedFinding, unexpectedFault] at hmessage
      split at hkind
      · cases hkind
      · next hcore =>
        rw [if_neg hcore] at hmessage
        have hquote : Text.Begins ['\x27'] ("'" ++ child.name ++
            "' is not part of the core YANG language.") :=
          ((Text.begins_ofList _ _).append _).append _
        have hnot : Text.Begins ['N'] (unknownStatement e).message :=
          (Text.begins_ofList _ _).append _
        exact hquote.ne hnot (by decide) hmessage
    | unbound => split at hkind <;> cases hkind

namespace Fault

/-- What is wrong with an argument has one of a few kinds. -/
theorem kind_of_argument {rule : ArgumentRule} {name : String} {value : Option String}
    {fault : Fault} (h : rule.fault? name value = some fault) : fault.1 ∈ argumentKinds := by
  have hcontent : ∀ argument, rule.contentFault? name argument = some fault →
      fault.1 ∈ argumentKinds := by
    intro argument h
    cases rule <;>
      simp only [ArgumentRule.contentFault?, identifierFault?, reduceCtorEq] at h <;>
      grind [argumentKinds]
  rw [ArgumentRule.fault?.eq_def] at h
  split at h
  · exact kind_of_then h (by decide)
  · exact kind_of_then h (by decide)
  · rcases value with _ | _
    · cases h
      exact List.mem_cons_self
    · exact kind_of_then h (by decide)
  · obtain h | ⟨-, h⟩ := Option.or_eq_some_iff.mp h
    · exact kind_of_then h (by decide)
    · exact hcontent _ h

/-- So has what is wrong with the argument of an extension. -/
theorem kind_of_policy {rule : ExtensionRule} {n : Node} {fault : Fault}
    (h : policyFault? rule n = some fault) : fault.1 ∈ argumentKinds := by
  rw [policyFault?.eq_def] at h
  split at h
  · exact kind_of_then h (by decide)
  · obtain h | ⟨-, h⟩ := Option.or_eq_some_iff.mp h
    · exact kind_of_then h (by decide)
    · exact kind_of_else h (by decide)
  · exact kind_of_then h (by decide)
  · cases h

/-- The message about a repetition begins in a way of its own. -/
theorem begins_repetition : Text.Begins ['T'] repetition.2 := Text.begins_ofList _ _

/-- What is wrong with the parent of an extension is told by a message with a beginning of its
own. -/
theorem message_of_parent {rule : ExtensionRule} {parent : Node} {fault : Fault} {cs : List Char}
    {message : String} (h : parentFault? rule parent = some fault)
    (hmessage : Text.Begins cs message) (hcs : ¬ ['E'] <+: cs ∧ ¬ cs <+: ['E']) :
    fault.1 = .invalidExtension ∧ fault.2 ≠ message := by
  rw [eq_of_else h]
  have hbegins : Text.Begins ['E'] ("Extension statement '" ++ rule.key.name ++
      "' is not allowed under '" ++ parent.name ++ "'.") :=
    ((((Text.begins_ofList _ _).append _).append _).append _).append _
  exact ⟨rfl, hbegins.ne hmessage hcs⟩

/-- So is what is wrong with the sides of a relationship. -/
theorem message_of_sides {side : String} {annotated : List NodeId} {fault : Fault}
    {cs : List Char} {message : String} (h : sideFault? side annotated = some fault)
    (hmessage : Text.Begins cs message) (hcs : ¬ ['A'] <+: cs ∧ ¬ cs <+: ['A']) :
    fault.1 = .invalidExtension ∧ fault.2 ≠ message := by
  rw [eq_of_else h]
  have hbegins : Text.Begins ['A']
      ("A 'bi-directional relationship' must have as child exactly a single leaf or " ++
        "leaf-list annotated with '" ++ side ++ "'.") :=
    (((Text.begins_ofList _ _).append _).append _).append _
  exact ⟨rfl, hbegins.ne hmessage hcs⟩

namespace FoundByCheck

variable {fault : Fault}

/-- What is missing is no remark, and what is wrong with an extension is not that it is repeated.
All else has a kind of its own. -/
theorem kind_cases (h : fault.FoundByCheck) : fault.1 ∈ argumentKinds ++ contentKinds ∨
    fault.1 = .missingRequiredChild ∧ fault.NoRemark ∨
    fault.1 = .invalidExtension ∧ fault.2 ≠ repetition.2 := by
  cases h with
  | argument h => exact .inl (List.mem_append_left _ (kind_of_argument h))
  | lack n child h =>
    refine .inl (List.mem_append_right _ ?_)
    obtain rfl | rfl := h
    · exact List.mem_cons_self
    · exact List.mem_cons_of_mem _ List.mem_cons_self
  | useless h => exact .inl (kind_of_else h (by decide))
  | standing h => exact .inl (kind_of_then h (by decide))
  | idle operation => exact .inr (.inl ⟨rfl, noRemark_idleFault operation⟩)
  | policy h => exact .inl (List.mem_append_left _ (kind_of_policy h))
  | form h =>
    rw [formFault?.eq_def] at h
    split at h
    · rw [eq_of_else h]
      exact .inr (.inr ⟨rfl, by decide⟩)
    · cases h
  | parent h => exact .inr (.inr (message_of_parent h begins_repetition (by decide)))
  | types h => exact .inr (.inl (noRemark_typeFault? h))
  | sides h => exact .inr (.inr (message_of_sides h begins_repetition (by decide)))

/-- No check finds what could be taken for a remark. -/
theorem noRemark (h : fault.FoundByCheck) : fault.NoRemark := by
  have hplain : ∀ kind ∈ argumentKinds ++ contentKinds,
      kind ≠ .cardinalityViolation ∧ kind ≠ .missingRequiredChild := by decide
  obtain h | ⟨-, h⟩ | ⟨h, -⟩ := h.kind_cases
  · exact Plain.noRemark (hplain _ h)
  · exact h
  · refine Plain.noRemark ⟨?_, ?_⟩ <;> rw [h] <;> exact nofun

/-- The checks of a complete statement find no repetition. -/
theorem ne_repetition (h : fault.FoundByCheck) : fault ≠ repetition := by
  rintro rfl
  obtain h | ⟨h, -⟩ | ⟨-, h⟩ := h.kind_cases
  · exact absurd h (by decide)
  · cases h
  · exact h rfl

end FoundByCheck

/-- A repetition is no remark. -/
theorem noRemark_repetition : NoRemark repetition := Plain.noRemark ⟨nofun, nofun⟩

/-- That the argument of an extension lacks the form that it should have. -/
def malformed : Fault :=
  (.invalidExtension, "Label value must be in 'version.release.correction' format.")

/-- What checks find besides the form of an argument. -/
def BesidesForm (fault : Fault) : Prop := fault.FoundByCheck ∧ fault ≠ malformed

/-- What checks find is besides the form of an argument when it is of another kind. -/
theorem FoundByCheck.besidesForm {fault : Fault} (h : fault.FoundByCheck)
    (hkind : fault.1 ≠ .invalidExtension) :
    fault.BesidesForm :=
  ⟨h, fun heq => hkind (congrArg Prod.fst heq)⟩

/-- A wrong argument of a core statement is besides the form of an argument. -/
theorem besidesForm_of_argument {rule : ArgumentRule} {name : String} {value : Option String}
    {fault : Fault} (h : rule.fault? name value = some fault) : fault.BesidesForm := by
  have hkind := kind_of_argument h
  refine FoundByCheck.besidesForm (.argument h) fun heq => ?_
  rw [heq] at hkind
  exact absurd hkind (by decide)

/-- An argument that is missing or not wanted is besides its form. -/
theorem besidesForm_of_policy {rule : ExtensionRule} {n : Node} {fault : Fault}
    (h : policyFault? rule n = some fault) : fault.BesidesForm := by
  have hkind := kind_of_policy h
  refine FoundByCheck.besidesForm (.policy h) fun heq => ?_
  rw [heq] at hkind
  exact absurd hkind (by decide)

/-- The message about the form of an argument begins in a way of its own. -/
theorem begins_malformed : Text.Begins ['L'] malformed.2 := Text.begins_ofList _ _

/-- A wrong parent is besides the form of an argument. -/
theorem besidesForm_of_parent {rule : ExtensionRule} {parent : Node} {fault : Fault}
    (h : parentFault? rule parent = some fault) : fault.BesidesForm :=
  ⟨.parent h, fun heq =>
    (message_of_parent h begins_malformed (by decide)).2 (congrArg Prod.snd heq)⟩

/-- A side with too few or too many statements is besides the form of an argument. -/
theorem besidesForm_of_sides {side : String} {annotated : List NodeId} {fault : Fault}
    (h : sideFault? side annotated = some fault) : fault.BesidesForm :=
  ⟨.sides h, fun heq =>
    (message_of_sides h begins_malformed (by decide)).2 (congrArg Prod.snd heq)⟩

/-- A repetition and a wrong form have different messages. -/
theorem repetition_ne_malformed : repetition ≠ malformed := fun heq =>
  begins_repetition.ne begins_malformed (by decide) (congrArg Prod.snd heq)

end Fault

/-! ## Relations that hold of checks -/

/-- A relation between building states that can be put together, and that holds of blaming a
statement for something that checks find, unless it is the form of an argument. -/
structure BlameRelation (env : Environment) (R : BuildState → BuildState → Prop) : Prop
    extends Composable R where
  blame : ∀ id {fault?}, (∀ fault, fault? = some fault → fault.BesidesForm) →
    Relates R (BuildM.blame env id fault?)

namespace BlameRelation

variable {env : Environment} {R : BuildState → BuildState → Prop} (g : BlameRelation env R)

include g

/-- An operation of the store that only reads. -/
theorem onStore {α : Type} {m : StoreM α} (h : Relates (fun s t => t = s) m) :
    Relates R (BuildM.onStore m) := by
  intro state
  rw [onStore_apply, h state.store]
  exact g.refl state

/-- Looking up a statement relates a state to itself. -/
theorem node (id : NodeId) : Relates R (BuildM.node id) := g.onStore (Composable.eq.node id)

theorem checkCoreArgument (id : NodeId) (k : Keyword) :
    Relates R (BuildM.checkCoreArgument env id k) :=
  g.bind (g.node id) fun _ => g.blame id fun _ => Fault.besidesForm_of_argument

theorem requireChild (id : NodeId) (child : Keyword) {kind : FindingKind}
    (h : kind = .enumWithoutValue ∨ kind = .bitWithoutPosition) :
    Relates R (BuildM.requireChild env id child kind) := by
  refine g.bind (g.onStore (Composable.eq.childrenOfKeyword id child)) fun found => ?_
  refine .ite (g.bind (g.node id) fun n => g.blame id ?_) (g.pure _)
  rintro _ ⟨⟩
  refine Fault.FoundByCheck.besidesForm (.lack n child h) ?_
  obtain rfl | rfl := h <;> exact nofun

theorem checkAmendments {fault? : Node → Option Fault}
    (h : ∀ n fault, fault? n = some fault → fault.BesidesForm) (children : List NodeId) :
    Relates R (BuildM.checkAmendments env fault? children) :=
  g.forM children fun child _ => g.bind (g.node child) fun n => g.blame child (h n)

theorem checkDeviation (id : NodeId) : Relates R (BuildM.checkDeviation env id) := by
  refine g.bind (g.node id) fun n => ?_
  refine .ite (g.checkAmendments (fun _ _ h => ?_) n.children)
    (.ite (.ite (g.blame id ?_) ?_) (g.pure _))
  · exact Fault.FoundByCheck.besidesForm (.useless h) (by rw [Fault.eq_of_else h]; exact nofun)
  · rintro _ ⟨⟩
    exact Fault.FoundByCheck.besidesForm (.idle _) nofun
  · refine .ite (g.pure _) (g.checkAmendments (fun _ _ h => ?_) n.children)
    exact Fault.FoundByCheck.besidesForm (.standing h) (by rw [Fault.eq_of_then h]; exact nofun)

theorem checkContent (id : NodeId) (k : Keyword) :
    Relates R (BuildM.checkContent env id k) := by
  rw [BuildM.checkContent.eq_def]
  split
  · exact g.checkDeviation id
  · exact g.requireChild id _ (.inl rfl)
  · exact g.requireChild id _ (.inr rfl)
  · exact g.pure _

theorem checkParent (id : NodeId) (rule : ExtensionRule) :
    Relates R (BuildM.checkParent env id rule) := by
  refine g.bind (g.node id) fun n => ?_
  rcases n.parent with _ | parent
  · exact g.pure _
  · exact g.bind (g.node parent) fun p => g.blame id fun _ => Fault.besidesForm_of_parent

/-- The check of how often an extension occurs, given the blame for its repetition. -/
theorem checkRepetition (h : ∀ id, Relates R (BuildM.blame env id (some Fault.repetition)))
    (id : NodeId) (rule : ExtensionRule) : Relates R (BuildM.checkRepetition env id rule) := by
  refine .ite (g.pure _) (g.bind (g.node id) fun n => ?_)
  rcases n.parent with _ | parent
  · exact g.pure _
  refine g.bind (g.onStore (Composable.eq.childrenWithKey parent _)) fun twins => ?_
  rw [Fault.repetitionFault?_eq]
  split
  · exact g.blame id nofun
  · exact h id

/-- What is done once an extension is complete, unless the numbers of a version are kept. -/
theorem followUp (id : NodeId) {followUp : FollowUp} (h : followUp ≠ .recordVersion) :
    Relates R (BuildM.followUp env id followUp) := by
  cases followUp with
  | nothing => exact g.pure _
  | expectType =>
    refine g.bind (g.onStore (Composable.eq.childrenOfKeyword id _)) fun types =>
      g.blame id fun fault hfault => ?_
    refine Fault.FoundByCheck.besidesForm (.types hfault) ?_
    rw [(Fault.noRemark_typeFault? hfault).1]
    exact nofun
  | expectSides =>
    refine g.forM _ fun side _ => ?_
    exact g.bind (g.onStore (Composable.eq.sideChildren id side)) fun annotated =>
      g.blame id fun _ => Fault.besidesForm_of_sides
  | recordVersion => exact absurd rfl h

end BlameRelation

/-- A relation between building states that can be put together, and that holds of blaming a
statement for something that checks find and of keeping the numbers of a version. -/
structure CheckRelation (env : Environment) (R : BuildState → BuildState → Prop) : Prop
    extends Composable R where
  blame : ∀ id {fault?}, (∀ fault, fault? = some fault → fault.FoundByCheck) →
    Relates R (BuildM.blame env id fault?)
  recordVersion : ∀ id, Relates R (BuildM.update id Node.recordVersion)

namespace CheckRelation

variable {env : Environment} {R : BuildState → BuildState → Prop} (g : CheckRelation env R)

include g

/-- A relation that holds of every check holds of blaming a statement. -/
theorem blameRelation : BlameRelation env R where
  toComposable := g.toComposable
  blame id _ h := g.blame id fun fault hfault => (h fault hfault).1

theorem checkCoreArgument (id : NodeId) (k : Keyword) :
    Relates R (BuildM.checkCoreArgument env id k) := g.blameRelation.checkCoreArgument id k

theorem checkContent (id : NodeId) (k : Keyword) :
    Relates R (BuildM.checkContent env id k) := g.blameRelation.checkContent id k

theorem checkParent (id : NodeId) (rule : ExtensionRule) :
    Relates R (BuildM.checkParent env id rule) := g.blameRelation.checkParent id rule

/-- The check of an extension, given the check of how often it occurs. -/
theorem checkRule {id : NodeId} {rule : ExtensionRule}
    (h : Relates R (BuildM.checkRepetition env id rule)) :
    Relates R (BuildM.checkRule env id rule) := by
  refine g.bind (g.blameRelation.node id) fun n => ?_
  refine g.bind (g.blame id fun _ => .policy) fun _ => ?_
  refine g.bind (g.blame id fun _ => .form) fun _ => ?_
  exact g.bind (g.checkParent id rule) fun _ => h

/-- What follows the checks of an extension relates the states. -/
theorem followUp (id : NodeId) (followUp : FollowUp) :
    Relates R (BuildM.followUp env id followUp) := by
  by_cases h : followUp = .recordVersion
  · subst h
    exact g.recordVersion id
  · exact g.blameRelation.followUp id h

/-- Completing an extension relates the states when blaming it for a repetition does. -/
theorem completeExtension (h : ∀ id, Relates R (BuildM.blame env id (some Fault.repetition)))
    (id : NodeId) (c : ExtensionClass) : Relates R (BuildM.completeExtension env id c) := by
  rcases c with _ | rule
  · exact g.pure _
  · exact g.bind (g.checkRule (g.blameRelation.checkRepetition h id rule)) fun _ => g.followUp id _

end CheckRelation

/-- A relation between building states that can be put together, and that holds of blaming a
statement for something that is no remark and of keeping the numbers of a version. -/
structure NoRemarkRelation (env : Environment) (R : BuildState → BuildState → Prop) : Prop
    extends Composable R where
  blame : ∀ id {fault?}, (∀ fault, fault? = some fault → fault.NoRemark) →
    Relates R (BuildM.blame env id fault?)
  recordVersion : ∀ id, Relates R (BuildM.update id Node.recordVersion)

namespace NoRemarkRelation

variable {env : Environment} {R : BuildState → BuildState → Prop} (g : NoRemarkRelation env R)

include g

/-- A relation that holds of whatever is no remark holds of every check. -/
theorem checkRelation : CheckRelation env R where
  toComposable := g.toComposable
  blame id _ h := g.blame id fun fault hfault => (h fault hfault).noRemark
  recordVersion := g.recordVersion

/-- Completing an extension relates the states. -/
theorem completeExtension (id : NodeId) (c : ExtensionClass) :
    Relates R (BuildM.completeExtension env id c) := by
  refine g.checkRelation.completeExtension (fun id => g.blame id ?_) id c
  rintro _ ⟨⟩
  exact Fault.noRemark_repetition

end NoRemarkRelation
end StatementForest

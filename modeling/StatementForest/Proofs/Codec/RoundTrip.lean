import StatementForest.Configuration.Codec
import StatementForest.Document.Codec
import StatementForest.Finding.Codec
import StatementForest.Grammar.Codec
import StatementForest.Statement.Codec
import StatementForest.Store.Codec

/-!
# What is written is read back

Documents, findings, configurations, grammars, names and kept values have a written form.
Reading the written form gives back what was written, in every format.  What is read from any
data at all, with members left out, null, unknown or spelled in another way, is something that
can be written and read back, so writing twice is writing once.

Line numbers and statement numbers are counts below `2 ^ 32`.  A reader accepts no
others, so all that was read has such numbers.

Main results:

- Theorem `ElementSpec.ofData?_toData`: an element is read back with all below it.
- Theorem `Finding.ofData?_toData`: a finding is read back whatever it is about.
- Theorem `Configuration.ofData?_toData`, theorem `Grammar.ofData?_toData`: so are
  configurations and grammars.
- Theorem `ElementSpec.counted_of_ofData?`: what is read has counts for its numbers.
- Theorem `written_rereads`: written forms are read back, and what was read can be written.

Current gaps:

- Round trips are shown for data.  The printers and the readers of JSON, YAML and TOML texts are
  not related to each other.
-/

namespace StatementForest

/-! ## Values -/

namespace Data

variable {α : Type} {read : Data → Option α} {d : Data} {a : α}

/-- A value that is something is read where it may be left out. -/
theorem asOptional?_of_some (hnull : d.isNull = false) (htag : ∀ tag v, d ≠ .tagged tag v)
    (h : read d = some a) : d.asOptional? read = some (some a) := by
  unfold asOptional?
  split
  · exact absurd rfl (htag _ _)
  · rw [hnull, h]
    rfl

/-- An optional count is read back. -/
theorem asOptional?_ofNat? {value : Option Nat} (h : ∀ n ∈ value, isCount n = true) :
    (ofNat? value).asOptional? asCount? = some value := by
  cases value with
  | none => rfl
  | some n =>
    exact asOptional?_of_some rfl (fun _ _ => Data.noConfusion) (asCount?_ofNat (h n rfl))

/-- A list of texts is read back. -/
theorem asTexts?_ofTexts (values : List String) : (ofTexts values).asTexts? = some values := by
  have h : (values.map Data.text).mapM asText? = some values := by
    induction values with
    | nil => rfl
    | cons value rest ih =>
      rw [List.map_cons, List.mapM_cons, ih]
      rfl
  exact h

/-- A dictionary is read back when its values are. -/
theorem asDictionary?_record (read : Data → Option α) (write : α → Data)
    (dictionary : Dictionary α)
    (h : ∀ e ∈ dictionary.entries, read (write e.2) = some e.2) :
    (Data.record (dictionary.entries.map fun e => (e.1, write e.2))).asDictionary? read =
      some dictionary := by
  have hentries : ∀ entries : List (String × α), (∀ e ∈ entries, read (write e.2) = some e.2) →
      (entries.map fun e => (e.1, write e.2)).mapM
        (fun member => (read member.2).map (member.1, ·)) = some entries := by
    intro entries hall
    induction entries with
    | nil => rfl
    | cons e rest ih =>
      have hrest := ih fun e he => hall e (List.mem_cons_of_mem _ he)
      rw [List.map_cons, List.mapM_cons, hrest]
      simp [hall e List.mem_cons_self]
  have hread : (Data.record (dictionary.entries.map fun e => (e.1, write e.2))).asDictionary? read =
      (some dictionary.entries).bind fun entries => some (Dictionary.ofList entries) := by
    rw [← hentries _ h]
    rfl
  rw [hread, Option.bind_some, Dictionary.ofList_entries]

/-- Only counts are read as counts. -/
theorem isCount_of_asCount? {n : Nat} (h : d.asCount? = some n) : isCount n = true := by
  unfold asCount? at h
  split at h
  · split at h
    · next hcount => exact Option.some.inj h ▸ hcount
    · exact absurd h.symm (Option.some_ne_none n)
  · exact (Option.filter_eq_some_iff.mp h).2
  · exact absurd h.symm (Option.some_ne_none n)

/-- What is read as a count is one. -/
theorem isCount_of_asOptional? {value : Option Nat} (h : d.asOptional? asCount? = some value) :
    ∀ n ∈ value, isCount n = true := by
  rintro n rfl
  unfold asOptional? at h
  split at h
  · split at h <;> cases h
  · split at h
    · cases h
    · obtain ⟨m, hm, hn⟩ := Option.map_eq_some_iff.mp h
      cases hn
      exact isCount_of_asCount? hm

end Data

/-! ## Elements -/

namespace ElementSpec

variable {format : Format}

/-- The line numbers of an element and of all below it are counts. -/
inductive Counted : ElementSpec → Prop where
  | intro {spec : ElementSpec} (line : ∀ n ∈ spec.line, Data.isCount n = true)
      (children : ∀ child ∈ spec.children, Counted child) : Counted spec

/-- Elements are read back when each of them is. -/
theorem readAll_writeAll {specs : List ElementSpec}
    (h : ∀ spec ∈ specs, ofData? format spec.toData = some spec) :
    readAll format (writeAll specs) = some specs := by
  induction specs with
  | nil => rw [writeAll, readAll]
  | cons spec rest ih =>
    rw [writeAll, readAll, h spec List.mem_cons_self,
      ih fun s hs => h s (List.mem_cons_of_mem _ hs)]
    rfl

/-- An element is read back with all below it. -/
theorem ofData?_toData {spec : ElementSpec} (h : spec.Counted) :
    ofData? format spec.toData = some spec := by
  induction h with
  | @intro spec line _ ih =>
    obtain ⟨name, value, number, bindings, children⟩ := spec
    have hline : (Data.ofNat? number).asOptional? Data.asCount? = some number :=
      Data.asOptional?_ofNat? line
    have hbindings := Data.asDictionary?_record Data.asText? Data.text bindings fun _ _ => rfl
    have hchildren : readChildren format (.list (writeAll children)) = some children := by
      rw [readChildren]
      exact readAll_writeAll ih
    simp [toData, ofData?, readMembers, readField, once, Fields.toSpec?, hline, hbindings,
      hchildren]

/-- The numbers among the fields that were read are counts. -/
structure Fields.Counted (f : Fields) : Prop where
  line : ∀ number ∈ f.line, ∀ n ∈ number, Data.isCount n = true
  children : ∀ children ∈ f.children, ∀ child ∈ children, child.Counted

/-- Without fields there are no numbers. -/
theorem Fields.Counted.nil : Fields.Counted {} := ⟨nofun, nofun⟩

/-- The numbers of an element are counts when those of its fields are. -/
theorem Fields.Counted.toSpec? {f : Fields} (h : f.Counted) {spec : ElementSpec}
    (hspec : f.toSpec? = some spec) : spec.Counted := by
  obtain ⟨name, hname, hspec⟩ := Option.bind_eq_some_iff.mp hspec
  cases hspec
  refine .intro ?_ ?_
  · intro n hn
    cases hline : f.line with
    | none => rw [hline] at hn; cases hn
    | some number => rw [hline] at hn; exact h.line number hline n hn
  · intro child hchild
    cases hchildren : f.children with
    | none => rw [hchildren] at hchild; cases hchild
    | some children =>
      rw [hchildren] at hchild
      exact h.children children hchildren child hchild

/-- A field is read once, and only when it can be read. -/
theorem once_eq_some {α : Type} {known read result : Option α}
    (h : once known read = some result) : ∃ a, read = some a ∧ result = some a := by
  unfold once at h
  split at h
  · cases h
  · obtain ⟨a, ha, rfl⟩ := Option.map_eq_some_iff.mp h
    exact ⟨a, ha, rfl⟩

/-- What reading a field does to the numbers: nothing, or it reads a line number or
children. -/
theorem readField_cases {name : String} {d : Data} {f g : Fields}
    (h : readField format name d f = some g) :
    (g.line = f.line ∧ g.children = f.children) ∨
    (∃ number, d.asOptional? Data.asCount? = some number ∧ g.line = some number ∧
      g.children = f.children) ∨
    (∃ children, readChildren format d = some children ∧ g.line = f.line ∧
      g.children = some children) := by
  unfold readField at h
  split at h
  · obtain ⟨_, -, hg⟩ := Option.bind_eq_some_iff.mp h
    cases hg
    exact .inl ⟨rfl, rfl⟩
  split at h
  · obtain ⟨_, -, hg⟩ := Option.bind_eq_some_iff.mp h
    cases hg
    exact .inl ⟨rfl, rfl⟩
  split at h
  · obtain ⟨_, honce, hg⟩ := Option.bind_eq_some_iff.mp h
    obtain ⟨number, hread, rfl⟩ := once_eq_some honce
    cases hg
    exact .inr (.inl ⟨number, hread, rfl, rfl⟩)
  split at h
  · obtain ⟨_, -, hg⟩ := Option.bind_eq_some_iff.mp h
    cases hg
    exact .inl ⟨rfl, rfl⟩
  split at h
  · obtain ⟨_, honce, hg⟩ := Option.bind_eq_some_iff.mp h
    obtain ⟨children, hread, rfl⟩ := once_eq_some honce
    cases hg
    exact .inr (.inr ⟨children, hread, rfl, rfl⟩)
  · cases h
    exact .inl ⟨rfl, rfl⟩

/-- A field keeps the numbers counts if the children it may hold have counts. -/
theorem Fields.Counted.readField {name : String} {d : Data} {f g : Fields} (hf : f.Counted)
    (h : readField format name d f = some g)
    (hd : ∀ specs, readChildren format d = some specs → ∀ spec ∈ specs, spec.Counted) :
    g.Counted := by
  obtain ⟨hline, hchildren⟩ | ⟨number, hread, hline, hchildren⟩ |
    ⟨children, hread, hline, hchildren⟩ := readField_cases h
  · exact ⟨hline ▸ hf.line, hchildren ▸ hf.children⟩
  · refine ⟨?_, hchildren ▸ hf.children⟩
    rw [hline]
    rintro _ ⟨⟩
    exact Data.isCount_of_asOptional? hread
  · refine ⟨hline ▸ hf.line, ?_⟩
    rw [hchildren]
    rintro _ ⟨⟩
    exact hd children hread

mutual

/-- What is read as an element has counts for its line numbers. -/
theorem counted_of_ofData? : ∀ (d : Data) {spec : ElementSpec},
    ofData? format d = some spec → spec.Counted
  | .record members, spec, h => by
    rw [ofData?] at h
    obtain ⟨f, hf, hspec⟩ := Option.bind_eq_some_iff.mp h
    exact (counted_of_readMembers members .nil hf).toSpec? hspec
  | .list items, spec, h => by
    rw [ofData?] at h
    split at h
    · obtain ⟨f, hf, hspec⟩ := Option.bind_eq_some_iff.mp h
      exact (counted_of_readItems fieldNames items .nil hf).toSpec? hspec
    · cases h
  | .tagged _ d, spec, h => by
    rw [ofData?] at h
    exact counted_of_ofData? d h
  | .null, _, h | .bool _, _, h | .integer _, _, h | .decimal _, _, h | .text _, _, h
  | .plain _, _, h | .unreadable, _, h => by simp [ofData?] at h

/-- The numbers of the children that are read are counts. -/
theorem counted_of_readChildren : ∀ (d : Data) {specs : List ElementSpec},
    readChildren format d = some specs → ∀ spec ∈ specs, spec.Counted
  | .list items, specs, h => by
    rw [readChildren] at h
    exact counted_of_readAll items h
  | .tagged _ d, specs, h => by
    rw [readChildren] at h
    exact counted_of_readChildren d h
  | .plain s, specs, h => by
    by_cases hs : s = ""
    · subst hs
      rw [readChildren] at h
      cases h
      exact nofun
    · simp [readChildren, hs] at h
  | .null, _, h | .bool _, _, h | .integer _, _, h | .decimal _, _, h | .text _, _, h
  | .record _, _, h | .unreadable, _, h => by simp [readChildren] at h

/-- The numbers among the members that are read are counts. -/
theorem counted_of_readMembers : ∀ (members : List (String × Data)) {f g : Fields},
    f.Counted → readMembers format members f = some g → g.Counted
  | [], f, g, hf, h => by
    rw [readMembers] at h
    cases h
    exact hf
  | (name, d) :: members, f, g, hf, h => by
    rw [readMembers] at h
    obtain ⟨f', hf', h⟩ := Option.bind_eq_some_iff.mp h
    have hg := hf.readField hf' fun _ => counted_of_readChildren d
    exact counted_of_readMembers members hg h

/-- The numbers among the items that are read are counts. -/
theorem counted_of_readItems : ∀ (names : List String) (items : List Data) {f g : Fields},
    f.Counted → readItems format names items f = some g → g.Counted
  | _, [], f, g, hf, h => by
    rw [readItems] at h
    cases h
    exact hf
  | [], d :: items, f, g, hf, h => by simp [readItems] at h
  | name :: names, d :: items, f, g, hf, h => by
    rw [readItems] at h
    obtain ⟨f', hf', h⟩ := Option.bind_eq_some_iff.mp h
    have hg := hf.readField hf' fun _ => counted_of_readChildren d
    exact counted_of_readItems names items hg h

/-- The numbers of all elements that are read are counts. -/
theorem counted_of_readAll : ∀ (items : List Data) {specs : List ElementSpec},
    readAll format items = some specs → ∀ spec ∈ specs, spec.Counted
  | [], specs, h => by
    rw [readAll] at h
    cases h
    exact nofun
  | d :: items, specs, h => by
    rw [readAll] at h
    obtain ⟨spec, hspec, h⟩ := Option.bind_eq_some_iff.mp h
    obtain ⟨rest, hrest, h⟩ := Option.bind_eq_some_iff.mp h
    cases h
    exact List.forall_mem_cons.mpr ⟨counted_of_ofData? d hspec, counted_of_readAll items hrest⟩

end

end ElementSpec

/-! ## Documents -/

namespace DocumentSpec

variable {format : Format}

/-- The line numbers of a document are counts. -/
def Counted (spec : DocumentSpec) : Prop := spec.root.Counted

/-- A document is read back with all of its elements. -/
theorem ofData?_toData {spec : DocumentSpec} (h : spec.Counted) :
    ofData? format spec.toData = some spec := by
  obtain ⟨source, home, bindings, root⟩ := spec
  have hroot : ElementSpec.ofData? format root.toData = some root :=
    ElementSpec.ofData?_toData h
  have hsource := Data.asOptionalText?_ofOption? source
  have hhome := Data.asOptionalText?_ofOption? home
  have hbindings := Data.asDictionary?_record Data.asText? Data.text bindings fun _ _ => rfl
  rw [Data.asOptionalText?] at hsource hhome
  simp [ofData?, toData, Data.asRecord?, Data.asMembers?, Data.untagged, Data.optional?,
    Data.defaulted?, Data.required?, Data.member?, hsource, hhome, hbindings, hroot]

/-- What is read as a document has counts for its line numbers. -/
theorem counted_of_ofData? {d : Data} {spec : DocumentSpec} (h : ofData? format d = some spec) :
    spec.Counted := by
  simp only [ofData?, Option.bind_eq_bind, Option.bind_eq_some_iff] at h
  obtain ⟨members, -, source, -, home, -, bindings, -, root, hroot, hspec⟩ := h
  cases hspec
  obtain ⟨_, -, hroot⟩ := Option.bind_eq_some_iff.mp hroot
  obtain ⟨d, -, hroot⟩ := Option.bind_eq_some_iff.mp hroot
  exact ElementSpec.counted_of_ofData? d hroot

/-- Write again what is read as a document. -/
def rewrite? (format : Format) (d : Data) : Option Data := (ofData? format d).map toData

end DocumentSpec

/-! ## Findings -/

/-- The line number of an origin is a count. -/
def Origin.Counted (o : Origin) : Prop := ∀ n ∈ o.line, Data.isCount n = true

/-- The numbers of a subject are counts. -/
def Subject.Counted : Subject → Prop
  | .statement node origin => Data.isCount node.index = true ∧ origin.Counted
  | .element origin => origin.Counted
  | .general => True

/-- The numbers of a finding are counts. -/
def Finding.Counted (f : Finding) : Prop := f.subject.Counted

namespace Origin

variable {o : Origin}

/-- An origin is read back from its fields, whatever stands before them. -/
theorem ofMembers?_toMembers (h : o.Counted) (others : List (String × Data))
    (hothers : ∀ e ∈ others, e.1 ∉ ["source", "name", "line"]) :
    ofMembers? (others ++ o.toMembers) = some o := by
  obtain ⟨source, name, line⟩ := o
  have hline : (Data.ofNat? line).asOptional? Data.asCount? = some line :=
    Data.asOptional?_ofNat? h
  have hsource := Data.asOptionalText?_ofOption? source
  rw [Data.asOptionalText?] at hsource
  have hnone : ∀ field ∈ ["source", "name", "line"],
      others.filter (·.1 = field) = [] := by
    intro field hfield
    refine List.filter_eq_nil_iff.mpr fun e he heq => hothers e he ?_
    exact of_decide_eq_true heq ▸ hfield
  simp [ofMembers?, toMembers, Data.optional?, Data.defaulted?, Data.required?, Data.member?,
    hnone, hline, hsource]

/-- An origin is read back. -/
theorem ofData?_toData (h : o.Counted) : ofData? o.toData = some o :=
  ofMembers?_toMembers h [] nofun

end Origin

/-- The target of a finding is read back. -/
theorem Subject.ofData?_toData {s : Subject} (h : s.Counted) : ofData? s.toData = some s := by
  cases s with
  | statement node origin =>
    have hnode := Data.asCount?_ofNat h.1
    have horigin := Origin.ofData?_toData h.2
    simp [ofData?, toData, typeOf?, Data.asRecord?, Data.asMembers?, Data.untagged,
      Data.required?, Data.member?, hnode, horigin]
  | element origin =>
    have horigin := Origin.ofMembers?_toMembers h [("type", .text "element")] (by decide)
    have htype : typeOf? (toData (.element origin)) =
        some (.text "element", toData (.element origin)) := by
      simp [typeOf?, toData, Origin.toMembers, Data.required?, Data.member?]
    have hfields : Origin.ofData? (toData (.element origin)) = some origin := horigin
    simp [ofData?, htype, hfields]
  | general =>
    simp [ofData?, toData, typeOf?, Data.asRecord?, Data.asMembers?, Data.untagged,
      Data.required?, Data.member?]

/-- A finding is read back whatever it is about. -/
theorem Finding.ofData?_toData {f : Finding} (h : f.Counted) : ofData? f.toData = some f := by
  obtain ⟨subject, kind, message⟩ := f
  have hsubject : Subject.ofData? subject.toData = some subject := Subject.ofData?_toData h
  have hkind : (Data.text kind.text).asWord? .json FindingKind.ofText? = some kind :=
    FindingKind.ofText?_text kind
  simp [ofData?, toData, Data.asRecord?, Data.asMembers?, Data.untagged, Data.required?,
    Data.member?, hsubject, hkind]

/-! ## Configurations -/

namespace Configuration

variable {format : Format}

/-- A field that may be left out is read back when its value is. -/
theorem optional?_memberOf {α : Type} {read : Data → Option α} (write : α → Data)
    {members : List (String × Data)} {name : String} (value : Option α)
    (hmember : members.filter (·.1 = name) = memberOf name write value)
    (hread : ∀ a, (write a).asOptional? read = some (some a)) :
    Data.optional? read members name = some value := by
  rw [Data.optional?, Data.defaulted?, Data.member?, hmember]
  cases value with
  | none => rfl
  | some a => exact hread a

/-- A member is found under its own name only. -/
theorem filter_memberOf {α : Type} (write : α → Data) (value : Option α) (name other : String) :
    (memberOf other write value).filter (·.1 = name) =
      if other = name then memberOf other write value else [] := by
  cases value with
  | none => split <;> rfl
  | some a =>
    simp only [memberOf, Option.map_some, Option.toList_some, List.filter_cons, List.filter_nil,
      decide_eq_true_eq]

/-- A configuration is read back. -/
theorem ofData?_toData (c : Configuration) : ofData? format c.toData = some c := by
  have htexts (values : List String) :
      (Data.ofTexts values).asOptional? Data.asTexts? = some (some values) :=
    Data.asOptional?_of_some rfl (fun _ _ => Data.noConfusion) (Data.asTexts?_ofTexts values)
  have hbool (b : Bool) : (Data.bool b).asOptional? Data.asBool? = some (some b) := rfl
  have hword {α : Type} {ofText? : String → Option α} {s : String} {a : α}
      (h : ofText? s = some a) :
      (Data.text s).asOptional? (Data.asWord? format ofText?) = some (some a) :=
    Data.asOptional?_of_some rfl (fun _ _ => Data.noConfusion) h
  have hlevels (levels : Dictionary SeverityLevel) :
      (Data.record (levels.entries.map fun e => (e.1, .text e.2.text))).asOptional?
        (Data.asDictionary? (Data.asWord? format SeverityLevel.ofText?)) = some (some levels) :=
    Data.asOptional?_of_some rfl (fun _ _ => Data.noConfusion) <|
      Data.asDictionary?_record _ (fun level => .text level.text) levels
        fun e _ => SeverityLevel.ofText?_text e.2
  have hrecord : c.toData.asRecord? format fieldNames fieldNames.length = c.toData.asMembers? :=
    rfl
  rw [ofData?, hrecord, toData]
  simp only [Data.asMembers?, Data.untagged, Option.bind_eq_bind, Option.bind_some]
  rw [optional?_memberOf (fun l : SeverityLevel => .text l.text) c.failFast
      (by simp [filter_memberOf]) fun l => hword (SeverityLevel.ofText?_text l),
    optional?_memberOf _ c.supportedFeatures (by simp [filter_memberOf]) htexts,
    optional?_memberOf _ c.pruning (by simp [filter_memberOf]) hbool,
    optional?_memberOf _ c.orphanPolicy (by simp [filter_memberOf])
      fun p => hword (OrphanPolicy.ofText?_text p),
    optional?_memberOf _ c.overrides (by simp [filter_memberOf]) hlevels,
    optional?_memberOf _ c.suppressed (by simp [filter_memberOf]) htexts,
    optional?_memberOf _ c.parallel (by simp [filter_memberOf]) hbool]
  rfl

/-- Write again what is read as a configuration. -/
def rewrite? (format : Format) (d : Data) : Option Data := (ofData? format d).map toData

end Configuration

/-! ## Grammars -/

/-- The lists of one statement are read back. -/
theorem Cardinalities.ofData?_toData (format : Format) (c : Cardinalities) :
    ofData? format c.toData = some c := by
  simp [ofData?, toData, Data.asRecord?, Data.asMembers?, Data.untagged, Data.defaulted?,
    Data.member?, Data.asTexts?_ofTexts]

/-- A grammar is read back. -/
theorem Grammar.ofData?_toData (format : Format) (g : Grammar) :
    ofData? format g.toData = some g := by
  have hstatements := Data.asDictionary?_record (Cardinalities.ofData? format)
    Cardinalities.toData g.statements
    fun e _ => Cardinalities.ofData?_toData format e.2
  simp [ofData?, toData, Data.asRecord?, Data.asMembers?, Data.untagged, Data.defaulted?,
    Data.member?, hstatements]

/-! ## Written forms -/

/-- In a format what is written is read back, and what is read can be written. -/
structure Format.Rereads (format : Format) : Prop where
  document : ∀ spec : DocumentSpec, spec.Counted →
    DocumentSpec.ofData? format spec.toData = some spec
  finding : ∀ f : Finding, f.Counted → Finding.ofData? f.toData = some f
  configuration : ∀ c : Configuration, Configuration.ofData? format c.toData = some c
  grammar : ∀ g : Grammar, Grammar.ofData? format g.toData = some g
  globalName : ∀ n : GlobalName, GlobalName.ofData? n.toData = some n
  customValue : ∀ value : CustomValue, CustomValue.ofData? value.toData = some value
  /-- A document that was read from anything is read again from its written form. -/
  document_again : ∀ d spec, DocumentSpec.ofData? format d = some spec →
    DocumentSpec.ofData? format spec.toData = some spec
  /-- So is a configuration. -/
  configuration_again : ∀ d c, Configuration.ofData? format d = some c →
    Configuration.ofData? format c.toData = some c
  /-- Writing a document again changes nothing more. -/
  document_rewrite : ∀ d, (DocumentSpec.rewrite? format d).bind (DocumentSpec.rewrite? format) =
    DocumentSpec.rewrite? format d
  /-- Neither does writing a configuration again. -/
  configuration_rewrite : ∀ d,
    (Configuration.rewrite? format d).bind (Configuration.rewrite? format) =
      Configuration.rewrite? format d

/-- Reading and writing again changes nothing when what is read is read back. -/
theorem bind_map_write {α : Type} {read : Data → Option α} {write : α → Data}
    (h : ∀ d a, read d = some a → read (write a) = some a) (d : Data) :
    ((read d).map write).bind (fun d => (read d).map write) = (read d).map write := by
  cases ha : read d with
  | none => rfl
  | some a => rw [Option.map_some, Option.bind_some, h d a ha, Option.map_some]

/-- Written forms are read back in every format, and what was read can be written. -/
theorem written_rereads (format : Format) : format.Rereads where
  document _ := DocumentSpec.ofData?_toData
  finding _ := Finding.ofData?_toData
  configuration := Configuration.ofData?_toData
  grammar := Grammar.ofData?_toData format
  globalName := GlobalName.ofData?_toData
  customValue := CustomValue.ofData?_toData
  document_again _ _ h := DocumentSpec.ofData?_toData (DocumentSpec.counted_of_ofData? h)
  configuration_again _ c _ := Configuration.ofData?_toData c
  document_rewrite := bind_map_write fun _ _ h =>
    DocumentSpec.ofData?_toData (DocumentSpec.counted_of_ofData? h)
  configuration_rewrite := bind_map_write fun _ c _ => Configuration.ofData?_toData c

/-- A module with a leaf two levels below it, a line and a qualifier on the way. -/
def DocumentSpec.nested : DocumentSpec where
  source := some "a.yang"
  root := {
    name := "module", value := some "a", line := some 1
    children := [{
      name := "container", value := some "c"
      bindings := ⟨[("p", "m")], List.pairwise_singleton _ _⟩
      children := [{ name := "leaf", value := some "l", line := some 3 }] }] }

/-- A nested document, a finding and a configuration are read back after they were written. -/
theorem written_rereads_nested :
    DocumentSpec.nested.Counted ∧
    DocumentSpec.ofData? .json DocumentSpec.nested.toData = some DocumentSpec.nested ∧
    Finding.Counted ⟨.element ⟨none, "leaf", some 3⟩, .invalidValue, "bad"⟩ ∧
    Configuration.ofData? .json (.record [("failFast", .text "warning"), ("parallel", .null),
      ("other", .list [])]) = some { failFast := some .warn } ∧
    Configuration.ofData? .json (.record [("failFast", .text "warn")]) =
      some { failFast := some .warn } := by
  have hleaf : ElementSpec.Counted { name := "leaf", value := some "l", line := some 3 } :=
    .intro (by rintro _ ⟨⟩; decide) nofun
  have hcounted : DocumentSpec.nested.Counted :=
    .intro (by rintro _ ⟨⟩; decide) (List.forall_mem_singleton.mpr
      (.intro nofun (List.forall_mem_singleton.mpr hleaf)))
  have hread : Configuration.ofData? .json (.record [("failFast", .text "warning"),
      ("parallel", .null), ("other", .list [])]) = some { failFast := some .warn } := rfl
  refine ⟨hcounted, (written_rereads .json).document _ hcounted, ?_, hread,
    (written_rereads .json).configuration_again _ _ hread⟩
  rintro _ ⟨⟩
  decide

end StatementForest

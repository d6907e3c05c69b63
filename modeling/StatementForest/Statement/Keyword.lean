/-!
# Keywords of the core language

The core language has a closed set of statements, one per keyword.  Each
keyword says what its argument has to look like and carries a few marks that
the attribute pass and the tree view use.

Main results:

- `Keyword.ofText?_text`: every keyword is found again by its text.
-/

namespace StatementForest

/-- What the argument of a statement has to look like. -/
inductive ArgumentRule where
  /-- Not blank. -/
  | required
  /-- Present, but possibly empty. -/
  | present
  /-- No argument at all. -/
  | absent
  /-- One of `true` and `false`. -/
  | boolean
  /-- An identifier. -/
  | identifier
  /-- An identifier with an optional qualifier. -/
  | reference
  /-- One of a few words. -/
  | oneOf (words : List String)
  /-- A status word. -/
  | status
  /-- A calendar date. -/
  | date
  /-- An integer within inclusive bounds. -/
  | integer (least greatest : Int)
  /-- A positive integer, or the word `unbounded`. -/
  | maxElements
  /-- Free text that should not be blank. -/
  | documentation
  /-- A feature condition. -/
  | ifFeature
  deriving DecidableEq, Repr

/-- The statements of the core language. -/
inductive Keyword where
  | action
  | anydata
  | anyxml
  | argument
  | augment
  | base
  | belongsTo
  | bit
  | case
  | choice
  | config
  | contact
  | container
  | default
  | description
  | deviate
  | deviation
  | enum
  | errorAppTag
  | errorMessage
  | extension
  | feature
  | fractionDigits
  | grouping
  | identity
  | ifFeature
  | importStatement
  | includeStatement
  | input
  | key
  | leaf
  | leafList
  | length
  | list
  | mandatory
  | maxElements
  | minElements
  | modifier
  | module
  | must
  | namespaceStatement
  | notification
  | orderedBy
  | organization
  | output
  | path
  | pattern
  | position
  | prefixStatement
  | presence
  | range
  | reference
  | refine
  | requireInstance
  | revision
  | revisionDate
  | rpc
  | status
  | submodule
  | type
  | typedef
  | unique
  | units
  | uses
  | value
  | when
  | yangVersion
  | yinElement
  deriving DecidableEq, Repr

namespace Keyword

/-- Every keyword, in the order of their texts. -/
def all : List Keyword :=
  [.action, .anydata, .anyxml, .argument, .augment, .base, .belongsTo, .bit, .case,
    .choice, .config, .contact, .container, .default, .description, .deviate, .deviation,
    .enum, .errorAppTag, .errorMessage, .extension, .feature, .fractionDigits, .grouping,
    .identity, .ifFeature, .importStatement, .includeStatement, .input, .key, .leaf,
    .leafList, .length, .list, .mandatory, .maxElements, .minElements, .modifier, .module,
    .must, .namespaceStatement, .notification, .orderedBy, .organization, .output, .path,
    .pattern, .position, .prefixStatement, .presence, .range, .reference, .refine,
    .requireInstance, .revision, .revisionDate, .rpc, .status, .submodule, .type, .typedef,
    .unique, .units, .uses, .value, .when, .yangVersion, .yinElement]

/-- The keyword as it is written in a document. -/
def text : Keyword → String
  | .action => "action"
  | .anydata => "anydata"
  | .anyxml => "anyxml"
  | .argument => "argument"
  | .augment => "augment"
  | .base => "base"
  | .belongsTo => "belongs-to"
  | .bit => "bit"
  | .case => "case"
  | .choice => "choice"
  | .config => "config"
  | .contact => "contact"
  | .container => "container"
  | .default => "default"
  | .description => "description"
  | .deviate => "deviate"
  | .deviation => "deviation"
  | .enum => "enum"
  | .errorAppTag => "error-app-tag"
  | .errorMessage => "error-message"
  | .extension => "extension"
  | .feature => "feature"
  | .fractionDigits => "fraction-digits"
  | .grouping => "grouping"
  | .identity => "identity"
  | .ifFeature => "if-feature"
  | .importStatement => "import"
  | .includeStatement => "include"
  | .input => "input"
  | .key => "key"
  | .leaf => "leaf"
  | .leafList => "leaf-list"
  | .length => "length"
  | .list => "list"
  | .mandatory => "mandatory"
  | .maxElements => "max-elements"
  | .minElements => "min-elements"
  | .modifier => "modifier"
  | .module => "module"
  | .must => "must"
  | .namespaceStatement => "namespace"
  | .notification => "notification"
  | .orderedBy => "ordered-by"
  | .organization => "organization"
  | .output => "output"
  | .path => "path"
  | .pattern => "pattern"
  | .position => "position"
  | .prefixStatement => "prefix"
  | .presence => "presence"
  | .range => "range"
  | .reference => "reference"
  | .refine => "refine"
  | .requireInstance => "require-instance"
  | .revision => "revision"
  | .revisionDate => "revision-date"
  | .rpc => "rpc"
  | .status => "status"
  | .submodule => "submodule"
  | .type => "type"
  | .typedef => "typedef"
  | .unique => "unique"
  | .units => "units"
  | .uses => "uses"
  | .value => "value"
  | .when => "when"
  | .yangVersion => "yang-version"
  | .yinElement => "yin-element"

/-- What the argument of the statement has to look like. -/
def argumentRule : Keyword → ArgumentRule
  | .action => .identifier
  | .anydata => .identifier
  | .anyxml => .identifier
  | .argument => .identifier
  | .augment => .required
  | .base => .reference
  | .belongsTo => .identifier
  | .bit => .identifier
  | .case => .identifier
  | .choice => .identifier
  | .config => .boolean
  | .contact => .documentation
  | .container => .identifier
  | .default => .present
  | .description => .documentation
  | .deviate => .oneOf ["not-supported", "add", "replace", "delete"]
  | .deviation => .required
  | .enum => .required
  | .errorAppTag => .required
  | .errorMessage => .documentation
  | .extension => .identifier
  | .feature => .identifier
  | .fractionDigits => .integer 1 18
  | .grouping => .identifier
  | .identity => .identifier
  | .ifFeature => .ifFeature
  | .importStatement => .identifier
  | .includeStatement => .identifier
  | .input => .absent
  | .key => .required
  | .leaf => .identifier
  | .leafList => .identifier
  | .length => .required
  | .list => .identifier
  | .mandatory => .boolean
  | .maxElements => .maxElements
  | .minElements => .integer 0 (Int.pow 2 32 - 1)
  | .modifier => .oneOf ["invert-match"]
  | .module => .identifier
  | .must => .required
  | .namespaceStatement => .required
  | .notification => .identifier
  | .orderedBy => .oneOf ["system", "user"]
  | .organization => .documentation
  | .output => .absent
  | .path => .required
  | .pattern => .present
  | .position => .integer 0 (Int.pow 2 32 - 1)
  | .prefixStatement => .identifier
  | .presence => .required
  | .range => .required
  | .reference => .documentation
  | .refine => .required
  | .requireInstance => .boolean
  | .revision => .date
  | .revisionDate => .date
  | .rpc => .identifier
  | .status => .status
  | .submodule => .identifier
  | .type => .reference
  | .typedef => .identifier
  | .unique => .required
  | .units => .required
  | .uses => .reference
  | .value => .integer (-Int.pow 2 31) (Int.pow 2 31 - 1)
  | .when => .required
  | .yangVersion => .oneOf ["1", "1.1"]
  | .yinElement => .boolean

/-- The keyword with a given text. -/
def ofText? (s : String) : Option Keyword :=
  all.find? fun k => k.text == s

/-- Whether a text is a keyword of the core language. -/
def isKeyword (s : String) : Bool :=
  (ofText? s).isSome

/-- A keyword is read back from its text. -/
@[simp]
theorem ofText?_text (k : Keyword) : ofText? k.text = some k := by
  cases k <;> rfl

/-- Different keywords have different texts. -/
theorem text_injective {k l : Keyword} (h : k.text = l.text) : k = l := by
  have := congrArg ofText? h
  simpa using this

/-- A text stands for the keyword that has it. -/
theorem ofText?_eq_some_iff {s : String} {k : Keyword} : ofText? s = some k ↔ k.text = s := by
  constructor
  · intro h
    simpa using List.find?_some h
  · rintro rfl
    exact ofText?_text k

/-! ### Marks -/

/-- Statements whose contents are never configuration. -/
def forcesConfigFalse : Keyword → Bool
  | .action | .rpc | .notification => true
  | _ => false

/-- Statements whose position among siblings of one key has a meaning. -/
def orderMatters : Keyword → Bool
  | .default | .type => true
  | _ => false

/-- Statements that define a node of the schema tree. -/
def definesSchemaNode : Keyword → Bool
  | .action | .anydata | .anyxml | .case | .choice | .container | .input | .leaf | .leafList
  | .list | .notification | .output | .rpc => true
  | _ => false

/-- Statements that may stand at the top of a document. -/
def isModelRoot : Keyword → Bool
  | .module | .submodule => true
  | _ => false

/-- Whether the statement takes an argument. -/
def takesArgument (k : Keyword) : Bool :=
  k.argumentRule != .absent

end Keyword

end StatementForest

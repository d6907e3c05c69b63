import StatementForest.Finding.Kind

/-!
# Command lines

A command line is a list of words.  Options may stand anywhere behind the command
they belong to, and those that hold for every command also in front of it.

Main results:

- `Options.takeApart_eq`, `Options.parse_eq`: a command line is read to its end, whatever the fuel
  is that exceeds its letters.

Current gaps:

- A command line that is not understood is refused as a whole, without a reason.  Words for logging
  and for the number of threads are read and have no effect.
-/

namespace StatementForest

/-- Which features a build supports, as far as the command line says. -/
structure FeatureOptions where
  supported : Option (List String) := none
  prune : Bool := false
  deriving DecidableEq, Repr

/-- How a report is written. -/
inductive ReportFormat where
  | human
  | json
  deriving DecidableEq, Repr

/-- How a configuration file is written. -/
inductive ConfigurationFormat where
  | json
  | toml
  | yaml
  deriving DecidableEq, Repr

/-- What a command line asks for. -/
inductive Command where
  /-- Build documents and report the findings. -/
  | check (paths : List String) (format : ReportFormat) (threshold : Severity)
      (features : FeatureOptions) (stopAt : Option Severity)
  /-- Build documents and show their trees. -/
  | tree (paths : List String) (features : FeatureOptions) (module : Option String)
  | initConfiguration (format : ConfigurationFormat) (force : Bool)
  | showConfiguration
  | version
  /-- The version with the name of the program. -/
  | programVersion
  | help
  deriving DecidableEq, Repr

/-- The paths of the documents that a command works on. -/
def Command.paths : Command → List String
  | .check paths .. | .tree paths .. => paths
  | _ => []

/-- A command line that was understood. -/
structure Options where
  command : Command
  configuration : Option String := none
  coloured : Bool := true
  deriving DecidableEq, Repr

namespace Options

/-! ### Words -/

/-- One word of a command line. -/
inductive Word where
  /-- A long option, with the value written behind an equals sign. -/
  | long (name : String) (value : Option String)
  /-- A short option, with the rest of the word. -/
  | short (name : Char) (rest : String)
  | plain (text : String)
  deriving DecidableEq, Repr

/-- The texts before and after an equals sign. -/
def splitEquals (cs : List Char) : String × Option String :=
  match cs.span (· ≠ '=') with
  | (name, []) => (String.ofList name, none)
  | (name, _ :: value) => (String.ofList name, some (String.ofList value))

/-- Classify a word. -/
def Word.ofString (s : String) : Word :=
  match s.toList with
  | '-' :: '-' :: c :: cs =>
    let (name, value) := splitEquals (c :: cs)
    .long name value
  | '-' :: c :: cs => if c = '-' then .plain s else .short c (String.ofList cs)
  | _ => .plain s

/-- The value attached to a short option, behind an equals sign or not. -/
def attached? (rest : String) : Option String :=
  match rest.toList with
  | [] => none
  | '=' :: value => some (String.ofList value)
  | _ => some rest

/-- The long name of a short option. -/
def longName? : Char → Option String
  | 'c' => some "config"
  | 'v' => some "verbose"
  | 'j' => some "threads"
  | 'f' => some "format"
  | 'm' => some "module"
  | 'V' => some "version"
  | 'h' => some "help"
  | _ => none

/-- Whether an option is followed by a value. -/
def takesValue (name : String) : Bool :=
  ["config", "threads", "format", "min-severity", "supported-features", "fail-fast",
    "module"].contains name

/-- What the words of a command line say. -/
structure Parts where
  /-- The options with their values, in order. -/
  options : List (String × String) := []
  plain : List String := []

/-- Whether an option in front of all commands asks for the version.  Then nothing
behind it counts. -/
def endsReading (p : Parts) (name : String) : Bool := name = "version" && p.plain.isEmpty

/-- Take words apart; `none` when an option is unknown or lacks its value. -/
def takeApart (p : Parts) : (fuel : Nat) → List String → Option Parts
  | 0, _ => none
  | _ + 1, [] => some p
  | fuel + 1, word :: words =>
    let option (name : String) (value : Option String) : Option Parts :=
      if takesValue name then
        match value, words with
        | some value, _ =>
          takeApart { p with options := p.options ++ [(name, value)] } fuel words
        | none, value :: words =>
          takeApart { p with options := p.options ++ [(name, value)] } fuel words
        | none, [] => none
      else if value.isSome then none
      else if endsReading p name then some { p with options := p.options ++ [(name, "")] }
      else takeApart { p with options := p.options ++ [(name, "")] } fuel words
    if word = "--" then some { p with plain := p.plain ++ words }
    else
      match Word.ofString word with
      | .plain text => takeApart { p with plain := p.plain ++ [text] } fuel words
      | .long name value => option name value
      | .short c rest =>
        match longName? c with
        | none => none
        | some name =>
          if takesValue name then option name (attached? rest)
          else if rest.isEmpty || endsReading p name then option name none
          else
            takeApart { p with options := p.options ++ [(name, "")] } fuel
              (("-" ++ rest) :: words)

/-! ### Commands -/

namespace Parts

/-- The last value of an option. -/
def value? (p : Parts) (name : String) : Option String :=
  (p.options.reverse.find? (·.1 == name)).map (·.2)

/-- Whether an option is given. -/
def has (p : Parts) (name : String) : Bool := p.options.any (·.1 == name)

/-- Whether every option has one of the names, or holds for all commands. -/
def onlyHas (p : Parts) (names : List String) : Bool :=
  p.options.all fun o => (["config", "verbose", "no-color", "threads"] ++ names).contains o.1

/-- The value of an option among some words, with a default. -/
def choice? {α : Type} (p : Parts) (name : String) (words : List (String × α)) (fallback : α) :
    Option α :=
  match p.value? name with
  | none => some fallback
  | some word => words.lookup word

/-- Cut a text at every comma. -/
def splitCommas : List Char → List (List Char)
  | [] => [[]]
  | c :: cs =>
    if c = ',' then [] :: splitCommas cs
    else
      match splitCommas cs with
      | [] => [[c]]
      | piece :: pieces => (c :: piece) :: pieces

/-- The features that the command line names. -/
def features (p : Parts) : FeatureOptions :=
  let lists := p.options.filter (·.1 == "supported-features")
  { supported :=
      if lists.isEmpty then none
      else some (lists.flatMap fun l => (splitCommas l.2.toList).map String.ofList)
    prune := p.has "prune" }

/-- The paths to work on; without any it is the directory of the command. -/
def pathsOf (paths : List String) : List String := if paths.isEmpty then ["."] else paths

/-- The severities by their words. -/
def severities : List (String × Severity) := Severity.all.map fun s => (s.text, s)

/-- The command that the parts of a command line ask for. -/
def command? (p : Parts) : Option Command := do
  match p.plain with
  | [] =>
    if p.has "version" then return .programVersion
    else if p.onlyHas ["help"] then return .help
    else none
  | "check" :: paths | "lint" :: paths =>
    if !p.onlyHas ["format", "min-severity", "supported-features", "prune", "fail-fast"] then
      none
    let format ← p.choice? "format" [("human", .human), ("json", .json)] ReportFormat.human
    let threshold ← p.choice? "min-severity" severities .warning
    let stopAt ←
      p.choice? "fail-fast" (severities.map fun (word, s) => (word, some s)) none
    return .check (pathsOf paths) format threshold p.features stopAt
  | "tree" :: paths =>
    if !p.onlyHas ["supported-features", "prune", "module"] then none
    return .tree (pathsOf paths) p.features (p.value? "module")
  | ["config", "init"] =>
    if !p.onlyHas ["format", "force"] then none
    let format ← p.choice? "format" [("json", .json), ("toml", .toml), ("yaml", .yaml)]
      ConfigurationFormat.json
    return .initConfiguration format (p.has "force")
  | ["config", "show"] => if p.onlyHas [] then return .showConfiguration else none
  | ["version"] | ["ver"] => if p.onlyHas [] then return .version else none
  | _ => none

end Parts

/-- Understand a command line. -/
def parse (words : List String) : Option Options := do
  let length := words.foldl (fun total word => total + word.length) 0
  let p ← takeApart {} (length + words.length + 1) words
  return {
    command := ← p.command?
    configuration := p.value? "config"
    coloured := !p.has "no-color" }

/-! ### Fuel -/

/-- The letters of a command line, and one more for each word. -/
def weight : List String → Nat
  | [] => 0
  | word :: words => word.length + 1 + weight words

/-- A short option is two letters longer than what follows it. -/
theorem Word.length_of_short {word rest : String} {c : Char}
    (h : Word.ofString word = .short c rest) : word.length = rest.length + 2 := by
  unfold ofString at h
  split at h
  · cases h
  · next d cs hword =>
    split at h
    · cases h
    · cases h
      rw [← String.length_toList, hword, ← String.length_toList, String.toList_ofList]
      rfl
  · cases h

/-- Words are taken apart in the same way with any fuel that exceeds their weight, by induction on
the fuel. -/
theorem takeApart_eq {fuel fuel' : Nat} {words : List String} (h : weight words < fuel)
    (h' : weight words < fuel') (p : Parts) :
    takeApart p fuel words = takeApart p fuel' words := by
  induction fuel generalizing fuel' words p with
  | zero => exact absurd h (Nat.not_lt_zero _)
  | succ fuel ih =>
    obtain _ | fuel' := fuel'
    · exact absurd h' (Nat.not_lt_zero _)
    rcases words with _ | ⟨word, words⟩
    · rfl
    have hweight : weight (word :: words) = word.length + 1 + weight words := rfl
    have htail : ∀ p, takeApart p fuel words = takeApart p fuel' words :=
      ih (by omega) (by omega)
    have hvalue : ∀ value rest, words = value :: rest →
        ∀ p, takeApart p fuel rest = takeApart p fuel' rest := by
      rintro value rest rfl
      have hrest : weight (value :: rest) = value.length + 1 + weight rest := rfl
      exact ih (by omega) (by omega)
    have hshort : ∀ c rest, Word.ofString word = .short c rest →
        ∀ p, takeApart p fuel (("-" ++ rest) :: words) =
          takeApart p fuel' (("-" ++ rest) :: words) := by
      intro c rest hword
      have hlength := Word.length_of_short hword
      have hrest : weight (("-" ++ rest) :: words) = rest.length + 2 + weight words := by
        rw [weight, String.length_append]
        have hdash : "-".length = 1 := rfl
        omega
      exact ih (by omega) (by omega)
    rw [takeApart, takeApart]
    simp only [htail]
    split
    · rfl
    split
    · rfl
    · next name value _ =>
      rcases value with _ | value
      · rcases words with _ | ⟨next, rest⟩
        · rfl
        · simp only [hvalue next rest rfl]
      · rfl
    · next c rest hword =>
      simp only [hshort c rest hword]
      rcases longName? c with _ | name
      · rfl
      rcases words with _ | ⟨next, others⟩
      · rcases attached? rest with _ | value <;> rfl
      · simp only [hvalue next others rfl]
        rcases attached? rest with _ | value
        · simp only [hvalue next others rfl]
        · rfl

/-- The fuel of a reading, from the letters of the words. -/
theorem foldl_length (words : List String) (total : Nat) :
    words.foldl (fun total word => total + word.length) total + words.length =
      total + weight words := by
  induction words generalizing total with
  | nil => rfl
  | cons word words ih =>
    rw [List.foldl_cons, List.length_cons, ← Nat.add_assoc, ih, weight]
    omega

/-- The fuel of a reading is never used up, so the outcome depends on the words alone. -/
theorem parse_eq {words : List String} {fuel : Nat} (h : weight words < fuel) :
    parse words = do
      let p ← takeApart {} fuel words
      return {
        command := ← p.command?
        configuration := p.value? "config"
        coloured := !p.has "no-color" } := by
  have hfuel := foldl_length words 0
  rw [Nat.zero_add] at hfuel
  rw [parse, hfuel, takeApart_eq (Nat.lt_succ_self _) h]

end Options

end StatementForest

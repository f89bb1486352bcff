import Mathlib.Data.List.Basic
import Mathlib.Data.List.Nodup
import Mathlib.Tactic.Common

/-! Options from a command line and from a file, merged into one map. What the merging code
may rely on is a structure of laws; the code is told about the parser by them only. -/
namespace ProgramOptions

/-- `many` tells whether the values of an option add up in a vector. -/
structure OptionDescription where
  name : String
  defaultValue : Option String := none
  many : Bool := false
deriving DecidableEq, Repr

/-- One option as it was read. A positional one has its name from where it stands. -/
structure BasicOption where
  stringKey : String := ""
  value : List String := []
  unregistered : Bool := false
  positional : Bool := false
  originalTokens : List String := []
deriving DecidableEq, Repr

structure ParsedOptions where
  options : List BasicOption
  description : List OptionDescription
deriving DecidableEq, Repr

structure VariableValue where
  value : List String
  defaulted : Bool
deriving DecidableEq, Repr

abbrev VariablesMap := String → Option VariableValue

/-- The names of the first positions, and the name of all further ones. -/
structure PositionalOptions where
  names : List String := []
  trailing : String := ""

/-- No count stands for any number. -/
def PositionalOptions.add (pos : PositionalOptions) (name : String) :
    Option Nat → PositionalOptions
  | some maxCount => { pos with names := pos.names ++ List.replicate maxCount name }
  | none => { pos with trailing := name }

def PositionalOptions.nameForPosition (pos : PositionalOptions) (position : Nat) : String :=
  pos.names.getD position pos.trailing

/-- The positional options get their names in order, from a position on. -/
def PositionalOptions.assign (pos : PositionalOptions) : Nat → List BasicOption → List BasicOption
  | _, [] => []
  | position, option :: options =>
    if option.positional then
      { option with stringKey := pos.nameForPosition position } ::
        pos.assign (position + 1) options
    else option :: pos.assign position options

/-- The options that were read under a name of the description. -/
def ParsedOptions.occurrences (parsed : ParsedOptions) (name : String) : List BasicOption :=
  parsed.options.filter fun option => option.stringKey = name ∧ ¬ option.unregistered

/-- The values given under a name of the description. -/
def ParsedOptions.given (parsed : ParsedOptions) (name : String) : List String :=
  (parsed.occurrences name).flatMap (·.value)

/-- Everything given is described, and what may be given once is, with one value. -/
def ParsedOptions.Storable (parsed : ParsedOptions) : Prop :=
  (∀ option ∈ parsed.options, option.unregistered = false → option.stringKey ≠ "" →
    ∃ d ∈ parsed.description, d.name = option.stringKey) ∧
  ∀ d ∈ parsed.description, d.many = false → (parsed.occurrences d.name).length ≤ 1 ∧
    ∀ option ∈ parsed.occurrences d.name, option.value.length = 1

instance (parsed : ParsedOptions) : Decidable parsed.Storable := inferInstanceAs (Decidable (_ ∧ _))

def ParsedOptions.default (parsed : ParsedOptions) (name : String) : Option VariableValue :=
  ((parsed.description.find? (·.name = name)).bind (·.defaultValue)).map (⟨[·], true⟩)

/-- The value given under a name, or the one it has by default. -/
def ParsedOptions.valueOr (parsed : ParsedOptions) (name default : String) : String :=
  (parsed.given name).head?.getD default

/-- What a token looks like. -/
inductive Shape where
  | word
  /-- All tokens after it are words. -/
  | endMarker
  /-- An option, and the value in the same token if there is one. -/
  | option (name : String) (adjacent : Option String)
  /-- A name with `=` and nothing after it. -/
  | emptyAdjacent
deriving DecidableEq, Repr

def shape (token : String) : Shape :=
  match token.toList with
  | ['-', '-'] => .endMarker
  | '-' :: '-' :: name =>
    match name.dropWhile (· ≠ '=') with
    | [] => .option (String.ofList name) none
    | ['='] => .emptyAdjacent
    | _ :: adjacent =>
      .option (String.ofList (name.takeWhile (· ≠ '='))) (some (String.ofList adjacent))
  | '-' :: letter :: adjacent =>
    .option (String.ofList ['-', letter])
      (if adjacent.isEmpty then none else some (String.ofList adjacent))
  | _ => .word

/-- A name finds what has this name, or else what alone has a name that begins so. There is no
answer when several do. -/
def find (description : List OptionDescription) (name : String) :
    Option (Option OptionDescription) :=
  match description.filter (·.name = name),
      description.filter fun d => name.toList.isPrefixOf d.name.toList with
  | [d], _ => some (some d)
  | _ :: _ :: _, _ => none
  | [], [] => some none
  | [], [d] => some (some d)
  | [], _ => none

/-- A token that is not taken for the value of the option before it. -/
def refusedValue (description : List OptionDescription) (token : String) : Bool :=
  match shape token with
  | .emptyAdjacent => true
  | .option _ _ => find description token ≠ some none
  | _ => false

def positionalOption (token : String) (value : List String) : BasicOption :=
  { value, positional := true, originalTokens := [token] }

/-- What a token comes to by its look: options, or one that still needs its value. -/
inductive Reading where
  | refused
  | option (option : BasicOption)
  | needsValue (name : String)
  | endMarker

def readToken (description : List OptionDescription) (token : String) : Reading :=
  match shape token with
  | .word => .option (positionalOption token [token])
  | .endMarker => .endMarker
  | .emptyAdjacent => .refused
  | .option name adjacent =>
    if name = "" then .option (positionalOption token adjacent.toList)
    else
      match find description name, adjacent with
      | none, _ => .refused
      | some none, adjacent => .option
          { stringKey := name
            value := adjacent.toList
            unregistered := true
            originalTokens := [token] }
      | some (some d), some value => .option
          { stringKey := d.name, value := [value], originalTokens := [token] }
      | some (some d), none => .needsValue d.name

/-- How a command line is read when each option has one value and those that are not described
are let through, with the option before that has yet to get its value. It may be refused. -/
def readTokens (description : List OptionDescription) :
    Option (String × String) → List String → Option (List BasicOption)
  | none, [] => some []
  | some _, [] => none
  | some (name, token), value :: tokens =>
    if refusedValue description value then none
    else
      (readTokens description none tokens).map
        ({ stringKey := name, value := [value], originalTokens := [token, value] } :: ·)
  | none, token :: tokens =>
    match readToken description token with
    | .refused => none
    | .option option => (readTokens description none tokens).map (option :: ·)
    | .needsValue name => readTokens description (some (name, token)) tokens
    | .endMarker => some (tokens.map fun token => positionalOption token [token])

/-- The library's parser, its files and its map, with exceptions in `ε`. -/
structure Implementation (ε : Type) where
  Parser : Type
  commandLineParser : List String → Parser
  options : Parser → List OptionDescription → Parser
  positional : Parser → PositionalOptions → Parser
  allowUnregistered : Parser → Parser
  run : Parser → Except ε ParsedOptions
  parseConfigFile : String → List OptionDescription → Except ε ParsedOptions
  store : ParsedOptions → VariablesMap → Except ε VariablesMap
  /-- The tokens of the options that are unregistered or positional. -/
  collectUnrecognized : List BasicOption → List String
  describe : List OptionDescription → String
  badAnyCast : ε

variable {ε : Type} {po : Implementation ε} {description : List OptionDescription}
  {pos : PositionalOptions} {token : String} {args : List String} {parsed : ParsedOptions}
  {vm vm' : VariablesMap} {name : String} {d : OptionDescription} {option : BasicOption}
  {options : List BasicOption}

/-- The value of an option that has one string. -/
def Implementation.asString (po : Implementation ε) : Option VariableValue → Except ε String
  | some ⟨[value], _⟩ => .ok value
  | _ => .error po.badAnyCast

/-- Names that stand for themselves only. -/
def PlainNames (description : List OptionDescription) : Prop :=
  (description.map (·.name)).Nodup ∧ ∀ d ∈ description, d.name ≠ "" ∧ '*' ∉ d.name.toList

instance : Decidable (PlainNames description) := inferInstanceAs (Decidable (_ ∧ _))

/-- What the code relies on. -/
structure Implementation.Documented (po : Implementation ε) : Prop where
  /-- The description is set, not added to. -/
  options_options : ∀ parser d d', po.options (po.options parser d) d' = po.options parser d'
  /-- Positional options are named in their order. -/
  run : ∀ program args d pos options, PlainNames d → pos.trailing ≠ "" →
    readTokens d none args = some options →
    po.run (po.allowUnregistered (po.positional
      (po.options (po.commandLineParser (program :: args)) d) pos)) =
      .ok ⟨pos.assign 0 options, d⟩
  run_refuses : ∀ program args d pos, PlainNames d → readTokens d none args = none →
    ∃ e, po.run (po.allowUnregistered (po.positional
      (po.options (po.commandLineParser (program :: args)) d) pos)) = .error e
  config : ∀ file d parsed, po.parseConfigFile file d = .ok parsed → parsed.description = d
  store : ∀ parsed vm, PlainNames parsed.description → parsed.Storable →
    ∃ vm', po.store parsed vm = .ok vm'
  store_refuses : ∀ parsed, PlainNames parsed.description → ¬ parsed.Storable →
    ∃ e, po.store parsed (fun _ => none) = .error e
  /-- A value stored earlier that is no default is never overwritten. -/
  store_keeps : ∀ parsed vm vm' name v, po.store parsed vm = .ok vm' → vm name = some v →
    v.defaulted = false ∨ parsed.occurrences name = [] → vm' name = some v
  store_sets : ∀ parsed vm vm' name, po.store parsed vm = .ok vm' →
    parsed.occurrences name ≠ [] → (∀ v ∈ vm name, v.defaulted = true) →
    vm' name = some ⟨parsed.given name, false⟩
  store_defaults : ∀ parsed vm vm' name, po.store parsed vm = .ok vm' →
    parsed.occurrences name = [] → vm name = none → vm' name = parsed.default name

theorem occurrences_eq_nil (hs : parsed.Storable) (hname : name ≠ "")
    (hd : ∀ d ∈ parsed.description, d.name ≠ name) : parsed.occurrences name = [] := by
  rw [ParsedOptions.occurrences, List.filter_eq_nil_iff]
  intro option ho hkey
  simp only [decide_eq_true_eq, Bool.not_eq_true] at hkey
  obtain ⟨d, hmem, hdn⟩ := hs.1 option ho hkey.2 (hkey.1 ▸ hname)
  exact hd d hmem (hdn.trans hkey.1)

theorem find_described (hp : PlainNames description) (hd : d ∈ description) :
    description.find? (·.name = d.name) = some d := by
  obtain ⟨found, hfind⟩ : ∃ found, description.find? (·.name = d.name) = some found :=
    Option.isSome_iff_exists.mp (List.find?_isSome.mpr ⟨d, hd, by simp⟩)
  have hname : found.name = d.name := by simpa using List.find?_some hfind
  rw [hfind, List.inj_on_of_nodup_map hp.1 (List.mem_of_find?_eq_some hfind) hd hname]

/-- An option that may be given once has, when it is stored first, the value given or the one
it has by default. -/
theorem value_stored (hpo : po.Documented) (hp : PlainNames parsed.description)
    (hs : parsed.Storable) (hd : d ∈ parsed.description) (hm : d.many = false) {default : String}
    (hdefault : d.defaultValue = some default) (hvm : vm d.name = none)
    (h : po.store parsed vm = .ok vm') :
    vm' d.name = some ⟨[parsed.valueOr d.name default],
      decide (parsed.occurrences d.name = [])⟩ := by
  obtain ⟨hone, hvalue⟩ := hs.2 d hd hm
  cases ho : parsed.occurrences d.name with
  | nil =>
    have hfind : parsed.description.find? (·.name = d.name) = some d := find_described hp hd
    rw [hpo.store_defaults _ _ _ _ h ho hvm, ParsedOptions.default, hfind, ParsedOptions.valueOr,
      ParsedOptions.given, ho]
    simp [hdefault]
  | cons option options =>
    have hnil : options = [] := by simpa [ho] using hone
    obtain ⟨value, hv⟩ := List.length_eq_one_iff.mp (hvalue option (by simp [ho]))
    rw [hpo.store_sets _ _ _ _ h (by simp [ho]) (by simp [hvm])]
    simp [ParsedOptions.valueOr, ParsedOptions.given, ho, hnil, hv]

section Plain
variable (error : ε) (files : String → Option (List (String × String)))

/-- The fields of a parser that are set one after another. -/
structure PlainParser where
  args : List String
  description : List OptionDescription := []
  positional : PositionalOptions := {}
  unregistered : Bool := false

def ParsedOptions.stored (parsed : ParsedOptions) (vm : VariablesMap) : VariablesMap := fun name =>
  match vm name, parsed.occurrences name with
  | some ⟨value, false⟩, _ => some ⟨value, false⟩
  | some v, [] => some v
  | none, [] => parsed.default name
  | _, _ => some ⟨parsed.given name, false⟩

/-- An implementation for files that are lists of names with values. -/
def plain : Implementation ε where
  Parser := PlainParser
  commandLineParser argv := { args := argv.tail }
  options parser description := { parser with description }
  positional parser positional := { parser with positional }
  allowUnregistered parser := { parser with unregistered := true }
  run parser :=
    match readTokens parser.description none parser.args with
    | some options => .ok ⟨parser.positional.assign 0 options, parser.description⟩
    | none => .error error
  parseConfigFile file description :=
    match files file with
    | some lines =>
      if ∀ line ∈ lines, ∃ d ∈ description, d.name = line.1 then
        .ok ⟨lines.map fun line => { stringKey := line.1, value := [line.2] }, description⟩
      else .error error
    | none => .error error
  store parsed vm := if parsed.Storable then .ok (parsed.stored vm) else .error error
  collectUnrecognized options :=
    (options.filter fun option => option.unregistered || option.positional).flatMap
      (·.originalTokens)
  describe _ := ""
  badAnyCast := error

variable {error files}

theorem stored_of_store (h : (plain error files).store parsed vm = .ok vm') :
    vm' = parsed.stored vm := by
  by_cases hs : parsed.Storable
  · simp only [plain, if_pos hs, Except.ok.injEq] at h
    exact h.symm
  · simp only [plain, if_neg hs, reduceCtorEq] at h

theorem plain_documented : (plain error files).Documented where
  options_options _ _ _ := rfl
  run program args d pos options _ _ h := by simp [plain, h]
  run_refuses program args d pos _ h := ⟨error, by simp [plain, h]⟩
  config file d parsed h := by
    cases hf : files file with
    | none => simp [plain, hf] at h
    | some lines =>
      by_cases hd : ∀ line ∈ lines, ∃ d' ∈ d, d'.name = line.1
      · simp only [plain, hf, if_pos hd, Except.ok.injEq] at h
        rw [← h]
      · simp only [plain, hf, if_neg hd, reduceCtorEq] at h
  store parsed vm _ h := ⟨parsed.stored vm, if_pos h⟩
  store_refuses parsed _ h := ⟨error, if_neg h⟩
  store_keeps parsed vm vm' name v h hv hkeep := by
    rw [stored_of_store h, ParsedOptions.stored, hv]
    obtain ⟨value, defaulted⟩ := v
    cases defaulted with
    | false => rfl
    | true => simp [hkeep.resolve_left]
  store_sets parsed vm vm' name h hg hv := by
    rw [stored_of_store h, ParsedOptions.stored]
    cases hn : vm name with
    | none => cases ho : parsed.occurrences name <;> simp_all
    | some v =>
      obtain ⟨value, defaulted⟩ := v
      cases ho : parsed.occurrences name <;> simp_all
  store_defaults parsed vm vm' name h hg hv := by
    rw [stored_of_store h, ParsedOptions.stored, hg, hv]

end Plain

end ProgramOptions

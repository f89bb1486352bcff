import Mathlib.Data.List.Nodup
import LibCoreCmd.ProgramOptions
import LibCoreCmd.Main

/-! `parseParameters`: the parameters of the program from its command line, a configuration
file and the defaults. -/
namespace LibCoreCmd
open Program Commands ProgramOptions

def genericOptions : List ProgramOptions.OptionDescription :=
  [{ name := "data-folder", defaultValue := some "." },
    { name := "db-name", defaultValue := some "cmd-wallet" },
    { name := "db-password", defaultValue := some "" },
    { name := "explorer-endpoint"
      defaultValue := some "https://explorers.api.live.ledger.com" }]

def globalOptions : List ProgramOptions.OptionDescription :=
  [{ name := "config-file", defaultValue := some "lib-core-cmd.config" },
    { name := "command", defaultValue := some "help" },
    { name := "subargs", many := true }]

def positionalOptions : PositionalOptions :=
  (PositionalOptions.add {} "command" (some 1)).add "subargs" none

def commandOf (command : String) : Option Command :=
  if command = "HELP" then some .help
  else if command = "ADD" then some .addAccount
  else if command = "LIST" then some .listAccounts
  else if command = "LIST-COINS" then some .listCurrencies
  else if command = "SYNC" then some .syncAccount
  else if command = "BALANCE" then some .getBalance
  else if command = "BUILD" then some .buildTransaction
  else none

/-- The second call of `options` is the one that counts. -/
def parseParameters (po : Implementation Exception) (pathExists : String → Bool)
    (argv : List String) : Action (ApplicationParameters × List String) := do
  let parsed ← ofExcept (po.run (po.allowUnregistered (po.positional
    (po.options (po.options (po.commandLineParser argv) genericOptions) globalOptions)
    positionalOptions)))
  let vm ← ofExcept (po.store parsed fun _ => none)
  let vm ←
    if (vm "config-file").isSome then do
      let file ← ofExcept (po.asString (vm "config-file"))
      let config ← ofExcept (po.parseConfigFile file genericOptions)
      ofExcept (po.store config vm)
    else pure vm
  let dataFolder ← ofExcept (po.asString (vm "data-folder"))
  if !pathExists dataFolder then
    .throw ⟨"Folder " ++ dataFolder ++
      " does not exist, specify correct path in `data-folder` option"⟩
  else do
    let dbName ← ofExcept (po.asString (vm "db-name"))
    let dbPassword ← ofExcept (po.asString (vm "db-password"))
    let explorerEndpoint ← ofExcept (po.asString (vm "explorer-endpoint"))
    let text ← ofExcept (po.asString (vm "command"))
    match commandOf (toUpperCopy text) with
    | some command => do
      if command = .help then print (po.describe globalOptions) else pure ()
      return ({ dataFolder, dbName, dbPassword, explorerEndpoint, command },
        po.collectUnrecognized parsed.options)
    | none => .throw ⟨"Unknown command " ++ toUpperCopy text⟩

/-- The options of `genericOptions`, by name. -/
inductive GenericOption where
  | dataFolder
  | dbName
  | dbPassword
  | explorerEndpoint
deriving DecidableEq, Repr

def GenericOption.name : GenericOption → String
  | .dataFolder => "data-folder"
  | .dbName => "db-name"
  | .dbPassword => "db-password"
  | .explorerEndpoint => "explorer-endpoint"

def GenericOption.default : GenericOption → String
  | .dataFolder => "."
  | .dbName => "cmd-wallet"
  | .dbPassword => ""
  | .explorerEndpoint => "https://explorers.api.live.ledger.com"

def ApplicationParameters.get (params : ApplicationParameters) : GenericOption → String
  | .dataFolder => params.dataFolder
  | .dbName => params.dbName
  | .dbPassword => params.dbPassword
  | .explorerEndpoint => params.explorerEndpoint

def GenericOption.all : List GenericOption := [.dataFolder, .dbName, .dbPassword, .explorerEndpoint]

/-- The token is an option of `genericOptions`, whatever follows the name. -/
def IsGeneric (token : String) : Prop :=
  ∃ option ∈ GenericOption.all,
    token.toList.takeWhile (· ≠ '=') = ("--" ++ option.name).toList

instance (token : String) : Decidable (IsGeneric token) :=
  inferInstanceAs (Decidable (∃ option ∈ GenericOption.all, _))

/-- An option with its value, in the same token or in the next one. -/
structure Given where
  option : GenericOption
  value : String
  adjacent : Bool := false
deriving DecidableEq

/-- A part of a command line: one of the options, or any other token. -/
inductive Piece where
  | given (given : Given)
  | other (token : String)
deriving DecidableEq

def Given.tokens (given : Given) : List String :=
  if given.adjacent then ["--" ++ given.option.name ++ "=" ++ given.value]
  else ["--" ++ given.option.name, given.value]

def Piece.tokens : Piece → List String
  | .given g => g.tokens
  | .other token => [token]

def Piece.given? : Piece → Option Given
  | .given g => some g
  | .other _ => none

/-- No part of an option of `genericOptions` stands alone. -/
def Piece.Whole : Piece → Prop
  | .given _ => True
  | .other token => ¬ IsGeneric token

instance : DecidablePred Piece.Whole
  | .given _ => isTrue trivial
  | .other token => inferInstanceAs (Decidable (¬ IsGeneric token))

/-- The token is a global option, and its value is the next token. -/
def needsValue (token : String) : Bool :=
  match readToken globalOptions token with
  | .needsValue _ => true
  | _ => false

/-- What stands before the end marker. A token that is the value of the one before is none. -/
def beforeEndMarker : Bool → List Piece → List Piece
  | _, [] => []
  | _, .given given :: pieces => .given given :: beforeEndMarker false pieces
  | isValue, .other token :: pieces =>
    if !isValue && token = "--" then []
    else .other token :: beforeEndMarker (!isValue && needsValue token) pieces

/-- A command line: a command, which may be typed as `--command=word`, among anything else. -/
structure Typed where
  before : List Piece
  word : String
  named : Bool := false
  after : List Piece
  /-- The last token may be an option without a value. -/
  unfinished : Option GenericOption := none

def Typed.pieces (line : Typed) : List Piece :=
  line.before ++ .other (if line.named then "--command=" ++ line.word else line.word) :: line.after

def Typed.args (line : Typed) : List String :=
  line.pieces.flatMap (·.tokens) ++ line.unfinished.toList.map fun option => "--" ++ option.name

/-- The options that are given, none of them after an end marker. -/
def Typed.given (line : Typed) : List Given :=
  (beforeEndMarker false line.pieces).filterMap (·.given?)

/-- The command is one of those there are, and no option is given twice. -/
structure CommandLine extends Typed where
  command : Command
  known : commandOf (toUpperCopy word) = some command
  unended : named = true → beforeEndMarker false before = before
  whole : ∀ piece ∈ beforeEndMarker false toTyped.pieces, piece.Whole
  distinct : (toTyped.given.map (·.option) ++ unfinished.toList).Nodup

/-- The value in the file if there is one, or else the default. -/
def configured (config : ParsedOptions) (option : GenericOption) : String :=
  config.valueOr option.name option.default

/-- The value on the command line if there is one, or else what is configured. -/
def CommandLine.expected (line : CommandLine) (config : ParsedOptions) (option : GenericOption) :
    String :=
  ((line.given.find? (·.option = option)).map (·.value)).getD (configured config option)

/-- The parameters are those that were asked for. -/
def AsAsked (line : CommandLine) (config : ParsedOptions)
    (result : Except Exception (ApplicationParameters × List String)) : Prop :=
  ∃ params rest, result = .ok (params, rest) ∧
    (∀ option, params.get option = line.expected config option) ∧ params.command = line.command

/-- How a command line is read when only the global options are known. -/
def readGlobal (args : List String) : Option ParsedOptions :=
  (readTokens globalOptions none args).map (⟨positionalOptions.assign 0 ·, globalOptions⟩)

/-- The file named on the command line, or the default one. -/
def configFileOf (args : List String) : String :=
  (readGlobal args).elim "lib-core-cmd.config" (·.valueOr "config-file" "lib-core-cmd.config")

/-- With only the global options known the line can be read, and what is read as the command
names this one. -/
def ReadsCommand (args : List String) (command : Command) : Prop :=
  ∃ parsed, readGlobal args = some parsed ∧ parsed.Storable ∧
    commandOf (toUpperCopy (parsed.valueOr "command" "help")) = some command

section Stores
variable {po : Implementation Exception} {line : CommandLine} {config parsed : ParsedOptions}
  {vm merged : VariablesMap} {args : List String} {command : Command} {program : String}
  {pathExists : String → Bool} {w : World}

theorem plainNames_generic : PlainNames genericOptions := by decide

theorem plainNames_global : PlainNames globalOptions := by decide

theorem asString_singleton {value : String} {defaulted : Bool} :
    po.asString (some ⟨[value], defaulted⟩) = .ok value := rfl

/-- The first call of `store` leaves the generic options open. -/
structure GlobalStored (parsed : ParsedOptions) (vm : VariablesMap) : Prop where
  command : ∃ defaulted, vm "command" = some ⟨[parsed.valueOr "command" "help"], defaulted⟩
  configFile : ∃ defaulted,
    vm "config-file" = some ⟨[parsed.valueOr "config-file" "lib-core-cmd.config"], defaulted⟩
  generic : ∀ option : GenericOption, vm option.name = none

theorem globalStored (hpo : po.Documented) (hd : parsed.description = globalOptions)
    (hs : parsed.Storable) (h : po.store parsed (fun _ => none) = .ok vm) :
    GlobalStored parsed vm := by
  have hp : PlainNames parsed.description := hd ▸ plainNames_global
  have hcommand := value_stored hpo hp hs (d := { name := "command", defaultValue := some "help" })
    (by simp [hd, globalOptions]) rfl rfl rfl h
  have hfile := value_stored hpo hp hs
    (d := { name := "config-file", defaultValue := some "lib-core-cmd.config" })
    (by simp [hd, globalOptions]) rfl rfl rfl h
  refine ⟨⟨_, hcommand⟩, ⟨_, hfile⟩, fun option => ?_⟩
  · have hnone : parsed.occurrences option.name = [] := by
      refine occurrences_eq_nil hs (by cases option <;> decide) ?_
      rw [hd]
      cases option <;> decide
    rw [hpo.store_defaults _ _ _ _ h hnone rfl, ParsedOptions.default, hd]
    cases option <;> rfl

/-- The second call fills them from the file, or with the defaults. -/
theorem generic_stored (hpo : po.Documented) (hvm : GlobalStored parsed vm)
    (hd : config.description = genericOptions) (hs : config.Storable)
    (h : po.store config vm = .ok merged) (option : GenericOption) :
    po.asString (merged option.name) = .ok (configured config option) := by
  have hp : PlainNames config.description := hd ▸ plainNames_generic
  have hmem : { name := option.name, defaultValue := some option.default } ∈
      config.description := by
    rw [hd]
    cases option <;> simp [genericOptions, GenericOption.name, GenericOption.default]
  have hvalue := value_stored hpo hp hs hmem rfl rfl (hvm.generic option) h
  rw [hvalue, asString_singleton]
  rfl

/-- The second call keeps the command, which no file can set. -/
theorem command_stored (hpo : po.Documented) (hvm : GlobalStored parsed vm)
    (hd : config.description = genericOptions) (hs : config.Storable)
    (h : po.store config vm = .ok merged) :
    po.asString (merged "command") = .ok (parsed.valueOr "command" "help") := by
  obtain ⟨defaulted, hcommand⟩ := hvm.command
  have hnone : config.occurrences "command" = [] := by
    refine occurrences_eq_nil hs (by decide) ?_
    rw [hd]
    decide
  rw [hpo.store_keeps _ _ _ _ _ h hcommand (Or.inr hnone), asString_singleton]

/-- A line that cannot be read, or repeats what may be given once, is refused. -/
theorem parseParameters_refuses (hpo : po.Documented)
    (h : ∀ parsed, readGlobal args = some parsed → ¬ parsed.Storable) :
    ∃ e, (parseParameters po pathExists (program :: args) w).1 = .error e := by
  simp only [parseParameters, hpo.options_options]
  cases hr : readTokens globalOptions none args with
  | none =>
    obtain ⟨e, he⟩ := hpo.run_refuses program args globalOptions positionalOptions
      plainNames_global hr
    exact ⟨e, by simp only [he, run_bind, run_ofExcept]⟩
  | some options =>
    have hrun := hpo.run program args globalOptions positionalOptions options plainNames_global
      (by decide) hr
    obtain ⟨e, he⟩ := hpo.store_refuses ⟨positionalOptions.assign 0 options, globalOptions⟩
      plainNames_global (h _ (by rw [readGlobal, hr, Option.map_some]))
    exact ⟨e, by simp only [hrun, he, run_bind, run_ofExcept]⟩

/-- What a run comes to: no option of the command line has a say in the parameters. -/
theorem parseParameters_eq (hpo : po.Documented) (hr : readGlobal args = some parsed)
    (hstore : parsed.Storable)
    (hc : po.parseConfigFile (parsed.valueOr "config-file" "lib-core-cmd.config") genericOptions =
      .ok config) (hs : config.Storable) :
    ∃ rest, (parseParameters po pathExists (program :: args) w).1 =
      if pathExists (configured config .dataFolder) then
        match commandOf (toUpperCopy (parsed.valueOr "command" "help")) with
        | some command => .ok (⟨configured config .dataFolder, configured config .dbName,
            configured config .dbPassword, configured config .explorerEndpoint, command⟩, rest)
        | none => .error ⟨"Unknown command " ++
            toUpperCopy (parsed.valueOr "command" "help")⟩
      else .error ⟨"Folder " ++ configured config .dataFolder ++
        " does not exist, specify correct path in `data-folder` option"⟩ := by
  obtain ⟨options, hread, rfl⟩ := Option.map_eq_some_iff.mp hr
  have hrun := hpo.run program args globalOptions positionalOptions options plainNames_global
    (by decide) hread
  have hd : config.description = genericOptions := hpo.config _ _ _ hc
  obtain ⟨vm, hvm⟩ := hpo.store _ (fun _ => none) plainNames_global hstore
  obtain ⟨merged, hmerged⟩ := hpo.store config vm (hd ▸ plainNames_generic) hs
  have hstored := globalStored hpo rfl hstore hvm
  have hopt := generic_stored hpo hstored hd hs hmerged
  have hcommand := command_stored hpo hstored hd hs hmerged
  obtain ⟨defaulted, hfile⟩ := hstored.configFile
  have hdata := hopt .dataFolder
  have hname := hopt .dbName
  have hpassword := hopt .dbPassword
  have hendpoint := hopt .explorerEndpoint
  simp only [GenericOption.name] at hdata hname hpassword hendpoint
  refine ⟨po.collectUnrecognized (positionalOptions.assign 0 options), ?_⟩
  simp only [parseParameters, hpo.options_options, hrun, run_bind, run_ofExcept, hvm, hfile,
    Option.isSome_some, if_true, asString_singleton, hc, hmerged, hdata]
  cases pathExists (configured config .dataFolder) with
  | false => rfl
  | true =>
    simp only [Bool.not_true, Bool.false_eq_true, if_false, if_true, run_bind, run_ofExcept,
      hname, hpassword, hendpoint, hcommand]
    cases commandOf (toUpperCopy _) with
    | none => rfl
    | some command => cases command <;> rfl

theorem CommandLine.given_distinct (line : CommandLine) : (line.given.map (·.option)).Nodup :=
  (List.nodup_append.mp line.distinct).1

/-- What is expected is what is configured, if every option says no more than that. -/
theorem expected_eq_configured :
    (∀ option, line.expected config option = configured config option) ↔
      ∀ given ∈ line.given, given.value = configured config given.option := by
  constructor
  · intro h given hg
    have hex : ∃ found, line.given.find? (·.option = given.option) = some found :=
      Option.isSome_iff_exists.mp (List.find?_isSome.mpr ⟨given, hg, by simp⟩)
    obtain ⟨found, hfind⟩ := hex
    have hopt : found.option = given.option := by simpa using List.find?_some hfind
    have heq : found = given :=
      List.inj_on_of_nodup_map line.given_distinct (List.mem_of_find?_eq_some hfind) hg hopt
    have hexp := h given.option
    rw [CommandLine.expected, hfind, heq] at hexp
    exact hexp
  · intro h option
    rw [CommandLine.expected]
    cases hfind : line.given.find? (·.option = option) with
    | none => rfl
    | some found =>
      have hopt : found.option = option := by simpa using List.find?_some hfind
      exact (h found (List.mem_of_find?_eq_some hfind)).trans (by rw [hopt])

/-- The parameters are as asked for exactly if the line, read without the generic options, has
the typed command, and each of these options says what holds without it. -/
theorem parseParameters_asAsked_iff (hpo : po.Documented)
    (hc : po.parseConfigFile (configFileOf line.args) genericOptions = .ok config)
    (hs : config.Storable) (hf : pathExists (line.expected config .dataFolder) = true) :
    AsAsked line config (parseParameters po pathExists (program :: line.args) w).1 ↔
      ReadsCommand line.args line.command ∧
      ∀ given ∈ line.given, given.value = configured config given.option := by
  rw [← expected_eq_configured]
  by_cases hread : ∃ parsed, readGlobal line.args = some parsed ∧ parsed.Storable
  · obtain ⟨parsed, hr, hstore⟩ := hread
    have hfile : configFileOf line.args =
        parsed.valueOr "config-file" "lib-core-cmd.config" := by rw [configFileOf, hr]; rfl
    rw [hfile] at hc
    obtain ⟨rest, heq⟩ := @parseParameters_eq po config parsed line.args program pathExists w hpo
      hr hstore hc hs
    rw [heq]
    constructor
    · rintro ⟨params, rest', hparams, hfields, hcommand⟩
      split at hparams
      · split at hparams
        · next command hc =>
          cases hparams
          refine ⟨⟨parsed, hr, hstore, hc.trans (congrArg some hcommand)⟩, fun option => ?_⟩
          rw [← hfields option]
          cases option <;> rfl
        · cases hparams
      · cases hparams
    · rintro ⟨⟨parsed', hr', -, hcommand⟩, hfields⟩
      obtain rfl : parsed' = parsed := Option.some.inj (hr'.symm.trans hr)
      rw [← hfields .dataFolder, if_pos hf, hcommand]
      refine ⟨_, rest, rfl, fun option => ?_, rfl⟩
      rw [hfields option]
      cases option with
      | dataFolder => exact hfields .dataFolder
      | dbName | dbPassword | explorerEndpoint => rfl
  · obtain ⟨e, he⟩ := @parseParameters_refuses po line.args program pathExists w hpo
      fun parsed hr hstore => hread ⟨parsed, hr, hstore⟩
    rw [he]
    constructor
    · rintro ⟨params, rest, hparams, -⟩
      cases hparams
    · rintro ⟨⟨parsed, hr, hstore, -⟩, -⟩
      exact (hread ⟨parsed, hr, hstore⟩).elim

end Stores

section PlainLine
/-- A line of words, and of options that are not known as global ones, with what it is read as. -/
inductive PlainLine : List String → List BasicOption → Prop where
  | nil : PlainLine [] []
  | word {tokens options} (token : String) : shape token = .word → PlainLine tokens options →
      PlainLine (token :: tokens) (positionalOption token [token] :: options)
  | unknown {tokens options} {option : BasicOption} (token : String) : shape token ≠ .word →
      readToken globalOptions token = .option option → option.unregistered = true →
      option.positional = false → PlainLine tokens options →
      PlainLine (token :: tokens) (option :: options)

variable {args : List String} {command : Command} {options : List BasicOption} {k : Nat}

def words (args : List String) : List String := args.filter fun token => shape token = .word

def wordAt (word : String × Nat) : BasicOption :=
  { positionalOption word.1 [word.1] with
    stringKey := positionalOptions.nameForPosition word.2 }

theorem nameForPosition_zero : positionalOptions.nameForPosition 0 = "command" := rfl

theorem nameForPosition_succ : positionalOptions.nameForPosition (k + 1) = "subargs" := rfl

theorem PlainLine.read (h : PlainLine args options) :
    readTokens globalOptions none args = some options := by
  induction h with
  | nil => rfl
  | word token hword _ ih => simp [readTokens, readToken, hword, ih]
  | unknown token _ hread _ _ _ ih => simp [readTokens, hread, ih]

/-- The words get their names by their positions. -/
theorem PlainLine.registered (h : PlainLine args options) :
    (positionalOptions.assign k options).filter (fun option => ¬ option.unregistered) =
      ((words args).zipIdx k).map wordAt := by
  induction h generalizing k with
  | nil => rfl
  | word token hword _ ih =>
    rw [words, List.filter_cons_of_pos (by simpa using hword), List.zipIdx_cons, List.map_cons,
      ← words, ← ih]
    rfl
  | unknown token hword _ hun hpos _ ih =>
    rw [words, List.filter_cons_of_neg (by simpa using hword), ← words, ← ih]
    simp [PositionalOptions.assign, hpos, hun]

theorem PlainLine.occurrences (h : PlainLine args options) (name : String) :
    (⟨positionalOptions.assign 0 options, globalOptions⟩ : ParsedOptions).occurrences name =
      (((words args).zipIdx 0).map wordAt).filter (·.stringKey = name) := by
  rw [← h.registered, List.filter_filter]
  simp [ParsedOptions.occurrences]

theorem filter_subargs (ws : List String) {name : String} (hn : name ≠ "subargs") :
    ((ws.zipIdx (k + 1)).map wordAt).filter (·.stringKey = name) = [] := by
  rw [List.filter_eq_nil_iff]
  intro option ho hkey
  obtain ⟨⟨w, i⟩, hw, rfl⟩ := List.mem_map.mp ho
  obtain ⟨j, rfl⟩ : ∃ j, i = j + 1 := ⟨i - 1, by have := List.le_snd_of_mem_zipIdx hw; omega⟩
  exact hn (by simpa [wordAt, nameForPosition_succ, eq_comm] using hkey)

/-- The first word is the command. -/
theorem PlainLine.first (h : PlainLine args options) :
    (⟨positionalOptions.assign 0 options, globalOptions⟩ : ParsedOptions).occurrences "command" =
      (words args).head?.toList.map fun word => wordAt (word, 0) := by
  rw [h.occurrences]
  cases words args with
  | nil => rfl
  | cons w ws =>
    have hrest : ((ws.zipIdx 1).map wordAt).filter (·.stringKey = "command") = [] :=
      filter_subargs ws (by decide)
    rw [List.zipIdx_cons, List.map_cons, List.filter_cons_of_pos (by rfl), hrest]
    rfl

theorem PlainLine.configFile (h : PlainLine args options) :
    (⟨positionalOptions.assign 0 options, globalOptions⟩ : ParsedOptions).occurrences
      "config-file" = [] := by
  rw [h.occurrences]
  cases words args with
  | nil => rfl
  | cons w ws =>
    have hrest : ((ws.zipIdx 1).map wordAt).filter (·.stringKey = "config-file") = [] :=
      filter_subargs ws (by decide)
    have hfirst : ¬ (wordAt (w, 0)).stringKey = "config-file" := by
      simp [wordAt, nameForPosition_zero]
    rw [List.zipIdx_cons, List.map_cons, List.filter_cons_of_neg (by simpa using hfirst), hrest]

theorem PlainLine.storable (h : PlainLine args options) :
    (⟨positionalOptions.assign 0 options, globalOptions⟩ : ParsedOptions).Storable := by
  refine ⟨fun option ho hun _ => ?_, fun d hd hm => ?_⟩
  · have hmem : option ∈ ((words args).zipIdx 0).map wordAt := by
      rw [← h.registered, List.mem_filter]
      exact ⟨ho, by simpa using hun⟩
    obtain ⟨⟨w, _ | i⟩, -, rfl⟩ := List.mem_map.mp hmem
    · exact ⟨{ name := "command", defaultValue := some "help" }, by simp [globalOptions], rfl⟩
    · exact ⟨{ name := "subargs", many := true }, by simp [globalOptions], rfl⟩
  · simp only [globalOptions, List.mem_cons, List.not_mem_nil, or_false] at hd
    rcases hd with rfl | rfl | rfl
    · rw [h.configFile]
      simp
    · rw [h.first]
      cases (words args).head? <;> simp [wordAt, positionalOption]
    · cases hm

/-- On such a line the first word is read as the command, also when it is the value of an option
before the command. -/
theorem readsCommand_iff_firstWord (h : PlainLine args options) : ReadsCommand args command ↔
    commandOf (toUpperCopy ((words args).head?.getD "help")) = some command := by
  have hread : readGlobal args = some ⟨positionalOptions.assign 0 options, globalOptions⟩ := by
    rw [readGlobal, h.read, Option.map_some]
  have hvalue : (⟨positionalOptions.assign 0 options, globalOptions⟩ : ParsedOptions).valueOr
      "command" "help" = (words args).head?.getD "help" := by
    rw [ParsedOptions.valueOr, ParsedOptions.given, h.first]
    cases (words args).head? <;> rfl
  rw [← hvalue]
  constructor
  · rintro ⟨parsed, hr, -, hc⟩
    rwa [← Option.some.inj (hread.symm.trans hr)] at hc
  · exact fun hc => ⟨_, hread, h.storable, hc⟩

example : ¬ ReadsCommand ["--name", "savings", "add"] .addAccount := by
  have hline : PlainLine ["--name", "savings", "add"] _ :=
    .unknown _ (by decide) rfl rfl rfl (.word _ (by decide) (.word _ (by decide) .nil))
  rw [readsCommand_iff_firstWord hline]
  decide

end PlainLine

/-- `--db-name=wallet list` -/
def listWallet : CommandLine where
  before := [.given ⟨.dbName, "wallet", true⟩]
  word := "list"
  after := []
  command := .listAccounts
  known := by decide
  unended := by decide
  whole := by decide
  distinct := by decide

/-- `--db-name=wallet --config-file my.config add --name savings` -/
def addSavings : CommandLine where
  before := [.given ⟨.dbName, "wallet", true⟩, .other "--config-file",
    .other "my.config"]
  word := "add"
  after := [.other "--name", .other "savings"]
  command := .addAccount
  known := by decide
  unended := by decide
  whole := by decide
  distinct := by decide

/-- A configuration file with some lines. -/
def withConfig (name : String) (lines : List (String × String)) : Implementation Exception :=
  plain ⟨"unexpected option"⟩ fun file => if file = name then some lines else none

/-- The option is as good as not given, and the file says the same. -/
theorem parseParameters_asAsked_same :
    AsAsked addSavings ⟨[{ stringKey := "db-name", value := ["wallet"] }], genericOptions⟩
      (parseParameters (withConfig "my.config" [("db-name", "wallet")]) (fun _ => true)
        ("lib-core-cmd" :: addSavings.args) {}).1 :=
  (parseParameters_asAsked_iff plain_documented (by rfl) (by decide) rfl).mpr
    ⟨⟨_, rfl, by decide, by decide⟩, by decide⟩

/-- With an empty file the name given is lost, or taken for the command. -/
theorem parseParameters_loses_name :
    ¬ AsAsked listWallet ⟨[], genericOptions⟩
      (parseParameters (withConfig "lib-core-cmd.config" []) (fun _ => true)
        ("lib-core-cmd" :: listWallet.args) {}).1 ∧
    (parseParameters (withConfig "lib-core-cmd.config" []) (fun _ => true)
      ["lib-core-cmd", "--db-name", "wallet", "list"] {}).1 =
      .error ⟨"Unknown command WALLET"⟩ := by
  have hresult : (parseParameters (withConfig "lib-core-cmd.config" []) (fun _ => true)
      ("lib-core-cmd" :: listWallet.args) {}).1 = .ok
        (⟨".", "cmd-wallet", "", "https://explorers.api.live.ledger.com", .listAccounts⟩,
          ["--db-name=wallet", "list"]) := rfl
  refine ⟨?_, rfl⟩
  rintro ⟨params, rest, hparams, hfields, -⟩
  rw [hresult, Except.ok.injEq, Prod.mk.injEq] at hparams
  have hasked : listWallet.expected ⟨[], genericOptions⟩ .dbName = "wallet" := by decide
  have hname := hfields .dbName
  rw [← hparams.1, hasked] at hname
  simp [ApplicationParameters.get] at hname

end LibCoreCmd

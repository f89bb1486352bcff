import LibCoreCmd.Commands.Library
import Mathlib.Tactic.Common

/-! The command that adds an account: it creates a wallet for it, and then the account. -/
namespace LibCoreCmd.Commands
open Program

structure AddAccountParameters where
  xpub : String := ""
  name : String := ""
  currency : Currency := {}
  keychainEngine : String := ""
  wasHelp : Bool := false
deriving DecidableEq, Repr

def addAccountOptions : List OptionDescription :=
  [{ name := "help", type := .flag },
    { name := "xpub", type := .string },
    { name := "name", type := .string },
    { name := "currency", type := .string, defaultValue := some (.string "bitcoin") },
    { name := "keychain-engine", type := .string, defaultValue := some (.string "BIP32_P2PKH") }]

/-- The first currency with the name, in any case. -/
def findCurrency (lib : Library) (currency : String) : Except Exception Currency :=
  let currencyName := toUpperCopy currency
  match lib.all.find? (toUpperCopy ·.name = currencyName) with
  | some coin => .ok coin
  | none => .error ⟨"Currency name is incorrect."⟩

def findKeychainEngine (lib : Library) (engine : String) : Except Exception String :=
  let keychainEngine := toUpperCopy engine
  if keychainEngine = toUpperCopy lib.BIP49_P2SH then .ok lib.BIP49_P2SH
  else if keychainEngine = toUpperCopy lib.BIP32_P2PKH then .ok lib.BIP32_P2PKH
  else if keychainEngine = toUpperCopy lib.BIP173_P2WSH then .ok lib.BIP173_P2WSH
  else if keychainEngine = toUpperCopy lib.BIP173_P2WPKH then .ok lib.BIP173_P2WPKH
  else .error ⟨"Unknown keychain-engine"⟩

namespace AddAccount

def parseParams (lib : Library) (options : List String) : Action AddAccountParameters := do
  let given ← .ofExcept (lib.store addAccountOptions options)
  let vm := variablesMap addAccountOptions given
  if (vm "help").isSome then
    print (lib.describe addAccountOptions)
    return { wasHelp := true }
  else
    let name ← .ofExcept (lib.asString (vm "name"))
    let xpub ← .ofExcept (lib.asString (vm "xpub"))
    let currency ← .ofExcept (lib.asString (vm "currency"))
    let currency ← .ofExcept (findCurrency lib currency)
    let keychainEngine ← .ofExcept (lib.asString (vm "keychain-engine"))
    let keychainEngine ← .ofExcept (findKeychainEngine lib keychainEngine)
    return { xpub, name, currency, keychainEngine }

end AddAccount

def alreadyExists (name : String) : String := "Account `" ++ name ++ "` is already exists."

/-- Whether the loop over the wallets finds the name. -/
def named (name : String) : Option (List Wallet) → Bool
  | some wallets => wallets.any (·.name = name)
  | none => false

def addAccount (lib : Library) (answers : Answers) (explorerUrl : String)
    (options : List String) : Action Unit := do
  let params ← AddAccount.parseParams lib options
  if params.wasHelp then return
  else
    let walletConfig : Configuration :=
      { keychainEngine := some params.keychainEngine
        blockchainExplorerApiEndpoint := some explorerUrl }
    let walletsOption ← getWallets answers 0 1000
    if named params.name walletsOption then print (alreadyExists params.name)
    else
      let wallet ← createWallet answers params.name params.currency walletConfig
      let info : ExtendedKeyAccountCreationInfo := { index := 0, extendedKeys := [params.xpub] }
      let _ ← newAccountWithExtendedKeyInfo answers wallet info
      return

variable {lib : Library} {answers : Answers} {explorerUrl : String} {options : List String}
  {params : AddAccountParameters} {w : World} {error : Error}

theorem keeps_print {text : String} : Keeps (fun w : World => (w.pool, w.calls)) (print text) :=
  fun _ => rfl

/-- Reading the options changes nothing but the output. -/
theorem keeps_parseParams :
    Keeps (fun w : World => (w.pool, w.calls)) (AddAccount.parseParams lib options) := by
  refine .bind .ofExcept fun _ => .ite (.bind keeps_print fun _ => .pure) ?_
  exact .bind .ofExcept fun _ => .bind .ofExcept fun _ => .bind .ofExcept fun _ =>
    .bind .ofExcept fun _ => .bind .ofExcept fun _ => .bind .ofExcept fun _ => .pure

/-- What the options of a command that adds an account say. -/
def Parsed (lib : Library) (options : List String) (params : AddAccountParameters) : Prop :=
  ∃ given, lib.store addAccountOptions options = .ok given ∧
    let vm := variablesMap addAccountOptions given
    if (vm "help").isSome then params = { wasHelp := true }
    else ∃ name, lib.asString (vm "name") = .ok name ∧
      ∃ xpub, lib.asString (vm "xpub") = .ok xpub ∧
      ∃ currency, lib.asString (vm "currency") = .ok currency ∧
      ∃ coin, findCurrency lib currency = .ok coin ∧
      ∃ engine, lib.asString (vm "keychain-engine") = .ok engine ∧
      ∃ keychainEngine, findKeychainEngine lib engine = .ok keychainEngine ∧
        params = { xpub, name, currency := coin, keychainEngine }

theorem parseParams_eq_ok_iff :
    (AddAccount.parseParams lib options w).1 = .ok params ↔ Parsed lib options params := by
  rw [AddAccount.parseParams, result_ofExcept_bind, Parsed]
  refine exists_congr fun given => and_congr_right fun _ => ?_
  dsimp only
  split
  · simp [print, run_bind, eq_comm]
  · simp only [result_ofExcept_bind, run_pure, Except.ok.injEq, eq_comm (b := params)]

/-- The run comes to create a wallet: its options are read, and the name is not found. -/
structure Creates (lib : Library) (answers : Answers) (options : List String)
    (params : AddAccountParameters) (pool : List Wallet) : Prop where
  parsed : Parsed lib options params
  notHelp : params.wasHelp = false
  listed : answers.getWallets = none
  notFound : named params.name (some (pool.take 1000)) = false

/-- The wallet made for an account. -/
def newWallet (params : AddAccountParameters) (explorerUrl : String) : Wallet where
  name := params.name
  currency := params.currency
  configuration :=
    { keychainEngine := some params.keychainEngine
      blockchainExplorerApiEndpoint := some explorerUrl }

/-- The end of the command: the wallet is created, and its account. -/
def createAccount (answers : Answers) (explorerUrl : String) (params : AddAccountParameters) :
    Action Unit := do
  let wallet ← createWallet answers params.name params.currency
    (newWallet params explorerUrl).configuration
  let _ ← newAccountWithExtendedKeyInfo answers wallet
    { index := 0, extendedKeys := [params.xpub] }
  return

/-- The command after its options are read. -/
def afterOptions (answers : Answers) (explorerUrl : String) (params : AddAccountParameters) :
    Action Unit :=
  if params.wasHelp then return
  else do
    let walletsOption ← getWallets answers 0 1000
    if named params.name walletsOption then print (alreadyExists params.name)
    else createAccount answers explorerUrl params

theorem addAccount_eq : addAccount lib answers explorerUrl options =
    AddAccount.parseParams lib options >>= afterOptions answers explorerUrl := rfl

theorem addAccount_parsed (hp : Parsed lib options params) :
    ∃ u : World, u.pool = w.pool ∧ u.calls = w.calls ∧
      addAccount lib answers explorerUrl options w = afterOptions answers explorerUrl params u := by
  have hk : (fun w : World => (w.pool, w.calls)) (AddAccount.parseParams lib options w).2 =
      (w.pool, w.calls) := keeps_parseParams w
  have hp : (AddAccount.parseParams lib options w).1 = .ok params := parseParams_eq_ok_iff.mpr hp
  cases hr : AddAccount.parseParams lib options w with
  | mk r u =>
    rw [hr] at hp hk
    simp only [Prod.mk.injEq] at hk
    refine ⟨u, hk.1, hk.2, ?_⟩
    subst hp
    rw [addAccount_eq]
    exact bind_ok hr

/-- A run that does not come to create a wallet changes nothing but the output. -/
theorem addAccount_of_not_creates (h : ∀ params, ¬ Creates lib answers options params w.pool) :
    (addAccount lib answers explorerUrl options w).2.pool = w.pool ∧
      (addAccount lib answers explorerUrl options w).2.calls = w.calls := by
  cases hp : (AddAccount.parseParams lib options w).1 with
  | error e =>
    have hk : (fun w : World => (w.pool, w.calls)) (AddAccount.parseParams lib options w).2 =
        (w.pool, w.calls) := keeps_parseParams w
    rw [addAccount_eq, bind_error (Prod.ext hp rfl)]
    simpa using hk
  | ok params =>
    obtain ⟨u, hpool, hcalls, hrun⟩ := addAccount_parsed (parseParams_eq_ok_iff.mp hp)
    rw [hrun, afterOptions]
    split
    · exact ⟨hpool, hcalls⟩
    rename_i hh
    cases hg : answers.getWallets with
    | some error =>
      rw [bind_error (getWallets_error hg)]
      exact ⟨hpool, hcalls⟩
    | none =>
      rw [bind_ok (getWallets_ok hg), List.drop_zero]
      split
      · exact ⟨hpool, hcalls⟩
      · rename_i hn
        refine (h params ⟨parseParams_eq_ok_iff.mp hp, by simpa using hh, hg, ?_⟩).elim
        rw [← hpool]
        simpa using hn

theorem addAccount_of_creates (h : Creates lib answers options params w.pool) :
    ∃ u : World, u.pool = w.pool ∧ u.calls = w.calls ∧
      addAccount lib answers explorerUrl options w =
        createAccount answers explorerUrl params u := by
  obtain ⟨u, hpool, hcalls, hrun⟩ := addAccount_parsed h.parsed
  refine ⟨u, hpool, hcalls, ?_⟩
  rw [hrun, afterOptions, if_neg (by simp [h.notHelp]), bind_ok (getWallets_ok h.listed), hpool,
    List.drop_zero, if_neg (by simp [h.notFound])]

theorem createWallet_mem_calls (h : Creates lib answers options params w.pool) :
    .createWallet params.name ∈ (addAccount lib answers explorerUrl options w).2.calls := by
  obtain ⟨u, -, -, hrun⟩ := addAccount_of_creates h
  rw [hrun, createAccount]
  cases hc : answers.createWallet with
  | some error =>
    rw [bind_error (createWallet_error hc)]
    simp
  | none =>
    rw [bind_ok (createWallet_ok hc)]
    cases ha : answers.newAccount with
    | error error =>
      rw [bind_error (newAccount_error ha)]
      simp
    | ok restoreKey =>
      rw [bind_ok (newAccount_ok ha)]
      simp

/-- A name that is found is reported, and nothing is created. -/
theorem addAccount_of_named (hp : Parsed lib options params)
    (hh : params.wasHelp = false) (hg : answers.getWallets = none)
    (hn : named params.name (some (w.pool.take 1000)) = true) :
    alreadyExists params.name ∈ (addAccount lib answers explorerUrl options w).2.stdout ∧
      (addAccount lib answers explorerUrl options w).2.calls = w.calls := by
  obtain ⟨u, hpool, hcalls, hrun⟩ := addAccount_parsed hp
  rw [hrun, afterOptions, if_neg (by simp [hh]), bind_ok (getWallets_ok hg), hpool,
    List.drop_zero, if_pos hn]
  exact ⟨by simp [print], hcalls⟩

/-- A wallet that cannot be created leaves the pool as it was. -/
theorem addAccount_createWallet_error (h : Creates lib answers options params w.pool)
    (hc : answers.createWallet = some error) :
    (addAccount lib answers explorerUrl options w).1 = .error ⟨error.message⟩ ∧
      (addAccount lib answers explorerUrl options w).2.pool = w.pool := by
  obtain ⟨u, hpool, -, hrun⟩ := addAccount_of_creates h
  rw [hrun, createAccount, bind_error (createWallet_error hc)]
  exact ⟨rfl, hpool⟩

/-- An account that cannot be created leaves the wallet behind. -/
theorem addAccount_newAccount_error (h : Creates lib answers options params w.pool)
    (hc : answers.createWallet = none) (ha : answers.newAccount = .error error) :
    (addAccount lib answers explorerUrl options w).1 = .error ⟨error.message⟩ ∧
      (addAccount lib answers explorerUrl options w).2.pool =
        w.pool ++ [newWallet params explorerUrl] := by
  obtain ⟨u, hpool, -, hrun⟩ := addAccount_of_creates h
  rw [hrun, createAccount, bind_ok (createWallet_ok hc), bind_error (newAccount_error ha)]
  exact ⟨rfl, by rw [hpool]; rfl⟩

/-- With both created the pool has one more wallet, with its account. -/
theorem addAccount_newAccount_ok {restoreKey : String}
    (h : Creates lib answers options params w.pool) (hc : answers.createWallet = none)
    (ha : answers.newAccount = .ok restoreKey) :
    (addAccount lib answers explorerUrl options w).1 = .ok () ∧
      (addAccount lib answers explorerUrl options w).2.pool =
        w.pool ++ [(newWallet params explorerUrl).addAccount ⟨0, restoreKey⟩] := by
  obtain ⟨u, hpool, -, hrun⟩ := addAccount_of_creates h
  rw [hrun, createAccount, bind_ok (createWallet_ok hc), bind_ok (newAccount_ok ha)]
  refine ⟨rfl, ?_⟩
  change (u.pool ++ [_]).modify u.pool.length _ = _
  rw [List.modify_eq_take_cons_drop (by simp), hpool]
  simp [newWallet]

/-- Nothing stands in the way of the run: its options are read, and it asks for help, finds
the name, or gets its wallet and account. -/
def AddAccountEnds (lib : Library) (answers : Answers) (options : List String)
    (pool : List Wallet) : Prop :=
  ∃ params, Parsed lib options params ∧ (params.wasHelp = true ∨
    answers.getWallets = none ∧ (named params.name (some (pool.take 1000)) = true ∨
      answers.createWallet = none ∧ answers.newAccount.isOk = true))

theorem afterOptions_returns_iff : Returns (afterOptions answers explorerUrl params) w ↔
    params.wasHelp = true ∨
      answers.getWallets = none ∧ (named params.name (some (w.pool.take 1000)) = true ∨
        answers.createWallet = none ∧ answers.newAccount.isOk = true) := by
  by_cases hh : params.wasHelp = true
  · simp [afterOptions, hh]
  rw [afterOptions, if_neg hh]
  cases hg : answers.getWallets with
  | some error => simp [Returns, bind_error (getWallets_error hg), hh, Except.toOption]
  | none =>
    rw [Returns, bind_ok (getWallets_ok hg), List.drop_zero]
    by_cases hn : named params.name (some (w.pool.take 1000)) = true
    · simp [hn, print, Except.toOption]
    rw [if_neg hn, createAccount]
    cases hc : answers.createWallet with
    | some error => simp [bind_error (createWallet_error hc), hh, hn, Except.toOption]
    | none =>
      rw [bind_ok (createWallet_ok hc)]
      cases ha : answers.newAccount with
      | error error =>
        simp [bind_error (newAccount_error ha), hh, hn, Except.toOption, Except.isOk, Except.toBool]
      | ok restoreKey =>
        simp [bind_ok (newAccount_ok ha), Except.toOption, Except.isOk, Except.toBool]

theorem addAccount_returns_iff :
    Returns (addAccount lib answers explorerUrl options) w ↔
      AddAccountEnds lib answers options w.pool := by
  constructor
  · intro hr
    obtain ⟨params, u, hp, -⟩ := returns_bind.mp hr
    have hparsed : Parsed lib options params := parseParams_eq_ok_iff.mp (congrArg Prod.fst hp)
    obtain ⟨u, hpool, -, hrun⟩ := addAccount_parsed hparsed
    rw [Returns, hrun] at hr
    exact ⟨params, hparsed, hpool ▸ afterOptions_returns_iff.mp hr⟩
  · rintro ⟨params, hparsed, hends⟩
    obtain ⟨u, hpool, -, hrun⟩ := addAccount_parsed hparsed
    rw [Returns, hrun]
    exact afterOptions_returns_iff.mpr (hpool ▸ hends)

end LibCoreCmd.Commands

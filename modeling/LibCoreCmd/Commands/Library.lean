import LibCoreCmd.Program

/-! What the commands use of the wallet library and of Boost.Program_options. The library keeps
the pool of wallets; whether a call of it fails is given from outside. -/
namespace LibCoreCmd.Commands

/-- A `std::exception`, by what it says. -/
structure Exception where
  what : String
deriving DecidableEq, Repr

/-- The error a callback receives. -/
structure Error where
  message : String
deriving DecidableEq, Repr

inductive WalletType where
  | bitcoin
  | ethereum
  | ripple
  | monero
deriving DecidableEq, Repr

structure Currency where
  walletType : WalletType := .bitcoin
  name : String := ""
deriving DecidableEq, Repr

/-- The two strings that are put into the `DynamicObject` of a wallet. -/
structure Configuration where
  keychainEngine : Option String := none
  blockchainExplorerApiEndpoint : Option String := none
deriving DecidableEq, Repr

structure Account where
  index : Nat
  restoreKey : String
deriving DecidableEq, Repr

structure Wallet where
  name : String
  currency : Currency
  configuration : Configuration
  accounts : List Account := []
deriving DecidableEq, Repr

def Wallet.account (wallet : Wallet) (index : Nat) : Option Account :=
  wallet.accounts.find? (·.index = index)

structure ExtendedKeyAccountCreationInfo where
  index : Nat
  extendedKeys : List String
deriving DecidableEq, Repr

/-- The calls that change the pool. -/
inductive Call where
  | createWallet (name : String)
  | newAccountWithExtendedKeyInfo (wallet : Nat) (info : ExtendedKeyAccountCreationInfo)
deriving DecidableEq, Repr

/-- The durable pool, and what a run has done: the calls above, and the text printed. -/
structure World where
  pool : List Wallet := []
  calls : List Call := []
  stdout : List String := []
deriving DecidableEq, Repr

/-- What a command or a part of it does. -/
abbrev Action := Program Exception World

def print (text : String) : Action Unit :=
  .modify fun w => { w with stdout := w.stdout ++ [text] }

/-- `sync` waits for the callback: its value, or an exception with the error's message. -/
def sync {α : Type} : Except Error α → Action α
  | .ok value => pure value
  | .error error => .throw ⟨error.message⟩

/-- The error of a call, if it is to fail. -/
structure Answers where
  getWallets : Option Error := none
  createWallet : Option Error := none
  /-- The key that restores the new account. -/
  newAccount : Except Error String

def refuse (answer : Option Error) : Except Error Unit :=
  match answer with
  | some error => .error error
  | none => .ok ()

/-- The slice of at most `size` wallets from `start` on. -/
def getWallets (answers : Answers) (start size : Nat) : Action (Option (List Wallet)) := do
  sync (refuse answers.getWallets)
  let w ← .get
  return some ((w.pool.drop start).take size)

/-- The new wallet has no account. It is known by its place in the pool. -/
def createWallet (answers : Answers) (name : String) (currency : Currency)
    (configuration : Configuration) : Action Nat := do
  .modify fun w => { w with calls := w.calls ++ [.createWallet name] }
  sync (refuse answers.createWallet)
  let w ← .get
  .modify fun w => { w with pool := w.pool ++ [{ name, currency, configuration }] }
  return w.pool.length

def Wallet.addAccount (wallet : Wallet) (account : Account) : Wallet :=
  { wallet with accounts := wallet.accounts ++ [account] }

def newAccountWithExtendedKeyInfo (answers : Answers) (wallet : Nat)
    (info : ExtendedKeyAccountCreationInfo) : Action Account := do
  .modify fun w => { w with calls := w.calls ++ [.newAccountWithExtendedKeyInfo wallet info] }
  let restoreKey ← sync answers.newAccount
  let account : Account := { index := info.index, restoreKey }
  .modify fun w => { w with pool := w.pool.modify wallet (·.addAccount account) }
  return account

section Calls
variable {answers : Answers} {w : World} {name : String} {currency : Currency}
  {configuration : Configuration} {wallet : Nat} {info : ExtendedKeyAccountCreationInfo}
  {error : Error} {start size : Nat}

theorem getWallets_ok (h : answers.getWallets = none) :
    getWallets answers start size w = (.ok (some ((w.pool.drop start).take size)), w) := by
  simp [getWallets, refuse, h, sync, Program.run_bind]

theorem getWallets_error (h : answers.getWallets = some error) :
    getWallets answers start size w = (.error ⟨error.message⟩, w) := by
  simp [getWallets, refuse, h, sync, Program.run_bind]

theorem createWallet_error (h : answers.createWallet = some error) :
    createWallet answers name currency configuration w =
      (.error ⟨error.message⟩, { w with calls := w.calls ++ [.createWallet name] }) := by
  simp [createWallet, refuse, h, sync, Program.run_bind]

theorem createWallet_ok (h : answers.createWallet = none) :
    createWallet answers name currency configuration w =
      (.ok w.pool.length,
        { w with
          calls := w.calls ++ [.createWallet name]
          pool := w.pool ++ [{ name, currency, configuration }] }) := by
  simp [createWallet, refuse, h, sync, Program.run_bind]

theorem newAccount_error (h : answers.newAccount = .error error) :
    newAccountWithExtendedKeyInfo answers wallet info w =
      (.error ⟨error.message⟩,
        { w with calls := w.calls ++ [.newAccountWithExtendedKeyInfo wallet info] }) := by
  simp [newAccountWithExtendedKeyInfo, h, sync, Program.run_bind]

theorem newAccount_ok {restoreKey : String} (h : answers.newAccount = .ok restoreKey) :
    newAccountWithExtendedKeyInfo answers wallet info w =
      (.ok ⟨info.index, restoreKey⟩,
        { w with
          calls := w.calls ++ [.newAccountWithExtendedKeyInfo wallet info]
          pool := w.pool.modify wallet (·.addAccount ⟨info.index, restoreKey⟩) }) := by
  simp [newAccountWithExtendedKeyInfo, h, sync, Program.run_bind]

end Calls

inductive ValueType where
  | flag
  | string
  | int64
deriving DecidableEq, Repr

inductive VariableValue where
  | flag
  | string (value : String)
  | int64 (value : Int)
deriving DecidableEq, Repr

structure OptionDescription where
  name : String
  type : ValueType
  defaultValue : Option VariableValue := none
deriving DecidableEq, Repr

/-- What is outside of the program and stays the same. -/
structure Library where
  /-- The options given for a description, converted, or the exception of `run` or `store`. -/
  store : List OptionDescription → List String → Except Exception (List (String × VariableValue))
  /-- The help text of a description. -/
  describe : List OptionDescription → String
  badAnyCast : Exception
  badOptionalAccess : Exception
  /-- The answer of `getAccount` when there is no account with the index. -/
  accountNotFound : Nat → Error
  walletNotFound : String → Error
  /-- `currencies::ALL`. -/
  all : List Currency
  BIP49_P2SH : String
  BIP32_P2PKH : String
  BIP173_P2WSH : String
  BIP173_P2WPKH : String

def getAccount (lib : Library) (wallet : Wallet) (index : Nat) : Action Account :=
  match wallet.account index with
  | some account => sync (.ok account)
  | none => sync (.error (lib.accountNotFound index))

section Returns
variable {α β : Type} {w : World}

theorem returns_sync_bind {r : Except Error α} {f : α → Action β} :
    Program.Returns (sync r >>= f) w ↔ ∃ a, r = .ok a ∧ Program.Returns (f a) w := by
  cases r with
  | error e => simp [sync, Program.Returns, Program.run_bind, Except.toOption]
  | ok a => simp [sync, Program.returns_pure_bind]

theorem returns_getAccount_bind {lib : Library} {wallet : Wallet} {index : Nat}
    {f : Account → Action β} :
    Program.Returns (getAccount lib wallet index >>= f) w ↔
      ∃ account, wallet.account index = some account ∧ Program.Returns (f account) w := by
  cases ha : wallet.account index <;> simp [getAccount, ha, returns_sync_bind]

end Returns

/-- A `variables_map`: the value given, or else the default. -/
def variablesMap (description : List OptionDescription) (given : List (String × VariableValue))
    (name : String) : Option VariableValue :=
  match given.lookup name with
  | some value => some value
  | none => (description.find? (·.name = name)).bind (·.defaultValue)

/-- `vm[name].as<std::string>()`; an option without a value is cast badly. -/
def Library.asString (lib : Library) : Option VariableValue → Except Exception String
  | some (.string value) => .ok value
  | _ => .error lib.badAnyCast

def Library.asInt64 (lib : Library) : Option VariableValue → Except Exception Int
  | some (.int64 value) => .ok value
  | _ => .error lib.badAnyCast

def toUpperCopy (s : String) : String := String.ofList (s.toList.map Char.toUpper)

/-- The options `--name` and `--xpub`. -/
def nameAndXpub : List String → List (String × VariableValue)
  | "--name" :: name :: options => ("name", .string name) :: nameAndXpub options
  | "--xpub" :: xpub :: options => ("xpub", .string xpub) :: nameAndXpub options
  | _ => []

/-- A library that knows one currency, and reads these options. -/
def oneCurrency : Library where
  store _ options := .ok (nameAndXpub options)
  describe _ := ""
  badAnyCast := ⟨"boost::bad_any_cast"⟩
  badOptionalAccess := ⟨"bad optional access"⟩
  accountNotFound _ := ⟨"Account not found"⟩
  walletNotFound _ := ⟨"Wallet not found"⟩
  all := [{ name := "bitcoin" }]
  BIP49_P2SH := "BIP49_P2SH"
  BIP32_P2PKH := "BIP32_P2PKH"
  BIP173_P2WSH := "BIP173_P2WSH"
  BIP173_P2WPKH := "BIP173_P2WPKH"

end LibCoreCmd.Commands

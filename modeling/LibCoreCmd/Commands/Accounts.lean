import LibCoreCmd.Commands.Library

/-! The commands that work on the account of one wallet: they synchronize it, and build a
transaction from it. -/
namespace LibCoreCmd.Commands
open Program

/-- An `EventReceiver` at the moment the wait for it is left. -/
structure EventReceiver where
  error : Option Error := none
  done : Bool := false
  left : error.isSome || done

def EventReceiver.wait (receiver : EventReceiver) : Except Exception Unit :=
  if receiver.done then .ok ()
  else .error ⟨(receiver.error.map (·.message)).getD ""⟩

/-- What `build` makes. -/
structure BitcoinLikeTransaction where
  inputs : List String
  fees : Int

/-- The errors and exceptions of the library's calls that are to fail. -/
structure AccountAnswers where
  getWallet : Option Error := none
  synchronize : Option Exception := none
  subscribe : Option Exception := none
  receiver : EventReceiver
  asBitcoinLikeAccount : Option Exception := none
  buildTransaction : Option Exception := none
  amount : Option Exception := none
  sendToAddress : Option Exception := none
  fees : Option Exception := none
  setFeesPerByte : Option Exception := none
  pickInputs : Option Exception := none
  build : Except Error BitcoinLikeTransaction

/-- A direct call of the library. -/
def call (answer : Option Exception) : Action Unit :=
  match answer with
  | some e => .throw e
  | none => return

def getWallet (lib : Library) (answers : AccountAnswers) (name : String) : Action Wallet := do
  sync (refuse answers.getWallet)
  let w ← .get
  match w.pool.find? (·.name = name) with
  | some wallet => sync (.ok wallet)
  | none => sync (.error (lib.walletNotFound name))

def syncAccountOptions : List OptionDescription :=
  [{ name := "help", type := .flag }, { name := "name", type := .string }]

def syncAccount (lib : Library) (answers : AccountAnswers) (options : List String) :
    Action Unit := do
  let given ← .ofExcept (lib.store syncAccountOptions options)
  let vm := variablesMap syncAccountOptions given
  if (vm "help").isSome then print (lib.describe syncAccountOptions)
  else
    let accountName ← .ofExcept (lib.asString (vm "name"))
    let wallet ← getWallet lib answers accountName
    let _ ← getAccount lib wallet 0
    call answers.synchronize
    call answers.subscribe
    .ofExcept answers.receiver.wait

structure BuildTransactionParameters where
  amount : Int := 0
  feesPerByte : Int := 0
  accountName : String := ""
  destinationAddress : String := ""
  wasHelp : Bool := false

def buildTransactionOptions : List OptionDescription :=
  [{ name := "help", type := .flag },
    { name := "name", type := .string },
    { name := "amount", type := .int64 },
    { name := "address", type := .string },
    { name := "fees", type := .int64, defaultValue := some (.int64 20) }]

namespace BuildTransaction

def parseParams (lib : Library) (options : List String) : Action BuildTransactionParameters := do
  let given ← .ofExcept (lib.store buildTransactionOptions options)
  let vm := variablesMap buildTransactionOptions given
  if (vm "help").isSome then
    print (lib.describe buildTransactionOptions)
    return { wasHelp := true }
  else
    let accountName ← .ofExcept (lib.asString (vm "name"))
    let destinationAddress ← .ofExcept (lib.asString (vm "address"))
    let amount ← .ofExcept (lib.asInt64 (vm "amount"))
    let feesPerByte ← .ofExcept (lib.asInt64 (vm "fees"))
    return { amount, feesPerByte, accountName, destinationAddress }

end BuildTransaction

def printTransactionDetails (transaction : BitcoinLikeTransaction) : Action Unit :=
  .modify fun w => { w with
    stdout := w.stdout ++ ["Transaction built:\n",
      "  inputs: " ++ toString transaction.inputs.length ++ "\n"] ++
      transaction.inputs.map (fun input => "   " ++ input ++ "\n") ++
      ["  fees:   " ++ toString transaction.fees ++ "\n"] }

def buildTransaction (lib : Library) (answers : AccountAnswers) (options : List String) :
    Action Unit := do
  let params ← BuildTransaction.parseParams lib options
  if params.wasHelp then return
  else
    let wallet ← getWallet lib answers params.accountName
    if wallet.currency.walletType ≠ .bitcoin then
      print "Build transaction is only allowed for bitcoin like accounts\n"
    else
      let _ ← getAccount lib wallet 0
      call answers.asBitcoinLikeAccount
      call answers.buildTransaction
      call answers.amount
      call answers.sendToAddress
      call answers.fees
      call answers.setFeesPerByte
      call answers.pickInputs
      let transaction ← sync answers.build
      printTransactionDetails transaction

section Returns
variable {lib : Library} {answers : AccountAnswers} {options : List String} {w : World} {β : Type}

theorem returns_call_bind {answer : Option Exception} {f : Unit → Action β} :
    Returns (call answer >>= f) w ↔ answer = none ∧ Returns (f ()) w := by
  cases answer with
  | none => simp [call, returns_pure_bind]
  | some e => simp [call, Returns, run_bind, Except.toOption]

theorem returns_getWallet_bind {name : String} {f : Wallet → Action β} :
    Returns (getWallet lib answers name >>= f) w ↔
      answers.getWallet = none ∧
        ∃ wallet, w.pool.find? (·.name = name) = some wallet ∧ Returns (f wallet) w := by
  rw [getWallet, bind_assoc, returns_sync_bind]
  cases hg : answers.getWallet with
  | some error => simp [refuse]
  | none =>
    simp only [refuse, true_and]
    cases hf : w.pool.find? (·.name = name) <;>
      simp [Returns, run_bind, hf, sync, Except.toOption]

/-- Nothing stands in the way of the synchronization: the options ask for help, or name a
wallet with an account whose synchronization succeeds. -/
def SyncAccountEnds (lib : Library) (answers : AccountAnswers) (options : List String)
    (pool : List Wallet) : Prop :=
  ∃ given, lib.store syncAccountOptions options = .ok given ∧
    let vm := variablesMap syncAccountOptions given
    if (vm "help").isSome then True
    else ∃ name, lib.asString (vm "name") = .ok name ∧ answers.getWallet = none ∧
      ∃ wallet, pool.find? (·.name = name) = some wallet ∧
      ∃ account, wallet.account 0 = some account ∧
        answers.synchronize = none ∧ answers.subscribe = none ∧ answers.receiver.done = true

theorem syncAccount_returns_iff : Returns (syncAccount lib answers options) w ↔
    SyncAccountEnds lib answers options w.pool := by
  rw [syncAccount, returns_ofExcept_bind, SyncAccountEnds]
  refine exists_congr fun given => and_congr_right fun _ => ?_
  dsimp only
  split
  · simp [print]
  · have hw : Returns (.ofExcept answers.receiver.wait : Action Unit) w ↔
        answers.receiver.done = true := by
      by_cases hd : answers.receiver.done = true <;>
        simp [Returns, EventReceiver.wait, hd, Except.toOption]
    simp only [returns_ofExcept_bind, returns_getWallet_bind, returns_getAccount_bind,
      returns_call_bind, hw]

/-- Nothing stands in the way of building a transaction: the options ask for help, or name a
wallet that is not bitcoin like, or one from which the library builds. -/
def BuildTransactionEnds (lib : Library) (answers : AccountAnswers) (options : List String)
    (pool : List Wallet) : Prop :=
  ∃ given, lib.store buildTransactionOptions options = .ok given ∧
    let vm := variablesMap buildTransactionOptions given
    if (vm "help").isSome then True
    else ∃ name, lib.asString (vm "name") = .ok name ∧
      ∃ address, lib.asString (vm "address") = .ok address ∧
      ∃ amount, lib.asInt64 (vm "amount") = .ok amount ∧
      ∃ fees, lib.asInt64 (vm "fees") = .ok fees ∧
        answers.getWallet = none ∧
      ∃ wallet, pool.find? (·.name = name) = some wallet ∧
        if wallet.currency.walletType ≠ .bitcoin then True
        else ∃ account, wallet.account 0 = some account ∧
          answers.asBitcoinLikeAccount = none ∧ answers.buildTransaction = none ∧
          answers.amount = none ∧ answers.sendToAddress = none ∧ answers.fees = none ∧
          answers.setFeesPerByte = none ∧ answers.pickInputs = none ∧
          ∃ transaction, answers.build = .ok transaction

theorem buildTransaction_returns_iff : Returns (buildTransaction lib answers options) w ↔
    BuildTransactionEnds lib answers options w.pool := by
  rw [buildTransaction, BuildTransaction.parseParams, bind_assoc, returns_ofExcept_bind,
    BuildTransactionEnds]
  refine exists_congr fun given => and_congr_right fun _ => ?_
  dsimp only
  split
  · simp [print, Returns, run_bind, Except.toOption]
  · have hprint (text : String) : Returns (print text) w ↔ True := iff_true_intro rfl
    have hdetails (transaction : BitcoinLikeTransaction) :
        Returns (printTransactionDetails transaction) w ↔ True := iff_true_intro rfl
    simp only [bind_assoc, returns_ofExcept_bind, returns_pure_bind, Bool.false_eq_true, if_false,
      returns_getWallet_bind, returns_ite, returns_getAccount_bind, returns_call_bind,
      returns_sync_bind, hprint, hdetails, and_true]

end Returns

end LibCoreCmd.Commands

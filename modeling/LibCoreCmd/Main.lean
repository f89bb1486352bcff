import LibCoreCmd.Commands.ListAccounts
import LibCoreCmd.Commands.Accounts

/-! The program as a whole: it starts the thread of the execution context, runs a command, and
stops the thread. -/
namespace LibCoreCmd
open Program Commands

inductive Command where
  | help
  | addAccount
  | listAccounts
  | listCurrencies
  | syncAccount
  | getBalance
  | buildTransaction
  /-- A value without a name. -/
  | other (value : Nat)
deriving DecidableEq, Repr

structure ApplicationParameters where
  dataFolder : String := "."
  dbName : String := "cmd-wallet"
  dbPassword : String := ""
  explorerEndpoint : String := "https://explorers.api.live.ledger.com"
  command : Command
deriving DecidableEq, Repr

/-- What a call may throw. -/
inductive Thrown where
  | exception (e : Exception)
  | other
deriving DecidableEq, Repr

/-- What ends a part of the program early. There is no handler for `std::terminate`. -/
inductive Interrupt where
  | thrown (t : Thrown)
  | terminate
deriving DecidableEq, Repr

/-- The life of the execution context, and the end of the process. -/
inductive Event where
  | start
  | stop
  | destroy
  | terminate
  | ret (code : Int)
deriving DecidableEq, Repr

/-- `joinable` tells whether the context has a thread that has not been joined. -/
structure Process where
  world : World := {}
  joinable : Bool := false
  events : List Event := []

/-- What the process meets. `lastOwner` tells whether nothing else owns the context when `main`
leaves the block it is made in. -/
structure Environment where
  library : Library
  parseParameters : Except Thrown (ApplicationParameters × List String)
  executionContext : Option Thrown := none
  executionThread : Option Thrown := none
  httpClient : Option Thrown := none
  pathExists : String → Bool := fun _ => true
  threadDispatcher : Option Thrown := none
  logPrinter : Option Thrown := none
  getSqlite3Backend : Option Thrown := none
  newInstance : String → String → Option Thrown := fun _ _ => none
  answers : Answers
  accountAnswers : AccountAnswers
  lastOwner : Bool := true

abbrev EXIT_SUCCESS : Int := 0

abbrev EXIT_FAILURE : Int := 1

def record (event : Event) : Program Interrupt Process Unit :=
  .modify fun p => { p with events := p.events ++ [event] }

def raise (answer : Option Thrown) : Program Interrupt Process Unit :=
  match answer with
  | some t => .throw (.thrown t)
  | none => return

def onWorld {α : Type} (x : Action α) : Program Interrupt Process α :=
  x.onPart (·.world) (fun w p => { p with world := w }) (fun e => .thrown (.exception e))

/-- The context gets its thread. -/
def start (env : Environment) : Program Interrupt Process Unit := do
  raise env.executionThread
  .modify fun p => { p with joinable := true }
  record .start

/-- The flag is set and the thread joined. -/
def stop : Program Interrupt Process Unit := do
  .modify fun p => { p with joinable := false }
  record .stop

/-- The context goes with its last owner. A `std::thread` that is still joinable then calls
`std::terminate`. -/
def release (env : Environment) : Program Interrupt Process Unit :=
  if env.lastOwner then do
    record .destroy
    let p ← .get
    if p.joinable then do
      record .terminate
      .throw .terminate
    else return
  else return

/-- The constructor of `PathResolver`. -/
def pathResolver (env : Environment) (dataFolder : String) : Option Thrown :=
  if env.pathExists dataFolder then none else some (.exception ⟨"Path not exist"⟩)

def makePool (env : Environment) (applicationParams : ApplicationParameters) :
    Program Interrupt Process Unit := do
  raise env.httpClient
  raise (pathResolver env applicationParams.dataFolder)
  raise env.threadDispatcher
  raise env.logPrinter
  raise env.getSqlite3Backend
  raise (env.newInstance applicationParams.dbName applicationParams.dbPassword)

def dispatch (env : Environment) (applicationParams : ApplicationParameters)
    (options : List String) : Program Interrupt Process Unit :=
  match applicationParams.command with
  | .addAccount =>
    onWorld (addAccount env.library env.answers applicationParams.explorerEndpoint options)
  | .listAccounts => onWorld (listAccounts env.library env.answers)
  | .listCurrencies => return
  | .syncAccount => onWorld (syncAccount env.library env.accountAnswers options)
  | .getBalance => return
  | .buildTransaction => onWorld (buildTransaction env.library env.accountAnswers options)
  | .help | .other _ => raise (some (.exception ⟨"Unexpected code path."⟩))

/-- What stands between `start` and `stop`. -/
def runCommand (env : Environment) (applicationParams : ApplicationParameters)
    (options : List String) : Program Interrupt Process Unit := do
  makePool env applicationParams
  dispatch env applicationParams options

/-- What is done with the context. -/
def useContext (env : Environment) (applicationParams : ApplicationParameters)
    (options : List String) : Program Interrupt Process Unit := do
  start env
  runCommand env applicationParams options
  stop

/-- The `try` block. A value is the code it returns from `main` itself. -/
def tryBlock (env : Environment) : Program Interrupt Process (Option Int) := do
  let (applicationParams, options) ← .ofExcept (env.parseParameters.mapError .thrown)
  if applicationParams.command = .help then return some 0
  else do
    raise env.executionContext
    (useContext env applicationParams options).leaving (release env)
    return none

def Interrupt.caught : Interrupt → Option Thrown
  | .thrown t => some t
  | .terminate => none

/-- The `catch` clauses. -/
def report : Thrown → Program Interrupt Process (Option Int)
  | .exception e => do
    onWorld (print ("Unhandled exception: " ++ e.what ++ "\n"))
    return some EXIT_FAILURE
  | .other => do
    onWorld (print "Unhandled exception \n")
    return some EXIT_FAILURE

def main (env : Environment) : Program Interrupt Process Int := do
  let returned ← (tryBlock env).handling Interrupt.caught report
  let code := returned.getD EXIT_SUCCESS
  record (.ret code)
  return code

end LibCoreCmd

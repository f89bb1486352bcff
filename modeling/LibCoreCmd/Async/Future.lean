import LibCoreCmd.Async.Deffered
import Mathlib.Data.List.Range
import Mathlib.Data.List.Nodup

/-! Futures as the core builds them: a heap of `Deffered`s, the callbacks that one leaves with
another, and contexts that queue what they are handed and run it in any order, but nothing while
an expression is being evaluated. -/
namespace LibCoreCmd.Async
open Transition

variable {ν : Type}

/-- An expression over futures. The functions given to `map`, `recover` and `async` return or
throw; those given to the others return a future or throw, which is what `throw` is for. -/
inductive FutureExpr (ν : Type) where
  | successful (value : ν)
  | failure (exception : Exception)
  | throw (exception : Exception)
  | async (f : Try ν)
  | asyncWith (f : FutureExpr ν)
  | map (a : FutureExpr ν) (f : ν → Try ν)
  | flatMap (a : FutureExpr ν) (f : ν → FutureExpr ν)
  | recover (a : FutureExpr ν) (f : Exception → Try ν)
  | recoverWith (a : FutureExpr ν) (f : Exception → FutureExpr ν)

namespace FutureExpr

/-- What the evaluation of an expression throws, before there is any future to recover. -/
def thrown : FutureExpr ν → Option Exception
  | throw e => some e
  | map a _ | flatMap a _ | recover a _ | recoverWith a _ => a.thrown
  | successful _ | failure _ | async _ | asyncWith _ => none

/-- What an expression is for: to compute a result as its functions do one after the other. -/
def denote : FutureExpr ν → Try ν
  | successful value => .ok value
  | failure e | throw e => .error e
  | async f => f
  | asyncWith f => f.denote
  | map a f => a.denote.bind f
  | flatMap a f =>
    match a.denote with
    | .ok v => (f v).denote
    | .error e => .error e
  | recover a f =>
    match a.thrown, a.denote with
    | some e, _ => .error e
    | none, .ok v => .ok v
    | none, .error e => f e
  | recoverWith a f =>
    match a.thrown, a.denote with
    | some e, _ => .error e
    | none, .ok v => .ok v
    | none, .error e => (f e).denote

/-- `filter` is a `map`, and `fallback` a `recover`. -/
def filter (a : FutureExpr ν) (f : ν → Try Bool) : FutureExpr ν :=
  a.map fun v => (f v).bind fun pass =>
    if pass then .ok v
    else .error ⟨.noSuchElement, "Value didn't pass the filter function."⟩

def fallback (a : FutureExpr ν) (value : ν) : FutureExpr ν := a.recover fun _ => .ok value

end FutureExpr

/-- What waits at a future, each for the sake of another; `forward` is the `onComplete` that
`flatMap`, `recoverWith` and `async` leave with the future that they were given. -/
inductive Callback (ν : Type) where
  | map (f : ν → Try ν) (target : Nat)
  | flatMap (f : ν → FutureExpr ν) (target : Nat)
  | recover (f : Exception → Try ν) (target : Nat)
  | recoverWith (f : Exception → FutureExpr ν) (target : Nat)
  | forward (target : Nat)

/-- What a context is handed. A callback comes with the place it was left at and the value. -/
inductive Task (ν : Type) where
  | async (f : Try ν) (target : Nat)
  | asyncWith (f : FutureExpr ν) (target : Nat)
  | call (source : Nat) (callback : Callback ν) (value : Try ν)

/-- `thrown` holds what tasks let escape. -/
structure Machine (ν : Type) where
  size : Nat := 0
  deffered : Nat → Deffered ν (Callback ν) := fun _ => {}
  tasks : List (Task ν) := []
  thrown : List Exception := []

namespace Machine

def alloc (m : Machine ν) (d : Deffered ν (Callback ν)) : Machine ν :=
  { m with size := m.size + 1, deffered := Function.update m.deffered m.size d }

def execute (m : Machine ν) (task : Task ν) : Machine ν := { m with tasks := m.tasks ++ [task] }

/-- The cell `s` is replaced, and its callbacks are handed to their contexts. -/
def update (m : Machine ν) (s : Nat)
    (out : Deffered ν (Callback ν) × List (Callback ν × Try ν)) : Machine ν :=
  { m with
    deffered := Function.update m.deffered s out.1
    tasks := m.tasks ++ out.2.map fun c => .call s c.1 c.2 }

def addCallback (m : Machine ν) (s : Nat) (c : Callback ν) : Machine ν :=
  m.update s ((m.deffered s).addCallback c)

def setResult (m : Machine ν) (t : Nat) (result : Try ν) : Machine ν :=
  match (m.deffered t).complete result with
  | .ok out => m.update t out
  | .error e => { m with thrown := m.thrown ++ [e] }

/-- A new future that depends on the one at `s`. -/
def attach (m : Machine ν) (s : Nat) (c : Nat → Callback ν) : Nat × Machine ν :=
  (m.size, (m.alloc {}).addCallback s (c m.size))

/-- The evaluation of an expression makes a future, and does not wait for anything. -/
def launch : FutureExpr ν → Machine ν → Try (Nat × Machine ν)
  | .successful v, m => .ok (m.size, m.alloc { value := some (.ok v) })
  | .failure e, m => .ok (m.size, m.alloc { value := some (.error e) })
  | .throw e, _ => .error e
  | .async f, m => .ok (m.size, (m.alloc {}).execute (.async f m.size))
  | .asyncWith f, m => .ok (m.size, (m.alloc {}).execute (.asyncWith f m.size))
  | .map a f, m => (launch a m).map fun p => p.2.attach p.1 (.map f)
  | .flatMap a f, m => (launch a m).map fun p => p.2.attach p.1 (.flatMap f)
  | .recover a f, m => (launch a m).map fun p => p.2.attach p.1 (.recover f)
  | .recoverWith a f, m => (launch a m).map fun p => p.2.attach p.1 (.recoverWith f)

/-- A function that was to return a future returned it or threw. -/
def follow (m : Machine ν) (e : FutureExpr ν) (target : Nat) : Machine ν :=
  match m.launch e with
  | .ok (s, m) => m.addCallback s (.forward target)
  | .error exception => m.setResult target (.error exception)

def run (m : Machine ν) : Task ν → Machine ν
  | .async f t => m.setResult t f
  | .asyncWith f t => m.follow f t
  | .call _ (.map f t) value => m.setResult t (value.bind f)
  | .call _ (.flatMap f t) (.ok v) => m.follow (f v) t
  | .call _ (.flatMap _ t) (.error e) => m.setResult t (.error e)
  | .call _ (.recover _ t) (.ok v) => m.setResult t (.ok v)
  | .call _ (.recover f t) (.error e) => m.setResult t (f e)
  | .call _ (.recoverWith _ t) (.ok v) => m.setResult t (.ok v)
  | .call _ (.recoverWith f t) (.error e) => m.follow (f e) t
  | .call _ (.forward t) value => m.setResult t value

/-- Any task may be the next one. -/
def next (m : Machine ν) (i : Nat) : Option (Machine ν) :=
  m.tasks[i]?.map fun task => { m with tasks := m.tasks.eraseIdx i }.run task

end Machine

def machine : System (Machine ν) Nat := .ofNext Machine.next

end LibCoreCmd.Async

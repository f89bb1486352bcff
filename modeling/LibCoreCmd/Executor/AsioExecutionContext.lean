import Mathlib.Logic.Function.Basic
import Mathlib.Data.List.Range
import LibCoreCmd.Transition

/-! `AsioExecutionContext`: one thread that runs the handlers of an `io_service` again
and again, threads that post to it, and a thread that stops it. -/
namespace LibCoreCmd.Executor

open Transition

/-- A post is told apart from all others by its place in the order of posting. -/
abbrev Ticket := Nat

/-- Where the loop thread stands: at the top of the loop, in `run` between handlers, in
a runnable, before the test with the count `run` returned, before `reset`, or out of the
loop, by `return` or by the exception of a runnable. -/
inductive LoopPc where
  | looping
  | inRun (count : Nat)
  | inTask (count : Nat) (task : Ticket)
  | returned (count : Nat)
  | resetting
  | exited
  | terminated (task : Ticket)
  deriving DecidableEq, Repr

/-- An exception that leaves the loop thread ends the process. -/
def LoopPc.dead : LoopPc → Bool
  | .terminated _ => true
  | _ => false

/-- Where the thread that calls `stop` stands. -/
inductive Stopper where
  | idle | called | flagSet | joined
  deriving DecidableEq, Repr

/-- `posts` are the runnables in the order of posting and `queue` the tickets waiting in
the `io_service`; `calling` holds the calls of `execute` that have posted and not yet
returned. The lists at the end record what has happened: calls that returned, those among
them when `stop` was called, posts made by runnables, and runnables run to their end. -/
structure Context (ρ κ : Type) where
  posts : List ρ
  queue : List Ticket
  stopped : Bool
  shouldStop : Bool
  pc : LoopPc
  stopper : Stopper
  calling : κ → Option Ticket
  returned : List Ticket
  beforeStop : List Ticket
  byTasks : List Ticket
  executed : List Ticket

inductive Action (ρ κ : Type) where
  /-- `execute` posts, and returns. -/
  | post (thread : κ) (runnable : ρ)
  | ret (thread : κ)
  /-- `stop` is called, sets the flag, and returns from `join`. -/
  | callStop
  | setFlag
  | join
  /-- The loop thread calls `run`, takes a handler, is in it, and leaves `run`. -/
  | enterRun
  | take
  | taskPost (runnable : ρ)
  | finish
  | throw
  | leaveRun
  /-- `(count == 0) && shouldStop`, and `reset`. -/
  | test
  | reset

variable {ρ κ : Type}

/-- `start` has been called: the flag is clear and the thread is there. -/
def Context.start : Context ρ κ :=
  { posts := [], queue := [], stopped := false, shouldStop := false, pc := .looping,
    stopper := .idle, calling := fun _ => none, returned := [], beforeStop := [], byTasks := [],
    executed := [] }

/-- `_io_service.post`. -/
def Context.enqueue (c : Context ρ κ) (r : ρ) : Context ρ κ :=
  { c with posts := c.posts ++ [r], queue := c.queue ++ [c.posts.length] }

section Enqueue
variable {c : Context ρ κ} {r : ρ}

@[simp] theorem length_posts_enqueue : (c.enqueue r).posts.length = c.posts.length + 1 := by
  simp [Context.enqueue]

@[simp] theorem queue_enqueue : (c.enqueue r).queue = c.queue ++ [c.posts.length] := rfl
@[simp] theorem stopped_enqueue : (c.enqueue r).stopped = c.stopped := rfl
@[simp] theorem shouldStop_enqueue : (c.enqueue r).shouldStop = c.shouldStop := rfl
@[simp] theorem pc_enqueue : (c.enqueue r).pc = c.pc := rfl
@[simp] theorem stopper_enqueue : (c.enqueue r).stopper = c.stopper := rfl
@[simp] theorem calling_enqueue : (c.enqueue r).calling = c.calling := rfl
@[simp] theorem returned_enqueue : (c.enqueue r).returned = c.returned := rfl
@[simp] theorem beforeStop_enqueue : (c.enqueue r).beforeStop = c.beforeStop := rfl
@[simp] theorem byTasks_enqueue : (c.enqueue r).byTasks = c.byTasks := rfl
@[simp] theorem executed_enqueue : (c.enqueue r).executed = c.executed := rfl

end Enqueue

/-- One atomic step of one of the threads, while the process lives. -/
def Context.next [DecidableEq κ] (c : Context ρ κ) (a : Action ρ κ) : Option (Context ρ κ) :=
  if c.pc.dead then none else
  match a with
  | .post k r =>
    if c.calling k = none then
      some { c.enqueue r with calling := Function.update c.calling k (some c.posts.length) }
    else none
  | .ret k =>
    match c.calling k with
    | some t => some { c with
        calling := Function.update c.calling k none, returned := c.returned ++ [t] }
    | none => none
  | .callStop =>
    if c.stopper = .idle then some { c with stopper := .called, beforeStop := c.returned } else none
  | .setFlag =>
    if c.stopper = .called then some { c with stopper := .flagSet, shouldStop := true } else none
  | .join =>
    if c.stopper = .flagSet ∧ c.pc = .exited then some { c with stopper := .joined } else none
  | .enterRun =>
    if c.pc = .looping then
      some { c with pc := if c.stopped then .returned 0 else .inRun 0 }
    else none
  | .take =>
    match c.pc, c.queue with
    | .inRun n, t :: q => some { c with queue := q, pc := .inTask n t }
    | _, _ => none
  | .taskPost r =>
    match c.pc with
    | .inTask _ _ => some { c.enqueue r with byTasks := c.byTasks ++ [c.posts.length] }
    | _ => none
  | .finish =>
    match c.pc with
    | .inTask n t => some { c with executed := c.executed ++ [t], pc := .inRun (n + 1) }
    | _ => none
  | .throw =>
    match c.pc with
    | .inTask _ t => some { c with pc := .terminated t }
    | _ => none
  | .leaveRun =>
    match c.pc, c.queue with
    | .inRun n, [] => some { c with stopped := true, pc := .returned n }
    | _, _ => none
  | .test =>
    match c.pc with
    | .returned n =>
      some { c with pc := if n = 0 ∧ c.shouldStop = true then .exited else .resetting }
    | _ => none
  | .reset =>
    if c.pc = .resetting then some { c with stopped := false, pc := .looping } else none

def executor (ρ κ : Type) [DecidableEq κ] : System (Context ρ κ) (Action ρ κ) :=
  System.ofNext Context.next

/-- The steps by name, each with what enables it. -/
inductive Step [DecidableEq κ] (c : Context ρ κ) : Action ρ κ → Context ρ κ → Prop where
  | post {k r} : c.calling k = none → Step c (.post k r)
      { c.enqueue r with calling := Function.update c.calling k (some c.posts.length) }
  | ret {k t} : c.calling k = some t → Step c (.ret k)
      { c with calling := Function.update c.calling k none, returned := c.returned ++ [t] }
  | callStop : c.stopper = .idle → Step c .callStop
      { c with stopper := .called, beforeStop := c.returned }
  | setFlag : c.stopper = .called → Step c .setFlag
      { c with stopper := .flagSet, shouldStop := true }
  | join : c.stopper = .flagSet → c.pc = .exited → Step c .join { c with stopper := .joined }
  | enterStopped : c.pc = .looping → c.stopped = true →
      Step c .enterRun { c with pc := .returned 0 }
  | enterRun : c.pc = .looping → c.stopped = false → Step c .enterRun { c with pc := .inRun 0 }
  | take {n t q} : c.pc = .inRun n → c.queue = t :: q → Step c .take
      { c with queue := q, pc := .inTask n t }
  | taskPost {n t r} : c.pc = .inTask n t → Step c (.taskPost r)
      { c.enqueue r with byTasks := c.byTasks ++ [c.posts.length] }
  | finish {n t} : c.pc = .inTask n t → Step c .finish
      { c with executed := c.executed ++ [t], pc := .inRun (n + 1) }
  | throw {n t} : c.pc = .inTask n t → Step c .throw { c with pc := .terminated t }
  | leaveRun {n} : c.pc = .inRun n → c.queue = [] → Step c .leaveRun
      { c with stopped := true, pc := .returned n }
  | exit : c.pc = .returned 0 → c.shouldStop = true → Step c .test { c with pc := .exited }
  | again {n} : c.pc = .returned n → ¬ (n = 0 ∧ c.shouldStop = true) → Step c .test
      { c with pc := .resetting }
  | reset : c.pc = .resetting → Step c .reset { c with stopped := false, pc := .looping }

theorem step_of_executor [DecidableEq κ] {c d : Context ρ κ} {a : Action ρ κ}
    (h : (executor ρ κ).step c a d) : Step c a d := by
  change c.next a = some d at h
  unfold Context.next at h
  split at h
  · cases h
  · cases a with
    | post k r =>
      dsimp only at h
      split at h
      · cases h
        exact .post ‹_›
      · cases h
    | ret k =>
      dsimp only at h
      split at h
      · cases h
        exact .ret ‹_›
      · cases h
    | callStop =>
      dsimp only at h
      split at h
      · cases h
        exact .callStop ‹_›
      · cases h
    | setFlag =>
      dsimp only at h
      split at h
      · cases h
        exact .setFlag ‹_›
      · cases h
    | join =>
      dsimp only at h
      split at h
      · rename_i he
        cases h
        exact .join he.1 he.2
      · cases h
    | enterRun =>
      dsimp only at h
      split at h
      · cases h
        by_cases hs : c.stopped = true
        · rw [if_pos hs]
          exact .enterStopped ‹_› hs
        · rw [if_neg hs]
          exact .enterRun ‹_› (by simpa using hs)
      · cases h
    | take =>
      dsimp only at h
      split at h
      · cases h
        exact .take ‹_› ‹_›
      · cases h
    | taskPost r =>
      dsimp only at h
      split at h
      · cases h
        exact .taskPost ‹_›
      · cases h
    | finish =>
      dsimp only at h
      split at h
      · cases h
        exact .finish ‹_›
      · cases h
    | throw =>
      dsimp only at h
      split at h
      · cases h
        exact .throw ‹_›
      · cases h
    | leaveRun =>
      dsimp only at h
      split at h
      · cases h
        exact .leaveRun ‹_› ‹_›
      · cases h
    | test =>
      dsimp only at h
      split at h
      · rename_i n hp
        cases h
        split
        · rename_i he
          exact .exit (he.1 ▸ hp) he.2
        · exact .again hp ‹_›
      · cases h
    | reset =>
      dsimp only at h
      split at h
      · cases h
        exact .reset ‹_›
      · cases h

end LibCoreCmd.Executor

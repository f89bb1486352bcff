import LibCoreCmd.Monitor
import LibCoreCmd.Commands.Accounts

/-! `EventReceiver`: one thread waits for the end of a synchronization, whose events come from
another. -/
namespace LibCoreCmd.Commands
open Transition Monitor

inductive EventCode where
  | undefined
  | newOperation
  | newBlock
  | synchronizationStarted
  | synchronizationFailed
  | synchronizationSucceed
  | synchronizationSucceedOnPreviouslyEmptyAccount
deriving DecidableEq, Repr

def EventCode.succeeds (code : EventCode) : Bool :=
  code = .synchronizationSucceed || code = .synchronizationSucceedOnPreviouslyEmptyAccount

def EventCode.terminal (code : EventCode) : Bool :=
  code = .synchronizationFailed || code.succeeds

/-- The fields that the lock guards. -/
structure Received where
  error : Option Error := none
  done : Bool := false
deriving DecidableEq, Repr

variable {received : Received} {code : EventCode} {codes : List EventCode}
  {s t : State Received (Except Exception Unit)} {a : Monitor.Action EventCode}
  {past : List (Monitor.Action EventCode)} {r : Except Exception Unit}

namespace Received

def onEvent (received : Received) (code : EventCode) : Received :=
  if code = .synchronizationFailed then { received with error := some ⟨"Synchronization failed"⟩ }
  else if code.succeeds then { received with done := true }
  else received

/-- What `wait` waits for. -/
def ready (received : Received) : Bool :=
  received.error.isSome || received.done

/-- What `wait` does when it has waited. -/
def wait (received : Received) : Except Exception Unit :=
  if received.done then .ok ()
  else .error ⟨(received.error.map (·.message)).getD ""⟩

/-- A receiver whose wait is over is the one that the commands leave. -/
theorem wait_eq (h : received.ready = true) :
    received.wait = EventReceiver.wait ⟨received.error, received.done, h⟩ := rfl

def cell : Cell Received EventCode (Except Exception Unit) where
  init := {}
  put := onEvent
  notifies := EventCode.terminal
  ready := ready
  outcome := wait
  silent received code h := by
    rw [EventCode.terminal, Bool.or_eq_false_iff, decide_eq_false_iff_not] at h
    simp [onEvent, h.1, h.2]

/-- The two fields say which of the terminal events have come. -/
theorem foldl_onEvent : codes.foldl onEvent received =
    ⟨if .synchronizationFailed ∈ codes then some ⟨"Synchronization failed"⟩ else received.error,
      received.done || codes.any EventCode.succeeds⟩ := by
  induction codes generalizing received with
  | nil => simp
  | cons code codes ih =>
    rw [List.foldl_cons, ih]
    cases code <;> simp [onEvent, EventCode.succeeds]

/-- The wait is over from the first terminal event on, and never before. -/
theorem ready_run (h : cell.system.Run cell.start past s) :
    s.shared.ready = true ↔ ∃ code ∈ deliveries past, code.terminal = true := by
  have hs : s.shared = _ := (shared_run h).trans foldl_onEvent
  rw [hs]
  simp only [ready, cell, EventCode.terminal]
  constructor
  · intro hr
    by_cases hf : .synchronizationFailed ∈ deliveries past
    · exact ⟨_, hf, rfl⟩
    · obtain ⟨code, hm, hc⟩ : ∃ code ∈ deliveries past, code.succeeds = true := by
        simpa [hf] using hr
      exact ⟨code, hm, by simp [hc]⟩
  · rintro ⟨code, hm, hc⟩
    rcases Bool.or_eq_true_iff.mp hc with hf | hsucc
    · simp [of_decide_eq_true hf ▸ hm]
    · simpa using Or.inr ⟨code, hm, hsucc⟩

/-- The thread leaves in the way the events so far say, in whatever order they came. -/
theorem wait_run (h : cell.system.Run cell.start past s) (hr : s.shared.ready = true) :
    s.shared.wait = if ∃ code ∈ deliveries past, code.succeeds = true then .ok ()
      else .error ⟨"Synchronization failed"⟩ := by
  obtain ⟨code, hm, hc⟩ := (ready_run h).mp hr
  have hs : s.shared = _ := (shared_run h).trans foldl_onEvent
  rw [hs]
  by_cases hsucc : ∃ code ∈ deliveries past, code.succeeds = true
  · simp [wait, cell, hsucc]
  · have hf : code = .synchronizationFailed := by
      rcases Bool.or_eq_true_iff.mp hc with hf | hcode
      · exact of_decide_eq_true hf
      · exact (hsucc ⟨code, hm, hcode⟩).elim
    subst hf
    simp [wait, cell, hsucc, hm]

/-- What the commands are given for a receiver covers every way out of the wait. -/
theorem left_receiver (hs : cell.system.step s a t)
    (hl : ∀ r, s.waiter ≠ .left r) (ht : t.waiter = .left r) :
    ∃ receiver : EventReceiver, r = receiver.wait := by
  obtain ⟨hready, hout, -⟩ := leaves_with hs hl ht
  exact ⟨_, hout.trans (wait_eq hready)⟩

/-- Without a success every terminal event is a failure. -/
theorem only_failures_iff {codes : List EventCode} :
    (∀ code ∈ codes, code.terminal = true → code = .synchronizationFailed) ↔
      ¬ ∃ code ∈ codes, code.succeeds = true := by
  simp only [not_exists, not_and]
  apply forall₂_congr
  intro code _
  cases code <;> simp [EventCode.terminal, EventCode.succeeds]

/-- The thread leaves only after a terminal event, and can leave from the first one on. It
returns exactly if a success was among the events before it left, and throws exactly if all
terminal ones among them were failures. -/
theorem wait_leaves :
    (∀ past s a t r, cell.system.Run cell.start past s → cell.system.step s a t →
      (∀ r, s.waiter ≠ .left r) → t.waiter = .left r →
      (∃ code ∈ deliveries past, code.terminal = true) ∧
      (r = .ok () ↔ ∃ code ∈ deliveries past, code.succeeds = true) ∧
      (r = .error ⟨"Synchronization failed"⟩ ↔
        ∀ code ∈ deliveries past, code.terminal = true → code = .synchronizationFailed)) ∧
    (∀ past s, cell.system.Run cell.start past s →
      (∃ code ∈ deliveries past, code.terminal = true) → s.waiter ≠ .asleep ∧
      ((∀ r, s.waiter ≠ .left r) → ∃ a t r, cell.system.step s a t ∧ t.waiter = .left r)) := by
  constructor
  · intro past s a t r hrun hstep hl ht
    obtain ⟨hready, hout, -⟩ := leaves_with hstep hl ht
    have hr : r = _ := hout.trans (wait_run hrun hready)
    refine ⟨(ready_run hrun).mp hready, ?_, ?_⟩
    · by_cases hsucc : ∃ code ∈ deliveries past, code.succeeds = true <;> simp [hr, hsucc]
    · by_cases hsucc : ∃ code ∈ deliveries past, code.succeeds = true <;>
        simp [hr, only_failures_iff, hsucc]
  · intro past s hrun hterm
    have hready := (ready_run hrun).mpr hterm
    refine ⟨not_asleep_of_ready hrun hready, fun hl => ?_⟩
    obtain ⟨a, t, hstep, ht⟩ := can_leave hrun hready hl
    exact ⟨a, t, _, hstep, ht⟩

/-- A thread that gets the lock between a failure and a success throws, and one that comes
before the failure is awake after it. -/
theorem wait_leaves_between :
    ((Except.error ⟨"Synchronization failed"⟩ : Except Exception Unit) = .ok () ↔
      ∃ code ∈ [EventCode.newBlock, .synchronizationFailed], code.succeeds = true) ∧
    (⟨⟨some ⟨"Synchronization failed"⟩, false⟩, .awake⟩ :
      State Received (Except Exception Unit)).waiter ≠ .asleep :=
  ⟨(wait_leaves.1 [.deliver .newBlock, .deliver .synchronizationFailed] _ .call _ _
      (.cons rfl (.cons rfl (.refl _))) rfl nofun rfl).2.1,
    (wait_leaves.2 [.call, .deliver .synchronizationFailed] _
      (.cons rfl (.cons rfl (.refl _))) (by decide)).1⟩

/-- A failure comes first and a success after it: whether the wait throws is up to the schedule. -/
theorem wait_first_failure :
    [EventCode.synchronizationFailed, .synchronizationSucceed].find? EventCode.terminal =
      some .synchronizationFailed ∧
    cell.system.Run cell.start [.deliver .synchronizationFailed, .call,
      .deliver .synchronizationSucceed]
      ⟨⟨some ⟨"Synchronization failed"⟩, true⟩, .left (.error ⟨"Synchronization failed"⟩)⟩ ∧
    cell.system.Run cell.start [.deliver .synchronizationFailed,
      .deliver .synchronizationSucceed, .call]
      ⟨⟨some ⟨"Synchronization failed"⟩, true⟩, .left (.ok ())⟩ :=
  ⟨rfl, .cons rfl (.cons rfl (.cons rfl (.refl _))),
    .cons rfl (.cons rfl (.cons rfl (.refl _)))⟩

end Received
end LibCoreCmd.Commands

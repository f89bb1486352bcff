import LibCoreCmd.Transition

/-! A value under a lock, written by deliveries from any thread, and one thread that waits on a
condition variable until the value is ready. -/
namespace Monitor
open Transition

universe u v w

/-- What a delivery does to the value, whether it wakes the waiting thread, when the value is
ready, and what the waiting thread makes of it. A delivery that wakes nobody changes nothing. -/
structure Cell (σ : Type u) (δ : Type v) (ρ : Type w) where
  init : σ
  put : σ → δ → σ
  notifies : δ → Bool
  ready : σ → Bool
  outcome : σ → ρ
  silent : ∀ s d, notifies d = false → put s d = s

/-- Where the waiting thread stands: it has not come yet, sleeps without the lock, is awake but
still to get the lock back, or has left. -/
inductive Waiter (ρ : Type w) where
  | outside
  | asleep
  | awake
  | left (r : ρ)
deriving DecidableEq, Repr

structure State (σ : Type u) (ρ : Type w) where
  shared : σ
  waiter : Waiter ρ
deriving DecidableEq, Repr

/-- Deliveries hold the lock from their start to their end. -/
inductive Action (δ : Type v) where
  | deliver (d : δ)
  /-- The waiting thread comes, wakes up for no reason, and gets the lock back. -/
  | call
  | spurious
  | resume
deriving DecidableEq, Repr

variable {σ : Type u} {δ : Type v} {ρ : Type w} (C : Cell σ δ ρ) {s t : State σ ρ} {a : Action δ}
  {past : List (Action δ)} {r : ρ} {d : δ}

def Waiter.notified : Waiter ρ → Waiter ρ
  | .asleep => .awake
  | waiter => waiter

namespace Cell

def start : State σ ρ := ⟨C.init, .outside⟩

def deliver (s : State σ ρ) (d : δ) : State σ ρ :=
  ⟨C.put s.shared d, if C.notifies d then s.waiter.notified else s.waiter⟩

/-- The waiting thread has the lock and tests the value. -/
def test (s : State σ ρ) : State σ ρ :=
  { s with waiter := if C.ready s.shared then .left (C.outcome s.shared) else .asleep }

def next (s : State σ ρ) : Action δ → Option (State σ ρ)
  | .deliver d => some (C.deliver s d)
  | .call =>
    match s.waiter with
    | .outside => some (C.test s)
    | _ => none
  | .spurious =>
    match s.waiter with
    | .asleep => some { s with waiter := .awake }
    | _ => none
  | .resume =>
    match s.waiter with
    | .awake => some (C.test s)
    | _ => none

def system : System (State σ ρ) (Action δ) := .ofNext C.next

end Cell

/-- All that a step can be. -/
inductive Move (s : State σ ρ) : Action δ → State σ ρ → Prop where
  | deliver (d : δ) : Move s (.deliver d) (C.deliver s d)
  | call : s.waiter = .outside → Move s .call (C.test s)
  | spurious : s.waiter = .asleep → Move s .spurious { s with waiter := .awake }
  | resume : s.waiter = .awake → Move s .resume (C.test s)

variable {C}

theorem move_of_step (h : C.system.step s a t) : Move C s a t := by
  change C.next s a = some t at h
  cases a with
  | deliver d =>
    cases h
    exact .deliver d
  | call =>
    cases hw : s.waiter <;> simp only [Cell.next, hw, reduceCtorEq, Option.some.injEq] at h
    exact h ▸ .call hw
  | spurious =>
    cases hw : s.waiter <;> simp only [Cell.next, hw, reduceCtorEq, Option.some.injEq] at h
    exact h ▸ .spurious hw
  | resume =>
    cases hw : s.waiter <;> simp only [Cell.next, hw, reduceCtorEq, Option.some.injEq] at h
    exact h ▸ .resume hw

def deliveries (past : List (Action δ)) : List δ :=
  past.filterMap fun
    | .deliver d => some d
    | _ => none

@[simp] theorem deliveries_nil : deliveries ([] : List (Action δ)) = [] := rfl

@[simp] theorem deliveries_append {past later : List (Action δ)} :
    deliveries (past ++ later) = deliveries past ++ deliveries later := by
  simp [deliveries]

@[simp] theorem deliveries_deliver : deliveries (.deliver d :: past) = d :: deliveries past := by
  simp [deliveries]

@[simp] theorem deliveries_call : deliveries (.call :: past) = deliveries past := by
  simp [deliveries]

@[simp] theorem deliveries_spurious : deliveries (.spurious :: past) = deliveries past := by
  simp [deliveries]

@[simp] theorem deliveries_resume : deliveries (.resume :: past) = deliveries past := by
  simp [deliveries]

/-- What the deliveries of a run make of the value. -/
def Cell.after (C : Cell σ δ ρ) (past : List (Action δ)) : σ :=
  (deliveries past).foldl C.put C.init

theorem shared_run (h : C.system.Run C.start past s) : s.shared = C.after past := by
  refine h.carries (P := fun past s => s.shared = C.after past) rfl ?_
  intro past s a t hs hstep
  cases move_of_step hstep with
  | deliver d => simp [Cell.deliver, Cell.after, hs]
  | call | spurious | resume => simpa [Cell.test, Cell.after] using hs

/-- No wake-up is missed: while the thread sleeps the value is not ready. -/
theorem not_ready_of_asleep (h : C.system.Run C.start past s) (hw : s.waiter = .asleep) :
    C.ready s.shared = false := by
  refine h.invariant (P := fun s => s.waiter = .asleep → C.ready s.shared = false) nofun ?_ hw
  intro s a t hs hstep hw
  have tested : (C.test s).waiter = .asleep → C.ready s.shared = false := by
    intro hw
    cases hr : C.ready s.shared with
    | false => rfl
    | true => simp [Cell.test, hr] at hw
  cases move_of_step hstep with
  | deliver d =>
    cases hn : C.notifies d with
    | false =>
      simp only [Cell.deliver, hn, Bool.false_eq_true, if_false] at hw
      simpa only [Cell.deliver, C.silent s.shared d hn] using hs hw
    | true =>
      cases hsw : s.waiter <;> simp [Cell.deliver, hn, hsw, Waiter.notified] at hw
  | call | resume => exact tested hw
  | spurious => cases hw

theorem not_asleep_of_ready (h : C.system.Run C.start past s) (hr : C.ready s.shared = true) :
    s.waiter ≠ .asleep := by
  intro hw
  rw [not_ready_of_asleep h hw] at hr
  cases hr

/-- A thread that leaves has seen the value ready, and takes its outcome. -/
theorem leaves_with (h : C.system.step s a t) (hs : ∀ r, s.waiter ≠ .left r)
    (ht : t.waiter = .left r) : C.ready s.shared = true ∧ r = C.outcome s.shared ∧
      (a = .call ∨ a = .resume) := by
  have tested : (C.test s).waiter = .left r →
      C.ready s.shared = true ∧ r = C.outcome s.shared := by
    intro hw
    cases hr : C.ready s.shared with
    | false => simp [Cell.test, hr] at hw
    | true => simpa [Cell.test, hr, eq_comm] using hw
  cases move_of_step h with
  | deliver d =>
    exfalso
    cases hn : C.notifies d <;> cases hsw : s.waiter <;>
      simp_all [Cell.deliver, Waiter.notified]
  | call => exact ⟨(tested ht).1, (tested ht).2, Or.inl rfl⟩
  | resume => exact ⟨(tested ht).1, (tested ht).2, Or.inr rfl⟩
  | spurious => cases ht

/-- Whoever has left does not come back. -/
theorem left_step (h : C.system.step s a t) (hs : s.waiter = .left r) : t.waiter = .left r := by
  cases move_of_step h with
  | deliver d => simp [Cell.deliver, hs, Waiter.notified]
  | call hw | spurious hw | resume hw =>
    rw [hs] at hw
    cases hw

/-- Once the value is ready, nothing keeps the thread from leaving. -/
theorem can_leave (h : C.system.Run C.start past s) (hr : C.ready s.shared = true)
    (hs : ∀ r, s.waiter ≠ .left r) :
    ∃ a t, C.system.step s a t ∧ t.waiter = .left (C.outcome s.shared) := by
  have tested : (C.test s).waiter = .left (C.outcome s.shared) := by simp [Cell.test, hr]
  cases hw : s.waiter with
  | outside => exact ⟨.call, C.test s, by simp [Cell.system, System.ofNext, Cell.next, hw], tested⟩
  | asleep => exact (not_asleep_of_ready h hr hw).elim
  | awake => exact ⟨.resume, C.test s, by simp [Cell.system, System.ofNext, Cell.next, hw], tested⟩
  | left r => exact (hs r hw).elim

end Monitor

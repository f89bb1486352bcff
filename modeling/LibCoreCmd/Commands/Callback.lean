import LibCoreCmd.Monitor
import LibCoreCmd.Commands.Library

/-! `Callback` and `sync`: one thread waits for the result of an asynchronous call, which any
thread may deliver, and deliver again. -/
namespace LibCoreCmd.Commands
open Transition Monitor

universe u

/-- The arguments of one `onCallback`. A null pointer and an empty list option are `none`. -/
structure Delivery (α : Type u) where
  value : Option α
  error : Option Error := none
deriving DecidableEq, Repr

/-- The fields that the lock guards. -/
structure Callback (α : Type u) where
  error : Option Error := none
  result : Option α := none
deriving DecidableEq, Repr

variable {α : Type u} {cb : Callback α} {d : Delivery α}
  {s t : State (Callback α) (Except Exception (Option α))} {a : Monitor.Action (Delivery α)}
  {past : List (Monitor.Action (Delivery α))}

/-- What `sync` should make of a delivery. -/
def Delivery.verdict (d : Delivery α) : Except Exception (Option α) :=
  match d.error with
  | some error => .error ⟨error.message⟩
  | none => .ok d.value

/-- The delivery of an answer that is not empty. -/
def Delivery.ofAnswer : Except Error α → Delivery α
  | .ok value => ⟨some value, none⟩
  | .error error => ⟨none, some error⟩

namespace Callback

def onCallback (cb : Callback α) (d : Delivery α) : Callback α :=
  match d.error with
  | some error => { cb with error := some error }
  | none => { cb with result := d.value }

/-- What `WaitForResult` waits for. -/
def ready (cb : Callback α) : Bool :=
  cb.error.isSome || cb.result.isSome

/-- What `WaitForResult` does when it has waited. -/
def waitForResult (cb : Callback α) : Except Exception (Option α) :=
  match cb.result with
  | some value => .ok (some value)
  | none => .error ⟨(cb.error.map (·.message)).getD ""⟩

def cell : Cell (Callback α) (Delivery α) (Except Exception (Option α)) where
  init := {}
  put := onCallback
  notifies _ := true
  ready := ready
  outcome := waitForResult
  silent _ _ h := by cases h

def Left (s : State (Callback α) (Except Exception (Option α))) : Prop :=
  ∃ r, s.waiter = .left r

/-- Where a delivery takes nothing back: the first must not be empty, and a later one must leave
the result as it is, unless the waiting thread has gone. -/
def Harmless (s : State (Callback α) (Except Exception (Option α))) :
    Monitor.Action (Delivery α) → Prop
  | .deliver ⟨_, some error⟩ =>
    Left s ∨ s.shared.result.isSome ∨ ∀ e ∈ s.shared.error, e.message = error.message
  | .deliver ⟨some value, none⟩ =>
    Left s ∨ s.shared.result = some value ∨ (s.shared.result = none ∧ s.shared.error = none)
  | .deliver ⟨none, none⟩ =>
    s.shared.error.isSome ∧ (Left s ∨ s.shared.result = none)
  | _ => True

/-- After a delivery the wait is over, and its end is what the first delivery says. -/
structure Released (past : List (Monitor.Action (Delivery α)))
    (s : State (Callback α) (Except Exception (Option α))) : Prop where
  ready : deliveries past ≠ [] → s.shared.ready = true
  awake : deliveries past ≠ [] → s.waiter ≠ .asleep
  leaves : deliveries past ≠ [] → ¬ Left s → ∃ a t, cell.system.step s a t ∧ Left t
  verdict : ∀ r, s.waiter = .left r → ∃ d, (deliveries past).head? = some d ∧ r = d.verdict

@[simp] theorem not_ready_init : ready (α := α) {} = false := rfl

/-- The first delivery decides, if it is not empty. -/
theorem waitForResult_first (h : (onCallback {} d).ready = true) :
    (onCallback {} d).waitForResult = d.verdict := by
  obtain ⟨value, error⟩ := d
  cases error with
  | some error => rfl
  | none =>
    cases value with
    | some value => rfl
    | none => cases h

theorem harmless_first (hs : s.shared = {}) (hl : ¬ Left s) :
    Harmless s (.deliver d) ↔ (s.shared.onCallback d).ready = true := by
  obtain ⟨value, error⟩ := d
  cases error <;> cases value <;> simp [Harmless, onCallback, ready, hs, hl]

/-- Once the value is ready, the harmless deliveries are those that keep it so and keep what the
thread will leave with. -/
theorem harmless_later (hr : s.shared.ready = true) :
    Harmless s (.deliver d) ↔ (s.shared.onCallback d).ready = true ∧
      (Left s ∨ (s.shared.onCallback d).waitForResult = s.shared.waitForResult) := by
  obtain ⟨⟨error, result⟩, waiter⟩ := s
  obtain ⟨value, error'⟩ := d
  cases error <;> cases result <;> cases value <;> cases error' <;>
    simp_all [Harmless, onCallback, ready, waitForResult, eq_comm]

/-- What the first delivery has decided. -/
structure Decided (d : Delivery α) (s : State (Callback α) (Except Exception (Option α))) :
    Prop where
  ready : s.shared.ready = true
  left : ∀ r, s.waiter = .left r → r = d.verdict
  waiting : ¬ Left s → s.shared.waitForResult = d.verdict

theorem left_deliver : Left (cell.deliver s d) ↔ Left s := by
  cases hw : s.waiter <;> simp [Left, Cell.deliver, cell, Waiter.notified, hw]

theorem decided_first (hs : s.shared = {}) (hl : ¬ Left s) (hd : Harmless s (.deliver d)) :
    Decided d (cell.deliver s d) := by
  have hready := (harmless_first hs hl).mp hd
  refine ⟨hready, ?_, fun _ => ?_⟩
  · intro r hr
    exact (hl (left_deliver.mp ⟨r, hr⟩)).elim
  · change (s.shared.onCallback d).waitForResult = d.verdict
    rw [hs] at hready ⊢
    exact waitForResult_first hready

theorem Decided.later {d d' : Delivery α} (h : Decided d s) (hd : Harmless s (.deliver d')) :
    Decided d (cell.deliver s d') := by
  obtain ⟨hready, hout⟩ := (harmless_later h.ready).mp hd
  refine ⟨hready, ?_, ?_⟩
  · intro r hr
    obtain ⟨r', hr'⟩ := left_deliver.mp ⟨r, hr⟩
    have heq : (cell.deliver s d').waiter = .left r' :=
      left_step (C := cell) (a := .deliver d') rfl hr'
    rw [hr, Waiter.left.injEq] at heq
    exact heq.trans (h.left r' hr')
  · intro hl
    rw [left_deliver] at hl
    exact (hout.resolve_left hl).trans (h.waiting hl)

theorem Decided.test (h : Decided d s) (hl : ¬ Left s) : Decided d (cell.test s) := by
  have hw : (cell.test s).waiter = .left s.shared.waitForResult := by
    simp [Cell.test, cell, h.ready]
  refine ⟨h.ready, ?_, fun hl' => (hl' ⟨_, hw⟩).elim⟩
  intro r hr
  rw [hw, Waiter.left.injEq] at hr
  exact hr.symm.trans (h.waiting hl)

/-- The invariant of the runs in which every delivery is harmless: nothing has come, or the
first delivery has decided. -/
theorem decided_run (h : (cell.system.restrict Harmless).Run cell.start past s) :
    (deliveries past = [] ∧ s.shared = {} ∧ ¬ Left s) ∨
    ∃ d, (deliveries past).head? = some d ∧ Decided d s := by
  refine h.carries (P := fun past s => (deliveries past = [] ∧ s.shared = {} ∧ ¬ Left s) ∨
    ∃ d, (deliveries past).head? = some d ∧ Decided d s) ?_ ?_
  · exact Or.inl ⟨rfl, rfl, by simp [Left, Cell.start]⟩
  · rintro past s a t hs ⟨hok, hstep⟩
    have tested (hl : ¬ Left s) : (deliveries past = [] ∧ (cell.test s).shared = {} ∧
        ¬ Left (cell.test s)) ∨
        ∃ d, (deliveries past).head? = some d ∧ Decided d (cell.test s) := by
      rcases hs with ⟨hnone, hinit, -⟩ | ⟨d, hd, hdec⟩
      · exact Or.inl ⟨hnone, hinit, by simp [Left, Cell.test, cell, hinit]⟩
      · exact Or.inr ⟨d, hd, hdec.test hl⟩
    cases move_of_step hstep with
    | deliver d =>
      right
      rcases hs with ⟨hnone, hinit, hl⟩ | ⟨d', hd', hdec⟩
      · exact ⟨d, by simp [hnone], decided_first hinit hl hok⟩
      · exact ⟨d', by simp [hd'], hdec.later hok⟩
    | call hw => simpa using tested (by simp [Left, hw])
    | resume hw => simpa using tested (by simp [Left, hw])
    | spurious hw =>
      rcases hs with ⟨hnone, hinit, -⟩ | ⟨d, hd, hdec⟩
      · exact Or.inl ⟨by simpa using hnone, hinit, by simp [Left]⟩
      · refine Or.inr ⟨d, by simpa using hd, hdec.ready, fun r hr => ?_, fun _ => ?_⟩
        · cases hr
        · exact hdec.waiting (by simp [Left, hw])

theorem released_of_decided (h : cell.system.Run cell.start past s)
    (hd : (deliveries past).head? = some d) (hdec : Decided d s) : Released past s := by
  refine ⟨fun _ => hdec.ready, fun _ => not_asleep_of_ready h hdec.ready, ?_, ?_⟩
  · intro _ hl
    obtain ⟨a, t, hstep, ht⟩ := can_leave h hdec.ready fun r hr => hl ⟨r, hr⟩
    exact ⟨a, t, hstep, _, ht⟩
  · intro r hr
    exact ⟨d, hd, hdec.left r hr⟩

theorem released_run (h : (cell.system.restrict Harmless).Run cell.start past s) :
    Released past s := by
  rcases decided_run h with ⟨hnone, -, hl⟩ | ⟨d, hd, hdec⟩
  · exact ⟨fun hd => (hd hnone).elim, fun hd => (hd hnone).elim, fun hd => (hd hnone).elim,
      fun r hr => (hl ⟨r, hr⟩).elim⟩
  · exact released_of_decided (run_of_restrict h) hd hdec

/-- The commands take `sync` at its result: what the thread leaves with when the answer of a
call is delivered first. -/
theorem left_sync {β : Type} {answer : Except Error β} {w : World}
    {past : List (Monitor.Action (Delivery β))}
    {s : State (Callback β) (Except Exception (Option β))} {r : Except Exception (Option β)}
    (h : (cell.system.restrict Harmless).Run cell.start past s)
    (hd : (deliveries past).head? = some (.ofAnswer answer)) (hr : s.waiter = .left r) :
    (sync answer w).1.map some = r := by
  obtain ⟨d, hd', hv⟩ := (released_run h).verdict r hr
  rw [hd, Option.some.injEq] at hd'
  subst hd'
  rw [hv]
  cases answer <;> rfl

/-- A delivery that is not harmless, made after harmless ones, ends the wait with something
else, or leaves it without an end. -/
theorem not_released_of_harmful (h : (cell.system.restrict Harmless).Run cell.start past s)
    (hd : ¬ Harmless s (.deliver d)) : ∃ later t,
      cell.system.Run cell.start (past ++ .deliver d :: later) t ∧
      ¬ Released (past ++ .deliver d :: later) t := by
  have hrun : cell.system.Run cell.start (past ++ [.deliver d]) (cell.deliver s d) :=
    (run_of_restrict h).snoc rfl
  have unready (hr : (s.shared.onCallback d).ready ≠ true) : ∃ later t,
      cell.system.Run cell.start (past ++ .deliver d :: later) t ∧
      ¬ Released (past ++ .deliver d :: later) t :=
    ⟨[], _, hrun, fun hrel => hr (hrel.ready (by simp))⟩
  rcases decided_run h with ⟨-, hinit, hl⟩ | ⟨d', hd', hdec⟩
  · exact unready fun hr => hd ((harmless_first hinit hl).mpr hr)
  · by_cases hr : (s.shared.onCallback d).ready = true
    · have hl : ¬ Left s := fun hl => hd ((harmless_later hdec.ready).mpr ⟨hr, Or.inl hl⟩)
      obtain ⟨a, t, hstep, ht⟩ := can_leave hrun hr
        fun r hw => hl (left_deliver.mp ⟨r, hw⟩)
      refine ⟨[a], t, by simpa using hrun.snoc hstep, fun hrel => ?_⟩
      obtain ⟨d'', hd'', hv⟩ := hrel.verdict _ ht
      have heq : d' = d'' := by simpa [hd'] using hd''
      refine hd ((harmless_later hdec.ready).mpr ⟨hr, Or.inr ?_⟩)
      exact hv.trans (heq ▸ (hdec.waiting hl).symm)
    · exact unready hr

/-- Harmless deliveries always release the waiting thread with the first of them, whatever the
schedule; any other delivery can undo that. -/
theorem sync_released (α : Type u) :
    (∀ past s, ((cell (α := α)).system.restrict Harmless).Run cell.start past s →
      Released past s) ∧
    (∀ past s d, ((cell (α := α)).system.restrict Harmless).Run cell.start past s →
      ¬ Harmless s (.deliver d) → ∃ later t,
        cell.system.Run cell.start (past ++ .deliver d :: later) t ∧
        ¬ Released (past ++ .deliver d :: later) t) := by
  exact ⟨fun past s => released_run, fun past s d => not_released_of_harmful⟩

/-- The thread waits, a value comes, the thread leaves with it, and an error comes too late; an
empty list that comes first ends no wait. -/
theorem sync_released_late_error :
    Released [.call, .deliver ⟨some 3, none⟩, .resume, .deliver ⟨none, some ⟨"late"⟩⟩]
      ⟨{ error := some ⟨"late"⟩, result := some 3 }, .left (.ok (some 3))⟩ ∧
    ∃ later t, (cell (α := Nat)).system.Run cell.start (.deliver ⟨none, none⟩ :: later) t ∧
      ¬ Released (.deliver ⟨none, none⟩ :: later) t :=
  ⟨(sync_released Nat).1 _ _ (.cons ⟨trivial, rfl⟩ (.cons ⟨by simp [Harmless, cell, Cell.start,
      Cell.test], rfl⟩ (.cons ⟨trivial, rfl⟩ (.cons ⟨Or.inl ⟨_, rfl⟩, rfl⟩ (.refl _))))),
    (sync_released Nat).2 [] _ ⟨none, none⟩ (.refl _) (by simp [Harmless, cell, Cell.start])⟩

/-- The waiting thread sleeps on after a delivery without value and without error. -/
theorem sync_blocked_by_empty :
    (cell (α := Nat)).system.Run cell.start [.call, .deliver ⟨none, none⟩, .resume]
      ⟨{}, .asleep⟩ ∧
    ¬ Released (α := Nat) [.call, .deliver ⟨none, none⟩, .resume] ⟨{}, .asleep⟩ := by
  refine ⟨.cons rfl (.cons rfl (.cons rfl (.refl _))), fun h => ?_⟩
  exact h.awake (by simp) rfl

end Callback

end LibCoreCmd.Commands

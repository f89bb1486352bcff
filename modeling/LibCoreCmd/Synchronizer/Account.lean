import LibCoreCmd.Async.Deffered

/-! `synchronizeAccount` and the two places that release the synchronizer: the last step of a
synchronization that succeeds, and the callback that completes the notifier. There is no third
one for a synchronization that throws before it has a future. -/
namespace LibCoreCmd.Synchronizer
open Transition Async

/-- Where a synchronization stands: on its way, ended by an exception before there was a future,
past `_currentAccount = nullptr` at its end but before the callback, or past the callback, with
its result. -/
inductive Stage where
  | running
  | aborted
  | released
  | finished (result : Try Unit)
deriving DecidableEq

/-- Synchronizations and notifiers are numbered in the order of their start; `notified` are the
notifiers that were completed, each with the result it got. -/
structure AccountSynchronizer (α : Type) where
  currentAccount : Option α := none
  notifier : Option Nat := none
  stages : List Stage := []
  notified : List (Nat × Try Unit) := []
  crashed : Bool := false
deriving DecidableEq

inductive Event (α : Type) where
  /-- `synchronizeAccount(account)`; `start` is what becomes of the part of a synchronization
  that comes before its first future, should the call start one. -/
  | call (account : α) (start : Try Unit)
  /-- The end of the last `map`, which holds no lock. -/
  | release (n : Nat)
  /-- The callback of `onComplete`. -/
  | complete (n : Nat) (result : Try Unit)
deriving DecidableEq

variable {α : Type} [DecidableEq α] {s t : AccountSynchronizer α} {a : Event α}
  {as : List (Event α)} {n m : Nat} {r start : Try Unit} {account : α}

def Stage.begun : Try Unit → Stage
  | .ok () => .running
  | .error _ => .aborted

namespace AccountSynchronizer

/-- A synchronization is started, which has a future or throws. -/
def launch (s : AccountSynchronizer α) (account : α) (start : Try Unit) : AccountSynchronizer α :=
  { s with
    currentAccount := some account
    notifier := some s.stages.length
    stages := s.stages ++ [.begun start] }

/-- The caller gets the notifier, or an exception: its synchronization's own, or the one for a
synchronizer that has another account. -/
def synchronizeAccount (s : AccountSynchronizer α) (account : α) (start : Try Unit) :
    Try (Option Nat) × AccountSynchronizer α :=
  match s.currentAccount with
  | none =>
    (start.map fun _ => some s.stages.length, s.launch account start)
  | some current =>
    if account ≠ current then (.error ⟨.runtimeError, "This synchronizer is already in use"⟩, s)
    else (.ok s.notifier, s)

/-- The current notifier is completed; without one a null pointer ends the process. -/
def notify (s : AccountSynchronizer α) (result : Try Unit) : AccountSynchronizer α :=
  match s.notifier with
  | some m => { s with notified := s.notified ++ [(m, result)] }
  | none => { s with crashed := true }

def complete (s : AccountSynchronizer α) (n : Nat) (result : Try Unit) : AccountSynchronizer α :=
  { s.notify result with
    notifier := none
    currentAccount := none
    stages := s.stages.set n (.finished result) }

/-- A synchronization that fails does not come to the end of the last `map`. -/
def next (s : AccountSynchronizer α) (a : Event α) : Option (AccountSynchronizer α) :=
  if s.crashed then none else
  match a with
  | .call account start => some (s.synchronizeAccount account start).2
  | .release n =>
    if s.stages[n]? = some .running then
      some { s with currentAccount := none, stages := s.stages.set n .released }
    else none
  | .complete n result =>
    if (s.stages[n]? = some .released ∧ result = .ok ()) ∨
        (s.stages[n]? = some .running ∧ result ≠ .ok ()) then some (s.complete n result)
    else none

end AccountSynchronizer

def synchronizer : System (AccountSynchronizer α) (Event α) := .ofNext AccountSynchronizer.next

/-- The current notifier is that of the synchronization that is not finished, if there is one,
and each that is finished has completed its own notifier with its own result. -/
structure Faithful (s : AccountSynchronizer α) : Prop where
  alive : s.crashed = false
  active : ∀ n, s.notifier = some n ↔
    s.stages[n]? = some .running ∨ s.stages[n]? = some .released
  finished : ∀ n r, s.stages[n]? = some (.finished r) → (n, r) ∈ s.notified

/-- The notifier can no more be completed. -/
structure Lost (s : AccountSynchronizer α) (n : Nat) : Prop where
  started : n < s.stages.length
  begun : s.stages[n]? ≠ some .aborted
  notifier : s.notifier ≠ some n
  notified : ∀ r, (n, r) ∉ s.notified

/-- The synchronizer is in use, but by no synchronization that could release it. -/
structure Blocked (s : AccountSynchronizer α) (n : Nat) : Prop where
  notifier : s.notifier = some n
  aborted : s.stages[n]? = some .aborted
  busy : s.currentAccount ≠ none
  idle : ∀ m : Nat, s.stages[m]? ≠ some Stage.running ∧ s.stages[m]? ≠ some Stage.released

/-- No call comes between the release by a synchronization and its callback, and none starts a
synchronization that throws before it has a future. -/
def Quiet (s : AccountSynchronizer α) (a : Event α) : Prop :=
  ∀ account start, a = .call account start →
    (∀ n : Nat, s.stages[n]? ≠ some Stage.released) ∧ (s.currentAccount = none → start = .ok ())

/-- What holds in every run. -/
structure Orderly (s : AccountSynchronizer α) : Prop where
  once : (s.notified.map Prod.fst).Nodup
  past : ∀ p ∈ s.notified, p.1 < s.stages.length ∧ s.notifier ≠ some p.1
  current : ∀ n, s.notifier = some n → n < s.stages.length

/-- What holds as long as the run is quiet. -/
structure Good (s : AccountSynchronizer α) : Prop where
  faithful : Faithful s
  released : ∀ n : Nat, s.stages[n]? = some Stage.released → s.currentAccount = none
  -- a call that finds no account finds no synchronization on its way
  idle : s.currentAccount = none → ∀ n : Nat, s.stages[n]? ≠ some Stage.running

section Launch
omit [DecidableEq α]

@[simp] theorem currentAccount_launch : (s.launch account start).currentAccount = some account :=
  rfl
@[simp] theorem notifier_launch : (s.launch account start).notifier = some s.stages.length := rfl
@[simp] theorem stages_launch : (s.launch account start).stages = s.stages ++ [.begun start] := rfl

end Launch

omit [DecidableEq α] in
theorem Lost.not_faithful (h : Lost s n) : ¬ Faithful s := by
  intro hf
  cases hs : s.stages[n]? with
  | none => exact absurd h.started (by simpa using hs)
  | some stage =>
    cases stage with
    | aborted => exact h.begun hs
    | running => exact h.notifier ((hf.active n).mpr (Or.inl hs))
    | released => exact h.notifier ((hf.active n).mpr (Or.inr hs))
    | finished r => exact h.notified r (hf.finished n r hs)

omit [DecidableEq α] in
theorem Blocked.not_faithful (h : Blocked s n) : ¬ Faithful s := by
  intro hf
  rcases (hf.active n).mp h.notifier with hn | hn
  · exact (h.idle n).1 hn
  · exact (h.idle n).2 hn

/-- The three ways a step can go. -/
theorem next_cases (h : s.next a = some t) :
    (∃ account start, a = .call account start ∧
      t = (s.synchronizeAccount account start).2) ∨
    (∃ n, a = .release n ∧ s.stages[n]? = some .running ∧
      t = { s with currentAccount := none, stages := s.stages.set n .released }) ∨
    ∃ n r, a = .complete n r ∧ (s.stages[n]? = some .released ∨ s.stages[n]? = some .running) ∧
      t = s.complete n r := by
  unfold AccountSynchronizer.next at h
  split at h
  · cases h
  cases a with
  | call account start => exact Or.inl ⟨account, start, rfl, by simpa using h.symm⟩
  | release n =>
    dsimp only at h
    split at h
    · exact Or.inr (Or.inl ⟨n, rfl, by assumption, by simpa using h.symm⟩)
    · cases h
  | complete n r =>
    dsimp only at h
    split at h
    · rename_i hc
      exact Or.inr (Or.inr ⟨n, r, rfl, hc.imp And.left And.left, by simpa using h.symm⟩)
    · cases h

/-- A call starts a synchronization or changes nothing. -/
theorem synchronizeAccount_cases (s : AccountSynchronizer α) (account : α) (start : Try Unit) :
    (s.currentAccount = none ∧ (s.synchronizeAccount account start).2 = s.launch account start) ∨
    (s.currentAccount ≠ none ∧ (s.synchronizeAccount account start).2 = s) := by
  unfold AccountSynchronizer.synchronizeAccount
  cases hc : s.currentAccount with
  | none => exact Or.inl ⟨rfl, rfl⟩
  | some current =>
    dsimp only
    split <;> exact Or.inr ⟨by simp, rfl⟩

omit [DecidableEq α] in
theorem mem_notify {p : Nat × Try Unit} : p ∈ (s.notify r).notified ↔
    p ∈ s.notified ∨ s.notifier = some p.1 ∧ p.2 = r := by
  unfold AccountSynchronizer.notify
  cases hn : s.notifier with
  | none => simp
  | some m => simp [Prod.ext_iff, eq_comm]

theorem orderly_next (hs : Orderly s) (h : s.next a = some t) : Orderly t := by
  rcases next_cases h with ⟨account, start, -, rfl⟩ | ⟨n, -, hn, rfl⟩ | ⟨n, r, -, hn, rfl⟩
  · rcases synchronizeAccount_cases s account start with ⟨-, he⟩ | ⟨-, he⟩
    · rw [he]
      refine ⟨hs.once, fun p hp => ?_, fun m hm => ?_⟩
      · have hlt := (hs.past p hp).1
        simp only [stages_launch, notifier_launch, List.length_append, List.length_singleton,
          ne_eq, Option.some.injEq]
        omega
      · simp only [notifier_launch, Option.some.injEq] at hm
        simp [← hm]
    · rw [he]
      exact hs
  · exact ⟨hs.once, by simpa using hs.past, by simpa using hs.current⟩
  · refine ⟨?_, fun p hp => ?_, by simp [AccountSynchronizer.complete]⟩
    · simp only [AccountSynchronizer.complete, AccountSynchronizer.notify]
      cases hm : s.notifier with
      | none => exact hs.once
      | some m =>
        simp only [List.map_append, List.map_singleton]
        refine List.nodup_append.mpr ⟨hs.once, by simp, fun x hx y hy => ?_⟩
        obtain ⟨p, hp, rfl⟩ := List.mem_map.mp hx
        have hne := (hs.past p hp).2
        simp only [List.mem_singleton] at hy
        subst hy
        simpa [hm, eq_comm] using hne
    · simp only [AccountSynchronizer.complete, List.length_set, ne_eq]
      refine ⟨?_, by simp⟩
      rcases mem_notify.mp hp with hp | ⟨hm, -⟩
      · exact (hs.past p hp).1
      · exact hs.current _ hm

omit [DecidableEq α] in
theorem stages_set {x y : Stage} (h : (s.stages.set n x)[m]? = some y) :
    (m = n ∧ y = x) ∨ (m ≠ n ∧ s.stages[m]? = some y) := by
  rw [List.getElem?_set] at h
  by_cases hm : n = m
  · simp only [hm, if_true] at h
    split at h
    · exact Or.inl ⟨hm.symm, by simpa using h.symm⟩
    · cases h
  · rw [if_neg hm] at h
    exact Or.inr ⟨Ne.symm hm, h⟩

omit [DecidableEq α] in
theorem stages_snoc {x y : Stage} (h : (s.stages ++ [x])[m]? = some y) :
    (m = s.stages.length ∧ y = x) ∨ s.stages[m]? = some y := by
  rw [List.getElem?_append] at h
  split at h
  · exact Or.inr h
  · rw [List.getElem?_singleton] at h
    split at h
    · exact Or.inl ⟨by omega, by simpa using h.symm⟩
    · cases h

omit [DecidableEq α] in
theorem stages_set_of_ne {x y : Stage} (hxy : y ≠ x) (h : (s.stages.set n x)[m]? = some y) :
    m ≠ n ∧ s.stages[m]? = some y :=
  (stages_set h).resolve_left fun hm => hxy hm.2

omit [DecidableEq α] in
theorem stages_snoc_of_ne {x y : Stage} (hxy : y ≠ x) (h : (s.stages ++ [x])[m]? = some y) :
    s.stages[m]? = some y :=
  (stages_snoc h).resolve_left fun hm => hxy hm.2

/-- A notifier that is lost stays lost. -/
theorem lost_next (hs : Lost s n) (h : s.next a = some t) : Lost t n := by
  have hlt := hs.started
  rcases next_cases h with ⟨account, start, -, rfl⟩ | ⟨m, -, hm, rfl⟩ | ⟨m, r, -, hm, rfl⟩
  · rcases synchronizeAccount_cases s account start with ⟨-, he⟩ | ⟨-, he⟩
    · rw [he]
      refine ⟨?_, fun hn => ?_, ?_, hs.notified⟩
      · simp only [stages_launch, List.length_append, List.length_singleton]
        omega
      · rcases stages_snoc hn with ⟨rfl, -⟩ | hn
        · omega
        · exact hs.begun hn
      · simp only [notifier_launch, ne_eq, Option.some.injEq]
        omega
    · rw [he]
      exact hs
  · exact ⟨by simpa using hlt, fun hn => hs.begun (stages_set_of_ne (by simp) hn).2, hs.notifier,
      hs.notified⟩
  · refine ⟨by simpa [AccountSynchronizer.complete] using hlt,
      fun hn => hs.begun (stages_set_of_ne (by simp) hn).2,
      by simp [AccountSynchronizer.complete], fun r' hr => ?_⟩
    rcases mem_notify.mp hr with hr | ⟨hn, -⟩
    · exact hs.notified r' hr
    · exact hs.notifier hn

/-- Once the synchronizer is blocked, no step changes anything. -/
theorem blocked_next (hs : Blocked s n) (h : s.next a = some t) : t = s := by
  rcases next_cases h with ⟨account, start, -, rfl⟩ | ⟨m, -, hm, rfl⟩ | ⟨m, r, -, hm, rfl⟩
  · rcases synchronizeAccount_cases s account start with ⟨hc, -⟩ | ⟨-, he⟩
    · exact (hs.busy hc).elim
    · exact he
  · exact ((hs.idle m).1 hm).elim
  · rcases hm with hm | hm
    · exact ((hs.idle m).2 hm).elim
    · exact ((hs.idle m).1 hm).elim

omit [DecidableEq α] in
/-- The callback of a synchronization that has released the account will complete the notifier
of the one that starts now. -/
theorem lost_launch (hf : Faithful s) (ho : Orderly s) (hn : s.stages[n]? = some .released) :
    Lost (s.launch account start) n := by
  have hlt : n < s.stages.length := (List.getElem?_eq_some_iff.mp hn).1
  have hcur : s.notifier = some n := (hf.active n).mpr (Or.inr hn)
  refine ⟨?_, fun hx => ?_, ?_, fun r hr => (ho.past _ hr).2 hcur⟩
  · simp only [stages_launch, List.length_append, List.length_singleton]
    omega
  · rcases stages_snoc hx with ⟨rfl, -⟩ | hx
    · omega
    · simp [hn] at hx
  · simp only [notifier_launch, ne_eq, Option.some.injEq]
    omega

omit [DecidableEq α] in
theorem blocked_launch {e : Exception}
    (hnone : ∀ n : Nat, s.stages[n]? ≠ some .running ∧ s.stages[n]? ≠ some .released) :
    Blocked (s.launch account (.error e)) s.stages.length :=
  ⟨rfl, by simp [Stage.begun], by simp,
    fun m => ⟨fun hm => (hnone m).1 (stages_snoc_of_ne (by simp [Stage.begun]) hm),
      fun hm => (hnone m).2 (stages_snoc_of_ne (by simp [Stage.begun]) hm)⟩⟩

omit [DecidableEq α] in
theorem good_launch (hf : Faithful s)
    (hnone : ∀ n : Nat, s.stages[n]? ≠ some .running ∧ s.stages[n]? ≠ some .released) :
    Good (s.launch account (.ok ())) := by
  have hreleased : ∀ n : Nat, (s.launch account (.ok ())).stages[n]? ≠ some .released :=
    fun n hn => (hnone n).2 (stages_snoc_of_ne (by simp [Stage.begun]) hn)
  refine ⟨⟨hf.alive, fun n => ⟨fun hn => ?_, fun hn => ?_⟩, fun n r hn => ?_⟩,
    fun n hn => (hreleased n hn).elim, by simp⟩
  · obtain rfl : s.stages.length = n := by simpa using hn
    exact Or.inl (by simp [Stage.begun])
  · rcases stages_snoc (hn.resolve_right (hreleased n)) with ⟨rfl, -⟩ | hn
    · rfl
    · exact ((hnone n).1 hn).elim
  · exact hf.finished n r (stages_snoc_of_ne (by simp [Stage.begun]) hn)

omit [DecidableEq α] in
/-- A call that finds the synchronizer as it should be and starts a synchronization. -/
theorem good_call (hg : Good s) (ho : Orderly s) (hc : s.currentAccount = none) :
    (Quiet s (.call account start) ∧ Good (s.launch account start)) ∨
      (¬ Quiet s (.call account start) ∧
        ∃ n, Lost (s.launch account start) n ∨ Blocked (s.launch account start) n) := by
  by_cases hrel : ∃ n : Nat, s.stages[n]? = some Stage.released
  · obtain ⟨n, hn⟩ := hrel
    refine Or.inr ⟨fun hq => (hq account start rfl).1 n hn, n, Or.inl ?_⟩
    exact lost_launch hg.faithful ho hn
  · have hnone : ∀ n : Nat, s.stages[n]? ≠ some .running ∧ s.stages[n]? ≠ some .released :=
      fun n => ⟨hg.idle hc n, fun hn => hrel ⟨n, hn⟩⟩
    cases start with
    | error e =>
      refine Or.inr ⟨fun hq => ?_, s.stages.length, Or.inr (blocked_launch hnone)⟩
      cases (hq account _ rfl).2 hc
    | ok _ =>
      refine Or.inl ⟨?_, good_launch hg.faithful hnone⟩
      rintro account' start' he
      cases he
      exact ⟨fun n => (hnone n).2, fun _ => rfl⟩

/-- A quiet step keeps things well; a call that is not quiet loses a notifier for good, or
blocks the synchronizer. -/
theorem good_next (hg : Good s) (ho : Orderly s) (h : s.next a = some t) :
    (Quiet s a ∧ Good t) ∨ (¬ Quiet s a ∧ ∃ n, Lost t n ∨ Blocked t n) := by
  obtain ⟨⟨halive, hactive, hfinished⟩, hreleased, hidle⟩ := hg
  rcases next_cases h with ⟨account, start, rfl, rfl⟩ | ⟨n, rfl, hn, rfl⟩ | ⟨n, r, rfl, hn, rfl⟩
  · rcases synchronizeAccount_cases s account start with ⟨hc, he⟩ | ⟨hc, he⟩
    · rw [he]
      exact good_call ⟨⟨halive, hactive, hfinished⟩, hreleased, hidle⟩ ho hc
    · refine Or.inl ⟨fun _ _ _ => ⟨fun n hn => hc (hreleased n hn), fun hn => (hc hn).elim⟩, ?_⟩
      rw [he]
      exact ⟨⟨halive, hactive, hfinished⟩, hreleased, hidle⟩
  · have hcur : s.notifier = some n := (hactive n).mpr (Or.inl hn)
    have hlt : n < s.stages.length := (List.getElem?_eq_some_iff.mp hn).1
    refine Or.inl ⟨fun _ _ hcall => (by cases hcall), ⟨halive, fun m => ⟨fun hm => ?_,
      fun hm => ?_⟩, fun m r hm => ?_⟩, fun _ _ => rfl, fun _ m hm => ?_⟩
    · obtain rfl : n = m := by simpa [hcur] using hm
      exact Or.inr (by simp [hlt])
    · rcases hm with hm | hm <;> rcases stages_set hm with ⟨rfl, -⟩ | ⟨-, hm⟩
      · exact hcur
      · exact (hactive m).mpr (Or.inl hm)
      · exact hcur
      · exact (hactive m).mpr (Or.inr hm)
    · exact hfinished m r (stages_set_of_ne (by simp) hm).2
    · obtain ⟨hne, hm⟩ := stages_set_of_ne (by simp) hm
      have hboth := ((hactive m).mpr (Or.inl hm)).symm.trans hcur
      exact hne (by simpa using hboth)
  · have hcur : s.notifier = some n := (hactive n).mpr hn.symm
    have honly : ∀ m, s.stages[m]? = some .running ∨ s.stages[m]? = some .released → m = n := by
      intro m hm
      simpa [hcur, eq_comm] using (hactive m).mpr hm
    have hnone : ∀ m : Nat, (s.stages.set n (.finished r))[m]? ≠ some .running ∧
        (s.stages.set n (.finished r))[m]? ≠ some .released := by
      refine fun m => ⟨fun hm => ?_, fun hm => ?_⟩ <;>
        obtain ⟨hne, hm⟩ := stages_set_of_ne (by simp) hm
      · exact hne (honly m (Or.inl hm))
      · exact hne (honly m (Or.inr hm))
    refine Or.inl ⟨fun _ _ hcall => (by cases hcall), ⟨?_, fun m => ⟨fun hm => ?_, fun hm => ?_⟩,
      fun m r' hm => ?_⟩, fun _ _ => rfl, fun _ m hm => (hnone m).1 hm⟩
    · simp [AccountSynchronizer.complete, AccountSynchronizer.notify, hcur, halive]
    · cases hm
    · exact (hm.elim (hnone m).1 (hnone m).2).elim
    · apply mem_notify.mpr
      rcases stages_set hm with ⟨rfl, hx⟩ | ⟨-, hm⟩
      · cases hx
        exact Or.inr ⟨hcur, rfl⟩
      · exact Or.inl (hfinished m r' hm)

/-- In every run each notifier is completed at most once, and a finished synchronization has
completed its own notifier, and the current one is of a synchronization that will, exactly when
no call came between the release by a synchronization and its callback, and none started a
synchronization that threw before it had a future. -/
theorem notifiers_faithful_iff (h : synchronizer.Run ({} : AccountSynchronizer α) as s) :
    (s.notified.map Prod.fst).Nodup ∧
      (Faithful s ↔ (synchronizer.restrict Quiet).Run ({} : AccountSynchronizer α) as s) := by
  have hgood : Good ({} : AccountSynchronizer α) :=
    ⟨⟨rfl, by simp, by simp⟩, by simp, by simp⟩
  have horderly : Orderly ({} : AccountSynchronizer α) := ⟨by simp, by simp, by simp⟩
  have ho : Orderly s := h.invariant horderly fun _ _ _ hs hst => orderly_next hs hst
  refine ⟨ho.once, fun hf => ?_, fun hq => ?_⟩
  · have hstay : ∀ (s : AccountSynchronizer α) a t, (∃ n, Lost s n ∨ Blocked s n) →
        synchronizer.step s a t → ∃ n, Lost t n ∨ Blocked t n := by
      rintro s a t ⟨n, hn | hn⟩ hst
      · exact ⟨n, Or.inl (lost_next hn hst)⟩
      · rw [blocked_next hn hst]
        exact ⟨n, Or.inr hn⟩
    have hor := h.restrict_or (P := Quiet) (D := fun s => ∃ n, Lost s n ∨ Blocked s n)
      (I := fun s => Orderly s ∧ (Good s ∨ ∃ n, Lost s n ∨ Blocked s n))
      ⟨horderly, Or.inl hgood⟩ ?_ ?_ fun s a t _ => hstay s a t
    · refine hor.resolve_right ?_
      rintro ⟨n, hn | hn⟩
      · exact hn.not_faithful hf
      · exact hn.not_faithful hf
    · rintro s a t ⟨ho, hs⟩ hst
      refine ⟨orderly_next ho hst, ?_⟩
      rcases hs with hg | hd
      · exact (good_next hg ho hst).imp And.right And.right
      · exact Or.inr (hstay s a t hd hst)
    · rintro s a t ⟨ho, hs⟩ hst hloud
      rcases hs with hg | hd
      · exact ((good_next hg ho hst).resolve_left fun hq => hloud hq.1).2
      · exact hstay s a t hd hst
  · have hg : Orderly s ∧ Good s := by
      refine hq.invariant (P := fun s => Orderly s ∧ Good s) ⟨horderly, hgood⟩ ?_
      rintro s a t ⟨ho, hg⟩ ⟨hquiet, hst⟩
      refine ⟨orderly_next ho hst, ?_⟩
      exact ((good_next hg ho hst).resolve_right fun hloud => hloud.1 hquiet).2
    exact hg.2.faithful

/-- A second call between the release and the callback: its notifier gets the first result, the
first notifier none, and the second callback finds no notifier. -/
def crossing : List (Event String) :=
  [.call "first" (.ok ()), .release 0, .call "second" (.ok ()), .complete 0 (.ok ()),
    .complete 1 (.error ⟨.runtimeError, ""⟩)]

theorem notifiers_faithful_iff_crossing : ∃ s, synchronizer.Run {} crossing s ∧
    s.notified = [(1, .ok ())] ∧ s.crashed = true ∧
    ¬ (synchronizer.restrict Quiet).Run ({} : AccountSynchronizer String) crossing s := by
  obtain ⟨s, hs⟩ : ∃ s, crossing.foldlM AccountSynchronizer.next {} = some s := ⟨_, rfl⟩
  have h : synchronizer.Run {} crossing s := run_ofNext.mpr hs
  have hdead : s.notified = [(1, .ok ())] ∧ s.crashed = true := by
    cases hs
    decide
  refine ⟨s, h, hdead.1, hdead.2, fun hq => ?_⟩
  have halive := ((notifiers_faithful_iff h).2.mpr hq).alive
  simp [hdead.2] at halive

end LibCoreCmd.Synchronizer

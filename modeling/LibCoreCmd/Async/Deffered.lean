import LibCoreCmd.Transition

/-! `Deffered`, the cell behind the futures of the core: a result that is set once, and the
callbacks that wait for it. Each call is one critical section, `setResult` two. -/
namespace LibCoreCmd.Async
open Transition

universe u v w

/-- The `api::ErrorCode` values that the code names; the library has more. -/
inductive ErrorCode where
  | alreadyCompleted
  | noSuchElement
  | runtimeError
  | illegalState
  | blockNotFound
  | httpError
  | apiError
  | other (code : Int)
deriving DecidableEq, Repr

structure Exception where
  errorCode : ErrorCode
  message : String
deriving DecidableEq, Repr

/-- A `Try<T>` that is complete. -/
abbrev Try (τ : Type u) := Except Exception τ

/-- A callback goes with the context that it is to run in. -/
structure Deffered (τ : Type u) (κ : Type v) where
  value : Option (Try τ) := none
  callbacks : List κ := []

variable {τ : Type u} {κ : Type v} {ι : Type w} {d : Deffered τ κ} {r : Try τ} {c : κ}

def Deffered.ensureNotCompleted (d : Deffered τ κ) : Try Unit :=
  match d.value with
  | some _ => .error ⟨.alreadyCompleted, "This promise is already completed"⟩
  | none => .ok ()

/-- Once there is a value every callback is handed to its context, in the order of the queue. A
context's `execute` is taken not to throw: it would leave the callback and the later ones in the
queue. -/
def Deffered.trigger (d : Deffered τ κ) : Deffered τ κ × List (κ × Try τ) :=
  match d.value with
  | none => (d, [])
  | some value => ({ d with callbacks := [] }, d.callbacks.map fun c => (c, value))

/-- The first section of `setResult`; the second is `trigger`. -/
def Deffered.store (d : Deffered τ κ) (result : Try τ) : Try (Deffered τ κ) :=
  d.ensureNotCompleted.map fun _ => { d with value := some result }

/-- `setValue` and `setError`, and `setResult` when nothing comes between its sections. -/
def Deffered.complete (d : Deffered τ κ) (result : Try τ) :
    Try (Deffered τ κ × List (κ × Try τ)) :=
  (d.store result).map Deffered.trigger

def Deffered.addCallback (d : Deffered τ κ) (callback : κ) : Deffered τ κ × List (κ × Try τ) :=
  { d with callbacks := d.callbacks ++ [callback] }.trigger

@[simp] theorem trigger_value : d.trigger.1.value = d.value := by
  unfold Deffered.trigger
  split <;> simp_all

@[simp] theorem trigger_callbacks : d.trigger.2.map Prod.fst ++ d.trigger.1.callbacks =
    d.callbacks := by
  unfold Deffered.trigger
  split <;> simp [Function.comp_def]

theorem trigger_executed {x : κ × Try τ} (hx : x ∈ d.trigger.2) : d.value = some x.2 := by
  unfold Deffered.trigger at hx
  split at hx <;> simp at hx
  obtain ⟨c, -, rfl⟩ := hx
  assumption

/-- Nothing is left waiting by `trigger` but for want of a value. -/
theorem trigger_idle : d.trigger.1.value = none ∨ d.trigger.1.callbacks = [] := by
  unfold Deffered.trigger
  split
  · exact Or.inl (by assumption)
  · exact Or.inr rfl

theorem store_of_none (h : d.value = none) (r : Try τ) :
    d.store r = .ok { d with value := some r } := by
  simp [Deffered.store, Deffered.ensureNotCompleted, h, Except.map]

theorem store_of_some (h : d.value = some r) (r' : Try τ) :
    d.store r' = .error ⟨.alreadyCompleted, "This promise is already completed"⟩ := by
  simp [Deffered.store, Deffered.ensureNotCompleted, h, Except.map]

theorem complete_of_none (h : d.value = none) (r : Try τ) :
    d.complete r = .ok ({ d with value := some r }.trigger) := by
  simp [Deffered.complete, store_of_none h, Except.map]

theorem complete_of_some (h : d.value = some r) (r' : Try τ) :
    d.complete r' = .error ⟨.alreadyCompleted, "This promise is already completed"⟩ := by
  simp [Deffered.complete, store_of_some h, Except.map]

inductive Call (τ : Type u) (κ : Type v) where
  | store (result : Try τ)
  | trigger
  | complete (result : Try τ)
  | addCallback (callback : κ)

/-- The result that a call wants to set. -/
def Call.result : Call τ κ → Option (Try τ)
  | .store r | .complete r => some r
  | .trigger | .addCallback _ => none

def Call.callback : Call τ κ → Option κ
  | .addCallback c => some c
  | .store _ | .trigger | .complete _ => none

/-- A cell between threads: `owing` are the threads between the sections of `setResult`,
`executed` what the contexts were handed, and `refused` the results whose call threw. -/
structure Shared (ι : Type w) (τ : Type u) (κ : Type v) where
  deffered : Deffered τ κ := {}
  owing : ι → Bool := fun _ => false
  executed : List (κ × Try τ) := []
  refused : List (Try τ) := []

variable {s t : Shared ι τ κ} {l : ι × Call τ κ} {ls past : List (ι × Call τ κ)}

/-- The results that calls wanted to set, and the callbacks that were added. -/
def results (ls : List (ι × Call τ κ)) : List (Try τ) := ls.filterMap fun l => l.2.result

def added (ls : List (ι × Call τ κ)) : List κ := ls.filterMap fun l => l.2.callback

/-- What has become of the calls so far. -/
structure Accounted (past : List (ι × Call τ κ)) (s : Shared ι τ κ) : Prop where
  value : s.deffered.value = (results past).head?
  refused : s.refused = (results past).tail
  callbacks : s.executed.map Prod.fst ++ s.deffered.callbacks = added past
  executed : ∀ x ∈ s.executed, s.deffered.value = some x.2
  owed : (∃ i, s.owing i = true) ∨ s.deffered.value = none ∨ s.deffered.callbacks = []

theorem results_snoc : results (past ++ [l]) = results past ++ l.2.result.toList := by
  cases h : l.2.result <;> simp [results, h]

theorem added_snoc : added (past ++ [l]) = added past ++ l.2.callback.toList := by
  cases h : l.2.callback <;> simp [added, h]

theorem accounted_init : Accounted [] ({} : Shared ι τ κ) :=
  ⟨rfl, rfl, rfl, by simp, Or.inr (Or.inl rfl)⟩

/-- A refused call leaves everything but the list of refusals as it was. -/
theorem Accounted.refuse (hs : Accounted past s) (hv : s.deffered.value ≠ none)
    (hr : l.2.result = some r) (hc : l.2.callback = none) :
    Accounted (past ++ [l]) { s with refused := s.refused ++ [r] } := by
  obtain ⟨first, rest, hp⟩ : ∃ first rest, results past = first :: rest := by
    cases hp : results past with
    | nil => exact (hv (by rw [hs.value, hp]; rfl)).elim
    | cons first rest => exact ⟨first, rest, rfl⟩
  refine ⟨?_, ?_, ?_, hs.executed, hs.owed⟩
  · rw [results_snoc, hp]
    exact hs.value.trans (by rw [hp]; rfl)
  · rw [results_snoc, hp, hr, hs.refused, hp]
    rfl
  · rw [added_snoc, hc]
    simpa using hs.callbacks

/-- An accepted call sets the first result; nothing was handed over before. -/
theorem Accounted.accept (hs : Accounted past s) (hv : s.deffered.value = none)
    (hr : l.2.result = some r) (hc : l.2.callback = none) :
    results (past ++ [l]) = [r] ∧ s.executed = [] ∧ s.refused = [] ∧
      s.deffered.callbacks = added (past ++ [l]) := by
  have hp : results past = [] := List.head?_eq_none_iff.mp (hs.value.symm.trans hv)
  have he : s.executed = [] := by
    cases hx : s.executed with
    | nil => rfl
    | cons x xs =>
      have hx := hs.executed x (by simp [hx])
      simp [hv] at hx
  refine ⟨by simp [results_snoc, hp, hr], he, by simp [hs.refused, hp], ?_⟩
  rw [added_snoc, hc, ← hs.callbacks, he]
  simp

variable [DecidableEq ι]

/-- One section of one thread. In the midst of `setResult` a thread can only finish it. -/
def Shared.next (s : Shared ι τ κ) : ι × Call τ κ → Option (Shared ι τ κ)
  | (i, .trigger) => some { s with
      deffered := s.deffered.trigger.1
      owing := Function.update s.owing i false
      executed := s.executed ++ s.deffered.trigger.2 }
  | (i, .store r) =>
    if s.owing i then none else
    match s.deffered.store r with
    | .ok d => some { s with deffered := d, owing := Function.update s.owing i true }
    | .error _ => some { s with refused := s.refused ++ [r] }
  | (i, .complete r) =>
    if s.owing i then none else
    match s.deffered.complete r with
    | .ok (d, out) => some { s with deffered := d, executed := s.executed ++ out }
    | .error _ => some { s with refused := s.refused ++ [r] }
  | (i, .addCallback c) =>
    if s.owing i then none else
    some { s with
      deffered := (s.deffered.addCallback c).1
      executed := s.executed ++ (s.deffered.addCallback c).2 }

def shared : System (Shared ι τ κ) (ι × Call τ κ) := .ofNext Shared.next

/-- Each section keeps account of the calls. -/
theorem accounted_next (hs : Accounted past s) (h : s.next l = some t) :
    Accounted (past ++ [l]) t := by
  obtain ⟨i, call⟩ := l
  cases call with
  | trigger =>
    simp only [Shared.next, Option.some.injEq] at h
    subst h
    refine ⟨?_, ?_, ?_, ?_, Or.inr ?_⟩
    · simpa [results_snoc, Call.result] using hs.value
    · simpa [results_snoc, Call.result] using hs.refused
    · simpa [added_snoc, Call.callback] using hs.callbacks
    · intro x hx
      rcases List.mem_append.mp hx with hx | hx
      · simpa using hs.executed x hx
      · simpa using trigger_executed hx
    · simpa using trigger_idle (d := s.deffered)
  | store r =>
    simp only [Shared.next] at h
    split at h
    · cases h
    cases hv : s.deffered.value with
    | none =>
      rw [store_of_none hv, Option.some.injEq] at h
      subst h
      obtain ⟨hr, he, hf, hc⟩ := hs.accept (l := (i, .store r)) hv rfl rfl
      exact ⟨by rw [hr]; rfl, by rw [hr]; exact hf, by rw [← hc, he]; rfl, by simp [he],
        Or.inl ⟨i, by simp⟩⟩
    | some first =>
      rw [store_of_some hv, Option.some.injEq] at h
      subst h
      exact hs.refuse (by simp [hv]) rfl rfl
  | complete r =>
    simp only [Shared.next] at h
    split at h
    · cases h
    cases hv : s.deffered.value with
    | none =>
      rw [complete_of_none hv, Option.some.injEq] at h
      subst h
      obtain ⟨hr, he, hf, hc⟩ := hs.accept (l := (i, .complete r)) hv rfl rfl
      refine ⟨by simp [hr], by rw [hr]; exact hf, ?_, ?_, Or.inr trigger_idle⟩
      · simp [he, ← hc]
      · intro x hx
        rw [he, List.nil_append] at hx
        simpa using trigger_executed hx
    | some first =>
      rw [complete_of_some hv, Option.some.injEq] at h
      subst h
      exact hs.refuse (by simp [hv]) rfl rfl
  | addCallback c =>
    simp only [Shared.next] at h
    split at h
    · cases h
    rw [Option.some.injEq] at h
    subst h
    refine ⟨?_, ?_, ?_, ?_, Or.inr trigger_idle⟩
    · simpa [results_snoc, Call.result, Deffered.addCallback] using hs.value
    · simpa [results_snoc, Call.result] using hs.refused
    · simp [added_snoc, Call.callback, Deffered.addCallback, ← hs.callbacks]
    · intro x hx
      rcases List.mem_append.mp hx with hx | hx
      · simpa [Deffered.addCallback] using hs.executed x hx
      · simpa [Deffered.addCallback] using trigger_executed hx

theorem accounted_of_run (h : shared.Run {} ls s) : Accounted ls s :=
  h.carries accounted_init fun _ _ _ _ hs hst => accounted_next hs hst

/-- However the sections of the threads interleave, the first result that was to be set is the
value, every later attempt throws, and once no thread is in the midst of setting it, every
callback has been handed to its context once, with this value, in the order of adding. -/
theorem deffered_delivers (h : shared.Run {} ls s) :
    s.deffered.value = (results ls).head? ∧ s.refused = (results ls).tail ∧
      ((∀ i, s.owing i = false) → s.executed =
        (results ls).head?.elim [] fun r => (added ls).map fun c => (c, r)) := by
  have ha := accounted_of_run h
  refine ⟨ha.value, ha.refused, fun hi => ?_⟩
  have handed : s.deffered.value ≠ none → s.executed.map Prod.fst = added ls := by
    intro hv
    rcases ha.owed with ⟨i, ho⟩ | hn | hc
    · simp [hi i] at ho
    · exact (hv hn).elim
    · simpa [hc] using ha.callbacks
  rw [← ha.value]
  cases hv : s.deffered.value with
  | none =>
    cases hx : s.executed with
    | nil => rfl
    | cons x xs =>
      have hsome := ha.executed x (by simp [hx])
      simp [hv] at hsome
  | some r =>
    have hsame : s.executed = (s.executed.map Prod.fst).map fun c => (c, r) := by
      rw [List.map_map]
      refine (List.map_id' s.executed).symm.trans (List.map_congr_left fun x hx => ?_)
      have hr := (ha.executed x hx).symm.trans hv
      rw [Option.some.injEq] at hr
      exact Prod.ext rfl hr
    rw [hsame, handed (by simp [hv])]
    rfl

/-- A callback is added while one thread is in the midst of setting 3, and another wants to
set 4. -/
def race : List (Fin 2 × Call Nat String) :=
  [(0, .addCallback "a"), (0, .store (.ok 3)), (1, .addCallback "b"), (1, .complete (.ok 4)),
    (0, .trigger)]

theorem deffered_delivers_race : ∃ s : Shared (Fin 2) Nat String, shared.Run {} race s ∧
    s.executed = [("a", .ok 3), ("b", .ok 3)] ∧ s.refused = [.ok 4] := by
  obtain ⟨s, hs⟩ : ∃ s, race.foldlM Shared.next {} = some s := ⟨_, rfl⟩
  have h : shared.Run {} race s := run_ofNext.mpr hs
  obtain ⟨-, hr, he⟩ := deffered_delivers h
  have hidle : ∀ i, s.owing i = false := by
    cases hs
    decide
  exact ⟨s, h, he hidle, hr⟩

end LibCoreCmd.Async

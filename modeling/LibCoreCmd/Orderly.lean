import LibCoreCmd.Main

/-! Whether the thread of the execution context is stopped in every run that started it, and
what `main` returns. -/
namespace LibCoreCmd
open Program Commands

/-- The program comes to start the thread. -/
structure Starts (env : Environment) (applicationParams : ApplicationParameters)
    (options : List String) : Prop where
  parsed : env.parseParameters = .ok (applicationParams, options)
  notHelp : applicationParams.command ≠ .help
  executionContext : env.executionContext = none
  executionThread : env.executionThread = none

/-- The thread is stopped before the context is destroyed and before `main` is left. -/
def StopsFirst (events : List Event) : Prop :=
  ∀ past e rest, events = past ++ e :: rest → .start ∈ past →
    e = .destroy ∨ e = .terminate ∨ (∃ code, e = .ret code) → .stop ∈ past

/-- An exception leaves the `try` block after the thread was started. -/
def Raised (env : Environment) (applicationParams : ApplicationParameters) (options : List String)
    (p : Process) : Prop :=
  ∃ t q, runCommand env applicationParams options p = (.error (.thrown t), q)

/-- The process when the thread has been started. -/
def started (w : World) : Process where
  world := w
  joinable := true
  events := [.start]

/-- The thread is stopped first, and `main` fails exactly if there was an exception. -/
structure Orderly (env : Environment) (applicationParams : ApplicationParameters)
    (options : List String) (w : World) : Prop where
  stopsFirst : StopsFirst (main env { world := w }).2.events
  code : ∃ code, (main env { world := w }).1 = .ok code ∧
    (code = EXIT_FAILURE ↔
      Raised env applicationParams options (started w))

/-- Nothing stands in the way of making the pool. -/
structure MakesPool (env : Environment) (applicationParams : ApplicationParameters) : Prop where
  httpClient : env.httpClient = none
  pathExists : env.pathExists applicationParams.dataFolder = true
  threadDispatcher : env.threadDispatcher = none
  logPrinter : env.logPrinter = none
  getSqlite3Backend : env.getSqlite3Backend = none
  newInstance : env.newInstance applicationParams.dbName applicationParams.dbPassword = none

/-- Nothing stands in the way of the command, on the pool as it is. -/
def CommandEnds (env : Environment) (applicationParams : ApplicationParameters)
    (options : List String) (pool : List Wallet) : Prop :=
  match applicationParams.command with
  | .addAccount => AddAccountEnds env.library env.answers options pool
  | .listAccounts => env.answers.getWallets = none ∧ ∀ wallet ∈ pool.take 1000, Listable wallet
  | .listCurrencies | .getBalance => True
  | .syncAccount => SyncAccountEnds env.library env.accountAnswers options pool
  | .buildTransaction => BuildTransactionEnds env.library env.accountAnswers options pool
  | .help | .other _ => False

variable {env : Environment} {applicationParams : ApplicationParameters} {options : List String}
  {p : Process} {w : World} {β : Type}

theorem returns_raise {answer : Option Thrown} : Returns (raise answer) p ↔ answer = none := by
  cases answer with
  | none => simp [raise]
  | some t => simp [raise]

theorem returns_raise_bind {answer : Option Thrown} {f : Unit → Program Interrupt Process β} :
    Returns (raise answer >>= f) p ↔ answer = none ∧ Returns (f ()) p := by
  cases answer with
  | none => simp [raise, returns_pure_bind]
  | some t => simp [raise, Returns, run_bind, Except.toOption]

theorem returns_makePool_bind {f : Unit → Program Interrupt Process β} :
    Returns (makePool env applicationParams >>= f) p ↔
      MakesPool env applicationParams ∧ Returns (f ()) p := by
  have hpath : pathResolver env applicationParams.dataFolder = none ↔
      env.pathExists applicationParams.dataFolder = true := by simp [pathResolver]
  simp only [makePool, bind_assoc, returns_raise_bind, hpath]
  constructor
  · rintro ⟨h1, h2, h3, h4, h5, h6, hr⟩
    exact ⟨⟨h1, h2, h3, h4, h5, h6⟩, hr⟩
  · rintro ⟨⟨h1, h2, h3, h4, h5, h6⟩, hr⟩
    exact ⟨h1, h2, h3, h4, h5, h6, hr⟩

theorem returns_dispatch : Returns (dispatch env applicationParams options) p ↔
    CommandEnds env applicationParams options p.world.pool := by
  unfold dispatch CommandEnds
  cases applicationParams.command with
  | addAccount => exact returns_onPart.trans addAccount_returns_iff
  | listAccounts => exact returns_onPart.trans listAccounts_returns_iff
  | syncAccount => exact returns_onPart.trans syncAccount_returns_iff
  | buildTransaction => exact returns_onPart.trans buildTransaction_returns_iff
  | listCurrencies | getBalance => simp
  | help | other _ => simp [returns_raise]

theorem returns_runCommand : Returns (runCommand env applicationParams options) p ↔
    MakesPool env applicationParams ∧ CommandEnds env applicationParams options p.world.pool := by
  rw [runCommand, returns_makePool_bind, returns_dispatch]

/-- The life of the context, as it shows in the process. -/
def Process.life (p : Process) : Bool × List Event := (p.joinable, p.events)

theorem keeps_raise {answer : Option Thrown} : Keeps Process.life (raise answer) := by
  cases answer with
  | none => exact .pure
  | some t => exact .ofExcept

theorem keeps_onWorld {x : Action β} : Keeps Process.life (onWorld x) := .onPart fun _ _ => rfl

/-- No command stops or destroys the context. -/
theorem keeps_runCommand : Keeps Process.life (runCommand env applicationParams options) := by
  refine .bind ?_ fun _ => ?_
  · refine .bind keeps_raise fun _ => .bind keeps_raise fun _ => .bind keeps_raise fun _ =>
      .bind keeps_raise fun _ => .bind keeps_raise fun _ => keeps_raise
  · unfold dispatch
    cases applicationParams.command with
    | addAccount | listAccounts | syncAccount | buildTransaction => exact keeps_onWorld
    | listCurrencies | getBalance => exact .pure
    | help | other _ => exact keeps_raise

/-- There is a handler for it. -/
def Interrupt.Catchable (i : Interrupt) : Prop := ∃ t, i = .thrown t

theorem throws_raise {answer : Option Thrown} : Throws Interrupt.Catchable (raise answer) := by
  cases answer with
  | none => exact .pure
  | some t => exact .throw ⟨t, rfl⟩

theorem throws_onWorld {x : Action β} : Throws Interrupt.Catchable (onWorld x) :=
  .onPart fun e => ⟨.exception e, rfl⟩

/-- What leaves a command can be caught. -/
theorem throws_runCommand :
    Throws Interrupt.Catchable (runCommand env applicationParams options) := by
  refine .bind ?_ fun _ => ?_
  · refine .bind throws_raise fun _ => .bind throws_raise fun _ => .bind throws_raise fun _ =>
      .bind throws_raise fun _ => .bind throws_raise fun _ => throws_raise
  · unfold dispatch
    cases applicationParams.command with
    | addAccount | listAccounts | syncAccount | buildTransaction => exact throws_onWorld
    | listCurrencies | getBalance => exact .pure
    | help | other _ => exact throws_raise

/-- A command returns or throws, and the thread still runs. -/
theorem runCommand_cases (env : Environment) (applicationParams : ApplicationParameters)
    (options : List String) (w : World) :
    ∃ q : Process, q.joinable = true ∧ q.events = [.start] ∧
      (runCommand env applicationParams options (started w) = (.ok (), q) ∨
        ∃ t, runCommand env applicationParams options (started w) = (.error (.thrown t), q)) := by
  have hlife : (runCommand env applicationParams options (started w)).2.life =
      (started w).life := keeps_runCommand _
  cases hr : runCommand env applicationParams options (started w) with
  | mk r q =>
    rw [hr] at hlife
    simp only [Process.life, started, Prod.mk.injEq] at hlife
    refine ⟨q, hlife.1, hlife.2, ?_⟩
    cases r with
    | ok _ => exact .inl rfl
    | error i =>
      obtain ⟨t, rfl⟩ := throws_runCommand _ _ _ hr
      exact .inr ⟨t, rfl⟩

theorem parsed_ok (h : env.parseParameters = .ok (applicationParams, options)) :
    env.parseParameters.mapError Interrupt.thrown = .ok (applicationParams, options) := by
  rw [h]
  rfl

theorem parsed_error {t : Thrown} (h : env.parseParameters = .error t) :
    env.parseParameters.mapError Interrupt.thrown = .error (.thrown t) := by
  rw [h]
  rfl

/-- The part of the `try` block in which there is a context. -/
theorem tryBlock_starts (h : Starts env applicationParams options) :
    tryBlock env { world := w } =
      ((useContext env applicationParams options).leaving (release env) >>=
        fun _ => pure none) { world := w } := by
  simp [tryBlock, run_bind, parsed_ok h.parsed, h.notHelp, raise, h.executionContext]

theorem useContext_starts (h : env.executionThread = none) :
    useContext env applicationParams options { world := w } =
      (runCommand env applicationParams options >>= fun _ => stop) (started w) := by
  have hstart : start env { world := w } = (.ok (), started w) := by
    simp [start, run_bind, raise, h, record, started]
  rw [useContext, bind_ok hstart]

/-- The thread has been joined. -/
theorem release_joined (h : p.joinable = false) : release env p =
    (.ok (), { p with events := p.events ++ if env.lastOwner then [.destroy] else [] }) := by
  cases p
  cases hl : env.lastOwner <;> simp_all [release, record, run_bind]

theorem release_joinable (hl : env.lastOwner = true) (h : p.joinable = true) : release env p =
    (.error .terminate, { p with events := p.events ++ [.destroy, .terminate] }) := by
  simp [release, hl, record, run_bind, h]

theorem release_shared (hl : env.lastOwner = false) : release env p = (.ok (), p) := by
  simp [release, hl]

theorem report_ok (t : Thrown) (p : Process) :
    ∃ w', report t p = (.ok (some EXIT_FAILURE), { p with world := w' }) := by
  cases t with
  | exception e => exact ⟨_, rfl⟩
  | other => exact ⟨_, rfl⟩

/-- A command that returns is followed by `stop`. -/
theorem main_of_returns (h : Starts env applicationParams options)
    (hr : Returns (runCommand env applicationParams options) (started w)) :
    (main env { world := w }).1 = .ok EXIT_SUCCESS ∧
      (main env { world := w }).2.events =
        [.start, .stop] ++ (if env.lastOwner then [.destroy] else []) ++ [.ret EXIT_SUCCESS] := by
  obtain ⟨q, -, hevents, hq | ⟨t, hq⟩⟩ := runCommand_cases env applicationParams options w
  · have huse : useContext env applicationParams options { world := w } =
        (.ok (), { q with joinable := false, events := [.start, .stop] }) := by
      rw [useContext_starts h.executionThread, bind_ok hq]
      simp [stop, record, run_bind, hevents]
    have htry := (tryBlock_starts h).trans (bind_ok (leaving_ok huse (release_joined rfl)))
    rw [main, bind_ok (handling_ok htry)]
    simp [run_bind, record]
  · exact (not_returns_of_error hq hr).elim

/-- An exception leaves the thread running. -/
theorem main_of_raised (h : Starts env applicationParams options)
    (hr : Raised env applicationParams options (started w)) :
    (main env { world := w }).2.events =
      if env.lastOwner then [.start, .destroy, .terminate] else [.start, .ret EXIT_FAILURE] := by
  obtain ⟨q, hjoinable, hevents, hq | ⟨t, hq⟩⟩ := runCommand_cases env applicationParams options w
  · obtain ⟨t, q', hr⟩ := hr
    rw [hq] at hr
    cases hr
  have huse : useContext env applicationParams options { world := w } =
      (.error (.thrown t), q) := by
    rw [useContext_starts h.executionThread, bind_error hq]
  cases hl : env.lastOwner with
  | true =>
    have htry := (tryBlock_starts h).trans
      (bind_error (leaving_error huse (release_joinable hl hjoinable)))
    rw [main, bind_error (handling_passed htry rfl)]
    simp [hevents]
  | false =>
    have htry := (tryBlock_starts h).trans (bind_error (leaving_ok huse (release_shared hl)))
    have hcaught : Interrupt.caught (.thrown t) = some t := rfl
    obtain ⟨w', hreport⟩ := report_ok t q
    rw [main, bind_ok ((handling_selected htry hcaught).trans hreport)]
    simp [run_bind, record, hevents]

/-- Without its thread the `try` block is left in a way that is caught. -/
theorem tryBlock_not_starts
    (h : ¬ ∃ applicationParams options, Starts env applicationParams options) :
    ∃ r q, tryBlock env { world := w } = (r, q) ∧ .start ∉ q.events ∧
      r ≠ .error .terminate := by
  cases hp : env.parseParameters with
  | error t =>
    exact ⟨.error (.thrown t), { world := w }, by simp [tryBlock, run_bind, parsed_error hp],
      by simp, by simp⟩
  | ok parsed =>
    obtain ⟨applicationParams, options⟩ := parsed
    by_cases hh : applicationParams.command = .help
    · exact ⟨.ok (some 0), { world := w },
        by simp [tryBlock, run_bind, parsed_ok hp, hh], by simp, by simp⟩
    cases hc : env.executionContext with
    | some t =>
      exact ⟨.error (.thrown t), { world := w },
        by simp [tryBlock, run_bind, parsed_ok hp, hh, raise, hc], by simp, by simp⟩
    | none =>
      cases ht : env.executionThread with
      | none => exact (h ⟨applicationParams, options, hp, hh, hc, ht⟩).elim
      | some t =>
        have huse : useContext env applicationParams options { world := w } =
            (.error (.thrown t), { world := w }) := by
          simp [useContext, start, raise, ht, run_bind]
        have hleave : (useContext env applicationParams options).leaving (release env)
            { world := w } = (.error (.thrown t),
              { world := w, events := if env.lastOwner then [.destroy] else [] }) :=
          leaving_ok huse (release_joined rfl)
        refine ⟨.error (.thrown t),
          { world := w, events := if env.lastOwner then [.destroy] else [] }, ?_, ?_, by simp⟩
        · simp [tryBlock, run_bind, parsed_ok hp, hh, raise, hc, hleave]
        · cases env.lastOwner <;> simp

theorem main_events {r : Except Interrupt (Option Int)} {q : Process}
    (h : tryBlock env p = (r, q)) (hr : r ≠ .error .terminate) :
    ∃ code, (main env p).2.events = q.events ++ [.ret code] := by
  cases r with
  | ok returned => exact ⟨returned.getD EXIT_SUCCESS, by rw [main, bind_ok (handling_ok h)]; rfl⟩
  | error i =>
    cases i with
    | terminate => exact (hr rfl).elim
    | thrown t =>
      have hcaught : Interrupt.caught (.thrown t) = some t := rfl
      obtain ⟨w', hreport⟩ := report_ok t q
      exact ⟨EXIT_FAILURE,
        by rw [main, bind_ok ((handling_selected h hcaught).trans hreport)]; rfl⟩

/-- The thread is started in the runs that are meant. -/
theorem start_mem_events_iff : .start ∈ (main env { world := w }).2.events ↔
    ∃ applicationParams options, Starts env applicationParams options := by
  constructor
  · intro hs
    by_contra h
    obtain ⟨r, q, htry, hstart, hcaught⟩ := tryBlock_not_starts (w := w) h
    obtain ⟨code, hevents⟩ := main_events htry hcaught
    simp [hevents, hstart] at hs
  · rintro ⟨applicationParams, options, h⟩
    obtain ⟨q, -, -, hq | ⟨t, hq⟩⟩ := runCommand_cases env applicationParams options w
    · simp [main_of_returns h (returns_of_ok hq)]
    · rw [main_of_raised h ⟨t, q, hq⟩]
      split <;> simp

theorem stopsFirst_stopped (events : List Event) : StopsFirst (.start :: .stop :: events) := by
  intro past e rest h hstart hlate
  match past with
  | [] => simp at hstart
  | [_] =>
    simp only [List.cons_append, List.nil_append, List.cons.injEq] at h
    obtain ⟨-, rfl, -⟩ := h
    simp at hlate
  | _ :: _ :: _ =>
    simp only [List.cons_append, List.cons.injEq] at h
    simp [← h.2.1]

theorem not_stopsFirst_raised : ¬ StopsFirst
    (if env.lastOwner then [.start, .destroy, .terminate] else [.start, .ret EXIT_FAILURE]) := by
  intro h
  split at h
  · have hstop := h [.start] .destroy [.terminate] rfl (by simp) (.inl rfl)
    simp at hstop
  · have hstop := h [.start] (.ret EXIT_FAILURE) [] rfl (by simp) (.inr (.inr ⟨_, rfl⟩))
    simp at hstop

/-- A program that starts the thread ends in an orderly way exactly when the pool can be made and
nothing stands in the way of the command. -/
theorem main_orderly_iff (h : Starts env applicationParams options) (w : World) :
    Orderly env applicationParams options w ↔
      MakesPool env applicationParams ∧
        CommandEnds env applicationParams options w.pool := by
  have hreturns : Returns (runCommand env applicationParams options) (started w) ↔
      MakesPool env applicationParams ∧ CommandEnds env applicationParams options w.pool :=
    returns_runCommand
  rw [← hreturns]
  constructor
  · intro ho
    obtain ⟨q, -, -, hq | ⟨t, hq⟩⟩ := runCommand_cases env applicationParams options w
    · exact returns_of_ok hq
    · have hstops := ho.stopsFirst
      rw [main_of_raised h ⟨t, q, hq⟩] at hstops
      exact (not_stopsFirst_raised hstops).elim
  · intro hr
    obtain ⟨hcode, hevents⟩ := main_of_returns h hr
    refine ⟨hevents ▸ stopsFirst_stopped _, _, hcode, ?_⟩
    constructor
    · exact fun hc => absurd hc (by decide)
    · rintro ⟨t, q, hq⟩
      exact (not_returns_of_error hq hr).elim

def synchronized : AccountAnswers where
  receiver := { done := true, left := rfl }
  build := .ok ⟨[], 0⟩

/-- A run of the command for the accounts, or for another. -/
def ordered (command : Command) (options : List String) : Environment where
  library := oneCurrency
  parseParameters := .ok ({ command }, options)
  answers := answering
  accountAnswers := synchronized

theorem main_orderly_list :
    Orderly (ordered .listAccounts []) { command := .listAccounts } []
      { pool := [numbered 1, numbered 2] } := by
  refine (main_orderly_iff ⟨rfl, by decide, rfl, rfl⟩ _).mpr
    ⟨⟨rfl, rfl, rfl, rfl, rfl, rfl⟩, rfl, ?_⟩
  simp [listable_numbered]

/-- Without its extended key an account cannot be added, and the thread is not stopped. -/
theorem add_without_key_not_orderly : ¬ ∀ env applicationParams options w,
    Starts env applicationParams options → Orderly env applicationParams options w := by
  intro h
  have ho := h (ordered .addAccount ["--name", "savings"]) { command := .addAccount }
    ["--name", "savings"] {} ⟨rfl, by decide, rfl, rfl⟩
  have hstop := ho.stopsFirst [.start] .destroy [.terminate] rfl (by simp) (.inl rfl)
  simp at hstop

end LibCoreCmd

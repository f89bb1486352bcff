import LibCoreCmd.Http.RequestResponce

/-! How often and with what a request is completed, along every run of any number
of interleaved exchanges. -/
namespace LibCoreCmd.Http

open Transition

variable {F : Type} {ι : Type} {env : Env} {request : HttpRequest}
  {s t : Exchange F} {l : Label F} {past ls : List (Label F)} {r : RequestResponse F}
  {h : Handler} {o : Outcome F}

/-- What the promise of one completion says of a request after `past`. -/
structure CompletedOnce (past : List (Label F)) (s : Exchange F) : Prop where
  atMostOnce : s.completions.length ≤ 1
  exactlyOnce : .execute ∈ past → s.pending = none → s.completions.length = 1
  noError : ∀ c ∈ s.completions,
    c.code = none ↔ ∃ h o, .invoke h o ∈ past ∧ h.reads = true ∧ o.err = none
  unableToConnect : ∀ c ∈ s.completions, c.code = some .unableToConnectToHost ↔
    ∃ h o, .invoke h o ∈ past ∧ h.connects = true ∧ o.err ≠ none
  noInternet : ∀ c ∈ s.completions, c.code = some .noInternetConnectivity ↔
    ∃ h o, .invoke h o ∈ past ∧ h.transfers = true ∧ o.err ≠ none

/-- The code of the completion a step calls for, if it calls for one. -/
def Label.verdict : Label F → Option (Option ErrorCode)
  | .execute => none
  | .invoke h o =>
    match o.err with
    | none => if h.reads then some none else none
    | some _ =>
      if h.connects then some (some .unableToConnectToHost)
      else if h.transfers then some (some .noInternetConnectivity)
      else none

/-- The completions a past calls for, in order. -/
def verdicts (past : List (Label F)) : List (Option ErrorCode) := past.filterMap Label.verdict

theorem verdicts_concat : verdicts (past ++ [l]) = verdicts past ++ l.verdict.toList := by
  cases hl : l.verdict <;> simp [verdicts, List.filterMap_append, hl]

/-- A code is called for when some handler of the past called for it. -/
theorem mem_verdicts {c : Option ErrorCode} {P : Handler → Outcome F → Prop}
    (hP : ∀ h o, (Label.invoke h o : Label F).verdict = some c ↔ P h o) :
    c ∈ verdicts past ↔ ∃ h o, .invoke h o ∈ past ∧ P h o := by
  simp only [verdicts, List.mem_filterMap]
  constructor
  · rintro ⟨l, hl, hv⟩
    cases l with
    | execute => cases hv
    | invoke h o => exact ⟨h, o, hl, (hP h o).mp hv⟩
  · rintro ⟨h, o, hm, hp⟩
    exact ⟨_, hm, (hP h o).mpr hp⟩

@[simp] theorem verdict_execute : (Label.execute : Label F).verdict = none := rfl

/-- The URL is one, and a socket that was read without error is closed without one
(or was closed by the peer before). -/
def Orderly (env : Env) (request : HttpRequest) : Label F → Prop
  | .execute => (env.parseUri request.url).isSome = true
  | .invoke h o => h = .handleReadResponse → o.err = none → RequestResponse.Closed o.shutdownErr

instance : DecidablePred (Orderly (F := F) env request) := by
  intro l
  cases l <;> unfold Orderly <;> infer_instance

theorem verdict_delivered :
    (Label.invoke h o).verdict = some none ↔ h.reads = true ∧ o.err = none := by
  cases he : o.err <;> simp only [Label.verdict, he] <;> split <;> simp_all

theorem verdict_unableToConnect : (Label.invoke h o).verdict = some (some .unableToConnectToHost) ↔
    h.connects = true ∧ o.err ≠ none := by
  cases he : o.err <;> simp only [Label.verdict, he] <;> split <;> simp_all

theorem verdict_noInternet : (Label.invoke h o).verdict = some (some .noInternetConnectivity) ↔
    h.transfers = true ∧ o.err ≠ none := by
  cases he : o.err <;> cases h <;>
    simp_all [Label.verdict, Handler.reads, Handler.connects, Handler.transfers]

theorem verdict_shutdown : (Label.invoke .sslHandleShutdown o).verdict = none := by
  cases he : o.err <;>
    simp [Label.verdict, he, Handler.reads, Handler.connects, Handler.transfers]

/-- Nothing is outstanding but, at most, the closing of the TLS stream. -/
def Exchange.settled : Exchange F → Bool
  | .started r => r.pending = none ∨ r.pending = some .sslHandleShutdown
  | _ => false

/-- The completions so far are those the past called for, and there is one of them
exactly when the exchange is settled. -/
structure Tracks (past : List (Label F)) (s : Exchange F) : Prop where
  codes : s.completions.map Completion.code = verdicts past
  count : (verdicts past).length = if s.settled then 1 else 0
  executed : .execute ∈ past → s ≠ .idle
  accepted : s ≠ .refused

theorem invoke_completions (ho : Orderly env request (.invoke h o)) :
    (r.invoke env h o).completions.map Completion.code =
      r.completions.map Completion.code ++ (Label.invoke h o).verdict.toList := by
  have hi := r.invocation env h o
  generalize r.invoke env h o = r' at hi ⊢
  cases hi with
  | waits he hr | writes he hr => simp [Label.verdict, he, hr]
  | closed => simp [verdict_shutdown]
  | cannotConnect he hc =>
    simp [verdict_unableToConnect.mpr ⟨hc, he⟩, RequestResponse.unableToConnect, Completion.code]
  | offline he ht =>
    simp [verdict_noInternet.mpr ⟨ht, he⟩, RequestResponse.noInternet, Completion.code]
  | sslDelivers he | delivers he => simp [Label.verdict, he, Handler.reads, Completion.code]
  | deliversTwice he hc => exact (hc (ho rfl he)).elim

/-- Completions are never taken back. -/
theorem completions_invoke_mono :
    r.completions.length ≤ (r.invoke env h o).completions.length := by
  have hi := r.invocation env h o
  generalize r.invoke env h o = r' at hi ⊢
  cases hi <;> simp [RequestResponse.unableToConnect, RequestResponse.noInternet]

/-- A handler leaves the exchange settled exactly when it completes the request, or
was the closing one. -/
theorem invoke_settled :
    (Exchange.started (r.invoke env h o)).settled = true ↔
      (Label.invoke h o).verdict ≠ none ∨ h = .sslHandleShutdown := by
  have hi := r.invocation env h o
  generalize r.invoke env h o = r' at hi ⊢
  cases hi with
  | waits he hr hh hk | writes he hr hh hk => simp [Exchange.settled, Label.verdict, he, hr, hh, hk]
  | closed => simp [Exchange.settled]
  | cannotConnect he hc =>
    simp [Exchange.settled, verdict_unableToConnect.mpr ⟨hc, he⟩, RequestResponse.unableToConnect]
  | offline he ht =>
    simp [Exchange.settled, verdict_noInternet.mpr ⟨ht, he⟩, RequestResponse.noInternet]
  | sslDelivers he | delivers he => simp [Exchange.settled, Label.verdict, he, Handler.reads]
  | deliversTwice he =>
    simp [Exchange.settled, Label.verdict, he, Handler.reads, RequestResponse.noInternet]

theorem settled_of_pending (hp : r.pending = some h) :
    (Exchange.started r).settled = true ↔ h = .sslHandleShutdown := by
  simp [Exchange.settled, hp]

theorem code_mem_verdicts (ht : Tracks past s) {c : Completion} (hc : c ∈ s.completions)
    {v : Option ErrorCode} : c.code = v ↔ v ∈ verdicts past := by
  have hlen : s.completions.length ≤ 1 := by
    rw [← s.completions.length_map (f := Completion.code), ht.codes, ht.count]
    split <;> omega
  obtain ⟨c', hs⟩ : ∃ c', s.completions = [c'] :=
    List.length_eq_one_iff.mp (Nat.le_antisymm hlen (List.length_pos_of_mem hc))
  rw [← ht.codes, hs]
  rw [hs, List.mem_singleton] at hc
  simp [hc, eq_comm]

theorem Tracks.completedOnce (ht : Tracks past s) : CompletedOnce past s := by
  have hlen : s.completions.length = if s.settled then 1 else 0 := by
    rw [← ht.count, ← ht.codes, List.length_map]
  refine ⟨?_, ?_, ?_, ?_, ?_⟩
  · rw [hlen]
    split <;> omega
  · intro he hp
    have hset : s.settled = true := by
      cases s with
      | idle => exact (ht.executed he rfl).elim
      | refused => exact (ht.accepted rfl).elim
      | started r =>
        simp only [Exchange.pending] at hp
        simp [Exchange.settled, hp]
    simp [hlen, hset]
  · intro c hc
    rw [code_mem_verdicts ht hc, mem_verdicts fun _ _ => verdict_delivered]
  · intro c hc
    rw [code_mem_verdicts ht hc, mem_verdicts fun _ _ => verdict_unableToConnect]
  · intro c hc
    rw [code_mem_verdicts ht hc, mem_verdicts fun _ _ => verdict_noInternet]

/-- An exchange whose promise is already broken: it was refused without a completion,
or completed twice. -/
def Broken (past : List (Label F)) (s : Exchange F) : Prop :=
  (.execute ∈ past ∧ s = .refused) ∨ 2 ≤ s.completions.length

theorem Broken.not_completedOnce (hb : Broken past s) : ¬ CompletedOnce past s := by
  intro hc
  rcases hb with ⟨he, rfl⟩ | hlen
  · have := hc.exactlyOnce he rfl
    simp [Exchange.completions] at this
  · have := hc.atMostOnce
    omega

section Runs
variable [HeaderFields F]

theorem tracks_step (ht : Tracks past s) (hs : (exchange F env request).step s l t)
    (hl : Orderly env request l) : Tracks (past ++ [l]) t := by
  have hv := ht.codes
  have hc := ht.count
  obtain ⟨rfl, rfl, rfl⟩ | ⟨r, h, o, rfl, rfl, hp, rfl⟩ := exchange_step hs
  · obtain ⟨uri, hu⟩ := Option.isSome_iff_exists.mp hl
    simp only [AsioHttpClient.execute, hu]
    refine ⟨?_, ?_, by simp, by simp⟩
    · simpa [verdicts_concat, Exchange.completions] using hv
    · simpa [verdicts_concat, Exchange.settled] using hc
  · simp only [Exchange.completions] at hv
    refine ⟨?_, ?_, by simp, by simp⟩
    · rw [Exchange.completions, invoke_completions hl, hv, verdicts_concat]
    · have before := settled_of_pending hp
      have after : (Exchange.started (r.invoke env h o)).settled = true ↔
          (Label.invoke h o).verdict ≠ none ∨ h = .sslHandleShutdown := invoke_settled
      by_cases hclose : h = .sslHandleShutdown
      · subst hclose
        simp_all [verdicts_concat, verdict_shutdown]
      · have hfree : (Exchange.started r).settled = false := by simpa [hclose] using before
        rw [hfree] at hc
        rw [verdicts_concat, List.length_append]
        cases hw : (Label.invoke h o).verdict <;> simp_all

theorem tracks_run (hr : (exchange F env request).Run .idle past s)
    (ho : ∀ l ∈ past, Orderly env request l) : Tracks past s := by
  refine hr.carries (P := fun past s => (∀ l ∈ past, Orderly env request l) → Tracks past s)
    ?_ ?_ ho
  · intro _
    exact ⟨rfl, rfl, by simp, by simp⟩
  · intro past s l t ih hs ho
    exact tracks_step (ih fun l hl => ho l (by simp [hl])) hs (ho l (by simp))

theorem broken_step (hb : Broken past s) (hs : (exchange F env request).step s l t) :
    Broken (past ++ [l]) t := by
  obtain ⟨rfl, rfl, rfl⟩ | ⟨r, h, o, rfl, rfl, hp, rfl⟩ := exchange_step hs
  · simp [Broken, Exchange.completions] at hb
  · right
    have hlen : 2 ≤ r.completions.length := by simpa [Broken, Exchange.completions] using hb
    exact Nat.le_trans hlen completions_invoke_mono

theorem broken_of_disorderly (hs : (exchange F env request).step s l t)
    (hl : ¬ Orderly env request l) : Broken (past ++ [l]) t := by
  obtain ⟨rfl, rfl, rfl⟩ | ⟨r, h, o, rfl, rfl, hp, rfl⟩ := exchange_step hs
  · left
    simp only [Orderly, Bool.not_eq_true, Option.isSome_eq_false_iff,
      Option.isNone_iff_eq_none] at hl
    simp [AsioHttpClient.execute, hl]
  · right
    simp only [Orderly, Classical.not_imp] at hl
    obtain ⟨rfl, he, hec⟩ := hl
    have hi := r.invocation env .handleReadResponse o
    generalize r.invoke env .handleReadResponse o = r' at hi
    cases hi <;> simp_all [Exchange.completions, Handler.reads, RequestResponse.noInternet]

theorem broken_run (hr : (exchange F env request).Run .idle past s)
    (ho : ¬ ∀ l ∈ past, Orderly env request l) : Broken past s := by
  refine hr.carries (P := fun past s => (¬ ∀ l ∈ past, Orderly env request l) → Broken past s)
    ?_ ?_ ho
  · simp
  · intro past s l t ih hs ho
    by_cases hpast : ∀ l ∈ past, Orderly env request l
    · refine broken_of_disorderly hs fun hl => ho ?_
      intro k hk
      rcases List.mem_append.mp hk with hk | hk
      · exact hpast k hk
      · rw [List.mem_singleton.mp hk]
        exact hl
    · exact broken_step (ih hpast) hs

theorem completedOnce_iff_orderly (hr : (exchange F env request).Run .idle past s) :
    CompletedOnce past s ↔ ∀ l ∈ past, Orderly env request l := by
  constructor
  · intro hc
    by_contra ho
    exact (broken_run hr ho).not_completedOnce hc
  · intro ho
    exact (tracks_run hr ho).completedOnce

end Runs

/-- Along every interleaved run of any number of requests, every request is completed
once and with the code its steps call for, exactly when every URL was one and no
socket that had been read failed to close. -/
theorem client_completes_once_iff [DecidableEq ι] [HeaderFields F] {requests : ι → HttpRequest}
    {steps : List (ι × Label F)} {state : ι → Exchange F}
    (hr : (client F env requests).Run (fun _ => .idle) steps state) :
    (∀ i, CompletedOnce (ofMember i steps) (state i)) ↔
      ∀ l ∈ steps, Orderly env (requests l.1) l.2 := by
  have each := fun i => completedOnce_iff_orderly (run_ofMember hr i)
  constructor
  · intro hc l hl
    exact (each l.1).mp (hc l.1) l.2 (mem_ofMember.mpr hl)
  · intro ho i
    exact (each i).mpr fun l hl => ho (i, l) (mem_ofMember.mp hl)

section Localhost

/-- The server is asked for its root. -/
def localRequest : HttpRequest := ⟨.get, "http://localhost/", [], [], by simp⟩

def localOutcome (shutdownErr : Option SystemError) : Outcome FieldList :=
  ⟨none, ⟨200, "OK", [], []⟩, shutdownErr⟩

/-- Every step of the exchange succeeds; the socket answers its shutdown as given. -/
def localSteps (shutdownErr : Option SystemError) : List (Label FieldList) :=
  [.execute, .invoke .handleResolve (localOutcome none), .invoke .handleConnect (localOutcome none),
    .invoke .handleWriteRequest (localOutcome none),
    .invoke .handleReadResponse (localOutcome shutdownErr)]

theorem client_completes_once_local : ∃ state,
    (client FieldList localEnv fun _ : Bool => localRequest).Run (fun _ => .idle)
      ((localSteps (some .notConnected)).map (Prod.mk true)) state ∧
    ∀ i, CompletedOnce (ofMember i ((localSteps (some .notConnected)).map (Prod.mk true)))
      (state i) :=
  have run : (client FieldList localEnv fun _ : Bool => localRequest).Run (fun _ => .idle)
      ((localSteps (some .notConnected)).map (Prod.mk true)) _ :=
    run_of_member (i := true) (run_ofNext.mpr rfl)
  ⟨_, run, (client_completes_once_iff run).mpr (by decide)⟩

/-- The socket is reset by the peer after its response was read. -/
theorem reset_socket_completes_twice :
    ¬ ∀ steps state,
      (client FieldList localEnv fun _ : Unit => localRequest).Run (fun _ => .idle) steps state →
      ∀ i, CompletedOnce (ofMember i steps) (state i) := by
  intro h
  have run : (client FieldList localEnv fun _ : Unit => localRequest).Run (fun _ => .idle)
      ((localSteps (some (.other 104))).map (Prod.mk ())) _ :=
    run_of_member (i := ()) (run_ofNext.mpr rfl)
  have hone := (h _ _ run ()).atMostOnce
  revert hone
  decide

end Localhost

end LibCoreCmd.Http

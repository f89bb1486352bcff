import LibCoreCmd.Http.RequestResponce

/-! What is handed to `http::async_write` and how it compares with the request. -/
namespace LibCoreCmd.Http

open Transition

variable {F : Type} {env : Env} {request : HttpRequest} {uri : Uri}
  {s t : Exchange F} {l : Label F} {past : List (Label F)} {r : RequestResponse F}
  {h : Handler} {o : Outcome F} {m : Message F}

theorem req_invoke : (r.invoke env h o).req = r.req := by
  have hi := r.invocation env h o
  generalize r.invoke env h o = r' at hi ⊢
  cases hi <;> simp [RequestResponse.unableToConnect, RequestResponse.noInternet]

theorem mem_written_invoke (hm : m ∈ (r.invoke env h o).written) : m ∈ r.written ∨ m = r.req := by
  have hi := r.invocation env h o
  generalize r.invoke env h o = r' at hi hm
  cases hi <;> simp_all [RequestResponse.unableToConnect, RequestResponse.noInternet]

variable [HeaderFields F]

/-- The message asks for what the request asks for. -/
structure Carries (request : HttpRequest) (m : Message F) : Prop where
  method : m.method = request.method.verb
  body : m.body = request.body
  contentLength : request.body ≠ [] →
    HeaderFields.find m.fields "Content-Length" = some (toString request.body.length)
  headers : ∀ x ∈ request.headers, HeaderFields.find m.fields x.1 = some x.2

/-- The constructor gets as far as the request message. -/
def Built (env : Env) (request : HttpRequest) : Prop :=
  ∃ uri, env.parseUri request.url = some uri ∧ env.setTlsextHostName uri.authority = true

/-- Whatever is written is the request; without a message nothing is written and the
request ends with an error. -/
structure Faithful (env : Env) (request : HttpRequest) (past : List (Label F)) (s : Exchange F) :
    Prop where
  carries : ∀ m ∈ s.written, Carries request m
  unbuilt : ¬ Built env request → s.written = []
  reported : ¬ Built env request → .execute ∈ past → s.pending = none →
    ∃ c ∈ s.completions, c.error ≠ none

/-- The requests the constructor gets right: a GET without a body whose URL is one and
gives a server name that TLS takes, and in which no header name stands for two values. -/
structure Sendable (env : Env) (request : HttpRequest) : Prop where
  built : Built env request
  method : request.method = .get
  body : request.body = []
  headers : Consistent request.headers

theorem req_new (hs : env.setTlsextHostName uri.authority = true) :
    (RequestResponse.new env uri request : RequestResponse F).req =
      { version := 11, method := .get, target := uri.target, fields := env.fields uri request,
        body := [] } := by
  simp [RequestResponse.new, hs, Message.default]

theorem carries_new_iff (hs : env.setTlsextHostName uri.authority = true) :
    Carries request (RequestResponse.new env uri request : RequestResponse F).req ↔
      request.method = .get ∧ request.body = [] ∧ Consistent request.headers := by
  rw [req_new hs]
  constructor
  · rintro ⟨hm, hb, -, hh⟩
    refine ⟨?_, hb.symm, find_setAll_iff.mp hh⟩
    cases hr : request.method <;> simp_all [HttpMethod.verb]
  · rintro ⟨hm, hb, hh⟩
    exact ⟨by rw [hm]; rfl, hb.symm, fun hne => (hne hb).elim, find_setAll_iff.mpr hh⟩

/-- An exchange under way holds the message its constructor made and writes no other. -/
def WritesOwn (env : Env) (request : HttpRequest) : Exchange F → Prop
  | .idle => True
  | .refused => env.parseUri request.url = none
  | .started r => ∃ uri, env.parseUri request.url = some uri ∧
      r.req = (RequestResponse.new env uri request).req ∧ ∀ m ∈ r.written, m = r.req

theorem writesOwn_step (hw : WritesOwn env request s) (hs : (exchange F env request).step s l t) :
    WritesOwn env request t := by
  obtain ⟨rfl, rfl, rfl⟩ | ⟨r, h, o, rfl, rfl, hp, rfl⟩ := exchange_step hs
  · cases hu : env.parseUri request.url with
    | none => simp [AsioHttpClient.execute, hu, WritesOwn]
    | some uri =>
      simp only [AsioHttpClient.execute, hu, WritesOwn]
      exact ⟨uri, rfl, by simp, by simp⟩
  · obtain ⟨uri, hu, hreq, hall⟩ := hw
    refine ⟨uri, hu, req_invoke.trans hreq, ?_⟩
    intro m hm
    rw [req_invoke]
    rcases mem_written_invoke hm with hm | hm
    · exact hall m hm
    · exact hm

theorem writesOwn_run (hr : (exchange F env request).Run .idle past s) :
    WritesOwn env request s :=
  hr.invariant trivial fun _ _ _ => writesOwn_step

/-- Asio reports success. -/
def success : Outcome F := ⟨none, ⟨200, "OK", HeaderFields.empty, []⟩, none⟩

open RequestResponse in
/-- With every step a success, the exchange comes to write its message. -/
theorem exists_run_writing (hu : env.parseUri request.url = some uri) :
    ∃ past s, (exchange F env request).Run .idle past s ∧
      (RequestResponse.new env uri request).req ∈ s.written := by
  let r : RequestResponse F := (new env uri request).execute
  have start : (exchange F env request).step .idle .execute (.started r) := by
    have h := step_execute (F := F) env request
    simpa [AsioHttpClient.execute, hu] using h
  have resolved := step_invoke env request r success rfl
  by_cases hs : uri.scheme = "https"
  · have hr : r.invoke env .handleResolve success = r.clear.await .sslHandleConnect := by
      simp [invoke, handleResolve, success, r, clear, execute, hs]
    rw [hr] at resolved
    have connected := step_invoke env request (r.clear.await .sslHandleConnect) success rfl
    have shaken := step_invoke env request
      ((r.clear.await .sslHandleConnect).invoke env .sslHandleConnect success) success rfl
    refine ⟨_, _, .cons start (.cons resolved (.cons connected (.cons shaken (.refl _)))), ?_⟩
    simp [Exchange.written, invoke, sslHandleConnect, sslHandleHandshake, success, r]
  · have hr : r.invoke env .handleResolve success = r.clear.await .handleConnect := by
      simp [invoke, handleResolve, success, r, clear, execute, hs]
    rw [hr] at resolved
    have connected := step_invoke env request (r.clear.await .handleConnect) success rfl
    refine ⟨_, _, .cons start (.cons resolved (.cons connected (.refl _))), ?_⟩
    simp [Exchange.written, invoke, handleConnect, success, r]

/-- Along every run what is written is the request and nothing else, exactly for the
requests the constructor gets right. -/
theorem written_faithful_iff :
    (∀ past s, (exchange F env request).Run .idle past s → Faithful env request past s) ↔
      Sendable env request := by
  constructor
  · intro hf
    cases hu : env.parseUri request.url with
    | none =>
      have hb : ¬ Built env request := by simp [Built, hu]
      have refused : (exchange F env request).Run .idle [.execute] .refused := by
        refine .cons ?_ (.refl _)
        have h := step_execute (F := F) env request
        simpa [AsioHttpClient.execute, hu] using h
      obtain ⟨c, hc, -⟩ := (hf _ _ refused).reported hb (by simp) rfl
      simp [Exchange.completions] at hc
    | some uri =>
      obtain ⟨past, s, hr, hw⟩ := exists_run_writing (F := F) hu
      have hb : Built env request := by
        by_contra hb
        simp [(hf past s hr).unbuilt hb] at hw
      have htls : env.setTlsextHostName uri.authority = true := by
        obtain ⟨u, hu', ht⟩ := hb
        rw [hu] at hu'
        exact Option.some.inj hu' ▸ ht
      obtain ⟨hm, hbody, hh⟩ := (carries_new_iff htls).mp ((hf past s hr).carries _ hw)
      exact ⟨hb, hm, hbody, hh⟩
  · rintro ⟨hb, hm, hbody, hh⟩ past s hr
    refine ⟨?_, fun h => (h hb).elim, fun h => (h hb).elim⟩
    intro m hw
    have own := writesOwn_run hr
    obtain ⟨uri, hu, htls⟩ := hb
    cases s with
    | idle | refused => simp [Exchange.written] at hw
    | started r =>
      obtain ⟨u, hu', hreq, hall⟩ := own
      rw [hu] at hu'
      cases hu'
      rw [hall m hw, hreq]
      exact (carries_new_iff htls).mpr ⟨hm, hbody, hh⟩

/-- A transaction is broadcast by a POST with a body. -/
def broadcastRequest : HttpRequest := ⟨.post, "http://localhost/", [], [1, 2, 3], List.nodup_nil⟩

theorem broadcast_not_faithful :
    ¬ ∀ request past s, (exchange FieldList localEnv request).Run .idle past s →
      Faithful localEnv request past s := by
  intro h
  have hu : localEnv.parseUri broadcastRequest.url =
      some ⟨"http", none, "localhost", none, "/", none, none⟩ := rfl
  obtain ⟨past, s, hr, hw⟩ := exists_run_writing (F := FieldList) hu
  have hm := ((carries_new_iff rfl).mp ((h _ past s hr).carries _ hw)).1
  exact absurd hm (by decide)

end LibCoreCmd.Http

import LibCoreCmd.Http.Completion

/-! The connection object as the core reads it: what its methods answer along any
sequence of calls, and how much of a response reaches them. -/
namespace LibCoreCmd.Http

open Transition

variable {F : Type} {ι : Type} {α : Type}

/-- Chunks that hand `whole` over, to a reader who stops at the first empty one and
to a reader who does not. -/
structure HandsOver (whole : List α) (chunks : List (List α)) : Prop where
  upToEmpty : chunks ≠ [] → (chunks.takeWhile fun c => !c.isEmpty).flatten = whole
  once : chunks ≠ [] → chunks.flatten = whole
  emptyAfter : ∀ c ∈ chunks.dropWhile fun c => !c.isEmpty, c = []

theorem handsOver_nil (whole : List α) : HandsOver whole [] :=
  ⟨by simp, by simp, by simp⟩

/-- All at once, and nothing after that. -/
theorem handsOver_cons {whole : List α} {rest : List (List α)} (h : ∀ c ∈ rest, c = []) :
    HandsOver whole (whole :: rest) := by
  have hflat : rest.flatten = [] := by simpa using h
  have htake : rest.takeWhile (fun c => !c.isEmpty) = [] := by
    cases rest with
    | nil => rfl
    | cons c rest => simp [h c (by simp)]
  have hdrop : ∀ c ∈ rest.dropWhile fun c => !c.isEmpty, c = [] := by
    intro c hc
    exact h c ((List.dropWhile_sublist _).mem hc)
  cases whole with
  | nil => exact ⟨by simp, by simp [hflat], by simpa using h⟩
  | cons a whole => exact ⟨by simp [htake], by simp [hflat], by simpa using hdrop⟩

/-- `api::HttpReadBodyResult`. -/
structure HttpReadBodyResult where
  error : Option Error
  data : Option Bytes
  deriving DecidableEq, Repr

namespace HttpUrlConnection

def getStatusCode (c : HttpUrlConnection) : Int := c.statusCode

def getStatusText (c : HttpUrlConnection) : String := c.statusText

def getHeaders (c : HttpUrlConnection) : List (String × String) := c.headers

/-- The body is handed out whole and forgotten. -/
def readBody (c : HttpUrlConnection) : HttpReadBodyResult × HttpUrlConnection :=
  (⟨none, some c.body⟩, { c with body := [] })

/-- The methods of `api::HttpUrlConnection`. -/
inductive Call where
  | getStatusCode | getStatusText | getHeaders | readBody
  deriving DecidableEq, Repr

/-- What a method returns. -/
inductive Reply where
  | statusCode (code : Int)
  | statusText (text : String)
  | headers (hs : List (String × String))
  | readBody (result : HttpReadBodyResult)
  deriving DecidableEq, Repr

def call (c : HttpUrlConnection) : Call → Reply × HttpUrlConnection
  | .getStatusCode => (.statusCode c.getStatusCode, c)
  | .getStatusText => (.statusText c.getStatusText, c)
  | .getHeaders => (.headers c.getHeaders, c)
  | .readBody => (.readBody c.readBody.1, c.readBody.2)

/-- The replies to a sequence of calls on one connection. -/
def replies : HttpUrlConnection → List Call → List Reply
  | _, [] => []
  | c, k :: ks => (c.call k).1 :: (c.call k).2.replies ks

/-- The body bytes that came with a reply. -/
def Reply.chunk : Reply → Option Bytes
  | .readBody result => result.data
  | _ => none

/-- The chunks of a sequence of replies, in order. -/
def chunks (rs : List Reply) : List Bytes := rs.filterMap Reply.chunk

variable {c : HttpUrlConnection} {k : Call} {ks : List Call} {r : Reply} {rs : List Reply}

@[simp] theorem replies_nil : c.replies [] = [] := rfl

@[simp] theorem replies_cons :
    c.replies (k :: ks) = (c.call k).1 :: (c.call k).2.replies ks := rfl

@[simp] theorem chunks_nil : chunks [] = [] := rfl

theorem chunks_cons : chunks (r :: rs) = r.chunk.toList ++ chunks rs := by
  cases hr : r.chunk <;> simp [chunks, hr]

/-- No method changes what the getters say. -/
theorem call_keeps : (c.call k).2.statusCode = c.statusCode ∧
    (c.call k).2.statusText = c.statusText ∧ (c.call k).2.headers = c.headers := by
  cases k <;> simp [call, readBody]

/-- A call takes the body out, or leaves it and hands out nothing. -/
theorem call_body : (c.call k).1.chunk = some c.body ∧ (c.call k).2.body = [] ∨
    (c.call k).1.chunk = none ∧ (c.call k).2.body = c.body := by
  cases k <;> simp [call, readBody, Reply.chunk]

theorem mem_replies (hr : r ∈ c.replies ks) : r = .statusCode c.statusCode ∨
    r = .statusText c.statusText ∨ r = .headers c.headers ∨
    ∃ b, r = .readBody ⟨none, some b⟩ := by
  induction ks generalizing c with
  | nil => simp at hr
  | cons k ks ih =>
    rw [replies_cons, List.mem_cons] at hr
    rcases hr with rfl | hr
    · cases k <;> simp [call, readBody, getStatusCode, getStatusText, getHeaders]
    · obtain ⟨hcode, htext, hheaders⟩ := call_keeps (c := c) (k := k)
      simpa only [hcode, htext, hheaders] using ih hr

/-- Once the body is gone every chunk is empty. -/
theorem chunks_of_body_nil (hc : c.body = []) : ∀ b ∈ chunks (c.replies ks), b = [] := by
  induction ks generalizing c with
  | nil => simp
  | cons k ks ih =>
    intro b hb
    rw [replies_cons, chunks_cons, List.mem_append] at hb
    rcases call_body (c := c) (k := k) with ⟨hchunk, hbody⟩ | ⟨hchunk, hbody⟩
    · rcases hb with hb | hb
      · simp_all
      · exact ih hbody b hb
    · rcases hb with hb | hb
      · simp [hchunk] at hb
      · exact ih (hbody.trans hc) b hb

/-- Whatever is called in between, the chunks hand over the body. -/
theorem chunks_replies (c : HttpUrlConnection) (ks : List Call) :
    HandsOver c.body (chunks (c.replies ks)) := by
  induction ks generalizing c with
  | nil => exact handsOver_nil c.body
  | cons k ks ih =>
    rw [replies_cons, chunks_cons]
    rcases call_body (c := c) (k := k) with ⟨hchunk, hbody⟩ | ⟨hchunk, hbody⟩
    · rw [hchunk]
      exact handsOver_cons (chunks_of_body_nil hbody)
    · rw [hchunk, ← hbody]
      exact ih (c.call k).2

end HttpUrlConnection

variable {env : Env} {request : HttpRequest} {s t : Exchange F} {l : Label F}
  {past : List (Label F)} {r : RequestResponse F} {h : Handler} {o : Outcome F}
  {res : Response F} {c : HttpUrlConnection}

/-- Replies whose status codes and chunks are those of a response. -/
structure ReportsBody (res : Response F) (rs : List HttpUrlConnection.Reply) : Prop where
  statusCode : ∀ code, .statusCode code ∈ rs → code = res.resultInt
  noError : ∀ result, .readBody result ∈ rs → result.error = none ∧ result.data ≠ none
  body : HandsOver res.body (HttpUrlConnection.chunks rs)

theorem reportsBody_replies (hcode : c.statusCode = res.resultInt) (hbody : c.body = res.body)
    (ks : List HttpUrlConnection.Call) : ReportsBody res (c.replies ks) := by
  refine ⟨?_, ?_, ?_⟩
  · intro code hr
    have := HttpUrlConnection.mem_replies hr
    simp_all
  · intro result hr
    have := HttpUrlConnection.mem_replies hr
    obtain ⟨b, rfl⟩ : ∃ b, result = ⟨none, some b⟩ := by simpa using this
    simp
  · rw [← hbody]
    exact HttpUrlConnection.chunks_replies c ks

section Fields
variable [HeaderFields F]

/-- Replies that are true to a response. Its field names are distinct, so a header is
what is found under its name. -/
structure Reports (res : Response F) (rs : List HttpUrlConnection.Reply) : Prop
    extends ReportsBody res rs where
  statusText : ∀ text, .statusText text ∈ rs → text = res.reason
  headers : ∀ hs, .headers hs ∈ rs → ∀ name value,
    HeaderFields.find res.fields name = some value →
      ∃ x ∈ hs, sameName x.1 name = true ∧ x.2 = value

/-- A connection whose fields are those of the response. -/
structure Mirrors (res : Response F) (c : HttpUrlConnection) : Prop where
  statusCode : c.statusCode = res.resultInt
  statusText : c.statusText = res.reason
  headers : ∀ name value, HeaderFields.find res.fields name = some value →
    ∃ x ∈ c.headers, sameName x.1 name = true ∧ x.2 = value
  body : c.body = res.body

theorem Mirrors.reports (hm : Mirrors res c) (ks : List HttpUrlConnection.Call) :
    Reports res (c.replies ks) := by
  refine ⟨reportsBody_replies hm.statusCode hm.body ks, ?_, ?_⟩
  · intro text hr
    have := HttpUrlConnection.mem_replies hr
    simp_all [hm.statusText]
  · intro hs hr
    have := HttpUrlConnection.mem_replies hr
    obtain rfl : hs = c.headers := by simpa using this
    exact hm.headers

/-- Every sequence of calls tells the truth when each method on its own does. -/
theorem reports_iff_mirrors : (∀ ks, Reports res (c.replies ks)) ↔ Mirrors res c := by
  constructor
  · intro h
    refine ⟨?_, ?_, ?_, ?_⟩
    · exact (h [.getStatusCode]).statusCode _ (List.mem_singleton.mpr rfl)
    · exact (h [.getStatusText]).statusText _ (List.mem_singleton.mpr rfl)
    · exact (h [.getHeaders]).headers _ (List.mem_singleton.mpr rfl)
    · have hb := (h [.readBody]).body.once
      simpa [HttpUrlConnection.chunks, HttpUrlConnection.call, HttpUrlConnection.readBody,
        HttpUrlConnection.Reply.chunk] using hb
  · intro hm ks
    exact hm.reports ks

/-- What both read handlers make of a new connection. -/
def received (res : Response F) : HttpUrlConnection :=
  { HttpUrlConnection.empty with statusCode := res.resultInt, body := res.body }

/-- A response with no reason phrase and no header. -/
structure Response.Bare (res : Response F) : Prop where
  reason : res.reason = ""
  fields : ∀ name, HeaderFields.find res.fields name = none

/-- The reason phrase and the headers are never copied, so nothing but a response
without them is mirrored. -/
theorem mirrors_received_iff : Mirrors res (received res) ↔ res.Bare := by
  constructor
  · intro hm
    refine ⟨hm.statusText.symm, ?_⟩
    intro name
    cases hf : HeaderFields.find res.fields name with
    | none => rfl
    | some value =>
      obtain ⟨x, hx, -⟩ := hm.headers name value hf
      simp [received, HttpUrlConnection.empty] at hx
  · rintro ⟨hreason, hfields⟩
    refine ⟨rfl, hreason.symm, ?_, rfl⟩
    intro name value hf
    simp [hfields name] at hf

end Fields

/-- Nothing but a read without error touches the connection or completes without error. -/
theorem invoke_unread (env : Env) (r : RequestResponse F) (hq : h.reads = true → o.err ≠ none) :
    (r.invoke env h o).urlConnection = r.urlConnection ∧
      ∀ c ∈ (r.invoke env h o).completions, c ∈ r.completions ∨ c.error ≠ none := by
  have hi := r.invocation env h o
  generalize r.invoke env h o = r' at hi ⊢
  cases hi with
  | waits | writes | closed => simp_all
  | cannotConnect => simp +contextual [RequestResponse.unableToConnect, or_imp]
  | offline => simp +contextual [RequestResponse.noInternet, or_imp]
  | sslDelivers he | delivers he | deliversTwice he => exact (hq rfl he).elim

/-- A read without error completes once without error, on either path. -/
theorem invoke_read (env : Env) (r : RequestResponse F) (hh : h.reads = true) (he : o.err = none) :
    ∃ later, (r.invoke env h o).completions =
        r.completions ++ ⟨(r.receive o.res).urlConnection, none⟩ :: later ∧
      ∀ c ∈ later, c.error ≠ none := by
  have hi := r.invocation env h o
  generalize r.invoke env h o = r' at hi ⊢
  cases hi with
  | waits _ hr | writes _ hr => simp [hh] at hr
  | closed => simp [Handler.reads] at hh
  | cannotConnect hn | offline hn => exact (hn he).elim
  | sslDelivers => exact ⟨[], by simp⟩
  | delivers => exact ⟨[], by simp⟩
  | deliversTwice => simp [RequestResponse.noInternet]

/-- No response has been read: the connection is the one the constructor made. -/
structure Unread (past : List (Label F)) (s : Exchange F) : Prop where
  noRead : ∀ h o, .invoke h o ∈ past → h.reads = true → o.err ≠ none
  pristine : ∀ r, s = .started r → r.urlConnection = .empty
  notCompleted : ∀ c ∈ s.completions, c.error ≠ none

/-- The response has been read, and whatever was completed without error received it. -/
structure Read (past : List (Label F)) (res : Response F) (s : Exchange F) : Prop where
  only : ∀ h o, .invoke h o ∈ past → h.reads = true → o.err = none → o.res = res
  settled : s.settled = true
  completed : ∃ c ∈ s.completions, c.error = none
  response : ∀ c ∈ s.completions, c.error = none → c.response = received res

theorem mem_concat_invoke {k : Handler} {p : Outcome F} :
    Label.invoke k p ∈ past ++ [.invoke h o] ↔ .invoke k p ∈ past ∨ k = h ∧ p = o := by
  simp

theorem unread_invoke (hu : Unread past (.started r)) (hq : h.reads = true → o.err ≠ none) :
    Unread (past ++ [.invoke h o]) (.started (r.invoke env h o)) := by
  obtain ⟨hconn, hmem⟩ := invoke_unread env r hq
  refine ⟨?_, ?_, ?_⟩
  · intro k p hk
    rcases mem_concat_invoke.mp hk with hk | ⟨rfl, rfl⟩
    · exact hu.noRead k p hk
    · exact hq
  · intro r' hr
    cases hr
    rw [hconn]
    exact hu.pristine r rfl
  · intro c hc
    rcases hmem c hc with hc | hc
    · exact hu.notCompleted c hc
    · exact hc

theorem read_invoke (hu : Unread past (.started r)) (hh : h.reads = true) (he : o.err = none) :
    Read (past ++ [.invoke h o]) o.res (.started (r.invoke env h o)) := by
  obtain ⟨later, hc, hlater⟩ := invoke_read env r hh he
  refine ⟨?_, ?_, ?_, ?_⟩
  · intro k p hk hkr hpe
    rcases mem_concat_invoke.mp hk with hk | ⟨rfl, rfl⟩
    · exact (hu.noRead k p hk hkr hpe).elim
    · rfl
  · apply invoke_settled.mpr
    left
    simp [verdict_delivered.mpr ⟨hh, he⟩]
  · exact ⟨⟨(r.receive o.res).urlConnection, none⟩, by simp [Exchange.completions, hc], rfl⟩
  · intro c hm hnone
    simp only [Exchange.completions, hc, List.mem_append, List.mem_cons] at hm
    rcases hm with hm | rfl | hm
    · exact (hu.notCompleted c hm hnone).elim
    · simp [received, hu.pristine r rfl]
    · exact (hlater c hm hnone).elim

section Runs
variable [HeaderFields F]

theorem unread_execute (hu : Unread past (.idle : Exchange F)) :
    Unread (past ++ [.execute]) (AsioHttpClient.execute env request) := by
  have hr : ∀ h o, .invoke h o ∈ past ++ [.execute] → h.reads = true → o.err ≠ none := by
    simpa using hu.noRead
  unfold AsioHttpClient.execute
  split
  · exact ⟨hr, by simp, by simp [Exchange.completions]⟩
  · refine ⟨hr, ?_, by simp [Exchange.completions]⟩
    intro r he
    cases he
    simp

theorem unread_step (hu : Unread past s) (hs : (exchange F env request).step s l t) :
    Unread (past ++ [l]) t ∨ ∃ res, Read (past ++ [l]) res t := by
  obtain ⟨rfl, rfl, rfl⟩ | ⟨r, h, o, rfl, rfl, hp, rfl⟩ := exchange_step hs
  · exact Or.inl (unread_execute hu)
  · by_cases hread : h.reads = true ∧ o.err = none
    · exact Or.inr ⟨o.res, read_invoke hu hread.1 hread.2⟩
    · exact Or.inl (unread_invoke hu fun hh he => hread ⟨hh, he⟩)

/-- After a read there is at most the closing of the TLS stream to come. -/
theorem read_step (hr : Read past res s) (hs : (exchange F env request).step s l t) :
    Read (past ++ [l]) res t := by
  obtain ⟨rfl, rfl, rfl⟩ | ⟨r, h, o, rfl, rfl, hp, rfl⟩ := exchange_step hs
  · cases hr.settled
  · obtain rfl : h = .sslHandleShutdown := (settled_of_pending hp).mp hr.settled
    refine ⟨?_, rfl, hr.completed, hr.response⟩
    intro k p hk hkr
    rcases mem_concat_invoke.mp hk with hk | ⟨rfl, rfl⟩
    · exact hr.only k p hk hkr
    · cases hkr

theorem unread_or_read (hr : (exchange F env request).Run .idle past s) :
    Unread past s ∨ ∃ res, Read past res s := by
  refine hr.carries (P := fun past s => Unread past s ∨ ∃ res, Read past res s) ?_ ?_
  · left
    refine ⟨by simp, by simp, by simp [Exchange.completions]⟩
  · rintro past s l t (hu | ⟨res, hd⟩) hs
    · exact unread_step hu hs
    · exact Or.inr ⟨res, read_step hd hs⟩

/-- The core is handed the response, in a connection that is true to it. -/
structure Delivered (res : Response F) (s : Exchange F) : Prop where
  completed : ∃ c ∈ s.completions, c.error = none
  reports : ∀ c ∈ s.completions, c.error = none → ∀ ks, Reports res (c.response.replies ks)

theorem Read.delivered_iff (hr : Read past res s) : Delivered res s ↔ res.Bare := by
  rw [← mirrors_received_iff, ← reports_iff_mirrors]
  constructor
  · intro hd
    obtain ⟨c, hc, hn⟩ := hd.completed
    rw [← hr.response c hc hn]
    exact hd.reports c hc hn
  · intro hm
    refine ⟨hr.completed, ?_⟩
    intro c hc hn
    rw [hr.response c hc hn]
    exact hm

theorem read_of_run (hr : (exchange F env request).Run .idle past s)
    (hm : .invoke h o ∈ past) (hh : h.reads = true) (he : o.err = none) : Read past o.res s := by
  rcases unread_or_read hr with hu | ⟨res, hd⟩
  · exact (hu.noRead h o hm hh he).elim
  · rw [hd.only h o hm hh he]
    exact hd

/-- The status code and the body reach the core whatever the response. -/
theorem client_delivers_body [DecidableEq ι] {requests : ι → HttpRequest}
    {steps : List (ι × Label F)} {state : ι → Exchange F}
    (hr : (client F env requests).Run (fun _ => .idle) steps state) {i : ι}
    (hm : (i, .invoke h o) ∈ steps) (hh : h.reads = true) (he : o.err = none) :
    ∀ c ∈ (state i).completions, c.error = none →
      ∀ ks, ReportsBody o.res (c.response.replies ks) := by
  have hread : Read (ofMember i steps) o.res (state i) :=
    read_of_run (run_ofMember hr i) (mem_ofMember.mpr hm) hh he
  intro c hc hn ks
  rw [hread.response c hc hn]
  exact reportsBody_replies rfl rfl ks

/-- Along every interleaved run of any number of requests, a response that was read
without error reaches the core in full exactly when it has no reason phrase and no
header. -/
theorem client_delivers_iff_bare [DecidableEq ι] {requests : ι → HttpRequest}
    {steps : List (ι × Label F)} {state : ι → Exchange F}
    (hr : (client F env requests).Run (fun _ => .idle) steps state) {i : ι}
    (hm : (i, .invoke h o) ∈ steps) (hh : h.reads = true) (he : o.err = none) :
    Delivered o.res (state i) ↔ o.res.Bare := by
  have hread : Read (ofMember i steps) o.res (state i) :=
    read_of_run (run_ofMember hr i) (mem_ofMember.mpr hm) hh he
  exact hread.delivered_iff

end Runs

section Localhost

/-- The server on this machine answers with `res`, and nothing goes wrong. -/
def answeredSteps (res : Response FieldList) : List (Label FieldList) :=
  [.execute, .invoke .handleResolve ⟨none, res, none⟩, .invoke .handleConnect ⟨none, res, none⟩,
    .invoke .handleWriteRequest ⟨none, res, none⟩, .invoke .handleReadResponse ⟨none, res, none⟩]

/-- Three bytes under a status line without a phrase. -/
def bareResponse : Response FieldList := ⟨200, "", [], [1, 2, 3]⟩

theorem client_delivers_bare : ∃ state,
    (client FieldList localEnv fun _ : Unit => localRequest).Run (fun _ => .idle)
      ((answeredSteps bareResponse).map (Prod.mk ())) state ∧
    Delivered bareResponse (state ()) := by
  have run : (client FieldList localEnv fun _ : Unit => localRequest).Run (fun _ => .idle)
      ((answeredSteps bareResponse).map (Prod.mk ())) _ :=
    run_of_member (i := ()) (run_ofNext.mpr rfl)
  have hm : ((), .invoke .handleReadResponse ⟨none, bareResponse, none⟩) ∈
      (answeredSteps bareResponse).map (Prod.mk ()) := by simp [answeredSteps]
  exact ⟨_, run, (client_delivers_iff_bare run hm rfl rfl).mpr ⟨rfl, fun _ => rfl⟩⟩

/-- A page that is not there, with the type of what is sent in its place. -/
def missingResponse : Response FieldList :=
  ⟨404, "Not Found", [("Content-Type", "application/json")], [123, 125]⟩

theorem status_text_lost :
    ¬ ∀ steps state,
      (client FieldList localEnv fun _ : Unit => localRequest).Run (fun _ => .idle) steps state →
      ∀ i h o, (i, .invoke h o) ∈ steps → h.reads = true → o.err = none →
        Delivered o.res (state i) := by
  intro h
  have run : (client FieldList localEnv fun _ : Unit => localRequest).Run (fun _ => .idle)
      ((answeredSteps missingResponse).map (Prod.mk ())) _ :=
    run_of_member (i := ()) (run_ofNext.mpr rfl)
  have hm : ((), .invoke .handleReadResponse ⟨none, missingResponse, none⟩) ∈
      (answeredSteps missingResponse).map (Prod.mk ()) := by simp [answeredSteps]
  have hd := h _ _ run () .handleReadResponse ⟨none, missingResponse, none⟩ hm rfl rfl
  -- The phrase of a new connection is answered in place of the response's.
  have text := (hd.reports ⟨received missingResponse, none⟩ (by decide) rfl
    [.getStatusText]).statusText "" (by decide)
  exact absurd text (by decide)

end Localhost

end LibCoreCmd.Http

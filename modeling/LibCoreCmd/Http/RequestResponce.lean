import LibCoreCmd.Http.Message
import LibCoreCmd.Transition

/-! `RequestResponse`: one HTTP exchange as a chain of asio handlers, each started
by the one before it, over TLS or over the plain socket. -/
namespace LibCoreCmd.Http

open Transition

variable {F : Type} {ι : Type}

/-- The handler that an outstanding async operation will invoke. -/
inductive Handler where
  | handleResolve
  | sslHandleConnect | sslHandleHandshake | sslHandleWriteRequest | sslHandleReadResponse
  | sslHandleShutdown
  | handleConnect | handleWriteRequest | handleReadResponse
  deriving DecidableEq, Repr

/-- Resolve, connect and handshake. -/
def Handler.connects : Handler → Bool
  | .handleResolve | .sslHandleConnect | .sslHandleHandshake | .handleConnect => true
  | _ => false

def Handler.reads : Handler → Bool
  | .sslHandleReadResponse | .handleReadResponse => true
  | _ => false

/-- Write and read. -/
def Handler.transfers : Handler → Bool
  | .sslHandleWriteRequest | .handleWriteRequest => true
  | .sslHandleReadResponse | .handleReadResponse => true
  | _ => false

/-- What a handler finds when it is invoked: the code it is passed, the response that
a read left in `res_`, and the answer of a synchronous `socket_.shutdown`. -/
structure Outcome (F : Type) where
  err : Option SystemError
  res : Response F
  shutdownErr : Option SystemError
  deriving DecidableEq

/-- One call of `api::HttpRequest::complete`. -/
structure Completion where
  response : HttpUrlConnection
  error : Option Error
  deriving DecidableEq, Repr

def Completion.code (c : Completion) : Option ErrorCode := c.error.map Error.code

/-- The object of one exchange, with what it has asked of asio and of the core:
`resolving` is the resolver's query, `written` the messages handed to `async_write`. -/
structure RequestResponse (F : Type) where
  uri : Uri
  apiRequest : HttpRequest
  serverName : String
  req : Message F
  urlConnection : HttpUrlConnection
  resolving : Option (String × String)
  pending : Option Handler
  written : List (Message F)
  completions : List Completion
  deriving DecidableEq

/-- The request target put together in the constructor. -/
def Uri.target (u : Uri) : String :=
  let query := u.query.getD ""
  let fragment := u.fragment.getD ""
  u.path ++ (if query.isEmpty then "" else "?" ++ query) ++
    (if fragment.isEmpty then "" else "#" ++ fragment)

/-- The header fields put together in the constructor. -/
def Env.fields [HeaderFields F] (env : Env) (u : Uri) (request : HttpRequest) : F :=
  setAll (HeaderFields.set (HeaderFields.set HeaderFields.empty "Host" u.authority)
    "User-Agent" env.beastVersion) request.headers

/-- The constructor. When the server name is refused it returns before the request
message is filled in. -/
def RequestResponse.new [HeaderFields F] (env : Env) (uri : Uri) (request : HttpRequest) :
    RequestResponse F :=
  let r : RequestResponse F :=
    { uri, apiRequest := request, serverName := uri.authority, req := Message.default F,
      urlConnection := .empty, resolving := none, pending := none, written := [],
      completions := [] }
  if env.setTlsextHostName uri.authority then
    { r with req := { Message.default F with
        version := 11, method := .get, target := uri.target, fields := env.fields uri request } }
  else r

namespace RequestResponse

def execute (r : RequestResponse F) : RequestResponse F :=
  let port := r.uri.port.getD ""
  let service := if port.isEmpty then r.uri.scheme else port
  { r with resolving := some (r.uri.host, service), pending := some .handleResolve }

/-- `apiRequest_->complete(urlConnection, error)`. -/
def complete (r : RequestResponse F) (error : Option Error) : RequestResponse F :=
  { r with completions := r.completions ++ [⟨r.urlConnection, error⟩] }

/-- An async operation is started; asio will invoke the handler once. -/
def await (r : RequestResponse F) (h : Handler) : RequestResponse F := { r with pending := some h }

/-- `http::async_write` of the request message. -/
def asyncWrite (r : RequestResponse F) (h : Handler) : RequestResponse F :=
  { r with written := r.written ++ [r.req], pending := some h }

variable (env : Env) (r : RequestResponse F) (err : Option SystemError)

def unableToConnect : RequestResponse F :=
  r.complete (some ⟨.unableToConnectToHost, env.message err⟩)

def noInternet : RequestResponse F :=
  r.complete (some ⟨.noInternetConnectivity, env.message err⟩)

def handleResolve : RequestResponse F :=
  match err with
  | none => if r.uri.scheme = "https" then r.await .sslHandleConnect else r.await .handleConnect
  | some _ => r.unableToConnect env err

def sslHandleConnect : RequestResponse F :=
  match err with
  | none => r.await .sslHandleHandshake
  | some _ => r.unableToConnect env err

def sslHandleHandshake : RequestResponse F :=
  match err with
  | some _ => r.unableToConnect env err
  | none => r.asyncWrite .sslHandleWriteRequest

def sslHandleWriteRequest : RequestResponse F :=
  match err with
  | none => r.await .sslHandleReadResponse
  | some _ => r.noInternet env err

/-- The fields both read handlers copy into the connection. -/
def receive (res : Response F) : RequestResponse F :=
  { r with urlConnection := { r.urlConnection with statusCode := res.resultInt, body := res.body } }

def sslHandleReadResponse (res : Response F) : RequestResponse F :=
  match err with
  | some _ => r.noInternet env err
  | none => ((r.receive res).complete none).await .sslHandleShutdown

def sslHandleShutdown (_err : Option SystemError) : RequestResponse F := r

def handleConnect : RequestResponse F :=
  match err with
  | none => r.asyncWrite .handleWriteRequest
  | some _ => r.unableToConnect env err

def handleWriteRequest : RequestResponse F :=
  match err with
  | none => r.await .handleReadResponse
  | some _ => r.noInternet env err

/-- Unlike the TLS handler, this one closes the socket itself and completes once
more, with the message of the read, when closing fails. -/
def handleReadResponse (res : Response F) (ec : Option SystemError) : RequestResponse F :=
  match err with
  | some _ => r.noInternet env err
  | none =>
    let r := (r.receive res).complete none
    if ec ≠ none ∧ ec ≠ some .notConnected then r.noInternet env err else r

/-- The operation asio has carried out is no longer outstanding. -/
def clear : RequestResponse F := { r with pending := none }

/-- Asio invokes the handler of the operation it has carried out. -/
def invoke (h : Handler) (o : Outcome F) : RequestResponse F :=
  let r := r.clear
  match h with
  | .handleResolve => r.handleResolve env o.err
  | .sslHandleConnect => r.sslHandleConnect env o.err
  | .sslHandleHandshake => r.sslHandleHandshake env o.err
  | .sslHandleWriteRequest => r.sslHandleWriteRequest env o.err
  | .sslHandleReadResponse => r.sslHandleReadResponse env o.err o.res
  | .sslHandleShutdown => r.sslHandleShutdown o.err
  | .handleConnect => r.handleConnect env o.err
  | .handleWriteRequest => r.handleWriteRequest env o.err
  | .handleReadResponse => r.handleReadResponse env o.err o.res o.shutdownErr

variable {env r err} {error : Option Error} {h : Handler} {res : Response F}
  {ec : Option SystemError}

@[simp] theorem completions_execute : r.execute.completions = r.completions := rfl
@[simp] theorem pending_execute : r.execute.pending = some .handleResolve := rfl
@[simp] theorem req_execute : r.execute.req = r.req := rfl
@[simp] theorem written_execute : r.execute.written = r.written := rfl
@[simp] theorem urlConnection_execute : r.execute.urlConnection = r.urlConnection := rfl

@[simp] theorem completions_complete :
    (r.complete error).completions = r.completions ++ [⟨r.urlConnection, error⟩] := rfl
@[simp] theorem pending_complete : (r.complete error).pending = r.pending := rfl
@[simp] theorem req_complete : (r.complete error).req = r.req := rfl
@[simp] theorem written_complete : (r.complete error).written = r.written := rfl
@[simp] theorem urlConnection_complete : (r.complete error).urlConnection = r.urlConnection := rfl

@[simp] theorem completions_await : (r.await h).completions = r.completions := rfl
@[simp] theorem pending_await : (r.await h).pending = some h := rfl
@[simp] theorem req_await : (r.await h).req = r.req := rfl
@[simp] theorem written_await : (r.await h).written = r.written := rfl
@[simp] theorem urlConnection_await : (r.await h).urlConnection = r.urlConnection := rfl

@[simp] theorem completions_asyncWrite : (r.asyncWrite h).completions = r.completions := rfl
@[simp] theorem pending_asyncWrite : (r.asyncWrite h).pending = some h := rfl
@[simp] theorem req_asyncWrite : (r.asyncWrite h).req = r.req := rfl
@[simp] theorem written_asyncWrite : (r.asyncWrite h).written = r.written ++ [r.req] := rfl
@[simp] theorem urlConnection_asyncWrite : (r.asyncWrite h).urlConnection = r.urlConnection := rfl

@[simp] theorem completions_receive : (r.receive res).completions = r.completions := rfl
@[simp] theorem pending_receive : (r.receive res).pending = r.pending := rfl
@[simp] theorem req_receive : (r.receive res).req = r.req := rfl
@[simp] theorem written_receive : (r.receive res).written = r.written := rfl
@[simp] theorem urlConnection_receive : (r.receive res).urlConnection =
    { r.urlConnection with statusCode := res.resultInt, body := res.body } := rfl

section New
variable [HeaderFields F] {uri : Uri} {request : HttpRequest}

@[simp] theorem completions_new : (new env uri request : RequestResponse F).completions = [] := by
  unfold new
  split <;> rfl

@[simp] theorem uri_new : (new env uri request : RequestResponse F).uri = uri := by
  unfold new
  split <;> rfl

@[simp] theorem written_new : (new env uri request : RequestResponse F).written = [] := by
  unfold new
  split <;> rfl

@[simp] theorem urlConnection_new :
    (new env uri request : RequestResponse F).urlConnection = .empty := by
  unfold new
  split <;> rfl

end New

@[simp] theorem completions_clear : r.clear.completions = r.completions := rfl
@[simp] theorem pending_clear : r.clear.pending = none := rfl
@[simp] theorem req_clear : r.clear.req = r.req := rfl
@[simp] theorem written_clear : r.clear.written = r.written := rfl
@[simp] theorem urlConnection_clear : r.clear.urlConnection = r.urlConnection := rfl

/-- A socket that is shut down without error, or was closed by the peer before. -/
def Closed (ec : Option SystemError) : Prop := ec = none ∨ ec = some .notConnected

instance : Decidable (Closed ec) := inferInstanceAs (Decidable (_ ∨ _))

/-- All that an invoked handler can do. -/
inductive Invocation (env : Env) (r : RequestResponse F) :
    Handler → Outcome F → RequestResponse F → Prop where
  | waits {h o k} : o.err = none → h.reads = false → h ≠ .sslHandleShutdown →
      k ≠ .sslHandleShutdown → Invocation env r h o (r.await k)
  | writes {h o k} : o.err = none → h.reads = false → h ≠ .sslHandleShutdown →
      k ≠ .sslHandleShutdown → Invocation env r h o (r.asyncWrite k)
  | closed {o} : Invocation env r .sslHandleShutdown o r.clear
  | cannotConnect {h o} : o.err ≠ none → h.connects = true →
      Invocation env r h o (r.clear.unableToConnect env o.err)
  | offline {h o} : o.err ≠ none → h.transfers = true →
      Invocation env r h o (r.clear.noInternet env o.err)
  | sslDelivers {o} : o.err = none →
      Invocation env r .sslHandleReadResponse o
        (((r.clear.receive o.res).complete none).await .sslHandleShutdown)
  | delivers {o} : o.err = none → Closed o.shutdownErr →
      Invocation env r .handleReadResponse o ((r.clear.receive o.res).complete none)
  | deliversTwice {o} : o.err = none → ¬ Closed o.shutdownErr →
      Invocation env r .handleReadResponse o
        (((r.clear.receive o.res).complete none).noInternet env none)

theorem invocation (env : Env) (r : RequestResponse F) (h : Handler) (o : Outcome F) :
    Invocation env r h o (r.invoke env h o) := by
  cases he : o.err with
  | some e =>
    have hne : o.err ≠ none := by simp [he]
    cases h with
    | handleResolve | sslHandleConnect | sslHandleHandshake | handleConnect =>
      simp only [invoke, he, handleResolve, sslHandleConnect, sslHandleHandshake, handleConnect]
      rw [← he]
      exact .cannotConnect hne rfl
    | sslHandleWriteRequest | sslHandleReadResponse | handleWriteRequest | handleReadResponse =>
      simp only [invoke, he, sslHandleWriteRequest, sslHandleReadResponse, handleWriteRequest,
        handleReadResponse]
      rw [← he]
      exact .offline hne rfl
    | sslHandleShutdown => exact .closed
  | none =>
    cases h with
    | handleResolve =>
      simp only [invoke, he, handleResolve]
      split
      · exact .waits he rfl (by simp) (by simp)
      · exact .waits he rfl (by simp) (by simp)
    | sslHandleConnect | sslHandleWriteRequest | handleWriteRequest =>
      simp only [invoke, he, sslHandleConnect, sslHandleWriteRequest, handleWriteRequest]
      exact .waits he rfl (by simp) (by simp)
    | sslHandleHandshake | handleConnect =>
      simp only [invoke, he, sslHandleHandshake, handleConnect]
      exact .writes he rfl (by simp) (by simp)
    | sslHandleReadResponse =>
      simp only [invoke, he, sslHandleReadResponse]
      exact .sslDelivers he
    | handleReadResponse =>
      simp only [invoke, he, handleReadResponse, ← not_or]
      split
      · exact .deliversTwice he ‹_›
      · exact .delivers he (not_not.mp ‹_›)
    | sslHandleShutdown => exact .closed

end RequestResponse

/-- A request before it is executed, after `execute` threw because its URL is no
URI, or with its exchange under way. -/
inductive Exchange (F : Type) where
  | idle
  | refused
  | started (r : RequestResponse F)
  deriving DecidableEq

/-- `AsioHttpClient::execute` is called, or asio invokes an outstanding handler. -/
inductive Label (F : Type) where
  | execute
  | invoke (h : Handler) (o : Outcome F)
  deriving DecidableEq

/-- `AsioHttpClient::execute`. -/
def AsioHttpClient.execute [HeaderFields F] (env : Env) (request : HttpRequest) : Exchange F :=
  match env.parseUri request.url with
  | none => .refused
  | some uri => .started (RequestResponse.new env uri request).execute

namespace Exchange

def completions : Exchange F → List Completion
  | .started r => r.completions
  | _ => []

def pending : Exchange F → Option Handler
  | .started r => r.pending
  | _ => none

def written : Exchange F → List (Message F)
  | .started r => r.written
  | _ => []

def next [HeaderFields F] (env : Env) (request : HttpRequest) :
    Exchange F → Label F → Option (Exchange F)
  | .idle, .execute => some (AsioHttpClient.execute env request)
  | .started r, .invoke h o =>
    if r.pending = some h then some (.started (r.invoke env h o)) else none
  | _, _ => none

end Exchange

/-- One request on its own. -/
def exchange (F : Type) [HeaderFields F] (env : Env) (request : HttpRequest) :
    System (Exchange F) (Label F) :=
  System.ofNext fun s l => s.next env request l

/-- Any number of requests on one client, their steps interleaved. -/
def client (F : Type) [HeaderFields F] (env : Env) (requests : ι → HttpRequest) :
    System (ι → Exchange F) (ι × Label F) :=
  interleave fun i => exchange F env (requests i)

theorem exchange_step [HeaderFields F] {env : Env} {request : HttpRequest} {s t : Exchange F}
    {l : Label F}
    (h : (exchange F env request).step s l t) :
    (s = .idle ∧ l = .execute ∧ t = AsioHttpClient.execute env request) ∨
      ∃ r hd o, s = .started r ∧ l = .invoke hd o ∧ r.pending = some hd ∧
        t = .started (r.invoke env hd o) := by
  change s.next env request l = some t at h
  cases s <;> cases l <;> simp only [Exchange.next, reduceCtorEq, Option.some.injEq] at h
  · exact Or.inl ⟨rfl, rfl, h.symm⟩
  · rename_i r hd o
    split at h
    · rename_i hp
      exact Or.inr ⟨r, hd, o, rfl, rfl, hp, by simpa using h.symm⟩
    · cases h

theorem step_execute [HeaderFields F] (env : Env) (request : HttpRequest) :
    (exchange F env request).step .idle .execute (AsioHttpClient.execute env request) := rfl

theorem step_invoke [HeaderFields F] (env : Env) (request : HttpRequest) (r : RequestResponse F)
    {h : Handler} (o : Outcome F) (hp : r.pending = some h) :
    (exchange F env request).step (.started r) (.invoke h o) (.started (r.invoke env h o)) := by
  simp [exchange, System.ofNext, Exchange.next, hp]

end LibCoreCmd.Http

import LibCoreCmd.Http.Wire

/-! What the parts of a URL are used for: the host to resolve, the server name for TLS, the `Host`
field and the request target. -/
namespace LibCoreCmd.Http

variable {F : Type} [HeaderFields F] {env : Env} {uri : Uri} {request : HttpRequest} {f : F}
  {n : String} {hs : List (String × String)}

def defaultPort (scheme : String) : String := if scheme = "https" then "443" else "80"

/-- The port that the resolver knows for the name of a service. -/
def servicePort (service : String) : String :=
  if service = "http" ∨ service = "https" then defaultPort service else service

/-- The port to connect to: the explicit one if there is one. -/
def Uri.portOrDefault (u : Uri) : String :=
  match u.port with
  | some p => if p.isEmpty then defaultPort u.scheme else p
  | none => defaultPort u.scheme

def Uri.hostField (u : Uri) : String :=
  u.host ++ match u.port with
    | some p => ":" ++ p
    | none => ""

def Uri.requestTarget (u : Uri) : String :=
  (if u.path.isEmpty then "/" else u.path) ++ match u.query with
    | some q => "?" ++ q
    | none => ""

/-- The exchange speaks to one server under one name, and asks it for what the URL names. -/
structure OneServer (uri : Uri) (r : RequestResponse F) : Prop where
  resolved : ∃ service, r.resolving = some (uri.host, service) ∧
    servicePort service = uri.portOrDefault
  serverName : r.serverName = uri.host
  hostField : HeaderFields.find r.req.fields "Host" = some uri.hostField
  target : r.req.target = uri.requestTarget

/-- The value of the last listed field of this name. -/
def lastValue (n : String) (hs : List (String × String)) : Option String :=
  (hs.reverse.find? fun x => sameName x.1 n).map (·.2)

/-- The URLs and requests for which it does. -/
structure Plain (env : Env) (uri : Uri) (request : HttpRequest) : Prop where
  userinfo : uri.userinfo = none
  port : uri.port = none
  path : uri.path ≠ ""
  query : uri.query ≠ some ""
  fragment : uri.fragment.getD "" = ""
  accepted : env.setTlsextHostName uri.host = true
  host : ∀ v, lastValue "Host" request.headers = some v → v = uri.host

theorem find_setAll : HeaderFields.find (setAll f hs) n =
    (lastValue n hs).or (HeaderFields.find f n) := by
  induction hs using List.reverseRecOn with
  | nil => rfl
  | append_singleton hs x ih =>
    rw [setAll_concat, HeaderFields.find_set, ih, lastValue, lastValue, List.reverse_append,
      List.reverse_singleton, List.singleton_append, List.find?_cons]
    cases sameName x.1 n <;> simp

theorem authority_eq_host_iff :
    uri.authority = uri.host ↔ uri.userinfo = none ∧ uri.port = none := by
  constructor
  · intro h
    have hlen := congrArg String.length h
    have hat : "@".length = 1 := rfl
    have hcolon : ":".length = 1 := rfl
    unfold Uri.authority at hlen
    cases hu : uri.userinfo <;> cases hp : uri.port
    all_goals simp [hu, hp, String.length_append] at hlen ⊢
    all_goals omega
  · rintro ⟨hu, hp⟩
    simp [Uri.authority, hu, hp]

theorem target_eq_iff : uri.target = uri.requestTarget ↔
    uri.path ≠ "" ∧ uri.query ≠ some "" ∧ uri.fragment.getD "" = "" := by
  rw [← String.toList_inj]
  unfold Uri.target Uri.requestTarget
  generalize uri.fragment.getD "" = fragment
  by_cases hp : uri.path = "" <;> by_cases hf : fragment = "" <;> cases hq : uri.query with
  | none => simp [hp, hf]
  | some q => by_cases hq' : q = "" <;> simp [hp, hf, hq']

theorem requestTarget_ne : uri.requestTarget ≠ "" := by
  rw [ne_eq, ← String.toList_inj]
  unfold Uri.requestTarget
  by_cases hp : uri.path = "" <;> simp [hp]

theorem find_host : HeaderFields.find (env.fields uri request : F) "Host" =
    some ((lastValue "Host" request.headers).getD uri.authority) := by
  have hother : sameName "User-Agent" "Host" = false := by decide
  rw [Env.fields, find_setAll, HeaderFields.find_set, hother, HeaderFields.find_set, sameName_self]
  cases lastValue "Host" request.headers <;> rfl

theorem target_new_refused (h : ¬ env.setTlsextHostName uri.authority = true) :
    (RequestResponse.new env uri request : RequestResponse F).req.target = "" := by
  rw [RequestResponse.new, if_neg h]
  rfl

theorem resolved_plain (hscheme : uri.scheme = "http" ∨ uri.scheme = "https")
    (hp : uri.port = none) : servicePort uri.scheme = uri.portOrDefault := by
  rw [servicePort, if_pos hscheme, Uri.portOrDefault, hp]

theorem serverName_new :
    (RequestResponse.new env uri request : RequestResponse F).serverName = uri.authority := by
  rw [RequestResponse.new]
  split <;> rfl

/-- The exchange speaks to one server under one name exactly when the URL has neither user
information nor a port, and nothing in its path, query and fragment that the target loses or
keeps by mistake; and no header of the request puts another host. -/
theorem oneServer_iff (hscheme : uri.scheme = "http" ∨ uri.scheme = "https") :
    OneServer uri (RequestResponse.new env uri request : RequestResponse F).execute ↔
      Plain env uri request := by
  constructor
  · rintro ⟨-, hname, hhost, htarget⟩
    have hauthority : uri.authority = uri.host := serverName_new.symm.trans hname
    obtain ⟨huser, hport⟩ := authority_eq_host_iff.mp hauthority
    have haccepted : env.setTlsextHostName uri.authority = true := by
      by_contra h
      have hempty := @target_new_refused F _ env uri request h
      exact requestTarget_ne (htarget.symm.trans hempty)
    change (RequestResponse.new env uri request).req.target = _ at htarget
    change HeaderFields.find (RequestResponse.new env uri request).req.fields _ = _ at hhost
    rw [req_new haccepted] at htarget hhost
    obtain ⟨hpath, hquery, hfragment⟩ := target_eq_iff.mp htarget
    refine ⟨huser, hport, hpath, hquery, hfragment, hauthority ▸ haccepted, fun v hv => ?_⟩
    rw [find_host, hv, Uri.hostField, hport, Option.some.injEq] at hhost
    simpa using hhost
  · rintro ⟨huser, hport, hpath, hquery, hfragment, haccepted, hhost⟩
    have hauthority : uri.authority = uri.host := authority_eq_host_iff.mpr ⟨huser, hport⟩
    have hreq : (RequestResponse.new env uri request : RequestResponse F).req = _ :=
      req_new (hauthority ▸ haccepted)
    refine ⟨⟨uri.scheme, ?_, resolved_plain hscheme hport⟩, serverName_new.trans hauthority, ?_, ?_⟩
    · simp [RequestResponse.execute, hport]
    · change HeaderFields.find (RequestResponse.new env uri request).req.fields _ = _
      rw [hreq, find_host, Uri.hostField, hport, Option.some.injEq, String.append_empty, hauthority]
      cases hlast : lastValue "Host" request.headers with
      | none => rfl
      | some v => exact hhost v hlast
    · change (RequestResponse.new env uri request).req.target = _
      rw [hreq]
      exact target_eq_iff.mpr ⟨hpath, hquery, hfragment⟩

/-- The request for the current block, sent to a server on this machine. -/
def currentBlockRequest (url : String) : HttpRequest := ⟨.get, url, [], [], List.nodup_nil⟩

theorem oneServer_localhost : OneServer ⟨"http", none, "localhost", none, "/", none, none⟩
    (RequestResponse.new localEnv ⟨"http", none, "localhost", none, "/", none, none⟩
      (currentBlockRequest "http://localhost/") : RequestResponse FieldList).execute := by
  refine (oneServer_iff (Or.inl rfl)).mpr ⟨rfl, rfl, by decide, nofun, rfl, rfl, nofun⟩

/-- With an explicit port, the server name for TLS is no host name. -/
theorem port_in_serverName : ¬ OneServer ⟨"https", none, "localhost", some "8443", "/", none, none⟩
    (RequestResponse.new localEnv ⟨"https", none, "localhost", some "8443", "/", none, none⟩
      (currentBlockRequest "https://localhost:8443/") : RequestResponse FieldList).execute := by
  intro h
  exact absurd h.serverName (by decide)

end LibCoreCmd.Http

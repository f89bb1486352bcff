import Mathlib.Tactic.Common
import Mathlib.Data.List.Nodup
import Mathlib.Data.List.Induction

/-! Requests, responses and connections as the HTTP client sees them. The URL
parser, the TLS library and the message header container are not part of the
repository: what the client uses of them is a parameter. -/
namespace LibCoreCmd.Http

abbrev Bytes := List UInt8

/-- `api::HttpMethod`. -/
inductive HttpMethod where
  | get | post | put | del
  deriving DecidableEq, Repr

/-- `api::HttpRequest`; the header map has one value for each key. -/
structure HttpRequest where
  method : HttpMethod
  url : String
  headers : List (String × String)
  body : Bytes
  headers_nodup : (headers.map Prod.fst).Nodup
  deriving DecidableEq

/-- The `api::ErrorCode` values this program names; the library has more. -/
inductive ErrorCode where
  | unableToConnectToHost | noInternetConnectivity | unknown
  | other (code : Int)
  deriving DecidableEq, Repr

/-- `api::Error`. -/
structure Error where
  code : ErrorCode
  message : String
  deriving DecidableEq, Repr

/-- A failing `system::error_code`; success is the absence of one. -/
inductive SystemError where
  | notConnected
  | other (value : Int)
  deriving DecidableEq, Repr

/-- The components of a URL as `network::uri` returns them. -/
structure Uri where
  scheme : String
  userinfo : Option String
  host : String
  port : Option String
  path : String
  query : Option String
  fragment : Option String
  deriving DecidableEq, Repr

def Uri.authority (u : Uri) : String :=
  (match u.userinfo with | some i => i ++ "@" | none => "") ++ u.host ++
    (match u.port with | some p => ":" ++ p | none => "")

/-- Field names are compared without regard to letter case. -/
def sameName (m n : String) : Bool := m.toList.map Char.toLower == n.toList.map Char.toLower

/-- What the client uses of the header container of a message: `set` removes
every field of that name and inserts the new one. -/
class HeaderFields (F : Type) where
  empty : F
  set : F → String → String → F
  find : F → String → Option String
  find_empty : ∀ n, find empty n = none
  find_congr : ∀ f m n, sameName m n → find f m = find f n
  find_set : ∀ f m v n, find (set f m v) n = if sameName m n then some v else find f n

/-- `http::verb`, as far as a request of this client can need it; a message
starts out with `unknown`. -/
inductive Verb where
  | unknown | get | post | put | delete
  deriving DecidableEq, Repr

def HttpMethod.verb : HttpMethod → Verb
  | .get => .get
  | .post => .post
  | .put => .put
  | .del => .delete

/-- `http::request<http::string_body>`. -/
structure Message (F : Type) where
  version : Nat
  method : Verb
  target : String
  fields : F
  body : Bytes
  deriving DecidableEq

/-- A message as its default constructor leaves it. -/
def Message.default (F : Type) [HeaderFields F] : Message F :=
  { version := 11, method := .unknown, target := "", fields := HeaderFields.empty, body := [] }

/-- `http::response<http::vector_body<uint8_t>>`. -/
structure Response (F : Type) where
  resultInt : Int
  reason : String
  fields : F
  body : Bytes
  deriving DecidableEq

/-- The connection object handed to the core with a completion. -/
structure HttpUrlConnection where
  statusCode : Int
  statusText : String
  headers : List (String × String)
  body : Bytes
  deriving DecidableEq, Repr

def HttpUrlConnection.empty : HttpUrlConnection :=
  { statusCode := 0, statusText := "", headers := [], body := [] }

/-- The libraries below the client: `network::uri` (which throws on a text that is
no URI), `SSL_set_tlsext_host_name`, `error_code::message` and the version text. -/
structure Env where
  parseUri : String → Option Uri
  setTlsextHostName : String → Bool
  message : Option SystemError → String
  beastVersion : String

@[simp] theorem sameName_self (n : String) : sameName n n = true := by simp [sameName]

theorem sameName_congr {m n k : String} (h : sameName m n = true) :
    sameName k m = sameName k n := by
  have he : m.toList.map Char.toLower = n.toList.map Char.toLower := by simpa [sameName] using h
  simp [sameName, he]

theorem sameName_comm (m n : String) : sameName m n = sameName n m := by
  simp [sameName, Bool.beq_comm]

section Fields
variable {F : Type} [HeaderFields F] {f : F} {m n v : String} {hs : List (String × String)}

/-- Setting a list of fields one after the other, as the constructor does. -/
def setAll (f : F) (hs : List (String × String)) : F :=
  hs.foldl (fun f x => HeaderFields.set f x.1 x.2) f

theorem setAll_concat (x : String × String) :
    setAll f (hs ++ [x]) = HeaderFields.set (setAll f hs) x.1 x.2 := by
  simp [setAll]

/-- Two listed fields of one name hold one value. -/
def Consistent (hs : List (String × String)) : Prop :=
  ∀ x ∈ hs, ∀ y ∈ hs, sameName x.1 y.1 = true → x.2 = y.2

instance : Decidable (Consistent hs) := inferInstanceAs (Decidable (∀ x ∈ hs, ∀ y ∈ hs, _ → _))

theorem find_setAll_of_mem (hc : Consistent hs) {x : String × String} (hx : x ∈ hs) :
    HeaderFields.find (setAll f hs) x.1 = some x.2 := by
  induction hs using List.reverseRecOn with
  | nil => simp at hx
  | append_singleton hs y ih =>
    rw [setAll_concat, HeaderFields.find_set]
    by_cases hy : sameName y.1 x.1 = true
    · rw [if_pos hy, hc y (by simp) x hx hy]
    · rw [if_neg hy]
      have hxs : x ∈ hs := by
        rcases List.mem_append.mp hx with h | h
        · exact h
        · exact (hy (by simp [List.mem_singleton.mp h])).elim
      exact ih (fun a ha b hb => hc a (by simp [ha]) b (by simp [hb])) hxs

/-- Every listed field can be read back exactly when no name stands for two values. -/
theorem find_setAll_iff :
    (∀ x ∈ hs, HeaderFields.find (setAll f hs) x.1 = some x.2) ↔ Consistent hs := by
  constructor
  · intro h x hx y hy hxy
    have hf := HeaderFields.find_congr (setAll f hs) x.1 y.1 hxy
    rw [h x hx, h y hy] at hf
    exact Option.some.inj hf
  · intro hc x hx
    exact find_setAll_of_mem hc hx

end Fields

/-- A header container as plain as can be: the fields in order. -/
abbrev FieldList := List (String × String)

instance : HeaderFields FieldList where
  empty := []
  set f m v := f.filter (fun x => !sameName x.1 m) ++ [(m, v)]
  find f n := (f.find? fun x => sameName x.1 n).map Prod.snd
  find_empty _ := rfl
  find_congr f m n h := by
    have he : (fun x : String × String => sameName x.1 m) = fun x => sameName x.1 n := by
      funext x
      exact sameName_congr h
    rw [he]
  find_set f m v n := by
    rw [List.find?_append]
    by_cases h : sameName m n = true
    · have hf : (f.filter fun x => !sameName x.1 m).find? (fun x => sameName x.1 n) = none := by
        simp only [List.find?_eq_none, List.mem_filter]
        rintro x ⟨_, hx⟩
        rw [← sameName_congr h]
        simpa using hx
      simp [hf, h]
    · have hf : (f.filter fun x => !sameName x.1 m).find? (fun x => sameName x.1 n) =
          f.find? fun x => sameName x.1 n := by
        rw [List.find?_filter]
        congr 1
        funext x
        by_cases hx : sameName x.1 n = true
        · have hm : sameName x.1 m = false := by
            by_contra hm
            rw [Bool.not_eq_false] at hm
            exact h (by rw [sameName_comm, ← sameName_congr hm, sameName_comm] ; exact hx)
          simp [hx, hm]
        · simp [hx]
      simp [hf, h]

/-- A server on this machine, reached over a plain socket. -/
def localEnv : Env where
  parseUri url := if url = "http://localhost/" then
    some ⟨"http", none, "localhost", none, "/", none, none⟩ else none
  setTlsextHostName _ := true
  message _ := "Success"
  beastVersion := "Boost.Beast"

end LibCoreCmd.Http

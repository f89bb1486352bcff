import LibCoreCmd.Tools.Encoding

/-! The request handler of `tools/server.py`: what `do_GET` answers to a request. -/
namespace LibCoreCmd.Tools
open Sax

/-- What `urlparse` finds in a URL. -/
structure ParseResult where
  scheme : String := ""
  netloc : String := ""
  path : String := ""
  params : String := ""
  query : String := ""
  fragment : String := ""
deriving DecidableEq, Repr

def split (sep : Char) (s : String) : List String := (s.toList.splitOn sep).map String.ofList

/-- The text before the first `c`, and the text after it if there is one. -/
def partition (c : Char) (cs : List Char) : List Char × Option (List Char) :=
  match cs.span (· != c) with
  | (before, []) => (before, none)
  | (before, _ :: after) => (before, some after)

def schemeChars (c : Char) : Bool := c.isAlphanum || c == '+' || c == '-' || c == '.'

/-- Digits alone after the colon are a port, not what follows a scheme. -/
def takeScheme (url : List Char) : List Char × List Char :=
  match partition ':' url with
  | (_, none) => ([], url)
  | (scheme, some rest) =>
    if scheme ≠ [] ∧ scheme.all schemeChars ∧ (rest = [] ∨ ¬ rest.all Char.isDigit) then
      (scheme.map Char.toLower, rest)
    else ([], url)

def takeNetloc (url : List Char) : Except PyException (List Char × List Char) :=
  match url with
  | '/' :: '/' :: rest =>
    let (netloc, rest) := rest.span fun c => c != '/' && c != '?' && c != '#'
    if decide ('[' ∈ netloc) != decide (']' ∈ netloc) then .error (.valueError "Invalid IPv6 URL")
    else .ok (netloc, rest)
  | url => .ok ([], url)

def usesParams : List String :=
  ["", "ftp", "hdl", "prospero", "http", "https", "shttp", "rtsp", "rtspu", "sip", "sips", "mms",
    "sftp", "tel"]

/-- The parameters are those of the last segment. -/
def splitParams (path : List Char) : List Char × List Char :=
  let last := (path.reverse.takeWhile (· != '/')).reverse
  match partition ';' last with
  | (_, none) => (path, [])
  | (before, some params) => (path.take (path.length - last.length) ++ before, params)

def urlparse (url : String) : Except PyException ParseResult := do
  let (scheme, rest) := takeScheme url.toList
  let (netloc, rest) ← takeNetloc rest
  let (rest, fragment) := partition '#' rest
  let (path, query) := partition '?' rest
  let (path, params) :=
    if String.ofList scheme ∈ usesParams then splitParams path else (path, [])
  return {
    scheme := String.ofList scheme
    netloc := String.ofList netloc
    path := String.ofList path
    params := String.ofList params
    query := String.ofList (query.getD [])
    fragment := String.ofList (fragment.getD []) }

/-- What is sent to the client. -/
inductive Reply where
  | sendResponse (code : Nat)
  | sendHeader (keyword value : String)
  | endHeaders
  | write (json : Value)
  | sendError (code : Nat)

abbrev Handler := Program PyException (List Reply)

def reply (r : Reply) : Handler Unit := .modify (· ++ [r])

def segment (splitted : List String) (i : Nat) : Except PyException String :=
  match splitted[i]? with
  | some s => .ok s
  | none => .error .indexError

def Explorer.getCurrentBlock (e : Explorer) : Except PyException ChainBlock :=
  match e.blocks.getLast? with
  | some b => .ok b
  | none => .error .indexError

def keyValue (param : String) : Except PyException (String × String) :=
  match split '=' param with
  | [key, value] => .ok (key, value)
  | _ => .error (.valueError "2 is required")

/-- The items the `dict` is made of; one with another number of parts than two is refused. -/
def parameters (query : String) : Except PyException (List (String × String)) :=
  (split '&' query).mapM keyValue

/-- `dict(..).get(..)`: of the items with this key the last one counts. -/
def getParameter (key : String) (items : List (String × String)) : Option String :=
  (items.reverse.find? (·.1 = key)).map (·.2)

/-- The branch for `addresses`. -/
def ExplorerServer.addressesObject (explorerData : Explorer) (splitted : List String)
    (query : String) : Except PyException (List (String × Value)) := do
  if splitted.length < 6 then
    throw (.valueError "Not enough arguments for addresses command")
  let operation ← segment splitted 6
  if operation ≠ "transactions" then
    throw (.valueError "'transaction' is the only supported operation on addresses")
  let addresses := (split ',' (← segment splitted 5)).toFinset
  let blockHash : Option Hash := none
  if '=' ∈ query.toList then
    -- the value that is found is not kept
    let _ := getParameter "blockHash" (← parameters query)
  let (trx, truncated) ← explorerData.getTransactions addresses blockHash
  transactionsJson trx truncated

/-- The branch for `blocks`; only the current block is looked up. -/
def ExplorerServer.blocksObject (explorerData : Explorer) (splitted : List String) :
    Except PyException (Option (List (String × Value))) := do
  if splitted.length < 5 then
    throw (.valueError "Not enough arguments for block command")
  let block ← segment splitted 5
  if block = "current" then
    return some (← blockToJsonObject (← explorerData.getCurrentBlock))
  else return none

def ExplorerServer.jsonObject (explorerData : Explorer) (splitted : List String) (query : String) :
    Except PyException (Option (List (String × Value))) := do
  if splitted.length < 4 then
    throw (.valueError "Request is wrong should be in form blockchain/v2/btc/...")
  let command ← segment splitted 4
  if command = "syncToken" then
    return some [("token", .string "7179cff0-3dab-4f15-b035-b3f2b49d2269")]
  else if command = "blocks" then ExplorerServer.blocksObject explorerData splitted
  else if command = "addresses" then
    return some (← ExplorerServer.addressesObject explorerData splitted query)
  else return none

/-- The `try` block. -/
def ExplorerServer.tryBlock (explorerData : Explorer) (target : String) : Handler Unit := do
  let parsed ← .ofExcept (urlparse target)
  let jsonObject ← .ofExcept
    (ExplorerServer.jsonObject explorerData (split '/' parsed.path) parsed.query)
  reply (.sendResponse 200)
  reply (.sendHeader "Content-type" "application/json; charset=utf-8")
  reply .endHeaders
  match jsonObject with
  | some members => if members.isEmpty then return else reply (.write (.object members))
  | none => return

def PyException.isValueError : PyException → Option Unit
  | .valueError _ => some ()
  | _ => none

def ExplorerServer.doGET (explorerData : Explorer) (target : String) : Handler Unit :=
  (ExplorerServer.tryBlock explorerData target).handling PyException.isValueError fun _ =>
    reply (.sendError 400)

/-- The status codes of the responses. -/
def statuses (log : List Reply) : List Nat :=
  log.filterMap fun
    | .sendResponse code | .sendError code => some code
    | _ => none

variable {e : Explorer} {target query : String} {parsed : ParseResult} {splitted : List String}
  {json : Option (List (String × Value))} {x : PyException} {log : List Reply} {status : Nat}

/-- The request is answered once, with this status, and no exception escapes. -/
def Answered (e : Explorer) (target : String) (status : Nat) : Prop :=
  ∃ log, ExplorerServer.doGET e target [] = (.ok (), log) ∧ statuses log = [status]

def body : Option (List (String × Value)) → List Reply
  | some members => if members.isEmpty then [] else [.write (.object members)]
  | none => []

theorem doGET_ok (hp : urlparse target = .ok parsed)
    (h : ExplorerServer.jsonObject e (split '/' parsed.path) parsed.query = .ok json) :
    ExplorerServer.doGET e target log = (.ok (), log ++ .sendResponse 200 ::
      .sendHeader "Content-type" "application/json; charset=utf-8" :: .endHeaders ::
        body json) := by
  have ht : ExplorerServer.tryBlock e target log = (.ok (), log ++ .sendResponse 200 ::
      .sendHeader "Content-type" "application/json; charset=utf-8" :: .endHeaders ::
        body json) := by
    simp only [ExplorerServer.tryBlock, Program.run_bind, Program.run_ofExcept, hp, h, reply,
      Program.run_modify]
    cases json with
    | none => simp [body]
    | some members =>
      cases hm : members.isEmpty <;> simp [body, hm]
  exact Program.handling_ok ht

theorem doGET_error (hp : urlparse target = .ok parsed)
    (h : ExplorerServer.jsonObject e (split '/' parsed.path) parsed.query = .error x) :
    ExplorerServer.doGET e target log =
      match x.isValueError with
      | some () => (.ok (), log ++ [.sendError 400])
      | none => (.error x, log) := by
  have ht : ExplorerServer.tryBlock e target log = (.error x, log) := by
    simp only [ExplorerServer.tryBlock, Program.run_bind, Program.run_ofExcept, hp, h]
  cases hx : x.isValueError with
  | none => exact Program.handling_passed ht hx
  | some u => exact Program.handling_selected ht hx

theorem takeNetloc_refused {url : List Char} (h : takeNetloc url = .error x) :
    ∃ text, x = .valueError text := by
  unfold takeNetloc at h
  split at h
  · dsimp only at h
    split at h
    · cases h
      exact ⟨_, rfl⟩
    · cases h
  · cases h

/-- A target that is no URL is answered like a request that is refused. -/
theorem answered_refused (hp : urlparse target = .error x) : Answered e target 400 := by
  obtain ⟨text, rfl⟩ : ∃ text, x = .valueError text := by
    rw [urlparse] at hp
    cases hn : takeNetloc (takeScheme target.toList).2 with
    | error y =>
      simp only [hn] at hp
      cases hp
      exact takeNetloc_refused hn
    | ok parts =>
      simp only [hn] at hp
      cases hp
  have ht : ExplorerServer.tryBlock e target [] = (.error (.valueError text), []) := by
    simp only [ExplorerServer.tryBlock, Program.run_bind, Program.run_ofExcept, hp]
  exact ⟨[.sendError 400], Program.handling_selected ht rfl, rfl⟩

/-- What the handler has to send is fit for this status. -/
def Meets (status : Nat) (r : Except PyException (Option (List (String × Value)))) : Prop :=
  (status = 200 ∧ ∃ json, r = .ok json) ∨ (status = 400 ∧ ∃ text, r = .error (.valueError text))

theorem meets_ok_iff {r : Except PyException (Option (List (String × Value)))} :
    Meets 200 r ↔ ∃ json, r = .ok json := by
  simp [Meets]

/-- The handler answers with 200 what it can, and with 400 what is a `ValueError`. -/
theorem answered_iff (hp : urlparse target = .ok parsed) : Answered e target status ↔
    Meets status (ExplorerServer.jsonObject e (split '/' parsed.path) parsed.query) := by
  cases h : ExplorerServer.jsonObject e (split '/' parsed.path) parsed.query with
  | ok json =>
    have hstatus : statuses (body json) = [] := by
      cases json with
      | none => rfl
      | some members => cases hm : members.isEmpty <;> simp [body, hm, statuses]
    rw [Answered, doGET_ok hp h]
    simp only [statuses] at hstatus
    simp [Meets, statuses, hstatus, eq_comm]
  | error x =>
    rw [Answered, doGET_error hp h]
    cases x <;> simp [Meets, PyException.isValueError, statuses, eq_comm]

/-- The query is a list of `key=value` pairs. -/
def KeyValues (query : String) : Prop := ∀ param ∈ split '&' query, (split '=' param).length = 2

instance : Decidable (KeyValues query) :=
  inferInstanceAs (Decidable (∀ param ∈ split '&' query, (split '=' param).length = 2))

theorem keyValue_ok_iff {param : String} :
    (∃ item, keyValue param = .ok item) ↔ (split '=' param).length = 2 := by
  unfold keyValue
  split
  · simp [*]
  · rename_i h
    simp only [reduceCtorEq, exists_false, false_iff]
    intro hlen
    obtain ⟨key, value, he⟩ := List.length_eq_two.mp hlen
    exact h key value he

theorem parameters_ok_iff : (∃ items, parameters query = .ok items) ↔ KeyValues query := by
  rw [parameters, Program.mapM_ok_iff]
  exact forall₂_congr fun _ _ => keyValue_ok_iff

/-- A query that is refused is refused with a `ValueError`. -/
theorem parameters_refused (h : ¬ KeyValues query) :
    ∃ text, parameters query = .error (.valueError text) := by
  cases hp : parameters query with
  | ok items => exact (h (parameters_ok_iff.mp ⟨items, hp⟩)).elim
  | error x =>
    obtain ⟨param, -, hx⟩ := Program.mapM_error hp
    unfold keyValue at hx
    split at hx
    · cases hx
    · cases hx
      exact ⟨_, rfl⟩

/-- What a request should be answered with: whether the path has the segments its command needs,
names a known operation, and has a query that can be read. -/
def expectedStatus (splitted : List String) (query : String) : Nat :=
  if splitted.length < 5 then 400
  else if splitted[4]? = some "blocks" then if splitted.length < 6 then 400 else 200
  else if splitted[4]? = some "addresses" then
    if splitted.length < 7 then 400
    else if splitted[6]? ≠ some "transactions" then 400
    else if '=' ∈ query.toList ∧ ¬ KeyValues query then 400
    else 200
  else 200

/-- The path does not end where the code expects one more segment, and the dates in the answer
can be written. -/
structure Answerable (e : Explorer) (splitted : List String) (query : String) : Prop where
  command : splitted.length ≠ 4
  block : splitted[4]? = some "blocks" → splitted.length ≠ 5
  operation : splitted[4]? = some "addresses" → splitted.length ≠ 6
  currentDate : splitted[4]? = some "blocks" → splitted[5]? = some "current" →
    ∀ b, e.blocks.getLast? = some b → b.header.unixTimeInSec ≤ maxTimestamp
  pageDates : splitted[4]? = some "addresses" → splitted[6]? = some "transactions" →
    ('=' ∈ query.toList → KeyValues query) → ∀ addresses page, splitted[5]? = some addresses →
    e.getTransactions (split ',' addresses).toFinset none = .ok page → ∀ tr ∈ page.1, Dated tr

theorem blockToJsonObject_ok_iff {b : ChainBlock} :
    (∃ json, blockToJsonObject b = .ok json) ↔ b.header.unixTimeInSec ≤ maxTimestamp := by
  rw [← blockHeaderToJsonObject_ok_iff, blockToJsonObject]
  cases blockHeaderToJsonObject b.header with
  | error x => exact ⟨nofun, nofun⟩
  | ok json => exact ⟨fun _ => ⟨json, rfl⟩, fun _ => ⟨_, rfl⟩⟩

/-- Without a start hash there is an answer, as the chain has a first block. -/
theorem getTransactions_none {addresses : Finset Address} {limit : Nat} (hne : e.blocks ≠ []) :
    ∃ page, e.getTransactions addresses none limit = .ok page := by
  obtain ⟨b, bs, hb⟩ := List.exists_cons_of_ne_nil hne
  cases hi : e.index b.header.hash with
  | none => exact ⟨([], false), by simp [Explorer.getTransactions, hb, hi]; rfl⟩
  | some i => exact ⟨_, by simp [Explorer.getTransactions, hb, hi]; rfl⟩

section Branches
variable {addresses : String} {i : Nat} {t : String}

theorem segment_some (h : splitted[i]? = some t) : segment splitted i = .ok t := by
  rw [segment, h]

theorem segment_none (h : splitted.length ≤ i) : segment splitted i = .error .indexError := by
  rw [segment, List.getElem?_eq_none h]

/-- A request for transactions is answered with the page from the first block on. -/
theorem addressesObject_served (ha : splitted[5]? = some addresses)
    (ho : splitted[6]? = some "transactions") (hq : '=' ∈ query.toList → KeyValues query) :
    ExplorerServer.addressesObject e splitted query =
      (e.getTransactions (split ',' addresses).toFinset none >>= fun page =>
        transactionsJson page.1 page.2) := by
  have hlen : ¬ splitted.length < 6 := by
    have := (List.getElem?_eq_some_iff.mp ho).1
    omega
  simp only [ExplorerServer.addressesObject, hlen, if_false, segment_some ho, segment_some ha,
    Except.bind, bind, ne_eq, not_true]
  split
  · obtain ⟨items, hi⟩ := parameters_ok_iff.mpr (hq ‹_›)
    rw [hi]
  · rfl

theorem addressesObject_refused (h6 : 6 < splitted.length)
    (h : splitted[6]? ≠ some "transactions" ∨ '=' ∈ query.toList ∧ ¬ KeyValues query) :
    ∃ text, ExplorerServer.addressesObject e splitted query = .error (.valueError text) := by
  have hlen : ¬ splitted.length < 6 := by omega
  have hop : splitted[6]? = some splitted[6] := List.getElem?_eq_getElem h6
  have hadr : splitted[5]? = some splitted[5] := List.getElem?_eq_getElem (by omega)
  simp only [ExplorerServer.addressesObject, hlen, if_false, segment_some hop, segment_some hadr,
    Except.bind, bind]
  rw [hop, ne_eq, Option.some.injEq] at h
  by_cases ho : splitted[6] = "transactions"
  · obtain ⟨heq, hkv⟩ := h.resolve_left (not_not_intro ho)
    obtain ⟨text, ht⟩ := parameters_refused hkv
    rw [if_neg (not_not_intro ho), if_pos heq, ht]
    exact ⟨text, rfl⟩
  · rw [if_pos ho]
    exact ⟨_, rfl⟩

end Branches

theorem answerable_blocks_iff (hb : splitted[4]? = some "blocks") :
    Answerable e splitted query ↔ splitted.length ≠ 5 ∧ (splitted[5]? = some "current" →
      ∀ b, e.blocks.getLast? = some b → b.header.unixTimeInSec ≤ maxTimestamp) := by
  have h4 := (List.getElem?_eq_some_iff.mp hb).1
  have hne : splitted[4]? ≠ some "addresses" := by simp [hb]
  constructor
  · intro h
    exact ⟨h.block hb, h.currentDate hb⟩
  · rintro ⟨h5, hdate⟩
    exact ⟨by omega, fun _ => h5, fun h => (hne h).elim, fun _ => hdate, fun h => (hne h).elim⟩

/-- A request for a block that can be read is answered if the date of the current block, where
it is asked for, can be written. -/
theorem meets_block (hne : e.blocks ≠ []) (h5 : 5 < splitted.length) :
    Meets 200 (ExplorerServer.blocksObject e splitted) ↔ (splitted[5]? = some "current" →
      ∀ b, e.blocks.getLast? = some b → b.header.unixTimeInSec ≤ maxTimestamp) := by
  have hlen5 : ¬ splitted.length < 5 := by omega
  obtain ⟨b, hlast⟩ : ∃ b, e.blocks.getLast? = some b := ⟨_, List.getLast?_eq_some_getLast hne⟩
  have hseg : splitted[5]? = some splitted[5] := List.getElem?_eq_getElem h5
  rw [meets_ok_iff, hseg, Option.some.injEq]
  simp only [ExplorerServer.blocksObject, hlen5, if_false, segment_some hseg, Except.bind, bind,
    Explorer.getCurrentBlock, hlast, Option.some.injEq, forall_eq', ← blockToJsonObject_ok_iff]
  by_cases hcurrent : splitted[5] = "current"
  · rw [if_pos hcurrent]
    cases blockToJsonObject b with
    | ok json => simp [hcurrent, pure, Except.pure]
    | error x => simp [hcurrent]
  · simp [hcurrent, pure, Except.pure]

theorem meets_blocks (hne : e.blocks ≠ []) (hb : splitted[4]? = some "blocks") :
    Meets (expectedStatus splitted query) (ExplorerServer.jsonObject e splitted query) ↔
      Answerable e splitted query := by
  have h4 : 4 < splitted.length := (List.getElem?_eq_some_iff.mp hb).1
  have hlen5 : ¬ splitted.length < 5 := by omega
  have hjson : ExplorerServer.jsonObject e splitted query =
      ExplorerServer.blocksObject e splitted := by
    have hlen : ¬ splitted.length < 4 := by omega
    simp only [ExplorerServer.jsonObject, hlen, if_false, segment_some hb, Except.bind, bind]
    rfl
  rw [answerable_blocks_iff hb, hjson]
  rcases Nat.lt_or_ge 5 splitted.length with h5 | h5
  · have hstatus : expectedStatus splitted query = 200 := by
      rw [expectedStatus, if_neg hlen5, if_pos hb, if_neg (by omega)]
    rw [hstatus, meets_block hne h5]
    exact ⟨fun h => ⟨Nat.ne_of_gt h5, h⟩, fun h => h.2⟩
  · have h5' : splitted.length = 5 := by omega
    have hraise : ExplorerServer.blocksObject e splitted = .error .indexError := by
      simp only [ExplorerServer.blocksObject, hlen5, if_false, segment_none h5, Except.bind, bind]
    simp [Meets, hraise, h5']

theorem answerable_addresses_iff (ha : splitted[4]? = some "addresses") :
    Answerable e splitted query ↔ splitted.length ≠ 6 ∧ (splitted[6]? = some "transactions" →
      ('=' ∈ query.toList → KeyValues query) → ∀ addresses page, splitted[5]? = some addresses →
      e.getTransactions (split ',' addresses).toFinset none = .ok page →
        ∀ tr ∈ page.1, Dated tr) := by
  have h4 := (List.getElem?_eq_some_iff.mp ha).1
  have hne : splitted[4]? ≠ some "blocks" := by simp [ha]
  constructor
  · intro h
    exact ⟨h.operation ha, h.pageDates ha⟩
  · rintro ⟨h6, hdate⟩
    exact ⟨by omega, fun h => (hne h).elim, fun _ => h6, fun h => (hne h).elim, fun _ => hdate⟩

theorem expectedStatus_addresses (ha : splitted[4]? = some "addresses") :
    expectedStatus splitted query =
      if splitted.length < 7 then 400
      else if splitted[6]? = some "transactions" ∧ ('=' ∈ query.toList → KeyValues query) then 200
      else 400 := by
  have hlen5 : ¬ splitted.length < 5 := by
    have := (List.getElem?_eq_some_iff.mp ha).1
    omega
  have hb : splitted[4]? ≠ some "blocks" := by simp [ha]
  rw [expectedStatus, if_neg hlen5, if_neg hb, if_pos ha]
  grind

/-- A request for transactions that can be read is answered if the dates of its page can be
written. -/
theorem meets_transactions (hne : e.blocks ≠ []) (hop : splitted[6]? = some "transactions")
    (hq : '=' ∈ query.toList → KeyValues query) :
    Meets 200 ((ExplorerServer.addressesObject e splitted query).map some) ↔
      ∀ addresses page, splitted[5]? = some addresses →
        e.getTransactions (split ',' addresses).toFinset none = .ok page →
          ∀ tr ∈ page.1, Dated tr := by
  have h6 : 6 < splitted.length := (List.getElem?_eq_some_iff.mp hop).1
  have hadr : splitted[5]? = some splitted[5] := List.getElem?_eq_getElem (by omega)
  obtain ⟨page, hpage⟩ := @getTransactions_none e (split ',' splitted[5]).toFinset 200 hne
  have hdated := @transactionsJson_ok_iff page.1 page.2
  have hserved : (∀ addresses page', splitted[5]? = some addresses →
      e.getTransactions (split ',' addresses).toFinset none = .ok page' →
        ∀ tr ∈ page'.1, Dated tr) ↔ ∀ tr ∈ page.1, Dated tr := by
    refine ⟨fun h => h _ _ hadr hpage, fun h adr page' hadr' hpage' => ?_⟩
    rw [hadr, Option.some.injEq] at hadr'
    rw [← hadr', hpage, Except.ok.injEq] at hpage'
    exact hpage' ▸ h
  rw [meets_ok_iff, addressesObject_served hadr hop hq, hpage, hserved, ← hdated]
  simp only [Except.bind, bind]
  cases transactionsJson page.1 page.2 with
  | ok json => simp [Except.map]
  | error x => simp [Except.map]

theorem meets_addresses (hne : e.blocks ≠ []) (ha : splitted[4]? = some "addresses") :
    Meets (expectedStatus splitted query) (ExplorerServer.jsonObject e splitted query) ↔
      Answerable e splitted query := by
  have h4 : 4 < splitted.length := (List.getElem?_eq_some_iff.mp ha).1
  have hjson : ExplorerServer.jsonObject e splitted query =
      (ExplorerServer.addressesObject e splitted query).map some := by
    have hlen : ¬ splitted.length < 4 := by omega
    simp only [ExplorerServer.jsonObject, hlen, if_false, segment_some ha, Except.bind, bind]
    cases ExplorerServer.addressesObject e splitted query <;> rfl
  rw [answerable_addresses_iff ha, hjson, expectedStatus_addresses ha]
  rcases Nat.lt_trichotomy splitted.length 6 with h6 | h6 | h6
  · have hnone : splitted[6]? = none := List.getElem?_eq_none (by omega)
    have hraise : ExplorerServer.addressesObject e splitted query =
        .error (.valueError "Not enough arguments for addresses command") := by
      rw [ExplorerServer.addressesObject, if_pos h6]
      rfl
    rw [if_pos (by omega), hraise]
    exact iff_of_true (Or.inr ⟨rfl, _, rfl⟩) ⟨by omega, by simp [hnone]⟩
  · have hraise : ExplorerServer.addressesObject e splitted query = .error .indexError := by
      simp only [ExplorerServer.addressesObject, h6, Nat.lt_irrefl, if_false,
        segment_none (Nat.le_of_eq h6), Except.bind, bind]
    simp [Meets, hraise, h6, Except.map]
  · rw [if_neg (by omega)]
    by_cases hok : splitted[6]? = some "transactions" ∧ ('=' ∈ query.toList → KeyValues query)
    · obtain ⟨hop, hq⟩ := hok
      rw [if_pos ⟨hop, hq⟩, meets_transactions hne hop hq]
      exact ⟨fun h => ⟨by omega, fun _ _ => h⟩, fun h => h.2 hop hq⟩
    · obtain ⟨text, htext⟩ := @addressesObject_refused e query splitted h6 (by
        by_cases hop : splitted[6]? = some "transactions"
        · exact Or.inr (Classical.not_imp.mp fun hq => hok ⟨hop, hq⟩)
        · exact Or.inl hop)
      rw [if_neg hok, htext]
      exact iff_of_true (Or.inr ⟨rfl, text, rfl⟩) ⟨by omega, fun hop hq => (hok ⟨hop, hq⟩).elim⟩

theorem answered_iff_answerable (hne : e.blocks ≠ []) (hp : urlparse target = .ok parsed) :
    Answered e target (expectedStatus (split '/' parsed.path) parsed.query) ↔
      Answerable e (split '/' parsed.path) parsed.query := by
  rw [answered_iff hp]
  generalize split '/' parsed.path = splitted
  rcases Nat.lt_trichotomy splitted.length 4 with h4 | h4 | h4
  · have hnone : splitted[4]? = none := List.getElem?_eq_none (by omega)
    have hstatus : expectedStatus splitted parsed.query = 400 := if_pos (by omega)
    rw [hstatus, ExplorerServer.jsonObject, if_pos h4]
    refine iff_of_true (Or.inr ⟨rfl, _, rfl⟩) ?_
    constructor <;> simp [hnone]
    omega
  · have hraise : ExplorerServer.jsonObject e splitted parsed.query = .error .indexError := by
      simp only [ExplorerServer.jsonObject, h4, Nat.lt_irrefl, if_false,
        segment_none (Nat.le_of_eq h4), Except.bind, bind]
    refine iff_of_false ?_ fun h => h.command h4
    simp [Meets, hraise]
  · have hcommand : splitted[4]? = some splitted[4] := List.getElem?_eq_getElem h4
    by_cases hb : splitted[4] = "blocks"
    · exact meets_blocks hne (by rw [hcommand, hb])
    by_cases ha : splitted[4] = "addresses"
    · exact meets_addresses hne (by rw [hcommand, ha])
    have hstatus : expectedStatus splitted parsed.query = 200 := by
      simp [expectedStatus, hcommand, hb, ha]
      omega
    have hlen : ¬ splitted.length < 4 := by omega
    rw [hstatus, meets_ok_iff]
    refine iff_of_true ?_ ?_
    · simp only [ExplorerServer.jsonObject, hlen, if_false, segment_some hcommand, Except.bind,
        bind, hb, ha]
      split <;> exact ⟨_, rfl⟩
    · constructor <;> simp [hcommand, hb, ha]
      omega

/-- A request is answered once, with the status it should be answered with, exactly when its path
does not end just before a segment that is read, and the dates in the answer can be written; a
target that has no path is always refused. -/
theorem doGET_answers_iff (hne : e.blocks ≠ []) :
    (∀ parsed, urlparse target = .ok parsed →
      (Answered e target (expectedStatus (split '/' parsed.path) parsed.query) ↔
        Answerable e (split '/' parsed.path) parsed.query)) ∧
      ∀ x, urlparse target = .error x → Answered e target 400 :=
  ⟨fun _ hp => answered_iff_answerable hne hp, fun _ hp => answered_refused hp⟩

def genesisChain : Blockchain TransactionOutput where
  blocks := [.new 0 "b0" "" []]

theorem urlparse_current : urlparse "/blockchain/v2/btc/blocks/current" =
    .ok { path := "/blockchain/v2/btc/blocks/current" } := rfl

theorem doGET_answers_current :
    Answered (.new genesisChain) "/blockchain/v2/btc/blocks/current" 200 := by
  have hstatus : expectedStatus (split '/' "/blockchain/v2/btc/blocks/current") "" = 200 := by
    decide
  have hsplit : split '/' "/blockchain/v2/btc/blocks/current" =
      ["", "blockchain", "v2", "btc", "blocks", "current"] := by decide
  rw [← hstatus]
  refine ((doGET_answers_iff (List.cons_ne_nil _ _)).1 _ urlparse_current).mpr ?_
  rw [hsplit]
  refine ⟨by decide, by decide, by decide, fun _ _ b hb => ?_, by simp⟩
  cases hb
  decide

/-- The path ends before the command, and the server drops the request without an answer. -/
theorem doGET_drops_request : ¬ Answered (.new genesisChain) "/blockchain/v2/btc"
    (expectedStatus (split '/' "/blockchain/v2/btc") "") := by
  have hp : urlparse "/blockchain/v2/btc" = .ok { path := "/blockchain/v2/btc" } := rfl
  have hsplit : split '/' "/blockchain/v2/btc" = ["", "blockchain", "v2", "btc"] := by decide
  rw [answered_iff hp, hsplit]
  rintro (⟨-, json, h⟩ | ⟨-, text, h⟩) <;> cases h

end LibCoreCmd.Tools

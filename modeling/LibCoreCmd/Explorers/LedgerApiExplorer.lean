import LibCoreCmd.Async.Deffered
import LibCoreCmd.Explorers.Page
import LibCoreCmd.Tools.ServerPages

/-! How the core asks the API for transactions, and what it makes of the answers of
`tools/server.py`. -/
namespace LibCoreCmd.Explorers
open Async Sax Tools

/-- What the JSON reader is given of a response. A body that is not JSON has no events. -/
structure HttpAnswer where
  statusCode : Nat
  statusText : String := ""
  body : Option Value := none

/-- The explorer, with `strings::mkString` and the HTTP client. A response with a failing status
is an answer too: `HttpRequest::json` takes it out of the exception. -/
structure LedgerApiExplorer where
  explorerVersion : String
  identifier : String
  mkString : String → String → Option String → String
  get : String → List (String × String) → Try HttpAnswer

variable {π τ : Type} [TransactionParser π τ] {x : LedgerApiExplorer} {addresses : List Address}
  {fromBlockHash : Option Hash} {session : Option String} {text : String}

def LedgerApiExplorer.join (x : LedgerApiExplorer) (addresses : List Address) : String :=
  (addresses.foldl (fun carry item => some (x.mkString "," item carry)) none).getD ""

def LedgerApiExplorer.params (fromBlockHash : Option Hash) (session : Option String) : String :=
  let params := if session.isNone then "?noToken=true" else ""
  match fromBlockHash with
  | none => params
  | some h => (if params ≠ "" then params ++ "&" else params ++ "?") ++ "blockHash=" ++ h

def LedgerApiExplorer.headers (session : Option String) : List (String × String) :=
  session.toList.map fun token => ("X-LedgerWallet-SyncToken", token)

def LedgerApiExplorer.transactionsPath (x : LedgerApiExplorer) (addresses : List Address) :
    String :=
  "/blockchain/" ++ x.explorerVersion ++ "/" ++ x.identifier ++ "/addresses/" ++
    x.join addresses ++ "/transactions"

theorem transactionsPath_eq : x.transactionsPath addresses = "/blockchain/" ++ x.explorerVersion ++
    "/" ++ x.identifier ++ "/addresses/" ++ x.join addresses ++ "/transactions" := rfl

/-- `HttpRequest::json`, with the parser of a bulk. -/
def HttpAnswer.json (r : HttpAnswer) : Except String (TransactionsBulk τ) :=
  (feed LedgerApiParser.handle (LedgerApiParser.attach (π := π) r.statusCode r.statusText)
    (r.body.elim [] Value.events)).build

theorem json_some {statusCode : Nat} {statusText : String} {v : Value} :
    HttpAnswer.json (π := π) (τ := τ) ⟨statusCode, statusText, some v⟩ =
      readBulk (π := π) statusCode statusText v := rfl

/-- Whatever is wrong with the response, it is the block that is said to be missing. -/
def LedgerApiExplorer.getLedgerApiTransactions (x : LedgerApiExplorer) (addresses : List Address)
    (fromBlockHash : Option Hash) (session : Option String) : Try (TransactionsBulk τ) := do
  let response ← x.get (x.transactionsPath addresses ++ params fromBlockHash session)
    (headers session)
  match response.json (π := π), fromBlockHash with
  | .ok bulk, _ => .ok bulk
  | .error message, none => .error ⟨.apiError, message⟩
  | .error _, some h => .error ⟨.blockNotFound, "Unable to find block with hash " ++ h⟩

@[simp] theorem statusCode_handle {p : LedgerApiParser π τ} {e : Sax.Event} :
    (p.handle e).statusCode = p.statusCode := by
  cases e <;> simp only [LedgerApiParser.handle, LedgerApiParser.delegate] <;> split <;>
    (try split) <;> rfl

@[simp] theorem statusCode_feed {p : LedgerApiParser π τ} {es : List Sax.Event} :
    (feed LedgerApiParser.handle p es).statusCode = p.statusCode := by
  induction es generalizing p with
  | nil => rfl
  | cons e es ih => rw [feed_cons, ih, statusCode_handle]

/-- A failing response gives no transactions. -/
theorem json_failure {r : HttpAnswer} (hf : r.statusCode < 200 ∨ 400 ≤ r.statusCode) :
    ∃ message, r.json (π := π) = (.error message : Except String (TransactionsBulk τ)) := by
  refine ⟨_, if_pos ?_⟩
  rw [LedgerApiParser.isFailure, statusCode_feed, Bool.or_eq_true, decide_eq_true_eq,
    decide_eq_true_eq]
  exact hf

theorem partition_of_notMem {c : Char} {cs : List Char} (h : c ∉ cs) :
    partition c cs = (cs, none) := by
  have hall : ∀ d ∈ cs, (d != c) = true := fun d hd => by
    simpa using ne_of_mem_of_not_mem hd h
  simp [partition, List.span_eq_takeWhile_dropWhile, List.takeWhile_eq_self_iff.mpr hall,
    List.dropWhile_eq_nil_iff.mpr hall]

theorem partition_at {c : Char} {before after : List Char} (h : c ∉ before) :
    partition c (before ++ c :: after) = (before, some after) := by
  have hall : ∀ d ∈ before, (d != c) = true := fun d hd => by
    simpa using ne_of_mem_of_not_mem hd h
  simp [partition, List.span_eq_takeWhile_dropWhile, List.takeWhile_append_of_pos hall,
    List.dropWhile_append_of_pos hall]

/-- What begins with a slash has no scheme. -/
theorem takeScheme_slash (cs : List Char) : takeScheme ('/' :: cs) = ([], '/' :: cs) := by
  by_cases h : ':' ∈ '/' :: cs
  · obtain ⟨before, after, he, hb⟩ := List.eq_append_cons_of_mem h
    cases before with
    | nil => cases he
    | cons c before =>
      obtain rfl : '/' = c := (List.cons.inj he).1
      have hslash : schemeChars '/' = false := by decide
      rw [takeScheme, he, partition_at hb]
      exact if_neg (by simp [hslash])
  · rw [takeScheme, partition_of_notMem h]

/-- A path and a query that can be told apart in the text of a target. -/
structure WellFormedTarget (path query : String) : Prop where
  slash : ∃ c rest, path.toList = '/' :: c :: rest ∧ c ≠ '/'
  last : ';' ∉ path.toList.reverse.takeWhile (· != '/')
  path : '?' ∉ path.toList ∧ '#' ∉ path.toList
  query : '#' ∉ query.toList

def targetText (path query : String) : String := if query = "" then path else path ++ "?" ++ query

theorem urlparse_target {path query : String} (hw : WellFormedTarget path query) :
    urlparse (targetText path query) = .ok { path, query } := by
  obtain ⟨⟨c, rest, hslash, hne⟩, hlast, ⟨hmark, hhash⟩, hquery⟩ := hw
  have hparams : splitParams path.toList = (path.toList, []) := by
    rw [splitParams, partition_of_notMem (by simpa using hlast)]
  have hnetloc : ∀ more, takeNetloc (path.toList ++ more) = .ok ([], path.toList ++ more) := by
    intro more
    rw [hslash, takeNetloc]
    rintro more' he
    exact hne (List.cons.inj (List.cons.inj he).2).1
  have hscheme : ∀ more, takeScheme (path.toList ++ more) = ([], path.toList ++ more) := by
    intro more
    rw [hslash]
    exact takeScheme_slash _
  have hempty : String.ofList [] ∈ usesParams := by decide
  unfold targetText
  split
  · rename_i hnone
    have hs := hscheme []
    have hn := hnetloc []
    rw [List.append_nil] at hs hn
    simp [urlparse, bind, Except.bind, pure, Except.pure, hs, hn, partition_of_notMem hhash,
      partition_of_notMem hmark, hempty, hparams, hnone]
  · have hall : '#' ∉ path.toList ++ '?' :: query.toList := by simp [hhash, hquery]
    have htext : (path ++ "?" ++ query).toList = path.toList ++ '?' :: query.toList := by simp
    simp [urlparse, bind, Except.bind, pure, Except.pure, -String.toList_append, htext, hscheme,
      hnetloc, partition_of_notMem hall, partition_at hmark, hempty, hparams]

/-- What `strings::mkString` is for. -/
structure Joins (mkString : String → String → Option String → String) : Prop where
  first : ∀ separator item, mkString separator item none = item
  next : ∀ separator item carry,
    mkString separator item (some carry) = carry ++ separator ++ item

theorem join_eq (hj : Joins x.mkString) : x.join addresses = ",".intercalate addresses := by
  have general : ∀ (as : List Address) (carry : String),
      as.foldl (fun carry item => some (x.mkString "," item carry)) (some carry) =
        some (",".intercalate (carry :: as)) := by
    intro as
    induction as with
    | nil => exact fun _ => rfl
    | cons a as ih =>
      intro carry
      rw [List.foldl_cons, hj.next, ih]
      rfl
  cases addresses with
  | nil => rfl
  | cons a as => rw [LedgerApiExplorer.join, List.foldl_cons, hj.first, general, Option.getD_some]

/-- A text that can be a segment of a path. -/
def Segment (s : String) : Prop := '/' ∉ s.toList ∧ '?' ∉ s.toList ∧ '#' ∉ s.toList

/-- What can be asked for without a character being taken for another thing. -/
structure Askable (x : LedgerApiExplorer) (addresses : List Address)
    (fromBlockHash : Option Hash) : Prop where
  version : Segment x.explorerVersion
  identifier : Segment x.identifier
  some : addresses ≠ []
  address : ∀ a ∈ addresses, Segment a ∧ ',' ∉ a.toList
  blockHash : ∀ h, fromBlockHash = .some h →
    '#' ∉ h.toList ∧ '&' ∉ h.toList ∧ '=' ∉ h.toList

/-- The parameters of a request. -/
def asked (fromBlockHash : Option Hash) (session : Option String) : List (String × String) :=
  (if session.isNone then [("noToken", "true")] else []) ++
    fromBlockHash.toList.map fun h => ("blockHash", h)

theorem notMem_intercalate {c : Char} {as : List String} (hc : c ≠ ',')
    (h : ∀ a ∈ as, c ∉ a.toList) : c ∉ (",".intercalate as).toList := by
  induction as with
  | nil => simp
  | cons a as ih =>
    rw [List.forall_mem_cons] at h
    cases as with
    | nil => simpa using h.1
    | cons a' as =>
      rw [String.intercalate_cons_cons]
      simpa [h.1, hc] using ih h.2

theorem target_eq (path : String) : path ++ LedgerApiExplorer.params fromBlockHash session =
    targetText path (queryText (asked fromBlockHash session)) := by
  cases fromBlockHash <;> cases session <;>
    simp [LedgerApiExplorer.params, asked, targetText, queryText, ← String.toList_inj]

/-- The response to a `GET`: what the handler has sent. -/
def answerOf (e : Tools.Explorer) (target : String) : Try HttpAnswer :=
  let log := (ExplorerServer.doGET e target []).2
  match statuses log with
  | [] => .error ⟨.httpError, "end of stream"⟩
  | statusCode :: _ => .ok { statusCode, body := (written log).head? }

variable {bc : Blockchain TransactionOutput}

theorem segment_joined (ha : Askable x addresses fromBlockHash) :
    Segment (",".intercalate addresses) :=
  ⟨notMem_intercalate (by decide) fun a h => (ha.address a h).1.1,
    notMem_intercalate (by decide) fun a h => (ha.address a h).1.2.1,
    notMem_intercalate (by decide) fun a h => (ha.address a h).1.2.2⟩

theorem split_transactionsPath (hj : Joins x.mkString) (ha : Askable x addresses fromBlockHash) :
    split '/' (x.transactionsPath addresses) = ["", "blockchain", x.explorerVersion, x.identifier,
      "addresses", ",".intercalate addresses, "transactions"] := by
  have hpath : x.transactionsPath addresses = (String.singleton '/').intercalate
      ["", "blockchain", x.explorerVersion, x.identifier, "addresses",
        ",".intercalate addresses, "transactions"] := by
    rw [← String.toList_inj, String.toList_intercalate]
    simp [transactionsPath_eq, join_eq hj]
  rw [hpath]
  refine split_intercalate ?_ (List.cons_ne_nil _ _)
  have hv := ha.version.1
  have hi := ha.identifier.1
  have hs := (segment_joined ha).1
  generalize ",".intercalate addresses = joined at hs
  simp [hv, hi, hs]

theorem wellFormed_transactionsPath (hj : Joins x.mkString)
    (ha : Askable x addresses fromBlockHash) :
    WellFormedTarget (x.transactionsPath addresses) (queryText (asked fromBlockHash session)) := by
  obtain ⟨-, hv, hv'⟩ := ha.version
  obtain ⟨-, hi, hi'⟩ := ha.identifier
  obtain ⟨-, hs, hs'⟩ := segment_joined ha
  rw [transactionsPath_eq, join_eq hj]
  generalize ",".intercalate addresses = joined at hs hs'
  refine ⟨⟨'b', _, by simp only [String.toList_append]; rfl, by decide⟩, ?_, ⟨?_, ?_⟩, ?_⟩
  · simp
  · simp [hv, hi, hs]
  · simp [hv', hi', hs']
  · cases hf : fromBlockHash with
    | none => cases session <;> simp [asked, queryText]
    | some h =>
      have hh := (ha.blockHash h hf).1
      cases session <;> simp [asked, queryText, hh]

theorem wellFormed_asked (ha : Askable x addresses fromBlockHash) :
    WellFormedQuery (asked fromBlockHash session) := by
  cases hf : fromBlockHash with
  | none => cases session <;> constructor <;> simp [asked]
  | some h =>
    obtain ⟨-, hand, heq⟩ := ha.blockHash h hf
    cases session <;> constructor <;> simp [asked, hand, heq]

/-- Whatever block is asked for, what is read is the first page of the chain, as if it were the
last. -/
theorem getLedgerApiTransactions_served (hd : (hashes bc.blocks).Nodup) (hne : bc.blocks ≠ [])
    (hj : Joins x.mkString) (hget : ∀ path headers, x.get path headers = answerOf (.new bc) path)
    (ha : Askable x addresses fromBlockHash)
    (hdated : ∀ tr ∈ (Paging.page 200 (bc.blocks.map (matching addresses.toFinset))).1,
      Dated tr) :
    ∃ txs, List.Forall₂ (fun tr tx => transactionToJsonObject tr = .ok tx)
        (Paging.page 200 (bc.blocks.map (matching addresses.toFinset))).1 txs ∧
      x.getLedgerApiTransactions (π := π) (τ := τ) addresses fromBlockHash session =
        .ok ⟨readTransactions "txs" (TransactionParser.init τ : π) txs, false⟩ := by
  have hparsed : urlparse (targetText (x.transactionsPath addresses)
      (queryText (asked fromBlockHash session))) = _ :=
    urlparse_target (wellFormed_transactionsPath hj ha)
  have haddresses : split ',' (",".intercalate addresses) = addresses :=
    split_intercalate (fun a h => (ha.address a h).2) ha.some
  have hfirst : (Explorer.new bc).getTransactions addresses.toFinset none =
    .ok (Paging.page 200 (bc.blocks.map (matching addresses.toFinset))) :=
      getTransactions_first hd hne
  generalize Paging.page 200 (bc.blocks.map (matching addresses.toFinset)) = page at hdated hfirst
  obtain ⟨json, hjson⟩ := (@transactionsJson_ok_iff page.1 page.2).mpr hdated
  obtain ⟨txs, htxs, rfl⟩ := transactionsJson_ok hjson
  rw [← haddresses] at hfirst
  have hquery : WellFormedQuery (asked fromBlockHash session) := wellFormed_asked ha
  have hobject := (jsonObject_ok_iff (a := "blockchain") (b := x.explorerVersion)
    (c := x.identifier) (keyValues_queryText hquery)).mpr ⟨page, hfirst, hjson⟩
  rw [← split_transactionsPath hj ha] at hobject
  -- what the handler writes is what the parser of a page expects, but for the flag
  have hanswer : x.get (x.transactionsPath addresses ++ LedgerApiExplorer.params fromBlockHash
      session) (LedgerApiExplorer.headers session) = .ok ⟨200, "", some (.object
        ([("truncated", .string (lowerText page.2))] ++
          ("txs", .array (txs.map .object)) :: []))⟩ := by
    rw [hget, target_eq, answerOf, doGET_ok hparsed hobject]
    simp [statuses, written, body]
  have hread : HttpAnswer.json (π := π) (τ := τ) ⟨200, "", some (.object
      ([("truncated", .string (lowerText page.2))] ++ ("txs", .array (txs.map .object)) :: []))⟩ =
        .ok ⟨readTransactions "txs" (TransactionParser.init τ : π) txs, false⟩ := by
    rw [json_some]
    exact readBulk_page ⟨Nat.le_refl 200, (by decide : 200 < 400)⟩ rfl rfl fun ms hms =>
      Nat.lt_of_le_of_lt (Nat.succ_le_succ (memberDepth_transactions htxs ms hms)) (by decide)
  refine ⟨txs, htxs, ?_⟩
  simp only [LedgerApiExplorer.getLedgerApiTransactions, hanswer, bind, Except.bind, hread]

/-- A failing response to a request from a block says that the block is missing. -/
theorem getLedgerApiTransactions_failure {r : HttpAnswer}
    (hf : r.statusCode < 200 ∨ 400 ≤ r.statusCode)
    (hget : x.get (x.transactionsPath addresses ++ LedgerApiExplorer.params fromBlockHash session)
      (LedgerApiExplorer.headers session) = .ok r) :
    ∃ e, x.getLedgerApiTransactions (π := π) (τ := τ) addresses fromBlockHash session = .error e ∧
      e.errorCode = if fromBlockHash = none then .apiError else .blockNotFound := by
  obtain ⟨message, hjson⟩ := json_failure (π := π) (τ := τ) hf
  simp only [LedgerApiExplorer.getLedgerApiTransactions, hget, bind, Except.bind, hjson]
  cases fromBlockHash <;> exact ⟨_, rfl, rfl⟩

end LibCoreCmd.Explorers

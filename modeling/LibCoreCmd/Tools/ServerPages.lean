import LibCoreCmd.Tools.Matching
import LibCoreCmd.Tools.Server
import Mathlib.Data.List.TakeWhile

/-! Whether the page that a request is answered with is the page it asks for. -/
namespace LibCoreCmd.Tools
open Sax

variable {e : Explorer} {target : String} {parsed : ParseResult} {params : List (String × String)}
  {a b c addrs : String} {bc : Blockchain TransactionOutput} {addresses : Finset Address}
  {limit : Nat} {h : Hash} {tr tr' : ChainTransaction} {trx trx' : List ChainTransaction}
  {truncated truncated' : Bool} {json : List (String × Value)}

def queryText (params : List (String × String)) : String :=
  "&".intercalate (params.map fun p => p.1 ++ "=" ++ p.2)

/-- Parameters that can be told apart again in the text of a query. -/
structure WellFormedQuery (params : List (String × String)) : Prop where
  keys : (params.map (·.1)).Nodup
  key : ∀ p ∈ params, '&' ∉ p.1.toList ∧ '=' ∉ p.1.toList
  value : ∀ p ∈ params, '&' ∉ p.2.toList ∧ '=' ∉ p.2.toList

/-- The start hash that the parameters ask for. -/
def wanted (params : List (String × String)) : Option Hash :=
  (params.find? (·.1 = "blockHash")).map (·.2)

theorem split_intercalate {sep : Char} {parts : List String}
    (hs : ∀ s ∈ parts, sep ∉ s.toList) (hne : parts ≠ []) :
    split sep ((String.singleton sep).intercalate parts) = parts := by
  have hsep : (String.singleton sep).toList = [sep] := by simp
  rw [split, String.toList_intercalate, hsep, List.splitOn_intercalate]
  · simp
  · simpa using hs
  · simpa using hne

theorem keyValues_queryText (hw : WellFormedQuery params) :
    '=' ∈ (queryText params).toList → KeyValues (queryText params) := by
  intro heq
  have hne : params ≠ [] := by
    rintro rfl
    simp [queryText] at heq
  have hsplit : split '&' (queryText params) = params.map fun p => p.1 ++ "=" ++ p.2 := by
    refine split_intercalate ?_ (by simpa using hne)
    intro s hs
    obtain ⟨p, hp, rfl⟩ := List.mem_map.mp hs
    have hk := (hw.key p hp).1
    have hv := (hw.value p hp).1
    simp [hk, hv]
  intro param hparam
  rw [hsplit] at hparam
  obtain ⟨p, hp, rfl⟩ := List.mem_map.mp hparam
  have hpair : p.1 ++ "=" ++ p.2 = "=".intercalate [p.1, p.2] := by
    rw [← String.toList_inj, String.toList_intercalate]
    simp
  rw [hpair]
  have hparts := @split_intercalate '=' [p.1, p.2] (by
    simpa using ⟨(hw.key p hp).2, (hw.value p hp).2⟩) (by simp)
  exact congrArg List.length hparts

def written (log : List Reply) : List Value :=
  log.filterMap fun
    | .write json => some json
    | _ => none

/-- The request is answered with the page for these addresses and this start hash. -/
def AnswersPage (e : Explorer) (target : String) (addresses : Finset Address)
    (blockHash : Option Hash) : Prop :=
  ∃ page json log, e.getTransactions addresses blockHash = .ok page ∧
    transactionsJson page.1 page.2 = .ok json ∧
    ExplorerServer.doGET e target [] = (.ok (), log) ∧ written log = [.object json]

/-- Without a start hash there is a page, and it can be written. -/
def Served (e : Explorer) (addresses : Finset Address) : Prop :=
  ∃ page, e.getTransactions addresses none = .ok page ∧ ∀ tr ∈ page.1, Dated tr

/-- With the start hash the page reads like the one without it. -/
def SameAnswer (e : Explorer) (addresses : Finset Address) (blockHash : Option Hash) : Prop :=
  ∃ page page', e.getTransactions addresses none = .ok page ∧
    e.getTransactions addresses blockHash = .ok page' ∧
    transactionsJson page'.1 page'.2 = transactionsJson page.1 page.2

theorem jsonObject_addresses (query : String) :
    ExplorerServer.jsonObject e ["", a, b, c, "addresses", addrs, "transactions"] query =
      (ExplorerServer.addressesObject e ["", a, b, c, "addresses", addrs, "transactions"]
        query).map some := by
  simp only [ExplorerServer.jsonObject, segment, Except.bind, bind]
  cases ExplorerServer.addressesObject e ["", a, b, c, "addresses", addrs, "transactions"] query <;>
    rfl

/-- The handler writes what it has made of the request, and nothing else. -/
theorem doGET_writes_iff (hp : urlparse target = .ok parsed) (hj : json ≠ []) :
    (∃ log, ExplorerServer.doGET e target [] = (.ok (), log) ∧ written log = [.object json]) ↔
      ExplorerServer.jsonObject e (split '/' parsed.path) parsed.query = .ok (some json) := by
  cases h : ExplorerServer.jsonObject e (split '/' parsed.path) parsed.query with
  | ok answer =>
    rw [doGET_ok hp h]
    cases answer with
    | none => simp [body, written]
    | some members =>
      cases members with
      | nil => simp [body, written, hj.symm]
      | cons m ms => simp [body, written]
  | error x =>
    rw [doGET_error hp h]
    cases x <;> simp [PyException.isValueError, written]

theorem transactionsJson_ne_nil (h : transactionsJson trx truncated = .ok json) : json ≠ [] := by
  obtain ⟨txs, -, rfl⟩ := transactionsJson_ok h
  exact List.cons_ne_nil _ _

/-- With parameters that can be read the answer is the page without a start hash. -/
theorem jsonObject_ok_iff {query : String} (hq : '=' ∈ query.toList → KeyValues query) :
    ExplorerServer.jsonObject e ["", a, b, c, "addresses", addrs, "transactions"] query =
        .ok (some json) ↔
      ∃ page, e.getTransactions (split ',' addrs).toFinset none = .ok page ∧
        transactionsJson page.1 page.2 = .ok json := by
  rw [jsonObject_addresses, addressesObject_served rfl rfl hq, ← Program.except_bind_eq_ok]
  generalize (e.getTransactions (split ',' addrs).toFinset none >>= fun page =>
    transactionsJson page.1 page.2) = answer
  cases answer <;> simp [Except.map]

theorem answersPage_iff (hp : urlparse target = .ok parsed)
    (hs : split '/' parsed.path = ["", a, b, c, "addresses", addrs, "transactions"])
    (hq : parsed.query = queryText params) (hw : WellFormedQuery params) :
    AnswersPage e target (split ',' addrs).toFinset (wanted params) ↔
      Served e (split ',' addrs).toFinset ∧
        SameAnswer e (split ',' addrs).toFinset (wanted params) := by
  have hread := keyValues_queryText hw
  constructor
  · rintro ⟨page', json, log, hpage', hjson, hget, hlog⟩
    have hwrite := (doGET_writes_iff hp (transactionsJson_ne_nil hjson)).mp ⟨log, hget, hlog⟩
    rw [hs, hq] at hwrite
    obtain ⟨page, hpage, hj⟩ := (jsonObject_ok_iff hread).mp hwrite
    exact ⟨⟨page, hpage, transactionsJson_ok_iff.mp ⟨json, hj⟩⟩, page, page', hpage, hpage',
      hjson.trans hj.symm⟩
  · rintro ⟨⟨page, hpage, hdated⟩, page₀, page', hpage₀, hpage', hsame⟩
    rw [hpage, Except.ok.injEq] at hpage₀
    subst hpage₀
    obtain ⟨json, hj⟩ := (@transactionsJson_ok_iff page.1 page.2).mpr hdated
    have hwrite : ExplorerServer.jsonObject e (split '/' parsed.path) parsed.query =
        .ok (some json) := by
      rw [hs, hq]
      exact (jsonObject_ok_iff hread).mpr ⟨page, hpage, hj⟩
    obtain ⟨log, hget, hlog⟩ := (doGET_writes_iff hp (transactionsJson_ne_nil hj)).mpr hwrite
    exact ⟨page', json, log, hpage', hsame.trans hj, hget, hlog⟩

/-- The answer names the block of each transaction. -/
theorem header_of_same (h : transactionToJsonObject tr = .ok json)
    (h' : transactionToJsonObject tr' = .ok json) :
    tr.blockHeader.map (·.hash) = tr'.blockHeader.map (·.hash) := by
  obtain ⟨-, _, header, block, hh, hb, rfl⟩ := transactionToJsonObject_ok h
  obtain ⟨-, _, header', block', hh', hb', he⟩ := transactionToJsonObject_ok h'
  obtain ⟨-, time, rfl⟩ := blockHeaderToJsonObject_ok hb
  obtain ⟨-, time', rfl⟩ := blockHeaderToJsonObject_ok hb'
  simp only [List.cons.injEq, Prod.mk.injEq, true_and, Value.object.injEq, Value.string.injEq]
    at he
  rw [hh, hh', Option.map_some, Option.map_some, he.2.2.1.1]

theorem head_of_same (h : transactionsJson trx truncated = .ok json)
    (h' : transactionsJson trx' truncated' = .ok json) :
    trx.head?.map (fun tr => tr.blockHeader.map (·.hash)) =
      trx'.head?.map fun tr => tr.blockHeader.map (·.hash) := by
  obtain ⟨txs, htxs, rfl⟩ := transactionsJson_ok h
  obtain ⟨txs', htxs', he⟩ := transactionsJson_ok h'
  simp only [List.cons.injEq, Prod.mk.injEq, true_and, Value.array.injEq, and_true] at he
  have heq : txs = txs' := List.map_injective_iff.mpr (fun _ _ => Value.object.inj) he.2
  subst heq
  cases htxs with
  | nil =>
    cases htxs'
    rfl
  | cons hx _ =>
    cases htxs' with
    | cons hx' _ => exact congrArg some (header_of_same hx hx')

theorem found_linked {blocks : List ChainBlock} (h : tr ∈ found addresses blocks) :
    ∃ hash ∈ hashes blocks, tr.blockHeader.map (·.hash) = some hash := by
  obtain ⟨b, hb, htr⟩ := List.mem_flatMap.mp (List.mem_of_mem_filter h)
  exact ⟨b.header.hash, List.mem_map_of_mem hb, by rw [b.linked tr htr]; rfl⟩

theorem found_append (pre post : List ChainBlock) :
    found addresses (pre ++ post) = found addresses pre ++ found addresses post := by
  simp [found, transactions]

/-- With distinct hashes no transaction found before names the block of one found after. -/
theorem header_ne_of_found {pre post : List ChainBlock} (hd : (hashes (pre ++ post)).Nodup)
    (h : tr ∈ found addresses pre) (h' : tr' ∈ found addresses post) :
    tr.blockHeader.map (·.hash) ≠ tr'.blockHeader.map (·.hash) := by
  obtain ⟨hash, hhash, hheader⟩ := found_linked h
  obtain ⟨hash', hhash', hheader'⟩ := found_linked h'
  rw [hashes, List.map_append] at hd
  intro he
  rw [hheader, hheader', Option.some.injEq] at he
  exact (List.nodup_append.mp hd).2.2 hash hhash hash' hhash' he

/-- Pages with and without some blocks in front read the same exactly when these hold nothing. -/
theorem same_page_iff {pre post : List ChainBlock} (hd : (hashes (pre ++ post)).Nodup)
    (hl : 0 < limit)
    (hdated : ∀ tr ∈ (Paging.page limit ((pre ++ post).map (matching addresses))).1, Dated tr) :
    (transactionsJson (Paging.page limit (post.map (matching addresses))).1
        (Paging.page limit (post.map (matching addresses))).2 =
      transactionsJson (Paging.page limit ((pre ++ post).map (matching addresses))).1
        (Paging.page limit ((pre ++ post).map (matching addresses))).2) ↔
      found addresses pre = [] := by
  constructor
  · intro he
    by_contra hpre
    obtain ⟨json, hjson⟩ := (@transactionsJson_ok_iff _
      (Paging.page limit ((pre ++ post).map (matching addresses))).2).mpr hdated
    have hhead := head_of_same hjson (he.trans hjson)
    rw [Paging.page_head hl, Paging.page_head hl, ← found_eq, ← found_eq, found_append] at hhead
    obtain ⟨x, xs, hx⟩ := List.exists_cons_of_ne_nil hpre
    rw [hx, List.cons_append, List.head?_cons, Option.map_some] at hhead
    cases hpost : found addresses post with
    | nil =>
      rw [hpost] at hhead
      cases hhead
    | cons y ys =>
      have hmem : x ∈ found addresses pre := hx ▸ List.mem_cons_self
      have hmem' : y ∈ found addresses post := hpost ▸ List.mem_cons_self
      rw [hpost, List.head?_cons, Option.map_some, Option.some.injEq] at hhead
      exact header_ne_of_found hd hmem hmem' hhead
  · intro hpre
    rw [List.map_append, Paging.page_append_empty hl (found_eq.symm.trans hpre)]

/-- The blocks before the one with this hash; all of them when there is none. -/
def blocksBefore (h : Hash) (blocks : List ChainBlock) : List ChainBlock :=
  blocks.takeWhile fun b => decide (b.header.hash ≠ h)

/-- With distinct hashes a page starts at the block with the hash asked for. -/
theorem getTransactions_some (hd : (hashes bc.blocks).Nodup) :
    ∃ post, bc.blocks = blocksBefore h bc.blocks ++ post ∧
      (Explorer.new bc).getTransactions addresses (some h) limit =
        .ok (Paging.page limit (post.map (matching addresses))) := by
  have hsplit : bc.blocks = blocksBefore h bc.blocks ++
      bc.blocks.dropWhile (fun b => decide (b.header.hash ≠ h)) :=
    (List.takeWhile_append_dropWhile).symm
  refine ⟨_, hsplit, ?_⟩
  cases hpost : bc.blocks.dropWhile (fun b => decide (b.header.hash ≠ h)) with
  | nil =>
    have hnone : (Explorer.new bc).index h = none := by
      by_contra hi
      obtain ⟨i, hi⟩ := Option.ne_none_iff_exists'.mp hi
      obtain ⟨b, hb, he⟩ :=
        List.mem_map.mp (List.mem_of_getElem? ((Explorer.new bc).indexed h i hi))
      have hall := List.dropWhile_eq_nil_iff.mp hpost b hb
      simp [he] at hall
    simp only [Explorer.getTransactions, hnone, pure_bind]
    rfl
  | cons b after =>
    have hb : b.header.hash = h := by
      have hfirst := List.head?_dropWhile_not (fun b => decide (b.header.hash ≠ h)) bc.blocks
      rw [hpost] at hfirst
      simpa using hfirst
    rw [hpost] at hsplit
    rw [← hb]
    exact Explorer.getTransactions_new hd (hb ▸ hsplit)

theorem getTransactions_first (hd : (hashes bc.blocks).Nodup) (hne : bc.blocks ≠ []) :
    (Explorer.new bc).getTransactions addresses none limit =
      .ok (Paging.page limit (bc.blocks.map (matching addresses))) := by
  obtain ⟨b, bs, hb⟩ := List.exists_cons_of_ne_nil hne
  have hfirst : (Explorer.new bc).getTransactions addresses none limit =
      (Explorer.new bc).getTransactions addresses (some b.header.hash) limit := by
    have hblocks : (Explorer.new bc).blocks = b :: bs := hb
    simp only [Explorer.getTransactions, hblocks]
  rw [hfirst, @Explorer.getTransactions_new b addresses limit bc [] bs hd hb, hb]

theorem sameAnswer_iff (hd : (hashes bc.blocks).Nodup) (hs : Served (.new bc) addresses) :
    SameAnswer (.new bc) addresses (some h) ↔
      found addresses (blocksBefore h bc.blocks) = [] := by
  obtain ⟨page, hpage, hdated⟩ := hs
  have hne : bc.blocks ≠ [] := by
    intro he
    have hblocks : (Explorer.new bc).blocks = [] := he
    simp only [Explorer.getTransactions, hblocks] at hpage
    cases hpage
  obtain ⟨post, hsplit, hsome⟩ := @getTransactions_some bc addresses 200 h hd
  have hfirst := @getTransactions_first bc addresses 200 hd hne
  rw [hfirst, Except.ok.injEq] at hpage
  subst hpage
  generalize hpre : blocksBefore h bc.blocks = pre at hsplit
  rw [hsplit] at hd hdated hfirst
  rw [← same_page_iff hd (Nat.succ_pos 199) hdated]
  constructor
  · rintro ⟨page, page', hpage, hpage', hsame⟩
    rw [hfirst, Except.ok.injEq] at hpage
    rw [hsome, Except.ok.injEq] at hpage'
    rw [hpage, hpage']
    exact hsame
  · intro hsame
    exact ⟨_, _, hfirst, hsome, hsame⟩

/-- A request for transactions gets the page it asks for exactly when the page from the first
block on can be written, and reads the same as that from the block it asks for. With distinct
hashes it does if there is nothing for the addresses before that block. -/
theorem doGET_page_iff (hp : urlparse target = .ok parsed)
    (hs : split '/' parsed.path = ["", a, b, c, "addresses", addrs, "transactions"])
    (hq : parsed.query = queryText params) (hw : WellFormedQuery params) :
    (AnswersPage (.new bc) target (split ',' addrs).toFinset (wanted params) ↔
        Served (.new bc) (split ',' addrs).toFinset ∧
          SameAnswer (.new bc) (split ',' addrs).toFinset (wanted params)) ∧
      ((hashes bc.blocks).Nodup →
        (AnswersPage (.new bc) target (split ',' addrs).toFinset (wanted params) ↔
          Served (.new bc) (split ',' addrs).toFinset ∧ ∀ h, wanted params = some h →
            found (split ',' addrs).toFinset (blocksBefore h bc.blocks) = [])) := by
  refine ⟨answersPage_iff hp hs hq hw, fun hd => ?_⟩
  rw [answersPage_iff hp hs hq hw]
  refine and_congr_right fun hserved => ?_
  cases hwanted : wanted params with
  | none =>
    obtain ⟨page, hpage, -⟩ := hserved
    exact iff_of_true ⟨page, page, hpage, hpage, rfl⟩ nofun
  | some h => simp [sameAnswer_iff hd hserved]

/-- What a wallet that has read the chain up to block `blockHash` asks for next. -/
def followUp (blockHash : Hash) : List (String × String) :=
  [("noToken", "true"), ("blockHash", blockHash)]

def followUpTarget (blockHash : Hash) : String :=
  "/blockchain/v2/btc/addresses/ours/transactions?" ++ queryText (followUp blockHash)

theorem served_emptied : Served (.new emptiedChain) {"ours"} := by
  have hdated : ∀ tr ∈ transactions emptiedChain.blocks, Dated tr := by
    intro tr htr
    rcases List.mem_pair.mp htr with rfl | rfl
    · exact ⟨⟨100, rfl, by decide⟩, .new 1 "b1", rfl, by decide⟩
    · exact ⟨⟨200, rfl, by decide⟩, .new 2 "b2", rfl, by decide⟩
  refine ⟨_, getTransactions_first (by decide) (List.cons_ne_nil _ _), fun tr htr => ?_⟩
  have hmem := Paging.page_front.subset htr
  rw [← found_eq] at hmem
  exact hdated tr (List.mem_of_mem_filter hmem)

theorem wellFormed_followUp {blockHash : Hash}
    (hh : '&' ∉ blockHash.toList ∧ '=' ∉ blockHash.toList) :
    WellFormedQuery (followUp blockHash) := by
  have hkey : '&' ∉ "blockHash".toList ∧ '=' ∉ "blockHash".toList := by decide
  refine ⟨by simp [followUp], ?_, ?_⟩ <;> intro p hp <;>
    rcases List.mem_pair.mp hp with rfl | rfl
  · decide
  · exact hkey
  · decide
  · exact hh

theorem doGET_page_unread : AnswersPage (.new emptiedChain) (followUpTarget "b1") {"ours"}
    (some "b1") := by
  have hp : urlparse (followUpTarget "b1") = .ok
      { path := "/blockchain/v2/btc/addresses/ours/transactions",
        query := queryText (followUp "b1") } := rfl
  have hs : split '/' "/blockchain/v2/btc/addresses/ours/transactions" =
      ["", "blockchain", "v2", "btc", "addresses", "ours", "transactions"] := by decide
  have hours : (split ',' "ours").toFinset = {"ours"} := by decide
  have hpage : AnswersPage (.new emptiedChain) (followUpTarget "b1")
      (split ',' "ours").toFinset (wanted (followUp "b1")) ↔ _ :=
    (doGET_page_iff hp hs rfl (wellFormed_followUp (by decide))).2 (by decide)
  rw [hours] at hpage
  refine hpage.mpr ⟨served_emptied, fun h hh => ?_⟩
  cases hh
  decide

/-- Asked for what follows the last block, the server starts over. -/
theorem doGET_ignores_blockHash : ¬ AnswersPage (.new emptiedChain) (followUpTarget "b2") {"ours"}
    (wanted (followUp "b2")) := by
  have hp : urlparse (followUpTarget "b2") = .ok
      { path := "/blockchain/v2/btc/addresses/ours/transactions",
        query := queryText (followUp "b2") } := rfl
  have hs : split '/' "/blockchain/v2/btc/addresses/ours/transactions" =
      ["", "blockchain", "v2", "btc", "addresses", "ours", "transactions"] := by decide
  have hours : (split ',' "ours").toFinset = {"ours"} := by decide
  have hpage := answersPage_iff (e := .new emptiedChain) hp hs rfl
    (wellFormed_followUp (by decide))
  rw [hours] at hpage
  intro h
  have hsame := (sameAnswer_iff (h := "b2") (by decide) served_emptied).mp (hpage.mp h).2
  exact absurd (congrArg List.length hsame) (by decide)

end LibCoreCmd.Tools

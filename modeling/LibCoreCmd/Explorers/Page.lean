import LibCoreCmd.Explorers.LedgerApiParser

/-! What the counting of brackets comes to: a page is read as a list of transactions, each of
them from its own text. -/
namespace LibCoreCmd.Explorers
open Sax

variable {π τ : Type} [TransactionParser π τ]

/-- The last key, the parser of a transaction, and the transactions, the last of which it
writes to. -/
structure Reader (π τ : Type) where
  lastKey : String
  transactionParser : π
  transactions : List τ

def keyAfter (lastKey : String) : Sax.Event → String
  | .key k => k
  | _ => lastKey

/-- Every event is for the parser of the last transaction. -/
def Reader.handle (r : Reader π τ) (e : Sax.Event) : Reader π τ :=
  let lastKey := keyAfter r.lastKey e
  match r.transactions.getLast? with
  | none => { r with lastKey }
  | some transaction =>
    let (parser, transaction) :=
      TransactionParser.handle lastKey e (r.transactionParser, transaction)
    ⟨lastKey, parser, r.transactions.dropLast ++ [transaction]⟩

def TransactionsParser.reader (lastKey : String) (p : TransactionsParser π τ) : Reader π τ :=
  ⟨lastKey, p.transactionParser, p.transactions⟩

def LedgerApiParser.reader (p : LedgerApiParser π τ) : Reader π τ :=
  p.parser.transactionsParser.reader p.lastKey

variable {p q : LedgerApiParser π τ} {n : Nat} {e : Sax.Event} {k : String}

omit [TransactionParser π τ] in
theorem reader_depths (q : TransactionsParser π τ) (arrayDepth objectDepth : Nat) :
    { q with arrayDepth, objectDepth }.reader k = q.reader k := rfl

theorem reader_forward (q : TransactionsParser π τ) :
    (q.forward (keyAfter k e) e).reader (keyAfter k e) = (q.reader k).handle e := by
  unfold TransactionsParser.forward Reader.handle TransactionsParser.reader
  dsimp only
  cases q.transactions.getLast? <;> rfl

/-- While the response is no failure every event reaches the parser of the bulk, with the last
key at that time. -/
theorem handle_key (hs : 200 ≤ p.statusCode ∧ p.statusCode < 400) (e : Sax.Event) :
    (p.handle e).statusCode = p.statusCode ∧ (p.handle e).lastKey = keyAfter p.lastKey e ∧
      (p.handle e).parser = p.parser.handle (keyAfter p.lastKey e) e := by
  have h2 : ¬ p.statusCode < 200 := Nat.not_lt_of_le hs.1
  have h4 : ¬ 400 ≤ p.statusCode := Nat.not_le_of_lt hs.2
  cases e <;>
    simp [LedgerApiParser.handle, LedgerApiParser.delegate, LedgerApiParser.isFailure, keyAfter,
      h2, h4]

theorem reader_handle (hs : 200 ≤ p.statusCode ∧ p.statusCode < 400) {q : TransactionsParser π τ}
    (hq : q.reader p.lastKey = p.reader)
    (hf : (p.parser.handle (keyAfter p.lastKey e) e).transactionsParser =
      q.forward (keyAfter p.lastKey e) e) : (p.handle e).reader = p.reader.handle e := by
  obtain ⟨-, hkey, hparser⟩ := handle_key hs e
  rw [LedgerApiParser.reader, hparser, hkey, hf, reader_forward, hq]

theorem reader_flat (hi : Inside n p.view) (hf : e.Flat) :
    (p.handle e).reader = p.reader.handle e := by
  obtain ⟨hd, hd0, ha⟩ := hi.running
  refine reader_handle hi.success (q := p.parser.transactionsParser) rfl ?_
  cases e with
  | null | bool | rawNumber | string | key =>
    simp [TransactionsBulkParser.handle, TransactionsBulkParser.proxyParse,
      TransactionsParser.handle, TransactionsParser.proxyParse, hd, hd0, ha]
  | startObject | endObject | startArray | endArray => exact hf.elim

theorem reader_startObject (hi : Inside (n + 1) p.view) :
    (p.handle .startObject).reader = p.reader.handle .startObject := by
  obtain ⟨hd, hd0, ha⟩ := hi.running
  have hroom : p.parser.transactionsParser.objectDepth + (n + 1) < 2 ^ 32 := hi.objectRoom
  have hincr := (decr_incr (n := p.parser.transactionsParser.objectDepth) (by omega)).1
  have hnot : ¬ (p.parser.transactionsParser.arrayDepth = 1 ∧
      p.parser.transactionsParser.objectDepth = 0) := by
    rintro ⟨h1, h0⟩
    have hpos : 0 < p.parser.transactionsParser.objectDepth := hi.object h1
    omega
  refine reader_handle hi.success (q := { p.parser.transactionsParser with
    objectDepth := p.parser.transactionsParser.objectDepth + 1 }) (reader_depths ..) ?_
  simp [TransactionsBulkParser.handle, TransactionsBulkParser.proxyParse,
    TransactionsParser.handle, TransactionsParser.proxyParse, hd, ha, hincr, hnot]

theorem reader_endObject {m : Nat} (hi : Inside n p.view) :
    (p.handle (.endObject m)).reader = p.reader.handle (.endObject m) := by
  obtain ⟨hd, hd0, ha⟩ := hi.running
  refine reader_handle hi.success (q := { p.parser.transactionsParser with
    objectDepth := decr p.parser.transactionsParser.objectDepth }) (reader_depths ..) ?_
  simp [TransactionsBulkParser.handle, TransactionsBulkParser.proxyParse,
    TransactionsParser.handle, hd, ha]

theorem reader_startArray (hi : Inside n p.view) :
    (p.handle .startArray).reader = p.reader.handle .startArray := by
  obtain ⟨hd, hd0, ha⟩ := hi.running
  have h1 : 1 ≤ p.parser.depth := hd
  have h0 : 0 < p.parser.depth + 1 := by omega
  refine reader_handle hi.success (q := { p.parser.transactionsParser with
    arrayDepth := incr p.parser.transactionsParser.arrayDepth }) (reader_depths ..) ?_
  simp [TransactionsBulkParser.handle, TransactionsBulkParser.proxyParse,
    TransactionsParser.handle, ha, h1, h0]

theorem reader_endArray {m : Nat} (hi : Inside n p.view) (hd1 : 1 < p.view.depth)
    (ha1 : 1 < p.view.arrayDepth) :
    (p.handle (.endArray m)).reader = p.reader.handle (.endArray m) := by
  obtain ⟨hd, hd0, ha⟩ := hi.running
  have h1 : 1 < p.parser.depth := hd1
  have ha2 : 1 < p.parser.transactionsParser.arrayDepth := ha1
  have hroom : p.parser.transactionsParser.arrayDepth + n < 2 ^ 32 := hi.arrayRoom
  have hpos : 0 < decr p.parser.transactionsParser.arrayDepth := by
    unfold decr
    omega
  refine reader_handle hi.success (q := { p.parser.transactionsParser with
    arrayDepth := decr p.parser.transactionsParser.arrayDepth }) (reader_depths ..) ?_
  simp [TransactionsBulkParser.handle, TransactionsBulkParser.proxyParse,
    TransactionsParser.handle, TransactionsParser.proxyParse, hd, h1, hpos]

/-- What is written inside a transaction is for its parser alone. -/
theorem follows_inside : Follows (LedgerApiParser.handle (π := π) (τ := τ)) LedgerApiParser.view
    Inside LedgerApiParser.reader Reader.handle where
  toPasses := passes_inside
  trackFlat _ _ _ hi hf := reader_flat hi hf
  trackObject n p hi := by
    refine ⟨reader_startObject hi, fun t k ht => ?_⟩
    exact reader_endObject (ht ▸ (passes_inside.object n p hi).1)
  trackArray n p hi := by
    refine ⟨reader_startArray hi, fun t k ht => ?_⟩
    have hd := hi.depth
    have ha := hi.array
    refine reader_endArray (ht ▸ (passes_inside.array n p hi).1) ?_ ?_ <;>
      rw [ht, view_startArray hi] <;> simp <;> omega

/-- The parser of a transaction with a transaction of its own. -/
def readEvent : String × π × τ → Sax.Event → String × π × τ
  | (lastKey, s), e => (keyAfter lastKey e, TransactionParser.handle (keyAfter lastKey e) e s)

/-- Each transaction is read from a blank one. -/
def readTransactions : String → π → List (List (String × Value)) → List τ
  | _, _, [] => []
  | lastKey, parser, ms :: txs =>
    let (lastKey, parser, transaction) :=
      feed readEvent (lastKey, parser, TransactionParser.blank π) (Value.object ms).events
    transaction :: readTransactions lastKey parser txs

/-- The last boolean under `truncated`. -/
def truncatedAfter (hasNext : Bool) : List (String × Value) → Bool
  | [] => hasNext
  | (k, .bool b) :: ms => truncatedAfter (if k = "truncated" then b else hasNext) ms
  | _ :: ms => truncatedAfter hasNext ms

theorem feed_reader (es : List Sax.Event) {lastKey : String} {parser : π} {ts : List τ} {t : τ} :
    feed Reader.handle ⟨lastKey, parser, ts ++ [t]⟩ es =
      let (lastKey, parser, t) := feed readEvent (lastKey, parser, t) es
      ⟨lastKey, parser, ts ++ [t]⟩ := by
  induction es generalizing lastKey parser t with
  | nil => rfl
  | cons e es ih =>
    rw [feed_cons, feed_cons, Reader.handle, List.getLast?_concat, List.dropLast_concat]
    exact ih

/-- The parser between the members of the page, where it has read nothing but the flag since
`p`. -/
structure Outside (p q : LedgerApiParser π τ) : Prop where
  statusCode : q.statusCode = p.statusCode
  depth : q.parser.depth = 0
  transactionsParser : q.parser.transactionsParser = p.parser.transactionsParser

omit [TransactionParser π τ] in
theorem Outside.trans {p q r : LedgerApiParser π τ} (h : Outside p q) (h' : Outside q r) :
    Outside p r :=
  ⟨h'.statusCode.trans h.statusCode, h'.depth,
    h'.transactionsParser.trans h.transactionsParser⟩

theorem outside_handle
    (he : (∀ b, e ≠ .bool b) ∧ e ≠ .startArray ∧ ∀ m, e ≠ .endArray m)
    (hs : 200 ≤ p.statusCode ∧ p.statusCode < 400) (hd : p.parser.depth = 0) :
    Outside p (p.handle e) ∧ (p.handle e).lastKey = keyAfter p.lastKey e ∧
      (p.handle e).parser.hasNext = p.parser.hasNext := by
  obtain ⟨hstatus, hkey, hparser⟩ := handle_key hs e
  have hsame : (p.handle e).parser = p.parser := by
    rw [hparser]
    cases e with
    | bool b => exact (he.1 b rfl).elim
    | startArray => exact (he.2.1 rfl).elim
    | endArray m => exact (he.2.2 m rfl).elim
    | null | rawNumber | string | key | startObject | endObject =>
      simp [TransactionsBulkParser.handle, TransactionsBulkParser.proxyParse, hd]
  exact ⟨⟨hstatus, by rw [hsame, hd], by rw [hsame]⟩, hkey, by rw [hsame]⟩

theorem outside_scalar {v : Value} (hv : v.depth = 0)
    (hs : 200 ≤ p.statusCode ∧ p.statusCode < 400) (hd : p.parser.depth = 0) :
    Outside p (feed LedgerApiParser.handle p v.events) ∧
      ∀ ms, truncatedAfter p.parser.hasNext ((p.lastKey, v) :: ms) =
        truncatedAfter (feed LedgerApiParser.handle p v.events).parser.hasNext ms := by
  cases v with
  | null =>
    obtain ⟨hout, -, hnext⟩ := outside_handle (e := .null) (by simp) hs hd
    exact ⟨hout, fun ms => congrArg (truncatedAfter · ms) hnext.symm⟩
  | number n =>
    obtain ⟨hout, -, hnext⟩ := outside_handle (e := .rawNumber (toString n)) (by simp) hs hd
    exact ⟨hout, fun ms => congrArg (truncatedAfter · ms) hnext.symm⟩
  | string s =>
    obtain ⟨hout, -, hnext⟩ := outside_handle (e := .string s) (by simp) hs hd
    exact ⟨hout, fun ms => congrArg (truncatedAfter · ms) hnext.symm⟩
  | bool b =>
    simp only [Value.events, feed_cons, feed_nil]
    obtain ⟨hstatus, -, hparser⟩ := handle_key hs (.bool b)
    by_cases hk : p.lastKey = "truncated" <;>
      simp [TransactionsBulkParser.handle, TransactionsBulkParser.proxyParse, keyAfter, hk,
        hd] at hparser <;>
      exact ⟨⟨hstatus, by simp [hparser, hd], by simp [hparser]⟩, fun ms => by
        simp [hparser, truncatedAfter, hk]⟩
  | array items => simp [Value.depth] at hv
  | object members => simp [Value.depth] at hv

/-- Outside of the list of transactions only the flag is read. -/
theorem outside_members {ms : List (String × Value)} (hm : memberDepth ms = 0)
    (hs : 200 ≤ p.statusCode ∧ p.statusCode < 400) (hd : p.parser.depth = 0) :
    Outside p (feed LedgerApiParser.handle p (memberEvents ms)) ∧
      (feed LedgerApiParser.handle p (memberEvents ms)).parser.hasNext =
        truncatedAfter p.parser.hasNext ms := by
  induction ms generalizing p with
  | nil => exact ⟨⟨rfl, hd, rfl⟩, rfl⟩
  | cons m ms ih =>
    obtain ⟨k, v⟩ := m
    rw [memberDepth, Nat.max_eq_zero_iff] at hm
    obtain ⟨hkey, hlast, hnext⟩ := outside_handle (e := .key k) (by simp) hs hd
    obtain ⟨hscalar, htruncated⟩ := outside_scalar hm.1 (hkey.statusCode ▸ hs) hkey.depth
    have hboth := hkey.trans hscalar
    obtain ⟨hrest, hflag⟩ := ih hm.2 (hboth.statusCode ▸ hs) hboth.depth
    rw [memberEvents, feed_cons, feed_append]
    refine ⟨hboth.trans hrest, hflag.trans ?_⟩
    rw [← htruncated, hlast, hnext]
    rfl

theorem reader_firstBracket (hb : Between p.view) : (p.handle .startObject).reader =
    Reader.handle { p.reader with
      transactions := p.reader.transactions ++ [TransactionParser.blank π] } .startObject := by
  have hd : p.parser.depth = 1 := hb.depth
  have ha : p.parser.transactionsParser.arrayDepth = 1 := hb.array
  have ho : p.parser.transactionsParser.objectDepth = 0 := hb.object
  have hincr : incr 0 = 1 := rfl
  obtain ⟨-, hkey, hparser⟩ := handle_key hb.success .startObject
  have hforward : (p.handle .startObject).parser.transactionsParser =
      TransactionsParser.forward (keyAfter p.lastKey .startObject) .startObject
        { p.parser.transactionsParser with
          objectDepth := 1
          transactions := p.parser.transactionsParser.transactions ++
            [TransactionParser.blank π] } := by
    rw [hparser]
    simp [TransactionsBulkParser.handle, TransactionsBulkParser.proxyParse,
      TransactionsParser.handle, TransactionsParser.proxyParse, hd, ha, ho, hincr]
  rw [LedgerApiParser.reader, hforward, hkey, reader_forward]
  rfl

/-- A transaction is read from its first bracket to its last. -/
theorem transaction_read {ms : List (String × Value)} (hm : memberDepth ms + 1 < 2 ^ 32)
    (hb : Between p.view) :
    (feed LedgerApiParser.handle p (Value.object ms).events).view =
        { p.view with count := p.view.count + 1 } ∧
      (feed LedgerApiParser.handle p (Value.object ms).events).reader =
        feed Reader.handle { p.reader with
          transactions := p.reader.transactions ++ [TransactionParser.blank π] }
          (Value.object ms).events := by
  have hopen := view_firstBracket hb
  have hin : Inside (memberDepth ms) (p.handle .startObject).view := by
    rw [hopen]
    obtain ⟨hs, hdepth, ha, -⟩ := hb
    exact ⟨hs, by simp [hdepth], by simp [ha], fun _ => Nat.one_pos, by simp [ha]; omega,
      by simp; omega⟩
  have hview := passes_inside.members ms _ _ le_rfl hin
  have hreader := follows_inside.members ms _ _ le_rfl hin
  simp only [Value.events, feed_cons, feed_append, feed_nil]
  constructor
  · have hclose : decr 1 = p.view.objectDepth := by
      rw [hb.object]
      exact (decr_incr (n := 0) (by omega)).2
    rw [view_endObject (hview ▸ hin), hview, hopen]
    simp only [hclose]
  · rw [reader_endObject (hview ▸ hin), hreader, reader_firstBracket hb]

theorem transactions_read {txs : List (List (String × Value))}
    (hm : ∀ ms ∈ txs, memberDepth ms + 1 < 2 ^ 32) (hb : Between p.view) :
    Between (feed LedgerApiParser.handle p (itemEvents (txs.map .object))).view ∧
      (feed LedgerApiParser.handle p (itemEvents (txs.map .object))).view.hasNext =
        p.view.hasNext ∧
      (feed LedgerApiParser.handle p (itemEvents (txs.map .object))).reader.transactions =
        p.reader.transactions ++
          readTransactions p.reader.lastKey p.reader.transactionParser txs := by
  induction txs generalizing p with
  | nil => exact ⟨hb, rfl, by simp [itemEvents, readTransactions]⟩
  | cons ms txs ih =>
    obtain ⟨hview, hreader⟩ := transaction_read (hm ms List.mem_cons_self) hb
    have hnext : Between (feed LedgerApiParser.handle p (Value.object ms).events).view := by
      rw [hview]
      exact ⟨hb.success, hb.depth, hb.array, hb.object⟩
    obtain ⟨hbetween, hflag, hread⟩ := ih (fun ms h => hm ms (List.mem_cons_of_mem _ h)) hnext
    rw [List.map_cons, itemEvents, feed_append]
    refine ⟨hbetween, hflag.trans (by rw [hview]), hread.trans ?_⟩
    rw [hreader, feed_reader, readTransactions]
    simp only [List.append_assoc, List.singleton_append]

/-- The list of transactions begins. -/
theorem between_startArray (hs : 200 ≤ p.statusCode ∧ p.statusCode < 400)
    (hd : p.parser.depth = 0) (hk : p.lastKey = "txs")
    (ha : p.parser.transactionsParser.arrayDepth = 0)
    (ho : p.parser.transactionsParser.objectDepth = 0) :
    Between (p.handle .startArray).view ∧ (p.handle .startArray).reader = p.reader ∧
      (p.handle .startArray).view.hasNext = p.parser.hasNext := by
  have hincr : incr 0 = 1 := rfl
  obtain ⟨hstatus, hkey, hparser⟩ := handle_key hs .startArray
  have hparser' : (p.handle .startArray).parser = { p.parser with
      depth := 1, transactionsParser := { p.parser.transactionsParser with arrayDepth := 1 } } := by
    rw [hparser]
    simp [TransactionsBulkParser.handle, TransactionsBulkParser.proxyParse,
      TransactionsParser.handle, keyAfter, hd, hk, ha, hincr]
  refine ⟨⟨by rwa [← hstatus] at hs, ?_, ?_, ?_⟩, ?_, ?_⟩ <;>
    simp [LedgerApiParser.view, LedgerApiParser.reader, TransactionsParser.reader, hparser', ho,
      hkey, keyAfter]

/-- The list of transactions ends, and the parser of the list is not told. -/
theorem outside_endArray (hb : Between p.view) {m : Nat} : Outside p (p.handle (.endArray m)) ∧
    (p.handle (.endArray m)).parser.hasNext = p.view.hasNext := by
  have hd : p.parser.depth = 1 := hb.depth
  obtain ⟨hstatus, -, hparser⟩ := handle_key hb.success (.endArray m)
  have hparser' : (p.handle (.endArray m)).parser = { p.parser with depth := 0 } := by
    rw [hparser]
    simp [TransactionsBulkParser.handle, TransactionsBulkParser.proxyParse, hd]
  refine ⟨⟨hstatus, ?_, ?_⟩, ?_⟩ <;> rw [hparser']
  rfl

theorem truncatedAfter_append (ms ms' : List (String × Value)) (b : Bool) :
    truncatedAfter b (ms ++ ms') = truncatedAfter (truncatedAfter b ms) ms' := by
  induction ms generalizing b with
  | nil => rfl
  | cons m ms ih =>
    obtain ⟨k, v⟩ := m
    cases v <;> exact ih _

/-- What comes before the first transaction. -/
theorem page_front {before : List (String × Value)} (hm : memberDepth before = 0)
    (hs : 200 ≤ p.statusCode ∧ p.statusCode < 400) (hd : p.parser.depth = 0)
    (ha : p.parser.transactionsParser.arrayDepth = 0)
    (ho : p.parser.transactionsParser.objectDepth = 0) :
    let q := feed LedgerApiParser.handle p
      (.startObject :: (memberEvents before ++ [.key "txs", .startArray]))
    Between q.view ∧ q.view.hasNext = truncatedAfter p.parser.hasNext before ∧
      q.reader = p.parser.transactionsParser.reader "txs" := by
  obtain ⟨hopen, -, hnext⟩ := outside_handle (e := .startObject) (by simp) hs hd
  obtain ⟨hmembers, hflag⟩ := outside_members hm (hopen.statusCode ▸ hs) hopen.depth
  have hfront := hopen.trans hmembers
  obtain ⟨hkey, hlast, hsame⟩ := outside_handle (e := .key "txs") (by simp)
    (hfront.statusCode ▸ hs) hfront.depth
  have hall := hfront.trans hkey
  obtain ⟨hbetween, hreader, hkept⟩ := between_startArray (hall.statusCode ▸ hs) hall.depth hlast
    (by rw [hall.transactionsParser, ha]) (by rw [hall.transactionsParser, ho])
  simp only [feed_cons, feed_append, feed_nil]
  refine ⟨hbetween, ?_, ?_⟩
  · rw [hkept, hsame, hflag, hnext]
  · rw [hreader, LedgerApiParser.reader, hall.transactionsParser, hlast]
    rfl

/-- What comes after the last one. -/
theorem page_back {after : List (String × Value)} (hm : memberDepth after = 0)
    (hb : Between p.view) {m k : Nat} :
    (feed LedgerApiParser.handle p (.endArray m :: (memberEvents after ++ [.endObject k]))).build =
      .ok ⟨p.reader.transactions, truncatedAfter p.view.hasNext after⟩ := by
  obtain ⟨hend, hflag⟩ := outside_endArray (m := m) hb
  obtain ⟨hmembers, hflag'⟩ := outside_members hm (hend.statusCode ▸ hb.success) hend.depth
  have hback := hend.trans hmembers
  obtain ⟨hclose, -, hnext⟩ := outside_handle (e := .endObject k) (by simp)
    (hback.statusCode ▸ hb.success) hback.depth
  have hall := hback.trans hclose
  have hs : 200 ≤ p.statusCode ∧ p.statusCode < 400 := hb.success
  simp only [feed_cons, feed_append, feed_nil]
  rw [LedgerApiParser.build, LedgerApiParser.isFailure, hall.statusCode, hall.transactionsParser,
    hnext, hflag', hflag, if_neg (by simp; omega)]
  rfl

/-- Before and after its transactions a page has members without brackets. -/
theorem readBulk_page {statusCode : Nat} {statusText : String}
    {before after : List (String × Value)} {txs : List (List (String × Value))}
    (hs : 200 ≤ statusCode ∧ statusCode < 400) (hbefore : memberDepth before = 0)
    (hafter : memberDepth after = 0) (hm : ∀ ms ∈ txs, memberDepth ms + 1 < 2 ^ 32) :
    readBulk (π := π) (τ := τ) statusCode statusText
        (.object (before ++ ("txs", .array (txs.map .object)) :: after)) =
      .ok ⟨readTransactions "txs" (TransactionParser.init τ : π) txs,
        truncatedAfter false (before ++ after)⟩ := by
  have hevents : (Value.object (before ++ ("txs", .array (txs.map .object)) :: after)).events =
      (.startObject :: (memberEvents before ++ [.key "txs", .startArray])) ++
        (itemEvents (txs.map .object) ++ (.endArray txs.length ::
          (memberEvents after ++ [.endObject (before.length + (after.length + 1))]))) := by
    simp [Value.events, memberEvents, memberEvents_append]
  obtain ⟨hfront, hflag, hreader⟩ := page_front (π := π) (τ := τ)
    (p := LedgerApiParser.attach statusCode statusText) hbefore hs rfl rfl rfl
  obtain ⟨hitems, hkept, hread⟩ := transactions_read hm hfront
  rw [readBulk, hevents, feed_append, feed_append, page_back hafter hitems, hkept, hflag, hread,
    hreader, truncatedAfter_append]
  rfl

end LibCoreCmd.Explorers

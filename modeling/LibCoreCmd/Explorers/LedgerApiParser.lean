import LibCoreCmd.Tools.Encoding

/-! How the core reads a page of transactions: parsers that count brackets, one inside the other,
fed by a reader that reports numbers by their text. -/
namespace LibCoreCmd.Explorers
open Sax Tools

/-- `++` and `--` of a `uint32_t`. -/
def incr (n : Nat) : Nat := (n + 1) % 2 ^ 32

def decr (n : Nat) : Nat := (n + (2 ^ 32 - 1)) % 2 ^ 32

/-- The parser of a single transaction: it writes to the transaction it was last given. The last
key is shared by all parsers. -/
class TransactionParser (π τ : Type) where
  init : π
  blank : τ
  handle : String → Sax.Event → π × τ → π × τ

structure TransactionsBulk (τ : Type) where
  transactions : List τ := []
  hasNext : Bool := false
deriving DecidableEq, Repr

structure TransactionsParser (π τ : Type) where
  arrayDepth : Nat := 0
  objectDepth : Nat := 0
  transactionParser : π
  /-- What the pointer `_transactions` leads to. -/
  transactions : List τ := []

structure TransactionsBulkParser (π τ : Type) where
  depth : Int := 0
  transactionsParser : TransactionsParser π τ
  hasNext : Bool := false

structure LedgerApiParser (π τ : Type) where
  statusCode : Nat := 0
  statusText : String := ""
  depth : Nat := 0
  error : String := ""
  lastKey : String := ""
  parser : TransactionsBulkParser π τ

variable {π τ : Type} [TransactionParser π τ]

/-- The call is passed on to the parser of the last transaction. -/
def TransactionsParser.forward (lastKey : String) (e : Sax.Event) (p : TransactionsParser π τ) :
    TransactionsParser π τ :=
  match p.transactions.getLast? with
  | none => p
  | some transaction =>
    let (parser, transaction) :=
      TransactionParser.handle lastKey e (p.transactionParser, transaction)
    { p with
      transactionParser := parser
      transactions := p.transactions.dropLast ++ [transaction] }

def TransactionsParser.proxyParse (lastKey : String) (e : Sax.Event) (p : TransactionsParser π τ) :
    TransactionsParser π τ :=
  if 0 < p.arrayDepth then p.forward lastKey e else p

def TransactionsParser.handle (lastKey : String) (p : TransactionsParser π τ) (e : Sax.Event) :
    TransactionsParser π τ :=
  match e with
  | .startObject =>
    let p := { p with objectDepth := incr p.objectDepth }
    let p := if p.arrayDepth = 1 ∧ p.objectDepth = 1 then
        { p with transactions := p.transactions ++ [TransactionParser.blank π] }
      else p
    p.proxyParse lastKey e
  | .endObject _ =>
    if 0 < p.arrayDepth then
      { p with objectDepth := decr p.objectDepth }.forward lastKey e
    else p
  | .startArray =>
    if 0 < p.arrayDepth then
      { p with arrayDepth := incr p.arrayDepth }.forward lastKey e
    else { p with arrayDepth := incr p.arrayDepth }
  | .endArray _ => { p with arrayDepth := decr p.arrayDepth }.proxyParse lastKey e
  | e => p.proxyParse lastKey e

def TransactionsBulkParser.proxyParse (lastKey : String) (e : Sax.Event)
    (p : TransactionsBulkParser π τ) : TransactionsBulkParser π τ :=
  if 0 < p.depth then { p with transactionsParser := p.transactionsParser.handle lastKey e } else p

def TransactionsBulkParser.handle (lastKey : String) (p : TransactionsBulkParser π τ)
    (e : Sax.Event) : TransactionsBulkParser π τ :=
  match e with
  | .bool b =>
    let p := if lastKey = "truncated" ∧ p.depth = 0 then { p with hasNext := b } else p
    p.proxyParse lastKey e
  | .startArray =>
    -- `init` only leads the inner parser to the list that is kept here
    let p := if 1 ≤ p.depth ∨ lastKey = "txs" then { p with depth := p.depth + 1 } else p
    p.proxyParse lastKey e
  | .endArray _ =>
    let p := if 0 < p.depth then { p with depth := p.depth - 1 } else p
    p.proxyParse lastKey e
  | e => p.proxyParse lastKey e

def LedgerApiParser.isFailure (p : LedgerApiParser π τ) : Bool :=
  p.statusCode < 200 || 400 ≤ p.statusCode

def LedgerApiParser.delegate (e : Sax.Event) (p : LedgerApiParser π τ) : LedgerApiParser π τ :=
  if p.isFailure then p else { p with parser := p.parser.handle p.lastKey e }

/-- No event is refused, as the parser of a transaction refuses none. -/
def LedgerApiParser.handle (p : LedgerApiParser π τ) (e : Sax.Event) : LedgerApiParser π τ :=
  match e with
  | .string s =>
    let p := if p.depth = 1 ∧ p.isFailure ∧ p.lastKey = "error" then { p with error := s } else p
    p.delegate e
  | .startObject | .startArray => { p with depth := incr p.depth }.delegate e
  | .key k => { p with lastKey := k }.delegate e
  | .endObject _ | .endArray _ => { p with depth := decr p.depth }.delegate e
  | e => p.delegate e

/-- The parser of a response with this status, which writes to a new bulk. -/
def LedgerApiParser.attach (statusCode : Nat) (statusText : String) : LedgerApiParser π τ where
  statusCode
  statusText
  parser := { transactionsParser := { transactionParser := TransactionParser.init τ } }

def LedgerApiParser.build (p : LedgerApiParser π τ) : Except String (TransactionsBulk τ) :=
  if p.isFailure then
    .error (toString p.statusCode ++ " - " ++ p.statusText ++ ": " ++ p.error)
  else .ok ⟨p.parser.transactionsParser.transactions, p.parser.hasNext⟩

/-- What the core makes of the text of a JSON value. -/
def readBulk (statusCode : Nat) (statusText : String) (v : Value) :
    Except String (TransactionsBulk τ) :=
  (feed LedgerApiParser.handle (LedgerApiParser.attach (π := π) statusCode statusText)
    v.events).build

/-- The parts of the state that decide what is done with brackets, and how much was read. -/
structure View where
  statusCode : Nat
  depth : Int
  arrayDepth : Nat
  objectDepth : Nat
  count : Nat
  hasNext : Bool
deriving DecidableEq, Repr

def LedgerApiParser.view (p : LedgerApiParser π τ) : View where
  statusCode := p.statusCode
  depth := p.parser.depth
  arrayDepth := p.parser.transactionsParser.arrayDepth
  objectDepth := p.parser.transactionsParser.objectDepth
  count := p.parser.transactionsParser.transactions.length
  hasNext := p.parser.hasNext

/-- The text read is part of a transaction, with room for `n` more brackets. -/
structure Inside (n : Nat) (w : View) : Prop where
  success : 200 ≤ w.statusCode ∧ w.statusCode < 400
  depth : 0 < w.depth
  array : 0 < w.arrayDepth
  object : w.arrayDepth = 1 → 0 < w.objectDepth
  arrayRoom : w.arrayDepth + n < 2 ^ 32
  objectRoom : w.objectDepth + n < 2 ^ 32

section Steps
variable {p : TransactionsParser π τ} {k : String} {e : Sax.Event}

@[simp] theorem forward_arrayDepth : (p.forward k e).arrayDepth = p.arrayDepth := by
  unfold TransactionsParser.forward
  split <;> rfl

@[simp] theorem forward_objectDepth : (p.forward k e).objectDepth = p.objectDepth := by
  unfold TransactionsParser.forward
  split <;> rfl

@[simp] theorem forward_length : (p.forward k e).transactions.length = p.transactions.length := by
  unfold TransactionsParser.forward
  split
  · rfl
  · rename_i h
    have hne : p.transactions ≠ [] := by
      intro he
      simp [he] at h
    have := List.length_pos_of_ne_nil hne
    simp only [List.length_append, List.length_dropLast, List.length_singleton]
    omega

end Steps

theorem decr_incr {n : Nat} (h : n + 1 < 2 ^ 32) : incr n = n + 1 ∧ decr (n + 1) = n := by
  unfold incr decr
  omega

variable {p : LedgerApiParser π τ} {n : Nat}

/-- While the response is no failure every event reaches the parser of the bulk. -/
theorem handle_success (hs : 200 ≤ p.statusCode ∧ p.statusCode < 400) (e : Sax.Event) :
    ∃ lastKey, (p.handle e).statusCode = p.statusCode ∧
      (p.handle e).parser = p.parser.handle lastKey e := by
  have h2 : ¬ p.statusCode < 200 := Nat.not_lt_of_le hs.1
  have h4 : ¬ 400 ≤ p.statusCode := Nat.not_le_of_lt hs.2
  cases e with
  | key k => exact ⟨k, by
      simp [LedgerApiParser.handle, LedgerApiParser.delegate, LedgerApiParser.isFailure, h2, h4]⟩
  | null | bool | rawNumber | string | startObject | endObject | startArray | endArray =>
    exact ⟨p.lastKey, by
      simp [LedgerApiParser.handle, LedgerApiParser.delegate, LedgerApiParser.isFailure, h2, h4]⟩

/-- What the branches taken inside a transaction depend on. -/
theorem Inside.running {π τ : Type} {p : LedgerApiParser π τ} (hi : Inside n p.view) :
    0 < p.parser.depth ∧ p.parser.depth ≠ 0 ∧ 0 < p.parser.transactionsParser.arrayDepth := by
  have hd : 0 < p.parser.depth := hi.depth
  exact ⟨hd, by omega, hi.array⟩

/-- Inside a transaction the parsers only pass the event on. -/
theorem view_flat {e : Sax.Event} (hi : Inside n p.view) (hf : e.Flat) :
    (p.handle e).view = p.view := by
  obtain ⟨lastKey, hstatus, hparser⟩ := handle_success hi.success e
  obtain ⟨hd, hd0, ha⟩ := hi.running
  cases e with
  | null | bool | rawNumber | string | key =>
    simp [LedgerApiParser.view, hstatus, hparser, TransactionsBulkParser.handle,
      TransactionsBulkParser.proxyParse, TransactionsParser.handle, TransactionsParser.proxyParse,
      hd, hd0, ha]
  | startObject | endObject | startArray | endArray => exact hf.elim

theorem view_startObject (hi : Inside (n + 1) p.view) :
    (p.handle .startObject).view = { p.view with objectDepth := p.view.objectDepth + 1 } := by
  obtain ⟨lastKey, hstatus, hparser⟩ := handle_success hi.success .startObject
  obtain ⟨hd, hd0, ha⟩ := hi.running
  have hroom : p.parser.transactionsParser.objectDepth + (n + 1) < 2 ^ 32 := hi.objectRoom
  have hincr := (decr_incr (n := p.parser.transactionsParser.objectDepth) (by omega)).1
  have hnot : ¬ (p.parser.transactionsParser.arrayDepth = 1 ∧
      p.parser.transactionsParser.objectDepth = 0) := by
    rintro ⟨h1, h0⟩
    have := hi.object h1
    simp [LedgerApiParser.view] at this
    omega
  simp [LedgerApiParser.view, hstatus, hparser, TransactionsBulkParser.handle,
    TransactionsBulkParser.proxyParse, TransactionsParser.handle, TransactionsParser.proxyParse,
    hd, ha, hincr, hnot]

theorem view_endObject {k : Nat} (hi : Inside n p.view) : (p.handle (.endObject k)).view =
    { p.view with objectDepth := decr p.view.objectDepth } := by
  obtain ⟨lastKey, hstatus, hparser⟩ := handle_success hi.success (.endObject k)
  obtain ⟨hd, hd0, ha⟩ := hi.running
  simp [LedgerApiParser.view, hstatus, hparser, TransactionsBulkParser.handle,
    TransactionsBulkParser.proxyParse, TransactionsParser.handle, hd, ha]

theorem view_startArray (hi : Inside (n + 1) p.view) : (p.handle .startArray).view =
    { p.view with depth := p.view.depth + 1, arrayDepth := p.view.arrayDepth + 1 } := by
  obtain ⟨lastKey, hstatus, hparser⟩ := handle_success hi.success .startArray
  obtain ⟨hd, hd0, ha⟩ := hi.running
  have hroom : p.parser.transactionsParser.arrayDepth + (n + 1) < 2 ^ 32 := hi.arrayRoom
  have hincr := (decr_incr (n := p.parser.transactionsParser.arrayDepth) (by omega)).1
  have h1 : 1 ≤ p.parser.depth := hd
  have h0 : 0 < p.parser.depth + 1 := by omega
  simp [LedgerApiParser.view, hstatus, hparser, TransactionsBulkParser.handle,
    TransactionsBulkParser.proxyParse, TransactionsParser.handle, ha, hincr, h1, h0]

theorem view_endArray {k : Nat} (hi : Inside n p.view) (hd1 : 1 < p.view.depth)
    (ha1 : 1 < p.view.arrayDepth) : (p.handle (.endArray k)).view =
      { p.view with depth := p.view.depth - 1, arrayDepth := decr p.view.arrayDepth } := by
  obtain ⟨lastKey, hstatus, hparser⟩ := handle_success hi.success (.endArray k)
  obtain ⟨hd, hd0, ha⟩ := hi.running
  have h1 : 1 < p.parser.depth := hd1
  have hroom : p.parser.transactionsParser.arrayDepth + n < 2 ^ 32 := hi.arrayRoom
  have ha2 : 1 < p.parser.transactionsParser.arrayDepth := ha1
  have hpos : 0 < decr p.parser.transactionsParser.arrayDepth := by
    unfold decr
    omega
  simp [LedgerApiParser.view, hstatus, hparser, TransactionsBulkParser.handle,
    TransactionsBulkParser.proxyParse, TransactionsParser.handle, TransactionsParser.proxyParse,
    hd, h1, hpos]

/-- What is written inside a transaction changes neither how deep the parsers are nor how many
transactions they have read. -/
theorem passes_inside :
    Passes (LedgerApiParser.handle (π := π) (τ := τ)) LedgerApiParser.view Inside where
  flat n p e hi hf := view_flat hi hf
  object n p hi := by
    have hopen := view_startObject hi
    have hin : Inside n (p.handle .startObject).view := by
      rw [hopen]
      obtain ⟨hs, hd, ha, ho, har, hor⟩ := hi
      exact ⟨hs, hd, ha, fun _ => Nat.succ_pos _, by simp_all; omega, by simp_all; omega⟩
    refine ⟨hin, fun t k ht => ?_⟩
    have hroom := hi.objectRoom
    rw [view_endObject (ht ▸ hin), ht, hopen, (decr_incr (by omega)).2]
  array n p hi := by
    have hopen := view_startArray hi
    have hin : Inside n (p.handle .startArray).view := by
      rw [hopen]
      obtain ⟨hs, hd, ha, ho, har, hor⟩ := hi
      exact ⟨hs, by simp_all; omega, Nat.succ_pos _, fun h => by simp_all, by simp_all; omega,
        by simp_all; omega⟩
    refine ⟨hin, fun t k ht => ?_⟩
    have hroom := hi.arrayRoom
    have hd := hi.depth
    have ha := hi.array
    rw [view_endArray (ht ▸ hin) (by rw [ht, hopen]; simp; omega) (by rw [ht, hopen]; simp; omega),
      ht, hopen]
    simp [(decr_incr (n := p.view.arrayDepth) (by omega)).2]

/-- The text read is the list of transactions, between two of them. -/
structure Between (w : View) : Prop where
  success : 200 ≤ w.statusCode ∧ w.statusCode < 400
  depth : w.depth = 1
  array : w.arrayDepth = 1
  object : w.objectDepth = 0

theorem view_firstBracket (hb : Between p.view) : (p.handle .startObject).view =
    { p.view with objectDepth := 1, count := p.view.count + 1 } := by
  obtain ⟨lastKey, hstatus, hparser⟩ := handle_success hb.success .startObject
  have hd : p.parser.depth = 1 := hb.depth
  have ha : p.parser.transactionsParser.arrayDepth = 1 := hb.array
  have ho : p.parser.transactionsParser.objectDepth = 0 := hb.object
  have hincr : incr 0 = 1 := rfl
  simp [LedgerApiParser.view, hstatus, hparser, TransactionsBulkParser.handle,
    TransactionsBulkParser.proxyParse, TransactionsParser.handle, TransactionsParser.proxyParse,
    hd, ha, ho, hincr]

/-- A transaction is read from its first bracket to its last. -/
theorem view_transaction {ms : List (String × Value)} (hd : memberDepth ms ≤ 2)
    (hb : Between p.view) : (feed LedgerApiParser.handle p (Value.object ms).events).view =
      { p.view with count := p.view.count + 1 } := by
  have hopen := view_firstBracket hb
  have hin : Inside 2 (p.handle .startObject).view := by
    rw [hopen]
    obtain ⟨hs, hdepth, ha, -⟩ := hb
    exact ⟨hs, by simp [hdepth], by simp [ha], fun _ => Nat.one_pos, by simp [ha], by simp⟩
  have hmembers := passes_inside.members ms _ 2 hd hin
  simp only [Value.events, feed_cons, feed_append, feed_nil]
  rw [view_endObject (hmembers ▸ hin), hmembers, hopen]
  have hclose : decr 1 = p.view.objectDepth := by
    rw [hb.object]
    exact (decr_incr (n := 0) (by omega)).2
  simp only [hclose]

theorem view_transactions {txs : List (List (String × Value))}
    (hd : ∀ ms ∈ txs, memberDepth ms ≤ 2) (hb : Between p.view) :
    (feed LedgerApiParser.handle p (itemEvents (txs.map .object))).view =
      { p.view with count := p.view.count + txs.length } := by
  induction txs generalizing p with
  | nil => rfl
  | cons ms txs ih =>
    have hfirst := view_transaction (hd ms List.mem_cons_self) hb
    have hnext : Between (feed LedgerApiParser.handle p (Value.object ms).events).view := by
      rw [hfirst]
      exact ⟨hb.success, hb.depth, hb.array, hb.object⟩
    rw [List.map_cons, itemEvents, feed_append,
      ih (fun ms h => hd ms (List.mem_cons_of_mem _ h)) hnext, hfirst, List.length_cons]
    simp only [View.mk.injEq, true_and, and_true]
    omega

/-- The flag is written as a text, and the key of a text is not looked at. -/
theorem view_opened (statusText text : String) :
    (feed LedgerApiParser.handle (LedgerApiParser.attach (π := π) (τ := τ) 200 statusText)
      [.startObject, .key "truncated", .string text, .key "txs", .startArray]).view =
      ⟨200, 1, 1, 0, 0, false⟩ := by
  have hincr : incr 0 = 1 := rfl
  simp [LedgerApiParser.handle, LedgerApiParser.delegate, TransactionsBulkParser.handle,
    TransactionsBulkParser.proxyParse, TransactionsParser.handle, LedgerApiParser.isFailure,
    LedgerApiParser.view, LedgerApiParser.attach, hincr]

/-- What is left of the page after its transactions changes nothing that was read. -/
theorem build_closed {m k : Nat} (hb : Between p.view) :
    (feed LedgerApiParser.handle p [.endArray m, .endObject k]).build =
      .ok ⟨p.parser.transactionsParser.transactions, p.parser.hasNext⟩ := by
  obtain ⟨⟨h2, h4⟩, hd, -, -⟩ := hb
  have h2' : ¬ p.statusCode < 200 := Nat.not_lt_of_le h2
  have h4' : ¬ 400 ≤ p.statusCode := Nat.not_le_of_lt h4
  have hd' : p.parser.depth = 1 := hd
  simp [LedgerApiParser.handle, LedgerApiParser.delegate, TransactionsBulkParser.handle,
    TransactionsBulkParser.proxyParse, LedgerApiParser.isFailure, LedgerApiParser.build,
    h2', h4', hd']

variable {trx : List ChainTransaction} {truncated : Bool} {json : List (String × Value)}

/-- The core reads every transaction of the page, and never that there is a next page. -/
theorem readBulk_transactionsJson (h : transactionsJson trx truncated = .ok json)
    (statusText : String) : ∃ bulk : TransactionsBulk τ,
      readBulk (π := π) 200 statusText (.object json) = .ok bulk ∧
        bulk.transactions.length = trx.length ∧ bulk.hasNext = false := by
  obtain ⟨txs, htxs, rfl⟩ := transactionsJson_ok h
  generalize hp : feed LedgerApiParser.handle
    (LedgerApiParser.attach (π := π) (τ := τ) 200 statusText)
    [.startObject, .key "truncated", .string (lowerText truncated), .key "txs", .startArray] = p
  have hopened : p.view = ⟨200, 1, 1, 0, 0, false⟩ := hp ▸ view_opened statusText _
  have hbetween : Between p.view := by
    rw [hopened]
    exact ⟨by simp, rfl, rfl, rfl⟩
  have hread := view_transactions (memberDepth_transactions htxs) hbetween
  generalize hq : feed LedgerApiParser.handle p (itemEvents (txs.map .object)) = q at hread
  have hend : Between q.view := by
    rw [hread]
    exact ⟨hbetween.success, hbetween.depth, hbetween.array, hbetween.object⟩
  refine ⟨⟨q.parser.transactionsParser.transactions, q.parser.hasNext⟩, ?_, ?_, ?_⟩
  · have hevents : (Value.object [("truncated", .string (lowerText truncated)),
        ("txs", .array (txs.map .object))]).events =
        [.startObject, .key "truncated", .string (lowerText truncated), .key "txs", .startArray] ++
          (itemEvents (txs.map .object) ++
            [.endArray (txs.map Value.object).length, .endObject 2]) := by
      simp [Value.events, memberEvents]
    rw [readBulk, hevents, feed_append, hp, feed_append, hq, build_closed hend]
  · have hcount : q.view.count = 0 + txs.length := by rw [hread, hopened]
    rw [htxs.length_eq, ← Nat.zero_add txs.length, ← hcount]
    rfl
  · change q.view.hasNext = false
    rw [hread, hopened]

/-- So the page that was read is the page that was sent exactly when there is no next page. -/
theorem readBulk_agrees_iff (h : transactionsJson trx truncated = .ok json)
    (statusText : String) :
    (∃ bulk : TransactionsBulk τ, readBulk (π := π) 200 statusText (.object json) = .ok bulk ∧
        bulk.hasNext = truncated ∧ bulk.transactions.length = trx.length) ↔ truncated = false := by
  obtain ⟨bulk, hok, hlen, hnext⟩ := readBulk_transactionsJson (π := π) (τ := τ) h statusText
  constructor
  · rintro ⟨bulk', hok', hnext', -⟩
    rw [hok, Except.ok.injEq] at hok'
    rw [← hnext', ← hok', hnext]
  · intro ht
    exact ⟨bulk, hok, by rw [ht, hnext], hlen⟩

/-- A parser that counts what it is told of a transaction. -/
instance : TransactionParser Unit Nat where
  init := ()
  blank := 0
  handle _ _ | (u, n) => (u, n + 1)

/-- A payment in the first block after the genesis block. -/
def payment : ChainTransaction :=
  (Transaction.new "t1" [{ transactionOutput := ⟨"root", 5, some 0, some "t0"⟩ }]
    [⟨"ours", 5, some 0, some "t1"⟩]).addToBlock (.new 1 "b1")

theorem dated_payment : ∀ tr ∈ [payment], Dated tr := by
  intro tr htr
  rw [List.mem_singleton.mp htr]
  exact ⟨⟨100, rfl, by decide⟩, .new 1 "b1", rfl, by decide⟩

theorem readBulk_agrees_last : ∃ json, transactionsJson [payment] false = .ok json ∧
    ∃ bulk : TransactionsBulk Nat, readBulk (π := Unit) 200 "OK" (.object json) = .ok bulk ∧
      bulk.hasNext = false ∧ bulk.transactions.length = [payment].length := by
  obtain ⟨json, h⟩ := (@transactionsJson_ok_iff [payment] false).mpr dated_payment
  exact ⟨json, h, (readBulk_agrees_iff h "OK").mpr rfl⟩

/-- A page that has a next one is read as the last. -/
theorem readBulk_misses_next : ∃ json, transactionsJson [payment] true = .ok json ∧
    ¬ ∃ bulk : TransactionsBulk Nat, readBulk (π := Unit) 200 "OK" (.object json) = .ok bulk ∧
      bulk.hasNext = true ∧ bulk.transactions.length = [payment].length := by
  obtain ⟨json, h⟩ := (@transactionsJson_ok_iff [payment] true).mpr dated_payment
  refine ⟨json, h, ?_⟩
  rintro ⟨bulk, hok, hnext, -⟩
  obtain ⟨bulk', hok', -, hnext'⟩ := readBulk_transactionsJson (π := Unit) (τ := Nat) h "OK"
  rw [hok, Except.ok.injEq] at hok'
  rw [hok', hnext'] at hnext
  cases hnext

end LibCoreCmd.Explorers

import Mathlib.Algebra.Ring.Nat
import LibCoreCmd.Program
import LibCoreCmd.Sax
import LibCoreCmd.Tools.Explorer

/-! The JSON objects that `tools/server.py` answers with. -/
namespace LibCoreCmd.Tools
open Sax

/-- The last second of the year 9999. -/
def maxTimestamp : Nat := 253402300799

/-- The date of a day counted from the first of January 1970: years begin in March here, so
that the leap day comes last, and repeat after 400 of them. -/
def civil (days : Nat) : Nat × Nat × Nat :=
  let z := days + 719468
  let doe := z % 146097
  let yoe := (doe - doe / 1460 + doe / 36524 - doe / 146096) / 365
  let doy := doe - (365 * yoe + yoe / 4 - yoe / 100)
  let mp := (5 * doy + 2) / 153
  let month := if mp < 10 then mp + 3 else mp - 9
  let year := yoe + z / 146097 * 400
  (if month ≤ 2 then year + 1 else year, month, doy - (153 * mp + 2) / 5 + 1)

/-- `datetime.utcfromtimestamp`, which stops at the year 9999, as year, month, day and second of
the day. The year in its message is an `int`; far beyond that the calls it makes fail first. -/
def utcfromtimestamp (t : Nat) : Except PyException (Nat × Nat × Nat × Nat) :=
  if t ≤ maxTimestamp then
    let (year, month, day) := civil (t / 86400)
    .ok (year, month, day, t % 86400)
  else if t ≤ 67768036191676799 then
    let year : Int := (civil (t / 86400)).1
    .error (.valueError ("year " ++ toString (year.bmod (2 ^ 32)) ++ " is out of range"))
  else if t < 2 ^ 63 then .error .osError
  else .error .overflowError

def padded (width n : Nat) : String :=
  let digits := (toString n).toList
  String.ofList (List.replicate (width - digits.length) '0' ++ digits)

/-- With the format `%Y-%m-%dT%H:%M:%SZ`. -/
def strftime : Nat × Nat × Nat × Nat → String
  | (year, month, day, second) =>
    padded 4 year ++ "-" ++ padded 2 month ++ "-" ++ padded 2 day ++ "T" ++
      padded 2 (second / 3600) ++ ":" ++ padded 2 (second / 60 % 60) ++ ":" ++
      padded 2 (second % 60) ++ "Z"

example : (utcfromtimestamp 1546300799).toOption.map strftime = some "2018-12-31T23:59:59Z" := by
  decide +kernel

def optional {α : Type} (f : α → Value) : Option α → Value
  | none => .null
  | some a => f a

def blockHeaderToJsonObject (blockHeader : BlockHeader) :
    Except PyException (List (String × Value)) := do
  let time ← utcfromtimestamp blockHeader.unixTimeInSec
  return [("hash", .string blockHeader.hash),
    ("height", .number blockHeader.height),
    ("time", .string (strftime time))]

def blockToJsonObject (block : ChainBlock) : Except PyException (List (String × Value)) := do
  let ans ← blockHeaderToJsonObject block.header
  return ans ++ [("txs", .array (block.transactions.map fun tr => .string tr.txHash))]

def transactionInputToJsonObject (transactionInput : TransactionInput TransactionOutput) : Value :=
  .object [("input_index", optional (fun i : Nat => .number i) transactionInput.index),
    ("output_hash", optional .string transactionInput.transactionOutput.transactionHash),
    ("output_index", optional (fun i : Nat => .number i) transactionInput.transactionOutput.index),
    ("value", .number transactionInput.transactionOutput.value),
    ("address", .string transactionInput.transactionOutput.address),
    ("script_signature", .string "160014676ad7a7a8c5e3be9c32c1245587a54231e24628")]

def transactionOutputToJsonObject (transactionOutput : TransactionOutput) : Value :=
  .object [("output_index", optional (fun i : Nat => .number i) transactionOutput.index),
    ("value", .number transactionOutput.value),
    ("address", .string transactionOutput.address),
    ("script_hex", .string "a9148ca605c9bfa085471d3a03333026ac28878a731287")]

def transactionToJsonObject (transaction : ChainTransaction) :
    Except PyException (List (String × Value)) := do
  let unixTimeInSec ← match transaction.unixTimeInSec with
    | some t => pure t
    | none => throw .typeError
  let receivedAt ← utcfromtimestamp unixTimeInSec
  let block ← match transaction.blockHeader with
    | some blockHeader => blockHeaderToJsonObject blockHeader
    | none => throw .attributeError
  return [("hash", .string transaction.txHash),
    ("received_at", .string (strftime receivedAt)),
    ("lock_time", .number 525285),
    ("block", .object block),
    ("inputs", .array (transaction.inputs.map transactionInputToJsonObject)),
    ("outputs", .array (transaction.outputs.map transactionOutputToJsonObject)),
    ("fees", .number transaction.getFee),
    ("amount", .number transaction.getAmount),
    ("confirmations", .number 45580)]

/-- `str(truncated).lower()`. -/
def lowerText (b : Bool) : String := if b then "true" else "false"

def transactionsJson (trx : List ChainTransaction) (truncated : Bool) :
    Except PyException (List (String × Value)) := do
  let txs ← trx.mapM fun t => transactionToJsonObject t
  return [("truncated", .string (lowerText truncated)), ("txs", .array (txs.map .object))]

variable {header : BlockHeader} {tr : ChainTransaction} {trx : List ChainTransaction}
  {truncated : Bool} {json : List (String × Value)}

theorem utcfromtimestamp_ok_iff {t : Nat} :
    (∃ d, utcfromtimestamp t = .ok d) ↔ t ≤ maxTimestamp := by
  unfold utcfromtimestamp
  split
  · simp [*]
  split
  · simp [*]
  split <;> simp [*]

/-- The dates of a transaction can be written. -/
def Dated (tr : ChainTransaction) : Prop :=
  (∃ t, tr.unixTimeInSec = some t ∧ t ≤ maxTimestamp) ∧
    ∃ header, tr.blockHeader = some header ∧ header.unixTimeInSec ≤ maxTimestamp

theorem blockHeaderToJsonObject_ok (h : blockHeaderToJsonObject header = .ok json) :
    header.unixTimeInSec ≤ maxTimestamp ∧ ∃ time, json = [("hash", .string header.hash),
      ("height", .number header.height), ("time", .string time)] := by
  obtain ⟨time, htime, hjson⟩ := Program.except_bind_eq_ok.mp h
  cases hjson
  exact ⟨utcfromtimestamp_ok_iff.mp ⟨time, htime⟩, strftime time, rfl⟩

theorem blockHeaderToJsonObject_ok_iff :
    (∃ json, blockHeaderToJsonObject header = .ok json) ↔
      header.unixTimeInSec ≤ maxTimestamp := by
  constructor
  · rintro ⟨json, h⟩
    exact (blockHeaderToJsonObject_ok h).1
  · intro h
    obtain ⟨time, htime⟩ := utcfromtimestamp_ok_iff.mpr h
    exact ⟨_, Program.except_bind_eq_ok.mpr ⟨time, htime, rfl⟩⟩

/-- A transaction is written with its own dates and block. -/
theorem transactionToJsonObject_ok (h : transactionToJsonObject tr = .ok json) :
    Dated tr ∧ ∃ receivedAt header block, tr.blockHeader = some header ∧
      blockHeaderToJsonObject header = .ok block ∧
      json = [("hash", .string tr.txHash), ("received_at", .string receivedAt),
        ("lock_time", .number 525285), ("block", .object block),
        ("inputs", .array (tr.inputs.map transactionInputToJsonObject)),
        ("outputs", .array (tr.outputs.map transactionOutputToJsonObject)),
        ("fees", .number tr.getFee), ("amount", .number tr.getAmount),
        ("confirmations", .number 45580)] := by
  rw [transactionToJsonObject] at h
  split at h
  · next t ht =>
    simp only [pure_bind, Program.except_bind_eq_ok] at h
    obtain ⟨receivedAt, hreceived, h⟩ := h
    split at h
    · next header hheader =>
      obtain ⟨block, hblock, h⟩ := Program.except_bind_eq_ok.mp h
      cases h
      exact ⟨⟨⟨t, ht, utcfromtimestamp_ok_iff.mp ⟨receivedAt, hreceived⟩⟩, header, hheader,
        (blockHeaderToJsonObject_ok hblock).1⟩, strftime receivedAt, header, block, hheader,
        hblock, rfl⟩
    · cases h
  · cases h

theorem transactionToJsonObject_ok_iff :
    (∃ json, transactionToJsonObject tr = .ok json) ↔ Dated tr := by
  constructor
  · rintro ⟨json, h⟩
    exact (transactionToJsonObject_ok h).1
  · rintro ⟨⟨t, ht, hlt⟩, header, hh, hlh⟩
    obtain ⟨d, hd⟩ := utcfromtimestamp_ok_iff.mpr hlt
    obtain ⟨block, hb⟩ := blockHeaderToJsonObject_ok_iff.mpr hlh
    rw [transactionToJsonObject, ht, hh]
    simp only [pure_bind, hd, hb]
    exact ⟨_, rfl⟩

theorem transactionsJson_ok (h : transactionsJson trx truncated = .ok json) :
    ∃ txs, List.Forall₂ (fun tr tx => transactionToJsonObject tr = .ok tx) trx txs ∧
      json = [("truncated", .string (lowerText truncated)), ("txs", .array (txs.map .object))] := by
  obtain ⟨txs, htxs, hjson⟩ := Program.except_bind_eq_ok.mp h
  cases hjson
  exact ⟨txs, Program.mapM_ok htxs, rfl⟩

theorem transactionsJson_ok_iff :
    (∃ json, transactionsJson trx truncated = .ok json) ↔ ∀ tr ∈ trx, Dated tr := by
  have hall : (∃ txs, trx.mapM (fun t => transactionToJsonObject t) = .ok txs) ↔
      ∀ tr ∈ trx, Dated tr := by
    simp only [Program.mapM_ok_iff, transactionToJsonObject_ok_iff]
  rw [← hall, transactionsJson]
  cases trx.mapM fun t => transactionToJsonObject t with
  | error e => exact ⟨nofun, nofun⟩
  | ok txs => exact ⟨fun _ => ⟨txs, rfl⟩, fun _ => ⟨_, rfl⟩⟩

theorem itemDepth_le {α : Type} {f : α → Value} {n : Nat} (h : ∀ a, (f a).depth ≤ n)
    (as : List α) : itemDepth (as.map f) ≤ n := by
  induction as with
  | nil => exact Nat.zero_le n
  | cons a as ih => exact Nat.max_le.mpr ⟨h a, ih⟩

@[simp] theorem depth_optional_number (i : Option Nat) :
    (optional (fun i : Nat => Value.number i) i).depth = 0 := by
  cases i <;> rfl

@[simp] theorem depth_optional_string (t : Option String) :
    (optional Value.string t).depth = 0 := by
  cases t <;> rfl

/-- In the object of a transaction brackets nest two deep. -/
theorem memberDepth_transaction (h : transactionToJsonObject tr = .ok json) :
    memberDepth json ≤ 2 := by
  obtain ⟨-, _, _, block, -, hb, rfl⟩ := transactionToJsonObject_ok h
  obtain ⟨-, _, rfl⟩ := blockHeaderToJsonObject_ok hb
  have hin : itemDepth (tr.inputs.map transactionInputToJsonObject) ≤ 1 := by
    refine itemDepth_le (fun inp => ?_) _
    simp [transactionInputToJsonObject, Value.depth, memberDepth]
  have hout : itemDepth (tr.outputs.map transactionOutputToJsonObject) ≤ 1 := by
    refine itemDepth_le (fun out => ?_) _
    simp [transactionOutputToJsonObject, Value.depth, memberDepth]
  simp [Value.depth, memberDepth]
  omega

theorem memberDepth_transactions {txs : List (List (String × Value))}
    (h : List.Forall₂ (fun tr tx => transactionToJsonObject tr = .ok tx) trx txs) :
    ∀ tx ∈ txs, memberDepth tx ≤ 2 := by
  induction h with
  | nil => simp
  | cons h _ ih => exact List.forall_mem_cons.mpr ⟨memberDepth_transaction h, ih⟩

end LibCoreCmd.Tools

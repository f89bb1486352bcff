import LibCoreCmd.Paging
import LibCoreCmd.Tools.Datas
import Mathlib.Data.Finset.Basic
import Mathlib.Logic.Function.Basic

/-! The explorer of `tools/server.py`: the index of the blocks by hash, and the scan that
answers a request for the transactions of some addresses. -/
namespace LibCoreCmd.Tools

inductive PyException where
  | indexError
  | valueError (text : String)
  | typeError
  | attributeError
  | overflowError
  | osError
deriving DecidableEq, Repr

abbrev ChainBlock := Block TransactionOutput
abbrev ChainTransaction := Transaction TransactionOutput

variable {blocks : List ChainBlock} {b : ChainBlock} {h : Hash} {n i : Nat}
  {index : Hash → Option Nat} {addresses : Finset Address} {limit : Nat}
  {tr : ChainTransaction} {res : List ChainTransaction}

/-- One round of the constructor's loop. -/
def addToIndex (index : Hash → Option Nat) (b : ChainBlock × Nat) : Hash → Option Nat :=
  Function.update index b.1.header.hash (some b.2)

def hashes (blocks : List ChainBlock) : List Hash := blocks.map (·.header.hash)

/-- An explorer, whose index leads from a hash to a block with this hash. -/
structure Explorer where
  blocks : List ChainBlock
  index : Hash → Option Nat
  indexed : ∀ h i, index h = some i → (hashes blocks)[i]? = some h

theorem foldl_addToIndex_of_notMem (hn : h ∉ hashes blocks) :
    (blocks.zipIdx n).foldl addToIndex index h = index h := by
  induction blocks generalizing n index with
  | nil => rfl
  | cons b bs ih =>
    simp only [hashes, List.map_cons, List.mem_cons, not_or] at hn
    rw [List.zipIdx_cons, List.foldl_cons, ih hn.2]
    exact Function.update_of_ne hn.1 _ _

theorem foldl_addToIndex_cases (hi : (blocks.zipIdx n).foldl addToIndex index h = some i) :
    index h = some i ∨ ∃ k, (hashes blocks)[k]? = some h ∧ i = n + k := by
  induction blocks generalizing n index with
  | nil => exact Or.inl hi
  | cons b bs ih =>
    rw [List.zipIdx_cons, List.foldl_cons] at hi
    rcases ih hi with hb | ⟨k, hk, rfl⟩
    · by_cases he : h = b.header.hash
      · subst he
        simp only [addToIndex, Function.update_self, Option.some.injEq] at hb
        exact Or.inr ⟨0, by simp [hashes], hb.symm⟩
      · simp only [addToIndex, Function.update_of_ne he] at hb
        exact Or.inl hb
    · exact Or.inr ⟨k + 1, by simpa [hashes] using hk, by omega⟩

def Explorer.new (blockchain : Blockchain TransactionOutput) : Explorer where
  blocks := blockchain.blocks
  index := blockchain.blocks.zipIdx.foldl addToIndex fun _ => none
  indexed := by
    intro h i hi
    rcases foldl_addToIndex_cases hi with hi | ⟨k, hk, rfl⟩
    · cases hi
    · simpa using hk

/-- The objects whose set line 72 compares with the addresses: the inputs of a transaction
as objects, and the addresses of its outputs. -/
def touched (tr : ChainTransaction) : List (TransactionInput TransactionOutput ⊕ Address) :=
  tr.inputs.map .inl ++ tr.outputs.map fun out => .inr out.address

/-- No object is one of the addresses, which are strings. -/
def isdisjoint (addresses : Finset Address)
    (objects : List (TransactionInput TransactionOutput ⊕ Address)) : Bool :=
  objects.all fun
    | .inl _ => true
    | .inr a => decide (a ∉ addresses)

/-- The test on line 72. -/
def touches (addresses : Finset Address) (tr : ChainTransaction) : Bool :=
  !isdisjoint addresses (touched tr)

/-- The loop over the transactions of a block. The error is the early return. -/
def scanTransactions (addresses : Finset Address) (truncate : Bool) (res : List ChainTransaction) :
    List ChainTransaction → Except (List ChainTransaction × Bool) (List ChainTransaction)
  | [] => .ok res
  | tr :: trs =>
    if touches addresses tr then
      if truncate then .error (res, true)
      else scanTransactions addresses truncate (res ++ [tr]) trs
    else scanTransactions addresses truncate res trs

/-- The loop over the blocks. -/
def scanBlocks (addresses : Finset Address) (limit : Nat) (res : List ChainTransaction)
    (truncate : Bool) : List ChainBlock → List ChainTransaction × Bool
  | [] => (res, false)
  | block :: blocks =>
    match scanTransactions addresses truncate res block.transactions with
    | .error page => page
    | .ok res =>
      -- no more than a flag: whether the page is truncated shows at the next match
      let truncate := if limit ≤ res.length then true else truncate
      scanBlocks addresses limit res truncate blocks

def Explorer.getTransactions (e : Explorer) (addresses : Finset Address)
    (blockHash : Option Hash) (limit : Nat := 200) :
    Except PyException (List ChainTransaction × Bool) := do
  let blockHash ← match blockHash, e.blocks with
    | some h, _ => pure h
    | none, b :: _ => pure b.header.hash
    | none, [] => throw .indexError
  match e.index blockHash with
  | none => pure ([], false)
  | some i => pure (scanBlocks addresses limit [] false (e.blocks.drop i))

/-- With distinct hashes the index finds every block. -/
theorem Explorer.index_new {bc : Blockchain TransactionOutput} {before after : List ChainBlock}
    (hd : (hashes bc.blocks).Nodup) (hb : bc.blocks = before ++ b :: after) :
    (Explorer.new bc).index b.header.hash = some before.length := by
  simp only [hb, hashes, List.map_append, List.map_cons] at hd
  have hnot : b.header.hash ∉ hashes after :=
    (List.nodup_cons.mp (List.nodup_append.mp hd).2.1).1
  change bc.blocks.zipIdx.foldl addToIndex _ _ = _
  rw [hb, List.zipIdx_append, List.zipIdx_cons, List.foldl_append, List.foldl_cons,
    foldl_addToIndex_of_notMem hnot, addToIndex, Function.update_self]
  simp

/-- An input is never one of the addresses, so only the outputs of a transaction count. -/
theorem touches_iff : touches addresses tr ↔ ∃ out ∈ tr.outputs, out.address ∈ addresses := by
  simp [touches, isdisjoint, touched]

/-- The transactions of a block that pass the test. -/
def matching (addresses : Finset Address) (b : ChainBlock) : List ChainTransaction :=
  b.transactions.filter (touches addresses)

theorem scanTransactions_continue (trs : List ChainTransaction) :
    scanTransactions addresses false res trs = .ok (res ++ trs.filter (touches addresses)) := by
  induction trs generalizing res with
  | nil => simp [scanTransactions]
  | cons tr trs ih =>
    by_cases ht : touches addresses tr
    · simp [scanTransactions, ht, ih]
    · simp [scanTransactions, ht, ih]

theorem scanTransactions_truncate (trs : List ChainTransaction) :
    scanTransactions addresses true res trs =
      if trs.filter (touches addresses) = [] then .ok res else .error (res, true) := by
  induction trs with
  | nil => simp [scanTransactions]
  | cons tr trs ih =>
    by_cases ht : touches addresses tr
    · simp [scanTransactions, ht]
    · simp [scanTransactions, ht, ih]

/-- Once the page is full the scan only looks for one more match. -/
theorem scanBlocks_truncate : scanBlocks addresses limit res true blocks =
    (res, !(blocks.map (matching addresses)).flatten.isEmpty) := by
  induction blocks with
  | nil => rfl
  | cons b bs ih =>
    rw [scanBlocks, scanTransactions_truncate]
    by_cases hm : b.transactions.filter (touches addresses) = []
    · simp [hm, ih, matching]
    · simp only [hm, if_false, List.map_cons, List.flatten_cons, matching]
      cases hf : b.transactions.filter (touches addresses) with
      | nil => exact (hm hf).elim
      | cons => rfl

theorem scanBlocks_continue : scanBlocks addresses limit res false (b :: blocks) =
    scanBlocks addresses limit (res ++ matching addresses b)
      (decide (limit - res.length ≤ (matching addresses b).length)) blocks := by
  have hlen : limit ≤ (res ++ matching addresses b).length ↔
      limit - res.length ≤ (matching addresses b).length := by
    rw [List.length_append]
    omega
  rw [scanBlocks, scanTransactions_continue]
  change scanBlocks addresses limit (res ++ matching addresses b)
    (if limit ≤ (res ++ matching addresses b).length then true else false) blocks = _
  by_cases hfull : limit - res.length ≤ (matching addresses b).length
  · rw [if_pos (hlen.mpr hfull), decide_eq_true hfull]
  · rw [if_neg (mt hlen.mp hfull), decide_eq_false hfull]

/-- The scan reads one page of the matching transactions. -/
theorem scanBlocks_eq : scanBlocks addresses limit res false blocks =
    (res ++ (Paging.page (limit - res.length) (blocks.map (matching addresses))).1,
      (Paging.page (limit - res.length) (blocks.map (matching addresses))).2) := by
  induction blocks generalizing res with
  | nil => simp [scanBlocks, Paging.page]
  | cons b bs ih =>
    rw [scanBlocks_continue, List.map_cons]
    by_cases hfull : limit - res.length ≤ (matching addresses b).length
    · rw [decide_eq_true hfull, scanBlocks_truncate]
      simp [Paging.page, Paging.cut, hfull]
    · rw [decide_eq_false hfull, ih, List.length_append, Nat.sub_add_eq]
      simp [Paging.page, Paging.cut, hfull]

/-- A request from a hash of the index is answered by a page of the blocks from there on. -/
theorem Explorer.getTransactions_index {e : Explorer} (hi : e.index h = some i) :
    e.getTransactions addresses (some h) limit =
      .ok (Paging.page limit ((e.blocks.drop i).map (matching addresses))) := by
  simp only [Explorer.getTransactions, pure_bind, hi]
  change Except.ok (scanBlocks addresses limit [] false (e.blocks.drop i)) = _
  rw [scanBlocks_eq]
  rfl

/-- A request from a block's hash is answered by a page of the blocks from it on. -/
theorem Explorer.getTransactions_new {bc : Blockchain TransactionOutput}
    {before after : List ChainBlock} (hd : (hashes bc.blocks).Nodup)
    (hb : bc.blocks = before ++ b :: after) :
    (Explorer.new bc).getTransactions addresses (some b.header.hash) limit =
      .ok (Paging.page limit ((b :: after).map (matching addresses))) := by
  rw [Explorer.getTransactions_index (Explorer.index_new hd hb)]
  change Except.ok (Paging.page limit ((bc.blocks.drop before.length).map _)) = _
  rw [hb, List.drop_left]

end LibCoreCmd.Tools

import LibCoreCmd.Async.Deffered
import LibCoreCmd.Explorers.LedgerApiParser
import LibCoreCmd.Tools.Explorer
import LibCoreCmd.Synchronizer.SavedState
import Mathlib.Data.List.MinMax

/-! How the core's synchronizer reads an account, batch of addresses by batch of addresses, and
goes back when the chain was reorganized. The table of blocks, the account and the explorer are
not part of the repository: what is used of them is in `Env`. -/
namespace LibCoreCmd.Synchronizer
open Async Explorers
open Tools (Hash Address)

/-- What the synchronizer looks at in a transaction. -/
class ExplorerTransaction (τ : Type) where
  hash : τ → Hash
  block : τ → Option Block

export ExplorerTransaction (hash block)

instance : ExplorerTransaction Tools.ChainTransaction where
  hash tx := tx.txHash
  block tx := tx.blockHeader.map fun header => ⟨header.hash, header.height⟩

/-- The rows of the table of blocks, those in the account's currency, by which the synchronizer
looks for blocks, and those in others; and the column `uid` of `operations`. -/
structure Database where
  blocks : List Block := []
  others : List Block := []
  operations : List String := []
deriving DecidableEq, Repr

/-- `DELETE FROM blocks where height >= :failedBlockHeight`, in whatever currency. -/
def Database.deleteBlocks (d : Database) (failedBlockHeight : Nat) : Database :=
  { d with
    blocks := d.blocks.filter (·.height < failedBlockHeight)
    others := d.others.filter (·.height < failedBlockHeight) }

/-- No row of the table of blocks is missing afterwards. -/
def Database.Grows (d d' : Database) : Prop := d.blocks ⊆ d'.blocks ∧ d.others ⊆ d'.others

theorem Database.Grows.refl (d : Database) : d.Grows d := ⟨fun _ h => h, fun _ h => h⟩

theorem Database.Grows.trans {d₁ d₂ d₃ : Database} (h : d₁.Grows d₂) (h' : d₂.Grows d₃) :
    d₁.Grows d₃ :=
  ⟨fun _ hx => h'.1 (h.1 hx), fun _ hx => h'.2 (h.2 hx)⟩

/-- A request to the explorer, and how it was answered. -/
structure Request (τ : Type) where
  currentBatchIndex : Nat
  addresses : List Address
  blockHash : Option Hash
  answer : Try (TransactionsBulk τ)
deriving DecidableEq

/-- What a synchronization is given. The explorer may answer each request as it likes. -/
structure Env (τ : Type) where
  isETHWallet : Bool := false
  halfBatchSize : Nat
  keychainObservableRange : Option Int := none
  getAllObservableAddresses : Nat → Nat → List Address
  getTransactions : Nat → List Address → Option Hash → Try (TransactionsBulk τ)
  putTransaction : Database → τ → Try Database
  getLastBlock : List Block → Option Block
  getLastBlock_highest : ∀ blocks,
    (getLastBlock blocks).elim (blocks = []) fun last =>
      last ∈ blocks ∧ ∀ b ∈ blocks, b.height ≤ last.height

/-- `SynchronizationBuddy`, with what has been stored of it and what has been asked. -/
structure Buddy (τ : Type) where
  savedState : SavedState
  transactionsToDrop : AList fun _ : Hash => String := ∅
  stored : Option SavedState := none
  database : Database := {}
  requests : List (Request τ) := []
deriving DecidableEq

/-- `std::map::insert`, which keeps an entry that is there. -/
def emplace (m : AList fun _ : Hash => String) (h : Hash) (uid : String) :
    AList fun _ : Hash => String :=
  if h ∈ m then m else m.insert h uid

section Buddy
variable {τ : Type}

def Buddy.batches (b : Buddy τ) : List BatchSavedState := b.savedState.batches

/-- `savedState.batches[i]`. -/
def Buddy.batch (b : Buddy τ) (i : Nat) : BatchSavedState := b.batches.getD i .fresh

def Buddy.setBatches (b : Buddy τ) (batches : List BatchSavedState) : Buddy τ :=
  { b with savedState := { b.savedState with batches } }

def Buddy.setDatabase (b : Buddy τ) (database : Database) : Buddy τ := { b with database }

def Buddy.ask (b : Buddy τ) (request : Request τ) : Buddy τ :=
  { b with requests := b.requests ++ [request] }

/-- `putObject`, and `commit`. -/
def Buddy.store (b : Buddy τ) : Buddy τ := { b with stored := some b.savedState }

/-- A transaction to be dropped is not once it was received; it is pending if in no block. -/
def Buddy.keep [ExplorerTransaction τ] (b : Buddy τ) (tx : τ) : Buddy τ :=
  let pending := b.savedState.pendingTxsHash
  let pending :=
    match b.transactionsToDrop.lookup (hash tx) with
    | some uid => if (block tx).isSome then pending.erase (hash tx)
        else emplace pending (hash tx) uid
    | none => pending
  { b with
    savedState := { b.savedState with pendingTxsHash := pending }
    transactionsToDrop := b.transactionsToDrop.erase (hash tx) }

/-- The batch goes on from the block of the last transaction, if that is in one. -/
def Buddy.advance [ExplorerTransaction τ] (b : Buddy τ) (i : Nat) (txs : List τ) : Buddy τ :=
  match txs.getLast?.bind block with
  | some lastBlock => b.setBatches (b.batches.set i ⟨lastBlock.hash, lastBlock.height % 2 ^ 32⟩)
  | none => b

/-- A batch is added when there is none with this index. -/
def Buddy.addBatch (b : Buddy τ) (i : Nat) : Buddy τ :=
  if b.batches.length ≤ i then b.setBatches (b.batches ++ [.fresh]) else b

/-- `size() - 1` is taken in `size_t`. -/
def Buddy.done (b : Buddy τ) (i : Nat) : Bool :=
  decide ((b.batches.length + (2 ^ 64 - 1)) % 2 ^ 64 ≤ i)

variable {b : Buddy τ} {bs : List BatchSavedState} {i j : Nat} {tx : τ} {txs : List τ}

@[simp] theorem batches_setBatches : (b.setBatches bs).batches = bs := rfl
@[simp] theorem requests_setBatches : (b.setBatches bs).requests = b.requests := rfl
@[simp] theorem database_setBatches : (b.setBatches bs).database = b.database := rfl
@[simp] theorem batches_setDatabase (d : Database) : (b.setDatabase d).batches = b.batches := rfl
@[simp] theorem requests_setDatabase (d : Database) :
    (b.setDatabase d).requests = b.requests := rfl
@[simp] theorem database_setDatabase (d : Database) : (b.setDatabase d).database = d := rfl
@[simp] theorem batches_ask (r : Request τ) : (b.ask r).batches = b.batches := rfl
@[simp] theorem requests_ask (r : Request τ) : (b.ask r).requests = b.requests ++ [r] := rfl
@[simp] theorem database_ask (r : Request τ) : (b.ask r).database = b.database := rfl
@[simp] theorem batches_store : b.store.batches = b.batches := rfl
@[simp] theorem requests_store : b.store.requests = b.requests := rfl
@[simp] theorem database_store : b.store.database = b.database := rfl

@[simp] theorem requests_addBatch : (b.addBatch i).requests = b.requests := by
  unfold Buddy.addBatch
  split <;> rfl

@[simp] theorem database_addBatch : (b.addBatch i).database = b.database := by
  unfold Buddy.addBatch
  split <;> rfl

@[simp] theorem batch_store : b.store.batch j = b.batch j := rfl

@[simp] theorem batch_addBatch : (b.addBatch i).batch j = b.batch j := by
  unfold Buddy.addBatch
  split
  · simp only [Buddy.batch, batches_setBatches, List.getD_eq_getElem?_getD, List.getElem?_append]
    split
    · rfl
    · rename_i hj
      rw [List.getElem?_eq_none (by omega : b.batches.length ≤ j)]
      cases h : j - b.batches.length <;> rfl
  · rfl

variable [ExplorerTransaction τ]

@[simp] theorem batches_keep : (b.keep tx).batches = b.batches := rfl
@[simp] theorem requests_keep : (b.keep tx).requests = b.requests := rfl
@[simp] theorem database_keep : (b.keep tx).database = b.database := rfl

@[simp] theorem requests_advance : (b.advance i txs).requests = b.requests := by
  unfold Buddy.advance
  split <;> rfl

@[simp] theorem database_advance : (b.advance i txs).database = b.database := by
  unfold Buddy.advance
  split <;> rfl

@[simp] theorem length_batches_advance : (b.advance i txs).batches.length = b.batches.length := by
  unfold Buddy.advance
  split <;> simp

end Buddy

section Env
variable {τ : Type} {env : Env τ} {i j : Nat} {b : Buddy τ}

/-- The batches that are beyond the last block go back to it. -/
def rewind (lastBlock : Option Block) (batch : BatchSavedState) : BatchSavedState :=
  let lastBlockHeight := lastBlock.elim 0 (·.height)
  if lastBlockHeight < batch.blockHeight then
    ⟨lastBlock.elim "" (·.hash), lastBlockHeight % 2 ^ 32⟩
  else batch

/-- The block of greatest height. -/
def highest (blocks : List Block) : Option Block := blocks.argmax Block.height

theorem highest_spec (blocks : List Block) : (highest blocks).elim (blocks = []) fun last =>
    last ∈ blocks ∧ ∀ b ∈ blocks, b.height ≤ last.height := by
  cases h : highest blocks with
  | none => exact List.argmax_eq_none.mp h
  | some last => exact ⟨List.argmax_mem h, fun b hb => List.le_of_mem_argmax hb h⟩

/-- What is done when the block of batch `i` is not found: the blocks from there on are deleted,
and the last one of the currency is looked for among the others. -/
def Env.recover (env : Env τ) (i : Nat) (b : Buddy τ) : Buddy τ :=
  let b := b.setDatabase (b.database.deleteBlocks (b.batch i).blockHeight)
  (b.setBatches (b.batches.map (rewind (env.getLastBlock b.database.blocks)))).store

def Env.discoveredAddresses (env : Env τ) (i : Nat) : Nat := i * env.halfBatchSize % 2 ^ 32

/-- The range is an `int32_t`, compared as a `uint32_t`. -/
def Env.lastDiscoverableAddress (env : Env τ) : Nat :=
  (env.keychainObservableRange.getD env.halfBatchSize % 2 ^ 32).toNat

/-- The addresses of batch `i`, both bounds in `uint32_t`. -/
def Env.batchAddresses (env : Env τ) (i : Nat) : List Address :=
  env.getAllObservableAddresses (i * env.halfBatchSize % 2 ^ 32)
    (((i + 1) * env.halfBatchSize + (2 ^ 32 - 1)) % 2 ^ 32)

/-- The block that batch `i` is read on from. -/
def Buddy.blockHash (b : Buddy τ) (i : Nat) : Option Hash :=
  if 0 < (b.batch i).blockHeight then some (b.batch i).blockHash else none

/-- The next request for batch `i`, and its answer. -/
def Env.request (env : Env τ) (i : Nat) (b : Buddy τ) : Request τ where
  currentBatchIndex := i
  addresses := env.batchAddresses i
  blockHash := b.blockHash i
  answer := env.getTransactions b.requests.length (env.batchAddresses i) (b.blockHash i)

/-- Whether the next batch is to be read. -/
def Env.goesOn (env : Env τ) (i : Nat) (done hadTransactions : Bool) : Bool :=
  !env.isETHWallet && (!done || (done && hadTransactions) ||
    decide (env.discoveredAddresses i < env.lastDiscoverableAddress))

@[simp] theorem requests_recover : (env.recover i b).requests = b.requests := rfl

@[simp] theorem length_batches_recover :
    (env.recover i b).batches.length = b.batches.length := by
  simp [Env.recover]

/-- The last block of the currency that is left after going back. -/
def Env.lastLeft (env : Env τ) (i : Nat) (b : Buddy τ) : Option Block :=
  env.getLastBlock (env.recover i b).database.blocks

theorem mem_blocks_recover {x : Block} : x ∈ (env.recover i b).database.blocks ↔
    x ∈ b.database.blocks ∧ x.height < (b.batch i).blockHeight := by
  have hblocks : (env.recover i b).database.blocks =
      b.database.blocks.filter (·.height < (b.batch i).blockHeight) := rfl
  rw [hblocks, List.mem_filter, decide_eq_true_eq]

theorem batches_recover :
    (env.recover i b).batches = b.batches.map (rewind (env.lastLeft i b)) := rfl

theorem batch_recover : (env.recover i b).batch j = rewind (env.lastLeft i b) (b.batch j) := by
  cases h : b.batches[j]? with
  | some s => simp [Buddy.batch, batches_recover, h]
  | none => simp [Buddy.batch, batches_recover, h, rewind, BatchSavedState.fresh]

theorem lastLeft_mem {x : Block} (h : env.lastLeft i b = some x) :
    x ∈ (env.recover i b).database.blocks := by
  have hhighest := env.getLastBlock_highest (env.recover i b).database.blocks
  rw [show env.getLastBlock _ = _ from h] at hhighest
  exact hhighest.1

/-- No block that is left is above the last. -/
theorem height_le_lastLeft {x : Block} (h : x ∈ (env.recover i b).database.blocks) :
    x.height ≤ (env.lastLeft i b).elim 0 Block.height := by
  have hhighest := env.getLastBlock_highest (env.recover i b).database.blocks
  cases hl : env.lastLeft i b with
  | none =>
    rw [show env.getLastBlock _ = _ from hl] at hhighest
    rw [show (env.recover i b).database.blocks = [] from hhighest] at h
    cases h
  | some last =>
    rw [show env.getLastBlock _ = _ from hl] at hhighest
    exact hhighest.2 x h

theorem lastLeft_lt (hpos : 0 < (b.batch i).blockHeight) :
    (env.lastLeft i b).elim 0 Block.height < (b.batch i).blockHeight := by
  cases h : env.lastLeft i b with
  | none => exact hpos
  | some x => exact (mem_blocks_recover.mp (lastLeft_mem h)).2

end Env

variable {τ : Type} [ExplorerTransaction τ]

/-- The loop over the transactions of a bulk, up to the first that the account does not take. -/
def Env.putTransactions (env : Env τ) (b : Buddy τ) : List τ → Try Unit × Buddy τ
  | [] => (.ok (), b)
  | tx :: txs =>
    match env.putTransaction b.database tx with
    | .error e => (.error e, b)
    | .ok database => env.putTransactions ((b.setDatabase database).keep tx) txs

/-- One request, and what is done with the answer. A transaction of the database that is not
committed is rolled back. -/
def Env.getBulk (env : Env τ) (i : Nat) (b : Buddy τ) : Try (TransactionsBulk τ) × Buddy τ :=
  let asked := b.ask (env.request i b)
  match (env.request i b).answer with
  | .error e => (.error e, asked)
  | .ok bulk =>
    match env.putTransactions asked bulk.transactions with
    | (.error e, b') => (.error e, b'.setDatabase b.database)
    | (.ok (), b') => (.ok bulk, b'.advance i bulk.transactions)

/-- The recursion stands for a chain of futures; `fuel` bounds its length. -/
def Env.synchronizeBatch (env : Env τ) (i : Nat) :
    Nat → Bool → Buddy τ → Option (Try Bool × Buddy τ)
  | 0, _, _ => none
  | fuel + 1, hadTransactions, b =>
    match env.getBulk i b with
    | (.error e, b) => some (.error e, b)
    | (.ok bulk, b) =>
      let hadTX := hadTransactions || !bulk.transactions.isEmpty
      if bulk.hasNext then env.synchronizeBatch i fuel hadTX b else some (.ok hadTX, b)

/-- What follows a batch that was read to its end, where `next` reads the batches from an index
on. -/
def Env.proceed (env : Env τ) (next : Nat → Buddy τ → Option (Try Unit × Buddy τ)) (i : Nat)
    (done : Bool) : Try Bool × Buddy τ → Option (Try Unit × Buddy τ)
  | (.error e, b) => some (.error e, b)
  | (.ok hadTransactions, b) =>
    if env.goesOn i done hadTransactions then next ((i + 1) % 2 ^ 32) b.store
    else some (.ok (), b.store)

/-- The handler of failures, those of later batches included; `again` relaunches the batch. -/
def Env.recoverWith (env : Env τ) (again : Buddy τ → Option (Try Unit × Buddy τ)) (i : Nat) :
    Try Unit × Buddy τ → Option (Try Unit × Buddy τ)
  | (.ok (), b) => some (.ok (), b)
  | (.error e, b) =>
    if e.errorCode = .blockNotFound then
      if 0 < (b.batch i).blockHeight then again (env.recover i b) else some (.ok (), b)
    else some (.error e, b)

def Env.synchronizeBatches (env : Env τ) : Nat → Nat → Buddy τ → Option (Try Unit × Buddy τ)
  | 0, _, _ => none
  | fuel + 1, i, b =>
    ((env.synchronizeBatch i fuel false (b.addBatch i)).bind
      (env.proceed (env.synchronizeBatches fuel) i (b.done i))).bind
        (env.recoverWith (env.synchronizeBatches fuel i) i)

section Steps
variable {env : Env τ} {fuel i j : Nat} {b b' : Buddy τ} {out : Try Unit × Buddy τ}
  {e : Exception} {had : Bool} {r : Try Bool} {txs : List τ}

/-- The loop over the transactions touches neither batches nor requests. -/
theorem putTransactions_same (env : Env τ) (b : Buddy τ) (txs : List τ) :
    (env.putTransactions b txs).2.batches = b.batches ∧
      (env.putTransactions b txs).2.requests = b.requests := by
  induction txs generalizing b with
  | nil => exact ⟨rfl, rfl⟩
  | cons tx txs ih =>
    simp only [Env.putTransactions]
    split
    · exact ⟨rfl, rfl⟩
    · exact ih _

theorem putTransactions_error (h : (env.putTransactions b txs).1 = .error e) :
    ∃ database tx, env.putTransaction database tx = .error e := by
  induction txs generalizing b with
  | nil => cases h
  | cons tx txs ih =>
    simp only [Env.putTransactions] at h
    split at h
    · cases h
      exact ⟨_, _, by assumption⟩
    · exact ih h

/-- A request fails, and the batches and the database stay as they are, or its transactions
are taken. -/
theorem getBulk_cases (env : Env τ) (i : Nat) (b : Buddy τ) :
    (∃ e b₁, env.getBulk i b = (.error e, b₁) ∧ b₁.batches = b.batches ∧
      b₁.database = b.database ∧ b₁.requests = b.requests ++ [env.request i b] ∧
      ((env.request i b).answer = .error e ∨
        ∃ database tx, env.putTransaction database tx = .error e)) ∨
    ∃ bulk b₁, (env.request i b).answer = .ok bulk ∧
      env.putTransactions (b.ask (env.request i b)) bulk.transactions = (.ok (), b₁) ∧
      env.getBulk i b = (.ok bulk, b₁.advance i bulk.transactions) := by
  unfold Env.getBulk
  cases ha : (env.request i b).answer with
  | error e => exact Or.inl ⟨e, _, rfl, rfl, rfl, rfl, Or.inl rfl⟩
  | ok bulk =>
    dsimp only
    have hsame := putTransactions_same env (b.ask (env.request i b)) bulk.transactions
    cases hp : env.putTransactions (b.ask (env.request i b)) bulk.transactions with
    | mk r b₁ =>
      rw [hp] at hsame
      cases r with
      | error e =>
        exact Or.inl ⟨e, _, rfl, hsame.1, rfl, hsame.2,
          Or.inr (putTransactions_error (by rw [hp]))⟩
      | ok _ => exact Or.inr ⟨bulk, b₁, rfl, hp, rfl⟩

/-- The failure of a batch whose block was not found is never passed on. -/
theorem synchronizeBatches_ne_blockNotFound
    (h : env.synchronizeBatches fuel i b = some (.error e, b')) :
    e.errorCode ≠ .blockNotFound := by
  induction fuel generalizing i b with
  | zero => cases h
  | succ fuel ih =>
    simp only [Env.synchronizeBatches, Option.bind_eq_some_iff] at h
    obtain ⟨⟨r, b₁⟩, -, h⟩ := h
    cases r with
    | ok _ => cases h
    | error e₁ =>
      simp only [Env.recoverWith] at h
      split at h
      · split at h
        · exact ih h
        · cases h
      · cases h
        assumption

/-- So a batch only ever recovers from its own failures. -/
theorem recoverWith_synchronizeBatches {again : Buddy τ → Option (Try Unit × Buddy τ)} (j : Nat) :
    (env.synchronizeBatches fuel j b).bind (env.recoverWith again i) =
      env.synchronizeBatches fuel j b := by
  cases h : env.synchronizeBatches fuel j b with
  | none => rfl
  | some out =>
    obtain ⟨r, b₁⟩ := out
    cases r with
    | ok _ => rfl
    | error e => simp [Env.recoverWith, synchronizeBatches_ne_blockNotFound h]

/-- The steps from one batch to the next, or back to the same. -/
theorem synchronizeBatches_succ : env.synchronizeBatches (fuel + 1) i b =
    (env.synchronizeBatch i fuel false (b.addBatch i)).bind fun
      | (.ok hadTransactions, b₁) =>
        if env.goesOn i (b.done i) hadTransactions then
          env.synchronizeBatches fuel ((i + 1) % 2 ^ 32) b₁.store
        else some (.ok (), b₁.store)
      | (.error e, b₁) =>
        if e.errorCode = .blockNotFound then
          if 0 < (b₁.batch i).blockHeight then
            env.synchronizeBatches fuel i (env.recover i b₁)
          else some (.ok (), b₁)
        else some (.error e, b₁) := by
  rw [Env.synchronizeBatches, Option.bind_assoc]
  congr 1
  funext ⟨r, b₁⟩
  cases r with
  | error e => rfl
  | ok hadTransactions =>
    simp only [Env.proceed]
    split
    · exact recoverWith_synchronizeBatches _
    · rfl

end Steps

end LibCoreCmd.Synchronizer

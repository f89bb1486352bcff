import LibCoreCmd.Synchronizer.Outage

/-! A synchronization with `tools/server.py`: one request for each batch, whatever the batch had
been read up to, and never a block that is missing. -/
namespace LibCoreCmd.Synchronizer
open Async Explorers
open Tools (Hash Address Blockchain TransactionOutput Dated emptiedChain matching hashes
  transactionToJsonObject)

variable {π τ : Type} [ExplorerTransaction τ] [TransactionParser π τ] {env : Env τ}
  {x : LedgerApiExplorer} {session : Option String} {b b' b₀ b₁ : Buddy τ} {pages : Nat → List τ}
  {fuel i k : Nat} {txs : List τ} {had : Bool}

/-- The only request for batch `i`, and its answer. -/
def Env.single (env : Env τ) (pages : Nat → List τ) (b₀ : Buddy τ) (i : Nat) : Request τ where
  currentBatchIndex := i
  addresses := env.batchAddresses i
  blockHash := b₀.blockHash i
  answer := .ok ⟨pages i, false⟩

/-- An explorer that answers each batch with one page, and an account that takes it. -/
structure OnePage (env : Env τ) (pages : Nat → List τ) (b₀ : Buddy τ) : Prop where
  answer : ∀ n i, env.getTransactions n (env.batchAddresses i) (b₀.blockHash i) =
    .ok ⟨pages i, false⟩
  account : ∀ database tx, ∃ database', env.putTransaction database tx = .ok database' ∧
    database.Grows database'

/-- Batches before `i` have been read with one request each, the others wait. -/
structure Asking (env : Env τ) (pages : Nat → List τ) (b₀ : Buddy τ) (i : Nat) (b : Buddy τ) :
    Prop where
  requests : b.requests = b₀.requests ++ (List.range i).map (env.single pages b₀)
  waiting : ∀ j, i ≤ j → b.batch j = b₀.batch j
  length : b.batches.length = max b₀.batches.length i
  rows : b₀.database.Grows b.database

/-- There is a batch at which the search is over. -/
structure Ends (env : Env τ) (pages : Nat → List τ) (b₀ : Buddy τ) (k : Nat) : Prop where
  positive : 0 < k
  small : k < 2 ^ 32
  saved : b₀.batches.length ≤ k + 1
  range : env.lastDiscoverableAddress ≤ env.discoveredAddresses k
  empty : pages k = []

theorem putTransactions_rows (hp : OnePage env pages b₀)
    (hput : env.putTransactions b txs = (.ok (), b')) :
    b.database.Grows b'.database := by
  induction txs generalizing b with
  | nil =>
    cases hput
    exact .refl _
  | cons tx txs ih =>
    obtain ⟨database, hdatabase, hsub⟩ := hp.account b.database tx
    simp only [Env.putTransactions, hdatabase] at hput
    have hrest : ((b.setDatabase database).keep tx).database.Grows _ := ih hput
    exact hsub.trans hrest

omit [ExplorerTransaction τ] in
theorem Asking.request (hp : OnePage env pages b₀) (h : Asking env pages b₀ i b) :
    env.request i (b.addBatch i) = env.single pages b₀ i := by
  have hblock : (b.addBatch i).blockHash i = b₀.blockHash i := by
    simp only [Buddy.blockHash, batch_addBatch, h.waiting i le_rfl]
  simp only [Env.request, Env.single, hblock, hp.answer]

/-- One request reads a batch, and what it brings is all that the batch gets. -/
theorem Asking.next (hp : OnePage env pages b₀) (h : Asking env pages b₀ i b) :
    ∃ b₁, env.synchronizeBatch i 1 false (b.addBatch i) =
        some (.ok (!(pages i).isEmpty), b₁) ∧ b₁.batches.length = max b.batches.length (i + 1) ∧
      Asking env pages b₀ (i + 1) b₁.store := by
  have hrequest := h.request hp
  have hanswer : (env.single pages b₀ i).answer = .ok ⟨pages i, false⟩ := rfl
  obtain ⟨b₁, hput, hbatches, hreq⟩ := putTransactions_ok (fun database tx =>
    (hp.account database tx).imp fun _ hd => hd.1) ((b.addBatch i).ask (env.single pages b₀ i))
      (pages i)
  have hrows := putTransactions_rows hp hput
  have hlen := h.length
  have hadd := length_addBatch b i (by omega)
  rw [database_ask, database_addBatch] at hrows
  rw [batches_ask] at hbatches
  rw [requests_ask, requests_addBatch, h.requests] at hreq
  refine ⟨b₁.advance i (pages i), ?_, ?_, ⟨?_, fun j hj => ?_, ?_, ?_⟩⟩
  · simp [Env.synchronizeBatch, Env.getBulk, hrequest, hanswer, hput]
  · rw [length_batches_advance, hbatches, hadd]
  · rw [requests_store, requests_advance, hreq, List.range_succ, List.map_append,
      List.append_assoc]
    rfl
  · have hsame : b₁.batch j = (b.addBatch i).batch j := by rw [Buddy.batch, hbatches, Buddy.batch]
    rw [batch_store, batch_advance_ne (by omega), hsame, batch_addBatch]
    exact h.waiting j (by omega)
  · rw [batches_store, length_batches_advance, hbatches, hadd]
    omega
  · rw [database_store, database_advance]
    exact h.rows.trans hrows

/-- What a synchronization has done that has stopped at batch `m`. -/
structure Single (env : Env τ) (pages : Nat → List τ) (b₀ : Buddy τ) (m : Nat) (b : Buddy τ) :
    Prop where
  requests : b.requests = b₀.requests ++ (List.range (m + 1)).map (env.single pages b₀)
  rows : b₀.database.Grows b.database
  saved : b₀.batches.length ≤ m + 1
  range : env.lastDiscoverableAddress ≤ env.discoveredAddresses m
  empty : pages m = []

omit [ExplorerTransaction τ] in
theorem Asking.stop (heth : env.isETHWallet = false) (hi : i < 2 ^ 32)
    (hsize : b₀.batches.length ≤ 2 ^ 32) (h : Asking env pages b₀ i b)
    (h' : Asking env pages b₀ (i + 1) b')
    (hg : env.goesOn i (b.done i) (!(pages i).isEmpty) = false) : Single env pages b₀ i b' := by
  obtain ⟨hdone, hnone, hrange⟩ := (goesOn_eq_false heth).mp hg
  have hlen := h.length
  have hle := le_of_done (by omega) hdone
  exact ⟨h'.requests, h'.rows, by omega, hrange, by simpa using hnone⟩

/-- The batches are read one after the other, each with one request, up to one that is empty. -/
theorem Asking.ends (hp : OnePage env pages b₀) (heth : env.isETHWallet = false)
    (hk : Ends env pages b₀ k) (hi : i ≤ k) (h : Asking env pages b₀ i b) :
    ∃ fuel b' m, m ≤ k ∧ env.synchronizeBatches fuel i b = some (.ok (), b') ∧
      Single env pages b₀ m b' := by
  have hsmall := hk.small
  have hsaved := hk.saved
  have hsize : b₀.batches.length ≤ 2 ^ 32 := by omega
  induction hn : k - i generalizing i b with
  | zero =>
    obtain rfl : i = k := by omega
    obtain ⟨b₁, hread, -, hnext⟩ := h.next hp
    have hover : env.goesOn i (b.done i) (!(pages i).isEmpty) = false := by
      have hpos := hk.positive
      have hlen := h.length
      refine (goesOn_eq_false heth).mpr ⟨?_, by simp [hk.empty], hk.range⟩
      simp only [Buddy.done, decide_eq_true_eq]
      omega
    exact ⟨_, _, i, le_rfl, synchronizeBatches_stop hread hover,
      h.stop heth hsmall hsize hnext hover⟩
  | succ n ih =>
    obtain ⟨b₁, hread, -, hnext⟩ := h.next hp
    cases hg : env.goesOn i (b.done i) (!(pages i).isEmpty) with
    | true =>
      obtain ⟨fuel', b', m, hm, hb', hend⟩ := ih (by omega) hnext (by omega)
      rw [← Nat.mod_eq_of_lt (by omega : i + 1 < 2 ^ 32)] at hb'
      obtain ⟨fuel, hall⟩ := synchronizeBatches_next hread hg hb'
      exact ⟨fuel, b', m, hm, hall, hend⟩
    | false =>
      exact ⟨_, _, i, by omega, synchronizeBatches_stop hread hg,
        h.stop heth (by omega) hsize hnext hg⟩

/-- The first page of the chain for a batch. -/
def firstPage (bc : Blockchain TransactionOutput) (addresses : List Address) :=
  (Paging.page 200 (bc.blocks.map (matching addresses.toFinset))).1

/-- The synchronizer asks a server with this chain, for what can be asked for, and the account
takes what comes. -/
structure Env.Served (env : Env τ) (x : LedgerApiExplorer) (session : Option String)
    (bc : Blockchain TransactionOutput) (b : Buddy τ) : Prop where
  get : ∀ path headers, x.get path headers = answerOf (.new bc) path
  joins : Joins x.mkString
  chain : (hashes bc.blocks).Nodup ∧ bc.blocks ≠ []
  askable : ∀ i, Askable x (env.batchAddresses i) (b.blockHash i)
  dated : ∀ i, ∀ tr ∈ firstPage bc (env.batchAddresses i), Dated tr
  account : ∀ database tx, ∃ database', env.putTransaction database tx = .ok database' ∧
    database.Grows database'

/-- What the core reads of the objects that the server writes for some transactions. -/
def ReadAs (π : Type) [TransactionParser π τ] (trs : List Tools.ChainTransaction)
    (txs : List τ) : Prop :=
  ∃ objects, List.Forall₂ (fun tr ms => transactionToJsonObject tr = .ok ms) trs objects ∧
    txs = readTransactions "txs" (TransactionParser.init τ : π) objects

omit [ExplorerTransaction τ] in
theorem Env.Served.onePage {bc : Blockchain TransactionOutput} (he : env.Asks (π := π) x session)
    (hs : env.Served x session bc b) : ∃ pages, OnePage env pages b ∧
      ∀ i, ReadAs π (firstPage bc (env.batchAddresses i)) (pages i) := by
  have hanswer : ∀ i, ∃ txs, ReadAs π (firstPage bc (env.batchAddresses i)) txs ∧
      ∀ n, env.getTransactions n (env.batchAddresses i) (b.blockHash i) = .ok ⟨txs, false⟩ := by
    intro i
    obtain ⟨objects, hobjects, hask⟩ := getLedgerApiTransactions_served (π := π) (τ := τ)
      hs.chain.1 hs.chain.2 hs.joins hs.get (hs.askable i) (hs.dated i)
    exact ⟨_, ⟨objects, hobjects, rfl⟩, fun n => (he n _ _).trans hask⟩
  choose pages hread hask using hanswer
  exact ⟨pages, ⟨fun n i => hask i n, hs.account⟩, hread⟩

/-- With `tools/server.py` a synchronization succeeds after one request for each batch, from the
block at which the batch stands; the answer is the first page of the chain, whatever that block
is, and no row is deleted. -/
theorem synchronizeBatches_served {bc : Blockchain TransactionOutput}
    (he : env.Asks (π := π) x session) (hs : env.Served x session bc b)
    (heth : env.isETHWallet = false) (hk : 0 < k ∧ k < 2 ^ 32)
    (hsaved : b.batches.length ≤ k + 1)
    (hrange : env.lastDiscoverableAddress ≤ env.discoveredAddresses k)
    (hempty : firstPage bc (env.batchAddresses k) = []) :
    ∃ pages fuel b' m, m ≤ k ∧ env.synchronizeBatches fuel 0 b = some (.ok (), b') ∧
      (∀ i, ReadAs π (firstPage bc (env.batchAddresses i)) (pages i)) ∧
      Single env pages b m b' := by
  obtain ⟨pages, hp, hread⟩ := hs.onePage he
  have hnone : pages k = [] := by
    obtain ⟨objects, hobjects, heq⟩ := hread k
    rw [hempty, List.forall₂_nil_left_iff] at hobjects
    rw [heq, hobjects]
    rfl
  have hstart : Asking env pages b 0 b :=
    ⟨by simp, fun _ _ => rfl, by omega, .refl _⟩
  obtain ⟨fuel, b', m, hm, hrun, hend⟩ := hstart.ends hp heth
    ⟨hk.1, hk.2, hsaved, hrange, hnone⟩ (Nat.zero_le k)
  exact ⟨pages, fuel, b', m, hm, hrun, hread, hend⟩

/-- The client of a server that has a chain of three blocks. -/
def threeBlocks : LedgerApiExplorer where
  explorerVersion := "v2"
  identifier := "btc"
  mkString separator item carry := carry.elim item fun carry => carry ++ separator ++ item
  get path _ := answerOf (.new emptiedChain) path

/-- A wallet with one address of the chain, at a server with three blocks. -/
def mocked : Env Payment where
  halfBatchSize := 1
  getAllObservableAddresses i _ := if i = 0 then ["ours"] else ["spare"]
  getTransactions _ addresses fromBlockHash :=
    threeBlocks.getLedgerApiTransactions (π := Unit) addresses fromBlockHash (some "token")
  putTransaction database tx :=
    .ok { database with blocks := database.blocks ++ (block tx).toList }
  getLastBlock := highest
  getLastBlock_highest := highest_spec

theorem dated_emptied : ∀ tr ∈ firstPage emptiedChain ["ours"], Dated tr := by
  obtain ⟨page, hpage, hdated⟩ := Tools.served_emptied
  have hfirst : (Tools.Explorer.new emptiedChain).getTransactions {"ours"} none = .ok _ :=
    Tools.getTransactions_first (by decide) (List.cons_ne_nil _ _)
  have hours : ["ours"].toFinset = {"ours"} := by decide
  rw [hfirst, Except.ok.injEq] at hpage
  rw [firstPage, hours]
  exact hpage ▸ hdated

/-- Both batches stand at blocks that the server does not have. -/
theorem synchronizeBatches_served_stale : ∃ pages fuel b' m, m ≤ 1 ∧
    mocked.synchronizeBatches fuel 0 (beforehand ⟨"gone", 7⟩) = some (.ok (), b') ∧
    (∀ i, ReadAs Unit (firstPage emptiedChain (mocked.batchAddresses i)) (pages i)) ∧
    Single mocked pages (beforehand ⟨"gone", 7⟩) m b' := by
  have haddresses : ∀ i, mocked.batchAddresses i = ["ours"] ∨
      mocked.batchAddresses i = ["spare"] := by
    intro i
    simp only [mocked, Env.batchAddresses]
    split <;> simp
  have hblocks : ∀ i h, (beforehand ⟨"gone", 7⟩).blockHash i = some h → h = "gone" ∨ h = "o4" := by
    rintro (_ | _ | i) h hh
    · exact Or.inl (Option.some.inj hh).symm
    · exact Or.inr (Option.some.inj hh).symm
    · cases hh
  have he : mocked.Asks (π := Unit) threeBlocks (some "token") := fun _ _ _ => rfl
  refine synchronizeBatches_served he ⟨fun _ _ => rfl, ⟨fun _ _ => rfl, fun _ _ _ => rfl⟩,
      ⟨by decide, List.cons_ne_nil _ _⟩, fun i => ?_, fun i => ?_, fun database tx => ?_⟩
    rfl ⟨by decide, by decide⟩ (by decide) (by decide) (by decide)
  · refine ⟨by unfold Segment; decide, by unfold Segment; decide, ?_, ?_, ?_⟩
    · rcases haddresses i with he | he <;> simp [he]
    · rcases haddresses i with he | he <;> rw [he] <;> unfold Segment <;> decide
    · intro h hh
      rcases hblocks i h hh with rfl | rfl <;> decide
  · rcases haddresses i with he | he
    · rw [he]
      exact dated_emptied
    · have hnone : firstPage emptiedChain ["spare"] = [] := by decide
      rw [he, hnone]
      exact List.forall_mem_nil _
  · exact ⟨_, rfl, List.subset_append_left _ _, fun _ h => h⟩

end LibCoreCmd.Synchronizer

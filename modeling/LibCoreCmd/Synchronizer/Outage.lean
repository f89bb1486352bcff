import LibCoreCmd.Explorers.LedgerApiExplorer
import LibCoreCmd.Synchronizer.Reorganization

/-! What is left of an account when the API answers, but with failures alone: each is taken for
a block that is missing. -/
namespace LibCoreCmd.Synchronizer
open Async Explorers
open Tools (Address)

variable {π τ : Type} [ExplorerTransaction τ] [TransactionParser π τ] {env : Env τ}
  {x : LedgerApiExplorer} {session : Option String} {b c : Buddy τ} {i : Nat}

/-- Every response has a failing status. -/
def Failing (x : LedgerApiExplorer) : Prop := ∀ path headers, ∃ r, x.get path headers = .ok r ∧
  (r.statusCode < 200 ∨ 400 ≤ r.statusCode)

/-- The synchronizer asks this explorer. -/
def Env.Asks (env : Env τ) (x : LedgerApiExplorer) (session : Option String) : Prop :=
  ∀ n addresses fromBlockHash, env.getTransactions n addresses fromBlockHash =
    x.getLedgerApiTransactions (π := π) addresses fromBlockHash session

/-- The lowest height above zero, of the first batch and of these rows. -/
structure Lowest (first : Nat) (blocks : List Block) (height : Nat) : Prop where
  positive : 0 < height
  batch : height ≤ first
  rows : ∀ y ∈ blocks, 0 < y.height → height ≤ y.height
  reached : height = first ∨ ∃ y ∈ blocks, y.height = height

/-- Nothing is known any more of any batch, of the blocks in the account's currency only those at
height zero, and of the others only those below the lowest that was deleted. -/
structure Unlearned (b b' : Buddy τ) : Prop where
  batches : ∀ j, (b'.batch j).blockHeight = 0
  length : b'.batches.length = b.batches.length
  blocks : b'.database.blocks = b.database.blocks.filter (·.height = 0)
  others : ∃ height, Lowest (b.batch 0).blockHeight b.database.blocks height ∧
    b'.database.others = b.database.others.filter (·.height < height)
  stored : b'.stored = some b'.savedState

/-- Every request fails, and one from a block as if the block were missing. -/
theorem synchronizeBatch_failing (hx : Failing x) (he : env.Asks (π := π) x session) :
    ∃ e, env.synchronizeBatch i 1 false b = some (.error e, b.ask (env.request i b)) ∧
      e.errorCode = if 0 < (b.batch i).blockHeight then .blockNotFound else .apiError := by
  obtain ⟨r, hget, hf⟩ := hx (x.transactionsPath (env.batchAddresses i) ++
    LedgerApiExplorer.params (b.blockHash i) session) (LedgerApiExplorer.headers session)
  obtain ⟨e, hask, hcode⟩ := getLedgerApiTransactions_failure (π := π) (τ := τ) hf hget
  have hrequest : (env.request i b).answer = .error e := (he _ _ _).trans hask
  refine ⟨e, by simp [Env.synchronizeBatch, Env.getBulk, hrequest], hcode.trans ?_⟩
  by_cases hpos : 0 < (b.batch i).blockHeight <;> simp [Buddy.blockHash, hpos]

theorem rewind_height {last : Option Block} {s : BatchSavedState}
    (hlast : ∀ y, last = some y → y.height < 2 ^ 32) :
    (rewind last s).blockHeight = min s.blockHeight (last.elim 0 Block.height) := by
  rcases rewind_cases (s := s) hlast with ⟨heq, hle⟩ | ⟨heq, hlt⟩
  · rw [heq]
    omega
  · rw [heq]
    cases last with
    | none => exact (Nat.min_zero _).symm
    | some y => exact (Nat.min_eq_right (Nat.le_of_lt hlt)).symm

section Back
variable {height : Nat} {y : Block} {b' : Buddy τ}

omit [ExplorerTransaction τ]

theorem recover_height (hsmall : ∀ y ∈ b.database.blocks, y.height < 2 ^ 32) (j : Nat) :
    ((env.recover 0 b).batch j).blockHeight =
      min (b.batch j).blockHeight ((env.lastLeft 0 b).elim 0 Block.height) := by
  rw [batch_recover]
  exact rewind_height fun y hy => hsmall y (mem_blocks_recover.mp (lastLeft_mem hy)).1

/-- Going back from a block: to a lower one of the table, or to the beginning. -/
theorem recover_first (hsmall : ∀ y ∈ b.database.blocks, y.height < 2 ^ 32)
    (hpos : 0 < (b.batch 0).blockHeight) :
    ((env.recover 0 b).batch 0).blockHeight = (env.lastLeft 0 b).elim 0 Block.height := by
  rw [recover_height hsmall, Nat.min_eq_right (Nat.le_of_lt (lastLeft_lt hpos))]

theorem recover_zero (hpos : 0 < (b.batch 0).blockHeight) :
    (env.recover 0 b).database.blocks.filter (·.height = 0) =
      b.database.blocks.filter (·.height = 0) := by
  have hblocks : (env.recover 0 b).database.blocks =
      b.database.blocks.filter (·.height < (b.batch 0).blockHeight) := rfl
  rw [hblocks, List.filter_filter]
  refine List.filter_congr fun y _ => ?_
  by_cases hy : y.height = 0 <;> simp [hy, hpos]

/-- At the beginning nothing is left to go back from. -/
theorem unlearned_recover (hsmall : ∀ y ∈ b.database.blocks, y.height < 2 ^ 32)
    (hpos : 0 < (b.batch 0).blockHeight)
    (hnone : ((env.recover 0 b).batch 0).blockHeight = 0) : Unlearned b (env.recover 0 b) := by
  have hbottom : (env.lastLeft 0 b).elim 0 Block.height = 0 := by
    rw [← recover_first hsmall hpos, hnone]
  have hall : ∀ y ∈ (env.recover 0 b).database.blocks, y.height = 0 := by
    intro y hy
    have hle := height_le_lastLeft hy
    omega
  refine ⟨fun j => ?_, length_batches_recover, ?_,
    ⟨(b.batch 0).blockHeight, ⟨hpos, le_rfl, fun y hy hy0 => ?_, Or.inl rfl⟩, rfl⟩, rfl⟩
  · rw [recover_height hsmall, hbottom, Nat.min_zero]
  · rw [← recover_zero hpos, eq_comm, List.filter_eq_self]
    simpa using hall
  · by_contra hlt
    have := hall y (mem_blocks_recover.mpr ⟨hy, by omega⟩)
    omega

/-- Of the blocks that are left, or the last of them, the lowest is lowest of all. -/
theorem Lowest.of_recover (hsmall : ∀ y ∈ b.database.blocks, y.height < 2 ^ 32)
    (hpos : 0 < (b.batch 0).blockHeight)
    (h : Lowest ((env.recover 0 b).batch 0).blockHeight (env.recover 0 b).database.blocks height) :
    Lowest (b.batch 0).blockHeight b.database.blocks height := by
  have hlast : (env.lastLeft 0 b).elim 0 Block.height < _ := lastLeft_lt hpos
  obtain ⟨h0, hbatch, hall, hreached⟩ := h
  rw [recover_first hsmall hpos] at hbatch hreached
  refine ⟨h0, by omega, fun y hy hy0 => ?_, Or.inr ?_⟩
  · by_cases hlt : y.height < (b.batch 0).blockHeight
    · exact hall y (mem_blocks_recover.mpr ⟨hy, hlt⟩) hy0
    · omega
  · rcases hreached with he | ⟨y, hy, he⟩
    · cases hl : env.lastLeft 0 b with
      | none =>
        rw [hl, Option.elim_none] at he
        omega
      | some y =>
        rw [hl] at he
        exact ⟨y, (mem_blocks_recover.mp (lastLeft_mem hl)).1, he.symm⟩
    · exact ⟨y, (mem_blocks_recover.mp hy).1, he⟩

/-- What is lost from there on is lost from here on, as what was deleted on the way is above. -/
theorem Unlearned.of_recover (hsmall : ∀ y ∈ b.database.blocks, y.height < 2 ^ 32)
    (hpos : 0 < (b.batch 0).blockHeight) (h : Unlearned (env.recover 0 b) b') :
    Unlearned b b' := by
  obtain ⟨height, hl, hleft⟩ := h.others
  have hlower : (env.lastLeft 0 b).elim 0 Block.height < _ := lastLeft_lt hpos
  have hle := hl.batch
  rw [recover_first hsmall hpos] at hle
  refine ⟨h.batches, h.length.trans length_batches_recover, h.blocks.trans (recover_zero hpos),
    ⟨height, hl.of_recover hsmall hpos, ?_⟩, h.stored⟩
  have hothers : (env.recover 0 b).database.others =
      b.database.others.filter (·.height < (b.batch 0).blockHeight) := rfl
  rw [hleft, hothers, List.filter_filter]
  refine List.filter_congr fun y _ => ?_
  by_cases hy : y.height < height
  · have hy' : y.height < (b.batch 0).blockHeight := by omega
    simp [hy, hy']
  · simp [hy]

/-- A request changes none of it. -/
theorem Unlearned.of_ask {r : Request τ} (h : Unlearned (b.ask r) b') : Unlearned b b' :=
  ⟨h.batches, h.length, h.blocks, h.others, h.stored⟩

theorem Unlearned.ask (h : Unlearned b b') (r : Request τ) : Unlearned b (b'.ask r) :=
  ⟨h.batches, h.length, h.blocks, h.others, h.stored⟩

end Back

/-- A batch at the start fails for good. -/
theorem synchronizeBatches_start (hx : Failing x) (he : env.Asks (π := π) x session)
    (hc : (c.batch 0).blockHeight = 0) : ∃ e,
      env.synchronizeBatches 2 0 c =
        some (.error e, (c.addBatch 0).ask (env.request 0 (c.addBatch 0))) ∧
      e.errorCode = .apiError := by
  obtain ⟨e, hfail, hcode⟩ := synchronizeBatch_failing (i := 0) (b := c.addBatch 0) hx he
  rw [batch_addBatch, hc, if_neg (Nat.lt_irrefl 0)] at hcode
  refine ⟨e, ?_, hcode⟩
  rw [synchronizeBatches_succ, hfail]
  simp [hcode]

/-- Any other goes back until it is there. -/
theorem synchronizeBatches_unlearns (hx : Failing x) (he : env.Asks (π := π) x session)
    (hsmall : ∀ y ∈ b.database.blocks, y.height < 2 ^ 32)
    (hpos : 0 < (b.batch 0).blockHeight) :
    ∃ fuel e b', env.synchronizeBatches fuel 0 b = some (.error e, b') ∧
      e.errorCode = .apiError ∧ Unlearned b b' := by
  -- the height at which the first batch stands falls at each failure
  induction hn : (b.batch 0).blockHeight using Nat.strong_induction_on generalizing b with
  | _ n ih =>
    obtain ⟨e, hfail, hcode⟩ := synchronizeBatch_failing (i := 0) (b := b) hx he
    rw [if_pos hpos] at hcode
    have hadded : env.synchronizeBatch 0 1 false (b.addBatch 0) =
        some (.error e, b.ask (env.request 0 b)) := by rwa [addBatch_of_pos hpos]
    have hlower : ((env.recover 0 (b.ask (env.request 0 b))).batch 0).blockHeight <
        (b.batch 0).blockHeight := by
      rw [recover_first (b := b.ask _) hsmall hpos]
      exact lastLeft_lt (b := b.ask _) hpos
    have hsmall' : ∀ y ∈ (env.recover 0 (b.ask (env.request 0 b))).database.blocks,
        y.height < 2 ^ 32 := fun y hy => hsmall y (List.mem_of_mem_filter hy)
    have hlength : (env.recover 0 (b.ask (env.request 0 b))).batches.length = b.batches.length :=
      length_batches_recover
    have hrest : ∃ fuel e b', env.synchronizeBatches fuel 0
          (env.recover 0 (b.ask (env.request 0 b))) = some (.error e, b') ∧
        e.errorCode = .apiError ∧ Unlearned b b' := by
      rcases Nat.eq_zero_or_pos
        ((env.recover 0 (b.ask (env.request 0 b))).batch 0).blockHeight with hbottom | hmore
      · obtain ⟨e, hrun, hcode⟩ := synchronizeBatches_start hx he hbottom
        have hthere : (env.recover 0 (b.ask (env.request 0 b))).addBatch 0 = _ :=
          if_neg (Nat.not_le_of_lt (hlength ▸ lt_length_of_pos hpos))
        rw [hthere] at hrun
        have hlost := unlearned_recover (b := b.ask (env.request 0 b)) hsmall hpos hbottom
        exact ⟨2, e, _, hrun, hcode, hlost.of_ask.ask _⟩
      · obtain ⟨fuel, e, b', hrun, hcode, hlost⟩ :=
          ih _ (Nat.lt_of_lt_of_eq hlower hn) hsmall' hmore rfl
        have hlost' : Unlearned (b.ask _) b' := hlost.of_recover (b := b.ask _) hsmall hpos
        exact ⟨fuel, e, b', hrun, hcode, hlost'.of_ask⟩
    obtain ⟨fuel, e', b', hb', hend⟩ := hrest
    obtain ⟨fuel, hall⟩ := synchronizeBatches_retry hadded hcode hpos hb'
    exact ⟨fuel, e', b', hall, hend⟩

/-- While every response is a failure, a synchronization fails, and if the first batch had been
read nothing that was known before is left. -/
theorem synchronizeBatches_outage (hx : Failing x) (he : env.Asks (π := π) x session)
    (hsmall : ∀ y ∈ b.database.blocks, y.height < 2 ^ 32) :
    ∃ fuel e b', env.synchronizeBatches fuel 0 b = some (.error e, b') ∧
      e.errorCode = .apiError ∧
      if 0 < (b.batch 0).blockHeight then Unlearned b b'
      else b'.savedState = (b.addBatch 0).savedState ∧ b'.database = b.database := by
  by_cases hpos : 0 < (b.batch 0).blockHeight
  · obtain ⟨fuel, e, b', hrun, hcode, hlost⟩ := synchronizeBatches_unlearns hx he hsmall hpos
    exact ⟨fuel, e, b', hrun, hcode, by rwa [if_pos hpos]⟩
  · obtain ⟨e, hrun, hcode⟩ := synchronizeBatches_start hx he (Nat.eq_zero_of_not_pos hpos)
    exact ⟨2, e, _, hrun, hcode, by rw [if_neg hpos]; exact ⟨rfl, database_addBatch⟩⟩

/-- A server that is overloaded. -/
def overloaded : LedgerApiExplorer where
  explorerVersion := "v2"
  identifier := "btc"
  mkString separator item carry := carry.elim item fun carry => carry ++ separator ++ item
  get _ _ := .ok { statusCode := 503 }

instance : TransactionParser Unit Payment where
  init := ()
  blank := ⟨"", "", ⟨"", 0⟩⟩
  handle lastKey
    | .string s, (u, tx) => (u, if lastKey = "hash" then { tx with id := s } else tx)
    | _, t => t

def unavailable : Env Payment where
  halfBatchSize := 1
  getAllObservableAddresses i _ := if i = 0 then ["first"] else ["second"]
  getTransactions _ addresses fromBlockHash :=
    overloaded.getLedgerApiTransactions (π := Unit) addresses fromBlockHash (some "token")
  putTransaction database _ := .ok database
  getLastBlock := highest
  getLastBlock_highest := highest_spec

/-- An account that had been read up to block 1 knows nothing of it afterwards, and a row of
another currency is gone. -/
theorem synchronizeBatches_outage_overloaded : ∃ fuel e b',
    unavailable.synchronizeBatches fuel 0 (beforehand ⟨"k", 1⟩) = some (.error e, b') ∧
      e.errorCode = .apiError ∧ Unlearned (beforehand ⟨"k", 1⟩) b' ∧
      b'.database.others = [⟨"g", 0⟩] := by
  have hx : Failing overloaded := fun _ _ => ⟨_, rfl, Or.inr (by decide)⟩
  have he : unavailable.Asks (π := Unit) overloaded (some "token") := fun _ _ _ => rfl
  obtain ⟨fuel, e, b', hrun, hcode, hlost⟩ :=
    synchronizeBatches_outage (b := beforehand ⟨"k", 1⟩) hx he (by decide)
  rw [if_pos (by decide)] at hlost
  obtain ⟨height, ⟨hpos, hfirst, -, -⟩, hleft⟩ := hlost.others
  have hone : height = 1 := Nat.le_antisymm hfirst hpos
  rw [hone] at hleft
  exact ⟨fuel, e, b', hrun, hcode, hlost, hleft⟩

end LibCoreCmd.Synchronizer

import LibCoreCmd.Tools.Matching

/-! The loop of the core's synchronizer over the explorer: it asks again, from the block of
the last transaction it received, as long as the answer says that there is more. -/
namespace LibCoreCmd.Tools

variable {bc : Blockchain TransactionOutput} {before after : List ChainBlock}
  {b : ChainBlock} {addresses : Finset Address} {limit : Nat}

/-- What the synchronizer keeps of the last block it has seen. -/
structure BatchState where
  blockHeight : Nat := 0
  blockHash : Hash := ""
deriving DecidableEq, Repr

def BatchState.ofHeader (header : BlockHeader) : BatchState := ⟨header.height, header.hash⟩

/-- Start again from the block seen last. -/
def BatchState.restart (batchState : BatchState) : Option Hash := some batchState.blockHash

/-- The core starts again from the first block when the last one has height zero. -/
def BatchState.request (batchState : BatchState) : Option Hash :=
  if 0 < batchState.blockHeight then some batchState.blockHash else none

def BatchState.afterBulk (batchState : BatchState) (bulk : List ChainTransaction) : BatchState :=
  match bulk.getLast? with
  | none => batchState
  | some tr =>
    match tr.blockHeader with
    | none => batchState
    | some lastBlock => .ofHeader lastBlock

/-- The bulks received in one batch, if the last of them comes within `fuel` requests. -/
def synchronizeBatch (e : Explorer) (addresses : Finset Address) (limit : Nat)
    (request : BatchState → Option Hash) :
    Nat → BatchState → Option (List (List ChainTransaction))
  | 0, _ => none
  | fuel + 1, batchState =>
    match e.getTransactions addresses (request batchState) limit with
    | .error _ => none
    | .ok (bulk, hasNext) =>
      if hasNext then
        (synchronizeBatch e addresses limit request fuel
          (batchState.afterBulk bulk)).map (bulk :: ·)
      else some [bulk]

/-- A request made after block `b` is answered as one from the hash of `b`. -/
def Resumes (bc : Blockchain TransactionOutput) (addresses : Finset Address) (limit : Nat)
    (request : BatchState → Option Hash) (b : ChainBlock) : Prop :=
  (Explorer.new bc).getTransactions addresses (request (.ofHeader b.header)) limit =
    (Explorer.new bc).getTransactions addresses (some b.header.hash) limit

theorem afterBulk_of_mem {batchState : BatchState} {bulk : List ChainTransaction}
    {tr : ChainTransaction} (hl : bulk.getLast? = some tr) (hm : tr ∈ matching addresses b) :
    batchState.afterBulk bulk = .ofHeader b.header := by
  simp only [BatchState.afterBulk, hl, b.linked tr (List.mem_of_mem_filter hm)]

/-- The loop reads the matching transactions page by page. -/
theorem synchronizeBatch_eq {request : BatchState → Option Hash}
    (hd : (hashes bc.blocks).Nodup) (hb : bc.blocks = before ++ after) (hl : 0 < limit)
    (hr : ∀ b ∈ after, Resumes bc addresses limit request b) (fuel : Nat) {i : Nat}
    (hi : i < after.length) :
    synchronizeBatch (.new bc) addresses limit request fuel (.ofHeader after[i].header) =
      Paging.collect limit (after.map (matching addresses)) fuel i := by
  induction fuel generalizing i with
  | zero => rfl
  | succ fuel ih =>
    have hsplit : bc.blocks = (before ++ after.take i) ++ after[i] :: after.drop (i + 1) := by
      rw [hb, List.append_assoc, ← List.drop_eq_getElem_cons hi, List.take_append_drop]
    have hanswer : (Explorer.new bc).getTransactions addresses
        (request (.ofHeader after[i].header)) limit =
        .ok (Paging.page limit ((after.map (matching addresses)).drop i)) := by
      rw [hr _ (List.getElem_mem hi), Explorer.getTransactions_new hd hsplit,
        ← List.drop_eq_getElem_cons hi, List.map_drop]
    rw [synchronizeBatch, hanswer, Paging.collect]
    cases ht : (Paging.page limit ((after.map (matching addresses)).drop i)).2 with
    | false => simp [ht]
    | true =>
      obtain ⟨k, hk, tr, hcut, hlast, hm⟩ := Paging.page_getLast hl ht
      rw [List.length_drop, List.length_map] at hk
      rw [List.getElem_drop, List.getElem_map] at hm
      rw [hcut, show i + (k + 1) - 1 = i + k by omega, ← ih (by omega)]
      simp [ht, afterBulk_of_mem hlast hm]

theorem covers_iff_of_resumes {request : BatchState → Option Hash}
    (hd : (hashes bc.blocks).Nodup) (hb : bc.blocks = before ++ b :: after) (hl : 0 < limit)
    (hr : ∀ c ∈ b :: after, Resumes bc addresses limit request c) :
    (∃ fuel pages, synchronizeBatch (.new bc) addresses limit request fuel
          (.ofHeader b.header) = some pages ∧
        Paging.Covers ((transactions (b :: after)).filter (touches addresses)) pages) ↔
      Paging.Passable limit ((b :: after).map (matching addresses)) := by
  have hsame : ∀ fuel, synchronizeBatch (.new bc) addresses limit request fuel
      (.ofHeader b.header) = Paging.collect limit ((b :: after).map (matching addresses)) fuel 0 :=
    fun fuel => synchronizeBatch_eq (i := 0) hd hb hl hr fuel (Nat.zero_lt_succ _)
  simp only [hsame, ← flatten_matching]
  exact Paging.collect_covers_iff hl

/-- Synchronizing from any block on ends, with every matching transaction received and each
later page holding one not received before, exactly when no block with as many matching
transactions as fit on a page is followed by a further one. -/
theorem synchronizeBatch_covers_iff (hd : (hashes bc.blocks).Nodup)
    (hb : bc.blocks = before ++ b :: after) (hl : 1 ≤ limit) :
    (∃ fuel pages, synchronizeBatch (.new bc) addresses limit BatchState.restart fuel
          (.ofHeader b.header) = some pages ∧
        Paging.Covers ((transactions (b :: after)).filter (touches addresses)) pages) ↔
      Paging.Passable limit ((b :: after).map (matching addresses)) :=
  covers_iff_of_resumes hd hb hl fun _ _ => rfl

/-- The core synchronizes in the same way from the first block of a chain whose other blocks
have positive heights. -/
theorem core_synchronizeBatch_covers_iff (hd : (hashes bc.blocks).Nodup)
    (hb : bc.blocks = b :: after) (hh : ∀ c ∈ after, 0 < c.header.height) (hl : 1 ≤ limit) :
    (∃ fuel pages, synchronizeBatch (.new bc) addresses limit BatchState.request fuel
          (.ofHeader b.header) = some pages ∧
        Paging.Covers ((transactions (b :: after)).filter (touches addresses)) pages) ↔
      Paging.Passable limit ((b :: after).map (matching addresses)) := by
  refine covers_iff_of_resumes hd (hb.trans (List.nil_append _).symm) hl fun c hc => ?_
  by_cases hpos : 0 < c.header.height
  · simp [Resumes, BatchState.request, BatchState.ofHeader, hpos]
  · have hcb : c = b := (List.mem_cons.mp hc).resolve_right fun h => hpos (hh c h)
    subst hcb
    simp [Resumes, BatchState.request, BatchState.ofHeader, hpos, Explorer.getTransactions,
      Explorer.new, hb]

/-- A block with two payments, and one more payment in the next block. -/
def crowdedBlocks : List ChainBlock :=
  [.new 1 "b1" "b0" [received, received], .new 2 "b2" "b1" [received]]

def crowdedChain : Blockchain TransactionOutput where
  blocks := .new 0 "b0" "" [] :: crowdedBlocks

/-- Pages of three pass the block with two payments. -/
theorem synchronizeBatch_covers_crowded : ∃ fuel pages,
    synchronizeBatch (.new crowdedChain) {"ours"} 3 BatchState.restart fuel
      (.ofHeader (.new 0 "b0")) = some pages ∧
    Paging.Covers ((transactions crowdedChain.blocks).filter (touches {"ours"})) pages := by
  have hb : crowdedChain.blocks = [] ++ .new 0 "b0" "" [] :: crowdedBlocks := rfl
  exact (synchronizeBatch_covers_iff (by decide) hb (by decide)).mpr (by decide)

/-- Pages of two never do. -/
theorem synchronizeBatch_stuck_crowded : (hashes crowdedChain.blocks).Nodup ∧
    ∀ fuel, synchronizeBatch (.new crowdedChain) {"ours"} 2 BatchState.restart fuel
      (.ofHeader (.new 0 "b0")) = none := by
  refine ⟨by decide, fun fuel => ?_⟩
  have hb : crowdedChain.blocks = [] ++ .new 0 "b0" "" [] :: crowdedBlocks := rfl
  have hr : ∀ b ∈ .new 0 "b0" "" [] :: crowdedBlocks,
      Resumes crowdedChain {"ours"} 2 BatchState.restart b := fun _ _ => rfl
  exact (synchronizeBatch_eq (i := 0) (by decide) hb (by decide) hr fuel (by decide)).trans
    (Paging.collect_stuck (j := 1) (by decide) (by decide) (by decide) (by decide) (by decide) fuel)

end LibCoreCmd.Tools

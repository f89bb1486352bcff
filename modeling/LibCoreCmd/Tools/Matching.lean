import LibCoreCmd.Tools.Explorer

/-! What a request should find: every transaction that pays or spends from the addresses. -/
namespace LibCoreCmd.Tools

variable {bc : Blockchain TransactionOutput} {before after blocks : List ChainBlock}
  {b : ChainBlock} {addresses : Finset Address} {limit i : Nat} {e : Explorer} {h : Hash}

def Pays (addresses : Finset Address) (tr : ChainTransaction) : Prop :=
  ∃ out ∈ tr.outputs, out.address ∈ addresses

def Spends (addresses : Finset Address) (tr : ChainTransaction) : Prop :=
  ∃ inp ∈ tr.inputs, inp.transactionOutput.address ∈ addresses

instance : DecidablePred (Pays addresses) := fun tr =>
  inferInstanceAs (Decidable (∃ out ∈ tr.outputs, out.address ∈ addresses))

instance : DecidablePred (Spends addresses) := fun tr =>
  inferInstanceAs (Decidable (∃ inp ∈ tr.inputs, inp.transactionOutput.address ∈ addresses))

/-- The transactions that concern the addresses, in chain order. -/
def concerned (addresses : Finset Address) (blocks : List ChainBlock) : List ChainTransaction :=
  (transactions blocks).filter fun tr => Pays addresses tr ∨ Spends addresses tr

theorem flatten_matching : (blocks.map (matching addresses)).flatten =
    (transactions blocks).filter (touches addresses) := by
  rw [transactions, List.filter_flatMap, List.flatMap_def]
  rfl

theorem length_matching_le :
    (blocks.map (matching addresses)).flatten.length ≤ (concerned addresses blocks).length := by
  rw [flatten_matching, concerned, ← List.countP_eq_length_filter, ← List.countP_eq_length_filter]
  refine List.countP_mono_left fun tr _ ht => ?_
  exact decide_eq_true (Or.inl (touches_iff.mp ht))

/-- The test finds all that concerns the addresses exactly when each spend also pays them. -/
theorem filter_touches_eq_concerned_iff :
    (transactions blocks).filter (touches addresses) = concerned addresses blocks ↔
      ∀ tr ∈ transactions blocks, Spends addresses tr → Pays addresses tr := by
  constructor
  · intro he tr htr hs
    have hc : tr ∈ concerned addresses blocks :=
      List.mem_filter.mpr ⟨htr, decide_eq_true (Or.inr hs)⟩
    rw [← he] at hc
    exact touches_iff.mp (List.mem_filter.mp hc).2
  · intro hp
    refine List.filter_congr fun tr htr => ?_
    rw [Bool.eq_iff_iff, touches_iff, decide_eq_true_iff]
    exact ⟨Or.inl, fun h => h.elim id (hp tr htr)⟩

/-- A request with room for the answer gets all that concerns its addresses, from the start
block on, exactly when each transaction there that spends from them also pays them. -/
theorem getTransactions_complete_iff (hd : (hashes bc.blocks).Nodup)
    (hb : bc.blocks = before ++ b :: after)
    (hl : (concerned addresses (b :: after)).length < limit) :
    (Explorer.new bc).getTransactions addresses (some b.header.hash) limit =
        .ok (concerned addresses (b :: after), false) ↔
      ∀ tr ∈ transactions (b :: after), Spends addresses tr → Pays addresses tr := by
  have hsmall : ((b :: after).map (matching addresses)).flatten.length < limit :=
    Nat.lt_of_le_of_lt length_matching_le hl
  rw [Explorer.getTransactions_new hd hb, Paging.page_of_small hsmall, flatten_matching,
    ← filter_touches_eq_concerned_iff, Except.ok.injEq, Prod.mk.injEq]
  exact and_iff_left rfl

/-- The transactions that pass the test, in chain order. -/
def found (addresses : Finset Address) (blocks : List ChainBlock) : List ChainTransaction :=
  (transactions blocks).filter (touches addresses)

theorem found_eq : found addresses blocks = (blocks.map (matching addresses)).flatten :=
  flatten_matching.symm

/-- A page holds what whole blocks hold, and says truly whether anything is left out; if so it
holds `limit` transactions, and without its last block with any it would hold fewer. -/
theorem getTransactions_aligned (hi : e.index h = some i) (hl : 1 ≤ limit) :
    ∃ res truncated, e.getTransactions addresses (some h) limit = .ok (res, truncated) ∧
      (∃ k, res = found addresses ((e.blocks.drop i).take k)) ∧
      (truncated = true ↔
        res <+: found addresses (e.blocks.drop i) ∧ res ≠ found addresses (e.blocks.drop i)) ∧
      (truncated = true → limit ≤ res.length ∧ ∃ past last later,
        e.blocks.drop i = past ++ last :: later ∧
        res = found addresses past ++ matching addresses last ∧ matching addresses last ≠ [] ∧
        (found addresses past).length < limit) := by
  have ha := Paging.page_aligned hl ((e.blocks.drop i).map (matching addresses))
  generalize hp : Paging.page limit ((e.blocks.drop i).map (matching addresses)) = p at ha
  obtain ⟨res, truncated⟩ := p
  refine ⟨res, truncated, by rw [Explorer.getTransactions_index hi, hp], ?_, ?_, fun ht => ?_⟩
  · obtain ⟨k, hk⟩ := ha.whole
    exact ⟨k, by rw [found_eq, List.map_take, ← hk]⟩
  · rw [found_eq]
    exact ha.reported
  · obtain ⟨hlen, k, hk, hres, hne, hless⟩ := ha.minimal ht
    have hk' : k < (e.blocks.drop i).length := by simpa using hk
    rw [List.getElem_map] at hres hne
    rw [← List.map_take, ← found_eq] at hres hless
    refine ⟨hlen, (e.blocks.drop i).take k, (e.blocks.drop i)[k], (e.blocks.drop i).drop (k + 1),
      ?_, hres, hne, hless⟩
    rw [← List.drop_eq_getElem_cons hk', List.take_append_drop]

/-- A payment to `ours` of what is asked for, as the first block after the genesis block. -/
def received : ChainTransaction :=
  .new "t1" [{ transactionOutput := ⟨"root", 5, some 0, some "t0"⟩ }]
    [⟨"ours", 5, some 0, some "t1"⟩]

/-- All of it is sent on, so that no change comes back. -/
def emptied : ChainTransaction :=
  .new "t2" [{ transactionOutput := ⟨"ours", 5, some 0, some "t1"⟩ }]
    [⟨"root", 5, some 0, some "t2"⟩]

def fundedChain : Blockchain TransactionOutput where
  blocks := [.new 0 "b0" "" [], .new 1 "b1" "b0" [received]]

def emptiedChain : Blockchain TransactionOutput where
  blocks := fundedChain.blocks ++ [.new 2 "b2" "b1" [emptied]]

theorem getTransactions_complete_funded :
    (Explorer.new fundedChain).getTransactions {"ours"} (some "b0") 200 =
      .ok (concerned {"ours"} fundedChain.blocks, false) := by
  have hb : fundedChain.blocks = [] ++ .new 0 "b0" "" [] :: [.new 1 "b1" "b0" [received]] := rfl
  exact (getTransactions_complete_iff (by decide) hb (by decide)).mpr (by decide)

/-- A page of one transaction, which leaves the second one out. -/
theorem getTransactions_aligned_one : ∃ res truncated,
    (Explorer.new emptiedChain).getTransactions {"ours", "root"} (some "b0") 1 =
        .ok (res, truncated) ∧
      truncated = true ∧ (∃ k, res = found {"ours", "root"} (emptiedChain.blocks.take k)) ∧
      1 ≤ res.length := by
  have hi : (Explorer.new emptiedChain).index "b0" = some 0 := by decide
  obtain ⟨res, truncated, hok, hwhole, -, hmin⟩ :=
    @getTransactions_aligned {"ours", "root"} _ _ _ _ hi (Nat.le_refl 1)
  have ht : truncated = true := by
    have h : (((Explorer.new emptiedChain).getTransactions {"ours", "root"} (some "b0") 1).map
        (·.2)).toOption = some true := by decide
    rw [hok] at h
    exact Option.some.inj h
  exact ⟨res, truncated, hok, ht, hwhole, (hmin ht).1⟩

/-- The explorer does not see the transaction that empties the wallet. -/
theorem getTransactions_misses_spend :
    (hashes emptiedChain.blocks).Nodup ∧
    (concerned {"ours"} emptiedChain.blocks).map (·.txHash) = ["t1", "t2"] ∧
    (Explorer.new emptiedChain).getTransactions {"ours"} (some "b0") 200 ≠
      .ok (concerned {"ours"} emptiedChain.blocks, false) := by
  refine ⟨by decide, by decide, fun h => ?_⟩
  exact absurd (congrArg (fun r => r.toOption.map (·.1.length)) h) (by decide)

end LibCoreCmd.Tools

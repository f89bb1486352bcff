import LibCoreCmd.Synchronizer.Reading

/-! Synchronizing after a reorganization: from saved blocks of a chain that is no more the
synchronizer finds its way back to blocks that both chains have, and on from there. -/
namespace LibCoreCmd.Synchronizer
open Async Explorers
open Tools (Hash Address)

variable {τ : Type} [ExplorerTransaction τ] {env : Env τ} {fuel fuel' i j k p limit : Nat}
  {b b' b₀ b₁ : Buddy τ} {had : Bool} {e : Exception} {concerns : List Address → τ → Bool}
  {tx : τ} {kept after : List (ChainBlock τ)} {stale : List Block} {s : BatchSavedState}
  {out : Try Unit × Buddy τ} {last : Option Block}

/-- The chain is `kept` and then `after`; the chain that was went from `kept` on to `stale`. -/
structure Forked (kept after : List (ChainBlock τ)) (stale : List Block) : Prop where
  ordered : Ordered (kept ++ after)
  gone : ∀ x ∈ stale, ∀ c ∈ kept ++ after, c.header.hash ≠ x.hash
  above : ∀ x ∈ stale, 0 < x.height ∧ ∀ c ∈ kept, c.header.height < x.height
  small : ∀ x ∈ stale, x.height < 2 ^ 32

/-- A batch is new or was read up to a block that is still there. -/
def OnKept (kept : List (ChainBlock τ)) (s : BatchSavedState) : Prop :=
  s.blockHeight = 0 ∨ ∃ c ∈ kept, s = .ofHeader c.header

def Stale (stale : List Block) (s : BatchSavedState) : Prop := ∃ x ∈ stale, s = .ofHeader x

def Received (b : Buddy τ) (tx : τ) : Prop := ∃ r ∈ b.requests, tx ∈ r.transactions

/-- A transaction of a block below `height` that is still there. -/
def Known (kept : List (ChainBlock τ)) (height : Nat) (tx : τ) : Prop :=
  ∃ c ∈ kept, tx ∈ c.transactions ∧ c.header.height < height

omit [ExplorerTransaction τ] in
theorem Received.mono (h : Received b tx) (hp : b.requests <+: b'.requests) : Received b' tx := by
  obtain ⟨r, hr, htx⟩ := h
  exact ⟨r, hp.subset hr, htx⟩

theorem Known.mono {height height' : Nat} (h : Known kept height tx) (hh : height ≤ height') :
    Known kept height' tx := by
  obtain ⟨c, hc, htx, hlt⟩ := h
  exact ⟨c, hc, htx, by omega⟩

/-- A batch that was read lets the next be read, or is the last. -/
theorem synchronizeBatches_next
    (h : env.synchronizeBatch i fuel false (b.addBatch i) = some (.ok had, b₁))
    (hg : env.goesOn i (b.done i) had = true)
    (hn : env.synchronizeBatches fuel' ((i + 1) % 2 ^ 32) b₁.store = some out) :
    ∃ fuel, env.synchronizeBatches fuel i b = some out := by
  refine ⟨max fuel fuel' + 1, ?_⟩
  rw [synchronizeBatches_succ, synchronizeBatch_mono (Nat.le_max_left _ _) h]
  simp only [Option.bind_some, hg, if_true]
  exact synchronizeBatches_mono (Nat.le_max_right _ _) hn

theorem synchronizeBatches_stop
    (h : env.synchronizeBatch i fuel false (b.addBatch i) = some (.ok had, b₁))
    (hg : env.goesOn i (b.done i) had = false) :
    env.synchronizeBatches (fuel + 1) i b = some (.ok (), b₁.store) := by
  rw [synchronizeBatches_succ, h]
  simp [hg]

theorem synchronizeBatches_retry
    (h : env.synchronizeBatch i fuel false (b.addBatch i) = some (.error e, b₁))
    (he : e.errorCode = .blockNotFound) (hh : 0 < (b₁.batch i).blockHeight)
    (hn : env.synchronizeBatches fuel' i (env.recover i b₁) = some out) :
    ∃ fuel, env.synchronizeBatches fuel i b = some out := by
  refine ⟨max fuel fuel' + 1, ?_⟩
  rw [synchronizeBatches_succ, synchronizeBatch_mono (Nat.le_max_left _ _) h]
  simp only [Option.bind_some, he, if_true, hh]
  exact synchronizeBatches_mono (Nat.le_max_right _ _) hn

/-- A batch at a block that is still there stands on the chain, above known blocks only. -/
theorem OnKept.stands (hf : Forked kept after stale) (h : OnKept kept s) :
    ∃ p, Stands (kept ++ after) s p ∧ ∀ q (hq : q < (kept ++ after).length), q < p →
      (kept ++ after)[q] ∈ kept ∧ (kept ++ after)[q].header.height < s.blockHeight := by
  rcases h with hz | ⟨c, hc, rfl⟩
  · exact ⟨0, Or.inl ⟨hz, rfl⟩, fun q _ hq => by omega⟩
  · obtain ⟨p, hp, rfl⟩ := List.getElem_of_mem hc
    refine ⟨p, Or.inr ⟨kept[p], ?_, rfl⟩, fun q hq hqp => ⟨?_, ?_⟩⟩
    · rw [List.getElem?_append_left hp, List.getElem?_eq_getElem hp]
    · rw [List.getElem_append_left (by omega)]
      exact List.getElem_mem _
    · have hlt := List.pairwise_iff_getElem.mp hf.ordered.heights q p hq
        (by rw [List.length_append]; omega) hqp
      rw [List.getElem_append_left hp] at hlt
      exact hlt

/-- What concerns a batch is after the block at which it stands, or known. -/
theorem concerned_or_known
    (hp : ∀ q (hq : q < (kept ++ after).length), q < p →
      (kept ++ after)[q] ∈ kept ∧ (kept ++ after)[q].header.height < s.blockHeight)
    (htx : tx ∈ env.concerned concerns (kept ++ after) i 0) :
    tx ∈ env.concerned concerns (kept ++ after) i p ∨ Known kept s.blockHeight tx := by
  rw [Env.concerned, List.drop_zero, ← List.take_append_drop p
    (concerning concerns (env.batchAddresses i) (kept ++ after)), List.flatten_append,
    List.mem_append] at htx
  rcases htx with htx | htx
  · obtain ⟨txs, hm, htx⟩ := List.mem_flatten.mp htx
    obtain ⟨q, hq, rfl⟩ := List.getElem_of_mem hm
    simp only [List.length_take, concerning, List.length_map] at hq
    simp only [concerning, List.getElem_take, List.getElem_map, List.mem_filter] at htx
    obtain ⟨hk, hlt⟩ := hp q (by omega) (by omega)
    exact Or.inr ⟨_, hk, htx.1, hlt⟩
  · exact Or.inl htx

/-- The batches before `i` have been read, the others stand where they stood, or further back. -/
structure Progress (env : Env τ) (concerns : List Address → τ → Bool)
    (kept after : List (ChainBlock τ)) (b₀ : Buddy τ) (i : Nat) (b : Buddy τ) : Prop where
  standing : ∀ j, i ≤ j → OnKept kept (b.batch j) ∧
    (b.batch j).blockHeight ≤ (b₀.batch j).blockHeight
  read : ∀ j < i, ∀ tx ∈ env.concerned concerns (kept ++ after) j 0,
    Received b tx ∨ Known kept (b₀.batch j).blockHeight tx
  length : b.batches.length = max b₀.batches.length i

/-- There is a batch at which the search is over. -/
structure Stops (env : Env τ) (concerns : List Address → τ → Bool)
    (chain : List (ChainBlock τ)) (b₀ : Buddy τ) (k : Nat) : Prop where
  positive : 0 < k
  small : k < 2 ^ 32
  saved : b₀.batches.length ≤ k + 1
  range : env.lastDiscoverableAddress ≤ env.discoveredAddresses k
  empty : env.concerned concerns chain k 0 = []

theorem Progress.next (hs : env.Serves concerns limit (kept ++ after))
    (hf : Forked kept after stale) (hl : 0 < limit)
    (hpass : Paging.Passable limit (concerning concerns (env.batchAddresses i) (kept ++ after)))
    (hb : Progress env concerns kept after b₀ i b) :
    ∃ fuel had b₁, env.synchronizeBatch i fuel false (b.addBatch i) = some (.ok had, b₁) ∧
      b₁.batches.length = max b.batches.length (i + 1) ∧
      Progress env concerns kept after b₀ (i + 1) b₁.store ∧
      (env.concerned concerns (kept ++ after) i 0 = [] → had = false) := by
  obtain ⟨hon, hlow⟩ := hb.standing i le_rfl
  obtain ⟨p, hstands, hbelow⟩ := hon.stands hf
  have hgrown := hb.length
  have hadd := length_addBatch b i (by omega)
  have hi : i < (b.addBatch i).batches.length := by omega
  obtain ⟨fuel, b₁, pages, hread, hr, hmem⟩ := synchronizeBatch_reads (p := p) hs hf.ordered hl
    hi (by rw [batch_addBatch]; exact hstands) hpass
  obtain ⟨pass, hreq, hpages⟩ := hr.requests
  rw [requests_addBatch] at hreq
  have hlen := hr.length.trans hadd
  refine ⟨fuel, _, b₁, hread, hlen, ⟨?_, ?_, ?_⟩, ?_⟩
  · intro j hj
    rw [batch_store, hr.others j (by omega), batch_addBatch]
    exact hb.standing j (by omega)
  · intro j hj tx htx
    rcases Nat.lt_or_ge j i with hji | hji
    · rcases hb.read j hji tx htx with hrec | hknown
      · have hpre : b.requests <+: b₁.store.requests := by simp [hreq]
        exact Or.inl (hrec.mono hpre)
      · exact Or.inr hknown
    · obtain rfl : j = i := by omega
      rcases concerned_or_known hbelow htx with htx | hknown
      · obtain ⟨page, hpage, htx⟩ := (hmem tx).mpr htx
        rw [← hpages] at hpage
        obtain ⟨r, hrpass, rfl⟩ := List.mem_map.mp hpage
        exact Or.inl ⟨r, by simp [hreq, hrpass], htx⟩
      · exact Or.inr (hknown.mono hlow)
  · simp only [batches_store]
    omega
  · intro hnone
    have hrest : env.concerned concerns (kept ++ after) i p = [] := by
      rw [Env.concerned, List.drop_zero] at hnone
      exact Paging.flatten_drop_eq_nil (i := 0) (by omega) (by simpa using hnone)
    simp [hrest]

theorem Progress.over (heth : env.isETHWallet = false)
    (hk : Stops env concerns (kept ++ after) b₀ k)
    (hb : Progress env concerns kept after b₀ k b) : env.goesOn k (b.done k) false = false := by
  obtain ⟨hpos, hsmall, hsaved, hrange, -⟩ := hk
  have hlen := hb.length
  refine (goesOn_eq_false heth).mpr ⟨?_, rfl, hrange⟩
  simp only [Buddy.done, decide_eq_true_eq]
  omega

/-- From batches at blocks that are still there the synchronization comes to its end. -/
theorem Progress.ends (hs : env.Serves concerns limit (kept ++ after))
    (hf : Forked kept after stale) (hl : 0 < limit) (heth : env.isETHWallet = false)
    (hpass : ∀ i,
      Paging.Passable limit (concerning concerns (env.batchAddresses i) (kept ++ after)))
    (hk : Stops env concerns (kept ++ after) b₀ k) (hi : i ≤ k)
    (hb : Progress env concerns kept after b₀ i b) :
    ∃ fuel b', env.synchronizeBatches fuel i b = some (.ok (), b') ∧
      b₀.batches.length ≤ b'.batches.length ∧
      Progress env concerns kept after b₀ b'.batches.length b' := by
  induction hn : k - i generalizing i b with
  | zero =>
    obtain rfl : i = k := by omega
    obtain ⟨fuel, had, b₁, hread, hlen, hnext, hnone⟩ := hb.next hs hf hl (hpass i)
    have hover := hb.over heth hk
    rw [hnone hk.empty] at hread
    have hsaved := hk.saved
    have hblen := hb.length
    have hend : b₁.store.batches.length = i + 1 := by
      simp only [batches_store]
      omega
    exact ⟨_, _, synchronizeBatches_stop hread hover, by omega, by rw [hend]; exact hnext⟩
  | succ n ih =>
    obtain ⟨fuel, had, b₁, hread, hlen, hnext, -⟩ := hb.next hs hf hl (hpass i)
    have hsmall := hk.small
    have hsaved := hk.saved
    have hblen := hb.length
    cases hg : env.goesOn i (b.done i) had with
    | true =>
      obtain ⟨fuel', b', hb', hend⟩ := ih (by omega) hnext (by omega)
      rw [← Nat.mod_eq_of_lt (by omega : i + 1 < 2 ^ 32)] at hb'
      obtain ⟨fuel, hall⟩ := synchronizeBatches_next hread hg hb'
      exact ⟨fuel, b', hall, hend⟩
    | false =>
      have hdone := le_of_done (by omega) ((goesOn_eq_false heth).mp hg).1
      have hend : b₁.store.batches.length = i + 1 := by
        simp only [batches_store]
        omega
      exact ⟨_, _, synchronizeBatches_stop hread hg, by omega, by rw [hend]; exact hnext⟩

/-- Before anything is read: batches at blocks of the two chains, and rows of the chain that was,
or of blocks not below the one the first batch was at. The first batch has lost its block, or none
has. -/
structure Waiting (kept : List (ChainBlock τ)) (stale : List Block) (b₀ b : Buddy τ) : Prop where
  batches : ∀ j, (OnKept kept (b.batch j) ∨ Stale stale (b.batch j)) ∧
    (b.batch j).blockHeight ≤ (b₀.batch j).blockHeight
  rows : ∀ x ∈ b.database.blocks, (x ∈ stale ∨ ∃ c ∈ kept, x = c.header) ∨
    (b₀.batch 0).blockHeight ≤ x.height
  first : Stale stale (b.batch 0) ∨ ∀ j, OnKept kept (b.batch j)
  length : b.batches.length = b₀.batches.length

theorem Stale.positive (hf : Forked kept after stale) (h : Stale stale s) : 0 < s.blockHeight := by
  obtain ⟨x, hx, rfl⟩ := h
  exact (hf.above x hx).1

omit [ExplorerTransaction τ] in
/-- A batch that was read is there. -/
theorem lt_length_of_pos (h : 0 < (b.batch i).blockHeight) : i < b.batches.length := by
  by_contra hlen
  simp [Buddy.batch, List.getD_eq_getElem?_getD, List.getElem?_eq_none (Nat.le_of_not_lt hlen),
    BatchSavedState.fresh] at h

omit [ExplorerTransaction τ] in
theorem addBatch_of_pos (h : 0 < (b.batch i).blockHeight) : b.addBatch i = b :=
  if_neg (Nat.not_le_of_lt (lt_length_of_pos h))

/-- Going back leads to the last block that is left, from wherever that is lower. -/
theorem rewind_cases (hlast : ∀ x, last = some x → x.height < 2 ^ 32) :
    (rewind last s = s ∧ s.blockHeight ≤ last.elim 0 Block.height) ∨
    (rewind last s = last.elim .fresh .ofHeader ∧ last.elim 0 Block.height < s.blockHeight) := by
  unfold rewind
  by_cases hlt : last.elim 0 Block.height < s.blockHeight
  · refine Or.inr ⟨?_, hlt⟩
    simp only [hlt, if_true]
    cases last with
    | none => rfl
    | some x => exact congrArg _ (Nat.mod_eq_of_lt (hlast x rfl))
  · exact Or.inl ⟨by simp_all, by omega⟩

theorem rewind_le (hlast : ∀ x, last = some x → x.height < 2 ^ 32) :
    (rewind last s).blockHeight ≤ s.blockHeight := by
  rcases rewind_cases (s := s) hlast with ⟨he, -⟩ | ⟨he, hlt⟩
  · rw [he]
  · rw [he]
    cases last with
    | none => exact Nat.zero_le _
    | some x => exact Nat.le_of_lt hlt

/-- Going back to a block that is still there, or to the start, leaves no batch at one that
is gone. -/
theorem onKept_rewind (hf : Forked kept after stale)
    (hlast : ∀ x, last = some x → x.height < 2 ^ 32 ∧ ∃ c ∈ kept, x = c.header)
    (hs : OnKept kept s ∨ Stale stale s) : OnKept kept (rewind last s) := by
  rcases rewind_cases (s := s) (fun x hx => (hlast x hx).1) with ⟨he, hle⟩ | ⟨he, -⟩
  · rw [he]
    rcases hs with hs | ⟨y, hy, rfl⟩
    · exact hs
    · exfalso
      cases hl : last with
      | none =>
        have hpos := (hf.above y hy).1
        simp only [hl, BatchSavedState.ofHeader, Option.elim_none] at hle
        omega
      | some x =>
        obtain ⟨-, c, hc, rfl⟩ := hlast x hl
        have habove := (hf.above y hy).2 c hc
        simp only [hl, BatchSavedState.ofHeader, Option.elim_some] at hle
        omega
  · rw [he]
    cases hl : last with
    | none => exact Or.inl rfl
    | some x =>
      obtain ⟨-, c, hc, rfl⟩ := hlast x hl
      exact Or.inr ⟨c, hc, rfl⟩

/-- Going back from a block that is gone: none of the batches is at such a block any more, or
the first is at one that is lower. -/
theorem Waiting.recover (hf : Forked kept after stale) (hw : Waiting kept stale b₀ b)
    (hst : Stale stale (b.batch 0)) : Waiting kept stale b₀ (env.recover 0 b) ∧
      ((∀ j, OnKept kept ((env.recover 0 b).batch j)) ∨
        Stale stale ((env.recover 0 b).batch 0) ∧
          ((env.recover 0 b).batch 0).blockHeight < (b.batch 0).blockHeight) := by
  obtain ⟨y, hy, hfirst⟩ := hst
  have hyheight : (b.batch 0).blockHeight = y.height := by rw [hfirst]; rfl
  have hlow : ∀ x ∈ (env.recover 0 b).database.blocks,
      (x ∈ stale ∨ ∃ c ∈ kept, x = c.header) ∧ x.height < y.height := by
    intro x hx
    have hle := (hw.batches 0).2
    rw [mem_blocks_recover, hyheight] at hx
    exact ⟨(hw.rows x hx.1).resolve_right (by omega), hx.2⟩
  have hsmall : ∀ x, env.lastLeft 0 b = some x → x.height < 2 ^ 32 := by
    intro x hx
    have := (hlow x (lastLeft_mem hx)).2
    have := hf.small y hy
    omega
  have hrows : ∀ x ∈ (env.recover 0 b).database.blocks,
      (x ∈ stale ∨ ∃ c ∈ kept, x = c.header) ∨ (b₀.batch 0).blockHeight ≤ x.height := by
    intro x hx
    exact Or.inl (hlow x hx).1
  have hle : ∀ j, ((env.recover 0 b).batch j).blockHeight ≤ (b₀.batch j).blockHeight := by
    intro j
    rw [batch_recover]
    exact (rewind_le hsmall).trans (hw.batches j).2
  have hlength : (env.recover 0 b).batches.length = b₀.batches.length := by
    rw [length_batches_recover, hw.length]
  by_cases hgone : ∃ x, env.lastLeft 0 b = some x ∧ x ∈ stale
  · obtain ⟨x, hx, hxs⟩ := hgone
    have hxlow := (hlow x (lastLeft_mem hx)).2
    have hzero : (env.recover 0 b).batch 0 = .ofHeader x := by
      rcases rewind_cases (s := b.batch 0) hsmall with ⟨-, hnot⟩ | ⟨he, -⟩
      · simp only [hx, Option.elim_some, hyheight] at hnot
        omega
      · rw [batch_recover, he, hx]
        rfl
    have hstale : Stale stale ((env.recover 0 b).batch 0) := ⟨x, hxs, hzero⟩
    refine ⟨⟨fun j => ⟨?_, hle j⟩, hrows, Or.inl hstale, hlength⟩, Or.inr ⟨hstale, ?_⟩⟩
    · rcases rewind_cases (s := b.batch j) hsmall with ⟨he, -⟩ | ⟨he, -⟩
      · rw [batch_recover, he]
        exact (hw.batches j).1
      · rw [batch_recover, he, hx]
        exact Or.inr ⟨x, hxs, rfl⟩
    · rw [hzero, hyheight]
      exact hxlow
  · have hkept : ∀ x, env.lastLeft 0 b = some x →
        x.height < 2 ^ 32 ∧ ∃ c ∈ kept, x = c.header := by
      intro x hx
      refine ⟨hsmall x hx, ?_⟩
      exact (hlow x (lastLeft_mem hx)).1.resolve_left fun hxs => hgone ⟨x, hx, hxs⟩
    have hon : ∀ j, OnKept kept ((env.recover 0 b).batch j) := by
      intro j
      rw [batch_recover]
      exact onKept_rewind hf hkept (hw.batches j).1
    exact ⟨⟨fun j => ⟨Or.inl (hon j), hle j⟩, hrows, Or.inr hon, hlength⟩, Or.inl hon⟩

/-- An explorer of one chain, and an account that puts the block of each transaction into the
table. -/
def Env.ofChain (concerns : List Address → τ → Bool) (limit : Nat) (chain : List (ChainBlock τ))
    (halfBatchSize : Nat) (addresses : Nat → Nat → List Address) : Env τ where
  halfBatchSize
  getAllObservableAddresses := addresses
  getTransactions _ addresses blockHash :=
    match blockHash with
    | none => .ok (toBulk (Paging.page limit (concerning concerns addresses chain)))
    | some h =>
      match chain.findIdx? fun c => c.header.hash = h with
      | some i => .ok (toBulk (Paging.page limit (concerning concerns addresses (chain.drop i))))
      | none => .error ⟨.blockNotFound, "Unable to find block with hash " ++ h⟩
  putTransaction database tx :=
    .ok { database with blocks := database.blocks ++ (block tx).toList }
  getLastBlock := highest
  getLastBlock_highest := highest_spec

theorem ofChain_serves {chain : List (ChainBlock τ)} {addresses : Nat → Nat → List Address}
    (hd : (chain.map (·.header.hash)).Nodup) :
    (Env.ofChain concerns limit chain k addresses).Serves concerns limit chain where
  start _ _ := rfl
  resume _ addresses before c after hc := by
    have hfind : chain.findIdx? (fun d => d.header.hash = c.header.hash) =
        some before.length := by
      rw [List.findIdx?_eq_some_iff_getElem]
      subst hc
      refine ⟨by simp, by simp, fun j hj => ?_⟩
      rw [List.map_append, List.nodup_append] at hd
      have hne := hd.2.2 _ (List.mem_map_of_mem (List.getElem_mem hj)) c.header.hash (by simp)
      simpa [List.getElem_append_left hj] using hne
    simp only [Env.ofChain, hfind]
    rw [hc, List.drop_left]
  missing _ _ h hn := by
    have hfind : chain.findIdx? (fun d => d.header.hash = h) = none := by
      rw [List.findIdx?_eq_none_iff]
      exact fun c hc => by simpa using hn c hc
    exact ⟨⟨.blockNotFound, "Unable to find block with hash " ++ h⟩,
      by simp only [Env.ofChain, hfind], rfl⟩
  account _ _ := ⟨_, rfl⟩

/-- A payment to one address. -/
structure Payment where
  id : Hash
  payee : Address
  header : Block
deriving DecidableEq

instance : ExplorerTransaction Payment where
  hash tx := tx.id
  block tx := some tx.header

def paid (addresses : List Address) (tx : Payment) : Bool := addresses.contains tx.payee

def ChainBlock.paying (header : Block) (payments : List (Hash × Address)) : ChainBlock Payment where
  header
  transactions := payments.map fun p => ⟨p.1, p.2, header⟩
  linked tx htx := by
    obtain ⟨p, -, rfl⟩ := List.mem_map.mp htx
    rfl

def keptBlocks : List (ChainBlock Payment) := [.paying ⟨"g", 0⟩ [], .paying ⟨"k", 1⟩ []]

/-- The second address is paid right after the fork, the first one block later. -/
def newBlocks : List (ChainBlock Payment) :=
  [.paying ⟨"n2", 2⟩ [("t2", "second")], .paying ⟨"n3", 3⟩ [("t3", "first")]]

def reorganized : Env Payment :=
  .ofChain paid 10 (keptBlocks ++ newBlocks) 1 fun i _ =>
    if i = 0 then ["first"] else if i = 1 then ["second"] else ["spare"]

/-- A block that is gone had been reached by the second batch, and by the first one `first`. -/
def beforehand (first : Block) : Buddy Payment where
  savedState := { halfBatchSize := 1, batches := [.ofHeader first, .ofHeader ⟨"o4", 4⟩] }
  database := { blocks := [⟨"k", 1⟩, ⟨"o4", 4⟩], others := [⟨"g", 0⟩, ⟨"l", 2⟩] }

/-- If the first batch still has its block and the second has not, the first brings rows of the
new chain into the table, the second goes back to such a row only, and a payment before it is
never received. -/
example : ∃ b' tx,
    reorganized.synchronizeBatches 9 0 (beforehand ⟨"k", 1⟩) = some (.ok (), b') ∧
    tx ∈ reorganized.concerned paid (keptBlocks ++ newBlocks) 1 0 ∧
    (∀ c ∈ keptBlocks, tx ∉ c.transactions) ∧ ∀ r ∈ b'.requests, tx ∉ r.transactions := by
  refine ⟨_, ⟨"t2", "second", ⟨"n2", 2⟩⟩, rfl, by decide, by decide, by decide⟩

end LibCoreCmd.Synchronizer

import LibCoreCmd.Synchronizer.Lifetime

/-! Synchronizing once more when nothing has happened: each batch is asked for once, and stays
where it is. -/
namespace LibCoreCmd.Synchronizer
open Async Explorers
open Tools (Hash Address)

variable {τ : Type} [ExplorerTransaction τ] {env : Env τ} {concerns : List Address → τ → Bool}
  {limit fuel i p : Nat} {chain : List (ChainBlock τ)} {b b' b₀ b₁ : Buddy τ} {had : Bool}
  {s : BatchSavedState} {bs : List (List τ)} {txs : List τ} {r : Try Bool}

/-- There is nothing for a batch from where it stands on. -/
def Exhausted (chain : List (ChainBlock τ)) (bs : List (List τ)) (s : BatchSavedState) : Prop :=
  ∃ p, Stands chain s p ∧ (bs.drop p).flatten = []

/-- Nothing, or only what is in the block at which it stands. -/
def Settled (chain : List (ChainBlock τ)) (bs : List (List τ)) (s : BatchSavedState) : Prop :=
  Exhausted chain bs s ∨ ∃ p c, chain[p]? = some c ∧ s = .ofHeader c.header ∧
    (bs.drop (p + 1)).flatten = []

theorem Settled.stands (h : Settled chain bs s) : ∃ p, Stands chain s p := by
  rcases h with ⟨p, hp, -⟩ | ⟨p, c, hc, he, -⟩
  · exact ⟨p, hp⟩
  · exact ⟨p, Or.inr ⟨c, hc, he⟩⟩

/-- An explorer of this chain answers with a page, and the account takes it. -/
theorem getBulk_served (hs : env.Serves concerns limit chain) (ho : Ordered chain)
    (hp : Stands chain (b.batch i) p)
    (hbs : bs = concerning concerns (env.batchAddresses i) chain) :
    ∃ b₁ : Buddy τ, b₁.batches = b.batches ∧ b₁.requests = b.requests ++ [env.request i b] ∧
      (env.request i b).answer = .ok (toBulk (Paging.page limit (bs.drop p))) ∧
      env.getBulk i b = (.ok (toBulk (Paging.page limit (bs.drop p))),
        b₁.advance i (Paging.page limit (bs.drop p)).1) := by
  have hans := request_answer hs ho hp
  rw [← hbs] at hans
  obtain ⟨b₁, hput, hbatches, hreq⟩ := putTransactions_ok hs.account (b.ask (env.request i b))
    (Paging.page limit (bs.drop p)).1
  exact ⟨b₁, hbatches, hreq, hans, by simp only [Env.getBulk, hans, toBulk, hput]⟩

/-- The transactions of a batch are in blocks of the chain. -/
theorem linked_of_mem {q : Nat} (hbs : bs = concerning concerns (env.batchAddresses i) chain)
    (hq : q < bs.length) {tx : τ} (htx : tx ∈ bs[q]) :
    ∃ c, chain[q]? = some c ∧ block tx = some c.header := by
  subst hbs
  have hlen : q < chain.length := by simpa [concerning] using hq
  simp only [concerning, List.getElem_map] at htx
  exact ⟨chain[q], List.getElem?_eq_getElem hlen,
    chain[q].linked tx (List.mem_of_mem_filter htx)⟩

/-- After its last page a batch is settled. -/
theorem settled_advance (ho : Ordered chain) (hi : i < b.batches.length)
    (hp : Stands chain (b.batch i) p)
    (hbs : bs = concerning concerns (env.batchAddresses i) chain) :
    Settled chain bs ((b.advance i (bs.drop p).flatten).batch i) ∧
      ((bs.drop p).flatten = [] → Exhausted chain bs
        ((b.advance i (bs.drop p).flatten).batch i)) := by
  by_cases hnone : (bs.drop p).flatten = []
  · have hsame : b.advance i (bs.drop p).flatten = b := by rw [hnone]; rfl
    rw [hsame]
    exact ⟨Or.inl ⟨p, hp, hnone⟩, fun _ => ⟨p, hp, hnone⟩⟩
  · refine ⟨?_, fun he => (hnone he).elim⟩
    obtain ⟨k, hk, hlast, hne, hrest⟩ := Paging.last_block hnone
    rw [List.length_drop] at hk
    rw [List.getElem_drop] at hlast hne
    obtain ⟨c, hc, hlinked⟩ := linked_of_mem hbs (by omega) (List.getLast_mem hne)
    have hcmem : c ∈ chain := List.mem_of_getElem? hc
    refine Or.inr ⟨p + k, c, hc, ?_, by rwa [List.drop_drop] at hrest⟩
    exact batch_advance hi (hlast.trans (List.getLast?_eq_some_getLast hne)) hlinked
      (ho.small c hcmem)

/-- On a chain that has the block of the batch it is read to its end. -/
theorem synchronizeBatch_settles (hs : env.Serves concerns limit chain) (ho : Ordered chain)
    (hl : 0 < limit) (hi : i < b.batches.length) (hp : Stands chain (b.batch i) p)
    (hbs : bs = concerning concerns (env.batchAddresses i) chain)
    (h : env.synchronizeBatch i fuel had b = some (r, b')) :
    ∃ had', r = .ok had' ∧ Settled chain bs (b'.batch i) ∧
      (had' = false → Exhausted chain bs (b'.batch i)) ∧ ∀ j, j ≠ i → b'.batch j = b.batch j := by
  induction fuel generalizing had b p with
  | zero => cases h
  | succ fuel ih =>
    obtain ⟨b₁, hbatches, -, -, hg⟩ := getBulk_served hs ho hp hbs
    obtain ⟨b₂, hg₂, hread, hstands⟩ := getBulk_page hs ho hl hi hp hbs
    obtain rfl : b₁.advance i (Paging.page limit (bs.drop p)).1 = b₂ :=
      (Prod.mk.inj (hg.symm.trans hg₂)).2
    simp only [Env.synchronizeBatch, hg] at h
    cases ht : (Paging.page limit (bs.drop p)).2 with
    | true =>
      simp only [toBulk, ht, if_true] at h
      have hi' : i < (b₁.advance i (Paging.page limit (bs.drop p)).1).batches.length := by
        rw [hread.length]
        exact hi
      obtain ⟨had', hr, hsettled, hnone, hothers⟩ := ih hi' (hstands ht) h
      refine ⟨had', hr, hsettled, hnone, fun j hj => ?_⟩
      rw [hothers j hj, hread.others j hj]
    | false =>
      simp only [toBulk, ht, Bool.false_eq_true, if_false, Option.some.injEq,
        Prod.mk.injEq] at h
      obtain ⟨rfl, rfl⟩ := h
      have hothers := hread.others
      rw [Paging.page_eq_of_not_truncated ht] at hothers ⊢
      have hp' : Stands chain (b₁.batch i) p := by rwa [Buddy.batch, hbatches]
      obtain ⟨hsettled, hnone⟩ := settled_advance ho (by rwa [hbatches]) hp' hbs
      refine ⟨_, rfl, hsettled, fun hf => hnone ?_, hothers⟩
      rw [Bool.or_eq_false_iff] at hf
      simpa using hf.2

/-- Batches before `i` are settled, the others stand on the chain. -/
structure Along (env : Env τ) (concerns : List Address → τ → Bool) (chain : List (ChainBlock τ))
    (n i : Nat) (b : Buddy τ) : Prop where
  settled : ∀ j < i, Settled chain (concerning concerns (env.batchAddresses j) chain) (b.batch j)
  stands : ∀ j, i ≤ j → ∃ p, Stands chain (b.batch j) p
  length : b.batches.length = max n i
  small : n ≤ 2 ^ 32

/-- All batches are settled, and there is nothing for the last. -/
structure Still (env : Env τ) (concerns : List Address → τ → Bool) (chain : List (ChainBlock τ))
    (batches : List BatchSavedState) : Prop where
  positive : 0 < batches.length
  small : batches.length ≤ 2 ^ 32
  settled : ∀ j (hj : j < batches.length),
    Settled chain (concerning concerns (env.batchAddresses j) chain) batches[j]
  last : ∀ hj : batches.length - 1 < batches.length, Exhausted chain
    (concerning concerns (env.batchAddresses (batches.length - 1)) chain)
      batches[batches.length - 1]
  range : env.lastDiscoverableAddress ≤ env.discoveredAddresses (batches.length - 1)

omit [ExplorerTransaction τ] in
theorem batch_eq {j : Nat} (hj : j < b.batches.length) : b.batch j = b.batches[j] := by
  simp [Buddy.batch, List.getD_eq_getElem?_getD, hj]

/-- A synchronization on a chain that has the blocks of all batches leaves them settled. -/
theorem synchronizeBatches_settles {n : Nat} (hs : env.Serves concerns limit chain)
    (ho : Ordered chain) (hl : 0 < limit) (heth : env.isETHWallet = false) (hi : i < 2 ^ 32)
    (ha : Along env concerns chain n i b)
    (h : env.synchronizeBatches fuel i b = some (.ok (), b')) :
    Still env concerns chain b'.batches ∧ b'.stored = some b'.savedState := by
  induction fuel generalizing n i b with
  | zero => cases h
  | succ fuel ih =>
    rw [synchronizeBatches_succ, Option.bind_eq_some_iff] at h
    obtain ⟨⟨r, b₁⟩, hread, h⟩ := h
    obtain ⟨p, hp⟩ := ha.stands i le_rfl
    have hsmall := ha.small
    have hlen := ha.length
    have hadd := length_addBatch b i (by omega)
    have hlen₁ : b₁.batches.length = _ := (synchronizeBatch_length hread).trans hadd
    obtain ⟨had', rfl, hsettled, hnone, hothers⟩ := synchronizeBatch_settles (p := p) hs ho hl
      (by omega) (by rwa [batch_addBatch]) rfl hread
    have hall : ∀ j < i + 1,
        Settled chain (concerning concerns (env.batchAddresses j) chain) (b₁.batch j) := by
      intro j hj
      by_cases hji : j = i
      · rw [hji]
        exact hsettled
      · rw [hothers j hji, batch_addBatch]
        exact ha.settled j (by omega)
    have hrest : ∀ j, i + 1 ≤ j → ∃ p, Stands chain (b₁.batch j) p := by
      intro j hj
      rw [hothers j (by omega), batch_addBatch]
      exact ha.stands j (by omega)
    dsimp only at h
    split at h
    · by_cases hwrap : i + 1 < 2 ^ 32
      · rw [Nat.mod_eq_of_lt hwrap] at h
        have hnext : Along env concerns chain n (i + 1) b₁.store :=
          ⟨hall, hrest, by rw [batches_store]; omega, hsmall⟩
        exact ih hwrap hnext h
      · -- the index starts again from the first batch
        have hzero : (i + 1) % 2 ^ 32 = 0 := by omega
        have hnext : Along env concerns chain (2 ^ 32) 0 b₁.store := by
          refine ⟨fun j hj => by omega, fun j _ => ?_, by rw [batches_store]; omega, le_rfl⟩
          rcases Nat.lt_or_ge j (i + 1) with hj | hj
          · exact (hall j hj).stands
          · exact hrest j hj
        rw [hzero] at h
        exact ih (by omega) hnext h
    · rename_i hstop
      cases h
      have hfalse : env.goesOn i (b.done i) had' = false := by simpa using hstop
      obtain ⟨hdone, hhad, hrange⟩ := (goesOn_eq_false heth).mp hfalse
      have hle := le_of_done (by omega) hdone
      have hend : b₁.batches.length = i + 1 := by omega
      refine ⟨⟨?_, ?_, fun j hj => ?_, fun hj => ?_, ?_⟩, rfl⟩
      · rw [batches_store]
        omega
      · rw [batches_store]
        omega
      · rw [← batch_eq, batch_store]
        exact hall j (by rw [batches_store] at hj; omega)
      · have hthere : i < b₁.batches.length := by omega
        simp only [batches_store, hend, Nat.add_sub_cancel]
        rw [← batch_eq hthere]
        exact hnone hhad
      · simpa only [batches_store, hend, Nat.add_sub_cancel] using hrange

/-- What is received again of a batch is in the block at which it stands. -/
def Again (b : Buddy τ) (r : Request τ) : Prop :=
  ∀ tx ∈ r.transactions, ∃ x, block tx = some x ∧ b.batch r.currentBatchIndex = .ofHeader x

theorem batches_advance_same (hi : i < b.batches.length) (h : ∀ tx ∈ txs, ∃ x,
    block tx = some x ∧ x.height < 2 ^ 32 ∧ b.batch i = .ofHeader x) :
    (b.advance i txs).batches = b.batches := by
  unfold Buddy.advance
  split
  · rename_i x hx
    obtain ⟨tx, hlast, hblock⟩ := Option.bind_eq_some_iff.mp hx
    obtain ⟨y, hy, hsmall, hat⟩ := h tx (List.mem_of_getLast? hlast)
    obtain rfl : x = y := Option.some.inj (hblock.symm.trans hy)
    have hsame : (⟨x.hash, x.height % 2 ^ 32⟩ : BatchSavedState) = b.batches[i] := by
      rw [Nat.mod_eq_of_lt hsmall, ← batch_eq hi, hat]
      rfl
    rw [batches_setBatches, hsame, List.set_getElem_self]
  · rfl

/-- A settled batch is read with one request, and stays where it is. -/
theorem Settled.again (hs : env.Serves concerns limit chain) (ho : Ordered chain)
    (hi : i < b.batches.length)
    (h : Settled chain (concerning concerns (env.batchAddresses i) chain) (b.batch i)) :
    ∃ b₁, env.synchronizeBatch i 1 false b =
        some (.ok (!(env.request i b).transactions.isEmpty), b₁) ∧
      b₁.batches = b.batches ∧ b₁.requests = b.requests ++ [env.request i b] ∧
      Again b (env.request i b) := by
  generalize hbs : concerning concerns (env.batchAddresses i) chain = bs at h
  obtain ⟨p, hp, hrest, hat⟩ : ∃ p, Stands chain (b.batch i) p ∧ (bs.drop (p + 1)).flatten = [] ∧
      ∀ tx ∈ (bs.drop p).flatten, ∃ x, block tx = some x ∧ x.height < 2 ^ 32 ∧
        b.batch i = .ofHeader x := by
    rcases h with ⟨p, hp, hnone⟩ | ⟨p, c, hc, he, hnone⟩
    · refine ⟨p, hp, Paging.flatten_drop_eq_nil (by omega) hnone, ?_⟩
      rw [hnone]
      exact List.forall_mem_nil _
    · refine ⟨p, Or.inr ⟨c, hc, he⟩, hnone, fun tx htx => ?_⟩
      by_cases hlen : p < bs.length
      · rw [List.drop_eq_getElem_cons hlen, List.flatten_cons, hnone, List.append_nil] at htx
        obtain ⟨d, hd, hlinked⟩ := linked_of_mem hbs.symm hlen htx
        obtain rfl : c = d := Option.some.inj (hc.symm.trans hd)
        exact ⟨c.header, hlinked, ho.small c (List.mem_of_getElem? hc), he⟩
      · rw [List.drop_eq_nil_of_le (by omega)] at htx
        cases htx
  have hpage : Paging.page limit (bs.drop p) = ((bs.drop p).flatten, false) :=
    Paging.page_of_last (by rwa [List.drop_drop])
  obtain ⟨b₁, hbatches, hreq, hans, hg⟩ := getBulk_served hs ho hp hbs.symm
  rw [hpage] at hans hg
  have hat₁ : ∀ tx ∈ (bs.drop p).flatten, ∃ x, block tx = some x ∧ x.height < 2 ^ 32 ∧
      b₁.batch i = .ofHeader x := by
    rw [Buddy.batch, hbatches]
    exact hat
  have htxs : (env.request i b).transactions = (bs.drop p).flatten := by
    simp [Request.transactions, hans, toBulk]
  refine ⟨b₁.advance i (bs.drop p).flatten, ?_, ?_, ?_, fun tx htx => ?_⟩
  · simp [Env.synchronizeBatch, hg, toBulk, htxs]
  · rw [batches_advance_same (by rwa [hbatches]) hat₁, hbatches]
  · rw [requests_advance, hreq]
  · rw [htxs] at htx
    obtain ⟨x, hx, -, he⟩ := hat tx htx
    exact ⟨x, hx, he⟩

theorem Exhausted.nothing (hs : env.Serves concerns limit chain) (ho : Ordered chain)
    (h : Exhausted chain (concerning concerns (env.batchAddresses i) chain) (b.batch i)) :
    (env.request i b).transactions = [] := by
  obtain ⟨p, hp, hnone⟩ := h
  have hfront : (Paging.page limit
      ((concerning concerns (env.batchAddresses i) chain).drop p)).1 <+: _ := Paging.page_front
  rw [hnone, List.prefix_nil] at hfront
  simp [Request.transactions, request_answer hs ho hp, toBulk, hfront]

theorem Still.reads (hs : env.Serves concerns limit chain) (ho : Ordered chain)
    (h : Still env concerns chain b.batches) (hi : i < b.batches.length) :
    ∃ b₁, env.synchronizeBatch i 1 false (b.addBatch i) =
        some (.ok (!(env.request i b).transactions.isEmpty), b₁) ∧
      b₁.batches = b.batches ∧ b₁.requests = b.requests ++ [env.request i b] ∧
      Again b (env.request i b) := by
  have hsettled := h.settled i hi
  have hadd : b.addBatch i = b := if_neg (Nat.not_le_of_lt hi)
  rw [← batch_eq hi] at hsettled
  rw [hadd]
  exact hsettled.again hs ho hi

/-- Whether the next batch is read: up to the last. -/
theorem Still.goesOn_iff (hs : env.Serves concerns limit chain) (ho : Ordered chain)
    (heth : env.isETHWallet = false) (h : Still env concerns chain b.batches)
    (hi : i < b.batches.length) :
    env.goesOn i (b.done i) (!(env.request i b).transactions.isEmpty) = true ↔
      i + 1 < b.batches.length := by
  have hsmall := h.small
  have hdone : b.done i = true ↔ b.batches.length ≤ i + 1 := by
    simp only [Buddy.done, decide_eq_true_eq]
    omega
  rw [← not_iff_not, Bool.not_eq_true, goesOn_eq_false heth, hdone, Nat.not_lt]
  refine and_iff_left_of_imp fun hle => ?_
  have hlast : i = b.batches.length - 1 := by omega
  have hex := h.last (by omega)
  rw [← batch_eq (by omega), ← hlast] at hex
  refine ⟨by simp [hex.nothing hs ho], ?_⟩
  rw [hlast]
  exact h.range

/-- From settled batches each is asked for once, and none moves. -/
theorem Still.again (hs : env.Serves concerns limit chain) (ho : Ordered chain)
    (heth : env.isETHWallet = false) (h : Still env concerns chain b.batches)
    (hi : i < b.batches.length) :
    ∃ fuel b' requests, env.synchronizeBatches fuel i b = some (.ok (), b') ∧
      b'.batches = b.batches ∧ b'.requests = b.requests ++ requests ∧
      requests.map Request.currentBatchIndex = List.range' i (b.batches.length - i) ∧
      ∀ r ∈ requests, Again b r := by
  obtain ⟨b₁, hread, hbatches, hreq, hagain⟩ := h.reads hs ho hi
  have hgo := h.goesOn_iff hs ho heth hi
  induction hn : b.batches.length - 1 - i generalizing i b b₁ with
  | zero =>
    have hstop := (not_congr hgo).mpr (by omega)
    refine ⟨_, _, [env.request i b], synchronizeBatches_stop hread (by simpa using hstop),
      hbatches, hreq, ?_, List.forall_mem_singleton.mpr hagain⟩
    rw [show b.batches.length - i = 1 by omega]
    rfl
  | succ n ih =>
    have hsmall := h.small
    have hsame : b₁.store.batches = b.batches := hbatches
    have hstill : Still env concerns chain b₁.store.batches := by rwa [hsame]
    have hnext : i + 1 < b₁.store.batches.length := by rw [hsame]; omega
    obtain ⟨b₂, hread₂, hbatches₂, hreq₂, hagain₂⟩ := hstill.reads hs ho hnext
    obtain ⟨fuel', b', requests, hrun, hend, hall, hindex, hagains⟩ := ih hstill hnext b₂ hread₂
      hbatches₂ hreq₂ hagain₂ (hstill.goesOn_iff hs ho heth hnext) (by rw [hsame]; omega)
    rw [← Nat.mod_eq_of_lt (by omega : i + 1 < 2 ^ 32)] at hrun
    obtain ⟨fuel, hfuel⟩ := synchronizeBatches_next hread (hgo.mpr (by omega)) hrun
    refine ⟨fuel, b', env.request i b :: requests, hfuel, hend.trans hsame, ?_, ?_, ?_⟩
    · rw [hall, requests_store, hreq, List.append_assoc]
      rfl
    · rw [List.map_cons, hindex, hsame, show b.batches.length - i =
        (b.batches.length - (i + 1)) + 1 by omega, List.range'_succ]
      rfl
    · refine List.forall_mem_cons.mpr ⟨hagain, fun r hr tx htx => ?_⟩
      obtain ⟨x, hx, he⟩ := hagains r hr tx htx
      exact ⟨x, hx, by rw [← he, Buddy.batch, Buddy.batch, hsame]⟩

theorem halfBatchSize_putTransactions (env : Env τ) (b : Buddy τ) (txs : List τ) :
    (env.putTransactions b txs).2.savedState.halfBatchSize = b.savedState.halfBatchSize := by
  induction txs generalizing b with
  | nil => rfl
  | cons tx txs ih =>
    simp only [Env.putTransactions]
    split
    · rfl
    · exact ih _

theorem halfBatchSize_getBulk :
    (env.getBulk i b).2.savedState.halfBatchSize = b.savedState.halfBatchSize := by
  unfold Env.getBulk
  dsimp only
  cases (env.request i b).answer with
  | error e => rfl
  | ok bulk =>
    have hput := halfBatchSize_putTransactions env (b.ask (env.request i b)) bulk.transactions
    dsimp only
    cases hp : env.putTransactions (b.ask (env.request i b)) bulk.transactions with
    | mk r b₁ =>
      rw [hp] at hput
      cases r with
      | error e => exact hput
      | ok _ =>
        dsimp only
        unfold Buddy.advance
        split <;> exact hput

/-- The size of the batches is not changed on the way. -/
theorem halfBatchSize_synchronizeBatches {out : Try Unit × Buddy τ}
    (h : env.synchronizeBatches fuel i b = some out) :
    out.2.savedState.halfBatchSize = b.savedState.halfBatchSize := by
  refine synchronizeBatches_keeps
    (P := fun c => c.savedState.halfBatchSize = b.savedState.halfBatchSize)
    (fun _ _ hc => halfBatchSize_getBulk.trans hc) (fun i c hc => ?_) (fun _ _ hc => hc)
    (fun _ _ _ hc => hc) rfl h
  unfold Buddy.addBatch
  split <;> exact hc

theorem halfBatchSize_start {env : Session τ} {state : Option SavedState} {database : Database}
    (hl : env.Lawful) (hcons : Consistent ⟨state, database⟩) :
    (env.start state database).savedState.halfBatchSize = env.halfBatchSize := by
  cases state with
  | none => rfl
  | some s =>
    simp only [Session.start, Option.map_some, hcons.check hl, initializeSavedState]
    split
    · rfl
    · rename_i hsame
      exact not_not.mp hsame

/-- What is saved with the size of the batches is taken up as it is. -/
theorem start_saved {env : Session τ} {s : SavedState} {database : Database} (hl : env.Lawful)
    (hcons : Consistent ⟨some s, database⟩) (hhalf : s.halfBatchSize = env.halfBatchSize) :
    (env.start (some s) database).batches = s.batches := by
  rw [hcons.start_batches hl, initializeSavedState, if_neg (not_not.mpr hhalf)]

/-- After a synchronization that succeeded while the chain had the blocks of all batches, another
one that finds the same chain succeeds, asks once for each batch and leaves all batches where they
are; it receives only transactions of the blocks at which they stand. -/
theorem performSynchronization_again {env : Session τ} {state : Option SavedState}
    {database : Database} (hl : env.Lawful) (hs : env.toEnv.Serves concerns limit chain)
    (ho : Ordered chain) (hlimit : 0 < limit) (heth : env.isETHWallet = false)
    (hcons : Consistent ⟨state, database⟩)
    (hon : ∀ s, state = some s → ∀ c ∈ s.batches, ∃ p, Stands chain c p)
    (hsize : (env.start state database).batches.length ≤ 2 ^ 32)
    (h : env.performSynchronization fuel state database = some (.ok (), b')) :
    ∃ fuel' b'', env.performSynchronization fuel' b'.stored b'.database = some (.ok (), b'') ∧
      b''.batches = b'.batches ∧
      b''.requests.map Request.currentBatchIndex = List.range b'.batches.length ∧
      ∀ r ∈ b''.requests, Again b' r := by
  have hcons' : Consistent ⟨b'.stored, b'.database⟩ := hcons.performSynchronization hl h
  have hstands : ∀ j, ∃ p, Stands chain ((env.start state database).batch j) p := by
    intro j
    cases state with
    | none => exact ⟨0, Or.inl ⟨rfl, rfl⟩⟩
    | some s =>
      rcases hcons.start_batch hl j with hj | hj
      · exact hon s rfl _ hj
      · exact ⟨0, Or.inl ⟨by rw [hj]; rfl, rfl⟩⟩
  obtain ⟨hstart, hkill, b, hrun, rfl⟩ := performSynchronization_ok h
  obtain ⟨hstill, hstored⟩ := synchronizeBatches_settles hs ho hlimit heth (by omega)
    (⟨nofun, fun j _ => hstands j, by omega, hsize⟩ : Along env.toEnv concerns chain _ 0 _) hrun
  have hhalf : b.savedState.halfBatchSize = env.halfBatchSize :=
    (halfBatchSize_synchronizeBatches hrun).trans (halfBatchSize_start hl hcons)
  have hbatches : (env.start b.deleteDropped.stored b.deleteDropped.database).batches =
      b.batches := by
    have hsome : b.deleteDropped.stored = some b.savedState := hstored
    rw [hsome] at hcons' ⊢
    exact start_saved hl hcons' hhalf
  have hpos := hstill.positive
  rw [← hbatches] at hstill hpos
  obtain ⟨fuel', b'', requests, hrun', hsame, hreq, hindex, hagain⟩ :=
    hstill.again hs ho heth hpos
  have hlist : b''.requests = requests := hreq
  have hend : b''.deleteDropped.requests = requests := hlist
  refine ⟨fuel', b''.deleteDropped, ?_, hsame.trans hbatches, ?_, fun r hr tx htx => ?_⟩
  · simp [Session.performSynchronization, hstart, hkill, hrun']
  · rw [hend, hindex, hbatches, Nat.sub_zero, List.range_eq_range']
    rfl
  · rw [hend] at hr
    obtain ⟨x, hx, he⟩ := hagain r hr tx htx
    refine ⟨x, hx, ?_⟩
    rw [← he, Buddy.batch, Buddy.batch, hbatches]
    rfl

/-- A new account of two addresses, each paid once. -/
theorem performSynchronization_again_two : ∃ b' fuel' b'',
    let env := onChain (keptBlocks ++ newBlocks) 1 twoBatches
    env.performSynchronization 9 none {} = some (.ok (), b') ∧
      env.performSynchronization fuel' b'.stored b'.database = some (.ok (), b'') ∧
      b''.batches = b'.batches := by
  obtain ⟨b', hb⟩ : ∃ b', (onChain (keptBlocks ++ newBlocks) 1
    twoBatches).performSynchronization 9 none {} = some (.ok (), b') := ⟨_, rfl⟩
  have hcons : Consistent ⟨none, {}⟩ := ⟨List.forall_mem_nil _, nofun⟩
  have hnew : ∀ s, (none : Option SavedState) = some s → ∀ c ∈ s.batches,
    ∃ p, Stands (keptBlocks ++ newBlocks) c p := nofun
  obtain ⟨fuel', b'', hagain, hsame, -⟩ := performSynchronization_again
    (lawful_onChain (by decide)) (ofChain_serves (by decide)) ⟨by decide, by decide⟩ (by decide)
    rfl hcons hnew (by decide) hb
  exact ⟨b', fuel', b'', hb, hagain, hsame⟩

end LibCoreCmd.Synchronizer

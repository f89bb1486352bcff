import LibCoreCmd.Synchronizer.Discovery

/-! How one batch is read while the chain stays as it is: page by page, to the end. -/
namespace LibCoreCmd.Synchronizer
open Async Explorers
open Tools (Hash Address)

variable {τ : Type} [ExplorerTransaction τ]

/-- A block of the explorer's chain, whose transactions say that they are in it. -/
structure ChainBlock (τ : Type) [ExplorerTransaction τ] where
  header : Block
  transactions : List τ
  linked : ∀ tx ∈ transactions, block tx = some header

/-- The transactions that concern some addresses, block by block. -/
def concerning (concerns : List Address → τ → Bool) (addresses : List Address)
    (chain : List (ChainBlock τ)) : List (List τ) :=
  chain.map fun c => c.transactions.filter (concerns addresses)

/-- A page and its flag, as the answer of an explorer. -/
def toBulk (page : List τ × Bool) : TransactionsBulk τ := ⟨page.1, page.2⟩

/-- An explorer that answers from one chain in pages, and says so if it does not know a block;
and an account that takes every transaction. -/
structure Env.Serves (env : Env τ) (concerns : List Address → τ → Bool) (limit : Nat)
    (chain : List (ChainBlock τ)) : Prop where
  start : ∀ n addresses, env.getTransactions n addresses none =
    .ok (toBulk (Paging.page limit (concerning concerns addresses chain)))
  resume : ∀ n addresses before c after, chain = before ++ c :: after →
    env.getTransactions n addresses (some c.header.hash) =
      .ok (toBulk (Paging.page limit (concerning concerns addresses (c :: after))))
  missing : ∀ n addresses h, (∀ c ∈ chain, c.header.hash ≠ h) →
    ∃ e, env.getTransactions n addresses (some h) = .error e ∧ e.errorCode = .blockNotFound
  account : ∀ database tx, ∃ database', env.putTransaction database tx = .ok database'

/-- The heights of a chain grow, and fit into a `uint32_t`. -/
structure Ordered (chain : List (ChainBlock τ)) : Prop where
  heights : chain.Pairwise fun c d => c.header.height < d.header.height
  small : ∀ c ∈ chain, c.header.height < 2 ^ 32

def BatchSavedState.ofHeader (header : Block) : BatchSavedState := ⟨header.hash, header.height⟩

/-- A batch is to be read from block `p` of the chain on. -/
def Stands (chain : List (ChainBlock τ)) (s : BatchSavedState) (p : Nat) : Prop :=
  (s.blockHeight = 0 ∧ p = 0) ∨ ∃ c, chain[p]? = some c ∧ s = .ofHeader c.header

variable {env : Env τ} {fuel i j k p limit : Nat} {b b' b₁ : Buddy τ} {had had' : Bool}
  {concerns : List Address → τ → Bool} {addresses : List Address} {tx : τ} {txs : List τ}
  {chain : List (ChainBlock τ)} {c : ChainBlock τ} {s : BatchSavedState} {x : Block}
  {pages : List (List τ)}

theorem batch_advance_ne (hj : j ≠ i) : (b.advance i txs).batch j = b.batch j := by
  unfold Buddy.advance
  split
  · simp [Buddy.batch, List.getD_eq_getElem?_getD, List.getElem?_set_ne (Ne.symm hj)]
  · rfl

theorem batch_advance (hi : i < b.batches.length) (hl : txs.getLast? = some tx)
    (hx : block tx = some x) (hs : x.height < 2 ^ 32) :
    (b.advance i txs).batch i = .ofHeader x := by
  simpa [Buddy.advance, hl, hx, Buddy.batch, hi, BatchSavedState.ofHeader] using hs

/-- An account that takes every transaction takes all of them. -/
theorem putTransactions_ok (ha : ∀ database tx, ∃ database',
    env.putTransaction database tx = .ok database') (b : Buddy τ) (txs : List τ) :
    ∃ b₁, env.putTransactions b txs = (.ok (), b₁) ∧ b₁.batches = b.batches ∧
      b₁.requests = b.requests := by
  have hsame := putTransactions_same env b txs
  cases hp : env.putTransactions b txs with
  | mk r b₁ =>
    rw [hp] at hsame
    cases r with
    | ok _ => exact ⟨b₁, rfl, hsame⟩
    | error e =>
      obtain ⟨database, tx, he⟩ := putTransactions_error (e := e) (by rw [hp])
      obtain ⟨database', hok⟩ := ha database tx
      rw [hok] at he
      cases he

/-- Wherever a batch stands, it is answered with a page of the blocks from there on. -/
theorem request_answer (hs : env.Serves concerns limit chain) (ho : Ordered chain)
    (hp : Stands chain (b.batch i) p) : (env.request i b).answer =
      .ok (toBulk (Paging.page limit
        ((concerning concerns (env.batchAddresses i) chain).drop p))) := by
  rcases hp with ⟨hzero, rfl⟩ | ⟨c, hc, hst⟩
  · simpa [Env.request, Buddy.blockHash, hzero] using hs.start _ _
  · obtain ⟨hlt, rfl⟩ := List.getElem?_eq_some_iff.mp hc
    by_cases hpos : 0 < chain[p].header.height
    · have hsplit : chain = chain.take p ++ chain[p] :: chain.drop (p + 1) := by
        rw [← List.drop_eq_getElem_cons hlt, List.take_append_drop]
      have hans := hs.resume b.requests.length (env.batchAddresses i) _ _ _ hsplit
      rw [← List.drop_eq_getElem_cons hlt] at hans
      simpa [Env.request, Buddy.blockHash, hst, BatchSavedState.ofHeader, hpos,
        concerning, List.map_drop] using hans
    · have hzero : p = 0 := by
        by_contra hne
        have hgrow := List.pairwise_iff_getElem.mp ho.heights 0 p (by omega) hlt (by omega)
        omega
      subst hzero
      simpa [Env.request, Buddy.blockHash, hst, BatchSavedState.ofHeader, hpos]
        using hs.start b.requests.length (env.batchAddresses i)

/-- What reading some pages of batch `i` does. -/
structure Read (i : Nat) (pages : List (List τ)) (b b' : Buddy τ) : Prop where
  requests : ∃ pass, b'.requests = b.requests ++ pass ∧ pass.map Request.transactions = pages
  others : ∀ j, j ≠ i → b'.batch j = b.batch j
  length : b'.batches.length = b.batches.length

omit [ExplorerTransaction τ] in
theorem Read.trans {more : List (List τ)} (h : Read i pages b b₁) (h' : Read i more b₁ b') :
    Read i (pages ++ more) b b' := by
  obtain ⟨pass, hr, hp⟩ := h.requests
  obtain ⟨pass', hr', hp'⟩ := h'.requests
  refine ⟨⟨pass ++ pass', ?_, ?_⟩, ?_, h'.length.trans h.length⟩
  · rw [hr', hr, List.append_assoc]
  · rw [List.map_append, hp, hp']
  · intro j hj
    rw [h'.others j hj, h.others j hj]

/-- One page is received, and the batch then stands at the last block of the page if that is
not the last page. -/
theorem getBulk_page (hs : env.Serves concerns limit chain) (ho : Ordered chain)
    (hl : 0 < limit) (hi : i < b.batches.length) (hp : Stands chain (b.batch i) p)
    {bs : List (List τ)} (hbs : bs = concerning concerns (env.batchAddresses i) chain) :
    ∃ b₁, env.getBulk i b = (.ok (toBulk (Paging.page limit (bs.drop p))), b₁) ∧
      Read i [(Paging.page limit (bs.drop p)).1] b b₁ ∧
      ((Paging.page limit (bs.drop p)).2 = true →
        Stands chain (b₁.batch i) (p + Paging.cut limit (bs.drop p) - 1)) := by
  have hans := request_answer hs ho hp
  rw [← hbs] at hans
  obtain ⟨b₁, hput, hbatches, hreq⟩ := putTransactions_ok hs.account (b.ask (env.request i b))
    (Paging.page limit (bs.drop p)).1
  rw [batches_ask] at hbatches
  rw [requests_ask] at hreq
  refine ⟨b₁.advance i (Paging.page limit (bs.drop p)).1, ?_, ⟨?_, ?_, ?_⟩, fun ht => ?_⟩
  · simp only [Env.getBulk, hans, toBulk, hput]
  · refine ⟨[env.request i b], by rw [requests_advance, hreq], ?_⟩
    simp [Request.transactions, hans, toBulk]
  · intro j hj
    rw [batch_advance_ne hj, Buddy.batch, hbatches, Buddy.batch]
  · rw [length_batches_advance, hbatches]
  · obtain ⟨k, hk, tx, hcut, hlast, hm⟩ := Paging.page_getLast hl ht
    have hlen : p + k < chain.length := by
      simp only [hbs, concerning, List.length_drop, List.length_map] at hk
      omega
    have hmem : tx ∈ chain[p + k].transactions := by
      simp only [hbs, concerning, List.getElem_drop, List.getElem_map] at hm
      exact List.mem_of_mem_filter hm
    refine Or.inr ⟨chain[p + k], ?_, ?_⟩
    · rw [hcut, show p + (k + 1) - 1 = p + k by omega, List.getElem?_eq_getElem hlen]
    · exact batch_advance (by rw [hbatches]; exact hi) hlast (chain[p + k].linked tx hmem)
        (ho.small _ (List.getElem_mem hlen))

/-- A batch reads the pages of the chain from the block at which it stands. -/
theorem synchronizeBatch_collects (hs : env.Serves concerns limit chain) (ho : Ordered chain)
    (hl : 0 < limit) (hi : i < b.batches.length) (hp : Stands chain (b.batch i) p)
    (h : Paging.collect limit (concerning concerns (env.batchAddresses i) chain) fuel p =
      some pages) :
    ∃ b', (∀ had, env.synchronizeBatch i fuel had b =
        some (.ok (had || pages.any fun page => !page.isEmpty), b')) ∧ Read i pages b b' := by
  induction fuel generalizing p b pages with
  | zero => cases h
  | succ fuel ih =>
    obtain ⟨b₁, hg, hread, hstands⟩ := getBulk_page hs ho hl hi hp rfl
    simp only [Env.synchronizeBatch, hg]
    rw [Paging.collect] at h
    cases ht : (Paging.page limit
        ((concerning concerns (env.batchAddresses i) chain).drop p)).2 with
    | true =>
      simp only [ht, if_true, Option.map_eq_some_iff] at h
      obtain ⟨rest, hrest, rfl⟩ := h
      obtain ⟨b', hb', hread'⟩ := ih (by rw [hread.length]; exact hi) (hstands ht) hrest
      refine ⟨b', fun had => ?_, hread.trans hread'⟩
      simp only [toBulk, ht, if_true, hb', List.any_cons, Bool.or_assoc]
    | false =>
      simp only [ht, Bool.false_eq_true, if_false, Option.some.injEq] at h
      subst h
      exact ⟨b₁, fun had => by simp [toBulk, ht], hread⟩

theorem synchronizeBatch_mono {out : Try Bool × Buddy τ} {fuel' : Nat} (hf : fuel ≤ fuel')
    (h : env.synchronizeBatch i fuel had b = some out) :
    env.synchronizeBatch i fuel' had b = some out := by
  induction fuel generalizing fuel' had b with
  | zero => cases h
  | succ fuel ih =>
    obtain ⟨fuel', rfl⟩ : ∃ n, fuel' = n + 1 := ⟨fuel' - 1, by omega⟩
    simp only [Env.synchronizeBatch] at h ⊢
    split <;> rename_i hg <;> simp only [hg] at h
    · exact h
    · split at h
      · rw [if_pos (by assumption)]
        exact ih (by omega) h
      · rw [if_neg (by assumption)]
        exact h

theorem synchronizeBatches_mono {out : Try Unit × Buddy τ} {fuel' : Nat} (hf : fuel ≤ fuel')
    (h : env.synchronizeBatches fuel i b = some out) :
    env.synchronizeBatches fuel' i b = some out := by
  induction fuel generalizing fuel' i b with
  | zero => cases h
  | succ fuel ih =>
    obtain ⟨fuel', rfl⟩ : ∃ n, fuel' = n + 1 := ⟨fuel' - 1, by omega⟩
    rw [synchronizeBatches_succ, Option.bind_eq_some_iff] at h ⊢
    obtain ⟨⟨r, b₁⟩, hs, h⟩ := h
    refine ⟨⟨r, b₁⟩, synchronizeBatch_mono (by omega) hs, ?_⟩
    cases r with
    | error e =>
      dsimp only at h ⊢
      split at h
      · split at h
        · rw [if_pos (by assumption), if_pos (by assumption)]
          exact ih (by omega) h
        · rw [if_pos (by assumption), if_neg (by assumption)]
          exact h
      · rw [if_neg (by assumption)]
        exact h
    | ok had =>
      dsimp only at h ⊢
      split at h
      · rw [if_pos (by assumption)]
        exact ih (by omega) h
      · rw [if_neg (by assumption)]
        exact h

/-- The transactions that concern batch `i`, from block `p` of the chain on. -/
def Env.concerned (env : Env τ) (concerns : List Address → τ → Bool)
    (chain : List (ChainBlock τ)) (i p : Nat) : List τ :=
  ((concerning concerns (env.batchAddresses i) chain).drop p).flatten

/-- A batch is read to the end of the chain, and says whether there was anything. -/
theorem synchronizeBatch_reads (hs : env.Serves concerns limit chain) (ho : Ordered chain)
    (hl : 0 < limit) (hi : i < b.batches.length) (hp : Stands chain (b.batch i) p)
    (hpass : Paging.Passable limit (concerning concerns (env.batchAddresses i) chain)) :
    ∃ fuel b' pages, env.synchronizeBatch i fuel false b =
        some (.ok (!(env.concerned concerns chain i p).isEmpty), b') ∧ Read i pages b b' ∧
      ∀ tx, (∃ page ∈ pages, tx ∈ page) ↔ tx ∈ env.concerned concerns chain i p := by
  obtain ⟨fuel, pages, hc, hmem⟩ := Paging.collect_from hl hpass p
  obtain ⟨b', hb', hread⟩ := synchronizeBatch_collects hs ho hl hi hp hc
  have hany : (pages.any fun page => !page.isEmpty) =
      !(env.concerned concerns chain i p).isEmpty := by
    rw [Bool.eq_iff_iff, List.any_eq_true]
    simp only [Bool.not_eq_true', List.isEmpty_eq_false_iff_exists_mem]
    constructor
    · rintro ⟨page, hp, tx, htx⟩
      exact ⟨tx, (hmem tx).mp ⟨page, hp, htx⟩⟩
    · rintro ⟨tx, htx⟩
      obtain ⟨page, hp, htx⟩ := (hmem tx).mpr htx
      exact ⟨page, hp, tx, htx⟩
  refine ⟨fuel, b', pages, ?_, hread, hmem⟩
  rw [hb' false, Bool.false_or, hany]

end LibCoreCmd.Synchronizer

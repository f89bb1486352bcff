import LibCoreCmd.Synchronizer.Batches

/-! Where a synchronization that succeeds has looked: at every batch up to the one at which it
stopped, and there at every page. -/
namespace LibCoreCmd.Synchronizer
open Async Explorers

variable {τ : Type} [ExplorerTransaction τ] {env : Env τ} {fuel i j k : Nat} {b b' b₁ : Buddy τ}
  {had had' : Bool} {e : Exception} {r : Request τ} {pass log log' : List (Request τ)}

/-- The requests that read batch `i` from where it stood to its end. -/
inductive Pass (i : Nat) : List (Request τ) → Prop where
  | last {r : Request τ} {bulk : TransactionsBulk τ} : r.currentBatchIndex = i →
      r.answer = .ok bulk → bulk.hasNext = false → Pass i [r]
  | more {r : Request τ} {bulk : TransactionsBulk τ} {pass : List (Request τ)} :
      r.currentBatchIndex = i → r.answer = .ok bulk → bulk.hasNext = true → Pass i pass →
      Pass i (r :: pass)

/-- The transactions of an answer. -/
def Request.transactions (r : Request τ) : List τ :=
  match r.answer with
  | .ok bulk => bulk.transactions
  | .error _ => []

def Passed (log : List (Request τ)) (i : Nat) : Prop := ∃ pass, Pass i pass ∧ pass <:+: log

/-- An explorer that misses no block when it was asked for none, and an account that does not
speak of blocks either. -/
structure Env.Plain (env : Env τ) : Prop where
  explorer : ∀ n addresses e, env.getTransactions n addresses none = .error e →
    e.errorCode ≠ .blockNotFound
  account : ∀ database tx e, env.putTransaction database tx = .error e →
    e.errorCode ≠ .blockNotFound

omit [ExplorerTransaction τ] in
theorem Passed.mono (h : Passed log i) (hl : log <+: log') : Passed log' i := by
  obtain ⟨pass, hp, hi⟩ := h
  exact ⟨pass, hp, hi.trans hl.isInfix⟩

theorem getBulk_requests : (env.getBulk i b).2.requests = b.requests ++ [env.request i b] := by
  rcases getBulk_cases env i b with ⟨e, b₁, he, -, -, hr, -⟩ | ⟨bulk, b₁, -, hp, he⟩
  · rw [he]
    exact hr
  · have hsame := (putTransactions_same env (b.ask (env.request i b)) bulk.transactions).2
    rw [hp] at hsame
    rw [he, requests_advance]
    exact hsame

theorem getBulk_length : (env.getBulk i b).2.batches.length = b.batches.length := by
  rcases getBulk_cases env i b with ⟨e, b₁, he, hb, -⟩ | ⟨bulk, b₁, -, hp, he⟩
  · rw [he]
    exact congrArg List.length hb
  · have hsame := (putTransactions_same env (b.ask (env.request i b)) bulk.transactions).1
    rw [hp] at hsame
    rw [he, length_batches_advance]
    exact congrArg List.length hsame

/-- A property that a request for batch `i` keeps is kept by the batch. -/
theorem synchronizeBatch_keeps {P : Buddy τ → Prop} {out : Try Bool × Buddy τ}
    (step : ∀ b, P b → P (env.getBulk i b).2) (hb : P b)
    (h : env.synchronizeBatch i fuel had b = some out) : P out.2 := by
  induction fuel generalizing had b with
  | zero => cases h
  | succ fuel ih =>
    have hnext := step b hb
    simp only [Env.synchronizeBatch] at h
    cases hg : env.getBulk i b with
    | mk r b₁ =>
      rw [hg] at h hnext
      cases r with
      | error e =>
        cases h
        exact hnext
      | ok bulk =>
        dsimp only at h
        split at h
        · exact ih hnext h
        · cases h
          exact hnext

theorem synchronizeBatch_length {out : Try Bool × Buddy τ}
    (h : env.synchronizeBatch i fuel had b = some out) :
    out.2.batches.length = b.batches.length :=
  synchronizeBatch_keeps (P := fun c => c.batches.length = b.batches.length)
    (fun _ hc => getBulk_length.trans hc) rfl h

theorem synchronizeBatch_prefix {out : Try Bool × Buddy τ}
    (h : env.synchronizeBatch i fuel had b = some out) : b.requests <+: out.2.requests := by
  refine synchronizeBatch_keeps (P := fun c => b.requests <+: c.requests) (fun c hc => ?_)
    (List.prefix_refl _) h
  rw [getBulk_requests]
  exact hc.trans (List.prefix_append _ _)

/-- A batch that is read successfully is read to its end, and if it says that there were no
transactions there were none. -/
theorem synchronizeBatch_passes (h : env.synchronizeBatch i fuel had b = some (.ok had', b')) :
    ∃ pass, Pass i pass ∧ b'.requests = b.requests ++ pass ∧
      (had' = false → had = false ∧ ∀ r ∈ pass, r.transactions = []) := by
  induction fuel generalizing had b with
  | zero => cases h
  | succ fuel ih =>
    have hreq : (env.getBulk i b).2.requests = _ := getBulk_requests
    simp only [Env.synchronizeBatch] at h
    rcases getBulk_cases env i b with ⟨e, b₁, he, -⟩ | ⟨bulk, b₁, ha, -, he⟩
    · rw [he] at h
      cases h
    · rw [he] at h hreq
      have htx : (env.request i b).transactions = bulk.transactions := by
        simp [Request.transactions, ha]
      dsimp only at h hreq
      cases hn : bulk.hasNext with
      | true =>
        rw [if_pos hn] at h
        obtain ⟨pass, hp, hr, hnone⟩ := ih h
        refine ⟨_, .more rfl ha hn hp, by rw [hr, hreq]; simp, fun hf => ?_⟩
        obtain ⟨hh, hempty⟩ := hnone hf
        rw [Bool.or_eq_false_iff] at hh
        refine ⟨hh.1, ?_⟩
        simpa [htx] using ⟨by simpa using hh.2, hempty⟩
      | false =>
        rw [if_neg (by simp [hn])] at h
        cases h
        refine ⟨_, .last rfl ha hn, hreq, fun hf => ?_⟩
        rw [Bool.or_eq_false_iff] at hf
        exact ⟨hf.1, by simpa [htx] using hf.2⟩

/-- A block that is not found was asked for. -/
theorem synchronizeBatch_blockNotFound (hp : env.Plain) (hc : e.errorCode = .blockNotFound)
    (h : env.synchronizeBatch i fuel had b = some (.error e, b')) :
    0 < (b'.batch i).blockHeight := by
  induction fuel generalizing had b with
  | zero => cases h
  | succ fuel ih =>
    simp only [Env.synchronizeBatch] at h
    rcases getBulk_cases env i b with ⟨e₁, b₁, he, hb, -, -, ha⟩ | ⟨bulk, b₁, -, -, he⟩
    · rw [he] at h
      cases h
      rcases ha with ha | ⟨database, tx, ha⟩
      · by_contra hzero
        have hsame : b'.batch i = b.batch i := by rw [Buddy.batch, hb, Buddy.batch]
        rw [hsame] at hzero
        simp only [Env.request, Buddy.blockHash, if_neg hzero] at ha
        exact hp.explorer _ _ _ ha hc
      · exact (hp.account _ _ _ ha hc).elim
    · rw [he] at h
      dsimp only at h
      split at h
      · exact ih h
      · cases h

omit [ExplorerTransaction τ] in
theorem length_addBatch (b : Buddy τ) (i : Nat) (hi : i ≤ b.batches.length) :
    (b.addBatch i).batches.length = max b.batches.length (i + 1) := by
  unfold Buddy.addBatch
  split
  · simp only [batches_setBatches, List.length_append, List.length_singleton]
    omega
  · omega

omit [ExplorerTransaction τ] in
theorem le_of_done (hl : b.batches.length ≤ 2 ^ 32) (h : b.done i = true) :
    b.batches.length ≤ i + 1 := by
  simp only [Buddy.done, decide_eq_true_eq] at h
  cases hlen : b.batches.length with
  | zero => omega
  | succ n =>
    rw [hlen] at h hl
    omega

/-- What is known of a synchronization that has come to batch `i`. -/
structure Reached (b₀ : Buddy τ) (i : Nat) (b : Buddy τ) : Prop where
  passed : ∀ j < i, Passed b.requests j
  index : i ≤ b.batches.length
  grown : b₀.batches.length ≤ b.batches.length
  size : b.batches.length ≤ 2 ^ 32

/-- What is known of it when it has stopped at batch `k`, where it had been last. -/
structure Discovered (env : Env τ) (b₀ : Buddy τ) (k : Nat) (b' : Buddy τ) : Prop where
  passed : ∀ j ≤ k, Passed b'.requests j
  ended : ∃ earlier pass, b'.requests = earlier ++ pass ∧ Pass k pass ∧
    (env.isETHWallet = false → ∀ r ∈ pass, r.transactions = [])
  enough : env.isETHWallet = false →
    b₀.batches.length ≤ k + 1 ∧ env.lastDiscoverableAddress ≤ env.discoveredAddresses k

omit [ExplorerTransaction τ] in
theorem goesOn_eq_false {done : Bool} (heth : env.isETHWallet = false) :
    env.goesOn i done had = false ↔
      done = true ∧ had = false ∧ env.lastDiscoverableAddress ≤ env.discoveredAddresses i := by
  cases done <;> cases had <;> simp [Env.goesOn, heth]

theorem Reached.passes {b₀ : Buddy τ} (hb : Reached b₀ i b)
    (h : env.synchronizeBatch i fuel false (b.addBatch i) = some (.ok had, b₁)) :
    ∀ j ≤ i, Passed b₁.requests j := by
  obtain ⟨pass, hp, hr, -⟩ := synchronizeBatch_passes h
  have hpre : (b.addBatch i).requests <+: b₁.requests := synchronizeBatch_prefix h
  rw [requests_addBatch] at hr hpre
  intro j hj
  rcases Nat.lt_or_ge j i with hji | hji
  · exact (hb.passed j hji).mono hpre
  · obtain rfl : j = i := by omega
    exact ⟨pass, hp, hr ▸ (List.suffix_append _ _).isInfix⟩

theorem Reached.length {b₀ : Buddy τ} {out : Try Bool × Buddy τ} (hb : Reached b₀ i b)
    (h : env.synchronizeBatch i fuel false (b.addBatch i) = some out) :
    out.2.batches.length = max b.batches.length (i + 1) :=
  (synchronizeBatch_length h).trans (length_addBatch b i hb.index)

/-- A batch that was read leads to the next. -/
theorem Reached.next {b₀ : Buddy τ} (hb : Reached b₀ i b) (hi : i < 2 ^ 32)
    (h : env.synchronizeBatch i fuel false (b.addBatch i) = some (.ok had, b₁)) :
    Reached b₀ ((i + 1) % 2 ^ 32) b₁.store := by
  have hlen : b₁.batches.length = _ := hb.length h
  have hmod := Nat.mod_le (i + 1) (2 ^ 32)
  have hgrown := hb.grown
  have hsize := hb.size
  refine ⟨fun j hj => hb.passes h j (by omega), ?_, ?_, ?_⟩ <;>
    simp only [batches_store] <;> omega

/-- A block that is not found leads back to the batch, with all that was read before. -/
theorem Reached.retry {b₀ : Buddy τ} (hb : Reached b₀ i b) (hi : i < 2 ^ 32)
    (h : env.synchronizeBatch i fuel false (b.addBatch i) = some (.error e, b₁)) :
    Reached b₀ i (env.recover i b₁) := by
  have hlen : b₁.batches.length = _ := hb.length h
  have hpre : (b.addBatch i).requests <+: b₁.requests := synchronizeBatch_prefix h
  have hgrown := hb.grown
  have hsize := hb.size
  rw [requests_addBatch] at hpre
  refine ⟨fun j hj => (hb.passed j hj).mono hpre, ?_, ?_, ?_⟩ <;>
    simp only [length_batches_recover] <;> omega

theorem Reached.stop {b₀ : Buddy τ} (hb : Reached b₀ i b)
    (h : env.synchronizeBatch i fuel false (b.addBatch i) = some (.ok had, b₁))
    (hstop : env.goesOn i (b.done i) had = false) : Discovered env b₀ i b₁.store := by
  obtain ⟨pass, hpass, hr, hnone⟩ := synchronizeBatch_passes h
  have hpassed := hb.passes h
  rw [requests_addBatch] at hr
  refine ⟨hpassed, ⟨b.requests, pass, hr, hpass, fun heth => ?_⟩, fun heth => ?_⟩
  · exact (hnone ((goesOn_eq_false heth).mp hstop).2.1).2
  · obtain ⟨hdone, -, hrange⟩ := (goesOn_eq_false heth).mp hstop
    exact ⟨le_trans hb.grown (le_of_done hb.size hdone), hrange⟩

theorem synchronizeBatches_reached {b₀ : Buddy τ} (hp : env.Plain) (hi : i < 2 ^ 32)
    (hb : Reached b₀ i b) (h : env.synchronizeBatches fuel i b = some (.ok (), b')) :
    ∃ k, Discovered env b₀ k b' := by
  induction fuel generalizing i b with
  | zero => cases h
  | succ fuel ih =>
    rw [synchronizeBatches_succ, Option.bind_eq_some_iff] at h
    obtain ⟨⟨r, b₁⟩, hs, h⟩ := h
    cases r with
    | error e =>
      dsimp only at h
      split at h
      · rename_i hc
        rw [if_pos (synchronizeBatch_blockNotFound hp hc hs)] at h
        exact ih hi (hb.retry hi hs) h
      · cases h
    | ok had =>
      dsimp only at h
      split at h
      · exact ih (Nat.mod_lt _ (by omega)) (hb.next hi hs) h
      · rename_i hstop
        cases h
        exact ⟨i, hb.stop hs (by simpa using hstop)⟩

/-- Whatever the explorer answers and however often the synchronization has to go back: when it
succeeds there is a batch at which it stopped, it has read this one and all before it to the
end, and, but for Ethereum, the last reading found nothing, no saved batch is left and the
observable range is covered. -/
theorem synchronizeBatches_discovers (hp : env.Plain) (hl : b.batches.length ≤ 2 ^ 32)
    (h : env.synchronizeBatches fuel 0 b = some (.ok (), b')) : ∃ k, Discovered env b k b' :=
  synchronizeBatches_reached hp (by omega) ⟨by omega, by omega, le_rfl, hl⟩ h

/-- Two addresses of a keychain, the first of them paid in block 3. -/
def quiet : Env Tools.ChainTransaction where
  halfBatchSize := 1
  getAllObservableAddresses i _ := if i = 0 then ["ours"] else ["spare"]
  getTransactions _ addresses _ :=
    .ok ⟨if addresses = ["ours"] then
      [(Tools.Transaction.new "t" [] []).addToBlock (.new 3 "b3")] else [], false⟩
  putTransaction database _ := .ok database
  getLastBlock := highest
  getLastBlock_highest := highest_spec

theorem synchronizeBatches_discovers_quiet : ∃ k b',
    quiet.synchronizeBatches 5 0 { savedState := {} } = some (.ok (), b') ∧
      Discovered quiet { savedState := {} } k b' := by
  obtain ⟨b', hb⟩ : ∃ b', quiet.synchronizeBatches 5 0 { savedState := {} } =
    some (.ok (), b') := ⟨_, rfl⟩
  have hplain : quiet.Plain := by
    constructor
    · intro n addresses e he
      cases he
    · intro database tx e he
      cases he
  obtain ⟨k, hk⟩ := synchronizeBatches_discovers hplain (by decide) hb
  exact ⟨k, b', hb, hk⟩

end LibCoreCmd.Synchronizer

import LibCoreCmd.Synchronizer.Discovery

/-! A whole synchronization: the check of the saved blocks, the batches, and the operations that
are deleted because their transactions were not seen again. -/
namespace LibCoreCmd.Synchronizer
open Async Explorers
open Tools (Hash)

variable {τ : Type} [ExplorerTransaction τ]

/-- What else a synchronization uses: `std::sort`, which leaves open how batches at one height
are ordered, the session of the explorer, and the tables of the account. What `updateCurrentBlock`
does to the tables, it has done before the first request. -/
structure Session (τ : Type) extends Env τ where
  sort : List BatchSavedState → List BatchSavedState
  sort_sorts : ∀ batches, Sorts (sort batches) batches
  blockExists : Database → Hash → Bool
  getLastBlockWithOperations : Database → Option Block
  updateTransactionsToDrop : Database → AList fun _ : Hash => String
  updateCurrentBlock : Database → Database
  startSession : Try Unit
  killSession : Try Unit

/-- Operations of transactions that were not seen and are not pending are deleted. -/
def Buddy.deleteDropped (b : Buddy τ) : Buddy τ :=
  let dropped := b.transactionsToDrop.entries.filter fun tx =>
    tx.1 ∉ b.savedState.pendingTxsHash
  let operations := b.database.operations.filter fun uid => uid ∉ dropped.map Sigma.snd
  b.setDatabase { b.database with operations }

def Session.start (env : Session τ) (state : Option SavedState) (database : Database) : Buddy τ :=
  let checked := state.map (checkReorganization (env.blockExists database)
    (env.getLastBlockWithOperations database) env.sort)
  { savedState := initializeSavedState checked env.halfBatchSize
    transactionsToDrop := env.updateTransactionsToDrop database
    stored := state
    database := env.updateCurrentBlock database }

def Session.performSynchronization (env : Session τ) (fuel : Nat) (state : Option SavedState)
    (database : Database) : Option (Try Unit × Buddy τ) :=
  match env.startSession with
  | .error e => some (.error e, env.start state database)
  | .ok () =>
    (env.synchronizeBatches fuel 0 (env.start state database)).bind fun
      | (.error e, b) => some (.error e, b)
      | (.ok (), b) =>
        match env.killSession with
        | .error e => some (.error e, b)
        | .ok () => some (.ok (), b.deleteDropped)

/-- A synchronization fails, perhaps before it reads any batch, or it reads them within a session
and deletes what was dropped. -/
theorem performSynchronization_cases {env : Session τ} {fuel : Nat} {state : Option SavedState}
    {database : Database} {out : Try Unit × Buddy τ}
    (h : env.performSynchronization fuel state database = some out) :
    (∃ e, out.1 = .error e ∧ (out.2 = env.start state database ∨
      ∃ r, env.synchronizeBatches fuel 0 (env.start state database) = some (r, out.2))) ∨
    env.startSession = .ok () ∧ env.killSession = .ok () ∧
      ∃ b, env.synchronizeBatches fuel 0 (env.start state database) = some (.ok (), b) ∧
        out = (.ok (), b.deleteDropped) := by
  unfold Session.performSynchronization at h
  split at h
  · cases h
    exact Or.inl ⟨_, rfl, Or.inl rfl⟩
  · rename_i hstart
    rw [Option.bind_eq_some_iff] at h
    obtain ⟨⟨r, b⟩, hrun, h⟩ := h
    cases r with
    | error e =>
      cases h
      exact Or.inl ⟨e, rfl, Or.inr ⟨_, hrun⟩⟩
    | ok _ =>
      dsimp only at h
      split at h
      · cases h
        exact Or.inl ⟨_, rfl, Or.inr ⟨_, hrun⟩⟩
      · rename_i hkill
        cases h
        exact Or.inr ⟨hstart, hkill, b, hrun, rfl⟩

theorem performSynchronization_ok {env : Session τ} {fuel : Nat} {state : Option SavedState}
    {database : Database} {b' : Buddy τ}
    (h : env.performSynchronization fuel state database = some (.ok (), b')) :
    env.startSession = .ok () ∧ env.killSession = .ok () ∧
      ∃ b, env.synchronizeBatches fuel 0 (env.start state database) = some (.ok (), b) ∧
        b' = b.deleteDropped := by
  rcases performSynchronization_cases h with ⟨e, he, -⟩ | ⟨hstart, hkill, b, hrun, he⟩
  · cases he
  · exact ⟨hstart, hkill, b, hrun, congrArg Prod.snd he⟩

variable {env : Env τ} {fuel i : Nat} {b b' b₀ b₁ : Buddy τ} {tx : τ} {txs txs' : List τ}
  {h h' : Hash} {uid : String} {m : AList fun _ : Hash => String}

@[simp] theorem lookup_emplace : (emplace m h uid).lookup h = some ((m.lookup h).getD uid) := by
  unfold emplace
  split
  · rename_i hm
    obtain ⟨v, hv⟩ := Option.isSome_iff_exists.mp (AList.lookup_isSome.mpr hm)
    simp [hv]
  · rename_i hm
    simp [AList.lookup_eq_none.mpr hm]

theorem lookup_emplace_ne (hne : h' ≠ h) : (emplace m h uid).lookup h' = m.lookup h' := by
  unfold emplace
  split
  · rfl
  · exact AList.lookup_insert_ne hne

/-- The transactions received so far. -/
def received (b : Buddy τ) : List τ := b.requests.flatMap Request.transactions

/-- The entry of a hash among the pending ones, by the first transaction that was received with
it, the entry it had among those to be dropped, and the one it had among the pending. -/
def pendingAfter (first : Option τ) (toDrop pending : Option String) : Option String :=
  match first, toDrop with
  | some tx, some uid => if (block tx).isSome then none else some (pending.getD uid)
  | _, _ => pending

def firstWith (h : Hash) (txs : List τ) : Option τ := txs.find? fun tx => hash tx = h

/-- What has become of the entries since `b₀`, when `txs` have been received. -/
structure Kept (b₀ : Buddy τ) (txs : List τ) (b : Buddy τ) : Prop where
  toDrop : ∀ h, b.transactionsToDrop.lookup h =
    if (firstWith h txs).isSome then none else b₀.transactionsToDrop.lookup h
  pending : ∀ h, b.savedState.pendingTxsHash.lookup h =
    pendingAfter (firstWith h txs) (b₀.transactionsToDrop.lookup h)
      (b₀.savedState.pendingTxsHash.lookup h)

theorem firstWith_snoc : firstWith h (txs ++ [tx]) =
    (firstWith h txs).or (if hash tx = h then some tx else none) := by
  simp only [firstWith, List.find?_append, List.find?_singleton, decide_eq_true_eq]

theorem pendingAfter_none (toDrop pending : Option String) :
    pendingAfter (none : Option τ) toDrop pending = pending := rfl

theorem pending_keep : (b.keep tx).savedState.pendingTxsHash.lookup (hash tx) =
    pendingAfter (some tx) (b.transactionsToDrop.lookup (hash tx))
      (b.savedState.pendingTxsHash.lookup (hash tx)) := by
  cases hd : b.transactionsToDrop.lookup (hash tx) with
  | none => simp [Buddy.keep, hd, pendingAfter]
  | some uid =>
    cases hb : block tx with
    | none => simp [Buddy.keep, hd, hb, pendingAfter]
    | some header => simp [Buddy.keep, hd, hb, pendingAfter]

theorem pending_keep_ne (hne : h ≠ hash tx) :
    (b.keep tx).savedState.pendingTxsHash.lookup h = b.savedState.pendingTxsHash.lookup h := by
  cases hd : b.transactionsToDrop.lookup (hash tx) with
  | none => simp [Buddy.keep, hd]
  | some uid =>
    cases hb : block tx with
    | none => simp [Buddy.keep, hd, hb, lookup_emplace_ne hne]
    | some header => simp [Buddy.keep, hd, hb, AList.lookup_erase_ne hne]

/-- The first transaction with a hash decides, the next ones change nothing. -/
theorem Kept.keep (hk : Kept b₀ txs b) : Kept b₀ (txs ++ [tx]) (b.keep tx) := by
  refine ⟨fun h => ?_, fun h => ?_⟩
  · rw [firstWith_snoc]
    by_cases hh : hash tx = h
    · subst hh
      simp [Buddy.keep]
    · simp only [Buddy.keep, AList.lookup_erase_ne (Ne.symm hh), hk.toDrop h, if_neg hh,
        Option.or_none]
  · rw [firstWith_snoc]
    by_cases hh : hash tx = h
    · subst hh
      rw [pending_keep, hk.toDrop, hk.pending, if_pos rfl]
      cases hf : firstWith (hash tx) txs with
      | some first => rfl
      | none => rfl
    · rw [pending_keep_ne (Ne.symm hh), hk.pending, if_neg hh, Option.or_none]

theorem Kept.of_same (hk : Kept b₀ txs b) (hd : b'.transactionsToDrop = b.transactionsToDrop)
    (hp : b'.savedState.pendingTxsHash = b.savedState.pendingTxsHash) : Kept b₀ txs b' :=
  ⟨fun h => by rw [hd, hk.toDrop], fun h => by rw [hp, hk.pending]⟩

theorem Kept.putTransactions (hk : Kept b₀ txs b)
    (h : env.putTransactions b txs' = (.ok (), b')) : Kept b₀ (txs ++ txs') b' := by
  induction txs' generalizing txs b with
  | nil =>
    cases h
    simpa using hk
  | cons tx txs' ih =>
    simp only [Env.putTransactions] at h
    split at h
    · cases h
    · rename_i database _
      have hset : Kept b₀ txs (b.setDatabase database) := hk.of_same rfl rfl
      simpa using ih hset.keep h

/-- What is kept follows from what was received. -/
def Accounts (b₀ b : Buddy τ) : Prop := Kept b₀ (received b) b

omit [ExplorerTransaction τ] in
theorem received_ask (r : Request τ) : received (b.ask r) = received b ++ r.transactions := by
  simp [received]

theorem accounts_addBatch (h : Accounts b₀ b) : Accounts b₀ (b.addBatch i) := by
  have hr : received (b.addBatch i) = received b := by simp [received]
  unfold Accounts
  rw [hr]
  refine h.of_same ?_ ?_ <;> unfold Buddy.addBatch <;> split <;> rfl

/-- A request whose transactions are taken is accounted for, and so is one for a block that is
not found. -/
theorem accounts_getBulk {out : Try (TransactionsBulk τ) × Buddy τ} (hp : env.Plain)
    (h : Accounts b₀ b) (hg : env.getBulk i b = out)
    (he : ∀ e, out.1 = .error e → e.errorCode = .blockNotFound) : Accounts b₀ out.2 := by
  subst hg
  rcases getBulk_cases env i b with ⟨e, b₁, hb₁, -, -, -, ha⟩ | ⟨bulk, b₁, ha, hput, hb₁⟩
  · rcases ha with ha | ⟨database, tx, ha⟩
    · have hask : env.getBulk i b = (.error e, b.ask (env.request i b)) := by
        simp [Env.getBulk, ha]
      rw [hask, Accounts, received_ask, Request.transactions, ha, List.append_nil]
      exact h.of_same rfl rfl
    · exact (hp.account _ _ _ ha (he e (by rw [hb₁]))).elim
  · have hr : received (b₁.advance i bulk.transactions) = received b ++ bulk.transactions := by
      have hsame := (putTransactions_same env (b.ask (env.request i b)) bulk.transactions).2
      rw [hput] at hsame
      dsimp only at hsame
      simp only [received, requests_advance, hsame, requests_ask, List.flatMap_append]
      simp [Request.transactions, ha]
    rw [hb₁, Accounts, hr]
    have hask : Kept b₀ (received b) (b.ask (env.request i b)) := h.of_same rfl rfl
    have hkept := hask.putTransactions hput
    refine hkept.of_same ?_ ?_ <;> unfold Buddy.advance <;> split <;> rfl

/-- What requests keep that are answered or fail for want of a block, a batch keeps if it is
read or fails for want of a block. -/
theorem accounts_synchronizeBatch {had : Bool} {out : Try Bool × Buddy τ} (hp : env.Plain)
    (h : Accounts b₀ b) (hs : env.synchronizeBatch i fuel had b = some out)
    (he : ∀ e, out.1 = .error e → e.errorCode = .blockNotFound) : Accounts b₀ out.2 := by
  induction fuel generalizing had b with
  | zero => cases hs
  | succ fuel ih =>
    simp only [Env.synchronizeBatch] at hs
    cases hg : env.getBulk i b with
    | mk r b₁ =>
      rw [hg] at hs
      cases r with
      | error e =>
        cases hs
        exact accounts_getBulk hp h hg fun e' he' => he e' (by cases he'; rfl)
      | ok bulk =>
        have hnext := accounts_getBulk hp h hg (by intro e he; cases he)
        dsimp only at hs
        split at hs
        · exact ih hnext hs
        · cases hs
          exact hnext

/-- A synchronization of batches that succeeds has accounted for all it received, and has
stored how far it came. -/
theorem accounts_synchronizeBatches (hp : env.Plain) (h : Accounts b₀ b)
    (hs : env.synchronizeBatches fuel i b = some (.ok (), b')) :
    Accounts b₀ b' ∧ b'.stored = some b'.savedState := by
  induction fuel generalizing i b with
  | zero => cases hs
  | succ fuel ih =>
    rw [synchronizeBatches_succ, Option.bind_eq_some_iff] at hs
    obtain ⟨⟨r, b₁⟩, hbatch, hs⟩ := hs
    have hadd : Accounts b₀ (b.addBatch i) := accounts_addBatch h
    cases r with
    | error e =>
      dsimp only at hs
      split at hs
      · rename_i hcode
        have hb₁ := accounts_synchronizeBatch hp hadd hbatch
          (by intro e' he'; cases he'; exact hcode)
        have hrec : Accounts b₀ (env.recover i b₁) := Kept.of_same hb₁ rfl rfl
        rw [if_pos (synchronizeBatch_blockNotFound hp hcode hbatch)] at hs
        exact ih hrec hs
      · cases hs
    | ok had =>
      have hb₁ := accounts_synchronizeBatch hp hadd hbatch (by intro e he; cases he)
      have hstore : Accounts b₀ b₁.store := Kept.of_same hb₁ rfl rfl
      dsimp only at hs
      split at hs
      · exact ih hstore hs
      · cases hs
        exact ⟨hstore, rfl⟩

omit [ExplorerTransaction τ] in
theorem pending_start (env : Session τ) (state : Option SavedState) (database : Database) :
    (env.start state database).savedState.pendingTxsHash =
      state.elim ∅ SavedState.pendingTxsHash := by
  have hcheck : ∀ known last sort (s : SavedState),
      (checkReorganization known last sort s).pendingTxsHash = s.pendingTxsHash := by
    intro known last sort s
    simp only [checkReorganization]
    split <;> rfl
  cases state with
  | none => rfl
  | some s =>
    simp only [Session.start, Option.map_some, initializeSavedState, Option.elim_some]
    split <;> exact hcheck _ _ _ _

theorem firstWith_eq_none : firstWith h txs = none ↔ ∀ tx ∈ txs, hash tx ≠ h := by
  simp [firstWith]

/-- The deletion spares what was received and what is pending. -/
theorem mem_deleteDropped (hk : Kept b₀ txs b) :
    uid ∈ b.deleteDropped.database.operations ↔ uid ∈ b.database.operations ∧
      ∀ h, b₀.transactionsToDrop.lookup h = some uid →
        (∃ tx ∈ txs, hash tx = h) ∨ h ∈ b₀.savedState.pendingTxsHash := by
  have hleft : ∀ h, (b.transactionsToDrop.lookup h = some uid ∧
      h ∉ b.savedState.pendingTxsHash) ↔ (b₀.transactionsToDrop.lookup h = some uid ∧
        firstWith h txs = none ∧ h ∉ b₀.savedState.pendingTxsHash) := by
    intro h
    rw [← AList.lookup_eq_none, ← AList.lookup_eq_none, hk.toDrop, hk.pending]
    cases hf : firstWith h txs with
    | some first => simp
    | none => simp [pendingAfter_none]
  have hdropped : (uid ∈ (b.transactionsToDrop.entries.filter fun tx =>
      tx.1 ∉ b.savedState.pendingTxsHash).map Sigma.snd) ↔
      ∃ h, b.transactionsToDrop.lookup h = some uid ∧ h ∉ b.savedState.pendingTxsHash := by
    simp only [List.mem_map, List.mem_filter, decide_eq_true_eq]
    constructor
    · rintro ⟨⟨h, v⟩, ⟨hm, hn⟩, rfl⟩
      exact ⟨h, AList.mem_lookup_iff.mpr hm, hn⟩
    · rintro ⟨h, hl, hn⟩
      exact ⟨⟨h, uid⟩, ⟨AList.mem_lookup_iff.mp hl, hn⟩, rfl⟩
  simp only [Buddy.deleteDropped, database_setDatabase, List.mem_filter, decide_eq_true_eq,
    hdropped, hleft, not_exists, not_and]
  refine and_congr_right fun _ => forall_congr' fun h => imp_congr_right fun _ => ?_
  rw [firstWith_eq_none]
  constructor
  · intro hspared
    by_contra hnot
    rw [not_or] at hnot
    exact hspared (fun tx htx he => hnot.1 ⟨tx, htx, he⟩) hnot.2
  · rintro (⟨tx, htx, he⟩ | hpend) hnone
    · exact (hnone tx htx he).elim
    · exact fun hn => hn hpend

/-- When a synchronization succeeds, of the operations that the batches left exactly those are
deleted that were to be dropped, whose transaction was in no answer and was not pending before;
whether a transaction is pending now is decided by the first answer that had it, and all this
is stored. -/
theorem performSynchronization_drops {env : Session τ} {state : Option SavedState}
    {database : Database} (hp : env.toEnv.Plain)
    (h : env.performSynchronization fuel state database = some (.ok (), b')) :
    ∃ b, env.synchronizeBatches fuel 0 (env.start state database) = some (.ok (), b) ∧
      received b' = received b ∧ b'.stored = some b'.savedState ∧
      (∀ uid, uid ∈ b'.database.operations ↔ uid ∈ b.database.operations ∧
        ∀ h, (env.updateTransactionsToDrop database).lookup h = some uid →
          (∃ tx ∈ received b', hash tx = h) ∨ h ∈ state.elim ∅ SavedState.pendingTxsHash) ∧
      ∀ h, b'.savedState.pendingTxsHash.lookup h = pendingAfter (firstWith h (received b'))
        ((env.updateTransactionsToDrop database).lookup h)
        ((state.elim ∅ SavedState.pendingTxsHash).lookup h) := by
  obtain ⟨-, -, b, hs, rfl⟩ := performSynchronization_ok h
  have hstart : Accounts (env.start state database) (env.start state database) :=
    ⟨fun h => rfl, fun h => rfl⟩
  obtain ⟨hb, hstored⟩ := accounts_synchronizeBatches hp hstart hs
  rw [← pending_start env state database]
  exact ⟨b, hs, rfl, hstored, fun uid => mem_deleteDropped hb, hb.pending⟩

/-- Two operations may be dropped, and the transaction of one of them is received. -/
def dropping : Session Tools.ChainTransaction where
  toEnv := quiet
  sort := List.insertionSort fun a b => a.blockHeight ≤ b.blockHeight
  sort_sorts := insertionSort_sorts
  blockExists database h := database.blocks.any fun b => b.hash = h
  getLastBlockWithOperations database := highest database.blocks
  updateTransactionsToDrop _ := ((∅ : AList fun _ : Hash => String).insert "t" "kept").insert
    "u" "lost"
  updateCurrentBlock database := { database with blocks := ⟨"tip", 9⟩ :: database.blocks }
  startSession := .ok ()
  killSession := .ok ()

theorem performSynchronization_drops_unseen : ∃ b',
    dropping.performSynchronization 5 none { operations := ["kept", "lost"] } =
      some (.ok (), b') ∧ b'.database.operations = ["kept"] ∧
    ∀ h, (dropping.updateTransactionsToDrop { operations := ["kept", "lost"] }).lookup h =
      some "kept" → (∃ tx ∈ received b', hash tx = h) ∨ h ∈ (∅ : AList fun _ : Hash => String) := by
  obtain ⟨b', hb⟩ : ∃ b', dropping.performSynchronization 5 none
    { operations := ["kept", "lost"] } = some (.ok (), b') := ⟨_, rfl⟩
  have hplain : dropping.toEnv.Plain := by
    constructor
    · intro n addresses e he
      cases he
    · intro database tx e he
      cases he
  have hleft : b'.database.operations = ["kept"] := by
    cases hb
    decide
  obtain ⟨b, -, -, -, hops, -⟩ := performSynchronization_drops hplain hb
  exact ⟨b', hb, hleft, ((hops "kept").mp (by rw [hleft]; decide)).2⟩

end LibCoreCmd.Synchronizer

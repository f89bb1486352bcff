import LibCoreCmd.Transition
import LibCoreCmd.Synchronizer.Dropping
import LibCoreCmd.Synchronizer.Reorganization

/-! The life of an account: one synchronization after the other, each with an explorer that may
answer and fail as it likes, and between them what the synchronizations of other accounts do to
the table of blocks. -/
namespace LibCoreCmd.Synchronizer
open Transition Async Explorers
open Tools (Hash Address)

variable {τ : Type} [ExplorerTransaction τ]

/-- What there is of an account between two synchronizations. -/
structure Persisted where
  state : Option SavedState
  database : Database
deriving DecidableEq

inductive Happening (τ : Type) where
  /-- `performSynchronization`, with success or not. -/
  | synchronize (env : Session τ) (fuel : Nat)
  /-- Rows in the account's currency and in others. -/
  | added (blocks others : List Block)
  /-- Another account, of whatever currency, goes back from a block of this height. -/
  | deleted (failedBlockHeight : Nat)

def Persisted.next (p : Persisted) : Happening τ → Option Persisted
  | .synchronize env fuel => (env.performSynchronization fuel p.state p.database).map fun out =>
      ⟨out.2.stored, out.2.database⟩
  | .added blocks others =>
    some { p with database := { p.database with
      blocks := blocks ++ p.database.blocks
      others := others ++ p.database.others } }
  | .deleted failedBlockHeight =>
    some { p with database := p.database.deleteBlocks failedBlockHeight }

def lifetime : System Persisted (Happening τ) := .ofNext Persisted.next

/-- What the tables promise: a transaction that is taken leaves the row of its block, and no
other; no row is lost when the current block is updated; the rows are what is asked for. And
heights are below those of `1U << 31U`. -/
structure Session.Lawful (env : Session τ) : Prop where
  rows : ∀ database tx database', env.putTransaction database tx = .ok database' →
    ∀ x, x ∈ database'.blocks ↔ x ∈ database.blocks ∨ block tx = some x
  current : ∀ database, database.blocks ⊆ (env.updateCurrentBlock database).blocks ∧
    ∀ x ∈ (env.updateCurrentBlock database).blocks, x ∈ database.blocks ∨ x.height < 2 ^ 31
  blockExists : ∀ database h, env.blockExists database h = true ↔
    ∃ x ∈ database.blocks, x.hash = h
  last : ∀ database x, env.getLastBlockWithOperations database = some x → x ∈ database.blocks
  small : ∀ n addresses h bulk, env.getTransactions n addresses h = .ok bulk →
    ∀ tx ∈ bulk.transactions, ∀ x, block tx = some x → x.height < 2 ^ 31

def Happening.Lawful : Happening τ → Prop
  | .synchronize env _ => env.Lawful
  | .added blocks _ => ∀ x ∈ blocks, x.height < 2 ^ 31
  | .deleted failedBlockHeight => 0 < failedBlockHeight

/-- No saved batch stands at a block whose row another account deletes. -/
def Spares (p : Persisted) : Happening τ → Prop
  | .deleted failedBlockHeight =>
    ∀ s, p.state = some s → ∀ b ∈ s.batches, b.blockHeight < failedBlockHeight
  | _ => True

/-- A saved block that has its row. -/
def Anchored (blocks : List Block) (s : BatchSavedState) : Prop :=
  s.blockHeight = 0 ∨ ∃ x ∈ blocks, s = .ofHeader x

structure Consistent (p : Persisted) : Prop where
  small : ∀ x ∈ p.database.blocks, x.height < 2 ^ 31
  saved : ∀ s, p.state = some s →
    s.batches ≠ [] ∧ ∀ b ∈ s.batches, Anchored p.database.blocks b

/-- The same of a synchronization on its way, and of how far it has come. -/
structure Steady (b : Buddy τ) : Prop where
  consistent : Consistent ⟨b.stored, b.database⟩
  batches : ∀ s ∈ b.batches, Anchored b.database.blocks s

variable {env : Session τ} {fuel i : Nat} {b b' : Buddy τ} {p q : Persisted} {s : SavedState}
  {c : BatchSavedState} {blocks blocks' : List Block} {tx : τ} {txs : List τ} {x : Block}
  {database : Database}

@[simp] theorem lawful_synchronize : (Happening.synchronize env fuel).Lawful ↔ env.Lawful := .rfl
@[simp] theorem lawful_added : (Happening.added blocks blocks' : Happening τ).Lawful ↔
    ∀ x ∈ blocks, x.height < 2 ^ 31 := .rfl
@[simp] theorem lawful_deleted {height : Nat} :
    (Happening.deleted height : Happening τ).Lawful ↔ 0 < height := .rfl

theorem Anchored.mono (h : Anchored blocks c) (hsub : blocks ⊆ blocks') : Anchored blocks' c := by
  rcases h with hz | ⟨x, hx, he⟩
  · exact Or.inl hz
  · exact Or.inr ⟨x, hsub hx, he⟩

theorem Consistent.grow (h : Consistent p) (hsub : p.database.blocks ⊆ database.blocks)
    (hsmall : ∀ x ∈ database.blocks, x.height < 2 ^ 31) : Consistent ⟨p.state, database⟩ := by
  refine ⟨hsmall, fun s hs => ⟨(h.saved s hs).1, fun b hb => ?_⟩⟩
  exact ((h.saved s hs).2 b hb).mono hsub

theorem Steady.put (hl : env.Lawful) (h : Steady b)
    (hput : env.putTransaction b.database tx = .ok database)
    (hsmall : ∀ x, block tx = some x → x.height < 2 ^ 31) :
    Steady ((b.setDatabase database).keep tx) := by
  have hrows := hl.rows _ _ _ hput
  have hsub : b.database.blocks ⊆ database.blocks := fun x hx => (hrows x).mpr (Or.inl hx)
  refine ⟨h.consistent.grow hsub fun x hx => ?_, fun s hs => (h.batches s hs).mono hsub⟩
  rcases (hrows x).mp hx with hx | hx
  · exact h.consistent.small x hx
  · exact hsmall x hx

/-- When all transactions are taken, each has the row of its block. -/
theorem Steady.putTransactions (hl : env.Lawful) (h : Steady b)
    (hsmall : ∀ tx ∈ txs, ∀ x, block tx = some x → x.height < 2 ^ 31)
    (hput : env.putTransactions b txs = (.ok (), b')) :
    Steady b' ∧ b.database.blocks ⊆ b'.database.blocks ∧
      ∀ tx ∈ txs, ∀ x, block tx = some x → x ∈ b'.database.blocks := by
  induction txs generalizing b with
  | nil =>
    cases hput
    exact ⟨h, fun _ hx => hx, nofun⟩
  | cons tx txs ih =>
    simp only [Env.putTransactions] at hput
    split at hput
    · cases hput
    · rename_i database hdatabase
      have hrows := hl.rows _ _ _ hdatabase
      obtain ⟨hsteady, hsub, htaken⟩ := ih (h.put hl hdatabase (hsmall tx (by simp)))
        (fun t ht => hsmall t (List.mem_cons_of_mem tx ht)) hput
      refine ⟨hsteady, fun x hx => hsub ((hrows x).mpr (Or.inl hx)), fun t ht x hx => ?_⟩
      rcases List.mem_cons.mp ht with rfl | ht
      · exact hsub ((hrows x).mpr (Or.inr hx))
      · exact htaken t ht x hx

theorem putTransactions_stored (env : Env τ) (b : Buddy τ) (txs : List τ) :
    (env.putTransactions b txs).2.stored = b.stored := by
  induction txs generalizing b with
  | nil => rfl
  | cons tx txs ih =>
    simp only [Env.putTransactions]
    split
    · rfl
    · exact ih _

theorem Steady.advance (h : Steady b)
    (hrow : ∀ tx ∈ txs, ∀ x, block tx = some x → x ∈ b.database.blocks) :
    Steady (b.advance i txs) := by
  unfold Buddy.advance
  split
  · rename_i x hx
    obtain ⟨tx, htx, hblock⟩ := Option.bind_eq_some_iff.mp hx
    have hmem := hrow tx (List.mem_of_getLast? htx) x hblock
    refine ⟨h.consistent, fun s hs => ?_⟩
    rcases List.mem_or_eq_of_mem_set hs with hs | rfl
    · exact h.batches s hs
    · have hheight := h.consistent.small x hmem
      refine Or.inr ⟨x, hmem, ?_⟩
      rw [Nat.mod_eq_of_lt (Nat.lt_trans hheight (by decide))]
      rfl
  · exact h

theorem Steady.getBulk (hl : env.Lawful) (h : Steady b) : Steady (env.getBulk i b).2 := by
  unfold Env.getBulk
  have hasked : Steady (b.ask (env.request i b)) := ⟨h.consistent, h.batches⟩
  dsimp only
  cases ha : (env.request i b).answer with
  | error e => exact hasked
  | ok bulk =>
    dsimp only
    cases hp : env.putTransactions (b.ask (env.request i b)) bulk.transactions with
    | mk r b₁ =>
      cases r with
      | error e =>
        have hbatches := (putTransactions_same env.toEnv (b.ask (env.request i b))
          bulk.transactions).1
        have hstored := putTransactions_stored env.toEnv (b.ask (env.request i b))
          bulk.transactions
        rw [hp] at hbatches hstored
        have hstored' : b₁.stored = b.stored := hstored
        refine ⟨?_, fun s hs => h.batches s (by simpa [hbatches] using hs)⟩
        have hcons := h.consistent
        rw [← hstored'] at hcons
        exact hcons
      | ok _ =>
        have htaken := hasked.putTransactions hl (hl.small _ _ _ _ ha) hp
        exact htaken.1.advance htaken.2.2

omit [ExplorerTransaction τ] in
theorem Steady.addBatch (h : Steady b) : Steady (b.addBatch i) := by
  unfold Buddy.addBatch
  split
  · refine ⟨h.consistent, fun s hs => ?_⟩
    rcases List.mem_append.mp hs with hs | hs
    · exact h.batches s hs
    · rw [List.mem_singleton] at hs
      exact Or.inl (by rw [hs]; rfl)
  · exact h

omit [ExplorerTransaction τ] in
theorem Steady.store (h : Steady b) (hne : b.batches ≠ []) : Steady b.store := by
  refine ⟨⟨h.consistent.small, fun s hs => ?_⟩, h.batches⟩
  cases hs
  exact ⟨hne, h.batches⟩

omit [ExplorerTransaction τ] in
/-- The rows that are left are those below the block that was not found, and no batch stays
above the last of them. -/
theorem Steady.recover (h : Steady b) (hpos : 0 < (b.batch i).blockHeight) :
    Steady (env.recover i b) := by
  have hsmall : ∀ x ∈ (env.recover i b).database.blocks, x.height < 2 ^ 31 :=
    fun x hx => h.consistent.small x (mem_blocks_recover.mp hx).1
  have hlast : ∀ x, env.lastLeft i b = some x → x.height < 2 ^ 32 :=
    fun x hx => Nat.lt_trans (hsmall x (lastLeft_mem hx)) (by decide)
  have hback : ∀ s ∈ (env.recover i b).batches,
      Anchored (env.recover i b).database.blocks s := by
    rw [batches_recover]
    rintro s hs
    obtain ⟨c, hc, rfl⟩ := List.mem_map.mp hs
    rcases rewind_cases (s := c) hlast with ⟨he, hle⟩ | ⟨he, -⟩
    · rw [he]
      rcases h.batches c hc with hz | ⟨y, hy, rfl⟩
      · exact Or.inl hz
      · have hlow := Nat.lt_of_le_of_lt hle (lastLeft_lt hpos)
        exact Or.inr ⟨y, mem_blocks_recover.mpr ⟨hy, hlow⟩, rfl⟩
    · rw [he]
      cases hl : env.lastLeft i b with
      | none => exact Or.inl rfl
      | some x => exact Or.inr ⟨x, lastLeft_mem hl, rfl⟩
  have hne : (env.recover i b).batches ≠ [] := by
    have hlen := lt_length_of_pos hpos
    rw [← List.length_pos_iff_ne_nil, length_batches_recover]
    omega
  refine ⟨⟨hsmall, fun s hs => ?_⟩, hback⟩
  cases hs
  exact ⟨hne, hback⟩

/-- What requests keep, new batches, going back, and storing, is kept by a synchronization. -/
theorem synchronizeBatches_keeps {env : Env τ} {P : Buddy τ → Prop} {out : Try Unit × Buddy τ}
    (request : ∀ i b, P b → P (env.getBulk i b).2) (add : ∀ i b, P b → P (b.addBatch i))
    (store : ∀ b, b.batches ≠ [] → P b → P b.store)
    (back : ∀ i b, 0 < (b.batch i).blockHeight → P b → P (env.recover i b))
    (hb : P b) (hs : env.synchronizeBatches fuel i b = some out) : P out.2 := by
  induction fuel generalizing i b with
  | zero => cases hs
  | succ fuel ih =>
    rw [synchronizeBatches_succ, Option.bind_eq_some_iff] at hs
    obtain ⟨⟨r, b₁⟩, hbatch, hs⟩ := hs
    have hread : P b₁ := synchronizeBatch_keeps (request i) (add i b hb) hbatch
    have hne : b₁.batches ≠ [] := by
      have hlen : b₁.batches.length = _ := synchronizeBatch_length hbatch
      have hadd : 0 < (b.addBatch i).batches.length := by
        unfold Buddy.addBatch
        split
        · simp
        · omega
      exact List.ne_nil_of_length_pos (by omega)
    cases r with
    | ok had =>
      dsimp only at hs
      split at hs
      · exact ih (store b₁ hne hread) hs
      · cases hs
        exact store b₁ hne hread
    | error e =>
      dsimp only at hs
      split at hs
      · split at hs
        · rename_i hpos
          exact ih (back i b₁ hpos hread) hs
        · cases hs
          exact hread
      · cases hs
        exact hread

theorem Steady.synchronizeBatches (hl : env.Lawful) (h : Steady b)
    {out : Try Unit × Buddy τ} (hs : env.synchronizeBatches fuel i b = some out) :
    Steady out.2 :=
  synchronizeBatches_keeps (fun _ _ hc => hc.getBulk hl) (fun _ _ hc => hc.addBatch)
    (fun _ hne hc => hc.store hne) (fun _ _ hpos hc => hc.recover hpos) h hs

/-- Batches that are to be read from the start or from known blocks are left as they are. -/
theorem checkReorganization_of_usable {known : Hash → Bool} {last : Option Block}
    {sort : List BatchSavedState → List BatchSavedState} (hs : Sorts (sort s.batches) s.batches)
    (hu : ∀ b ∈ s.batches, Usable known b) : checkReorganization known last sort s = s := by
  have hd : Deepest known s.batches _ := hs.deepest
  refine if_neg fun hpos => ?_
  obtain ⟨b, hb, hlost, he⟩ := hd.found hpos
  rcases hu b hb with hz | hk
  · omega
  · simp [hlost] at hk

/-- The check finds the rows of all saved blocks. -/
theorem Consistent.check (hl : env.Lawful) (h : Consistent ⟨some s, database⟩) :
    checkReorganization (env.blockExists database) (env.getLastBlockWithOperations database)
      env.sort s = s := by
  refine checkReorganization_of_usable (env.sort_sorts _) fun b hb => ?_
  rcases (h.saved s rfl).2 b hb with hz | ⟨x, hx, rfl⟩
  · exact Or.inl hz
  · exact Or.inr ((hl.blockExists database x.hash).mpr ⟨x, hx, rfl⟩)

/-- A changed size leaves batches at one of the saved blocks. -/
theorem initializeSavedState_mem {half : Nat} (hne : s.batches ≠ [])
    (hlow : ∀ b ∈ s.batches, b.blockHeight < 2 ^ 31) :
    ∀ b ∈ (initializeSavedState (some s) half).batches, b ∈ s.batches := by
  intro b hb
  simp only [initializeSavedState] at hb
  split at hb
  · obtain ⟨c, hc⟩ := List.exists_mem_of_ne_nil _ hne
    rw [List.eq_of_mem_replicate hb]
    exact foldl_lower_mem_of_lt hc (hlow c hc)
  · exact hb

theorem Consistent.low (h : Consistent ⟨some s, database⟩) :
    ∀ b ∈ s.batches, b.blockHeight < 2 ^ 31 := by
  intro b hb
  rcases (h.saved s rfl).2 b hb with hz | ⟨x, hx, rfl⟩
  · omega
  · exact h.small x hx

theorem Consistent.start_batches (hl : env.Lawful) (h : Consistent ⟨some s, database⟩) :
    (env.start (some s) database).batches =
      (initializeSavedState (some s) env.halfBatchSize).batches := by
  simp [Session.start, Buddy.batches, h.check hl]

theorem Consistent.start_mem (hl : env.Lawful) (h : Consistent ⟨some s, database⟩) :
    ∀ c ∈ (env.start (some s) database).batches, c ∈ s.batches := by
  rw [h.start_batches hl]
  exact initializeSavedState_mem (h.saved s rfl).1 h.low

/-- A synchronization starts from the batches that were saved, and from new ones. -/
theorem Consistent.start_batch (hl : env.Lawful) (h : Consistent ⟨some s, database⟩) (j : Nat) :
    (env.start (some s) database).batch j ∈ s.batches ∨
      (env.start (some s) database).batch j = .fresh := by
  rw [Buddy.batch, List.getD_eq_getElem?_getD]
  cases hj : (env.start (some s) database).batches[j]? with
  | none => exact Or.inr rfl
  | some c => exact Or.inl (h.start_mem hl c (List.mem_of_getElem? hj))

/-- The row of the current block is one more. -/
theorem Consistent.current (hl : env.Lawful) (h : Consistent p) :
    Consistent ⟨p.state, env.updateCurrentBlock p.database⟩ := by
  obtain ⟨hkept, hnew⟩ := hl.current p.database
  exact h.grow hkept fun x hx => (hnew x hx).elim (h.small x) id

theorem Consistent.start (hl : env.Lawful) (h : Consistent p) :
    Steady (env.start p.state p.database) := by
  refine ⟨h.current hl, fun b hb => ?_⟩
  obtain ⟨state, database⟩ := p
  cases state with
  | none => cases hb
  | some s => exact ((h.current hl).saved s rfl).2 b (h.start_mem hl b hb)

theorem Consistent.performSynchronization (hl : env.Lawful) (h : Consistent p)
    {out : Try Unit × Buddy τ}
    (hs : env.performSynchronization fuel p.state p.database = some out) :
    Consistent ⟨out.2.stored, out.2.database⟩ := by
  have hstart := h.start hl
  rcases performSynchronization_cases hs with ⟨-, -, he | ⟨r, hrun⟩⟩ | ⟨-, -, b, hrun, rfl⟩
  · rw [he]
    exact hstart.consistent
  · exact (hstart.synchronizeBatches hl hrun).consistent
  · -- the table of blocks is not touched at the end
    have hend : Consistent ⟨b.stored, b.database⟩ := (hstart.synchronizeBatches hl hrun).consistent
    exact ⟨hend.small, hend.saved⟩

omit [ExplorerTransaction τ] in
/-- A saved block keeps its row as long as it is below those that are deleted. -/
theorem Consistent.deleted_iff {height : Nat} (h : Consistent p) (hpos : 0 < height) :
    Consistent ⟨p.state, p.database.deleteBlocks height⟩ ↔
      Spares p (.deleted height : Happening τ) := by
  have hrows : ∀ x, x ∈ (p.database.deleteBlocks height).blocks ↔
      x ∈ p.database.blocks ∧ x.height < height := by
    intro x
    rw [Database.deleteBlocks, List.mem_filter, decide_eq_true_eq]
  constructor
  · intro hleft s hs b hb
    rcases (hleft.saved s hs).2 b hb with hz | ⟨x, hx, rfl⟩
    · omega
    · exact ((hrows x).mp hx).2
  · intro hspared
    refine ⟨fun x hx => h.small x ((hrows x).mp hx).1, fun s hs => ⟨(h.saved s hs).1, ?_⟩⟩
    intro b hb
    rcases (h.saved s hs).2 b hb with hz | ⟨x, hx, rfl⟩
    · exact Or.inl hz
    · exact Or.inr ⟨x, (hrows x).mpr ⟨hx, hspared s hs _ hb⟩, rfl⟩

theorem Consistent.next_iff {a : Happening τ} (h : Consistent p) (ha : a.Lawful)
    (hs : p.next a = some q) : Consistent q ↔ Spares p a := by
  cases a with
  | synchronize env fuel =>
    obtain ⟨out, hout, rfl⟩ := Option.map_eq_some_iff.mp hs
    exact iff_of_true (h.performSynchronization (lawful_synchronize.mp ha) hout) trivial
  | added blocks others =>
    cases hs
    refine iff_of_true (h.grow (List.subset_append_right _ _) fun x hx => ?_) trivial
    rcases List.mem_append.mp hx with hx | hx
    · exact lawful_added.mp ha x hx
    · exact h.small x hx
  | deleted height =>
    cases hs
    exact h.deleted_iff (lawful_deleted.mp ha)

/-- However the synchronizations of an account went, whatever their explorers answered and
whatever others did to the table, each saved block has its row: the check for reorganizations
in `performSynchronization` leaves the saved state as it is. Only a deletion by another account
that comes to a saved block ends this. -/
theorem lifetime_consistent {as : List (Happening τ)}
    (h : (lifetime.restrict Spares).Run ⟨none, database⟩ as p) (ha : ∀ a ∈ as, a.Lawful)
    (hd : ∀ x ∈ database.blocks, x.height < 2 ^ 31) :
    Consistent p ∧
      (∀ s, p.state = some s → ∀ env : Session τ, env.Lawful →
        checkReorganization (env.blockExists p.database)
          (env.getLastBlockWithOperations p.database) env.sort s = s) ∧
      ∀ a : Happening τ, a.Lawful → ∀ q, p.next a = some q → (Consistent q ↔ Spares p a) := by
  have hcons : Consistent p := by
    have hrun : (∀ a ∈ as, a.Lawful) → Consistent p := by
      refine h.carries (P := fun past q => (∀ a ∈ past, a.Lawful) → Consistent q)
        (fun _ => ⟨hd, nofun⟩) fun past q a r hq hstep hall => ?_
      rw [List.forall_mem_append, List.forall_mem_singleton] at hall
      exact ((hq hall.1).next_iff hall.2 hstep.2).mpr hstep.1
    exact hrun ha
  refine ⟨hcons, fun s hs env hl => ?_, fun a ha q hq => hcons.next_iff ha hq⟩
  obtain ⟨state, database⟩ := p
  obtain rfl : state = some s := hs
  exact hcons.check hl

/-- A wallet of payments on one chain. -/
def onChain (chain : List (ChainBlock Payment)) (halfBatchSize : Nat)
    (addresses : Nat → Nat → List Address) : Session Payment where
  toEnv := .ofChain paid 10 chain halfBatchSize addresses
  sort := List.insertionSort fun a b => a.blockHeight ≤ b.blockHeight
  sort_sorts := insertionSort_sorts
  blockExists database h := database.blocks.any fun b => b.hash = h
  getLastBlockWithOperations database := highest database.blocks
  updateTransactionsToDrop _ := ∅
  updateCurrentBlock database :=
    { database with blocks := (chain.getLast?.map (·.header)).toList ++ database.blocks }
  startSession := .ok ()
  killSession := .ok ()

theorem lawful_onChain {chain : List (ChainBlock Payment)} {half : Nat}
    {addresses : Nat → Nat → List Address} (hsmall : ∀ c ∈ chain, c.header.height < 2 ^ 31) :
    (onChain chain half addresses).Lawful where
  rows database tx database' h x := by
    cases h
    simp [eq_comm]
  current database := by
    refine ⟨List.subset_append_right _ _, fun x hx => ?_⟩
    rcases List.mem_append.mp hx with hx | hx
    · obtain ⟨c, hc, rfl⟩ := Option.map_eq_some_iff.mp (Option.mem_toList.mp hx)
      exact Or.inr (hsmall c (List.mem_of_getLast? hc))
    · exact Or.inl hx
  blockExists database h := by simp [onChain]
  last database x h := by
    have hhighest := highest_spec database.blocks
    have hx : highest database.blocks = some x := h
    rw [hx] at hhighest
    exact hhighest.1
  small n addresses h bulk hans tx htx x hx := by
    have hpage : ∀ rest : List (ChainBlock Payment), rest ⊆ chain →
        bulk = toBulk (Paging.page 10 (concerning paid addresses rest)) → x.height < 2 ^ 31 := by
      rintro rest hsub rfl
      obtain ⟨txs, hc, htx⟩ := List.mem_flatten.mp (Paging.page_front.subset htx)
      obtain ⟨c, hmem, rfl⟩ := List.mem_map.mp hc
      have hlinked := c.linked tx (List.mem_of_mem_filter htx)
      rw [hx, Option.some.injEq] at hlinked
      exact hlinked ▸ hsmall c (hsub hmem)
    simp only [onChain, Env.ofChain] at hans
    split at hans
    · exact hpage chain (List.Subset.refl _) (Except.ok.inj hans).symm
    · split at hans
      · exact hpage _ (List.drop_subset _ _) (Except.ok.inj hans).symm
      · cases hans

def twoBatches (i _ : Nat) : List Address :=
  if i = 0 then ["first"] else if i = 1 then ["second"] else ["spare"]

instance : ∀ (p : Persisted) (a : Happening τ), Decidable (Spares p a)
  | p, .deleted height =>
    inferInstanceAs (Decidable (∀ s ∈ p.state, ∀ b ∈ s.batches, b.blockHeight < height))
  | _, .synchronize _ _ => isTrue trivial
  | _, .added _ _ => isTrue trivial

/-- An account is read, another wallet adds a row and deletes it, and after a reorganization the
account is read again. -/
theorem lifetime_consistent_reorganized : ∃ p : Persisted,
    let old := onChain (keptBlocks ++ [.paying ⟨"o4", 4⟩ [("t", "second")]]) 1 twoBatches
    let new := onChain (keptBlocks ++ newBlocks) 1 twoBatches
    (lifetime.restrict Spares).Run ⟨none, {}⟩
        [.synchronize old 5, .added [⟨"x", 5⟩] [⟨"l", 4⟩], .deleted 5, .synchronize new 9] p ∧
      p.state ≠ none ∧ Consistent p := by
  have hruns : (List.foldlM (fun s a => if Spares s a then s.next a else none) ⟨none, {}⟩ [
      Happening.synchronize (onChain (keptBlocks ++ [.paying ⟨"o4", 4⟩ [("t", "second")]]) 1
        twoBatches) 5, .added [⟨"x", 5⟩] [⟨"l", 4⟩], .deleted 5,
      .synchronize (onChain (keptBlocks ++ newBlocks) 1 twoBatches) 9]).any
        fun p => p.state.isSome := by decide +kernel
  obtain ⟨p, hp, hstate⟩ := (Option.any_eq_true _ _).mp hruns
  have hrun := run_restrict_ofNext.mpr hp
  refine ⟨p, hrun, Option.isSome_iff_ne_none.mp hstate,
    (lifetime_consistent hrun ?_ (List.forall_mem_nil _)).1⟩
  simp only [List.forall_mem_cons, lawful_synchronize, lawful_added, lawful_deleted]
  exact ⟨lawful_onChain (by decide), by decide, by decide, lawful_onChain (by decide),
    List.forall_mem_nil _⟩

section Complete
variable {concerns : List Address → τ → Bool} {limit k : Nat} {kept after : List (ChainBlock τ)}
  {stale : List Block}

/-- An account that was read on the chain that was: all rows are of its blocks, but for that of
the current block, which is not below the one from which the first batch goes on. And the first
batch has lost its block or no batch has, unless the batches get another size. -/
structure Left (env : Session τ) (kept : List (ChainBlock τ)) (stale : List Block)
    (s : SavedState) (database : Database) : Prop where
  consistent : Consistent ⟨some s, database⟩
  rows : ∀ x ∈ database.blocks, x ∈ stale ∨ ∃ c ∈ kept, x = c.header
  current : ∀ x ∈ (env.updateCurrentBlock database).blocks, x ∈ database.blocks ∨
    ((env.start (some s) database).batch 0).blockHeight ≤ x.height
  first : s.halfBatchSize ≠ env.halfBatchSize ∨ Stale stale (s.batches.headD .fresh) ∨
    ∀ b ∈ s.batches, OnKept kept b

theorem Left.onKept_or_stale (h : Left env kept stale s database) (hc : c ∈ s.batches) :
    OnKept kept c ∨ Stale stale c := by
  rcases (h.consistent.saved s rfl).2 c hc with hz | ⟨x, hx, rfl⟩
  · exact Or.inl (Or.inl hz)
  · rcases h.rows x hx with hst | ⟨d, hd, rfl⟩
    · exact Or.inr ⟨x, hst, rfl⟩
    · exact Or.inl (Or.inr ⟨d, hd, rfl⟩)

/-- With another size all batches are at one block. -/
theorem Left.waiting (hl : env.Lawful) (h : Left env kept stale s database) :
    Waiting kept stale (env.start (some s) database) (env.start (some s) database) := by
  have hmem := h.consistent.start_batch hl
  have hon : ∀ j, OnKept kept ((env.start (some s) database).batch j) ∨
      Stale stale ((env.start (some s) database).batch j) := by
    intro j
    rcases hmem j with hj | hj
    · exact h.onKept_or_stale hj
    · exact Or.inl (Or.inl (by rw [hj]; rfl))
  have hrows : ∀ x ∈ (env.start (some s) database).database.blocks,
      (x ∈ stale ∨ ∃ c ∈ kept, x = c.header) ∨
        ((env.start (some s) database).batch 0).blockHeight ≤ x.height :=
    fun x hx => (h.current x hx).imp (h.rows x) id
  refine ⟨fun j => ⟨hon j, le_rfl⟩, hrows, ?_, rfl⟩
  by_cases hsize : s.halfBatchSize = env.halfBatchSize
  · have hsame : ∀ j, (env.start (some s) database).batch j = s.batches.getD j .fresh := by
      intro j
      rw [Buddy.batch, h.consistent.start_batches hl, initializeSavedState,
        if_neg (not_not.mpr hsize)]
    rcases h.first with hne | hst | hall
    · exact (hne hsize).elim
    · rw [hsame]
      left
      simpa [List.getD_eq_getElem?_getD, ← List.head?_eq_getElem?] using hst
    · refine Or.inr fun j => ?_
      rcases hmem j with hj | hj
      · exact hall _ hj
      · exact Or.inl (by rw [hj]; rfl)
  · have hsame : ∀ j, (env.start (some s) database).batch j =
        (env.start (some s) database).batch 0 ∨
          (env.start (some s) database).batch j = .fresh := by
      intro j
      simp only [Buddy.batch, h.consistent.start_batches hl, initializeSavedState, if_pos hsize,
        List.getD_eq_getElem?_getD, List.getElem?_replicate]
      split <;> simp
    rcases hon 0 with hzero | hst
    · refine Or.inr fun j => ?_
      rcases hsame j with hj | hj
      · rw [hj]
        exact hzero
      · exact Or.inl (by rw [hj]; rfl)
    · exact Or.inl hst

/-- If the current block is below the one that is gone, its row stays, the batches go back to it
only, and a payment before it is never received. -/
example : ∃ b' tx,
    let env := onChain (keptBlocks ++ newBlocks) 1 twoBatches
    let s : SavedState :=
      { halfBatchSize := 1, batches := [.ofHeader ⟨"o4", 4⟩, .ofHeader ⟨"o4", 4⟩] }
    env.performSynchronization 9 (some s) { blocks := [⟨"k", 1⟩, ⟨"o4", 4⟩] } =
      some (.ok (), b') ∧
    tx ∈ env.concerned paid (keptBlocks ++ newBlocks) 1 0 ∧
    (∀ c ∈ keptBlocks, tx ∉ c.transactions) ∧ ∀ r ∈ b'.requests, tx ∉ r.transactions := by
  refine ⟨_, ⟨"t2", "second", ⟨"n2", 2⟩⟩, rfl, by decide, by decide, by decide⟩

end Complete

end LibCoreCmd.Synchronizer

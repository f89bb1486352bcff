import Mathlib.Algebra.Ring.Nat
import LibCoreCmd.Tools.Datas
import Mathlib.Data.List.AList
import Mathlib.Data.List.Sort
import Mathlib.Tactic.Common

/-! What the core's synchronizer keeps of an account from one synchronization to the next: how
far each batch of addresses has been read. -/
namespace LibCoreCmd.Synchronizer
open Tools (Hash)

/-- The block a batch of addresses has been read up to. -/
structure BatchSavedState where
  blockHash : Hash := ""
  blockHeight : Nat := 0
deriving DecidableEq, Repr

/-- A batch that has not been read. -/
def BatchSavedState.fresh : BatchSavedState := {}

structure SavedState where
  halfBatchSize : Nat := 0
  batches : List BatchSavedState := []
  pendingTxsHash : AList fun _ : Hash => String := ∅
deriving DecidableEq

/-- A row of the table of blocks, and what a transaction says of its block. -/
structure Block where
  hash : Hash
  height : Nat
deriving DecidableEq, Repr

variable {s : SavedState} {b c m : BatchSavedState} {bs : List BatchSavedState}
  {half i a d d' : Nat} {known : Hash → Bool} {previousBlock : Option Block}

/-- An `int32_t` that holds `n`, converted to `size_t`. -/
def sizeOf32 (n : Nat) : Nat := if n < 2 ^ 31 then n else n + (2 ^ 64 - 2 ^ 32)

/-- The lower of two batches, the one seen first if they are level. -/
def lower (block state : BatchSavedState) : BatchSavedState :=
  if state.blockHeight < block.blockHeight then state else block

def newBatchCount (s : SavedState) (halfBatchSize : Nat) : Nat :=
  let count := s.batches.length * s.halfBatchSize / sizeOf32 halfBatchSize
  if count ≠ 0 then count + 1 else count

def initializeSavedState (savedState : Option SavedState) (halfBatchSize : Nat) : SavedState :=
  match savedState with
  | some s =>
    if s.halfBatchSize ≠ halfBatchSize then
      let block := s.batches.foldl lower { blockHeight := 2 ^ 31 }
      { s with
        halfBatchSize
        batches := List.replicate (newBatchCount s halfBatchSize + 1) block }
    else s
  | none => { halfBatchSize }

theorem lower_cases : lower m c = m ∨ lower m c = c := by
  unfold lower
  split
  · exact Or.inr rfl
  · exact Or.inl rfl

theorem lower_le : (lower m c).blockHeight ≤ m.blockHeight ∧
    (lower m c).blockHeight ≤ c.blockHeight := by
  unfold lower
  split <;> omega

theorem foldl_lower_le_start : (bs.foldl lower m).blockHeight ≤ m.blockHeight := by
  induction bs generalizing m with
  | nil => exact le_rfl
  | cons b bs ih => exact le_trans ih lower_le.1

theorem foldl_lower_le (hb : b ∈ bs) : (bs.foldl lower m).blockHeight ≤ b.blockHeight := by
  induction bs generalizing m with
  | nil => cases hb
  | cons c bs ih =>
    rcases List.mem_cons.mp hb with rfl | hb
    · have hstart : (bs.foldl lower (lower m b)).blockHeight ≤ _ := foldl_lower_le_start
      exact le_trans hstart lower_le.2
    · exact ih hb

theorem foldl_lower_mem : bs.foldl lower m = m ∨ bs.foldl lower m ∈ bs := by
  induction bs generalizing m with
  | nil => exact Or.inl rfl
  | cons c bs ih =>
    rcases ih (m := lower m c) with he | hm
    · rcases lower_cases (m := m) (c := c) with hl | hl
      · exact Or.inl (he.trans hl)
      · exact Or.inr (List.mem_cons.mpr (Or.inl (he.trans hl)))
    · exact Or.inr (List.mem_cons_of_mem c hm)

/-- The fold finds a batch of the list once one of them is lower than where it starts. -/
theorem foldl_lower_mem_of_lt (hb : b ∈ bs) (hlt : b.blockHeight < m.blockHeight) :
    bs.foldl lower m ∈ bs := by
  rcases foldl_lower_mem (m := m) with he | hm
  · have hle := foldl_lower_le (m := m) hb
    rw [he] at hle
    omega
  · exact hm

/-- There is a new batch for every address of an old one. -/
theorem div_le_newBatchCount (hh : half < 2 ^ 31) (ha : a < s.batches.length * s.halfBatchSize) :
    a / half ≤ newBatchCount s half := by
  have hle : a / half ≤ s.batches.length * s.halfBatchSize / half :=
    Nat.div_le_div_right (by omega)
  simp only [newBatchCount, sizeOf32, if_pos hh]
  split <;> omega

/-- Whatever the new size of the batches, every address of an old batch is in a new one, and
this one is read on from a block of an old batch that is no later than the old one's own. -/
theorem initializeSavedState_covers (hh : 0 < half ∧ half < 2 ^ 31) (hb : b ∈ s.batches)
    (hlow : b.blockHeight < 2 ^ 31) (hi : i < s.batches.length)
    (ha : i * s.halfBatchSize ≤ a ∧ a < (i + 1) * s.halfBatchSize) :
    (initializeSavedState (some s) half).halfBatchSize = half ∧
    ∃ c, (initializeSavedState (some s) half).batches[a / half]? = some c ∧ c ∈ s.batches ∧
      c.blockHeight ≤ s.batches[i].blockHeight := by
  by_cases he : s.halfBatchSize = half
  · have hdiv : a / half = i := by
      rw [← he]
      exact Nat.div_eq_of_lt_le ha.1 ha.2
    refine ⟨by simp [initializeSavedState, he], s.batches[i], ?_, List.getElem_mem hi, le_rfl⟩
    simp [initializeSavedState, he, hdiv, hi]
  · have hcount : a / half ≤ newBatchCount s half := by
      apply div_le_newBatchCount hh.2
      exact lt_of_lt_of_le ha.2 (Nat.mul_le_mul_right _ hi)
    refine ⟨by simp [initializeSavedState, he],
      s.batches.foldl lower { blockHeight := 2 ^ 31 }, ?_, ?_, ?_⟩
    · simp [initializeSavedState, he, Nat.lt_succ_of_le hcount]
    · exact foldl_lower_mem_of_lt hb hlow
    · exact foldl_lower_le (List.getElem_mem hi)

/-- Two batches of 20 addresses become four of 15; address 37 was in the second. -/
theorem initializeSavedState_covers_narrower :
    let s : SavedState := { halfBatchSize := 20, batches := [⟨"b9", 9⟩, ⟨"b4", 4⟩] }
    (initializeSavedState (some s) 15).halfBatchSize = 15 ∧
    ∃ c, (initializeSavedState (some s) 15).batches[37 / 15]? = some c ∧ c ∈ s.batches ∧
      c.blockHeight ≤ 4 :=
  initializeSavedState_covers (b := ⟨"b4", 4⟩) (i := 1) ⟨by decide, by decide⟩ (by decide)
    (by decide) (by decide) ⟨by decide, by decide⟩

/-- The loop over the batches from the lowest on, up to the first whose block is known. -/
def deepestFailedBlockHeight (blockExists : Hash → Bool) : Nat → List BatchSavedState → Nat
  | height, [] => height
  | height, batch :: sortedBatches =>
    if blockExists batch.blockHash then height
    else deepestFailedBlockHeight blockExists batch.blockHeight sortedBatches

/-- The batches from the failed height on go back to the last block with operations. -/
def checkReorganization (blockExists : Hash → Bool) (previousBlock : Option Block)
    (sort : List BatchSavedState → List BatchSavedState) (s : SavedState) : SavedState :=
  let deepest := deepestFailedBlockHeight blockExists 0 (sort s.batches)
  if 0 < deepest then
    { s with batches := s.batches.map fun batch =>
        if deepest ≤ batch.blockHeight then
          ⟨previousBlock.elim "" (·.hash), previousBlock.elim 0 (·.height) % 2 ^ 32⟩
        else batch }
  else s

/-- What `std::sort` promises: batches at one height come in any order. -/
structure Sorts (sortedBatches batches : List BatchSavedState) : Prop where
  perm : sortedBatches.Perm batches
  sorted : sortedBatches.Pairwise fun b c => b.blockHeight ≤ c.blockHeight

/-- A batch that is read from the start or from a block that is known. -/
def Usable (known : Hash → Bool) (b : BatchSavedState) : Prop :=
  b.blockHeight = 0 ∨ known b.blockHash = true

theorem insertionSort_sorts (bs : List BatchSavedState) :
    Sorts (bs.insertionSort fun b c => b.blockHeight ≤ c.blockHeight) bs where
  perm := List.perm_insertionSort _ _
  sorted := by
    have : Std.Total fun b c : BatchSavedState => b.blockHeight ≤ c.blockHeight :=
      ⟨fun b c => Nat.le_total _ _⟩
    have : IsTrans BatchSavedState fun b c => b.blockHeight ≤ c.blockHeight :=
      ⟨fun _ _ _ => Nat.le_trans⟩
    exact List.pairwise_insertionSort _ _

theorem le_deepest (hs : bs.Pairwise fun b c => b.blockHeight ≤ c.blockHeight)
    (hd : ∀ b ∈ bs, d ≤ b.blockHeight) : d ≤ deepestFailedBlockHeight known d bs := by
  induction bs generalizing d with
  | nil => exact le_rfl
  | cons b bs ih =>
    rw [List.pairwise_cons] at hs
    unfold deepestFailedBlockHeight
    split
    · exact le_rfl
    · exact (hd b (by simp)).trans (ih hs.2 hs.1)

/-- The height found is that of an unknown block, or the loop has not begun. -/
theorem deepest_unknown : deepestFailedBlockHeight known d bs = d ∨ ∃ b ∈ bs,
    known b.blockHash = false ∧ b.blockHeight = deepestFailedBlockHeight known d bs := by
  induction bs generalizing d with
  | nil => exact Or.inl rfl
  | cons b bs ih =>
    unfold deepestFailedBlockHeight
    split
    · exact Or.inl rfl
    · rename_i hb
      rcases ih (d := b.blockHeight) with he | ⟨c, hc, hu, he⟩
      · exact Or.inr ⟨b, by simp, by simpa using hb, he.symm⟩
      · exact Or.inr ⟨c, List.mem_cons_of_mem b hc, hu, he⟩

/-- All that is lower is unknown. -/
theorem unknown_of_lt_deepest (hs : bs.Pairwise fun b c => b.blockHeight ≤ c.blockHeight)
    (hd : ∀ b ∈ bs, d ≤ b.blockHeight) (hb : b ∈ bs)
    (hlt : b.blockHeight < deepestFailedBlockHeight known d bs) : known b.blockHash = false := by
  induction bs generalizing d with
  | nil => cases hb
  | cons c bs ih =>
    rw [List.pairwise_cons] at hs
    unfold deepestFailedBlockHeight at hlt
    split at hlt
    · have := hd b hb
      omega
    · rename_i hc
      rcases List.mem_cons.mp hb with rfl | hb
      · simpa using hc
      · exact ih hs.2 hs.1 hb hlt

/-- What is higher is so above a known block. -/
theorem known_of_deepest_lt (hs : bs.Pairwise fun b c => b.blockHeight ≤ c.blockHeight)
    (hb : b ∈ bs) (hlt : deepestFailedBlockHeight known d bs < b.blockHeight) :
    ∃ c ∈ bs, known c.blockHash = true ∧ c.blockHeight ≤ b.blockHeight := by
  induction bs generalizing d with
  | nil => cases hb
  | cons c bs ih =>
    rw [List.pairwise_cons] at hs
    unfold deepestFailedBlockHeight at hlt
    split at hlt
    · rename_i hc
      refine ⟨c, by simp, hc, ?_⟩
      rcases List.mem_cons.mp hb with rfl | hb
      · exact le_rfl
      · exact hs.1 b hb
    · rcases List.mem_cons.mp hb with rfl | hb
      · have hle : _ ≤ deepestFailedBlockHeight known _ bs := le_deepest hs.2 hs.1
        omega
      · obtain ⟨e, he, hk, hle⟩ := ih hs.2 hb hlt
        exact ⟨e, List.mem_cons_of_mem c he, hk, hle⟩

/-- What the loop over the sorted batches says of the batches. -/
structure Deepest (known : Hash → Bool) (bs : List BatchSavedState) (deepest : Nat) : Prop where
  found : 0 < deepest → ∃ b ∈ bs, known b.blockHash = false ∧ b.blockHeight = deepest
  lower : ∀ b ∈ bs, b.blockHeight < deepest → known b.blockHash = false
  higher : ∀ b ∈ bs, deepest < b.blockHeight →
    ∃ c ∈ bs, known c.blockHash = true ∧ c.blockHeight ≤ b.blockHeight

theorem Sorts.deepest {sortedBatches : List BatchSavedState} (hs : Sorts sortedBatches bs) :
    Deepest known bs (deepestFailedBlockHeight known 0 sortedBatches) := by
  refine ⟨fun hpos => ?_, fun b hb hlt => ?_, fun b hb hlt => ?_⟩
  · have hu : _ = 0 ∨ ∃ b ∈ sortedBatches, known b.blockHash = false ∧ _ := deepest_unknown
    rcases hu with he | ⟨b, hb, h⟩
    · omega
    · exact ⟨b, hs.perm.mem_iff.mp hb, h⟩
  · exact unknown_of_lt_deepest hs.sorted (fun _ _ => Nat.zero_le _) (hs.perm.mem_iff.mpr hb) hlt
  · obtain ⟨c, hc, h⟩ := known_of_deepest_lt hs.sorted (hs.perm.mem_iff.mpr hb) hlt
    exact ⟨c, hs.perm.mem_iff.mp hc, h⟩

/-- A batch lost its block, all below are new, and any other that lost its own is above a batch
whose block is known. -/
def LowestLost (known : Hash → Bool) (bs : List BatchSavedState) (b : BatchSavedState) : Prop :=
  b ∈ bs ∧ ¬ Usable known b ∧
    (∀ c ∈ bs, c.blockHeight < b.blockHeight → c.blockHeight = 0 ∧ known c.blockHash = false) ∧
    ∀ c ∈ bs, ¬ Usable known c → b.blockHeight < c.blockHeight →
      ∃ e ∈ bs, known e.blockHash = true ∧ e.blockHeight < c.blockHeight

variable {previousBlock : Option Block} {sort : List BatchSavedState → List BatchSavedState}

/-- The loop finds the height of a single lowest batch that lost its block. -/
theorem LowestLost.deepest_eq (hl : LowestLost known bs b)
    (hf : ∀ b ∈ bs, ∀ c ∈ bs, b.blockHeight = c.blockHeight → b.blockHash = c.blockHash)
    (hd : Deepest known bs d) : d = b.blockHeight := by
  obtain ⟨hb, hlost, hbelow, habove⟩ := hl
  rw [Usable, not_or, Bool.not_eq_true] at hlost
  apply Nat.le_antisymm
  · by_contra hlt
    obtain ⟨c, hc, hu, he⟩ := hd.found (by omega)
    have hclost : ¬ Usable known c := by
      rw [Usable, not_or, Bool.not_eq_true]
      exact ⟨by omega, hu⟩
    obtain ⟨e, hemem, hek, helt⟩ := habove c hc hclost (by omega)
    have hunknown := hd.lower e hemem (by omega)
    simp [hek] at hunknown
  · by_contra hlt
    obtain ⟨c, hc, hk, hle⟩ := hd.higher b hb (by omega)
    rcases Nat.lt_or_eq_of_le hle with hlow | he
    · have hnew := (hbelow c hc hlow).2
      simp [hk] at hnew
    · rw [hf c hc b hb he] at hk
      simp [hk] at hlost

/-- After the check every batch is read from the start or from a known block exactly when none
had lost its block, or when those that had are at one height and, but for new ones, lowest, or
above a known block. -/
theorem checkReorganization_usable_iff (hs : Sorts (sort s.batches) s.batches)
    (hf : ∀ b ∈ s.batches, ∀ c ∈ s.batches, b.blockHeight = c.blockHeight →
      b.blockHash = c.blockHash)
    (hp : ∀ x, previousBlock = some x → known x.hash = true) :
    (∀ b ∈ (checkReorganization known previousBlock sort s).batches, Usable known b) ↔
      (∀ b ∈ s.batches, Usable known b) ∨ ∃ b, LowestLost known s.batches b := by
  have hd : Deepest known s.batches _ := hs.deepest
  simp only [checkReorganization]
  generalize deepestFailedBlockHeight known 0 (sort s.batches) = d at hd
  have hback : Usable known
      ⟨previousBlock.elim "" (·.hash), previousBlock.elim 0 (·.height) % 2 ^ 32⟩ := by
    cases hx : previousBlock with
    | none => exact Or.inl rfl
    | some x => exact Or.inr (hp x hx)
  by_cases hpos : 0 < d
  · rw [if_pos hpos]
    simp only [List.forall_mem_map]
    constructor
    · intro h
      obtain ⟨b, hb, hu, he⟩ := hd.found hpos
      refine Or.inr ⟨b, hb, ?_, fun c hc hlt => ?_, fun c hc hlost hlt => ?_⟩
      · rw [Usable, not_or, Bool.not_eq_true]
        exact ⟨by omega, hu⟩
      · have husable := h c hc
        rw [if_neg (by omega)] at husable
        have hunknown := hd.lower c hc (by omega)
        exact ⟨husable.resolve_right (by simp [hunknown]), hunknown⟩
      · obtain ⟨e, hemem, hk, hle⟩ := hd.higher c hc (by omega)
        refine ⟨e, hemem, hk, lt_of_le_of_ne hle fun heq => hlost (Or.inr ?_)⟩
        rwa [← hf e hemem c hc heq]
    · rintro (hall | ⟨b, hl⟩) c hc
      · obtain ⟨b, hb, hu, he⟩ := hd.found hpos
        rcases hall b hb with hz | hk
        · omega
        · simp [hu] at hk
      · have he := hl.deepest_eq hf hd
        split
        · exact hback
        · exact Or.inl (hl.2.2.1 c hc (by omega)).1
  · rw [if_neg hpos]
    refine ⟨Or.inl, ?_⟩
    rintro (hall | ⟨b, hl⟩)
    · exact hall
    · have he := hl.deepest_eq hf hd
      exact (hl.2.1 (Or.inl (by omega))).elim

def lowestLost : SavedState where
  batches := [⟨"m", 7⟩, ⟨"x", 5⟩, .fresh]

/-- The lowest batch lost its block at height 5, and goes back with the one above. -/
theorem checkReorganization_usable_iff_lowest :
    let known : Hash → Bool := (· ∈ ["k", "m"])
    let byHeight := List.insertionSort fun b c : BatchSavedState => b.blockHeight ≤ c.blockHeight
    let checked := checkReorganization known (some ⟨"k", 3⟩) byHeight lowestLost
    checked.batches = [⟨"k", 3⟩, ⟨"k", 3⟩, .fresh] ∧ ∀ b ∈ checked.batches, Usable known b := by
  refine ⟨by decide, (checkReorganization_usable_iff (insertionSort_sorts _) (by decide) ?_).mpr
    (Or.inr ⟨⟨"x", 5⟩, ?_⟩)⟩
  · rintro x ⟨⟩
    rfl
  · unfold LowestLost Usable
    decide

end LibCoreCmd.Synchronizer

import LibCoreCmd.Tools.GenData

/-! The chain yielded so far, as a reader sees it: with the objects of the heap in place of the
references. An operation only adds to the heap, so it leaves the blocks before it alone. -/
namespace LibCoreCmd.Tools.GenData
open Transition

variable {heap news : Heap} {refs inps outs : List Ref} {r d : Nat} {s t : State}
  {randomSha : Nat → Hash} {fee : Int} {command : Command} {commands : List Command}
  {ν : Type} [BIP32Node ν] {root : ν} {hash : Hash} {header : BlockHeader}

theorem read_append_left (hr : r < heap.length) : (heap ++ news).read r = heap.read r := by
  simp only [Heap.read, List.getD_eq_getElem?_getD, List.getElem?_append_left hr]

theorem read_eq_getElem (hr : r < heap.length) : heap.read r = heap[r] := by
  simp only [Heap.read, List.getD_eq_getElem?_getD, List.getElem?_eq_getElem hr, Option.getD_some]

@[simp] theorem read_append_length {o : TransactionOutput} :
    (heap ++ o :: news).read heap.length = o := by
  simp [Heap.read]

@[simp] theorem read_append_length_succ {o o' : TransactionOutput} :
    (heap ++ o :: o' :: news).read (heap.length + 1) = o' := by
  simp [Heap.read]

/-- Numbering an output leaves its value. -/
theorem value_numberOutputs (heap : Heap) (hash : Hash) (outs : List Ref) (r : Ref) :
    ((heap.numberOutputs hash outs).read r).value = (heap.read r).value := by
  have numbered (heap : Heap) (o ind : Nat) :
      (Heap.read (heap.modify o (·.addToTransaction ind hash)) r).value = (heap.read r).value := by
    simp only [Heap.read, List.getD_eq_getElem?_getD, List.getElem?_modify]
    by_cases ho : o = r
    · cases heap[r]? <;> simp [ho, TransactionOutput.addToTransaction]
    · simp [ho]
  unfold Heap.numberOutputs
  generalize outs.zipIdx = numbers
  induction numbers generalizing heap with
  | nil => rfl
  | cons x numbers ih => exact (ih _).trans (numbered heap x.1 x.2)

@[simp] theorem total_nil : heap.total [] = 0 := rfl

@[simp] theorem total_cons : heap.total (r :: refs) = (heap.read r).value + heap.total refs := by
  simp [Heap.total]

@[simp] theorem total_append : heap.total (inps ++ outs) = heap.total inps + heap.total outs := by
  simp [Heap.total]

theorem total_append_left (hr : ∀ r ∈ refs, r < heap.length) :
    (heap ++ news).total refs = heap.total refs := by
  rw [Heap.total, Heap.total]
  congr 1
  exact List.map_congr_left fun r h => by rw [read_append_left (hr r h)]

/-- The objects a transaction speaks of. -/
def references (tr : Transaction Ref) : List Ref :=
  tr.inputs.map (·.transactionOutput) ++ tr.outputs

theorem map_eq_of_references {heap' : Heap} {tr : Transaction Ref}
    (h : ∀ r ∈ references tr, heap'.read r = heap.read r) :
    tr.map heap'.read = tr.map heap.read := by
  simp only [Transaction.map, Transaction.mk.injEq, true_and, and_true]
  refine ⟨List.map_congr_left fun inp hi => ?_, List.map_congr_left fun o ho => ?_⟩
  · rw [h _ (List.mem_append_left _ (List.mem_map_of_mem hi))]
  · exact h o (List.mem_append_right _ ho)

/-- The transaction that spends `inps` for `outs`, as it stands in its block. -/
def emitted (hash : Hash) (inps outs : List Ref) (header : BlockHeader) : Transaction Ref :=
  (Transaction.new hash (inps.map ({ transactionOutput := · })) outs).addToBlock header

theorem emitted_inputs (hash : Hash) (inps outs : List Ref) (header : BlockHeader) :
    (emitted hash inps outs header).inputs.map (·.transactionOutput) = inps := by
  simp only [emitted, Transaction.addToBlock, Transaction.new, List.zipIdx_map, List.map_map]
  exact (List.map_congr_left fun x _ => rfl).trans (List.zipIdx_map_fst 0 inps)

@[simp] theorem references_emitted : references (emitted hash inps outs header) = inps ++ outs := by
  rw [references, emitted_inputs]
  rfl

theorem inputValues_emitted (hash : Hash) (inps outs : List Ref) (header : BlockHeader) :
    (((emitted hash inps outs header).map heap.read).inputs.map
      (·.transactionOutput.value)).sum = heap.total inps := by
  rw [Heap.total, ← congrArg (List.map fun r => (heap.read r).value)
    (emitted_inputs hash inps outs header)]
  simp [Transaction.map, Function.comp_def]

theorem getFee_emitted :
    ((emitted hash inps outs header).map heap.read).getFee = heap.total inps - heap.total outs := by
  rw [Transaction.getFee, inputValues_emitted, Transaction.getAmount]
  simp [Transaction.map, emitted, Transaction.addToBlock, Transaction.new, Heap.total,
    Function.comp_def]

theorem Yields.transactions (hy : Yields randomSha s t d inps outs news) :
    t.prevBlock.transactions = [emitted (randomSha d) inps outs t.prevBlock.header] := by
  rw [hy.prevBlock]
  rfl

/-- The chain as a reader sees it. -/
def State.chain (s : State) : List (Block TransactionOutput) :=
  s.yielded.map (Block.map s.heap.read)

/-- Every reference in use leads to an object. -/
structure InHeap (s : State) : Prop where
  pool : ∀ r : Nat, r ∈ s.UTXOs → r < s.heap.length
  chain : ∀ b ∈ s.yielded, ∀ tr ∈ b.transactions, ∀ r : Nat, r ∈ references tr → r < s.heap.length
  begun : s.yielded ≠ []

theorem inHeap_start : InHeap .start := by
  refine ⟨by simp [State.start], ?_, by simp [State.start]⟩
  intro b hb tr ht
  simp [State.start] at hb
  subst hb
  simp [genesis, Block.new] at ht

theorem InHeap.yields (hi : InHeap s) (hy : Yields randomSha s t d inps outs news)
    (hp : ∀ r : Nat, r ∈ t.UTXOs ∨ r ∈ inps ∨ r ∈ outs → r < s.heap.length + news.length) :
    InHeap t := by
  have hlen : t.heap.length = s.heap.length + news.length := by rw [hy.heap, List.length_append]
  refine ⟨fun r hr => hlen ▸ hp r (Or.inl hr), ?_, by simp [hy.yielded]⟩
  intro b hb tr ht r h
  rw [hy.yielded, List.mem_append] at hb
  rcases hb with hb | hb
  · have := hi.chain b hb tr ht r h
    omega
  · rw [List.mem_singleton.mp hb, hy.transactions, List.mem_singleton] at ht
    rw [ht, references_emitted, List.mem_append] at h
    exact hlen ▸ hp r (Or.inr h)

theorem InHeap.step (hi : InHeap s) (ho : Operation root randomSha fee s t command) :
    InHeap t := by
  have hp := hi.pool
  cases ho with
  | get hy hu =>
    refine hi.yields hy fun r hr => ?_
    simp only [hu, List.mem_append, List.mem_singleton, List.length_cons, List.length_nil] at hr ⊢
    grind
  | spend hs _ hy =>
    refine hi.yields hy fun r hr => ?_
    simp only [hs, List.mem_append, List.mem_singleton, List.length_cons,
      List.length_nil] at hp hr ⊢
    grind
  | change hs _ hy hu =>
    refine hi.yields hy fun r hr => ?_
    simp only [hs, hu, List.mem_append, List.mem_cons, List.not_mem_nil, List.length_cons,
      List.length_nil] at hp hr ⊢
    grind
  | other hy hu =>
    refine hi.yields hy fun r hr => ?_
    simp only [hu, List.not_mem_nil] at hr
    grind

theorem inHeap_run (hr : (generator root randomSha fee).Run .start commands s) : InHeap s :=
  hr.invariant inHeap_start fun _ _ _ hi hstep => hi.step (operation_of_step hstep)

/-- The chain grows by the new block. -/
theorem InHeap.chain_yields (hi : InHeap s) (hy : Yields randomSha s t d inps outs news) :
    t.chain = s.chain ++ [t.prevBlock.map t.heap.read] := by
  rw [State.chain, hy.yielded, List.map_append, State.chain]
  congr 1
  refine List.map_congr_left fun b hb => ?_
  simp only [Block.map, Block.mk.injEq, and_self, and_true]
  refine List.map_congr_left fun tr ht => map_eq_of_references fun r h => ?_
  rw [hy.heap, read_append_left (hi.chain b hb tr ht r h)]

theorem yields_of_operation (ho : Operation root randomSha fee s t command) :
    ∃ d inps outs news, Yields randomSha s t d inps outs news := by
  cases ho with
  | get hy | spend _ _ hy | change _ _ hy | other hy => exact ⟨_, _, _, _, hy⟩

end LibCoreCmd.Tools.GenData

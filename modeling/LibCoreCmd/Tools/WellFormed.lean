import LibCoreCmd.Tools.GenChain

/-! The generated chain is well formed, and each address is used once: the counters of the
generator are the numbers of addresses issued so far. -/
namespace LibCoreCmd.Tools.GenData
open Transition

variable {ν : Type} [BIP32Node ν] {root : ν} {randomSha : Nat → Hash} {fee : Int}
  {s t : State} {command : Command} {commands : List Command} {heap news : Heap}
  {inps outs : List Ref} {d n k : Nat} {blocks : List (Block TransactionOutput)}
  {b : Block TransactionOutput} {hash : Hash} {header : BlockHeader}

/-- Inputs and outputs carry their positions, and outputs the hash of their transaction. -/
structure Numbered (tr : Transaction TransactionOutput) : Prop where
  inputs : ∀ (i : Nat) inp, tr.inputs[i]? = some inp → inp.index = some i
  outputs : ∀ (i : Nat) out, tr.outputs[i]? = some out →
    out.index = some i ∧ out.transactionHash = some tr.txHash

/-- Block `n` of a chain is where it says it is, after the block before it, with one
transaction of its own. -/
structure InPlace (blocks : List (Block TransactionOutput)) (n : Nat)
    (b : Block TransactionOutput) : Prop where
  height : b.header.height = n
  parent : 1 ≤ n → (blocks[n - 1]?).map (·.header.hash) = some b.parentHash
  transaction : 1 ≤ n → ∃ tr, b.transactions = [tr] ∧ tr.blockHeader = some b.header ∧
    tr.unixTimeInSec = some (100 * n) ∧ Numbered tr

theorem InPlace.append {b' : Block TransactionOutput} (h : InPlace blocks n b)
    (hn : n ≤ blocks.length) : InPlace (blocks ++ [b']) n b := by
  refine ⟨h.height, fun h1 => ?_, h.transaction⟩
  rw [List.getElem?_append_left (by omega)]
  exact h.parent h1

/-- The outputs of a new transaction are numbered when they are named by hash and position. -/
theorem numbered_emitted (ho : ∀ (i r : Nat), outs[i]? = some r →
    (heap.read r).index = some i ∧ (heap.read r).transactionHash = some hash) :
    Numbered ((emitted hash inps outs header).map heap.read) := by
  constructor
  · intro i inp hi
    simp only [Transaction.map, emitted, Transaction.addToBlock, Transaction.new,
      List.getElem?_map, List.getElem?_zipIdx, Option.map_eq_some_iff] at hi
    obtain ⟨_, ⟨_, ⟨_, ⟨_, _, rfl⟩, rfl⟩, rfl⟩, rfl⟩ := hi
    simp [TransactionInput.addToTransaction]
  · intro i out hi
    simp only [Transaction.map, emitted, Transaction.addToBlock, Transaction.new,
      List.getElem?_map, Option.map_eq_some_iff] at hi
    obtain ⟨r, hr, rfl⟩ := hi
    exact ho i r hr

/-- An operation yields one block, whose outputs are named by hash and position. -/
theorem names_of_operation (ho : Operation root randomSha fee s t command) :
    ∃ d inps outs news, Yields randomSha s t d inps outs news ∧ ∀ (i r : Nat), outs[i]? = some r →
      (t.heap.read r).index = some i ∧ (t.heap.read r).transactionHash = some (randomSha d) := by
  cases ho with
  | get hy | spend _ _ hy =>
    refine ⟨_, _, _, _, hy, fun i r hi => ?_⟩
    match i with
    | 0 =>
      cases hi
      simp [hy.heap]
    | i + 1 => simp at hi
  | change _ _ hy =>
    refine ⟨_, _, _, _, hy, fun i r hi => ?_⟩
    match i with
    | 0 | 1 =>
      cases hi
      simp [hy.heap]
    | i + 2 => simp at hi
  | other hy => exact ⟨_, _, _, _, hy, by simp⟩

/-- The chain is in place, and its last block is the one the generator goes on from. -/
structure Placed (s : State) : Prop where
  inHeap : InHeap s
  last : s.chain.getLast? = some (s.prevBlock.map s.heap.read)
  inPlace : ∀ (n : Nat) b, s.chain[n]? = some b → InPlace s.chain n b

theorem Placed.prev (hp : Placed s) :
    s.chain[s.prevBlock.header.height]? = some (s.prevBlock.map s.heap.read) ∧
      s.prevBlock.header.height + 1 = s.chain.length := by
  have hlast := hp.last
  rw [List.getLast?_eq_getElem?] at hlast
  have hheight : s.prevBlock.header.height = s.chain.length - 1 := (hp.inPlace _ _ hlast).height
  have hlt := (List.getElem?_eq_some_iff.mp hlast).1
  exact ⟨hheight ▸ hlast, by omega⟩

theorem inPlace_new (hp : Placed s) (hy : Yields randomSha s t d inps outs news)
    (hnames : ∀ (i r : Nat), outs[i]? = some r →
      (t.heap.read r).index = some i ∧ (t.heap.read r).transactionHash = some (randomSha d)) :
    InPlace (s.chain ++ [t.prevBlock.map t.heap.read]) s.chain.length
      (t.prevBlock.map t.heap.read) := by
  obtain ⟨hprev, hlen⟩ := hp.prev
  have hheader : t.prevBlock.header =
      .new (s.prevBlock.header.height + 1) (randomSha (d + 1)) := by
    rw [hy.prevBlock]
    rfl
  have hparent : t.prevBlock.parentHash = s.prevBlock.header.hash := by
    rw [hy.prevBlock]
    rfl
  refine ⟨?_, fun _ => ?_, fun _ => ?_⟩
  · change t.prevBlock.header.height = _
    rw [hheader, ← hlen]
    rfl
  · rw [List.getElem?_append_left (by omega), ← hlen, Nat.add_sub_cancel, hprev]
    exact congrArg some hparent.symm
  · refine ⟨(emitted (randomSha d) inps outs t.prevBlock.header).map t.heap.read, ?_, rfl, ?_,
      numbered_emitted hnames⟩
    · simp [Block.map, hy.transactions]
    · change some t.prevBlock.header.unixTimeInSec = _
      rw [hheader, ← hlen, Nat.mul_comm]
      rfl

theorem Placed.step (hp : Placed s) (ho : Operation root randomSha fee s t command) :
    Placed t := by
  obtain ⟨d, inps, outs, news, hy, hnames⟩ := names_of_operation ho
  have hchain := hp.inHeap.chain_yields hy
  refine ⟨hp.inHeap.step ho, by simp [hchain], fun n b hb => ?_⟩
  rw [hchain] at hb ⊢
  rcases Nat.lt_trichotomy n s.chain.length with hn | rfl | hn
  · rw [List.getElem?_append_left hn] at hb
    exact (hp.inPlace n b hb).append (by omega)
  · rw [List.getElem?_concat_length, Option.some.injEq] at hb
    exact hb ▸ inPlace_new hp hy hnames
  · rw [List.getElem?_eq_none (by simp; omega)] at hb
    cases hb

theorem placed_start : Placed .start := by
  refine ⟨inHeap_start, rfl, fun n b hb => ?_⟩
  match n with
  | 0 =>
    cases hb
    exact ⟨rfl, by simp, by simp⟩
  | n + 1 => simp [State.chain, State.start] at hb

/-- Distinct keys below the root have distinct addresses, none of them the root's. -/
structure DistinctAddresses (root : ν) : Prop where
  external : Function.Injective (external root)
  internal : Function.Injective (internal root)
  disjoint : ∀ i j, GenData.external root i ≠ GenData.internal root j
  external_ne : ∀ i, GenData.external root i ≠ BIP32Node.address root
  internal_ne : ∀ i, GenData.internal root i ≠ BIP32Node.address root

/-- The addresses of the outputs of some blocks, one for each output. -/
def outputAddresses (blocks : List (Block TransactionOutput)) : List Address :=
  (transactions blocks).flatMap fun tr => tr.outputs.map (·.address)

/-- The send left change: the inputs of its transaction are worth more than it sends and pays. -/
def leavesChange (fee : Int) (command : Command) (b : Block TransactionOutput) : Bool :=
  decide (command.commandType = .send) && b.transactions.any fun tr =>
    decide (command.amount + fee < (tr.inputs.map (·.transactionOutput.value)).sum)

/-- Of the addresses `f 0`, `f 1`, .. the list has the first `n`, each of them once. -/
def Issued (addresses : List Address) (f : Nat → Address) (n : Nat) : Prop :=
  ∀ i, addresses.count (f i) = if i < n then 1 else 0

section Issued
variable {addresses fresh : List Address} {f : Nat → Address}

theorem Issued.next (h : Issued addresses f n) (hf : Function.Injective f) :
    Issued (addresses ++ [f n]) f (n + 1) := by
  intro i
  rw [List.count_append, h i, List.count_singleton]
  by_cases hi : i = n
  · subst hi
    simp
  · have hne : f n ≠ f i := fun he => hi (hf he).symm
    have hlt : i < n + 1 ↔ i < n := by omega
    simp [hne, hlt]

theorem Issued.keep (h : Issued addresses f n) (hf : ∀ i, f i ∉ fresh) :
    Issued (addresses ++ fresh) f n := by
  intro i
  rw [List.count_append, h i, List.count_eq_zero.mpr (hf i), Nat.add_zero]

end Issued

theorem outputAddresses_yields (hi : InHeap s) (hy : Yields randomSha s t d inps outs news) :
    outputAddresses t.chain =
      outputAddresses s.chain ++ outs.map fun r => (t.heap.read r).address := by
  rw [hi.chain_yields hy, outputAddresses, transactions, List.flatMap_append, List.flatMap_append]
  congr 1
  simp [Block.map, hy.transactions, Transaction.map, emitted, Transaction.addToBlock,
    Transaction.new, Function.comp_def]

theorem leavesChange_yields (hy : Yields randomSha s t d inps outs news) {amount : Int} :
    leavesChange fee ⟨.send, amount⟩ (t.prevBlock.map t.heap.read) =
      decide (amount + fee < t.heap.total inps) := by
  simp only [leavesChange, Block.map, hy.transactions, List.map_cons, List.map_nil, List.any_cons,
    List.any_nil, inputValues_emitted]
  simp

/-- The counters are the numbers of the commands that issue an address, and so far each address
below them was issued once. -/
structure Counted (root : ν) (fee : Int) (past : List Command) (s : State) : Prop where
  inHeap : InHeap s
  length : s.chain.length = past.length + 1
  gets : s.curExternal = past.countP fun c => decide (c.commandType = .get)
  changes : s.curChange = (past.zip s.chain.tail).countP fun p => leavesChange fee p.1 p.2
  external : Issued (outputAddresses s.chain) (external root) s.curExternal
  internal : Issued (outputAddresses s.chain) (internal root) s.curChange

theorem Counted.changes_yields {past : List Command} (hc : Counted root fee past s)
    (hy : Yields randomSha s t d inps outs news) (command : Command) :
    ((past ++ [command]).zip t.chain.tail).countP (fun p => leavesChange fee p.1 p.2) =
      s.curChange +
        if leavesChange fee command (t.prevBlock.map t.heap.read) then 1 else 0 := by
  have hne : s.chain ≠ [] := by simpa [State.chain] using hc.inHeap.begun
  have hlen : past.length = s.chain.tail.length := by simp [hc.length]
  rw [hc.inHeap.chain_yields hy, List.tail_append_of_ne_nil hne, List.zip_append hlen,
    List.countP_append, ← hc.changes]
  simp [List.countP_cons]

/-- An operation issues the next address of its kind, and pays the root besides at most. -/
theorem Counted.issued {past : List Command} (hd : DistinctAddresses root)
    (hc : Counted root fee past s) (ho : Operation root randomSha fee s t command) :
    Issued (outputAddresses t.chain) (GenData.external root) t.curExternal ∧
      Issued (outputAddresses t.chain) (GenData.internal root) t.curChange := by
  cases ho with
  | get hy _ hce hcc =>
    rw [outputAddresses_yields hc.inHeap hy, hy.heap, hce, hcc]
    refine ⟨by simpa using hc.external.next hd.external, hc.internal.keep fun i => ?_⟩
    simpa using (hd.disjoint _ i).symm
  | spend hs hpaid hy hce hcc =>
    rw [outputAddresses_yields hc.inHeap hy, hy.heap, hce, hcc]
    exact ⟨hc.external.keep (by simpa using hd.external_ne),
      hc.internal.keep (by simpa using hd.internal_ne)⟩
  | change hs hmore hy _ hce hcc =>
    have hne : ∀ i, GenData.internal root i ∉ [BIP32Node.address root] := by
      simpa using hd.internal_ne
    have hroot := hc.internal.keep hne
    rw [outputAddresses_yields hc.inHeap hy, hy.heap, hce, hcc]
    refine ⟨hc.external.keep fun i => ?_, by simpa using hroot.next hd.internal⟩
    simp [hd.external_ne i, hd.disjoint i]
  | other hy _ hce hcc =>
    rw [outputAddresses_yields hc.inHeap hy, hce, hcc]
    exact ⟨hc.external.keep (by simp), hc.internal.keep (by simp)⟩

theorem Counted.step {past : List Command} (hd : DistinctAddresses root)
    (hc : Counted root fee past s) (ho : Operation root randomSha fee s t command) :
    Counted root fee (past ++ [command]) t := by
  obtain ⟨d, inps, outs, news, hy'⟩ := yields_of_operation ho
  have hlen : t.chain.length = (past ++ [command]).length + 1 := by
    simp [hc.inHeap.chain_yields hy', hc.length]
  have hpool := hc.inHeap.pool
  obtain ⟨hexternal, hinternal⟩ := hc.issued hd ho
  refine ⟨hc.inHeap.step ho, hlen, ?_, ?_, hexternal, hinternal⟩
  · rw [List.countP_append, ← hc.gets]
    cases ho <;> simp [*]
  · cases ho with
    | get hy _ _ hcc =>
      rw [hc.changes_yields hy, hcc]
      simp [leavesChange]
    | spend hs hpaid hy _ hcc =>
      rw [hc.changes_yields hy, hcc, leavesChange_yields hy, hy.heap,
        total_append_left fun r hr => hpool r (by simp [hs, hr]), hpaid]
      simp [Int.add_comm]
    | change hs hmore hy _ _ hcc =>
      rw [hc.changes_yields hy, hcc, leavesChange_yields hy, hy.heap,
        total_append_left fun r hr => hpool r (by simp [hs, hr]),
        decide_eq_true (by omega)]
      rfl
    | other hy _ _ hcc =>
      rw [hc.changes_yields hy, hcc]
      simp [leavesChange]

theorem counted_start : Counted root fee [] .start := by
  constructor
  case inHeap => exact inHeap_start
  all_goals simp [Issued, outputAddresses, transactions, State.chain, State.start, genesis,
    Block.new, Block.map]

/-- At each block that is yielded the chain is in place; and the first addresses of each kind
were issued, as many as the commands so far that issue one, each in one output. -/
theorem generate_wellFormed (hy : (generate root randomSha fee commands).1[k]? = some s) :
    s.chain.length = (commands.take k).length + 1 ∧
      (∀ (n : Nat) b, s.chain[n]? = some b → InPlace s.chain n b) ∧
      (DistinctAddresses root →
        Issued (outputAddresses s.chain) (external root)
            ((commands.take k).countP fun c => decide (c.commandType = .get)) ∧
          Issued (outputAddresses s.chain) (internal root)
            (((commands.take k).zip s.chain.tail).countP fun p => leavesChange fee p.1 p.2)) := by
  have hr := run_of_generateFrom hy
  have hplaced : Placed s :=
    hr.invariant placed_start fun _ _ _ hp hstep => hp.step (operation_of_step hstep)
  have hlen : s.chain.length = (commands.take k).length + 1 := by
    refine hr.carries (P := fun past s => InHeap s ∧ s.chain.length = past.length + 1)
      ⟨inHeap_start, rfl⟩ ?_ |>.2
    rintro past s c t ⟨hi, hl⟩ hstep
    obtain ⟨d, inps, outs, news, hy⟩ := yields_of_operation (operation_of_step hstep)
    exact ⟨hi.step (operation_of_step hstep), by simp [hi.chain_yields hy, hl]⟩
  refine ⟨hlen, hplaced.inPlace, fun hd => ?_⟩
  have hc : Counted root fee (commands.take k) s :=
    hr.carries counted_start fun _ _ _ _ hc hstep => hc.step hd (operation_of_step hstep)
  rw [← hc.gets, ← hc.changes]
  exact ⟨hc.external, hc.internal⟩

theorem address_external (i : Nat) :
    external ([] : List Nat) i = String.ofList ('/' :: '/' :: List.replicate i 'k') := by
  simp [external, BIP32Node.subkey, BIP32Node.address]

theorem address_internal (i : Nat) :
    internal ([] : List Nat) i = String.ofList ('/' :: 'k' :: '/' :: List.replicate i 'k') := by
  simp [internal, BIP32Node.subkey, BIP32Node.address]

theorem distinctAddresses_path : DistinctAddresses ([] : List Nat) := by
  constructor
  case external | internal =>
    intro i j h
    simpa [address_external, address_internal] using congrArg (·.toList.length) h
  case disjoint =>
    intro i j h
    simpa [address_external, address_internal] using congrArg String.toList h
  all_goals
    intro i h
    simpa [address_external, address_internal, BIP32Node.address] using
      congrArg (·.toList.length) h

/-- Two payments, and a send that takes both of them and leaves change. -/
theorem generate_wellFormed_change : ∃ s,
    (generate ([] : List Nat) countedSha 1 [⟨.get, 5⟩, ⟨.get, 4⟩, ⟨.send, 6⟩]).1[3]? = some s ∧
      s.chain.length = 4 ∧ (∀ (n : Nat) b, s.chain[n]? = some b → InPlace s.chain n b) ∧
      Issued (outputAddresses s.chain) (external ([] : List Nat)) 2 := by
  obtain ⟨s, hy⟩ : ∃ s, (generate ([] : List Nat) countedSha 1
      [⟨.get, 5⟩, ⟨.get, 4⟩, ⟨.send, 6⟩]).1[3]? = some s := ⟨_, rfl⟩
  obtain ⟨hlen, hplaced, hissued⟩ := generate_wellFormed hy
  exact ⟨s, hy, hlen, hplaced, (hissued distinctAddresses_path).1⟩

end LibCoreCmd.Tools.GenData

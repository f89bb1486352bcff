import LibCoreCmd.Tools.GenChain
import Mathlib.Data.List.Nodup

/-! Where the inputs of the generated chain come from: nothing is spent twice, and what a send
spends was issued by an earlier block to an address of the wallet. -/
namespace LibCoreCmd.Tools.GenData
open Transition

/-- What names an output on the chain. -/
def outPoint (o : TransactionOutput) : Option Hash × Option Nat := (o.transactionHash, o.index)

/-- What the inputs of some blocks spend. -/
def spent {ω : Type} (blocks : List (Block ω)) : List ω :=
  (transactions blocks).flatMap fun tr => tr.inputs.map (·.transactionOutput)

variable {inps outs : List Ref} {d n k : Nat} {heap news : Heap} {s t : State}
  {randomSha : Nat → Hash} {fee : Int} {command : Command} {commands past : List Command}
  {ν : Type} [BIP32Node ν] {root : ν} {blocks : List (Block TransactionOutput)}
  {out : TransactionOutput}

theorem spent_append {ω : Type} (bs cs : List (Block ω)) :
    spent (bs ++ cs) = spent bs ++ spent cs := by
  simp [spent, transactions]

theorem transactions_chain :
    transactions s.chain = (transactions s.yielded).map (Transaction.map s.heap.read) := by
  simp [transactions, State.chain, Block.map, List.flatMap_map, List.map_flatMap]

theorem spent_chain : spent s.chain = (spent s.yielded).map s.heap.read := by
  rw [spent, transactions_chain]
  simp [spent, Transaction.map, List.flatMap_map, List.map_flatMap, Function.comp_def]

theorem Yields.spent (hy : Yields randomSha s t d inps outs news) :
    spent t.yielded = spent s.yielded ++ inps := by
  rw [hy.yielded, spent_append]
  congr 1
  rw [GenData.spent, Tools.transactions, List.flatMap_singleton, hy.transactions,
    List.flatMap_singleton, emitted_inputs]

theorem InHeap.spent_lt (hi : InHeap s) {r : Nat} (hr : r ∈ spent s.yielded) :
    r < s.heap.length := by
  obtain ⟨tr, ht, hr⟩ := List.mem_flatMap.mp hr
  obtain ⟨b, hb, ht⟩ := List.mem_flatMap.mp ht
  exact hi.chain b hb tr ht r (List.mem_append_left _ hr)

/-- No object was spent twice or is still in the pool, and each has its own name. -/
structure Distinct (randomSha : Nat → Hash) (s : State) : Prop where
  once : (spent s.yielded ++ s.UTXOs).Nodup
  outPoints : (s.heap.map outPoint).Nodup
  drawn : ∀ o ∈ s.heap, ∃ n < s.drawn, o.transactionHash = some (randomSha n)

theorem nodup_fresh {olds fresh : List Nat} (ho : olds.Nodup) (hlt : ∀ r ∈ olds, r < n)
    (hf : fresh.Nodup) (hge : ∀ r ∈ fresh, n ≤ r) : (olds ++ fresh).Nodup := by
  refine List.nodup_append.mpr ⟨ho, hf, fun a ha b hb => ?_⟩
  have := hlt a ha
  have := hge b hb
  omega

theorem once_step (hi : InHeap s) (hn : (spent s.yielded ++ s.UTXOs).Nodup)
    (ho : Operation root randomSha fee s t command) : (spent t.yielded ++ t.UTXOs).Nodup := by
  have hlt : ∀ r : Nat, r ∈ spent s.yielded ++ s.UTXOs → r < s.heap.length := by
    intro r hr
    rcases List.mem_append.mp hr with hr | hr
    · exact hi.spent_lt hr
    · exact hi.pool r hr
  cases ho with
  | get hy hu =>
    have hfresh : (spent s.yielded ++ s.UTXOs ++ [s.heap.length, s.heap.length + 1]).Nodup :=
      nodup_fresh hn hlt (by simp) (by simp)
    rw [hy.spent, hu]
    refine (List.Perm.nodup_iff ?_).mp hfresh
    simp only [List.append_assoc]
    exact (List.perm_append_comm_assoc s.UTXOs [s.heap.length] [s.heap.length + 1]).append_left _
  | spend hs _ hy =>
    rw [hs, ← List.append_assoc] at hn
    rw [hy.spent]
    exact hn
  | change hs _ hy hu =>
    have hfresh : (spent s.yielded ++ s.UTXOs ++ [s.heap.length + 1]).Nodup :=
      nodup_fresh hn hlt (by simp) (by simp)
    rw [hs] at hfresh
    rw [hy.spent, hu]
    simpa only [List.append_assoc] using hfresh
  | other hy hu =>
    rw [hy.spent, hu, List.append_nil]
    exact hn

/-- Objects named with hashes that were not drawn before keep the names apart. -/
theorem outPoints_append (hsha : Function.Injective randomSha)
    (hn : (heap.map outPoint).Nodup)
    (hd : ∀ o ∈ heap, ∃ n < d, o.transactionHash = some (randomSha n))
    (hnews : (news.map outPoint).Nodup)
    (hfresh : ∀ o ∈ news, ∃ n, d ≤ n ∧ o.transactionHash = some (randomSha n)) :
    ((heap ++ news).map outPoint).Nodup := by
  rw [List.map_append]
  refine List.nodup_append.mpr ⟨hn, hnews, ?_⟩
  intro p hp q hq he
  obtain ⟨o, ho, rfl⟩ := List.mem_map.mp hp
  obtain ⟨o', ho', rfl⟩ := List.mem_map.mp hq
  obtain ⟨i, hi, hoi⟩ := hd o ho
  obtain ⟨j, hj, hoj⟩ := hfresh o' ho'
  have heq : some (randomSha i) = some (randomSha j) := by
    rw [← hoi, ← hoj]
    exact congrArg Prod.fst he
  have := hsha (Option.some.inj heq)
  omega

theorem Distinct.yields (hsha : Function.Injective randomSha) (hd : Distinct randomSha s)
    (hy : Yields randomSha s t d inps outs news) (honce : (spent t.yielded ++ t.UTXOs).Nodup)
    (hnews : (news.map outPoint).Nodup)
    (hfresh : ∀ o ∈ news, ∃ n, s.drawn ≤ n ∧ n ≤ d ∧ o.transactionHash = some (randomSha n))
    (hle : s.drawn ≤ d) : Distinct randomSha t := by
  refine ⟨honce, ?_, ?_⟩
  · rw [hy.heap]
    refine outPoints_append hsha hd.outPoints hd.drawn hnews fun o ho => ?_
    obtain ⟨n, hn, _, ho⟩ := hfresh o ho
    exact ⟨n, hn, ho⟩
  · intro o ho
    rw [hy.heap, List.mem_append] at ho
    rw [hy.drawn]
    rcases ho with ho | ho
    · obtain ⟨n, hn, ho⟩ := hd.drawn o ho
      exact ⟨n, by omega, ho⟩
    · obtain ⟨n, _, hn, ho⟩ := hfresh o ho
      exact ⟨n, by omega, ho⟩

theorem Distinct.step (hsha : Function.Injective randomSha) (hi : InHeap s)
    (hd : Distinct randomSha s) (ho : Operation root randomSha fee s t command) :
    Distinct randomSha t := by
  have honce := once_step hi hd.once ho
  cases ho with
  | get hy =>
    have hne : randomSha s.drawn ≠ randomSha (s.drawn + 1) := fun h => by
      have := hsha h
      omega
    refine hd.yields hsha hy honce (by simp [outPoint, hne]) ?_ (by omega)
    intro o ho
    rcases List.mem_pair.mp ho with rfl | rfl
    · exact ⟨s.drawn, by omega, by omega, rfl⟩
    · exact ⟨s.drawn + 1, by omega, by omega, rfl⟩
  | spend _ _ hy =>
    refine hd.yields hsha hy honce (by simp) ?_ (Nat.le_refl _)
    intro o ho
    cases List.mem_singleton.mp ho
    exact ⟨s.drawn, by omega, by omega, rfl⟩
  | change _ _ hy =>
    refine hd.yields hsha hy honce (by simp [outPoint]) ?_ (Nat.le_refl _)
    intro o ho
    rcases List.mem_pair.mp ho with rfl | rfl <;> exact ⟨s.drawn, by omega, by omega, rfl⟩
  | other hy => exact hd.yields hsha hy honce (by simp) (by simp) (Nat.le_refl _)

/-- Names tell the objects of the heap apart, so none is spent twice. -/
theorem Distinct.outPoints_spent (hi : InHeap s) (hd : Distinct randomSha s) :
    ((spent s.chain).map outPoint).Nodup := by
  rw [spent_chain, List.map_map]
  refine List.Nodup.map_on ?_ (List.nodup_append.mp hd.once).1
  intro a ha b hb he
  have hla : a < (s.heap.map outPoint).length := by simpa using hi.spent_lt ha
  have hlb : b < (s.heap.map outPoint).length := by simpa using hi.spent_lt hb
  have heq : (s.heap.map outPoint)[a] = (s.heap.map outPoint)[b] := by
    simpa [read_eq_getElem (hi.spent_lt ha), read_eq_getElem (hi.spent_lt hb)] using he
  exact hd.outPoints.getElem_inj_iff.mp heq

/-- `out` was issued, under the name it has, by one of the first `n` blocks. -/
def IssuedBefore (blocks : List (Block TransactionOutput)) (n : Nat) (out : TransactionOutput) :
    Prop :=
  ∃ m < n, ∃ b, blocks[m]? = some b ∧ ∃ tr ∈ b.transactions, ∃ i : Nat,
    tr.outputs[i]? = some out ∧ outPoint out = (some tr.txHash, some i)

/-- An address of the wallet: its key is below the external or the internal node. -/
def OfWallet (root : ν) (a : Address) : Prop := ∃ i, a = external root i ∨ a = internal root i

theorem IssuedBefore.append {cs : List (Block TransactionOutput)} (h : IssuedBefore blocks n out)
    (hk : n ≤ k) : IssuedBefore (blocks ++ cs) k out := by
  obtain ⟨m, hm, b, hb, rest⟩ := h
  refine ⟨m, by omega, b, ?_, rest⟩
  rw [List.getElem?_append_left (List.getElem?_eq_some_iff.mp hb).1]
  exact hb

/-- What is in the pool was issued before, to addresses of the wallet. -/
structure Backed (root : ν) (s : State) : Prop where
  issued : ∀ r ∈ s.UTXOs, IssuedBefore s.chain s.chain.length (s.heap.read r)
  ofWallet : ∀ r ∈ s.UTXOs, OfWallet root (s.heap.read r).address

/-- An output of the new block that has its transaction's hash and its own position. -/
theorem issued_new (hi : InHeap s) (hy : Yields randomSha s t d inps outs news) {i r : Nat}
    (ho : outs[i]? = some r)
    (hp : outPoint (t.heap.read r) = (some (randomSha d), some i)) :
    IssuedBefore t.chain t.chain.length (t.heap.read r) := by
  rw [hi.chain_yields hy]
  refine ⟨s.chain.length, by simp, _, List.getElem?_concat_length, ?_⟩
  simp only [Block.map, hy.transactions, List.map_cons, List.map_nil, List.mem_singleton]
  refine ⟨_, rfl, i, ?_, hp⟩
  simp [Transaction.map, emitted, Transaction.addToBlock, Transaction.new, ho]

theorem Backed.kept (hi : InHeap s) (hb : Backed root s)
    (hy : Yields randomSha s t d inps outs news) {r : Nat} (hr : r ∈ s.UTXOs) :
    IssuedBefore t.chain t.chain.length (t.heap.read r) ∧
      OfWallet root (t.heap.read r).address := by
  rw [hi.chain_yields hy, hy.heap, read_append_left (hi.pool r hr)]
  exact ⟨(hb.issued r hr).append (by simp), hb.ofWallet r hr⟩

theorem Backed.step (hi : InHeap s) (hb : Backed root s)
    (ho : Operation root randomSha fee s t command) : Backed root t := by
  suffices h : ∀ r ∈ t.UTXOs, IssuedBefore t.chain t.chain.length (t.heap.read r) ∧
      OfWallet root (t.heap.read r).address from ⟨fun r hr => (h r hr).1, fun r hr => (h r hr).2⟩
  intro r hr
  cases ho with
  | get hy hu =>
    rw [hu, List.mem_append, List.mem_singleton] at hr
    rcases hr with hr | rfl
    · exact hb.kept hi hy hr
    · refine ⟨issued_new hi hy (i := 0) rfl ?_, ?_⟩ <;> rw [hy.heap, read_append_length_succ]
      · rfl
      · exact ⟨s.curExternal, Or.inl rfl⟩
  | spend hs _ hy => exact hb.kept hi hy (by simp [hs, hr])
  | change hs _ hy hu =>
    rw [hu, List.mem_append, List.mem_singleton] at hr
    rcases hr with hr | rfl
    · exact hb.kept hi hy (by simp [hs, hr])
    · refine ⟨issued_new hi hy (i := 1) rfl ?_, ?_⟩ <;> rw [hy.heap, read_append_length_succ]
      · rfl
      · exact ⟨s.curChange, Or.inr rfl⟩
  | other hy hu => exact hb.kept hi hy (hu ▸ hr)

/-- What the transactions of block `n` spend was issued before, to addresses of the wallet. -/
def SpendsBacked (root : ν) (blocks : List (Block TransactionOutput)) (n : Nat) : Prop :=
  ∀ b, blocks[n]? = some b → ∀ tr ∈ b.transactions, ∀ inp ∈ tr.inputs,
    IssuedBefore blocks n inp.transactionOutput ∧ OfWallet root inp.transactionOutput.address

theorem SpendsBacked.append {b : Block TransactionOutput} (h : SpendsBacked root blocks n)
    (hn : n < blocks.length) : SpendsBacked root (blocks ++ [b]) n := by
  intro c hc tr ht inp hinp
  rw [List.getElem?_append_left hn] at hc
  obtain ⟨hissued, hours⟩ := h c hc tr ht inp hinp
  exact ⟨hissued.append (Nat.le_refl _), hours⟩

/-- A send takes its inputs from the pool. -/
theorem spendsBacked_new (hi : InHeap s) (hb : Backed root s)
    (ho : Operation root randomSha fee s t command) (hc : command.commandType = .send) :
    SpendsBacked root t.chain s.chain.length := by
  obtain ⟨d, picked, outs, news, hy, hpool⟩ : ∃ d picked outs news,
      Yields randomSha s t d picked outs news ∧ ∀ r ∈ picked, r ∈ s.UTXOs := by
    cases ho with
    | get | other => cases hc
    | spend hs _ hy | change hs _ hy => exact ⟨_, _, _, _, hy, fun r hr => by simp [hs, hr]⟩
  intro b hb' tr ht inp hinp
  rw [hi.chain_yields hy] at hb' ⊢
  rw [List.getElem?_concat_length, Option.some.injEq] at hb'
  subst hb'
  simp only [Block.map, hy.transactions, List.map_cons, List.map_nil, List.mem_singleton] at ht
  subst ht
  obtain ⟨i, hmem, rfl⟩ := List.mem_map.mp hinp
  have hr : i.transactionOutput ∈ s.UTXOs := by
    refine hpool _ ?_
    rw [← emitted_inputs (randomSha d) picked outs t.prevBlock.header]
    exact List.mem_map_of_mem hmem
  dsimp only
  rw [hy.heap, read_append_left (hi.pool _ hr)]
  exact ⟨(hb.issued _ hr).append (Nat.le_refl _), hb.ofWallet _ hr⟩

theorem distinct_start : Distinct randomSha .start := by
  constructor <;> simp [State.start, spent, transactions, genesis, Block.new]

theorem backed_start : Backed root .start := by
  constructor <;> simp [State.start]

/-- What a run has yielded, and how it goes on. -/
structure Provenance (root : ν) (randomSha : Nat → Hash) (past : List Command) (s : State) :
    Prop where
  inHeap : InHeap s
  distinct : Distinct randomSha s
  backed : Backed root s
  length : s.chain.length = past.length + 1
  sends : ∀ n, (past[n]?).map (·.commandType) = some .send → SpendsBacked root s.chain (n + 1)

theorem provenance_run (hsha : Function.Injective randomSha)
    (hr : (generator root randomSha fee).Run .start commands s) :
    Provenance root randomSha commands s := by
  refine hr.carries (P := Provenance root randomSha) ?_ ?_
  · exact ⟨inHeap_start, distinct_start, backed_start, by simp [State.chain, State.start], by simp⟩
  · rintro past s c t ⟨hi, hd, hb, hl, hs⟩ hstep
    have ho := operation_of_step hstep
    obtain ⟨d, inps, outs, news, hy⟩ := yields_of_operation ho
    refine ⟨hi.step ho, hd.step hsha hi ho, hb.step hi ho, ?_, ?_⟩
    · simp [hi.chain_yields hy, hl]
    intro n hn
    rcases Nat.lt_trichotomy n past.length with hlt | rfl | hgt
    · rw [List.getElem?_append_left hlt] at hn
      rw [hi.chain_yields hy]
      exact (hs n hn).append (by omega)
    · rw [List.getElem?_concat_length] at hn
      rw [← hl]
      exact spendsBacked_new hi hb ho (Option.some.inj hn)
    · rw [List.getElem?_eq_none (by simp; omega)] at hn
      cases hn

/-- Nothing is spent twice; and every input of a send names an output of a strictly earlier
block, to an address of the wallet, never the root's. -/
theorem generate_spends_once (hsha : Function.Injective randomSha)
    (hroot : ∀ a, OfWallet root a → a ≠ BIP32Node.address root)
    (hy : (generate root randomSha fee commands).1[k]? = some s) :
    ((spent s.chain).map outPoint).Nodup ∧
      ∀ n amount b, commands[n]? = some ⟨.send, amount⟩ → s.chain[n + 1]? = some b →
        ∀ tr ∈ b.transactions, ∀ inp ∈ tr.inputs,
          IssuedBefore s.chain (n + 1) inp.transactionOutput ∧
          OfWallet root inp.transactionOutput.address ∧
          inp.transactionOutput.address ≠ BIP32Node.address root := by
  have hp := provenance_run hsha (run_of_generateFrom hy)
  refine ⟨hp.distinct.outPoints_spent hp.inHeap, ?_⟩
  intro n amount b hn hb tr ht inp hinp
  have hlt := (List.getElem?_eq_some_iff.mp hb).1
  rw [hp.length] at hlt
  have htake : (commands.take k)[n]? = some ⟨.send, amount⟩ := by
    rw [← hn]
    exact List.getElem?_take_of_lt (by simp at hlt; omega)
  obtain ⟨hissued, hours⟩ := hp.sends n (by rw [htake]; rfl) b hb tr ht inp hinp
  exact ⟨hissued, hours, hroot _ hours⟩

theorem countedSha_injective : Function.Injective countedSha := by
  intro i j h
  simpa [countedSha] using congrArg (·.toList.length) h

theorem ofWallet_ne_root (a : Address) (ha : OfWallet ([] : List Nat) a) :
    a ≠ BIP32Node.address ([] : List Nat) := by
  obtain ⟨i, rfl | rfl⟩ := ha <;> intro h <;>
    simpa [external, internal, BIP32Node.subkey, BIP32Node.address] using
      congrArg (·.toList.length) h

/-- Two payments, and a send that takes both of them. -/
theorem generate_spends_once_both : ∃ s b tr inp,
    (generate ([] : List Nat) countedSha 1 [⟨.get, 5⟩, ⟨.get, 4⟩, ⟨.send, 6⟩]).1[3]? = some s ∧
      ((spent s.chain).map outPoint).Nodup ∧ (spent s.chain).length = 4 ∧
      s.chain[3]? = some b ∧ tr ∈ b.transactions ∧ tr.inputs.length = 2 ∧ inp ∈ tr.inputs ∧
      IssuedBefore s.chain 3 inp.transactionOutput ∧
      OfWallet ([] : List Nat) inp.transactionOutput.address := by
  obtain ⟨s, hy, hlen, b, hb, tr, htr, htwo, inp, hinp⟩ : ∃ s,
      (generate ([] : List Nat) countedSha 1 [⟨.get, 5⟩, ⟨.get, 4⟩, ⟨.send, 6⟩]).1[3]? = some s ∧
      (spent s.chain).length = 4 ∧ ∃ b, s.chain[3]? = some b ∧
      ∃ tr, b.transactions[0]? = some tr ∧ tr.inputs.length = 2 ∧
      ∃ inp, tr.inputs[1]? = some inp :=
    ⟨_, rfl, rfl, _, rfl, _, rfl, rfl, _, rfl⟩
  have hs := generate_spends_once countedSha_injective ofWallet_ne_root hy
  have htr := List.mem_of_getElem? htr
  have hinp := List.mem_of_getElem? hinp
  obtain ⟨hissued, hours, -⟩ := hs.2 2 6 b rfl hb tr htr inp hinp
  exact ⟨s, b, tr, inp, hy, hs.1, hlen, hb, htr, htwo, hinp, hissued, hours⟩

end LibCoreCmd.Tools.GenData

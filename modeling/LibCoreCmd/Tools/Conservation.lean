import LibCoreCmd.Tools.GenChain

/-! The generated chain conserves value: what is in the pool is what was received, less what
was sent and the fees. -/
namespace LibCoreCmd.Tools.GenData
open Transition

/-- A command of the kind that is generated for. -/
def Command.Ordinary (command : Command) : Prop :=
  (command.commandType = .get ∨ command.commandType = .send) ∧ 0 < command.amount

instance : DecidablePred Command.Ordinary := fun command =>
  inferInstanceAs (Decidable ((command.commandType = .get ∨ command.commandType = .send) ∧
    0 < command.amount))

/-- What a command should do to the value of the pool. -/
def effect (fee : Int) (command : Command) : Int :=
  match command.commandType with
  | .get => command.amount
  | .send => -(command.amount + fee)
  | .other _ => 0

variable {inps outs : List Ref} {d : Nat} {news : Heap} {s t : State} {randomSha : Nat → Hash}
  {fee : Int} {command : Command} {commands : List Command} {ν : Type} [BIP32Node ν] {root : ν}

/-- The value of the pool changes by the effect of the command. -/
theorem total_step (hi : InHeap s) (ho : Operation root randomSha fee s t command) :
    t.heap.total t.UTXOs = s.heap.total s.UTXOs + effect fee command := by
  have hp := hi.pool
  cases ho with
  | get hy hu =>
    rw [hy.heap, hu, total_append, total_append_left hp]
    simp [effect]
  | @spend amount picked hs hpaid hy =>
    have hrest : ∀ r : Nat, r ∈ t.UTXOs → r < s.heap.length := fun r hr => hp r (by simp [hs, hr])
    rw [hy.heap, total_append_left hrest, hs, total_append, hpaid]
    simp only [effect]
    omega
  | @change amount picked rest hs hmore hy hu =>
    have hrest : ∀ r : Nat, r ∈ rest → r < s.heap.length := fun r hr => hp r (by simp [hs, hr])
    rw [hy.heap, hu, total_append, total_append_left hrest, hs, total_append]
    simp only [total_cons, read_append_length_succ, total_nil, effect]
    omega
  | other hy hu =>
    rw [hy.heap, hu, List.append_nil]
    simp [effect]

/-- What the pool and the chain keep to, besides their values. -/
structure Sound (fee : Int) (s : State) : Prop where
  positive : ∀ r ∈ s.UTXOs, 0 < (s.heap.read r).value
  fees : ∀ b ∈ s.chain.tail, ∀ tr ∈ b.transactions, tr.getFee = fee

theorem positive_step (hi : InHeap s) (hs : Sound fee s) (hc : command.Ordinary)
    (ho : Operation root randomSha fee s t command) :
    ∀ r ∈ t.UTXOs, 0 < (t.heap.read r).value := by
  have hold : ∀ r ∈ s.UTXOs, ∀ news : Heap, 0 < ((s.heap ++ news).read r).value := by
    intro r hr news
    rw [read_append_left (hi.pool r hr)]
    exact hs.positive r hr
  intro r hr
  cases ho with
  | get hy hu =>
    rw [hu, List.mem_append, List.mem_singleton] at hr
    rw [hy.heap]
    rcases hr with hr | rfl
    · exact hold r hr _
    · simpa using hc.2
  | spend hpool _ hy =>
    rw [hy.heap]
    exact hold r (by simp [hpool, hr]) _
  | change hpool hmore hy hu =>
    rw [hu, List.mem_append, List.mem_singleton] at hr
    rw [hy.heap]
    rcases hr with hr | rfl
    · exact hold r (by simp [hpool, hr]) _
    · simp only [read_append_length_succ]
      omega
  | other => simp [Command.Ordinary] at hc

/-- The new transaction pays the fee. -/
theorem fee_step (hi : InHeap s) (hc : command.Ordinary)
    (ho : Operation root randomSha fee s t command) :
    ∀ tr ∈ (t.prevBlock.map t.heap.read).transactions, tr.getFee = fee := by
  have hp := hi.pool
  intro tr ht
  cases ho with
  | get hy =>
    simp only [Block.map, hy.transactions, List.map_cons, List.map_nil, List.mem_singleton] at ht
    rw [ht, getFee_emitted, hy.heap]
    simp only [total_cons, read_append_length, read_append_length_succ, total_nil]
    omega
  | @spend amount picked hs hpaid hy =>
    have hpicked : ∀ r : Nat, r ∈ picked → r < s.heap.length := fun r hr => hp r (by simp [hs, hr])
    simp only [Block.map, hy.transactions, List.map_cons, List.map_nil, List.mem_singleton] at ht
    rw [ht, getFee_emitted, hy.heap, total_append_left hpicked, hpaid]
    simp
  | @change amount picked rest hs hmore hy =>
    have hpicked : ∀ r : Nat, r ∈ picked → r < s.heap.length := fun r hr => hp r (by simp [hs, hr])
    simp only [Block.map, hy.transactions, List.map_cons, List.map_nil, List.mem_singleton] at ht
    rw [ht, getFee_emitted, hy.heap, total_append_left hpicked]
    simp only [total_cons, read_append_length, read_append_length_succ, total_nil]
    omega
  | other => simp [Command.Ordinary] at hc

theorem Sound.step (hi : InHeap s) (hs : Sound fee s) (hc : command.Ordinary)
    (ho : Operation root randomSha fee s t command) : Sound fee t := by
  refine ⟨positive_step hi hs hc ho, ?_⟩
  obtain ⟨d, inps, outs, news, hy⟩ := yields_of_operation ho
  have hne : s.chain ≠ [] := by simpa [State.chain] using hi.begun
  rw [hi.chain_yields hy, List.tail_append_of_ne_nil hne]
  intro b hb
  rcases List.mem_append.mp hb with hb | hb
  · exact hs.fees b hb
  · rw [List.mem_singleton.mp hb]
    exact fee_step hi hc ho

theorem sound_start : Sound fee .start :=
  ⟨by simp [State.start], by simp [State.chain, State.start]⟩

theorem conserved_run (hr : (generator root randomSha fee).Run .start commands s)
    (hc : ∀ c ∈ commands, c.Ordinary) :
    s.heap.total s.UTXOs = (commands.map (effect fee)).sum ∧ Sound fee s := by
  refine (hr.carries (P := fun past s => InHeap s ∧ ((∀ c ∈ past, c.Ordinary) →
    s.heap.total s.UTXOs = (past.map (effect fee)).sum ∧ Sound fee s)) ?_ ?_).2 hc
  · exact ⟨inHeap_start, fun _ => ⟨rfl, sound_start⟩⟩
  · rintro past s c t ⟨hi, hs⟩ hstep
    have ho := operation_of_step hstep
    refine ⟨hi.step ho, fun hc => ?_⟩
    obtain ⟨htotal, hsound⟩ := hs fun c h => hc c (by simp [h])
    refine ⟨?_, hsound.step hi (hc c (by simp)) ho⟩
    rw [total_step hi ho, htotal]
    simp

/-- At every block that is yielded, the values in the pool sum to what was received, less what
was sent and the fees; each of them is positive, and each transaction pays the fee. -/
theorem generate_conserves {k : Nat} (hc : ∀ c ∈ commands, c.Ordinary)
    (hy : (generate root randomSha fee commands).1[k]? = some s) :
    (s.UTXOs.map fun r => (s.heap.read r).value).sum =
        ((commands.take k).map (effect fee)).sum ∧
      (∀ r ∈ s.UTXOs, 0 < (s.heap.read r).value) ∧
      ∀ b ∈ s.chain.tail, ∀ tr ∈ b.transactions, tr.getFee = fee := by
  obtain ⟨htotal, hsound⟩ :=
    conserved_run (run_of_generateFrom hy) fun c h => hc c (List.mem_of_mem_take h)
  exact ⟨htotal, hsound.positive, hsound.fees⟩

/-- Two payments, and a send that takes both of them and leaves change. -/
theorem generate_conserves_change : ∃ s tr,
    (generate ([] : List Nat) countedSha 1 [⟨.get, 5⟩, ⟨.get, 4⟩, ⟨.send, 6⟩]).1[3]? = some s ∧
      (s.UTXOs.map fun r => (s.heap.read r).value).sum = 2 ∧
      (∀ r ∈ s.UTXOs, 0 < (s.heap.read r).value) ∧
      (∀ b ∈ s.chain.tail, ∀ tr ∈ b.transactions, tr.getFee = 1) ∧
      tr ∈ transactions s.chain.tail ∧ tr.inputs.length = 2 ∧ tr.getFee = 1 := by
  have hc : ∀ c ∈ ([⟨.get, 5⟩, ⟨.get, 4⟩, ⟨.send, 6⟩] : List Command), c.Ordinary := by decide
  obtain ⟨s, hy, b, hb, tr, htr, hlen⟩ : ∃ s, (generate ([] : List Nat) countedSha 1
      [⟨.get, 5⟩, ⟨.get, 4⟩, ⟨.send, 6⟩]).1[3]? = some s ∧ ∃ b, s.chain.tail[2]? = some b ∧
      ∃ tr, b.transactions[0]? = some tr ∧ tr.inputs.length = 2 := ⟨_, rfl, _, rfl, _, rfl, rfl⟩
  obtain ⟨hsum, hpositive, hfees⟩ := generate_conserves hc hy
  have hmem := List.mem_of_getElem? hb
  have hmem' := List.mem_of_getElem? htr
  exact ⟨s, tr, hy, hsum, hpositive, hfees, List.mem_flatMap.mpr ⟨b, hmem, hmem'⟩, hlen,
    hfees b hmem tr hmem'⟩

end LibCoreCmd.Tools.GenData

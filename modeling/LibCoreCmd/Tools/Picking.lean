import LibCoreCmd.Tools.Conservation

/-! How a send picks its inputs: the oldest outputs of the pool, no more than are needed. -/
namespace LibCoreCmd.Tools.GenData
open Transition

variable {ν : Type} [BIP32Node ν] {root : ν} {randomSha : Nat → Hash} {fee amount needed : Int}
  {s t : State} {commands : List Command} {heap : Heap} {refs pool picked rest : List Ref} {k : Nat}

/-- The shortest front part of the pool that is worth what is needed, and what comes after it. -/
structure Picks (heap : Heap) (needed : Int) (pool picked rest : List Ref) : Prop where
  front : pool = picked ++ rest
  enough : needed ≤ heap.total picked
  least : ∀ n < picked.length, heap.total (picked.take n) < needed

/-- The picked outputs are spent, and of the pool only the change is new. -/
structure Sent (s t : State) (needed : Int) (picked rest : List Ref) : Prop where
  inputs : ∃ tr, t.prevBlock.transactions = [tr] ∧ tr.inputs.map (·.transactionOutput) = picked
  kept : ∀ r ∈ s.UTXOs, t.heap.read r = s.heap.read r
  even : s.heap.total picked = needed → t.UTXOs = rest
  change : needed < s.heap.total picked → ∃ tr change, t.prevBlock.transactions = [tr] ∧
    change ∈ tr.outputs ∧ t.UTXOs = rest ++ [change] ∧
    (t.heap.read change).value = s.heap.total picked - needed

theorem total_nonneg (hp : ∀ r ∈ refs, 0 < (heap.read r).value) : 0 ≤ heap.total refs := by
  induction refs with
  | nil => simp
  | cons r refs ih =>
    have hr := hp r List.mem_cons_self
    have hrest := ih fun r h => hp r (List.mem_cons_of_mem _ h)
    rw [total_cons]
    omega

/-- A front part is worth no more than a pool of positive values. -/
theorem Picks.total_le (h : Picks heap needed pool picked rest)
    (hp : ∀ r ∈ pool, 0 < (heap.read r).value) : needed ≤ heap.total pool := by
  have hrest : 0 ≤ heap.total rest := total_nonneg fun r hr => hp r (by simp [h.front, hr])
  have := h.enough
  rw [h.front, total_append]
  omega

/-- Either the whole pool is not enough, or what is picked from it is spent. -/
theorem operate_send (hi : InHeap s) (hn : 0 < fee + amount) :
    (s.heap.total s.UTXOs < fee + amount ∧
      ∃ e, s.operate root randomSha fee ⟨.send, amount⟩ = .error e) ∨
    ∃ t picked rest, s.operate root randomSha fee ⟨.send, amount⟩ = .ok t ∧
      Picks s.heap (fee + amount) s.UTXOs picked rest ∧
      Sent s t (fee + amount) picked rest := by
  obtain ⟨picked, rest, hs, hp, hleast, hend⟩ :=
    pickUTXOs_stops s.heap (fee + amount) s.UTXOs 0 []
  rw [Int.zero_add] at hend
  simp only [Int.zero_add] at hleast
  by_cases hfew : s.heap.total picked < fee + amount
  · left
    rw [hend hfew, List.append_nil] at hs
    refine ⟨by rwa [hs], { opIndex := s.opIndex, command := ⟨.send, amount⟩ }, ?_⟩
    simp [State.operate, hp, hfew]
  · right
    have hpicks : Picks s.heap (fee + amount) s.UTXOs picked rest :=
      ⟨hs, by omega, hleast hn⟩
    obtain ⟨t, ht⟩ : ∃ t, s.operate root randomSha fee ⟨.send, amount⟩ = .ok t := by
      simp only [State.operate, hp, Int.zero_add, if_neg hfew]
      split <;> exact ⟨_, rfl⟩
    refine ⟨t, picked, rest, ht, hpicks, ?_⟩
    obtain ⟨_, _, _, _, hy⟩ := yields_of_operation (operation_of_operate ht)
    have hkept : ∀ r ∈ s.UTXOs, t.heap.read r = s.heap.read r := fun r hr => by
      rw [hy.heap, read_append_left (hi.pool r hr)]
    simp only [State.operate, hp, Int.zero_add, if_neg hfew, List.nil_append] at ht
    split at ht
    · cases ht
      refine ⟨⟨_, rfl, emitted_inputs _ _ _ _⟩, hkept, fun he => by omega, fun _ => ?_⟩
      refine ⟨_, s.heap.length + 1, rfl, ?_, rfl, ?_⟩
      · exact List.mem_cons_of_mem _ List.mem_cons_self
      · simp only [State.yield, value_numberOutputs, read_append_length_succ]
        omega
    · cases ht
      exact ⟨⟨_, rfl, emitted_inputs _ _ _ _⟩, hkept, fun _ => rfl, fun hm => by omega⟩

/-- A send is refused exactly when the whole pool is worth less than the amount and the fee, and
then nothing more is yielded. Otherwise it spends the shortest front part of the pool that is worth
them, the rest stays in order, and what is left over comes back as one output at the end of the
pool; this is what is yielded next. -/
theorem generate_picks (hfee : 0 ≤ fee) (hc : ∀ c ∈ commands, c.Ordinary)
    (hy : (generate root randomSha fee commands).1[k]? = some s)
    (hk : commands[k]? = some ⟨.send, amount⟩) :
    ((∃ e, s.operate root randomSha fee ⟨.send, amount⟩ = .error e) ↔
        s.heap.total s.UTXOs < fee + amount) ∧
      (∀ e, s.operate root randomSha fee ⟨.send, amount⟩ = .error e →
        (generate root randomSha fee commands).1.length = k + 1 ∧
          (generate root randomSha fee commands).2 = some e) ∧
      ∀ t, s.operate root randomSha fee ⟨.send, amount⟩ = .ok t →
        (generate root randomSha fee commands).1[k + 1]? = some t ∧ ∃ picked rest,
          Picks s.heap (fee + amount) s.UTXOs picked rest ∧
          Sent s t (fee + amount) picked rest := by
  obtain ⟨hends, hgoes⟩ := generateFrom_next hy hk
  have hr := run_of_generateFrom hy
  have hi : InHeap s := inHeap_run hr
  obtain ⟨-, hsound⟩ := conserved_run hr fun c h => hc c (List.mem_of_mem_take h)
  have hamount : 0 < amount := (hc _ (List.mem_of_getElem? hk)).2
  rcases @operate_send _ _ root randomSha _ _ _ hi (by omega : 0 < fee + amount) with
    ⟨hless, e, he⟩ | ⟨t, picked, rest, ht, hpicks, hsent⟩
  · refine ⟨⟨fun _ => hless, fun _ => ⟨e, he⟩⟩, hends, fun t ht => ?_⟩
    rw [he] at ht
    cases ht
  · refine ⟨⟨?_, fun hless => ?_⟩, hends, fun u hu => ⟨hgoes u hu, ?_⟩⟩
    · rintro ⟨e, he⟩
      rw [ht] at he
      cases he
    · have := hpicks.total_le hsound.positive
      omega
    · rw [ht] at hu
      cases hu
      exact ⟨picked, rest, hpicks, hsent⟩

/-- Two payments, and a send that takes both of them and leaves change. -/
theorem generate_picks_both : ∃ s t picked rest,
    (generate ([] : List Nat) countedSha 1 [⟨.get, 5⟩, ⟨.get, 4⟩, ⟨.send, 6⟩]).1[2]? = some s ∧
      (generate ([] : List Nat) countedSha 1 [⟨.get, 5⟩, ⟨.get, 4⟩, ⟨.send, 6⟩]).1[3]? = some t ∧
      s.operate ([] : List Nat) countedSha 1 ⟨.send, 6⟩ = .ok t ∧
      Picks s.heap 7 s.UTXOs picked rest ∧ Sent s t 7 picked rest := by
  have hc : ∀ c ∈ ([⟨.get, 5⟩, ⟨.get, 4⟩, ⟨.send, 6⟩] : List Command), c.Ordinary := by decide
  obtain ⟨s, hy, t, ht⟩ : ∃ s, (generate ([] : List Nat) countedSha 1
      [⟨.get, 5⟩, ⟨.get, 4⟩, ⟨.send, 6⟩]).1[2]? = some s ∧
      ∃ t, s.operate ([] : List Nat) countedSha 1 ⟨.send, 6⟩ = .ok t := ⟨_, rfl, _, rfl⟩
  obtain ⟨hnext, picked, rest, hpicks, hsent⟩ := (generate_picks (by decide) hc hy rfl).2.2 t ht
  exact ⟨s, t, picked, rest, hy, hnext, ht, hpicks, hsent⟩

end LibCoreCmd.Tools.GenData

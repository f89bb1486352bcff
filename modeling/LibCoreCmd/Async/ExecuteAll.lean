import Mathlib.Algebra.Ring.Nat
import LibCoreCmd.Async.Deffered
import Mathlib.Data.List.Range
import Mathlib.Data.List.Perm.Subperm

/-! `executeAll`, the future of all values: what comes of the futures completing, each at most
once, in any order. -/
namespace LibCoreCmd.Async

variable {τ : Type}

/-- What the callbacks of the futures share; `count` is a `uint32_t`. -/
structure Container (τ : Type) where
  deffered : Deffered (List τ) Unit := {}
  result : List τ
  count : Nat := 0

def Container.new [Inhabited τ] (n : Nat) : Container τ where
  result := List.replicate n default

def Container.setResult (c : Container τ) (r : Try (List τ)) : Try (Container τ) :=
  (c.deffered.complete r).map fun d => { c with deffered := d.1 }

/-- The callback of one of the futures, which holds the lock. -/
def Container.onComplete (c : Container τ) : Nat × Try τ → Try (Container τ)
  | (i, r) =>
    if c.deffered.value.isSome then .ok c
    else
      match r with
      | .ok v =>
        let c := { c with result := c.result.set i v, count := (c.count + 1) % 2 ^ 32 }
        if c.count = c.result.length then c.setResult (.ok c.result) else .ok c
      | .error e => c.setResult (.error e)

def executeAll [Inhabited τ] (n : Nat) (completions : List (Nat × Try τ)) : Try (Container τ) :=
  completions.foldlM Container.onComplete (.new n)

def failure : Nat × Try τ → Option Exception
  | (_, .error e) => some e
  | (_, .ok _) => none

/-- Futures among the first `n`, each of which completes once. -/
structure Once (n : Nat) (completions : List (Nat × Try τ)) : Prop where
  distinct : (completions.map Prod.fst).Nodup
  bounded : ∀ p ∈ completions, p.1 < n

/-- What the container holds after these completions. -/
structure Collected (n : Nat) (past : List (Nat × Try τ)) (c : Container τ) : Prop where
  length : c.result.length = n
  failed : ∀ e, past.findSome? failure = some e → c.deffered.value = some (.error e)
  counted : past.findSome? failure = none → c.count = past.length
  stored : past.findSome? failure = none → ∀ i v, (i, .ok v) ∈ past → c.result[i]? = some v
  value : past.findSome? failure = none →
    c.deffered.value = if 0 < n ∧ past.length = n then some (.ok c.result) else none

variable {n : Nat} {futures : List (Try τ)} {past ls : List (Nat × Try τ)} {c c' : Container τ}
  {p : Nat × Try τ} {i : Nat} {v : τ} {e : Exception}

theorem Once.subset (h : Once n ls) : ls.map Prod.fst ⊆ List.range n := by
  intro i hi
  obtain ⟨p, hp, rfl⟩ := List.mem_map.mp hi
  exact List.mem_range.mpr (h.bounded p hp)

theorem Once.length_le (h : Once n ls) : ls.length ≤ n := by
  simpa using (List.subperm_of_subset h.distinct h.subset).length_le

/-- When as many have completed as there are, each has. -/
theorem Once.mem (h : Once n ls) (hall : ls.length = n) (hi : i < n) : ∃ r, (i, r) ∈ ls := by
  have hperm : (ls.map Prod.fst).Perm (List.range n) :=
    (List.subperm_of_subset h.distinct h.subset).perm_of_length_le (by simp [hall])
  obtain ⟨p, hp, rfl⟩ := List.mem_map.mp (hperm.mem_iff.mpr (List.mem_range.mpr hi))
  exact ⟨p.2, hp⟩

theorem setResult_of_none (h : c.deffered.value = none) (r : Try (List τ)) : ∃ c',
    c.setResult r = .ok c' ∧ c'.deffered.value = some r ∧ c'.result = c.result ∧
      c'.count = c.count := by
  have hset : c.setResult r =
      .ok { c with deffered := ({ c.deffered with value := some r }.trigger).1 } := by
    rw [Container.setResult, complete_of_none h]
    rfl
  exact ⟨_, hset, trigger_value, rfl, rfl⟩

theorem onComplete_of_some (h : c.deffered.value.isSome) : c.onComplete p = .ok c := if_pos h

theorem Collected.next (hn : n < 2 ^ 32) (h : Collected n past c) (ho : Once n (past ++ [p])) :
    ∃ c', c.onComplete p = .ok c' ∧ Collected n (past ++ [p]) c' := by
  have hlen := ho.length_le
  rw [List.length_append, List.length_singleton] at hlen
  cases hf : past.findSome? failure with
  | some e =>
    have hv := h.failed e hf
    refine ⟨c, onComplete_of_some (by rw [hv]; rfl), h.length, ?_, ?_, ?_, ?_⟩ <;>
      simp [List.findSome?_append, hf, hv]
  | none =>
    have hv : c.deffered.value = none := by rw [h.value hf, if_neg (by omega)]
    have hcount := h.counted hf
    obtain ⟨i, r⟩ := p
    have hi : i < n := ho.bounded (i, r) (by simp)
    cases r with
    | error e =>
      obtain ⟨c', hset, hv', hres, hcnt⟩ := setResult_of_none hv (.error e)
      refine ⟨c', ?_, hres ▸ h.length, ?_, ?_, ?_, ?_⟩
      · simp [Container.onComplete, hv, hset]
      all_goals simp [List.findSome?_append, hf, failure, hv']
    | ok v =>
      have hnew : ∀ j w, (j, .ok w) ∈ past → j ≠ i := by
        rintro j w hj rfl
        have hd := ho.distinct
        rw [List.map_append, List.nodup_append] at hd
        exact hd.2.2 j (List.mem_map_of_mem hj) j (by simp) rfl
      have hstored : ∀ j w, (j, .ok w) ∈ past ++ [(i, .ok v)] →
          (c.result.set i v)[j]? = some w := by
        intro j w hj
        rcases List.mem_append.mp hj with hj | hj
        · rw [List.getElem?_set_ne (hnew j w hj).symm]
          exact h.stored hf j w hj
        · obtain ⟨rfl, hw⟩ := Prod.mk.inj (List.mem_singleton.mp hj)
          cases hw
          exact List.getElem?_set_self (h.length ▸ hi)
      have hcount' : (c.count + 1) % 2 ^ 32 = past.length + 1 := by
        rw [hcount]
        exact Nat.mod_eq_of_lt (by omega)
      have hrun : c.onComplete (i, .ok v) =
          let c' := { c with result := c.result.set i v, count := past.length + 1 }
          if past.length + 1 = n then c'.setResult (.ok c'.result) else .ok c' := by
        simp only [Container.onComplete, hv, hcount', List.length_set, h.length]
        rfl
      by_cases hall : past.length + 1 = n
      · have hv' : ({ c with
          result := c.result.set i v
          count := past.length + 1 } : Container τ).deffered.value = none := hv
        obtain ⟨c', hset, hvalue, hres, hcnt⟩ := setResult_of_none hv' (.ok (c.result.set i v))
        refine ⟨c', hrun.trans (by rw [if_pos hall]; exact hset), ?_, ?_, ?_, ?_, ?_⟩
        · rw [hres]
          simp [h.length]
        · simp [List.findSome?_append, hf, failure]
        · simp [hcnt]
        · rw [hres]
          exact fun _ => hstored
        · rw [hres, hvalue]
          simp [hall]
          omega
      · refine ⟨_, hrun.trans (if_neg hall), ?_, ?_, ?_, fun _ => hstored, ?_⟩
        · simp [h.length]
        · simp [List.findSome?_append, hf, failure]
        · simp
        · simp [hv, hall]

theorem collected_new [Inhabited τ] : Collected n [] (.new n : Container τ) := by
  refine ⟨by simp [Container.new], by simp, fun _ => rfl, by simp, fun _ => ?_⟩
  rw [if_neg (by simp; omega)]
  rfl

/-- Whatever the order of the completions nothing is thrown, the first failure is the result,
and without one the result comes with the last of the futures and has every value in its
place. Of no futures there never is a result. -/
theorem executeAll_collects [Inhabited τ] (hn : n < 2 ^ 32) (ho : Once n ls) :
    ∃ c, executeAll n ls = .ok c ∧ Collected n ls c := by
  induction ls using List.reverseRecOn with
  | nil => exact ⟨_, rfl, collected_new⟩
  | append_singleton past p ih =>
    have hpast : Once n past := by
      refine ⟨?_, fun q hq => ho.bounded q (List.mem_append_left _ hq)⟩
      have hd := ho.distinct
      rw [List.map_append, List.nodup_append] at hd
      exact hd.1
    obtain ⟨c, hrun, hc⟩ := ih hpast
    obtain ⟨c', hstep, hc'⟩ := hc.next hn ho
    refine ⟨c', ?_, hc'⟩
    rw [executeAll] at hrun ⊢
    rw [List.foldlM_append, hrun]
    simp only [bind, Except.bind, List.foldlM_cons, hstep, List.foldlM_nil]
    rfl

/-- `async::sequence` on futures with these results: each is waited for before the next. -/
def sequence : List (Try τ) → Try (List τ)
  | [] => .ok []
  | r :: futures => do
    let v ← r
    let buffer ← sequence futures
    return v :: buffer

theorem sequence_ok (vs : List τ) : sequence (vs.map .ok) = .ok vs := by
  induction vs with
  | nil => rfl
  | cons v vs ih =>
    rw [List.map_cons, sequence, ih]
    rfl

/-- A sequence fails as one of its futures does, if any does. -/
theorem sequence_error (h : .error e ∈ futures) : ∃ e', sequence futures = .error e' ∧
    .error e' ∈ futures := by
  induction futures with
  | nil => cases h
  | cons r futures ih =>
    cases r with
    | error e' => exact ⟨e', rfl, List.mem_cons_self⟩
    | ok v =>
      obtain ⟨e', hs, he⟩ := ih ((List.mem_cons.mp h).resolve_left nofun)
      refine ⟨e', ?_, List.mem_cons_of_mem _ he⟩
      rw [sequence, hs]
      rfl

theorem Collected.sequence_ok (h : Collected n ls c) (ho : Once n ls)
    (hfail : ls.findSome? failure = none) (hpos : 0 < n) (hall : ls.length = n)
    (hf : futures.length = n) (hr : ∀ p ∈ ls, futures[p.1]? = some p.2) :
    c.deffered.value = some (sequence futures) := by
  have hsame : futures = c.result.map .ok := by
    refine List.ext_getElem? fun i => ?_
    by_cases hi : i < n
    · obtain ⟨r, hir⟩ := ho.mem hall hi
      rw [hr _ hir]
      cases r with
      | error e => simpa [failure] using List.findSome?_eq_none_iff.mp hfail _ hir
      | ok v => rw [List.getElem?_map, h.stored hfail i v hir]; rfl
    · rw [List.getElem?_eq_none (by omega), List.getElem?_eq_none (by simp [h.length]; omega)]
  rw [h.value hfail, if_pos ⟨hpos, hall⟩, hsame, Async.sequence_ok]

/-- The only failure is also what `sequence` comes to. -/
theorem Collected.sequence_error (h : Collected n ls c) (ho : Once n ls)
    (hfail : ls.findSome? failure = some e) (hone : (ls.filterMap failure).length ≤ 1)
    (hall : ls.length = n) (hf : futures.length = n)
    (hr : ∀ p ∈ ls, futures[p.1]? = some p.2) :
    c.deffered.value = some (sequence futures) := by
  obtain ⟨⟨i, r⟩, hir, he⟩ := List.exists_of_findSome?_eq_some hfail
  have hmem : .error e ∈ futures := by
    cases r with
    | ok v => cases he
    | error e' =>
      cases he
      exact List.mem_of_getElem? (hr _ hir)
  obtain ⟨e', hs, hmem'⟩ := Async.sequence_error hmem
  obtain ⟨j, hj⟩ := List.mem_iff_getElem?.mp hmem'
  have hjn : j < n := hf ▸ (List.getElem?_eq_some_iff.mp hj).1
  obtain ⟨r', hjr⟩ := ho.mem hall hjn
  obtain rfl : .error e' = r' := Option.some.inj (hj.symm.trans (hr _ hjr))
  have hfound : e ∈ ls.filterMap failure := List.mem_filterMap.mpr ⟨_, hir, he⟩
  have hfound' : e' ∈ ls.filterMap failure := List.mem_filterMap.mpr ⟨_, hjr, rfl⟩
  rw [h.failed e hfail, hs]
  obtain ⟨x, hx⟩ := List.length_eq_one_iff.mp
    (Nat.le_antisymm hone (List.length_pos_of_mem hfound))
  rw [hx, List.mem_singleton] at hfound hfound'
  rw [hfound, hfound']

/-- In whatever order futures complete, all of them or some, nothing is thrown, the failure that
came first is the result, and without one there is no result before the last of them. When all
have completed and no two have failed it is the same as with `sequence`, unless there are no
futures: then `executeAll` never has a result. -/
theorem executeAll_agrees [Inhabited τ] (hn : n < 2 ^ 31) (ho : Once n ls) :
    ∃ c, executeAll n ls = .ok c ∧
      (∀ e, ls.findSome? failure = some e → c.deffered.value = some (.error e)) ∧
      (ls.findSome? failure = none → ls.length < n ∨ n = 0 → c.deffered.value = none) ∧
      ∀ futures : List (Try τ), futures.length = n → (∀ p ∈ ls, futures[p.1]? = some p.2) →
        0 < n → ls.length = n → (ls.filterMap failure).length ≤ 1 →
        c.deffered.value = some (sequence futures) := by
  obtain ⟨c, hrun, hc⟩ := executeAll_collects (by omega) ho
  refine ⟨c, hrun, hc.failed, fun hnone hfew => ?_, fun futures hf hr hpos hall hone => ?_⟩
  · rw [hc.value hnone, if_neg (by omega)]
  · cases hfail : ls.findSome? failure with
    | none => exact hc.sequence_ok ho hfail hpos hall hf hr
    | some e => exact hc.sequence_error ho hfail hone hall hf hr

/-- The second of two futures completes first, and the first one fails. -/
theorem executeAll_agrees_failed : ∃ c,
    executeAll 2 [(1, .ok "b"), (0, .error ⟨.runtimeError, "x"⟩)] = .ok c ∧
      c.deffered.value = some (.error ⟨.runtimeError, "x"⟩) ∧
      c.deffered.value = some (sequence [.error ⟨.runtimeError, "x"⟩, .ok "b"]) := by
  have ho : Once 2 [(1, .ok "b"), (0, .error ⟨.runtimeError, "x"⟩)] := ⟨by decide, by decide⟩
  have hr : ∀ p ∈ [(1, (.ok "b" : Try String)), (0, .error ⟨.runtimeError, "x"⟩)],
    [(.error ⟨.runtimeError, "x"⟩ : Try String), .ok "b"][p.1]? = some p.2 := by simp
  obtain ⟨c, hrun, hfirst, -, hsame⟩ := executeAll_agrees (by decide) ho
  exact ⟨c, hrun, hfirst _ rfl, hsame _ rfl hr (by decide) rfl (by decide)⟩

end LibCoreCmd.Async

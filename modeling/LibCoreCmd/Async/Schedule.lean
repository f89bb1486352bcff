import LibCoreCmd.Async.Future
import Mathlib.Algebra.Ring.Nat
import Mathlib.Algebra.BigOperators.Group.List.Basic

/-! Whatever the order in which the contexts run their tasks, a future comes to the result that
its expression denotes, after the same number of tasks. -/
namespace LibCoreCmd.Async
open Transition

variable {ν : Type} {e a : FutureExpr ν} {es es' : Nat → FutureExpr ν} {m m' : Machine ν}
  {c : Callback ν} {u : Task ν} {free : List Nat} {n s t x : Nat} {r : Try ν} {ls : List Nat}

/-- The number of tasks that an expression takes. -/
def FutureExpr.work : FutureExpr ν → Nat
  | .successful _ | .failure _ | .throw _ => 0
  | .async _ => 1
  | .asyncWith f => 1 + if f.thrown.isSome then 0 else f.work + 1
  | .map a _ | .recover a _ => a.work + 1
  | .flatMap a f => a.work + 1 +
    match a.denote with
    | .ok v => if (f v).thrown.isSome then 0 else (f v).work + 1
    | .error _ => 0
  | .recoverWith a f => a.work + 1 +
    match a.denote with
    | .ok _ => 0
    | .error e => if (f e).thrown.isSome then 0 else (f e).work + 1

/-- The work for a future that another one follows. -/
def FutureExpr.cost (e : FutureExpr ν) : Nat := if e.thrown.isSome then 0 else e.work + 1

def Callback.target : Callback ν → Nat
  | .map _ t | .flatMap _ t | .recover _ t | .recoverWith _ t | .forward t => t

def Task.target : Task ν → Nat
  | .async _ t | .asyncWith _ t => t
  | .call _ c _ => c.target

/-- A task, and all that it leads to. -/
def Task.weight : Task ν → Nat
  | .asyncWith f _ => 1 + f.cost
  | .call _ (.flatMap f _) (.ok v) => 1 + (f v).cost
  | .call _ (.recoverWith f _) (.error e) => 1 + (f e).cost
  | _ => 1

/-- The callback at a future for `a` serves a future for `e`. -/
inductive Link : FutureExpr ν → Callback ν → FutureExpr ν → Prop where
  | map (a : FutureExpr ν) (f : ν → Try ν) (t : Nat) : Link a (.map f t) (.map a f)
  | flatMap (a : FutureExpr ν) (f : ν → FutureExpr ν) (t : Nat) :
      Link a (.flatMap f t) (.flatMap a f)
  | recover {a : FutureExpr ν} (f : Exception → Try ν) (t : Nat) :
      a.thrown = none → Link a (.recover f t) (.recover a f)
  | recoverWith {a : FutureExpr ν} (f : Exception → FutureExpr ν) (t : Nat) :
      a.thrown = none → Link a (.recoverWith f t) (.recoverWith a f)
  | followAsync (a : FutureExpr ν) (t : Nat) : Link a (.forward t) (.asyncWith a)
  | followFlatMap {a : FutureExpr ν} {v : ν} (f : ν → FutureExpr ν) (t : Nat) :
      a.denote = .ok v → Link (f v) (.forward t) (.flatMap a f)
  | followRecoverWith {a : FutureExpr ν} {e : Exception} (f : Exception → FutureExpr ν)
      (t : Nat) : a.thrown = none → a.denote = .error e → Link (f e) (.forward t) (.recoverWith a f)

/-- `es` says which expression each future is for. -/
def Task.Fits (es : Nat → FutureExpr ν) (size : Nat) : Task ν → Prop
  | .async f t => es t = .async f
  | .asyncWith f t => es t = .asyncWith f
  | .call s c r => s < size ∧ r = (es s).denote ∧ Link (es s) c (es c.target)

/-- The tasks that the callbacks at `s` are going to be. -/
def waiting (es : Nat → FutureExpr ν) (m : Machine ν) (s : Nat) : List (Task ν) :=
  (m.deffered s).callbacks.map fun c => .call s c (es s).denote

/-- The tasks, with those that the waiting callbacks are going to be. -/
def pending (es : Nat → FutureExpr ν) (m : Machine ν) : List (Task ν) :=
  m.tasks ++ (List.range m.size).flatMap (waiting es m)

/-- Every future without a value is the target of one pending task, except those in `free`,
which are still to get one; `n` is the weight of what is pending. -/
structure Sound (es : Nat → FutureExpr ν) (free : List Nat) (n : Nat) (m : Machine ν) : Prop where
  values : ∀ t r, (m.deffered t).value = some r → r = (es t).denote
  idle : ∀ t, (m.deffered t).value ≠ none → (m.deffered t).callbacks = []
  fits : ∀ u ∈ pending es m, u.Fits es m.size
  owned : ∀ x, ((pending es m).map Task.target).count x + free.count x =
    if x < m.size ∧ (m.deffered x).value = none then 1 else 0
  weight : ((pending es m).map Task.weight).sum = n
  thrown : m.thrown = []
  fresh : ∀ x, m.size ≤ x → m.deffered x = {}

/-- What is pending but for the callbacks at `s`. -/
def elsewhere (es : Nat → FutureExpr ν) (m : Machine ν) (s : Nat) : List (Task ν) :=
  m.tasks ++ ((List.range m.size).erase s).flatMap (waiting es m)

theorem pending_split (hs : s < m.size) :
    (pending es m).Perm (waiting es m s ++ elsewhere es m s) := by
  have hperm := List.perm_cons_erase (List.mem_range.mpr hs)
  refine ((hperm.flatMap_right _).append_left m.tasks).trans ?_
  rw [List.flatMap_cons, elsewhere, ← List.append_assoc, ← List.append_assoc]
  exact List.perm_append_comm.append_right _

/-- Replacing the cell `s` changes what is pending only there. -/
theorem pending_update (hs : s < m.size)
    (out : Deffered ν (Callback ν) × List (Callback ν × Try ν)) :
    (pending es (m.update s out)).Perm
      (((out.1.callbacks.map fun c => .call s c (es s).denote) ++
        out.2.map fun c => .call s c.1 c.2) ++ elsewhere es m s) := by
  have helse : elsewhere es (m.update s out) s =
      (m.tasks ++ out.2.map fun c => .call s c.1 c.2) ++
        ((List.range m.size).erase s).flatMap (waiting es m) := by
    refine congrArg (_ ++ ·) (List.flatMap_congr fun x hx => ?_)
    have hne : x ≠ s := (List.nodup_range.mem_erase_iff.mp hx).1
    simp [waiting, Machine.update, Function.update_of_ne hne]
  refine (pending_split (m := m.update s out) hs).trans ?_
  rw [helse, elsewhere, List.append_assoc, List.append_assoc]
  have hhere : waiting es (m.update s out) s =
      out.1.callbacks.map fun c => .call s c (es s).denote := by
    simp [waiting, Machine.update]
  rw [hhere]
  refine List.Perm.append_left _ ?_
  rw [← List.append_assoc, ← List.append_assoc]
  exact List.perm_append_comm.append_right _

/-- A callback is pending from when it is added. -/
theorem pending_addCallback (h : Sound es free n m) (hs : s < m.size) (c : Callback ν) :
    (pending es (m.addCallback s c)).Perm (.call s c (es s).denote :: pending es m) := by
  refine (pending_update hs _).trans ?_
  refine List.Perm.trans ?_ ((pending_split hs).cons _).symm
  rw [← List.cons_append]
  refine List.Perm.append_right _ ?_
  cases hv : (m.deffered s).value with
  | none =>
    simp only [Deffered.addCallback, Deffered.trigger, hv, List.map_append, List.map_singleton,
      List.map_nil, List.append_nil]
    exact List.perm_append_comm
  | some r =>
    have hidle := h.idle s (by simp [hv])
    simp [Deffered.addCallback, Deffered.trigger, hv, hidle, waiting, h.values s r hv]

/-- What waits for a future is not changed by its completion. -/
theorem pending_setResult (hs : t < m.size) (hv : (m.deffered t).value = none) :
    (pending es (m.setResult t (es t).denote)).Perm (pending es m) := by
  unfold Machine.setResult
  rw [complete_of_none hv]
  refine (pending_update hs _).trans (List.Perm.trans ?_ (pending_split hs).symm)
  refine List.Perm.append_right _ ?_
  simp [Deffered.trigger, waiting, Function.comp_def]

theorem setResult_value (hv : (m.deffered t).value = none) (r : Try ν) :
    m.setResult t r = m.update t ({ m.deffered t with value := some r }.trigger) := by
  unfold Machine.setResult
  rw [complete_of_none hv]

/-- The task that a future is to get may complete it. -/
theorem Sound.setResult (h : Sound es (t :: free) n m) :
    Sound es free n (m.setResult t (es t).denote) := by
  have ht : t < m.size ∧ (m.deffered t).value = none := by
    by_contra hn
    have hown := h.owned t
    rw [if_neg hn, List.count_cons_self] at hown
    omega
  have hperm : (pending es (m.setResult t (es t).denote)).Perm (pending es m) :=
    pending_setResult ht.1 ht.2
  have hset := setResult_value ht.2 (es t).denote
  have hcell : ∀ x, x ≠ t →
      (m.setResult t (es t).denote).deffered x = m.deffered x := by
    intro x hx
    rw [hset]
    exact Function.update_of_ne hx _ _
  have hdone : (m.setResult t (es t).denote).deffered t =
      { value := some (es t).denote, callbacks := [] } := by
    rw [hset]
    simp [Machine.update, Deffered.trigger]
  have hsize : (m.setResult t (es t).denote).size = m.size := by
    rw [hset]
    rfl
  refine ⟨fun x r hx => ?_, fun x hx => ?_, fun u hu => ?_, fun x => ?_, ?_, ?_, fun x hx => ?_⟩
  · by_cases hxt : x = t
    · subst hxt
      simpa [hdone, eq_comm] using hx
    · rw [hcell x hxt] at hx
      exact h.values x r hx
  · by_cases hxt : x = t
    · rw [hxt, hdone]
    · rw [hcell x hxt] at hx ⊢
      exact h.idle x hx
  · rw [hsize]
    exact h.fits u (hperm.mem_iff.mp hu)
  · have hown := h.owned x
    rw [(hperm.map _).count_eq, hsize]
    by_cases hxt : x = t
    · subst hxt
      rw [if_pos ht, List.count_cons_self] at hown
      rw [hdone, if_neg (by simp)]
      omega
    · rw [List.count_cons_of_ne (Ne.symm hxt)] at hown
      rw [hcell x hxt]
      exact hown
  · rw [(hperm.map _).sum_eq]
    exact h.weight
  · rw [hset]
    exact h.thrown
  · rw [hsize] at hx
    rw [hcell x (by omega), h.fresh x hx]

theorem count_shift (x t : Nat) (l k : List Nat) :
    (t :: l).count x + k.count x = l.count x + (t :: k).count x := by
  rw [List.count_cons, List.count_cons]
  omega

/-- The task that a future is to get may be a callback at another one. -/
theorem Sound.addCallback (h : Sound es (c.target :: free) n m) (hs : s < m.size)
    (hl : Link (es s) c (es c.target)) :
    Sound es free (n + (Task.call s c (es s).denote).weight) (m.addCallback s c) := by
  have hperm := pending_addCallback h hs c
  have hvalue : ∀ x, ((m.addCallback s c).deffered x).value = (m.deffered x).value := by
    intro x
    by_cases hx : x = s
    · subst hx
      simp [Machine.addCallback, Machine.update, Deffered.addCallback]
    · simp [Machine.addCallback, Machine.update, Function.update_of_ne hx]
  refine ⟨fun x r hx => h.values x r (by rwa [hvalue] at hx), fun x hx => ?_, fun u hu => ?_,
    fun x => ?_, ?_, h.thrown, fun x hx => ?_⟩
  · rw [hvalue] at hx
    by_cases hxs : x = s
    · subst hxs
      simp only [Machine.addCallback, Machine.update, Function.update_self]
      exact (trigger_idle (d := { m.deffered x with
        callbacks := (m.deffered x).callbacks ++ [c] })).resolve_left (by simpa using hx)
    · simp only [Machine.addCallback, Machine.update, Function.update_of_ne hxs]
      exact h.idle x hx
  · rcases List.mem_cons.mp (hperm.mem_iff.mp hu) with rfl | hu
    · exact ⟨hs, rfl, hl⟩
    · exact h.fits u hu
  · have hown := h.owned x
    rw [(hperm.map _).count_eq, hvalue, List.map_cons]
    exact (count_shift x c.target _ _).trans hown
  · rw [(hperm.map _).sum_eq, List.map_cons, List.sum_cons, h.weight]
    omega
  · have hxs : x ≠ s := by have : m.size ≤ x := hx; omega
    simp only [Machine.addCallback, Machine.update, Function.update_of_ne hxs]
    exact h.fresh x hx

/-- Or a task of its own. -/
theorem Sound.execute (h : Sound es (u.target :: free) n m) (hu : u.Fits es m.size) :
    Sound es free (n + u.weight) (m.execute u) := by
  have hpending : (pending es (m.execute u)).Perm (u :: pending es m) := by
    simp only [pending, Machine.execute, List.append_assoc, List.singleton_append]
    exact List.perm_middle
  refine ⟨h.values, h.idle, fun v hv => ?_, fun x => ?_, ?_, h.thrown, h.fresh⟩
  · rcases List.mem_cons.mp (hpending.mem_iff.mp hv) with rfl | hv
    · exact hu
    · exact h.fits v hv
  · have hown := h.owned x
    rw [(hpending.map _).count_eq, List.map_cons]
    exact (count_shift x u.target _ _).trans hown
  · rw [(hpending.map _).sum_eq, List.map_cons, List.sum_cons, h.weight]
    omega

/-- The expressions of futures that are there do not change when another is made. -/
def Extends (m : Machine ν) (es es' : Nat → FutureExpr ν) : Prop := ∀ x < m.size, es' x = es x

theorem extends_update : Extends m es (Function.update es m.size e) :=
  fun _ hx => Function.update_of_ne (Nat.ne_of_lt hx) _ _

theorem Task.Fits.mono {size size' : Nat} (h : u.Fits es size) (hx : ∀ x < size, es' x = es x)
    (ht : u.target < size) (hsize : size ≤ size') : u.Fits es' size' := by
  cases u with
  | async f t => exact (hx t ht).trans h
  | asyncWith f t => exact (hx t ht).trans h
  | call s c r =>
    obtain ⟨hs, hr, hl⟩ := h
    have htarget : es' c.target = es c.target := hx _ ht
    rw [Task.Fits, hx s hs, htarget]
    exact ⟨by omega, hr, hl⟩

theorem Sound.target_lt (h : Sound es free n m) (hu : u ∈ pending es m) : u.target < m.size := by
  by_contra hn
  have hown := h.owned u.target
  rw [if_neg (fun hc => hn hc.1)] at hown
  have hpos := List.count_pos_iff.mpr (List.mem_map_of_mem (f := Task.target) hu)
  omega

theorem Sound.free_lt (h : Sound es free n m) (ht : t ∈ free) : t < m.size := by
  by_contra hn
  have hown := h.owned t
  rw [if_neg (fun hc => hn hc.1)] at hown
  have hpos := List.count_pos_iff.mpr ht
  omega

theorem pending_alloc {d : Deffered ν (Callback ν)} (hd : d.callbacks = [])
    (es : Nat → FutureExpr ν) (m : Machine ν) (e : FutureExpr ν) :
    pending (Function.update es m.size e) (m.alloc d) = pending es m := by
  have hnew : waiting (Function.update es m.size e) (m.alloc d) m.size = [] := by
    simp [waiting, Machine.alloc, hd]
  have hold : (List.range m.size).flatMap
      (waiting (Function.update es m.size e) (m.alloc d)) =
        (List.range m.size).flatMap (waiting es m) := by
    refine List.flatMap_congr fun x hx => ?_
    have hne : x ≠ m.size := Nat.ne_of_lt (List.mem_range.mp hx)
    simp [waiting, Machine.alloc, Function.update_of_ne hne]
  have hrange : (m.alloc d).size = m.size + 1 := rfl
  rw [pending, hrange, List.range_succ, List.flatMap_append, List.flatMap_singleton, hnew,
    hold, List.append_nil]
  rfl

/-- What holds of a machine with a new cell, whatever it is to get. -/
theorem Sound.alloc {d : Deffered ν (Callback ν)} {free' : List Nat} (h : Sound es free n m)
    (hd : d.callbacks = []) (hv : ∀ r, d.value = some r → r = e.denote)
    (hfree : ∀ x, free'.count x = free.count x + if x = m.size ∧ d.value = none then 1 else 0) :
    Sound (Function.update es m.size e) free' n (m.alloc d) := by
  have hsame := pending_alloc hd es m e
  have hcell : ∀ x, x ≠ m.size → (m.alloc d).deffered x = m.deffered x :=
    fun x hx => Function.update_of_ne hx _ _
  have hnew : (m.alloc d).deffered m.size = d := Function.update_self _ _ _
  have hsize : (m.alloc d).size = m.size + 1 := rfl
  refine ⟨fun x r hx => ?_, fun x hx => ?_, fun u hu => ?_, fun x => ?_, ?_, h.thrown,
    fun x hx => ?_⟩
  · by_cases hxs : x = m.size
    · subst hxs
      rw [hnew] at hx
      simpa using hv r hx
    · rw [hcell x hxs] at hx
      rw [Function.update_of_ne hxs]
      exact h.values x r hx
  · by_cases hxs : x = m.size
    · rw [hxs, hnew, hd]
    · rw [hcell x hxs] at hx ⊢
      exact h.idle x hx
  · rw [hsame] at hu
    exact (h.fits u hu).mono extends_update (h.target_lt hu) (by omega)
  · have hown := h.owned x
    rw [hsame, hfree, ← Nat.add_assoc, hown, hsize]
    by_cases hxs : x = m.size
    · subst hxs
      simp [hnew]
    · have hother : ¬ (x = m.size ∧ d.value = none) := fun hc => hxs hc.1
      rw [hcell x hxs, if_neg hother, Nat.add_zero]
      exact if_congr (and_congr_left fun _ => by omega) rfl rfl
  · rw [hsame]
    exact h.weight
  · rw [hsize] at hx
    rw [hcell x (by omega), h.fresh x (by omega)]

theorem Sound.allocDone {d : Deffered ν (Callback ν)} (h : Sound es free n m)
    (hd : d.callbacks = []) (hv : d.value = some e.denote) :
    Sound (Function.update es m.size e) free n (m.alloc d) :=
  h.alloc hd (by simp [hv]) (by simp [hv])

theorem Sound.allocFree (h : Sound es free n m) (e : FutureExpr ν) :
    Sound (Function.update es m.size e) (m.size :: free) n (m.alloc {}) := by
  refine h.alloc rfl (by simp) fun x => ?_
  by_cases hx : x = m.size
  · simp [hx]
  · rw [List.count_cons_of_ne (Ne.symm hx)]
    simp [hx]

/-- A future that depends on another one. -/
theorem Sound.attach (h : Sound es free n m) (hs : s < m.size) {k : Nat → Callback ν}
    (hk : (k m.size).target = m.size) (hl : Link (es s) (k m.size) e) :
    Sound (Function.update es m.size e) free (n + (Task.call s (k m.size) (es s).denote).weight)
      (m.attach s k).2 := by
  have hne : s ≠ m.size := Nat.ne_of_lt hs
  have hfree := h.allocFree e
  have hes : Function.update es m.size e s = es s := Function.update_of_ne hne _ _
  have hsound : Sound (Function.update es m.size e) ((k m.size).target :: free) n (m.alloc {}) := by
    rwa [hk]
  have hadd := hsound.addCallback (Nat.lt_succ_of_lt hs)
    (by rw [hes, hk, Function.update_self]; exact hl)
  rwa [hes] at hadd

theorem launch_thrown {y : Exception} (h : e.thrown = some y) (m : Machine ν) :
    m.launch e = .error y ∧ e.denote = .error y := by
  induction e with
  | successful | failure | async | asyncWith => cases h
  | throw e =>
    cases h
    exact ⟨rfl, rfl⟩
  | map a f ih | flatMap a f ih =>
    obtain ⟨hm, hd⟩ := ih h
    exact ⟨by simp [Machine.launch, hm, Except.map],
      by simp [FutureExpr.denote, hd, Except.bind]⟩
  | recover a f ih | recoverWith a f ih =>
    have ha : a.thrown = some y := h
    exact ⟨by simp [Machine.launch, (ih ha).1, Except.map], by simp [FutureExpr.denote, ha]⟩

/-- A machine in which a future for `e` has been made. -/
structure Launched (es : Nat → FutureExpr ν) (free : List Nat) (n : Nat) (m : Machine ν)
    (e : FutureExpr ν) (s : Nat) (m' : Machine ν) (es' : Nat → FutureExpr ν) : Prop where
  sound : Sound es' free (n + e.work) m'
  extended : Extends m es es'
  grown : m.size ≤ m'.size
  made : s < m'.size
  means : es' s = e

/-- With the future for `a` comes the future of a combinator over it. -/
theorem Launched.attach {k : Nat → Callback ν} (h : Launched es free n m a s m' es')
    (hk : ∀ t, (k t).target = t) (hl : ∀ t, Link a (k t) e)
    (hw : ∀ t, e.work = a.work + (Task.call s (k t) a.denote).weight) :
    ∃ es'', Launched es free n m e (m'.attach s k).1 (m'.attach s k).2 es'' := by
  have hsound := h.sound.attach (e := e) h.made (hk _) (by rw [h.means]; exact hl _)
  rw [h.means, Nat.add_assoc, ← hw] at hsound
  refine ⟨_, hsound, fun x hx => ?_, Nat.le_succ_of_le h.grown, Nat.lt_succ_self _,
    Function.update_self _ _ _⟩
  have hlt : x < m'.size := Nat.lt_of_lt_of_le hx h.grown
  rw [Function.update_of_ne (Nat.ne_of_lt hlt)]
  exact h.extended x hx

theorem Sound.launch (h : Sound es free n m) (he : e.thrown = none) :
    ∃ s m' es', m.launch e = .ok (s, m') ∧ Launched es free n m e s m' es' := by
  induction e with
  | successful v =>
    exact ⟨_, _, _, rfl, h.allocDone rfl rfl, extends_update, Nat.le_succ _, Nat.lt_succ_self _,
      Function.update_self _ _ _⟩
  | failure x =>
    exact ⟨_, _, _, rfl, h.allocDone rfl rfl, extends_update, Nat.le_succ _, Nat.lt_succ_self _,
      Function.update_self _ _ _⟩
  | throw x => cases he
  | async f =>
    have hx := (h.allocFree (.async f)).execute (u := .async f m.size) (Function.update_self _ _ _)
    exact ⟨_, _, _, rfl, hx, extends_update, Nat.le_succ _, Nat.lt_succ_self _,
      Function.update_self _ _ _⟩
  | asyncWith f =>
    have hx := (h.allocFree (.asyncWith f)).execute (u := .asyncWith f m.size)
      (Function.update_self _ _ _)
    exact ⟨_, _, _, rfl, hx, extends_update, Nat.le_succ _, Nat.lt_succ_self _,
      Function.update_self _ _ _⟩
  | map a f ih =>
    obtain ⟨s, m', es', hm, hl⟩ := ih he
    obtain ⟨es'', hl⟩ := hl.attach (k := .map f) (fun _ => rfl) (.map a f) fun _ => rfl
    exact ⟨_, _, es'', by simp only [Machine.launch, hm, Except.map], hl⟩
  | recover a f ih =>
    obtain ⟨s, m', es', hm, hl⟩ := ih he
    obtain ⟨es'', hl⟩ := hl.attach (k := .recover f) (fun _ => rfl)
      (fun t => .recover f t he) fun _ => rfl
    exact ⟨_, _, es'', by simp only [Machine.launch, hm, Except.map], hl⟩
  | flatMap a f ih =>
    obtain ⟨s, m', es', hm, hl⟩ := ih he
    obtain ⟨es'', hl⟩ := hl.attach (k := .flatMap f) (fun _ => rfl) (.flatMap a f) fun _ => by
      cases hd : a.denote <;>
        simp [FutureExpr.work, Task.weight, FutureExpr.cost, hd, Nat.add_assoc]
    exact ⟨_, _, es'', by simp only [Machine.launch, hm, Except.map], hl⟩
  | recoverWith a f ih =>
    obtain ⟨s, m', es', hm, hl⟩ := ih he
    obtain ⟨es'', hl⟩ := hl.attach (k := .recoverWith f) (fun _ => rfl)
      (fun t => .recoverWith f t he) fun _ => by
      cases hd : a.denote <;>
        simp [FutureExpr.work, Task.weight, FutureExpr.cost, hd, Nat.add_assoc]
    exact ⟨_, _, es'', by simp only [Machine.launch, hm, Except.map], hl⟩

theorem size_setResult : (m.setResult t r).size = m.size := by
  unfold Machine.setResult
  split <;> rfl

/-- A future that is to follow the one of an expression. -/
theorem Sound.follow (h : Sound es (t :: free) n m) (hd : (es t).denote = e.denote)
    (hl : Link e (.forward t) (es t)) :
    ∃ es', Sound es' free (n + e.cost) (m.follow e t) ∧ Extends m es es' ∧
      m.size ≤ (m.follow e t).size := by
  cases he : e.thrown with
  | some y =>
    obtain ⟨hx, hxd⟩ := launch_thrown he m
    have hset := h.setResult
    rw [hd, hxd] at hset
    refine ⟨es, ?_, fun _ _ => rfl, ?_⟩
    · simpa [Machine.follow, hx, FutureExpr.cost, he] using hset
    · simp [Machine.follow, hx, size_setResult]
  | none =>
    obtain ⟨s, m', es', hm, hsound, hext, hgrown, hmade, hmeans⟩ := h.launch he
    have ht : es' t = es t := hext t (h.free_lt (by simp))
    have hadd := hsound.addCallback (c := .forward t) hmade (by rw [hmeans]; exact ht ▸ hl)
    refine ⟨es', ?_, hext, ?_⟩
    · simpa [Machine.follow, hm, FutureExpr.cost, he, Task.weight, Nat.add_assoc] using hadd
    · simp only [Machine.follow, hm]
      exact hgrown

/-- What running a task is to bring about: one task less, and all that it leads to. -/
def Advances (es : Nat → FutureExpr ν) (n : Nat) (m m' : Machine ν) : Prop :=
  ∃ es', Sound es' [] n m' ∧ Extends m es es' ∧ m.size ≤ m'.size

theorem Sound.finish (h : Sound es [t] n m) (hr : r = (es t).denote) :
    Advances es n m (m.setResult t r) := by
  subst hr
  exact ⟨es, h.setResult, fun _ _ => rfl, by rw [size_setResult]⟩

/-- A task does what the expression of its target says. -/
theorem Sound.run (h : Sound es [u.target] n m) (hu : u.Fits es m.size) :
    ∃ k, k + 1 = n + u.weight ∧ Advances es k m (m.run u) := by
  cases u with
  | async f t => exact ⟨n, rfl, h.finish (t := t) (by rw [show es t = .async f from hu]; rfl)⟩
  | asyncWith f t =>
    have ht : es t = .asyncWith f := hu
    exact ⟨n + f.cost, by simp [Task.weight]; omega,
      h.follow (t := t) (by rw [ht]; rfl) (by rw [ht]; exact .followAsync f t)⟩
  | call s c r =>
    obtain ⟨-, hr, hl⟩ := hu
    generalize ha : es s = a at hr hl
    generalize he : es c.target = e at hl
    subst hr
    cases hl with
    | map a f t => exact ⟨n, rfl, h.finish (t := t) (by rw [show es t = .map a f from he]; rfl)⟩
    | flatMap a f t =>
      have ht : es t = .flatMap a f := he
      cases hd : a.denote with
      | ok v =>
        exact ⟨n + (f v).cost, by simp [Task.weight]; omega,
          h.follow (t := t) (by simp [ht, FutureExpr.denote, hd])
            (by rw [ht]; exact .followFlatMap f t hd)⟩
      | error x => exact ⟨n, rfl, h.finish (t := t) (by simp [ht, FutureExpr.denote, hd])⟩
    | recover f t hn =>
      have ht : es t = .recover a f := he
      cases hd : a.denote with
      | ok v => exact ⟨n, rfl, h.finish (t := t) (by simp [ht, FutureExpr.denote, hn, hd])⟩
      | error x => exact ⟨n, rfl, h.finish (t := t) (by simp [ht, FutureExpr.denote, hn, hd])⟩
    | recoverWith f t hn =>
      have ht : es t = .recoverWith a f := he
      cases hd : a.denote with
      | ok v => exact ⟨n, rfl, h.finish (t := t) (by simp [ht, FutureExpr.denote, hn, hd])⟩
      | error x =>
        exact ⟨n + (f x).cost, by simp [Task.weight]; omega,
          h.follow (t := t) (by simp [ht, FutureExpr.denote, hn, hd])
            (by rw [ht]; exact .followRecoverWith f t hn hd)⟩
    | followAsync a t =>
      exact ⟨n, rfl, h.finish (t := t) (by rw [show es t = .asyncWith a from he]; rfl)⟩
    | @followFlatMap a v f t hd =>
      have ht : es t = .flatMap a f := he
      exact ⟨n, rfl, h.finish (t := t) (by simp [ht, FutureExpr.denote, hd])⟩
    | @followRecoverWith a x f t hn hd =>
      have ht : es t = .recoverWith a f := he
      exact ⟨n, rfl, h.finish (t := t) (by simp [ht, FutureExpr.denote, hn, hd])⟩

/-- Taking a task leaves its target to get another one. -/
theorem Sound.take {i : Nat} (h : Sound es [] n m) (hu : m.tasks[i]? = some u) :
    ∃ k, n = k + u.weight ∧ u.Fits es m.size ∧
      Sound es [u.target] k { m with tasks := m.tasks.eraseIdx i } := by
  obtain ⟨hi, rfl⟩ := List.getElem?_eq_some_iff.mp hu
  have hperm : (m.tasks[i] :: pending es { m with tasks := m.tasks.eraseIdx i }).Perm
      (pending es m) := (List.getElem_cons_eraseIdx_perm hi).append_right _
  refine ⟨_, ?_, h.fits _ (hperm.mem_iff.mp (by simp)), h.values, h.idle, fun v hv => ?_,
    fun x => ?_, rfl, h.thrown, h.fresh⟩
  · rw [← h.weight, ← (hperm.map _).sum_eq, List.map_cons, List.sum_cons, Nat.add_comm]
  · exact h.fits v (hperm.mem_iff.mp (List.mem_cons_of_mem _ hv))
  · have hown := h.owned x
    rw [← (hperm.map _).count_eq, List.map_cons] at hown
    exact (count_shift x _ _ _).symm.trans hown

/-- A step takes one from the work that is left. -/
theorem Sound.next {i : Nat} (h : Sound es [] n m) (hm : m.next i = some m') :
    ∃ k, n = k + 1 ∧ Advances es k m m' := by
  simp only [Machine.next, Option.map_eq_some_iff] at hm
  obtain ⟨u, hu, rfl⟩ := hm
  obtain ⟨k, rfl, hfits, htaken⟩ := h.take hu
  obtain ⟨k', hk, hadv⟩ := htaken.run hfits
  exact ⟨k', hk.symm, hadv⟩

/-- When no task is left, a future without a value waits for another one without a value. -/
theorem Sound.stuck (h : Sound es [] n m) (ht : m.tasks = []) (hx : x < m.size)
    (hv : (m.deffered x).value = none) :
    ∃ s c, s < m.size ∧ (m.deffered s).value = none ∧ Link (es s) c (es x) := by
  have hown := h.owned x
  rw [if_pos ⟨hx, hv⟩, List.count_nil] at hown
  have hpos : 0 < ((pending es m).map Task.target).count x := by omega
  obtain ⟨u, hu, rfl⟩ := List.mem_map.mp (List.count_pos_iff.mp hpos)
  have hfits := h.fits u hu
  rw [pending, ht, List.nil_append, List.mem_flatMap] at hu
  obtain ⟨s, hs, hu⟩ := hu
  obtain ⟨c, hc, rfl⟩ := List.mem_map.mp hu
  refine ⟨s, c, List.mem_range.mp hs, ?_, hfits.2.2⟩
  by_contra hval
  rw [h.idle s hval] at hc
  cases hc

theorem Link.of_flatMap {f : ν → FutureExpr ν} (h : Link e c (.flatMap a f)) :
    e = a ∨ ∃ v, e = f v := by
  cases h with
  | flatMap => exact Or.inl rfl
  | @followFlatMap _ v => exact Or.inr ⟨v, rfl⟩

theorem Link.of_recoverWith {f : Exception → FutureExpr ν} (h : Link e c (.recoverWith a f)) :
    e = a ∨ ∃ x, e = f x := by
  cases h with
  | recoverWith => exact Or.inl rfl
  | @followRecoverWith _ x => exact Or.inr ⟨x, rfl⟩

/-- When no task is left, every future has its value. -/
theorem Sound.complete (h : Sound es [] n m) (ht : m.tasks = []) (hx : x < m.size) :
    (m.deffered x).value = some (es x).denote := by
  -- by induction on the expression: what a future waits for is for a part of its expression
  have hsome : (m.deffered x).value ≠ none := by
    generalize he : es x = e
    induction e generalizing x with
    | successful | failure | throw | async =>
      intro hv
      obtain ⟨s, c, -, -, hl⟩ := h.stuck ht hx hv
      rw [he] at hl
      generalize es s = a at hl
      cases hl
    | asyncWith f ih =>
      intro hv
      obtain ⟨s, c, hs, hsv, hl⟩ := h.stuck ht hx hv
      rw [he] at hl
      generalize ha : es s = a at hl
      cases hl
      exact ih hs ha hsv
    | map a f ih | recover a f ih =>
      intro hv
      obtain ⟨s, c, hs, hsv, hl⟩ := h.stuck ht hx hv
      rw [he] at hl
      generalize ha : es s = a at hl
      cases hl
      exact ih hs ha hsv
    | flatMap a f ih ihf =>
      intro hv
      obtain ⟨s, c, hs, hsv, hl⟩ := h.stuck ht hx hv
      rw [he] at hl
      rcases hl.of_flatMap with ha | ⟨v, ha⟩
      · exact ih hs ha hsv
      · exact ihf v hs ha hsv
    | recoverWith a f ih ihf =>
      intro hv
      obtain ⟨s, c, hs, hsv, hl⟩ := h.stuck ht hx hv
      rw [he] at hl
      rcases hl.of_recoverWith with ha | ⟨y, ha⟩
      · exact ih hs ha hsv
      · exact ihf y hs ha hsv
  obtain ⟨r, hr⟩ := Option.ne_none_iff_exists'.mp hsome
  rw [hr, h.values x r hr]

theorem Sound.done (h : Sound es [] n m) (ht : m.tasks = []) : n = 0 := by
  have hnone : pending es m = [] := by
    rw [pending, ht, List.nil_append, List.flatMap_eq_nil_iff]
    intro s hs
    have hv := h.complete ht (List.mem_range.mp hs)
    simp [waiting, h.idle s (by simp [hv])]
  rw [← h.weight, hnone]
  rfl

/-- Whatever the order in which the contexts run what they are handed: no result is set twice,
the future of an expression has no other value than the expression denotes, the tasks come to
an end, and when none is left there were as many as the expression asks for and the value is
there. -/
theorem future_denotes (he : e.thrown = none) :
    ∃ s m₀, Machine.launch e {} = .ok (s, m₀) ∧ ∀ ls m, machine.Run m₀ ls m →
      m.thrown = [] ∧ (∀ r, (m.deffered s).value = some r → r = e.denote) ∧
      ls.length ≤ e.work ∧
      (m.tasks = [] → (m.deffered s).value = some e.denote ∧ ls.length = e.work) := by
  have hempty : Sound (fun _ => e) [] 0 ({} : Machine ν) :=
    ⟨by simp, by simp, by simp [pending], by simp [pending], by simp [pending], rfl, by simp⟩
  obtain ⟨s, m₀, es, hm, hsound, -, -, hmade, hmeans⟩ := hempty.launch he
  rw [Nat.zero_add] at hsound
  refine ⟨s, m₀, hm, fun ls m h => ?_⟩
  have hrun : ∃ n es, ls.length + n = e.work ∧ Sound es [] n m ∧ s < m.size ∧ es s = e := by
    refine h.carries (P := fun past m => ∃ n es, past.length + n = e.work ∧ Sound es [] n m ∧
      s < m.size ∧ es s = e) ⟨_, es, by simp, hsound, hmade, hmeans⟩ ?_
    rintro past m i m' ⟨n, es, hn, hsound, hlt, hes⟩ hstep
    obtain ⟨k, rfl, es', hsound', hext, hgrown⟩ := hsound.next hstep
    refine ⟨k, es', ?_, hsound', by omega, (hext s hlt).trans hes⟩
    rw [List.length_append, List.length_singleton]
    omega
  obtain ⟨n, es, hn, hsound, hlt, hes⟩ := hrun
  refine ⟨hsound.thrown, fun r hr => ?_, by omega, fun ht => ?_⟩
  · rw [← hes]
    exact hsound.values s r hr
  · have hdone := hsound.done ht
    rw [hsound.complete ht hlt, hes]
    exact ⟨rfl, by omega⟩

/-- A value that does not pass a filter is replaced, after six tasks. -/
def chained : FutureExpr Nat :=
  (((FutureExpr.async (.ok 1)).flatMap fun v => .async (.ok (v + 1))).filter
    fun v => .ok (decide (v < 2))).fallback 7

theorem future_denotes_chained : ∃ s m₀ m, Machine.launch chained {} = .ok (s, m₀) ∧
    machine.Run m₀ [0, 0, 0, 0, 0, 0] m ∧ (m.deffered s).value = some (.ok 7) := by
  obtain ⟨s, m₀, hm, hall⟩ := future_denotes (e := chained) rfl
  obtain ⟨m, hrun, ht⟩ : ∃ m, machine.Run m₀ [0, 0, 0, 0, 0, 0] m ∧ m.tasks = [] := by
    cases hm
    exact ⟨_, run_ofNext.mpr rfl, rfl⟩
  exact ⟨s, m₀, m, hm, hrun, ((hall _ m hrun).2.2.2 ht).1⟩

end LibCoreCmd.Async

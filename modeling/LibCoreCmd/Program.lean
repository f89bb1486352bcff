import Mathlib.Data.List.Forall2

/-! Programs that work on a state and may end with an exception. An exception undoes nothing:
the state stays as it was when it was thrown. -/

def Program (ε σ α : Type) : Type := σ → Except ε α × σ

namespace Program
variable {ε σ α β ω : Type} {x : Program ε σ α} {f : α → Program ε σ β} {obs : σ → ω}
  {s t : σ} {a : α} {e : ε}

instance : Monad (Program ε σ) where
  pure a s := (.ok a, s)
  bind x f s :=
    match x s with
    | (.ok a, t) => f a t
    | (.error e, t) => (.error e, t)

def ofExcept (r : Except ε α) : Program ε σ α := fun s => (r, s)

def throw (e : ε) : Program ε σ α := ofExcept (.error e)

def get : Program ε σ σ := fun s => (.ok s, s)

def modify (g : σ → σ) : Program ε σ Unit := fun s => (.ok (), g s)

@[simp] theorem run_pure : (pure a : Program ε σ α) s = (.ok a, s) := rfl

@[simp] theorem run_ofExcept {r : Except ε α} : (ofExcept r : Program ε σ α) s = (r, s) := rfl

@[simp] theorem run_throw : (throw e : Program ε σ α) s = (.error e, s) := rfl

@[simp] theorem run_get : (get : Program ε σ σ) s = (.ok s, s) := rfl

@[simp] theorem run_modify {g : σ → σ} : (modify g : Program ε σ Unit) s = (.ok (), g s) := rfl

theorem run_bind : (x >>= f) s =
    match x s with
    | (.ok a, t) => f a t
    | (.error e, t) => (.error e, t) := rfl

theorem bind_ok (h : x s = (.ok a, t)) : (x >>= f) s = f a t := by
  rw [run_bind, h]

theorem bind_error (h : x s = (.error e, t)) : (x >>= f) s = (.error e, t) := by
  rw [run_bind, h]

/-- The program leaves alone what `obs` shows of the state. -/
def Keeps (obs : σ → ω) (x : Program ε σ α) : Prop := ∀ s, obs (x s).2 = obs s

theorem Keeps.ofExcept {r : Except ε α} : Keeps obs (Program.ofExcept r : Program ε σ α) :=
  fun _ => rfl

theorem Keeps.pure : Keeps obs (Pure.pure a : Program ε σ α) := fun _ => rfl

theorem Keeps.modify {g : σ → σ} (h : ∀ s, obs (g s) = obs s) :
    Keeps obs (Program.modify g : Program ε σ Unit) := h

theorem Keeps.bind (hx : Keeps obs x) (hf : ∀ a, Keeps obs (f a)) : Keeps obs (x >>= f) := by
  intro s
  have hs := hx s
  rw [run_bind]
  generalize x s = r at hs
  obtain ⟨r, t⟩ := r
  cases r with
  | error e => exact hs
  | ok a => exact (hf a t).trans hs

theorem Keeps.ite {c : Prop} [Decidable c] {y : Program ε σ α} (hx : Keeps obs x)
    (hy : Keeps obs y) : Keeps obs (if c then x else y) := by
  split
  · exact hx
  · exact hy

/-- Only exceptions with the property `P` leave the program. -/
def Throws (P : ε → Prop) (x : Program ε σ α) : Prop := ∀ s e t, x s = (.error e, t) → P e

theorem Throws.pure {P : ε → Prop} : Throws P (Pure.pure a : Program ε σ α) := by
  intro s e t h
  cases h

theorem Throws.throw {P : ε → Prop} (h : P e) : Throws P (Program.throw e : Program ε σ α) := by
  intro s e t ht
  cases ht
  exact h

theorem Throws.bind {P : ε → Prop} (hx : Throws P x) (hf : ∀ a, Throws P (f a)) :
    Throws P (x >>= f) := by
  intro s e t h
  rw [run_bind] at h
  cases hr : x s with
  | mk r u =>
    rw [hr] at h
    cases r with
    | error e' =>
      cases h
      exact hx _ _ _ hr
    | ok a => exact hf a u e t h

/-- The program ends without an exception. -/
def Returns (x : Program ε σ α) (s : σ) : Prop := (x s).1.toOption.isSome

theorem returns_of_ok (h : x s = (.ok a, t)) : Returns x s := by
  rw [Returns, h]
  rfl

theorem not_returns_of_error (h : x s = (.error e, t)) : ¬ Returns x s := by
  simp [Returns, h, Except.toOption]

theorem returns_bind : Returns (x >>= f) s ↔ ∃ a t, x s = (.ok a, t) ∧ Returns (f a) t := by
  rw [Returns, run_bind]
  generalize x s = r
  obtain ⟨r, t⟩ := r
  cases r with
  | error e => simp [Except.toOption]
  | ok a =>
    constructor
    · exact fun h => ⟨a, t, rfl, h⟩
    · rintro ⟨_, _, h, hr⟩
      cases h
      exact hr

@[simp] theorem returns_pure : Returns (pure a : Program ε σ α) s := rfl

@[simp] theorem not_returns_throw : ¬ Returns (throw e : Program ε σ α) s := by
  simp [Returns, Except.toOption]

@[simp] theorem returns_modify {g : σ → σ} : Returns (modify g : Program ε σ Unit) s := rfl

theorem returns_ite {c : Prop} [Decidable c] {y : Program ε σ α} :
    Returns (if c then x else y) s ↔ if c then Returns x s else Returns y s := by
  split <;> rfl

theorem returns_pure_bind : Returns ((pure a : Program ε σ α) >>= f) s ↔ Returns (f a) s := Iff.rfl

theorem returns_ofExcept_bind {r : Except ε α} :
    Returns (ofExcept r >>= f) s ↔ ∃ a, r = .ok a ∧ Returns (f a) s := by
  rw [returns_bind]
  constructor
  · rintro ⟨a, t, h, hr⟩
    cases h
    exact ⟨a, rfl, hr⟩
  · rintro ⟨a, rfl, hr⟩
    exact ⟨a, s, rfl, hr⟩

/-- How a program gets to its result from that of its first part. -/
theorem result_ofExcept_bind {r : Except ε α} {b : β} :
    ((ofExcept r >>= f) s).1 = .ok b ↔ ∃ a, r = .ok a ∧ (f a s).1 = .ok b := by
  cases r with
  | error e => simp [run_bind]
  | ok a => simp [run_bind]

theorem bind_assoc {γ : Type} {g : β → Program ε σ γ} :
    x >>= f >>= g = x >>= fun a => f a >>= g := by
  funext s
  simp only [run_bind]
  cases x s with
  | mk r t => cases r <;> rfl

/-- Leaving a scope: `cleanUp` runs however `x` ends, and if it fails itself, its exception takes
the place of what `x` came to. -/
def leaving (x : Program ε σ α) (cleanUp : Program ε σ Unit) : Program ε σ α := fun s =>
  match x s with
  | (r, t) =>
    match cleanUp t with
    | (.ok (), u) => (r, u)
    | (.error e, u) => (.error e, u)

/-- The exceptions that `select` picks are handled. -/
def handling {δ : Type} (x : Program ε σ α) (select : ε → Option δ)
    (handler : δ → Program ε σ α) : Program ε σ α := fun s =>
  match x s with
  | (.ok a, t) => (.ok a, t)
  | (.error e, t) =>
    match select e with
    | some d => handler d t
    | none => (.error e, t)

/-- The program works on a part of the state, and its exceptions are renamed. -/
def onPart {δ τ : Type} (get : σ → τ) (set : τ → σ → σ) (rename : δ → ε) (x : Program δ τ α) :
    Program ε σ α := fun s =>
  match x (get s) with
  | (r, t) => (r.mapError rename, set t s)

section Scopes
variable {δ τ : Type} {cleanUp : Program ε σ Unit} {select : ε → Option δ}
  {handler : δ → Program ε σ α} {r : Except ε α} {u : σ} {d : δ}

theorem leaving_ok (hx : x s = (r, t)) (hc : cleanUp t = (.ok (), u)) :
    leaving x cleanUp s = (r, u) := by
  rw [leaving, hx]
  dsimp only
  rw [hc]

theorem leaving_error (hx : x s = (r, t)) (hc : cleanUp t = (.error e, u)) :
    leaving x cleanUp s = (.error e, u) := by
  rw [leaving, hx]
  dsimp only
  rw [hc]

theorem handling_ok (hx : x s = (.ok a, t)) : handling x select handler s = (.ok a, t) := by
  rw [handling, hx]

theorem handling_selected (hx : x s = (.error e, t)) (he : select e = some d) :
    handling x select handler s = handler d t := by
  rw [handling, hx]
  dsimp only
  rw [he]

theorem handling_passed (hx : x s = (.error e, t)) (he : select e = none) :
    handling x select handler s = (.error e, t) := by
  rw [handling, hx]
  dsimp only
  rw [he]

/-- What the part does not show stays as it was. -/
theorem Keeps.onPart {get : σ → τ} {set : τ → σ → σ} {rename : δ → ε} {x : Program δ τ α}
    (h : ∀ t s, obs (set t s) = obs s) : Keeps obs (Program.onPart get set rename x) :=
  fun s => h _ s

theorem Throws.onPart {P : ε → Prop} {get : σ → τ} {set : τ → σ → σ} {rename : δ → ε}
    {x : Program δ τ α} (h : ∀ d, P (rename d)) : Throws P (Program.onPart get set rename x) := by
  intro s e u hu
  cases hr : x (get s) with
  | mk r t =>
    rw [Program.onPart, hr] at hu
    cases r with
    | error d =>
      cases hu
      exact h d
    | ok a => cases hu

theorem returns_onPart {get : σ → τ} {set : τ → σ → σ} {rename : δ → ε} {x : Program δ τ α} :
    Returns (onPart get set rename x) s ↔ Returns x (get s) := by
  rw [Returns, Returns, onPart]
  cases x (get s) with
  | mk r t => cases r <;> rfl

end Scopes

section Excepts
variable {γ : Type} {g : α → Except ε γ} {as : List α} {cs : List γ}

theorem except_bind_eq_ok {r : Except ε α} {c : γ} :
    (r >>= g) = .ok c ↔ ∃ a, r = .ok a ∧ g a = .ok c := by
  cases r <;> simp [bind, Except.bind]

/-- Results of a list come one for each element. -/
theorem mapM_ok (h : as.mapM g = .ok cs) : List.Forall₂ (fun a c => g a = .ok c) as cs := by
  induction as generalizing cs with
  | nil =>
    cases h
    exact .nil
  | cons a as ih =>
    simp only [List.mapM_cons, except_bind_eq_ok] at h
    obtain ⟨c, hc, rest, hrest, h⟩ := h
    cases h
    exact .cons hc (ih hrest)

theorem mapM_error (h : as.mapM g = .error e) : ∃ a ∈ as, g a = .error e := by
  induction as with
  | nil => cases h
  | cons a as ih =>
    rw [List.mapM_cons] at h
    cases ha : g a with
    | error e' =>
      rw [ha] at h
      cases h
      exact ⟨a, List.mem_cons_self, ha⟩
    | ok c =>
      cases hs : as.mapM g with
      | error e' =>
        rw [ha, hs] at h
        cases h
        obtain ⟨a, hm, he⟩ := ih hs
        exact ⟨a, List.mem_cons_of_mem _ hm, he⟩
      | ok cs =>
        rw [ha, hs] at h
        cases h

/-- All elements together have results exactly when each has one. -/
theorem mapM_ok_iff : (∃ cs, as.mapM g = .ok cs) ↔ ∀ a ∈ as, ∃ c, g a = .ok c := by
  constructor
  · rintro ⟨cs, h⟩
    have hall := mapM_ok h
    clear h
    induction hall with
    | nil => simp
    | cons hc _ ih => exact List.forall_mem_cons.mpr ⟨⟨_, hc⟩, ih⟩
  · intro h
    induction as with
    | nil => exact ⟨[], rfl⟩
    | cons a as ih =>
      obtain ⟨c, hc⟩ := h a List.mem_cons_self
      obtain ⟨cs, hcs⟩ := ih fun a ha => h a (List.mem_cons_of_mem _ ha)
      exact ⟨c :: cs, by rw [List.mapM_cons, hc, hcs]; rfl⟩

end Excepts

end Program

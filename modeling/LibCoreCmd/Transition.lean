import Mathlib.Logic.Function.Basic
import Mathlib.Tactic.Common

/-! Labelled transition systems: finite runs, invariants that may speak of the
labels taken so far, and the interleaving of a family of systems. -/
namespace Transition

universe u v w

/-- A system is its step relation; labels say which step was taken. -/
structure System (σ : Type u) (α : Type v) where
  step : σ → α → σ → Prop

variable {σ : Type u} {α : Type v} {ι : Type w} {S : System σ α} {s t u : σ} {a : α}
  {as bs : List α}

/-- A finite run, written from its first label. -/
inductive System.Run (S : System σ α) : σ → List α → σ → Prop where
  | refl (s : σ) : S.Run s [] s
  | cons {s t u : σ} {a : α} {as : List α} : S.step s a t → S.Run t as u → S.Run s (a :: as) u

theorem System.Run.append (h : S.Run s as t) (h' : S.Run t bs u) : S.Run s (as ++ bs) u := by
  induction h with
  | refl => exact h'
  | cons hs _ ih => exact .cons hs (ih h')

theorem System.Run.snoc (h : S.Run s as t) (hs : S.step t a u) : S.Run s (as ++ [a]) u :=
  h.append (.cons hs (.refl u))

@[simp] theorem System.run_nil : S.Run s [] t ↔ t = s := by
  constructor
  · intro h
    cases h
    rfl
  · rintro rfl
    exact .refl _

theorem System.run_cons : S.Run s (a :: as) u ↔ ∃ t, S.step s a t ∧ S.Run t as u := by
  constructor
  · intro h
    cases h with
    | cons hs ht => exact ⟨_, hs, ht⟩
  · rintro ⟨t, hs, ht⟩
    exact .cons hs ht

/-- A property of the past and the state is carried by every run, if one step carries it. -/
theorem System.Run.carries {P : List α → σ → Prop} (h : S.Run s as t) (h0 : P [] s)
    (hs : ∀ past s a t, P past s → S.step s a t → P (past ++ [a]) t) : P as t := by
  have carried : ∀ past, P past s → P (past ++ as) t := by
    clear h0
    induction h with
    | refl => intro past hp; simpa using hp
    | @cons s t u a as hst _ ih =>
      intro past hp
      simpa using ih (past ++ [a]) (hs past s a t hp hst)
  simpa using carried [] h0

/-- The rule for plain state invariants. -/
theorem System.Run.invariant {P : σ → Prop} (h : S.Run s as t) (h0 : P s)
    (hs : ∀ s a t, P s → S.step s a t → P t) : P t :=
  h.carries (P := fun _ => P) h0 (fun _ => hs)

/-- The runs of `S` in which every step is taken where `P` allows it. -/
def System.restrict (S : System σ α) (P : σ → α → Prop) : System σ α where
  step s a t := P s a ∧ S.step s a t

theorem run_of_restrict {P : σ → α → Prop} (h : (S.restrict P).Run s as t) : S.Run s as t := by
  induction h with
  | refl => exact .refl _
  | cons hs _ ih => exact .cons hs.2 ih

/-- A run takes every step where `P` allows it, or took one it does not and has been
where that leads since. -/
theorem System.Run.restrict_or {P : σ → α → Prop} {I D : σ → Prop} (h : S.Run s as t) (h0 : I s)
    (keep : ∀ s a t, I s → S.step s a t → I t)
    (leave : ∀ s a t, I s → S.step s a t → ¬ P s a → D t)
    (stay : ∀ s a t, I s → D s → S.step s a t → D t) : (S.restrict P).Run s as t ∨ D t := by
  refine (h.carries (P := fun past u => I u ∧ ((S.restrict P).Run s past u ∨ D u))
    ⟨h0, Or.inl (.refl s)⟩ ?_).2
  rintro past u a v ⟨hi, hr⟩ hs
  refine ⟨keep u a v hi hs, ?_⟩
  rcases hr with hr | hd
  · by_cases hp : P u a
    · exact Or.inl (hr.snoc ⟨hp, hs⟩)
    · exact Or.inr (leave u a v hi hs hp)
  · exact Or.inr (stay u a v hi hd hs)

/-- A system whose label determines the next state, if there is one. -/
def System.ofNext (next : σ → α → Option σ) : System σ α where
  step s a t := next s a = some t

/-- Such a run can be computed. -/
theorem run_ofNext {next : σ → α → Option σ} :
    (System.ofNext next).Run s as t ↔ as.foldlM next s = some t := by
  induction as generalizing s with
  | nil => simp [eq_comm]
  | cons a as ih =>
    simp only [System.run_cons, System.ofNext, List.foldlM_cons, Option.bind_eq_bind,
      Option.bind_eq_some_iff]
    simp only [← ih, System.ofNext]

theorem run_restrict_ofNext {next : σ → α → Option σ} {P : σ → α → Prop}
    [∀ s a, Decidable (P s a)] : ((System.ofNext next).restrict P).Run s as t ↔
      as.foldlM (fun s a => if P s a then next s a else none) s = some t := by
  rw [← run_ofNext]
  have hsame : (System.ofNext next).restrict P =
      .ofNext fun s a => if P s a then next s a else none := by
    simp only [System.restrict, System.ofNext, System.mk.injEq]
    funext s a t
    by_cases hp : P s a <;> simp [hp]
  rw [hsame]

/-- The interleaving of a family: one member moves, the others stay. -/
def interleave (S : ι → System σ α) : System (ι → σ) (ι × α) where
  step f l g := (S l.1).step (f l.1) l.2 (g l.1) ∧ ∀ j, j ≠ l.1 → g j = f j

/-- What member `i` did in an interleaved run. -/
def ofMember [DecidableEq ι] (i : ι) (ls : List (ι × α)) : List α :=
  ls.filterMap fun l => if l.1 = i then some l.2 else none

theorem ofMember_cons [DecidableEq ι] (i : ι) (l : ι × α) (ls : List (ι × α)) :
    ofMember i (l :: ls) = if l.1 = i then l.2 :: ofMember i ls else ofMember i ls := by
  by_cases h : l.1 = i <;> simp [ofMember, h]

theorem mem_ofMember [DecidableEq ι] {i : ι} {ls : List (ι × α)} :
    a ∈ ofMember i ls ↔ (i, a) ∈ ls := by
  simp only [ofMember, List.mem_filterMap]
  constructor
  · rintro ⟨⟨j, b⟩, hm, hb⟩
    by_cases hj : j = i <;> simp_all
  · intro hm
    exact ⟨_, hm, by simp⟩

/-- Each member of an interleaved run sees a run of its own. -/
theorem run_ofMember [DecidableEq ι] {S : ι → System σ α} {f g : ι → σ} {ls : List (ι × α)}
    (h : (interleave S).Run f ls g) (i : ι) : (S i).Run (f i) (ofMember i ls) (g i) := by
  induction h with
  | refl => exact .refl _
  | @cons f g k l ls hs _ ih =>
    rw [ofMember_cons]
    by_cases hl : l.1 = i
    · subst hl
      rw [if_pos rfl]
      exact .cons hs.1 ih
    · rw [if_neg hl, ← hs.2 i (Ne.symm hl)]
      exact ih

/-- Every run of one member is an interleaved run in which the others do not move. -/
theorem run_of_member [DecidableEq ι] {S : ι → System σ α} {f : ι → σ} {i : ι}
    (h : (S i).Run (f i) as t) :
    (interleave S).Run f (as.map (Prod.mk i)) (Function.update f i t) := by
  generalize hs : f i = s at h
  induction h generalizing f with
  | refl s => simp [← hs]
  | @cons s t u a as hst _ ih =>
    subst hs
    have hrest := ih (f := Function.update f i t) (by simp)
    rw [Function.update_idem] at hrest
    refine .cons ⟨by simpa using hst, ?_⟩ hrest
    intro j hj
    simp [hj]

end Transition

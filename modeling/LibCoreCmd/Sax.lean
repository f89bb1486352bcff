import Mathlib.Tactic.Common

/-! JSON values, and the events a reader reports of a value's text, in document order. -/
namespace Sax

inductive Value where
  | null
  | bool (b : Bool)
  | number (n : Int)
  | string (s : String)
  | array (items : List Value)
  | object (members : List (String × Value))

/-- Numbers are reported by their text. -/
inductive Event where
  | null
  | bool (b : Bool)
  | rawNumber (text : String)
  | string (s : String)
  | startObject
  | key (k : String)
  | endObject (memberCount : Nat)
  | startArray
  | endArray (elementCount : Nat)
deriving DecidableEq, Repr

/-- An event that opens and closes nothing. -/
def Event.Flat : Event → Prop
  | .null | .bool _ | .rawNumber _ | .string _ | .key _ => True
  | _ => False

mutual

def Value.events : Value → List Event
  | .null => [.null]
  | .bool b => [.bool b]
  | .number n => [.rawNumber (toString n)]
  | .string s => [.string s]
  | .array items => .startArray :: (itemEvents items ++ [.endArray items.length])
  | .object members => .startObject :: (memberEvents members ++ [.endObject members.length])

def itemEvents : List Value → List Event
  | [] => []
  | v :: vs => v.events ++ itemEvents vs

def memberEvents : List (String × Value) → List Event
  | [] => []
  | (k, v) :: ms => .key k :: (v.events ++ memberEvents ms)

end

theorem memberEvents_append (ms ms' : List (String × Value)) :
    memberEvents (ms ++ ms') = memberEvents ms ++ memberEvents ms' := by
  induction ms with
  | nil => rfl
  | cons m ms ih => simp [memberEvents, ih]

mutual

/-- How deep the brackets of a value nest. -/
def Value.depth : Value → Nat
  | .array items => itemDepth items + 1
  | .object members => memberDepth members + 1
  | _ => 0

def itemDepth : List Value → Nat
  | [] => 0
  | v :: vs => max v.depth (itemDepth vs)

def memberDepth : List (String × Value) → Nat
  | [] => 0
  | (_, v) :: ms => max v.depth (memberDepth ms)

end

universe u v
variable {σ : Type u} {ω : Type v} {handle : σ → Event → σ} {obs : σ → ω} {Inside : Nat → ω → Prop}
  {s : σ} {n : Nat}

/-- What a handler has come to after some events. -/
def feed (handle : σ → Event → σ) (s : σ) (es : List Event) : σ := es.foldl handle s

@[simp] theorem feed_nil : feed handle s [] = s := rfl

@[simp] theorem feed_cons {e : Event} {es : List Event} :
    feed handle s (e :: es) = feed handle (handle s e) es := rfl

@[simp] theorem feed_append {es es' : List Event} :
    feed handle s (es ++ es') = feed handle (feed handle s es) es' := List.foldl_append

/-- Where there is room for `n` more brackets (`Inside n`), what shows of the handler is left
alone by flat events, and a closing bracket brings back what the opening one changed. -/
structure Passes (handle : σ → Event → σ) (obs : σ → ω) (Inside : Nat → ω → Prop) : Prop where
  flat : ∀ n s e, Inside n (obs s) → e.Flat → obs (handle s e) = obs s
  object : ∀ n s, Inside (n + 1) (obs s) → Inside n (obs (handle s .startObject)) ∧
    ∀ t k, obs t = obs (handle s .startObject) → obs (handle t (.endObject k)) = obs s
  array : ∀ n s, Inside (n + 1) (obs s) → Inside n (obs (handle s .startArray)) ∧
    ∀ t k, obs t = obs (handle s .startArray) → obs (handle t (.endArray k)) = obs s

mutual

/-- Such a handler passes over whole values. -/
theorem Passes.value (h : Passes handle obs Inside) (v : Value) (s : σ) (n : Nat)
    (hn : v.depth ≤ n) (hs : Inside n (obs s)) : obs (feed handle s v.events) = obs s := by
  match v with
  | .null | .bool _ | .number _ | .string _ =>
    simp only [Value.events, feed_cons, feed_nil]
    exact h.flat n s _ hs trivial
  | .array items =>
    obtain ⟨m, rfl⟩ : ∃ m, n = m + 1 :=
      Nat.exists_eq_add_one.mpr (Nat.lt_of_lt_of_le (Nat.succ_pos _) hn)
    obtain ⟨hin, hout⟩ := h.array m s hs
    simp only [Value.events, feed_cons, feed_append, feed_nil]
    exact hout _ _ (h.items items _ m (by simpa [Value.depth] using hn) hin)
  | .object members =>
    obtain ⟨m, rfl⟩ : ∃ m, n = m + 1 :=
      Nat.exists_eq_add_one.mpr (Nat.lt_of_lt_of_le (Nat.succ_pos _) hn)
    obtain ⟨hin, hout⟩ := h.object m s hs
    simp only [Value.events, feed_cons, feed_append, feed_nil]
    exact hout _ _ (h.members members _ m (by simpa [Value.depth] using hn) hin)

theorem Passes.items (h : Passes handle obs Inside) (vs : List Value) (s : σ) (n : Nat)
    (hn : itemDepth vs ≤ n) (hs : Inside n (obs s)) :
    obs (feed handle s (itemEvents vs)) = obs s := by
  match vs with
  | [] => rfl
  | v :: vs =>
    rw [itemDepth, Nat.max_le] at hn
    have hv := h.value v s n hn.1 hs
    rw [itemEvents, feed_append, h.items vs _ n hn.2 (hv ▸ hs), hv]

theorem Passes.members (h : Passes handle obs Inside) (ms : List (String × Value)) (s : σ)
    (n : Nat) (hn : memberDepth ms ≤ n) (hs : Inside n (obs s)) :
    obs (feed handle s (memberEvents ms)) = obs s := by
  match ms with
  | [] => rfl
  | (k, v) :: ms =>
    rw [memberDepth, Nat.max_le] at hn
    have hk := h.flat n s (.key k) hs trivial
    have hv := h.value v (handle s (.key k)) n hn.1 (hk ▸ hs)
    rw [memberEvents, feed_cons, feed_append,
      h.members ms _ n hn.2 (by rw [hv, hk]; exact hs), hv, hk]

end

universe w
variable {κ : Type w} {track : σ → κ} {step : κ → Event → κ}

/-- Besides, what is tracked of the handler changes with every event as `step` has it. -/
structure Follows (handle : σ → Event → σ) (obs : σ → ω) (Inside : Nat → ω → Prop)
    (track : σ → κ) (step : κ → Event → κ) : Prop extends Passes handle obs Inside where
  trackFlat : ∀ n s e, Inside n (obs s) → e.Flat → track (handle s e) = step (track s) e
  trackObject : ∀ n s, Inside (n + 1) (obs s) →
    track (handle s .startObject) = step (track s) .startObject ∧
    ∀ t k, obs t = obs (handle s .startObject) →
      track (handle t (.endObject k)) = step (track t) (.endObject k)
  trackArray : ∀ n s, Inside (n + 1) (obs s) →
    track (handle s .startArray) = step (track s) .startArray ∧
    ∀ t k, obs t = obs (handle s .startArray) →
      track (handle t (.endArray k)) = step (track t) (.endArray k)

mutual

/-- So it changes with whole values. -/
theorem Follows.value (h : Follows handle obs Inside track step) (v : Value) (s : σ) (n : Nat)
    (hn : v.depth ≤ n) (hs : Inside n (obs s)) :
    track (feed handle s v.events) = feed step (track s) v.events := by
  match v with
  | .null | .bool _ | .number _ | .string _ =>
    simp only [Value.events, feed_cons, feed_nil]
    exact h.trackFlat n s _ hs trivial
  | .array items =>
    obtain ⟨m, rfl⟩ : ∃ m, n = m + 1 :=
      Nat.exists_eq_add_one.mpr (Nat.lt_of_lt_of_le (Nat.succ_pos _) hn)
    have hdepth : itemDepth items ≤ m := by simpa [Value.depth] using hn
    have hin := (h.array m s hs).1
    obtain ⟨hopen, hclose⟩ := h.trackArray m s hs
    have hobs := h.toPasses.items items _ m hdepth hin
    simp only [Value.events, feed_cons, feed_append, feed_nil]
    rw [hclose _ _ hobs, h.items items _ m hdepth hin, hopen]
  | .object members =>
    obtain ⟨m, rfl⟩ : ∃ m, n = m + 1 :=
      Nat.exists_eq_add_one.mpr (Nat.lt_of_lt_of_le (Nat.succ_pos _) hn)
    have hdepth : memberDepth members ≤ m := by simpa [Value.depth] using hn
    have hin := (h.object m s hs).1
    obtain ⟨hopen, hclose⟩ := h.trackObject m s hs
    have hobs := h.toPasses.members members _ m hdepth hin
    simp only [Value.events, feed_cons, feed_append, feed_nil]
    rw [hclose _ _ hobs, h.members members _ m hdepth hin, hopen]

theorem Follows.items (h : Follows handle obs Inside track step) (vs : List Value) (s : σ)
    (n : Nat) (hn : itemDepth vs ≤ n) (hs : Inside n (obs s)) :
    track (feed handle s (itemEvents vs)) = feed step (track s) (itemEvents vs) := by
  match vs with
  | [] => rfl
  | v :: vs =>
    rw [itemDepth, Nat.max_le] at hn
    have hv := h.toPasses.value v s n hn.1 hs
    rw [itemEvents, feed_append, h.items vs _ n hn.2 (hv ▸ hs), h.value v s n hn.1 hs,
      feed_append]

theorem Follows.members (h : Follows handle obs Inside track step)
    (ms : List (String × Value)) (s : σ) (n : Nat) (hn : memberDepth ms ≤ n)
    (hs : Inside n (obs s)) :
    track (feed handle s (memberEvents ms)) = feed step (track s) (memberEvents ms) := by
  match ms with
  | [] => rfl
  | (k, v) :: ms =>
    rw [memberDepth, Nat.max_le] at hn
    have hk := h.flat n s (.key k) hs trivial
    have hv := h.toPasses.value v (handle s (.key k)) n hn.1 (hk ▸ hs)
    have hkey := h.trackFlat n s (.key k) hs trivial
    simp only [memberEvents, feed_cons, feed_append]
    rw [h.members ms _ n hn.2 (by rw [hv, hk]; exact hs), h.value v _ n hn.1 (hk ▸ hs), hkey]

end

end Sax

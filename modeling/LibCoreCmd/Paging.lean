import Mathlib.Data.List.Basic
import Mathlib.Tactic.Common

/-! Reading a list of blocks page by page. A page covers whole blocks, as few as hold
`limit` elements, and the next page starts again with the last block of the one before. -/
namespace Paging

universe u
variable {β : Type u} {limit n i j seen : Nat} {bs : List (List β)} {M : List β}
  {pages : List (List β)} {x : β}

/-- The number of leading blocks a page covers. -/
def cut (limit : Nat) : List (List β) → Nat
  | [] => 0
  | b :: bs => if limit ≤ b.length then 1 else cut (limit - b.length) bs + 1

/-- The elements of a page, and whether there are any after it. -/
def page (limit : Nat) (bs : List (List β)) : List β × Bool :=
  ((bs.take (cut limit bs)).flatten, !(bs.drop (cut limit bs)).flatten.isEmpty)

/-- The pages read from block `i` on, if the last of them comes within `fuel` requests. -/
def collect (limit : Nat) (bs : List (List β)) : Nat → Nat → Option (List (List β))
  | 0, _ => none
  | fuel + 1, i =>
    let p := page limit (bs.drop i)
    if p.2 then
      (collect limit bs fuel (i + cut limit (bs.drop i) - 1)).map (p.1 :: ·)
    else some [p.1]

/-- The number of elements in the first `k` blocks. -/
def pos (bs : List (List β)) (k : Nat) : Nat := (bs.take k).flatten.length

@[simp] theorem pos_zero : pos bs 0 = 0 := by simp [pos]

theorem take_pos (k : Nat) : bs.flatten.take (pos bs k) = (bs.take k).flatten := by
  have h : bs.flatten = (bs.take k).flatten ++ (bs.drop k).flatten := by
    rw [← List.flatten_append, List.take_append_drop]
  rw [h, pos, List.take_left]

theorem drop_pos (k : Nat) : bs.flatten.drop (pos bs k) = (bs.drop k).flatten := by
  have h : bs.flatten = (bs.take k).flatten ++ (bs.drop k).flatten := by
    rw [← List.flatten_append, List.take_append_drop]
  rw [h, pos, List.drop_left]

theorem pos_drop (bs : List (List β)) (i k : Nat) :
    pos bs (i + k) = pos bs i + pos (bs.drop i) k := by
  simp only [pos, List.take_add, List.flatten_append, List.length_append]

theorem pos_mono (hij : i ≤ j) : pos bs i ≤ pos bs j := by
  rw [← Nat.add_sub_cancel' hij, pos_drop]
  exact Nat.le_add_right _ _

theorem pos_succ (hi : i < bs.length) : pos bs (i + 1) = pos bs i + bs[i].length := by
  rw [pos_drop, List.drop_eq_getElem_cons hi]
  simp only [pos, List.take_succ_cons, List.take_zero, List.flatten_cons, List.flatten_nil,
    List.append_nil]

theorem pos_le_length (k : Nat) : pos bs k ≤ bs.flatten.length := by
  rw [pos, ← take_pos]
  exact List.length_take_le' _ _

theorem pos_lt_length (h : (bs.drop i).flatten ≠ []) : pos bs i < bs.flatten.length := by
  rw [← drop_pos] at h
  by_contra hge
  exact h (List.drop_eq_nil_of_le (Nat.le_of_not_lt hge))

theorem flatten_drop_eq_nil (hij : i ≤ j) (h : (bs.drop i).flatten = []) :
    (bs.drop j).flatten = [] := by
  rw [List.flatten_eq_nil_iff] at h ⊢
  exact fun b hb => h b ((List.drop_sublist_drop_left bs hij).subset hb)

theorem cut_pos (h : bs ≠ []) : 0 < cut limit bs := by
  cases bs with
  | nil => exact (h rfl).elim
  | cons b bs =>
    simp only [cut]
    split <;> omega

/-- Fewer blocks would not hold `limit` elements. -/
theorem pos_lt_limit (hl : 0 < limit) (hn : n < cut limit bs) : pos bs n < limit := by
  induction bs generalizing limit n with
  | nil => simp [cut] at hn
  | cons b bs ih =>
    cases n with
    | zero => simpa using hl
    | succ n =>
      simp only [cut] at hn
      split at hn
      · omega
      · have : pos bs n < limit - b.length := ih (by omega) (by omega)
        simp only [pos, List.take_succ_cons, List.flatten_cons, List.length_append] at this ⊢
        omega

/-- A page that does not reach the end holds `limit` elements. -/
theorem limit_le_pos (h : cut limit bs < bs.length) : limit ≤ pos bs (cut limit bs) := by
  induction bs generalizing limit with
  | nil => simp at h
  | cons b bs ih =>
    simp only [cut] at h ⊢
    split
    · simpa [pos] using ‹limit ≤ b.length›
    · rename_i hb
      rw [if_neg hb] at h
      have : limit - b.length ≤ pos bs (cut (limit - b.length) bs) := ih (by simpa using h)
      simp only [pos, List.take_succ_cons, List.flatten_cons, List.length_append] at this ⊢
      omega

/-- One block that holds `limit` elements ends a page. -/
theorem cut_le_of_full (hl : 0 < limit) (hj : j < bs.length) (hb : limit ≤ bs[j].length) :
    cut limit bs ≤ j + 1 := by
  by_contra hn
  have h : pos bs (j + 1) < limit := pos_lt_limit hl (by omega)
  rw [pos_succ hj] at h
  omega

theorem page_truncated : (page limit bs).2 = true ↔ (bs.drop (cut limit bs)).flatten ≠ [] := by
  simp [page]

theorem cut_lt_of_truncated (h : (page limit bs).2 = true) : cut limit bs < bs.length := by
  by_contra hge
  rw [page_truncated, List.drop_eq_nil_of_le (by omega)] at h
  exact h rfl

/-- The last block of a truncated page has elements. -/
theorem pos_cut_pred (hl : 0 < limit) (h : (page limit bs).2 = true) :
    pos bs (cut limit bs - 1) < pos bs (cut limit bs) := by
  have hlt := cut_lt_of_truncated h
  have hpos : 0 < cut limit bs := cut_pos (by rintro rfl; simp at hlt)
  have hless : pos bs (cut limit bs - 1) < limit := pos_lt_limit hl (by omega)
  have hmore := limit_le_pos hlt
  omega

/-- A truncated page ends with an element of its last block. -/
theorem page_getLast (hl : 0 < limit) (h : (page limit bs).2 = true) :
    ∃ (k : Nat) (hk : k < bs.length) (x : β), cut limit bs = k + 1 ∧
      (page limit bs).1.getLast? = some x ∧ x ∈ bs[k] := by
  have hlt := cut_lt_of_truncated h
  have hgrow := pos_cut_pred hl h
  obtain ⟨k, hcut⟩ : ∃ k, cut limit bs = k + 1 :=
    Nat.exists_eq_add_one.mpr (cut_pos (by rintro rfl; simp at hlt))
  have hk : k < bs.length := by omega
  rw [hcut, Nat.add_sub_cancel, pos_succ hk] at hgrow
  have hne : bs[k] ≠ [] := by
    intro he
    rw [he, List.length_nil] at hgrow
    omega
  refine ⟨k, hk, bs[k].getLast hne, hcut, ?_, List.getLast_mem hne⟩
  change (bs.take (cut limit bs)).flatten.getLast? = _
  rw [hcut, List.take_succ_eq_append_getElem hk, List.flatten_append, List.flatten_singleton,
    List.getLast?_append_of_ne_nil _ hne, List.getLast?_eq_some_getLast hne]

/-- A page that is not truncated holds all there is. -/
theorem page_eq_of_not_truncated (h : (page limit bs).2 = false) :
    (page limit bs).1 = bs.flatten := by
  have hd : (bs.drop (cut limit bs)).flatten = [] := by simpa [page] using h
  have hs : bs.flatten = (bs.take (cut limit bs)).flatten ++ (bs.drop (cut limit bs)).flatten := by
    rw [← List.flatten_append, List.take_append_drop]
  rw [hs, hd, List.append_nil]
  rfl

/-- A page of whole blocks, which says of itself whether it leaves anything out. One that does
is no longer than it has to be: without its last block it would not hold `limit` elements. -/
structure Aligned (limit : Nat) (bs : List (List β)) (p : List β × Bool) : Prop where
  whole : ∃ k, p.1 = (bs.take k).flatten
  reported : p.2 = true ↔ p.1 <+: bs.flatten ∧ p.1 ≠ bs.flatten
  minimal : p.2 = true → limit ≤ p.1.length ∧ ∃ (k : Nat) (hk : k < bs.length),
    p.1 = (bs.take k).flatten ++ bs[k] ∧ bs[k] ≠ [] ∧ (bs.take k).flatten.length < limit

theorem page_front : (page limit bs).1 <+: bs.flatten := by
  refine ⟨(bs.drop (cut limit bs)).flatten, ?_⟩
  change (bs.take (cut limit bs)).flatten ++ _ = _
  rw [← List.flatten_append, List.take_append_drop]

theorem page_ne_of_truncated (h : (page limit bs).2 = true) : (page limit bs).1 ≠ bs.flatten := by
  intro he
  have hlt := pos_lt_length (page_truncated.mp h)
  have hlen : pos bs (cut limit bs) = bs.flatten.length := congrArg List.length he
  omega

theorem page_aligned (hl : 0 < limit) (bs : List (List β)) : Aligned limit bs (page limit bs) := by
  refine ⟨⟨cut limit bs, rfl⟩, ⟨fun h => ⟨page_front, page_ne_of_truncated h⟩, ?_⟩, fun h => ?_⟩
  · rintro ⟨-, hne⟩
    by_contra h
    exact hne (page_eq_of_not_truncated (by simpa using h))
  · refine ⟨limit_le_pos (cut_lt_of_truncated h), ?_⟩
    obtain ⟨k, hk, x, hcut, -, hx⟩ := page_getLast hl h
    refine ⟨k, hk, ?_, List.ne_nil_of_mem hx, pos_lt_limit hl (by omega)⟩
    change (bs.take (cut limit bs)).flatten = _
    rw [hcut, List.take_succ_eq_append_getElem hk, List.flatten_append, List.flatten_singleton]

/-- A page has something on it when there is something. -/
theorem page_eq_nil_iff (hl : 0 < limit) : (page limit bs).1 = [] ↔ bs.flatten = [] := by
  constructor
  · intro h
    cases ht : (page limit bs).2 with
    | true =>
      have hfull := ((page_aligned hl bs).minimal ht).1
      rw [h, List.length_nil] at hfull
      omega
    | false => rw [← page_eq_of_not_truncated ht, h]
  · intro h
    exact List.prefix_nil.mp (h ▸ page_front)

theorem page_head (hl : 0 < limit) : (page limit bs).1.head? = bs.flatten.head? := by
  cases hp : (page limit bs).1 with
  | nil => rw [(page_eq_nil_iff hl).mp hp]
  | cons x xs =>
    obtain ⟨rest, hr⟩ : (page limit bs).1 <+: bs.flatten := page_front
    rw [← hr, hp]
    rfl

/-- Empty blocks in front make no difference. -/
theorem page_append_empty (hl : 0 < limit) {empty : List (List β)} (h : empty.flatten = []) :
    page limit (empty ++ bs) = page limit bs := by
  induction empty with
  | nil => rfl
  | cons b empty ih =>
    rw [List.flatten_cons, List.append_eq_nil_iff] at h
    rw [← ih h.2, h.1]
    simp [page, cut, Nat.not_le_of_lt hl]

/-- Fewer than `limit` elements fit on one page. -/
theorem page_of_small (h : bs.flatten.length < limit) : page limit bs = (bs.flatten, false) := by
  cases ht : (page limit bs).2 with
  | true =>
    have hfull := limit_le_pos (cut_lt_of_truncated ht)
    have hpos : pos bs (cut limit bs) ≤ bs.flatten.length := pos_le_length _
    omega
  | false => rw [← page_eq_of_not_truncated ht, ← ht]

/-- Pages that go on from the first `seen` elements: each starts at or before what is
known and adds to it, and the last ends with the last element. -/
inductive Continues (M : List β) : Nat → List (List β) → Prop where
  | last {seen a} : a ≤ seen → seen < M.length → Continues M seen [M.drop a]
  | more {seen a e pages} : a ≤ seen → seen < e → e ≤ M.length → Continues M e pages →
      Continues M seen ((M.take e).drop a :: pages)

/-- Pages that leave nothing out and, after the first, each hold something new. -/
inductive Covers (M : List β) : List (List β) → Prop where
  | single : Covers M [M]
  | more {e pages} : e ≤ M.length → Continues M e pages → Covers M (M.take e :: pages)

theorem mem_drop_split {e : Nat} (he : seen ≤ e) (hx : x ∈ M.drop seen) :
    x ∈ (M.take e).drop seen ∨ x ∈ M.drop e := by
  rw [← List.take_append_drop (e - seen) (M.drop seen), List.mem_append, ← List.drop_take,
    List.drop_drop, Nat.add_sub_cancel' he] at hx
  exact hx

theorem Continues.complete (h : Continues M seen pages) :
    ∀ x ∈ M.drop seen, ∃ p ∈ pages, x ∈ p := by
  induction h with
  | last ha _ =>
    intro x hx
    exact ⟨_, List.mem_singleton.mpr rfl, (List.drop_sublist_drop_left M ha).subset hx⟩
  | more ha he _ _ ih =>
    intro x hx
    rcases mem_drop_split (Nat.le_of_lt he) hx with hx | hx
    · exact ⟨_, List.mem_cons_self, (List.drop_sublist_drop_left _ ha).subset hx⟩
    · obtain ⟨p, hp, hx⟩ := ih x hx
      exact ⟨p, List.mem_cons_of_mem _ hp, hx⟩

theorem Continues.sound (h : Continues M seen pages) : ∀ p ∈ pages, ∀ x ∈ p, x ∈ M := by
  induction h with
  | last _ _ =>
    intro p hp x hx
    rw [List.mem_singleton.mp hp] at hx
    exact List.mem_of_mem_drop hx
  | more _ _ _ _ ih =>
    intro p hp x hx
    rcases List.mem_cons.mp hp with rfl | hp
    · exact List.mem_of_mem_take (List.mem_of_mem_drop hx)
    · exact ih p hp x hx

/-- Together the pages hold exactly the elements there are. -/
theorem Covers.mem_iff (h : Covers M pages) : (∃ p ∈ pages, x ∈ p) ↔ x ∈ M := by
  cases h with
  | single => simp
  | @more e rest _ hc =>
    constructor
    · rintro ⟨p, hp, hx⟩
      rcases List.mem_cons.mp hp with rfl | hp
      · exact List.mem_of_mem_take hx
      · exact hc.sound p hp x hx
    · intro hx
      rcases mem_drop_split (Nat.zero_le e) (by simpa using hx) with hx | hx
      · exact ⟨_, List.mem_cons_self, by simpa using hx⟩
      · obtain ⟨p, hp, hx⟩ := hc.complete x hx
        exact ⟨p, List.mem_cons_of_mem _ hp, hx⟩

/-- No block that fills a page on its own is followed by further elements. -/
def Passable (limit : Nat) (bs : List (List β)) : Prop :=
  ∀ j (hj : j < bs.length), limit ≤ bs[j].length → (bs.drop (j + 1)).flatten = []

instance [DecidableEq β] : Decidable (Passable limit bs) :=
  inferInstanceAs (Decidable (∀ j (hj : j < bs.length), limit ≤ bs[j].length →
    (bs.drop (j + 1)).flatten = []))

/-- The elements of a page are a stretch of all the elements. -/
theorem page_eq (limit : Nat) (bs : List (List β)) (i : Nat) : (page limit (bs.drop i)).1 =
    (bs.flatten.take (pos bs (i + cut limit (bs.drop i)))).drop (pos bs i) := by
  rw [pos_drop, List.drop_take, Nat.add_sub_cancel_left, drop_pos, take_pos]
  rfl

theorem collect_truncated {fuel : Nat} (h : (page limit (bs.drop i)).2 = true) :
    collect limit bs (fuel + 1) i =
      (collect limit bs fuel (i + cut limit (bs.drop i) - 1)).map
        ((page limit (bs.drop i)).1 :: ·) := by
  rw [collect, if_pos h]

theorem collect_not_truncated {fuel : Nat} (h : (page limit (bs.drop i)).2 = false) :
    collect limit bs (fuel + 1) i = some [(bs.drop i).flatten] := by
  rw [collect, if_neg (by simp [h]), page_eq_of_not_truncated h]

/-- A block that fills a page and is followed by further elements is never passed. -/
theorem collect_stuck (hl : 0 < limit) (hj : j < bs.length) (hb : limit ≤ bs[j].length)
    (hd : (bs.drop (j + 1)).flatten ≠ []) (hi : i ≤ j) (fuel : Nat) :
    collect limit bs fuel i = none := by
  induction fuel generalizing i with
  | zero => rfl
  | succ fuel ih =>
    have hcut : cut limit (bs.drop i) ≤ j - i + 1 := by
      apply cut_le_of_full hl (by simp; omega)
      simpa [Nat.add_sub_cancel' hi] using hb
    have htr : (page limit (bs.drop i)).2 = true := by
      rw [page_truncated, List.drop_drop]
      exact fun he => hd (flatten_drop_eq_nil (by omega) he)
    rw [collect_truncated htr, ih (by omega)]
    rfl

/-- A block that does not fill the page lets it go beyond. -/
theorem one_lt_cut (hi : i < bs.length) (hsmall : bs[i].length < limit)
    (hne : bs.drop (i + 1) ≠ []) : 1 < cut limit (bs.drop i) := by
  rw [List.drop_eq_getElem_cons hi, cut, if_neg (by omega)]
  have : 0 < cut (limit - bs[i].length) (bs.drop (i + 1)) := cut_pos hne
  omega

/-- A truncated page that goes beyond its first block has something new. -/
theorem pos_succ_lt_of_truncated (hl : 0 < limit) (hcut : 1 < cut limit (bs.drop i))
    (htr : (page limit (bs.drop i)).2 = true) :
    pos bs (i + 1) < pos bs (i + cut limit (bs.drop i)) := by
  have hgrow := pos_cut_pred hl htr
  have hpred : pos bs (i + 1) ≤ pos bs (i + (cut limit (bs.drop i) - 1)) := pos_mono (by omega)
  have hbefore := pos_drop bs i (cut limit (bs.drop i) - 1)
  have hafter := pos_drop bs i (cut limit (bs.drop i))
  omega

/-- After a truncated page that ended with block `i`, the pages from block `i` on add to
what is known until nothing is left. -/
theorem collect_continues (hl : 0 < limit) (hp : Passable limit bs) {fuel : Nat}
    (hf : bs.length < fuel + i) (hd : (bs.drop (i + 1)).flatten ≠ []) :
    ∃ pages, collect limit bs fuel i = some pages ∧
      Continues bs.flatten (pos bs (i + 1)) pages := by
  induction fuel generalizing i with
  | zero =>
    rw [List.drop_eq_nil_of_le (by omega)] at hd
    exact (hd rfl).elim
  | succ fuel ih =>
    have hi : i < bs.length := by
      by_contra hi
      rw [List.drop_eq_nil_of_le (by omega)] at hd
      exact hd rfl
    have hsmall : bs[i].length < limit := by
      by_contra hb
      exact hd (hp i hi (by omega))
    have hknown : pos bs i ≤ pos bs (i + 1) := pos_mono (by omega)
    have hne : bs.drop (i + 1) ≠ [] := by
      intro he
      rw [he] at hd
      exact hd rfl
    have hcut := one_lt_cut hi hsmall hne
    have hpage := page_eq limit bs i
    cases htr : (page limit (bs.drop i)).2 with
    | true =>
      have hnext : i + cut limit (bs.drop i) - 1 + 1 = i + cut limit (bs.drop i) := by omega
      have hrest : (bs.drop (i + cut limit (bs.drop i) - 1 + 1)).flatten ≠ [] := by
        rw [hnext, ← List.drop_drop]
        exact page_truncated.mp htr
      obtain ⟨pages, hpages, hcont⟩ := ih (by omega) hrest
      rw [hnext] at hcont
      refine ⟨_, by rw [collect_truncated htr, hpages]; rfl, ?_⟩
      rw [hpage]
      exact .more hknown (pos_succ_lt_of_truncated hl hcut htr) (pos_le_length _) hcont
    | false =>
      refine ⟨_, collect_not_truncated htr, ?_⟩
      rw [← drop_pos]
      exact .last hknown (pos_lt_length hd)

/-- Reading page by page comes to an end with nothing left out exactly when no block that
fills a page on its own is followed by further elements. -/
theorem collect_covers_iff (hl : 0 < limit) :
    (∃ fuel pages, collect limit bs fuel 0 = some pages ∧ Covers bs.flatten pages) ↔
      Passable limit bs := by
  constructor
  · rintro ⟨fuel, pages, hc, -⟩ j hj hb
    by_contra hd
    rw [collect_stuck hl hj hb hd (Nat.zero_le j)] at hc
    cases hc
  · intro hp
    cases htr : (page limit bs).2 with
    | true =>
      have hlt := cut_lt_of_truncated htr
      have hpos : 0 < cut limit bs := cut_pos (by rintro rfl; simp at hlt)
      have hnext : cut limit bs - 1 + 1 = cut limit bs := by omega
      obtain ⟨pages, hpages, hcont⟩ : ∃ pages,
          collect limit bs (bs.length + 1) (cut limit bs - 1) = some pages ∧
            Continues bs.flatten (pos bs (cut limit bs - 1 + 1)) pages :=
        collect_continues hl hp (by omega) (by rw [hnext]; exact page_truncated.mp htr)
      rw [hnext] at hcont
      have hfirst : (page limit bs).1 = bs.flatten.take (pos bs (cut limit bs)) := by
        rw [take_pos]
        rfl
      refine ⟨bs.length + 1 + 1, bs.flatten.take (pos bs (cut limit bs)) :: pages, ?_,
        .more (pos_le_length _) hcont⟩
      rw [collect_truncated (by simpa using htr), List.drop_zero, Nat.zero_add, hpages, hfirst]
      rfl
    | false =>
      refine ⟨1, [bs.flatten], ?_, .single⟩
      rw [collect_not_truncated (by simpa using htr), List.drop_zero]

/-- Reading from block `i` on is reading the blocks from there on. -/
theorem collect_drop {fuel : Nat} :
    collect limit bs fuel (i + j) = collect limit (bs.drop i) fuel j := by
  induction fuel generalizing j with
  | zero => rfl
  | succ fuel ih =>
    have hsame : (bs.drop i).drop j = bs.drop (i + j) := by rw [List.drop_drop]
    cases ht : (page limit (bs.drop (i + j))).2 with
    | true =>
      have hpos : 0 < cut limit (bs.drop (i + j)) := by
        refine cut_pos fun he => ?_
        rw [he] at ht
        cases ht
      rw [collect_truncated ht, collect_truncated (by rw [hsame]; exact ht), hsame, ← ih,
        show i + j + cut limit (bs.drop (i + j)) - 1 =
          i + (j + cut limit (bs.drop (i + j)) - 1) by omega]
    | false => rw [collect_not_truncated ht, collect_not_truncated (by rw [hsame]; exact ht), hsame]

theorem Passable.drop (h : Passable limit bs) : Passable limit (bs.drop i) := by
  intro j hj hb
  rw [List.getElem_drop] at hb
  rw [List.length_drop] at hj
  have hd := h (i + j) (by omega) hb
  rwa [Nat.add_assoc, ← List.drop_drop] at hd

/-- From any block on the pages hold exactly the elements there are from there on. -/
theorem collect_from (hl : 0 < limit) (hp : Passable limit bs) (i : Nat) :
    ∃ fuel pages, collect limit bs fuel i = some pages ∧
      ∀ x, (∃ p ∈ pages, x ∈ p) ↔ x ∈ (bs.drop i).flatten := by
  obtain ⟨fuel, pages, hc, hcovers⟩ := (collect_covers_iff hl).mpr (hp.drop (i := i))
  exact ⟨fuel, pages, collect_drop.trans hc, fun x => hcovers.mem_iff⟩

/-- The last element is in the last block that is not empty. -/
theorem last_block (h : bs.flatten ≠ []) : ∃ (k : Nat) (hk : k < bs.length),
    bs.flatten.getLast? = bs[k].getLast? ∧ bs[k] ≠ [] ∧ (bs.drop (k + 1)).flatten = [] := by
  induction bs with
  | nil => exact (h rfl).elim
  | cons b bs ih =>
    by_cases hrest : bs.flatten = []
    · rw [List.flatten_cons, hrest, List.append_nil] at h
      exact ⟨0, by simp, by simp [hrest], h, hrest⟩
    · obtain ⟨k, hk, hlast, hne, hdrop⟩ := ih hrest
      refine ⟨k + 1, by simpa using hk, ?_, hne, hdrop⟩
      rw [List.flatten_cons, List.getLast?_append_of_ne_nil _ hrest, hlast]
      rfl

/-- One block with elements is not split. -/
theorem page_of_last (h : (bs.drop 1).flatten = []) : page limit bs = (bs.flatten, false) := by
  cases ht : (page limit bs).2 with
  | true =>
    have hpos : 0 < cut limit bs := cut_pos (by rintro rfl; simp [page] at ht)
    exact (page_truncated.mp ht (flatten_drop_eq_nil hpos h)).elim
  | false => rw [← page_eq_of_not_truncated ht, ← ht]

end Paging

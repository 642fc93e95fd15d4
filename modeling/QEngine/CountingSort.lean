import Mathlib.Data.List.Basic
import Mathlib.Data.List.Perm.Basic
import Mathlib.Data.List.Range
import Mathlib.Logic.Function.Basic
import Mathlib.Algebra.Order.Group.Nat

/-!
# Counting sort

Three passes over an array of counters: count the keys, turn the counts into the first
position of each key, and place every item at the next position of its key.
-/

namespace QEngine.CountingSort
open List Function

section
variable {α : Type} (key : α → ℕ)

def tally (xs : List α) : ℕ → ℕ := xs.foldl (fun c x => update c (key x) (c (key x)+1)) fun _ => 0

def starts (n : ℕ) (c : ℕ → ℕ) : ℕ → ℕ :=
  ((List.range n).foldl (fun p i => (update p.1 i p.2, p.2+p.1 i)) (c, 0)).1

def place (p : (ℕ → ℕ) × (ℕ → Option α)) (x : α) : (ℕ → ℕ) × (ℕ → Option α) :=
  (update p.1 (key x) (p.1 (key x)+1), update p.2 (p.1 (key x)) (some x))

def countingSort (n : ℕ) (xs : List α) : List α :=
  (List.range xs.length).filterMap (xs.foldl (place key) (starts n (tally key xs), fun _ => none)).2

def grouped (n : ℕ) (xs : List α) : List α := (List.range n).flatMap fun k => xs.filter fun x => key x = k

structure Placed (n : ℕ) (xs done : List α) (p : (ℕ → ℕ) × (ℕ → Option α)) : Prop where
  next : ∀ k, k < n → p.1 k = (grouped key k xs).length+(done.filter fun x => key x = k).length
  cell : ∀ k i, k < n → i < (xs.filter fun x => key x = k).length →
    p.2 ((grouped key k xs).length+i) = (done.filter fun x => key x = k)[i]?

variable {key}

variable (xs : List α)

theorem tally_add (c : ℕ → ℕ) (k : ℕ) :
    xs.foldl (fun c x => update c (key x) (c (key x)+1)) c k = c k+(xs.filter fun x => key x = k).length := by
  induction xs generalizing c with
  | nil => simp
  | cons x xs ih =>
    rw [foldl_cons, ih]
    by_cases hk : key x = k
    · subst hk
      simp
      omega
    · simp [hk, update_of_ne (Ne.symm hk)]

theorem tally_eq (k : ℕ) : tally key xs k = (xs.filter fun x => key x = k).length := by
  rw [tally, tally_add]
  simp

theorem grouped_succ (n : ℕ) (xs : List α) : grouped key (n+1) xs = grouped key n xs++xs.filter fun x =>
    key x = n := by
  rw [grouped, range_succ, flatMap_append, flatMap_singleton]
  rfl

theorem starts_pass (n : ℕ) :
    let p := (List.range n).foldl (fun (p : (ℕ → ℕ) × ℕ) i => (update p.1 i p.2, p.2+p.1 i)) (tally key xs, 0)
    p.2 = (grouped key n xs).length ∧ (∀ k, k < n → p.1 k = (grouped key k xs).length) ∧
      ∀ k, n ≤ k → p.1 k = tally key xs k := by
  induction n with
  | zero => simp [grouped]
  | succ n ih =>
    obtain ⟨hsum, hdone, hrest⟩ := ih
    rw [range_succ, foldl_append, foldl_cons, foldl_nil]
    generalize (List.range n).foldl (fun (p : (ℕ → ℕ) × ℕ) i => (update p.1 i p.2, p.2+p.1 i))
      (tally key xs, 0) = p at hsum hdone hrest
    dsimp only
    refine ⟨?_, ?_, ?_⟩
    · rw [hsum, hrest n le_rfl, tally_eq, grouped_succ, length_append]
    · intro k hk
      rcases Nat.lt_succ_iff_lt_or_eq.mp hk with hk | rfl
      · rw [update_of_ne (by omega), hdone k hk]
      · rw [update_self, hsum]
    · intro k hk
      rw [update_of_ne (by omega), hrest k (by omega)]

variable {n : ℕ}

theorem starts_eq {k : ℕ} (hk : k < n) : starts n (tally key xs) k = (grouped key k xs).length :=
  (starts_pass xs n).2.1 k hk

theorem grouped_mono {j k : ℕ} (h : j < k) :
    (grouped key j xs).length+(xs.filter fun x => key x = j).length ≤ (grouped key k xs).length := by
  induction k with
  | zero => omega
  | succ k ih =>
    rw [grouped_succ, length_append]
    rcases Nat.lt_succ_iff_lt_or_eq.mp h with h | rfl
    · have := ih h
      omega
    · omega

theorem grouped_at {p : ℕ} (hp : p < (grouped key n xs).length) :
    ∃ k i, k < n ∧ i < (xs.filter fun x => key x = k).length ∧ p = (grouped key k xs).length+i ∧
      (grouped key n xs)[p]? = (xs.filter fun x => key x = k)[i]? := by
  induction n with
  | zero => simp [grouped] at hp
  | succ n ih =>
    rw [grouped_succ] at hp ⊢
    by_cases hlow : p < (grouped key n xs).length
    · obtain ⟨k, i, hk, hi, hpos, hget⟩ := ih hlow
      exact ⟨k, i, by omega, hi, hpos, by rw [getElem?_append_left hlow, hget]⟩
    rw [length_append] at hp
    refine ⟨n, p-(grouped key n xs).length, by omega, by omega, by omega, ?_⟩
    rw [getElem?_append_right (by omega)]

theorem placed_step {xs done rest : List α} {x : α} {p : (ℕ → ℕ) × (ℕ → Option α)}
    (hxs : xs = done++x::rest) (hx : key x < n) (hp : Placed key n xs done p) :
    Placed key n xs (done++[x]) (place key p x) := by
  have hroom : (done.filter fun y => key y = key x).length < (xs.filter fun y => key y = key x).length := by
    rw [hxs, filter_append, length_append, filter_cons_of_pos (by simp), length_cons]
    omega
  constructor
  · intro k hk
    by_cases he : k = key x
    · subst he
      simp [place, hp.next _ hk]
      omega
    · simp [place, update_of_ne he, hp.next k hk, Ne.symm he]
  intro k i hk hi
  rw [place, hp.next _ hx]
  dsimp only
  by_cases he : k = key x
  · subst he
    by_cases hlast : i = (done.filter fun y => key y = key x).length
    · subst hlast
      simp
    rw [update_of_ne (by omega), hp.cell _ i hk hi, filter_append, filter_cons_of_pos (by simp),
      filter_nil]
    by_cases hin : i < (done.filter fun y => key y = key x).length
    · rw [getElem?_append_left hin]
    · rw [getElem?_eq_none (by omega), getElem?_eq_none (by simp; omega)]
  · -- the cells of two keys do not overlap
    have hapart : (grouped key k xs).length+i ≠
        (grouped key (key x) xs).length+(done.filter fun y => key y = key x).length := by
      rcases Nat.lt_or_gt_of_ne he with hlt | hlt
      · have := @grouped_mono α key xs _ _ hlt
        omega
      · have := @grouped_mono α key xs _ _ hlt
        omega
    rw [update_of_ne hapart, hp.cell k i hk hi, filter_append,
      filter_cons_of_neg (by simp [Ne.symm he]), filter_nil, append_nil]

theorem placed_run {xs : List α} (hk : ∀ x ∈ xs, key x < n) (done rest : List α)
    (p : (ℕ → ℕ) × (ℕ → Option α)) (hxs : xs = done++rest) (hp : Placed key n xs done p) :
    Placed key n xs xs (rest.foldl (place key) p) := by
  induction rest generalizing done p with
  | nil =>
    rw [append_nil] at hxs
    rw [← hxs] at hp
    exact hp
  | cons x rest ih =>
    have hx : key x < n := hk x (by simp [hxs])
    exact ih (done++[x]) (place key p x) (by simp [hxs]) (placed_step hxs hx hp)

theorem flatMap_filter_perm {β : Type} [DecidableEq β] (f : α → β) (ks : List β) (hk : ks.Nodup)
    (xs : List α) :
    (ks.flatMap fun k => xs.filter fun x => f x = k).Perm (xs.filter fun x => f x ∈ ks) := by
  induction ks with
  | nil => simp
  | cons k ks ih =>
    obtain ⟨hnew, hks⟩ := nodup_cons.mp hk
    have hhead : xs.filter (fun x => f x = k) = (xs.filter fun x => f x ∈ k::ks).filter fun x => f x = k := by
      rw [filter_filter]
      apply filter_congr
      intro x _
      by_cases hx : f x = k
      · simp [hx]
      · simp [hx]
    have htail : xs.filter (fun x => f x ∈ ks) = (xs.filter fun x => f x ∈ k::ks).filter fun x =>
      !decide (f x = k) := by
      rw [filter_filter]
      apply filter_congr
      intro x _
      by_cases hx : f x = k
      · simp [hx, hnew]
      · simp [hx]
    rw [flatMap_cons]
    refine ((ih hks).append_left _).trans ?_
    rw [hhead, htail]
    exact filter_append_perm _ _

theorem grouped_perm (n : ℕ) (xs : List α) : (grouped key n xs).Perm (xs.filter fun x => key x < n) := by
  have h := flatMap_filter_perm key (List.range n) nodup_range xs
  simpa [grouped] using h

theorem grouped_all {xs : List α} (hk : ∀ x ∈ xs, key x < n) : (grouped key n xs).Perm xs := by
  have h : (grouped key n xs).Perm (xs.filter fun x => key x < n) := grouped_perm n xs
  rwa [filter_eq_self.mpr (by simpa using hk)] at h

theorem grouped_pairwise {R : α → α → Prop} (n : ℕ) {xs : List α} (h : xs.Pairwise R) :
    (grouped key n xs).Pairwise fun x y => key x < key y ∨ key x = key y ∧ R x y := by
  induction n with
  | zero => simp [grouped]
  | succ n ih =>
    rw [grouped_succ, pairwise_append]
    refine ⟨ih, ?_, ?_⟩
    · refine List.Pairwise.imp_of_mem ?_ (h.filter _)
      intro x y hx hy hr
      have hxn := of_decide_eq_true (mem_filter.mp hx).2
      have hyn := of_decide_eq_true (mem_filter.mp hy).2
      exact .inr ⟨hxn.trans hyn.symm, hr⟩
    · intro x hx y hy
      have hxn := of_decide_eq_true (mem_filter.mp ((grouped_perm n xs).mem_iff.mp hx)).2
      have hyn := of_decide_eq_true (mem_filter.mp hy).2
      exact .inl (by omega)

theorem filterMap_cells : (List.range xs.length).filterMap (fun i => xs[i]?) = xs := by
  induction xs using List.reverseRecOn with
  | nil => rfl
  | append_singleton xs x ih =>
    have hfront : ∀ i ∈ List.range xs.length, (xs++[x])[i]? = xs[i]? := by
      intro i hi
      rw [getElem?_append_left (mem_range.mp hi)]
    rw [length_append, length_singleton, range_succ, filterMap_append, filterMap_congr hfront, ih]
    simp

theorem countingSort_eq {xs : List α} (hk : ∀ x ∈ xs, key x < n) :
    countingSort key n xs = grouped key n xs := by
  have hstart : Placed key n xs [] (starts n (tally key xs), fun _ => none) := by
    constructor
    · intro k hk
      simp [starts_eq xs hk]
    · intro k i _ _
      simp
  have hend := placed_run hk [] xs _ rfl hstart
  rw [countingSort, ← (grouped_all hk).length_eq]
  generalize (xs.foldl (place key) (starts n (tally key xs), fun _ => none)) = p at hend
  have hcells : ∀ i ∈ List.range (grouped key n xs).length, p.2 i = (grouped key n xs)[i]? := by
    intro i hi
    obtain ⟨k, j, hk, hj, hpos, hget⟩ := grouped_at xs (mem_range.mp hi)
    rw [hget, hpos, hend.cell k j hk hj]
  rw [filterMap_congr hcells, filterMap_cells]

end

end QEngine.CountingSort

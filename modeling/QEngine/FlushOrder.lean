import QEngine.CountingSort
import Mathlib.Algebra.Ring.Int.Defs

/-!
# The order of the rows in a flush

Every row of a memtable is entered in a skip list under its time, behind the rows
with the same time. A flush takes the rows in that order, or as they came if they
came in order, and may then sort them by a tag column. The higher levels of the
list are left out.
-/

namespace QEngine.FlushOrder
open Option List CountingSort

structure RowIndex where
  nodes : List (ℤ × ℕ)
  monotonicKey : Option ℤ
  lastTs : ℤ
  allSorted : Bool
  nrows : ℕ
  deriving DecidableEq

def RowIndex.empty : RowIndex := ⟨[], none, -2^63, true, 0⟩

def walk (key : ℤ) (value : ℕ) : List (ℤ × ℕ) → List (ℤ × ℕ)
  | [] => [(key, value)]
  | n::ns => if n.1 ≤ key then n::walk key value ns else (key, value)::n::ns

def RowIndex.rowEnd (s : RowIndex) (ts : ℤ) : RowIndex where
  nodes := if s.monotonicKey.any (fun m => decide (m ≤ ts)) then s.nodes++[(ts, s.nrows)] else
    walk ts s.nrows s.nodes
  monotonicKey := some (s.monotonicKey.elim ts fun m => if m < ts then ts else m)
  lastTs := ts
  allSorted := if ts < s.lastTs then false else s.allSorted
  nrows := s.nrows+1

def rowIndex (ts : List ℤ) : RowIndex := ts.foldl RowIndex.rowEnd RowIndex.empty

/-- `slOk` says that there was memory for the list. -/
def sortedIndices (slOk : Bool) (s : RowIndex) : List ℕ :=
  if s.allSorted = true ∨ slOk = false then List.range s.nrows
  else
    let walked := (s.nodes.map Prod.snd).take s.nrows
    walked++(List.range s.nrows).drop walked.length

def maxSym (code : ℕ → ℕ) (order : List ℕ) : ℕ := order.foldl (fun m r => if m < code r then code r else m) 0

/-- `code` is the tag column, `bufs` says that there was memory for the sort. -/
def flushOrder (slOk bufs : Bool) (s : RowIndex) (code : Option (ℕ → ℕ)) : List ℕ :=
  let order := sortedIndices slOk s
  match code with
  | none => order
  | some code =>
    if 1 < s.nrows ∧ bufs = true then countingSort code (maxSym code order+1) order else order

def timeOf (ts : List ℤ) (i : ℕ) : ℤ := ts.getD i 0

def Before (ts : List ℤ) (code : Option (ℕ → ℕ)) (i j : ℕ) : Prop :=
  match code with
  | none => timeOf ts i ≤ timeOf ts j
  | some code => code i < code j ∨ code i = code j ∧ timeOf ts i ≤ timeOf ts j

def Earlier (a b : ℤ × ℕ) : Prop := a.1 < b.1 ∨ a.1 = b.1 ∧ a.2 < b.2

structure Indexed (ts : List ℤ) (s : RowIndex) : Prop where
  nrows : s.nrows = ts.length
  perm : s.nodes.Perm ts.zipIdx
  sorted : s.nodes.Pairwise Earlier
  top : ∀ n ∈ s.nodes, ∃ m, s.monotonicKey = some m ∧ n.1 ≤ m
  last : s.allSorted = true → ∀ t ∈ ts, t ≤ s.lastTs
  ascending : s.allSorted = true → ts.Pairwise (· ≤ ·)

theorem walk_perm (key : ℤ) (value : ℕ) (ns : List (ℤ × ℕ)) :
    (walk key value ns).Perm (ns++[(key, value)]) := by
  induction ns with
  | nil => exact List.Perm.refl _
  | cons n ns ih =>
    rw [walk]
    split_ifs
    · exact ih.cons n
    · exact (perm_append_singleton (key, value) _).symm

theorem walk_sorted {key : ℤ} {value : ℕ} {ns : List (ℤ × ℕ)} (h : ns.Pairwise Earlier)
    (hv : ∀ n ∈ ns, n.2 < value) : (walk key value ns).Pairwise Earlier := by
  induction ns with
  | nil => simp [walk]
  | cons n ns ih =>
    obtain ⟨hn, hns⟩ := pairwise_cons.mp h
    rw [walk]
    split_ifs with hle
    · refine pairwise_cons.mpr ⟨?_, ih hns fun y hy => hv y (by simp [hy])⟩
      intro y hy
      rcases mem_append.mp ((walk_perm key _ ns).mem_iff.mp hy) with hy | hy
      · exact hn y hy
      rw [mem_singleton.mp hy]
      have := hv n (by simp)
      rcases lt_or_eq_of_le hle with hlt | heq
      · exact .inl hlt
      · exact .inr ⟨heq, this⟩
    · refine pairwise_cons.mpr ⟨?_, h⟩
      intro y hy
      left
      rcases mem_cons.mp hy with rfl | hy
      · exact lt_of_not_ge hle
      rcases hn y hy with hlt | ⟨heq, -⟩
      · exact lt_trans (lt_of_not_ge hle) hlt
      · exact lt_of_lt_of_eq (lt_of_not_ge hle) heq

theorem indexed_empty : Indexed [] RowIndex.empty := by
  constructor <;> simp [RowIndex.empty]

theorem indexed_values {ts : List ℤ} {s : RowIndex} (h : Indexed ts s) : ∀ n ∈ s.nodes, n.2 < s.nrows := by
  intro n hn
  have hz := h.perm.mem_iff.mp hn
  rw [h.nrows]
  obtain ⟨-, hlt, -⟩ := mem_zipIdx hz
  simpa using hlt

theorem indexed_rowEnd {ts : List ℤ} {s : RowIndex} (h : Indexed ts s) (t : ℤ) : Indexed (ts++[t])
    (s.rowEnd t) := by
  have hzip : (ts++[t]).zipIdx = ts.zipIdx++[(t, s.nrows)] := by
    rw [zipIdx_append, h.nrows]
    simp
  have hperm : (s.rowEnd t).nodes.Perm (s.nodes++[(t, s.nrows)]) := by
    rw [RowIndex.rowEnd]
    dsimp only
    split_ifs
    · exact List.Perm.refl _
    · exact walk_perm _ _ _
  constructor
  · simp [RowIndex.rowEnd, h.nrows]
  · rw [hzip]
    exact hperm.trans (h.perm.append_right _)
  · rw [RowIndex.rowEnd]
    dsimp only
    split_ifs with htop
    · -- the new key is not below any other
      refine pairwise_append.mpr ⟨h.sorted, pairwise_singleton _ _, ?_⟩
      intro n hn y hy
      rw [mem_singleton.mp hy]
      obtain ⟨m, hm, hnm⟩ := h.top n hn
      rw [hm, any_some, decide_eq_true_iff] at htop
      have hv := indexed_values h n hn
      rcases lt_or_eq_of_le (hnm.trans htop) with hlt | heq
      · exact .inl hlt
      · exact .inr ⟨heq, hv⟩
    · exact walk_sorted h.sorted (indexed_values h)
  · intro n hn
    refine ⟨_, rfl, ?_⟩
    rcases mem_append.mp (hperm.mem_iff.mp hn) with hn | hn
    · obtain ⟨k, hk, hle⟩ := h.top n hn
      rw [hk, elim_some]
      split_ifs <;> omega
    rw [mem_singleton.mp hn]
    cases s.monotonicKey with
    | none => simp
    | some k =>
      rw [elim_some]
      split_ifs <;> omega
  · intro hall x hx
    simp only [RowIndex.rowEnd] at hall ⊢
    split_ifs at hall with hlt
    rcases mem_append.mp hx with hx | hx
    · have := h.last hall x hx
      omega
    · rw [mem_singleton.mp hx]
  · intro hall
    simp only [RowIndex.rowEnd] at hall
    split_ifs at hall with hlt
    refine pairwise_append.mpr ⟨h.ascending hall, pairwise_singleton _ _, ?_⟩
    intro x hx y hy
    rw [mem_singleton.mp hy]
    have := h.last hall x hx
    omega

theorem indexed (ts : List ℤ) : Indexed ts (rowIndex ts) := by
  induction ts using List.reverseRecOn with
  | nil => exact indexed_empty
  | append_singleton ts t ih =>
    rw [rowIndex, foldl_append]
    exact indexed_rowEnd ih t

theorem node_time {ts : List ℤ} {s : RowIndex} (h : Indexed ts s) {n : ℤ × ℕ} (hn : n ∈ s.nodes) :
    timeOf ts n.2 = n.1 := by
  have hz := mem_zipIdx_iff_getElem?.mp (h.perm.mem_iff.mp hn)
  rw [timeOf, getD_eq_getElem?_getD, hz]
  rfl

section
variable {ts : List ℤ} {s : RowIndex} (h : Indexed ts s)
include h

theorem sortedIndices_walked (slOk : Bool) (hs : s.allSorted = false) (hok : slOk = true) :
    sortedIndices slOk s = s.nodes.map Prod.snd := by
  have hlen : (s.nodes.map Prod.snd).length = s.nrows := by
    rw [length_map, h.perm.length_eq, length_zipIdx, h.nrows]
  rw [sortedIndices, if_neg (by simp [hs, hok])]
  dsimp only
  rw [take_of_length_le (by omega), hlen, drop_of_length_le (by simp), append_nil]

theorem sortedIndices_perm (slOk : Bool) : (sortedIndices slOk s).Perm (List.range ts.length) := by
  by_cases hid : s.allSorted = true ∨ slOk = false
  · rw [sortedIndices, if_pos hid, h.nrows]
  rw [not_or, Bool.not_eq_true, Bool.not_eq_false] at hid
  rw [sortedIndices_walked h _ hid.1 hid.2]
  refine (h.perm.map _).trans ?_
  rw [zipIdx_map_snd, range_eq_range']

theorem sortedIndices_sorted : (sortedIndices true s).Pairwise fun i j => timeOf ts i ≤ timeOf ts j := by
  by_cases hs : s.allSorted = true
  · rw [sortedIndices, if_pos (.inl hs), h.nrows]
    refine List.Pairwise.imp_of_mem ?_ pairwise_lt_range
    intro i j hi hj hlt
    rw [mem_range] at hi hj
    have hle := pairwise_iff_getElem.mp (h.ascending hs) i j hi hj hlt
    simpa [timeOf, hi, hj] using hle
  rw [Bool.not_eq_true] at hs
  rw [sortedIndices_walked h _ hs rfl, pairwise_map]
  refine List.Pairwise.imp_of_mem ?_ h.sorted
  intro a b ha hb hab
  rw [node_time h ha, node_time h hb]
  rcases hab with hlt | ⟨heq, -⟩
  · exact le_of_lt hlt
  · exact le_of_eq heq

end

theorem le_maxSym (code : ℕ → ℕ) (order : List ℕ) : ∀ r ∈ order, code r < maxSym code order+1 := by
  have hfold : ∀ (order : List ℕ) (m : ℕ),
      m ≤ order.foldl (fun m r => if m < code r then code r else m) m ∧
      ∀ r ∈ order, code r ≤ order.foldl (fun m r => if m < code r then code r else m) m := by
    intro order
    induction order with
    | nil => simp
    | cons x order ih =>
      intro m
      rw [foldl_cons]
      obtain ⟨hm, hall⟩ := ih (if m < code x then code x else m)
      have hx : m ≤ (if m < code x then code x else m) ∧ code x ≤ if m < code x then code x else m := by
        split_ifs <;> omega
      refine ⟨hx.1.trans hm, ?_⟩
      intro r hr
      rcases mem_cons.mp hr with rfl | hr
      · exact hx.2.trans hm
      · exact hall r hr
  intro r hr
  exact Nat.lt_succ_of_le ((hfold order 0).2 r hr)

theorem flushOrder_perm (slOk bufs : Bool) (ts : List ℤ) (code : Option (ℕ → ℕ)) :
    (flushOrder slOk bufs (rowIndex ts) code).Perm (List.range ts.length) := by
  have hp := sortedIndices_perm (indexed ts) slOk
  unfold flushOrder
  cases code with
  | none => exact hp
  | some code =>
    dsimp only
    split_ifs
    · have hk := le_maxSym code (sortedIndices slOk (rowIndex ts))
      rw [countingSort_eq hk]
      exact (grouped_all hk).trans hp
    · exact hp

theorem flushOrder_sorted (ts : List ℤ) (code : Option (ℕ → ℕ)) :
    (flushOrder true true (rowIndex ts) code).Pairwise (Before ts code) := by
  have hs := sortedIndices_sorted (indexed ts)
  unfold flushOrder
  cases code with
  | none => exact hs
  | some code =>
    dsimp only
    split_ifs with hmany
    · have hk := le_maxSym code (sortedIndices true (rowIndex ts))
      rw [countingSort_eq hk]
      exact grouped_pairwise _ hs
    have hlen : (sortedIndices true (rowIndex ts)).length ≤ 1 := by
      rw [(sortedIndices_perm (indexed ts) _).length_eq, length_range, ← (indexed ts).nrows]
      simpa using hmany
    match hl : sortedIndices true (rowIndex ts), hlen with
    | [], _ => exact List.Pairwise.nil
    | [_], _ => exact pairwise_singleton _ _

end QEngine.FlushOrder

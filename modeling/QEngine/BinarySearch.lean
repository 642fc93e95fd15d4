import Mathlib.Tactic

/-!
# Binary search by a three-way comparison

If the list is in its order, the search ends at the first element that is not below,
and says whether that element is the one looked for.
-/

namespace QEngine.BinarySearch
open List

variable {α : Type*} (cmp : α → Ordering) (xs : List α)

/-- `n` bounds the number of steps. -/
def searchFrom : ℕ → ℕ → ℕ → Bool × ℕ
  | 0, lo, _ => (false, lo)
  | n+1, lo, hi =>
    if lo < hi then
      let mid := lo+(hi-lo)/2
      match xs[mid]?.map cmp with
      | some .eq => (true, mid)
      | some .lt => searchFrom n (mid+1) hi
      | some .gt => searchFrom n lo mid
      | none => (false, lo)
    else (false, lo)

def search : Bool × ℕ := searchFrom cmp xs xs.length 0 xs.length

def Ordered : Prop := xs.Pairwise fun a b => cmp a = .lt ∨ cmp b = .gt

variable {cmp} {xs}

theorem findIdx_at {p : ℕ} (hp : p ≤ xs.length) (hb : ∀ i (_ : i < xs.length), i < p → cmp xs[i] = .lt)
    (ha : ∀ _ : p < xs.length, cmp xs[p] ≠ .lt) : xs.findIdx (cmp · ≠ .lt) = p := by
  obtain rfl | hlt := hp.eq_or_lt
  · refine findIdx_eq_length.mpr fun x hx => ?_
    obtain ⟨i, hi, rfl⟩ := mem_iff_getElem.mp hx
    simp [hb i hi hi]
  · refine (findIdx_eq hlt).mpr ⟨by simpa using ha hlt, fun j hj => ?_⟩
    simp [hb j (hj.trans hlt) hj]

theorem range_empty {p : ℕ} (hp : p ≤ xs.length) (hb : ∀ i (_ : i < xs.length), i < p → cmp xs[i] = .lt)
    (ha : ∀ i (_ : i < xs.length), p ≤ i → cmp xs[i] = .gt) :
    (false, p) = (xs.any (cmp · = .eq), xs.findIdx (cmp · ≠ .lt)) := by
  rw [findIdx_at hp hb fun hl => by simp [ha p hl le_rfl], any_eq_false.mpr]
  intro x hx
  obtain ⟨i, hi, rfl⟩ := mem_iff_getElem.mp hx
  obtain hl | hl := lt_or_ge i p
  · simp [hb i hi hl]
  · simp [ha i hi hl]

/-- The search keeps what is below before its range and what is above behind it. -/
theorem searchFrom_spec (h : Ordered cmp xs) {n lo hi : ℕ} (hn : hi-lo ≤ n) (hlo : lo ≤ hi)
    (hhi : hi ≤ xs.length)
    (hb : ∀ i (_ : i < xs.length), i < lo → cmp xs[i] = .lt)
    (ha : ∀ i (_ : i < xs.length), hi ≤ i → cmp xs[i] = .gt) :
    searchFrom cmp xs n lo hi = (xs.any (cmp · = .eq), xs.findIdx (cmp · ≠ .lt)) := by
  induction n generalizing lo hi with
  | zero =>
    obtain rfl : lo = hi := by omega
    exact range_empty hhi hb ha
  | succ n ih =>
    rw [searchFrom]
    split_ifs with hlt
    · have hm : lo+(hi-lo)/2 < xs.length := by omega
      have hle : ∀ i (hi' : i < xs.length), i < lo+(hi-lo)/2 → cmp xs[lo+(hi-lo)/2] ≠ .gt → cmp xs[i] = .lt :=
        fun i hi' hi hc => (pairwise_iff_getElem.mp h i _ hi' hm hi).resolve_right hc
      have hge : ∀ i (hi' : i < xs.length), lo+(hi-lo)/2 < i → cmp xs[lo+(hi-lo)/2] ≠ .lt → cmp xs[i] = .gt :=
        fun i hi' hi hc => (pairwise_iff_getElem.mp h _ i hm hi' hi).resolve_left hc
      dsimp only
      rw [getElem?_eq_getElem hm, Option.map_some]
      cases hc : cmp xs[lo+(hi-lo)/2] with
      | eq =>
        have hany : xs.any (cmp · = .eq) = true := any_eq_true.mpr ⟨_, getElem_mem hm, by simp [hc]⟩
        rw [hany, findIdx_at hm.le (fun i hi' hi => hle i hi' hi (by simp [hc])) (fun _ => by simp [hc])]
      | lt =>
        refine @ih (lo+(hi-lo)/2+1) hi (by omega) (by omega) hhi (fun i hi' hi => ?_) ha
        obtain rfl | hi := (Nat.lt_succ_iff.mp hi).eq_or_lt
        · exact hc
        · exact hle i hi' hi (by simp [hc])
      | gt =>
        refine @ih lo (lo+(hi-lo)/2) (by omega) (by omega) (by omega) hb fun i hi' hi => ?_
        obtain rfl | hi := hi.eq_or_lt
        · exact hc
        · exact hge i hi' hi (by simp [hc])
    · obtain rfl : lo = hi := by omega
      exact range_empty hhi hb ha

theorem search_spec (h : Ordered cmp xs) :
    search cmp xs = (xs.any (cmp · = .eq), xs.findIdx (cmp · ≠ .lt)) :=
  searchFrom_spec h le_rfl (Nat.zero_le _) le_rfl (fun _ _ h => absurd h (Nat.not_lt_zero _))
    fun _ h h' => absurd h (not_lt.mpr h')

theorem dropWhile_false {p : α → Bool} (h : xs.Pairwise fun a b => p b = true → p a = true) :
    ∀ x ∈ xs.dropWhile p, p x = false := by
  induction xs with
  | nil => exact fun x h => nomatch h
  | cons y ys ih =>
    obtain ⟨hy, hp⟩ := pairwise_cons.mp h
    rw [dropWhile_cons]
    split_ifs with hf
    · exact ih hp
    · exact forall_mem_cons.mpr ⟨Bool.eq_false_of_not_eq_true hf, fun x hx => Bool.eq_false_of_not_eq_true
        fun hp => hf (hy x hx hp)⟩

end QEngine.BinarySearch

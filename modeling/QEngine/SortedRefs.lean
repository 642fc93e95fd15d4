import Mathlib.Tactic
import Mathlib.Data.List.Sort

/-!
# Lookup of the last position with a key

The positions of a list are sorted by the keys of its elements. A binary search for
the end of the run of equal keys, followed by a walk back through that run, finds the
last position with a given key.
-/

namespace QEngine.SortedRefs
open Option List

variable {α K : Type*} [LinearOrder K]

def byKey (a b : K × ℕ) : Prop := a.1 ≤ b.1

instance : DecidableRel (byKey (K := K)) := fun a b => inferInstanceAs (Decidable (a.1 ≤ b.1))

instance : Std.Total (byKey (K := K)) := ⟨fun a b => le_total a.1 b.1⟩

instance : IsTrans (K × ℕ) byKey := ⟨fun _ _ _ h1 h2 => le_trans h1 h2⟩

def refs (key : α → K) (xs : List α) : List (K × ℕ) := (xs.mapIdx fun i x => (key x, i)).insertionSort byKey

def upperBound (v : List (K × ℕ)) (want : K) : ℕ → ℕ → ℕ → ℕ
  | 0, lo, _ => lo
  | n+1, lo, hi =>
    if lo < hi then
      let mid := lo+(hi-lo)/2
      match v[mid]? with
      | some r => if r.1 ≤ want then upperBound v want n (mid+1) hi else upperBound v want n lo mid
      | none => lo
    else lo

def walkBack (v : List (K × ℕ)) (want : K) : ℕ → ℕ → ℕ
  | 0, best => best
  | i+1, best =>
    match v[i]? with
    | some r => if r.1 = want then walkBack v want i (if best < r.2 then r.2 else best) else best
    | none => best

def find (v : List (K × ℕ)) (want : K) : Option ℕ :=
  match upperBound v want v.length 0 v.length with
  | 0 => none
  | lo+1 =>
    match v[lo]? with
    | some r => if r.1 = want then some (walkBack v want lo r.2) else none
    | none => none

def distinct : List (K × ℕ) → Bool
  | a::b::rest => decide (a.1 ≠ b.1) && distinct (b::rest)
  | _ => true

end QEngine.SortedRefs

import Mathlib.Tactic

/-!
# Back-references into the output

A back-reference repeats what was written a given number of places earlier. It may be
longer than that distance, and then it runs over bytes it has just written.
-/

namespace QEngine.BackReferences
open List

variable {α : Type} [Inhabited α]

def copyBack (off : ℕ) : ℕ → List α → List α
  | 0, out => out
  | n+1, out => copyBack off n (out++[out.getD (out.length-off) default])

def Repeats (xs : List α) (i off len : ℕ) : Prop :=
  ∀ k < len, xs.getD (i-off+k) default = xs.getD (i+k) default

theorem getD_at {xs : List α} (i : ℕ) (hi : i < xs.length) : xs.getD i default = xs[i] := by
  rw [getD_eq_getElem?_getD, getElem?_eq_getElem hi, Option.getD_some]

theorem take_snoc {xs : List α} {i : ℕ} (hi : i < xs.length) :
    xs.take i++[xs.getD i default] = xs.take (i+1) := by
  rw [take_succ_eq_append_getElem hi, getD_at i hi]

theorem copyBack_take (xs : List α) (i off len : ℕ) (h1 : 1 ≤ off) (ho : off ≤ i)
    (hl : i+len ≤ xs.length) (hr : Repeats xs i off len) :
    copyBack off len (xs.take i) = xs.take (i+len) := by
  induction len generalizing i with
  | zero => rfl
  | succ n ih =>
    have hi : i < xs.length := by omega
    have hlen : (xs.take i).length = i := by rw [length_take]; omega
    have hsrc : (xs.take i).getD (i-off) default = xs.getD i default := by
      have h := hr 0 (by omega)
      rw [Nat.add_zero, Nat.add_zero] at h
      rw [← h, getD_eq_getElem?_getD, getElem?_take_of_lt (by omega), ← getD_eq_getElem?_getD]
    rw [copyBack, hlen, hsrc, take_snoc hi]
    have hnext : Repeats xs (i+1) off n := by
      intro k hk
      have h := hr (k+1) (by omega)
      rw [show i+1-off+k = i-off+(k+1) by omega, show i+1+k = i+(k+1) by omega]
      exact h
    rw [ih (i+1) (by omega) (by omega) hnext]
    congr 1
    omega

theorem copyBack_disjoint (out : List α) (off len : ℕ) (hl : len ≤ off) (ho : off ≤ out.length) :
    copyBack off len out = out++(out.drop (out.length-off)).take len := by
  induction len generalizing out off with
  | zero => simp [copyBack]
  | succ n ih =>
    have hp : out.length-off < out.length := by omega
    have hlong : (out++[out.getD (out.length-off) default]).length = out.length+1 := by simp
    rw [copyBack, ih _ off (by omega) (by omega), hlong, append_assoc]
    congr 1
    rw [show out.length+1-off = out.length-off+1 by omega]
    rw [drop_append_of_le_length (by omega), take_append_of_le_length (by simp; omega)]
    rw [drop_eq_getElem_cons hp, take_succ_cons, getD_at _ hp]
    rfl

end QEngine.BackReferences

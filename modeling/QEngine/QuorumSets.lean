import Mathlib.Tactic

/-!
# Majorities of a finite list

A property holds of a majority when more than half of the listed members
have it. Two majorities of one list share a member, which is all that the
protocols built on them need.
-/

namespace QEngine.QuorumSets
open List

variable {N : Type*}

def Majority (members : List N) (P : N → Prop) [DecidablePred P] : Prop :=
  members.length/2+1 ≤ members.countP P

variable (members : List N)

theorem count_disjoint (P Q : N → Prop)
    [DecidablePred P] [DecidablePred Q] (h : ∀ x ∈ members, ¬(P x ∧ Q x)) :
    members.countP P+members.countP Q ≤ members.length := by
  induction members with
  | nil => simp
  | cons x xs ih =>
    have hx := h x (mem_cons_self ..)
    have hxs := ih fun y hy => h y (mem_cons_of_mem _ hy)
    rw [countP_cons, countP_cons, length_cons]
    by_cases hp : P x
    · have hq : ¬Q x := fun hq => hx ⟨hp, hq⟩
      simp [hp, hq]
      omega
    · by_cases hq : Q x <;> simp [hp, hq] <;> omega

theorem majority_meet {P Q : N → Prop} [DecidablePred P] [DecidablePred Q]
    (hp : Majority members P) (hq : Majority members Q) : ∃ x ∈ members, P x ∧ Q x := by
  by_contra hn
  have hc := count_disjoint _ P Q fun x hx hpq => hn ⟨x, hx, hpq⟩
  unfold Majority at hp hq
  omega

theorem majority_meet_grown {grown : List N} {x : N} (hg : grown.Perm (x::members))
    {P Q : N → Prop} [DecidablePred P] [DecidablePred Q] (hp : Majority members P)
    (hq : Majority grown Q) : ∃ y, P y ∧ Q y := by
  by_contra hn
  have hc := count_disjoint (x::members) P Q fun y _ hpq => hn ⟨y, hpq⟩
  have hcount : members.countP P ≤ (x::members).countP P :=
    (sublist_cons_self x members).countP_le
  unfold Majority at hp hq
  rw [hg.countP_eq, hg.length_eq] at hq
  simp only [length_cons] at hc hq
  omega

theorem majority_mono {P Q : N → Prop} [DecidablePred P] [DecidablePred Q]
    (h : ∀ x ∈ members, P x → Q x) (hp : Majority members P) : Majority members Q :=
  le_trans hp (countP_mono_left (fun x hx hpx => by
    simpa using h x hx (by simpa using hpx)))

theorem count_others [DecidableEq N] {self : N} (hn : members.Nodup)
    (hm : self ∈ members) (P : N → Prop) [DecidablePred P] (hs : P self) :
    1+(members.filter (fun x => x ≠ self)).countP P = members.countP P := by
  induction members with
  | nil => simp at hm
  | cons x xs ih =>
    have hx := (nodup_cons.mp hn).1
    by_cases he : x = self
    · subst he
      have hfix : xs.filter (fun y => y ≠ x) = xs := by
        rw [filter_eq_self]
        intro y hy
        simp only [ne_eq, decide_not, Bool.not_eq_true', decide_eq_false_iff_not]
        rintro rfl
        exact hx hy
      rw [filter_cons_of_neg (by simp), hfix, countP_cons_of_pos (by simpa using hs),
        add_comm]
    · have htail := ih (nodup_cons.mp hn).2 (by
        rcases mem_cons.mp hm with h | h
        · exact absurd h.symm he
        · exact h)
      rw [filter_cons_of_pos (by simpa using he), countP_cons, countP_cons, ← htail]
      omega

theorem length_others [DecidableEq N] {self : N} (hn : members.Nodup) (hm : self ∈ members) :
    (members.filter (fun x => x ≠ self)).length+1 = members.length := by
  have h := count_others _ hn hm (fun _ => True) trivial
  simp only [decide_true, countP_true] at h
  omega

end QEngine.QuorumSets

import Mathlib.Data.Nat.ModEq
import Mathlib.Tactic

/-!
# Ring buffers

A queue in an array of fixed capacity: the next cell to write, the next cell to read
and the number of items. An item goes to the back, is taken from the front, and may be
put back in front.
-/

namespace QEngine.RingBuffers
open List Function

structure RingBuffer (α : Type*) where
  cells : ℕ → Option α
  cap : ℕ
  head : ℕ
  tail : ℕ
  size : ℕ

variable {α : Type*}

def RingBuffer.new (cap : ℕ) : RingBuffer α := ⟨fun _ => none, cap, 0, 0, 0⟩

def RingBuffer.pushBack (r : RingBuffer α) (x : α) : RingBuffer α :=
  { r with cells := update r.cells r.head (some x), head := (r.head+1)%r.cap, size := r.size+1 }

def RingBuffer.front (r : RingBuffer α) : Option α := r.cells r.tail

def RingBuffer.popFront (r : RingBuffer α) : RingBuffer α :=
    { r with tail := (r.tail+1)%r.cap, size := r.size-1 }

def RingBuffer.before (r : RingBuffer α) : ℕ := (r.tail+r.cap-1)%r.cap

def RingBuffer.pushFront (r : RingBuffer α) (x : α) : RingBuffer α :=
  { r with cells := update r.cells r.before (some x), tail := r.before, size := r.size+1 }

structure RingBuffer.Holds (r : RingBuffer α) (xs : List α) : Prop where
  room : xs.length ≤ r.cap
  tail : r.tail < r.cap
  head : r.head = (r.tail+xs.length)%r.cap
  size : r.size = xs.length
  cells : ∀ i < xs.length, r.cells ((r.tail+i)%r.cap) = xs[i]?

theorem offset_inj {t i j c : ℕ} (hi : i < c) (hj : j < c) (h : (t+i)%c = (t+j)%c) : i = j := by
  have hmod : i ≡ j [MOD c] := Nat.ModEq.add_left_cancel' t h
  rw [Nat.ModEq, Nat.mod_eq_of_lt hi, Nat.mod_eq_of_lt hj] at hmod
  exact hmod

theorem holds_new {cap : ℕ} (h : 0 < cap) : (RingBuffer.new cap : RingBuffer α).Holds [] := by
  refine ⟨Nat.zero_le _, h, (Nat.zero_mod _).symm, rfl, ?_⟩
  intro i hi
  cases hi

section
variable {r : RingBuffer α} {x : α} {xs : List α}

theorem holds_pushBack (h : r.Holds xs) (hroom : xs.length < r.cap) : (r.pushBack x).Holds (xs++[x]) := by
  have hlen : (xs++[x]).length = xs.length+1 := by simp
  constructor
  · rw [hlen]
    exact hroom
  · exact h.tail
  · show (r.head+1)%r.cap = _
    rw [h.head, hlen, Nat.mod_add_mod, Nat.add_assoc]
    rfl
  · show r.size+1 = _
    rw [h.size, hlen]
  intro i hi
  show update r.cells r.head (some x) ((r.tail+i)%r.cap) = _
  rw [hlen] at hi
  by_cases hlast : i = xs.length
  · rw [hlast, ← h.head, update_self, getElem?_concat_length]
  have hne : (r.tail+i)%r.cap ≠ r.head := by
    intro he
    rw [h.head] at he
    exact hlast (offset_inj (by omega) hroom he)
  rw [update_of_ne hne, h.cells i (by omega), getElem?_append_left (by omega)]

theorem holds_front (h : r.Holds (x :: xs)) : r.front = some x := by
  have hcell := h.cells 0 (Nat.succ_pos _)
  rw [Nat.add_zero, Nat.mod_eq_of_lt h.tail] at hcell
  exact hcell

theorem holds_popFront (h : r.Holds (x :: xs)) : r.popFront.Holds xs := by
  have hroom := h.room
  rw [length_cons] at hroom
  constructor
  · exact Nat.le_of_succ_le hroom
  · exact Nat.mod_lt _ (Nat.zero_lt_of_lt h.tail)
  · show r.head = ((r.tail+1)%r.cap+xs.length)%r.cap
    rw [h.head, length_cons, Nat.mod_add_mod]
    congr 1
    omega
  · show r.size-1 = _
    rw [h.size]
    rfl
  · intro i hi
    show r.cells (((r.tail+1)%r.cap+i)%r.cap) = _
    have hcell := h.cells (i+1) (Nat.succ_lt_succ hi)
    rw [Nat.mod_add_mod, Nat.add_assoc, Nat.add_comm 1 i]
    exact hcell

theorem before_step (h : r.tail < r.cap) (i : ℕ) : (r.before+(i+1))%r.cap = (r.tail+i)%r.cap := by
  have hsum : r.tail+r.cap-1+(i+1) = r.tail+i+r.cap := by omega
  rw [RingBuffer.before, Nat.mod_add_mod, hsum, Nat.add_mod_right]

theorem holds_pushFront (h : r.Holds xs) (hroom : xs.length < r.cap) : (r.pushFront x).Holds (x :: xs) := by
  have hlt : r.before < r.cap := Nat.mod_lt _ (Nat.zero_lt_of_lt h.tail)
  constructor
  · exact hroom
  · exact hlt
  · show r.head = (r.before+(x :: xs).length)%r.cap
    rw [length_cons, before_step h.tail, h.head]
  · show r.size+1 = _
    rw [h.size]
    rfl
  intro i hi
  show update r.cells r.before (some x) ((r.before+i)%r.cap) = _
  rw [length_cons] at hi
  cases i with
  | zero =>
    rw [Nat.add_zero, Nat.mod_eq_of_lt hlt, update_self]
    rfl
  | succ i =>
    have hne : (r.before+(i+1))%r.cap ≠ r.before := by
      intro he
      have h0 : (r.before+(i+1))%r.cap = (r.before+0)%r.cap := by
        rw [he, Nat.add_zero, Nat.mod_eq_of_lt hlt]
      have := offset_inj (by omega) (by omega) h0
      omega
    rw [update_of_ne hne, before_step h.tail, h.cells i (Nat.lt_of_succ_lt_succ hi)]
    rfl

end

end QEngine.RingBuffers

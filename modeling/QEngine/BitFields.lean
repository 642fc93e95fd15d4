import Mathlib.Tactic

/-!
# Fields packed into one number

A bit string written least significant bit first is a number together with a length.
Appending a field of `n` bits adds its value above the bits already present; taking
the low `n` bits off again leaves the number of the remaining fields.
-/

namespace QEngine.BitFields

abbrev Field := ℕ × ℕ

def pack : List Field → ℕ
  | [] => 0
  | f::fs => f.1%2^f.2+2^f.2*pack fs

def width (fs : List Field) : ℕ := (fs.map Prod.snd).sum

@[simp] theorem width_nil : width [] = 0 := rfl

@[simp] theorem width_cons (f : Field) (fs : List Field) : width (f::fs) = f.2+width fs := by
  simp [width]

@[simp] theorem width_append (fs gs : List Field) : width (fs++gs) = width fs+width gs := by
  simp [width]

theorem pack_append (fs gs : List Field) : pack (fs++gs) = pack fs+2^width fs*pack gs := by
  induction fs with
  | nil => simp [pack]
  | cons f fs ih =>
    rw [List.cons_append, pack, pack, ih, width_cons, pow_add]
    ring

theorem pack_lt (fs : List Field) : pack fs < 2^width fs := by
  induction fs with
  | nil => simp [pack]
  | cons f fs ih =>
    have hf := Nat.mod_lt f.1 (Nat.two_pow_pos f.2)
    have hm : 2^f.2*(pack fs+1) ≤ 2^f.2*2^width fs := Nat.mul_le_mul_left _ ih
    rw [pack, width_cons, pow_add]
    rw [mul_add, mul_one] at hm
    omega

theorem low_high (n a b : ℕ) (h : a < 2^n) : (a+2^n*b)%2^n = a ∧ (a+2^n*b)/2^n = b := by
  have hp := Nat.two_pow_pos n
  constructor
  · rw [Nat.add_mul_mod_self_left, Nat.mod_eq_of_lt h]
  · rw [Nat.add_mul_div_left _ _ hp, Nat.div_eq_of_lt h, Nat.zero_add]

theorem or_shift (n a b : ℕ) (h : a < 2^n) : a ||| b <<< n = a+2^n*b := by
  rw [Nat.shiftLeft_eq, Nat.or_comm, mul_comm b, ← Nat.two_pow_add_eq_or_of_lt h]
  exact add_comm _ _

theorem shift_mod (v n k : ℕ) (h : n ≤ k) : (v <<< n)%2^k = 2^n*(v%2^(k-n)) := by
  obtain ⟨j, rfl⟩ := Nat.exists_eq_add_of_le h
  rw [Nat.shiftLeft_eq, mul_comm v, pow_add, Nat.mul_mod_mul_left, Nat.add_sub_cancel_left]

theorem pack_split (v a b : ℕ) (fs : List Field) :
    pack ((v, a+b)::fs) = pack ((v%2^a, a)::(v/2^a, b)::fs) := by
  simp only [pack, Nat.mod_mod]
  rw [pow_add, Nat.mod_mul]
  ring

end QEngine.BitFields

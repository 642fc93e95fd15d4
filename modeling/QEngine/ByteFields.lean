import Mathlib.Tactic

/-!
# Fixed-width fields of a byte string

A stored integer occupies a fixed number of bytes, least significant first. A reader
names an offset and a width and receives the field only when every byte of it is
present; a short read yields nothing.
-/

namespace QEngine.ByteFields
open List

abbrev Bytes := List UInt8

def leBytes : ℕ → ℕ → Bytes
  | 0, _ => []
  | w+1, n => UInt8.ofNat (n%256)::leBytes w (n/256)

def leValue (bs : Bytes) : ℕ := bs.foldr (fun b n => b.toNat+256*n) 0

def sliceAt (bs : Bytes) (off w : ℕ) : Option Bytes :=
  if off+w ≤ bs.length then some ((bs.drop off).take w) else none

def fieldAt (bs : Bytes) (off w : ℕ) : Option ℕ := (sliceAt bs off w).map leValue

variable (w n : ℕ)

@[simp] theorem leBytes_length : (leBytes w n).length = w := by
  induction w generalizing n with
  | zero => rfl
  | succ w ih => simp [leBytes, ih]

theorem leValue_leBytes (h : n < 256^w) : leValue (leBytes w n) = n := by
  induction w generalizing n with
  | zero =>
    have h0 : n = 0 := by simpa using h
    simp [leBytes, leValue, h0]
  | succ w ih =>
    have hq : n/256 < 256^w := by
      rw [Nat.div_lt_iff_lt_mul (by decide)]
      simpa [pow_succ] using h
    have hb : (UInt8.ofNat (n%256)).toNat = n%256 := by
      rw [UInt8.toNat_ofNat']
      exact Nat.mod_eq_of_lt (Nat.mod_lt n (by decide))
    have hv : leValue (leBytes (w+1) n) = (UInt8.ofNat (n%256)).toNat+256*leValue (leBytes w (n/256)) := rfl
    rw [hv, ih _ hq, hb]
    exact Nat.mod_add_div n 256

variable (pre x post : Bytes)

theorem sliceAt_split : sliceAt (pre++(x++post)) pre.length x.length = some x := by
  simp [sliceAt]

variable (bs : Bytes) (off w : ℕ)

theorem sliceAt_short (h : bs.length < off+w) : sliceAt bs off w = none := by
  simp [sliceAt, h]

theorem sliceAt_inside (h : off+w ≤ x.length) :
    sliceAt (pre++(x++post)) (pre.length+off) w = sliceAt x off w := by
  have hl : pre.length+off+w ≤ (pre++(x++post)).length := by simp; omega
  rw [sliceAt, if_pos hl, sliceAt, if_pos h]
  rw [← drop_drop, drop_left]
  rw [drop_append_of_le_length (by omega), take_append_of_le_length (by simp; omega)]

theorem fieldAt_inside (h : off+w ≤ x.length) :
    fieldAt (pre++(x++post)) (pre.length+off) w = fieldAt x off w := by
  rw [fieldAt, sliceAt_inside pre x _ off w h, fieldAt]

theorem fieldAt_short (h : bs.length < off+w) : fieldAt bs off w = none := by
  simp [fieldAt, sliceAt_short bs off w h]

theorem fieldAt_written (pre post : Bytes) (w n : ℕ) (h : n < 256^w) :
    fieldAt (pre++(leBytes w n++post)) pre.length w = some n := by
  have hs := sliceAt_split pre (leBytes w n) post
  rw [leBytes_length] at hs
  rw [fieldAt, hs, Option.map_some, leValue_leBytes w n h]

theorem fieldAt_front (front post : Bytes) (off w : ℕ) (h : off+w ≤ front.length) :
    fieldAt (front++post) off w = fieldAt front off w := by
  simpa using fieldAt_inside [] _ _ off w h

@[simp] theorem leValue_nil : leValue [] = 0 := rfl

theorem leValue_cons (b : UInt8) (bs : Bytes) : leValue (b::bs) = b.toNat+256*leValue bs := rfl

theorem leValue_append (as bs : Bytes) : leValue (as++bs) = leValue as+256^as.length*leValue bs := by
  induction as with
  | nil => simp
  | cons a as ih =>
    rw [cons_append, leValue_cons, leValue_cons, ih, length_cons]
    ring

theorem leValue_lt : leValue bs < 256^bs.length := by
  induction bs with
  | nil => simp
  | cons b bs ih =>
    have hb := b.toNat_lt
    rw [leValue_cons, length_cons, pow_succ]
    omega

theorem leBytes_leValue : leBytes bs.length (leValue bs) = bs := by
  induction bs with
  | nil => rfl
  | cons b bs ih =>
    have hb := b.toNat_lt
    have hm : (b.toNat+256*leValue bs)%256 = b.toNat := by omega
    have hd : (b.toNat+256*leValue bs)/256 = leValue bs := by omega
    rw [leValue_cons, length_cons, leBytes, hm, hd, ih, UInt8.ofNat_toNat]

theorem fieldAt_behind (pre x : Bytes) (off w : ℕ) : fieldAt (pre++x)
    (pre.length+off) w = fieldAt x off w := by
  have hlen : pre.length+off+w ≤ (pre++x).length ↔ off+w ≤ x.length := by
    rw [length_append]
    omega
  rw [fieldAt, fieldAt, sliceAt, sliceAt]
  simp only [hlen, ← drop_drop, drop_left]

def fieldsBytes (fs : List (ℕ × ℕ)) : Bytes := fs.flatMap fun f => leBytes f.1 f.2

def fieldsWidth (fs : List (ℕ × ℕ)) : ℕ := (fs.map Prod.fst).sum

@[simp] theorem fieldsBytes_length (fs : List (ℕ × ℕ)) : (fieldsBytes fs).length = fieldsWidth fs := by
  simp [fieldsBytes, fieldsWidth, length_flatMap]

theorem fieldAt_fields (fs : List (ℕ × ℕ)) (post : Bytes) (i w n : ℕ) (hi : fs[i]? = some (w, n))
    (hn : n < 256^w) : fieldAt (fieldsBytes fs++post) (fieldsWidth (fs.take i)) w = some n := by
  induction fs generalizing i with
  | nil => simp at hi
  | cons f fs ih =>
    have hcons : fieldsBytes (f::fs)++post = leBytes f.1 f.2++(fieldsBytes fs++post) := by
      simp [fieldsBytes]
    rw [hcons]
    cases i with
    | zero =>
      have hf : f = (w, n) := by simpa using hi
      subst hf
      exact fieldAt_written [] _ w n hn
    | succ i =>
      have hw : fieldsWidth ((f::fs).take (i+1)) = (leBytes f.1 f.2).length+fieldsWidth (fs.take i) := by
        simp [fieldsWidth]
      rw [hw, fieldAt_behind]
      exact ih i hi

theorem read_words (w : ℕ) (vs : List ℕ) (hv : ∀ v ∈ vs, v < 256^w) (post : Bytes) :
    (List.range vs.length).map (fun i => leValue (((vs.flatMap (leBytes w)++post).drop (i*w)).take w)) =
    vs := by
  induction vs with
  | nil => rfl
  | cons v vs ih =>
    have hs : ∀ i, ((v::vs).flatMap (leBytes w)++post).drop ((i+1)*w) =
        (vs.flatMap (leBytes w)++post).drop (i*w) := by
      intro i
      rw [flatMap_cons, append_assoc, add_mul, one_mul, add_comm, ← drop_drop,
        drop_left' (leBytes_length w v)]
    rw [length_cons, range_succ_eq_map, map_cons, map_map]
    congr 1
    · rw [Nat.zero_mul, drop_zero, flatMap_cons, append_assoc,
        take_left' (leBytes_length w v), leValue_leBytes w v (hv v (by simp))]
    have hih := ih fun v' h => hv v' (by simp [h])
    conv_rhs => rw [← hih]
    apply map_congr_left
    intro i _
    simp only [Function.comp_apply, Nat.succ_eq_add_one, hs]

end QEngine.ByteFields

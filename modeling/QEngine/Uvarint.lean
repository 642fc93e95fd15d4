import QEngine.BitStream

/-!
# Variable-length integers and signs

Seven bits a byte, least significant group first, with the top bit of a byte saying
that another one follows. The reader refuses an eleventh byte. Signed values are
folded.
-/

namespace QEngine.Uvarint
open List ByteFields BitFields BitStream

theorem bind_ok {ε α β : Type} {x : Except ε α} {f : α → Except ε β} {c : β} (h : (x >>= f) = .ok c) :
    ∃ b, x = .ok b ∧ f b = .ok c := by
  cases x with
  | error e => cases h
  | ok b => exact ⟨b, rfl, h⟩

def writeUvarint : ℕ → Bytes → ℕ → ℕ → Except Rc Bytes
  | 0, out, _, _ => .ok out
  | k+1, out, cap, v =>
    if cap ≤ out.length then .error .overflow else
    let b := v &&& 0x7F
    let v := v >>> 7
    let out := out++[UInt8.ofNat (if v ≠ 0 then b ||| 0x80 else b)]
    if v = 0 then .ok out else writeUvarint k out cap v

def readUvarint : Bytes → ℕ → ℕ → Except Rc (ℕ × Bytes)
  | [], _, _ => .error .corrupt
  | b::bs, shift, result =>
    let result := result ||| ((b.toNat &&& 0x7F) <<< shift)%2^64
    if b.toNat &&& 0x80 = 0 then .ok (result, bs)
    else if 64 ≤ shift+7 then .error .corrupt
    else readUvarint bs (shift+7) result

def uvarint : ℕ → ℕ → Bytes
  | 0, _ => []
  | k+1, v =>
    if v/128 = 0 then [UInt8.ofNat (v%128)] else UInt8.ofNat (v%128+128)::uvarint k (v/128)

theorem uvarint_length (k v : ℕ) : (uvarint k v).length ≤ k := by
  induction k generalizing v with
  | zero => simp [uvarint]
  | succ k ih =>
    rw [uvarint]
    split
    · simp
    have := ih (v/128)
    simp only [length_cons]
    omega

variable (v : ℕ)

theorem group_value : v &&& 0x7F = v%128 := Nat.and_two_pow_sub_one_eq_mod v 7

theorem group_continued : v%128 ||| 0x80 = v%128+128 := by
  have h := or_shift 7 _ 1 (Nat.mod_lt v (by decide))
  simpa using h

theorem rest_lt {k v : ℕ} (hk : v < 128^(k+1)) (hz : v/128 ≠ 0) : v/128 < 128^k ∧ 0 < k := by
  refine ⟨?_, ?_⟩
  · rw [Nat.div_lt_iff_lt_mul (by decide), ← pow_succ]
    exact hk
  · by_contra hn
    have hk0 : k = 0 := by omega
    subst hk0
    omega

theorem writeUvarint_eq (k : ℕ) (out : Bytes) (cap v : ℕ) (h0 : 0 < k) (hk : v < 128^k) :
    writeUvarint k out cap v =
      if out.length+(uvarint k v).length ≤ cap then .ok (out++uvarint k v) else .error .overflow := by
  induction k generalizing out v with
  | zero => omega
  | succ k ih =>
    rw [writeUvarint, uvarint, group_value, Nat.shiftRight_eq_div_pow]
    dsimp only
    rw [group_continued]
    by_cases hz : v/128 = 0
    · simp only [show (2:ℕ)^7 = 128 from rfl, hz, ne_eq, not_true_eq_false, if_false, if_true,
        length_singleton]
      split_ifs <;> first | rfl | omega
    obtain ⟨hq, h0'⟩ := rest_lt hk hz
    have hi := ih (out++[UInt8.ofNat (v%128+128)]) (v/128) h0' hq
    have hne : 0 < (uvarint k (v/128)).length := by
      obtain ⟨j, rfl⟩ := Nat.exists_eq_succ_of_ne_zero (by omega : k ≠ 0)
      rw [uvarint]
      split <;> simp
    simp only [show (2:ℕ)^7 = 128 from rfl, hz, ne_eq, not_false_eq_true, if_false, if_true, hi,
      length_append, length_cons, length_nil, append_assoc, singleton_append]
    split_ifs <;> first | rfl | omega

theorem byte_low (h : v < 256) : (UInt8.ofNat v).toNat = v := by
  rw [UInt8.toNat_ofNat']
  exact Nat.mod_eq_of_lt h

theorem continuation {b : ℕ} (h : b < 256) : b &&& 0x80 = 0 ↔ b < 128 := by
  have hall : ∀ i : Fin 256, i.val &&& 0x80 = 0 ↔ i.val < 128 := by decide +kernel
  exact hall ⟨b, h⟩

theorem readUvarint_uvarint (k v shift result : ℕ) (post : Bytes) (h0 : 0 < k) (hk : v < 128^k)
    (hr : result < 2^shift) (hv : v*2^shift < 2^64) :
    readUvarint (uvarint k v++post) shift result = .ok (result+v*2^shift, post) := by
  induction k generalizing v shift result with
  | zero => omega
  | succ k ih =>
    have hor : ∀ g, g ≤ v → result ||| (g <<< shift)%2^64 = result+2^shift*g := by
      intro g hg
      have hlt : g <<< shift < 2^64 := by
        rw [Nat.shiftLeft_eq]
        exact lt_of_le_of_lt (Nat.mul_le_mul_right _ hg) hv
      rw [Nat.mod_eq_of_lt hlt, or_shift _ _ _ hr]
    have hg : v%128 ≤ v := Nat.mod_le _ _
    rw [uvarint]
    by_cases hz : v/128 = 0
    · have hb := byte_low (v%128) (by omega)
      have hsame : v%128%128 = v := by omega
      rw [if_pos hz, singleton_append, readUvarint, hb, group_value, hsame]
      rw [if_pos ((continuation (by omega)).mpr (by omega)), hor v le_rfl, mul_comm]
    have hb := byte_low (v%128+128) (by omega)
    have hsame : (v%128+128)%128 = v%128 := by omega
    obtain ⟨hq, h0'⟩ := rest_lt hk hz
    have hsh : shift+7 < 64 := by
      by_contra hn
      have h128 : 128*2^shift ≤ v*2^shift := Nat.mul_le_mul_right _ (by omega)
      have h64 : (2:ℕ)^64 ≤ 2^(shift+7) := Nat.pow_le_pow_right (by decide) (by omega)
      have h7 : (2:ℕ)^(shift+7) = 128*2^shift := by rw [pow_add]; ring
      omega
    have hsplit : v*2^shift = v%128*2^shift+v/128*2^(shift+7) := by
      have hv := Nat.mod_add_div v 128
      calc v*2^shift = (v%128+128*(v/128))*2^shift := by rw [hv]
        _ = _ := by rw [pow_add]; ring
    have hlow : result+2^shift*(v%128) < 2^(shift+7) := by
      have hm := Nat.mod_lt v (by decide : 0 < 128)
      calc result+2^shift*(v%128) < 2^shift*(v%128+1) := by rw [mul_add]; omega
        _ ≤ 2^shift*2^7 := Nat.mul_le_mul_left _ hm
        _ = 2^(shift+7) := (pow_add _ _ _).symm
    rw [if_neg hz, cons_append, readUvarint, hb, group_value, hsame]
    rw [if_neg (by rw [continuation (by omega)]; omega), if_neg (by omega), hor _ hg,
      ih (v/128) (shift+7) _ h0' hq hlow (by omega), hsplit]
    congr 2
    ring

/-- A 64-bit value; signed where the source has `int64_t`. -/
abbrev Word := BitVec 64

def zigzagEnc (v : Word) : Word := (v <<< 1) ^^^ v.sshiftRight 63

def zigzagDec (v : Word) : Word := (v >>> 1) ^^^ (-(v &&& 1))

variable (v : Word)

theorem sign_fill : v.sshiftRight 63 = bif v.msb then BitVec.allOnes 64 else 0#64 := by
  apply BitVec.eq_of_getLsbD_eq
  intro i hi
  rw [BitVec.getLsbD_sshiftRight]
  by_cases h0 : i = 0
  · subst h0
    cases hm : v.msb <;> simpa [BitVec.msb_eq_getLsbD_last] using hm
  have hn : ¬63+i < 64 := by omega
  cases hm : v.msb
  · simp [hn]
  · rw [cond_true, BitVec.getLsbD_allOnes]
    simp [hn, hi]

theorem zigzagEnc_toNat : ((zigzagEnc v).toNat : ℤ) = if v.toInt < 0 then -2*v.toInt-1 else 2*v.toInt := by
  have hlt := v.isLt
  have hi := BitVec.toInt_eq_msb_cond v
  rw [zigzagEnc, sign_fill]
  cases hm : v.msb with
  | false =>
    have hs := BitVec.msb_eq_false_iff_two_mul_lt.mp hm
    simp only [hm, Bool.false_eq_true, if_false] at hi
    rw [hi, if_neg (by omega), cond_false, BitVec.xor_zero, BitVec.toNat_shiftLeft, Nat.shiftLeft_eq]
    omega
  | true =>
    have hs := BitVec.msb_eq_true_iff_two_mul_ge.mp hm
    simp only [hm, if_true] at hi
    rw [hi, if_pos (by omega), cond_true, BitVec.xor_allOnes, BitVec.toNat_not, BitVec.toNat_shiftLeft,
      Nat.shiftLeft_eq]
    omega

theorem zigzagDec_toNat : (zigzagDec v).toNat = if v.toNat%2 = 0 then v.toNat/2 else 2^64-1-v.toNat/2 := by
  have hlow : (v &&& 1).toNat = v.toNat%2 := by
    rw [BitVec.toNat_and]
    exact Nat.and_two_pow_sub_one_eq_mod v.toNat 1
  rw [zigzagDec]
  split
  · rename_i he
    have hz : v &&& 1 = 0#64 := BitVec.eq_of_toNat_eq (by rw [hlow, he]; rfl)
    rw [hz, BitVec.neg_zero, BitVec.xor_zero, BitVec.toNat_ushiftRight, Nat.shiftRight_eq_div_pow]
  rename_i ho
  have hone : v &&& 1 = 1#64 := BitVec.eq_of_toNat_eq (by rw [hlow]; simp; omega)
  have hneg : -(1#64) = BitVec.allOnes 64 := by decide
  rw [hone, hneg, BitVec.xor_allOnes, BitVec.toNat_not, BitVec.toNat_ushiftRight,
    Nat.shiftRight_eq_div_pow]

theorem zigzag_dec_enc : zigzagDec (zigzagEnc v) = v := by
  apply BitVec.eq_of_toNat_eq
  have hlt := v.isLt
  have he := zigzagEnc_toNat v
  have hi := BitVec.toInt_eq_toNat_cond v
  rw [zigzagDec_toNat]
  split_ifs at he hi ⊢ <;> omega

theorem first_value (x : Word) (post : Bytes) : ((leBytes 8 x.toNat++post).take 8 = leBytes 8 x.toNat) ∧
    ((leBytes 8 x.toNat++post).drop 8 = post) ∧ 8 ≤ (leBytes 8 x.toNat++post).length ∧
    BitVec.ofNat 64 (leValue (leBytes 8 x.toNat)) = x := by
  have hl := leBytes_length 8 x.toNat
  refine ⟨take_left' hl, drop_left' hl, by simp, ?_⟩
  rw [leValue_leBytes 8 _ (lt_of_lt_of_le x.isLt (by decide)), BitVec.ofNat_toNat,
    BitVec.setWidth_eq]

end QEngine.Uvarint

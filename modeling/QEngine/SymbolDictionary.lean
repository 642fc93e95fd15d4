import QEngine.Uvarint

/-!
# The symbol codec

Symbol ids are stored as the number of values, the first id and the folded differences
of the rest, each a variable-length integer.
-/

namespace QEngine.SymbolDictionary
open List ByteFields BitStream Uvarint

abbrev Symbol := BitVec 32

def foldFirst (x : Symbol) : Word := (x.setWidth 64 <<< 1) ^^^ (x.signExtend 64).sshiftRight 63

def foldDelta (delta : ℤ) : ℕ := if 0 ≤ delta then (delta*2).toNat else (-delta*2-1).toNat

def dictPutAll (cap : ℕ) : Bytes → Symbol → List Symbol → Except Rc Bytes
  | out, _, [] => .ok out
  | out, prev, x::xs => do
    let out ← writeUvarint 10 out cap (foldDelta (x.toInt-prev.toInt))
    dictPutAll cap out x xs

def dictEncode (xs : List Symbol) (cap : ℕ) : Except Rc Bytes :=
  match xs with
  | [] => .ok []
  | x::xs => do
    let out ← writeUvarint 10 [] cap ((xs.length+1)%2^64)
    let out ← writeUvarint 10 out cap (foldFirst x).toNat
    dictPutAll cap out x xs

def unfoldDelta (encoded : Word) : Word :=
  if encoded &&& 1 ≠ 0 then -((encoded+1) >>> 1) else encoded >>> 1

def dictValues : ℕ → Word → Bytes → Except Rc (List Symbol)
  | 0, _, _ => .ok []
  | n+1, prev, bs => do
    let (encoded, bs) ← readUvarint bs 0 0
    let cur := prev+unfoldDelta (BitVec.ofNat 64 encoded)
    let xs ← dictValues n cur bs
    pure (cur.setWidth 32::xs)

def dictSums : ℕ → Word → Bytes → Except Rc (List (Word × Word))
  | 0, _, _ => .ok []
  | n+1, prev, bs => do
    let (encoded, bs) ← readUvarint bs 0 0
    let delta := unfoldDelta (BitVec.ofNat 64 encoded)
    let sums ← dictSums n (prev+delta) bs
    pure ((prev, delta)::sums)

def dictDecode (bs : Bytes) (n : ℕ) : Except Rc (List Symbol) :=
  if n = 0 then .ok [] else do
  let (stored, bs) ← readUvarint bs 0 0
  if stored ≠ n then .error .corrupt else do
  let (zz, bs) ← readUvarint bs 0 0
  let v0 := zigzagDec (BitVec.ofNat 64 zz)
  let xs ← dictValues (n-1) v0 bs
  pure (v0.setWidth 32::xs)

def dictDecodeSums (bs : Bytes) (n : ℕ) : Except Rc (List (Word × Word)) :=
  if n = 0 then .ok [] else do
  let (stored, bs) ← readUvarint bs 0 0
  if stored ≠ n then .error .corrupt else do
  let (zz, bs) ← readUvarint bs 0 0
  dictSums (n-1) (zigzagDec (BitVec.ofNat 64 zz)) bs

theorem signExtend_fill (x : Symbol) :
    (x.signExtend 64).sshiftRight 63 = bif x.msb then BitVec.allOnes 64 else 0#64 := by
  rw [sign_fill, BitVec.msb_signExtend]
  rfl

theorem first_toNat (x : Symbol) :
    (zigzagDec (foldFirst x)).toNat = x.toNat+(bif x.msb then 2^63 else 0) := by
  have hx := x.isLt
  have hd : (x.setWidth 64 <<< 1).toNat = x.toNat*2 := by
    rw [BitVec.toNat_shiftLeft, BitVec.toNat_setWidth, Nat.mod_eq_of_lt (by omega), Nat.shiftLeft_eq]
    omega
  rw [zigzagDec_toNat, foldFirst, signExtend_fill]
  cases x.msb with
  | false =>
    simp only [cond_false, BitVec.xor_zero, hd]
    rw [if_pos (by omega)]
    omega
  | true =>
    have hn : ((x.setWidth 64 <<< 1) ^^^ BitVec.allOnes 64).toNat = 2^64-1-x.toNat*2 := by
      rw [BitVec.xor_allOnes, BitVec.toNat_not, hd]
    simp only [cond_true, hn]
    rw [if_neg (by omega)]
    omega

theorem first_back (x : Symbol) : (zigzagDec (foldFirst x)).setWidth 32 = x := by
  apply BitVec.eq_of_toNat_eq
  have hx := x.isLt
  rw [BitVec.toNat_setWidth, first_toNat]
  cases x.msb <;> simp <;> omega

theorem delta_range (x y : Symbol) : -2^33 < x.toInt-y.toInt ∧ x.toInt-y.toInt < 2^33 := by
  have hx := x.toInt_lt
  have hx2 := x.le_toInt
  have hy := y.toInt_lt
  have hy2 := y.le_toInt
  omega

theorem foldDelta_lt {d : ℤ} (h1 : -2^33 < d) (h2 : d < 2^33) : foldDelta d < 2^64 := by
  rw [foldDelta]
  split_ifs <;> omega

theorem unfold_foldDelta {d : ℤ} (h1 : -2^33 < d) (h2 : d < 2^33) :
    unfoldDelta (BitVec.ofNat 64 (foldDelta d)) = BitVec.ofInt 64 d := by
  have hodd : ∀ e : Word, (e &&& 1 ≠ 0) ↔ e.toNat%2 = 1 := by
    intro e
    have hlow : (e &&& 1).toNat = e.toNat%2 := by
      rw [BitVec.toNat_and]
      exact Nat.and_two_pow_sub_one_eq_mod e.toNat 1
    rw [ne_eq, ← BitVec.toNat_inj, hlow]
    have : (0 : Word).toNat = 0 := rfl
    omega
  have he := foldDelta_lt h1 h2
  have hn : (BitVec.ofNat 64 (foldDelta d)).toNat = foldDelta d := by
    rw [BitVec.toNat_ofNat]
    exact Nat.mod_eq_of_lt he
  by_cases h0 : 0 ≤ d
  · obtain ⟨m, rfl⟩ := Int.eq_ofNat_of_zero_le h0
    have hf : foldDelta m = m*2 := by
      rw [foldDelta, if_pos h0]
      omega
    rw [hf] at hn ⊢
    rw [unfoldDelta, if_neg (by rw [hodd, hn]; omega)]
    apply BitVec.eq_of_toNat_eq
    rw [BitVec.toNat_ushiftRight, hn, Nat.shiftRight_eq_div_pow]
    simp
    omega
  obtain ⟨m, rfl⟩ : ∃ m : ℕ, d = -m := ⟨(-d).toNat, by omega⟩
  have hf : foldDelta (-m) = m*2-1 := by
    rw [foldDelta, if_neg h0]
    omega
  rw [hf] at hn ⊢
  have hhalf : (BitVec.ofNat 64 (m*2-1)+1) >>> 1 = BitVec.ofNat 64 m := by
    apply BitVec.eq_of_toNat_eq
    rw [BitVec.toNat_ushiftRight, BitVec.toNat_add, hn, Nat.shiftRight_eq_div_pow, BitVec.toNat_ofNat]
    have : (1 : Word).toNat = 1 := rfl
    omega
  rw [unfoldDelta, if_pos (by rw [hodd, hn]; omega), hhalf, BitVec.ofInt_neg, BitVec.ofInt_natCast]

theorem ten_bytes {v : ℕ} (h : v < 2^64) : v < 128^10 := by
  have : (128:ℕ)^10 = 2^70 := by norm_num
  omega

theorem read_written {v : ℕ} (post : Bytes) (h : v < 2^64) :
    readUvarint (uvarint 10 v++post) 0 0 = .ok (v, post) := by
  have hr := readUvarint_uvarint 10 v 0 0 post (by decide) (ten_bytes h) (by simp) (by omega)
  rw [hr, Nat.pow_zero, Nat.mul_one, Nat.zero_add]

theorem write_ok (out : Bytes) (cap v : ℕ) (res : Bytes) (hv : v < 2^64)
    (h : writeUvarint 10 out cap v = .ok res) : res = out++uvarint 10 v := by
  rw [writeUvarint_eq 10 out cap v (by decide) (ten_bytes hv)] at h
  split_ifs at h
  exact (Except.ok.inj h).symm

theorem uvarint_pos (v : ℕ) : 1 ≤ (uvarint 10 v).length := by
  rw [uvarint]
  split_ifs <;> simp

theorem delta_back (prev : Word) (y x : Symbol) (h : prev.setWidth 32 = y) :
    (prev+unfoldDelta (BitVec.ofNat 64 (foldDelta (x.toInt-y.toInt)))).setWidth 32 = x := by
  obtain ⟨h1, h2⟩ := delta_range x y
  rw [unfold_foldDelta h1 h2, BitVec.setWidth_add _ _ (by decide), h]
  have hw : (BitVec.ofInt 64 (x.toInt-y.toInt)).setWidth 32 = BitVec.ofInt 32 (x.toInt-y.toInt) := by
    apply BitVec.eq_of_toNat_eq
    rw [BitVec.toNat_setWidth, BitVec.toNat_ofInt, BitVec.toNat_ofInt]
    omega
  rw [hw, sub_eq_add_neg, BitVec.ofInt_add, BitVec.ofInt_neg, BitVec.ofInt_toInt, BitVec.ofInt_toInt]
  rw [BitVec.add_comm x, ← BitVec.add_assoc, BitVec.add_right_neg, BitVec.zero_add]

def Roomy (prev : Word) (y : Symbol) : Prop :=
  -2^63+2^31 ≤ prev.toInt-y.toInt ∧ prev.toInt-y.toInt ≤ 2^63-2^31

theorem first_roomy (x : Symbol) : Roomy (zigzagDec (foldFirst x)) x := by
  have hx := x.isLt
  have hv := first_toNat x
  rw [Roomy, BitVec.toInt_eq_toNat_cond _, BitVec.toInt_eq_msb_cond x, hv]
  cases x.msb <;> simp <;> omega

theorem delta_roomy (prev : Word) (y x : Symbol) (h : Roomy prev y) :
    prev.saddOverflow (unfoldDelta (BitVec.ofNat 64 (foldDelta (x.toInt-y.toInt)))) = false ∧
      Roomy (prev+unfoldDelta (BitVec.ofNat 64 (foldDelta (x.toInt-y.toInt)))) x := by
  obtain ⟨h1, h2⟩ := delta_range x y
  obtain ⟨hlo, hhi⟩ := h
  have hx := x.toInt_lt
  have hx2 := x.le_toInt
  rw [unfold_foldDelta h1 h2]
  have hd : (BitVec.ofInt 64 (x.toInt-y.toInt)).toInt = x.toInt-y.toInt := by
    rw [BitVec.toInt_ofInt]
    exact Int.bmod_eq_of_le (by omega) (by omega)
  have hs : (prev+BitVec.ofInt 64 (x.toInt-y.toInt)).toInt = prev.toInt+(x.toInt-y.toInt) := by
    rw [BitVec.toInt_add, hd]
    exact Int.bmod_eq_of_le (by omega) (by omega)
  constructor
  · rw [BitVec.saddOverflow, hd]
    simp
    omega
  · rw [Roomy, hs]
    omega

theorem dictPutAll_read (cap : ℕ) (xs : List Symbol) (out res : Bytes) (y : Symbol)
    (h : dictPutAll cap out y xs = .ok res) : ∃ body, res = out++body ∧ xs.length ≤ body.length ∧
      (∀ prev : Word, prev.setWidth 32 = y → dictValues xs.length prev body = .ok xs) ∧ ∀ prev, Roomy prev y →
        ∃ sums, dictSums xs.length prev body = .ok sums ∧ ∀ p ∈ sums, p.1.saddOverflow p.2 = false := by
  induction xs generalizing out y with
  | nil =>
    refine ⟨[], ?_, le_refl _, fun _ _ => rfl, fun _ _ => ⟨[], rfl, forall_mem_nil _⟩⟩
    rw [append_nil]
    exact (Except.ok.inj h).symm
  | cons x xs ih =>
    obtain ⟨h1, h2⟩ := delta_range x y
    have hv := foldDelta_lt h1 h2
    rw [dictPutAll] at h
    obtain ⟨mid, hw, h⟩ := bind_ok h
    obtain ⟨body, rfl, hlen, hread, hsums⟩ := ih mid x h
    have hmid := write_ok out cap _ mid hv hw
    have hpos := uvarint_pos (foldDelta (x.toInt-y.toInt))
    refine ⟨uvarint 10 (foldDelta (x.toInt-y.toInt))++body, ?_, ?_, ?_, ?_⟩
    · rw [hmid, append_assoc]
    · rw [length_append, length_cons]
      omega
    · intro prev hp
      have hback := delta_back _ y x hp
      rw [length_cons, dictValues, read_written _ hv]
      simp only [bind, Except.bind, hread _ hback, hback]
      rfl
    · intro prev hp
      obtain ⟨hfit, hnext⟩ := delta_roomy _ y x hp
      obtain ⟨sums, hs, hall⟩ := hsums _ hnext
      refine ⟨(prev, _)::sums, ?_, forall_mem_cons.mpr ⟨hfit, hall⟩⟩
      rw [length_cons, dictSums, read_written _ hv]
      simp only [bind, Except.bind, hs]
      rfl

variable {xs : List Symbol}

theorem dictEncode_read {x : Symbol} {cap : ℕ} {bs : Bytes} (hl : bs.length < 2^64)
    (h : dictEncode (x::xs) cap = .ok bs) : ∃ rest body, readUvarint bs 0 0 = .ok (xs.length+1, rest) ∧
      readUvarint rest 0 0 = .ok ((foldFirst x).toNat, body) ∧
      dictValues xs.length (zigzagDec (foldFirst x)) body = .ok xs ∧
      ∃ sums, dictSums xs.length (zigzagDec (foldFirst x)) body = .ok sums ∧
        ∀ p ∈ sums, p.1.saddOverflow p.2 = false := by
  rw [dictEncode] at h
  have hn : (xs.length+1)%2^64 < 2^64 := Nat.mod_lt _ (by decide)
  obtain ⟨out1, h1, h⟩ := bind_ok h
  obtain ⟨out2, h2, h⟩ := bind_ok h
  obtain ⟨body, rfl, hlen, hread, hsums⟩ := dictPutAll_read cap xs _ bs x h
  have ho2 := write_ok _ cap _ _ (foldFirst x).isLt h2
  have ho1 := write_ok [] cap _ _ hn h1
  have hpos := uvarint_pos (foldFirst x).toNat
  have hcount : (xs.length+1)%2^64 = xs.length+1 := by
    rw [length_append, ho2, length_append] at hl
    exact Nat.mod_eq_of_lt (by omega)
  refine ⟨_, body, ?_, read_written _ (foldFirst x).isLt, hread _ (first_back x), hsums _ (first_roomy x)⟩
  rw [ho2, ho1, nil_append, append_assoc, read_written _ hn, hcount]

theorem dictDecode_written {cap : ℕ} {bs : Bytes} (hl : bs.length < 2^64)
    (h : dictEncode xs cap = .ok bs) : dictDecode bs xs.length = .ok xs := by
  cases xs with
  | nil => rfl
  | cons x xs =>
    obtain ⟨rest, body, h1, h2, hread, -⟩ := dictEncode_read hl h
    rw [dictDecode, if_neg (by simp), h1]
    simp only [bind, Except.bind, length_cons]
    rw [if_neg (by simp), h2]
    simp only [BitVec.ofNat_toNat, BitVec.setWidth_eq, Nat.add_sub_cancel, hread, first_back]
    rfl

/-- What was written is read back, and no addition of the decoder overflows on it. -/
theorem dict_round_trip (xs : List Symbol) (cap : ℕ) (bs : Bytes) (hl : bs.length < 2^64)
    (h : dictEncode xs cap = .ok bs) : dictDecode bs xs.length = .ok xs ∧
      ∃ sums, dictDecodeSums bs xs.length = .ok sums ∧ ∀ p ∈ sums, p.1.saddOverflow p.2 = false := by
  refine ⟨dictDecode_written hl h, ?_⟩
  cases xs with
  | nil => exact ⟨[], rfl, forall_mem_nil _⟩
  | cons x xs =>
    obtain ⟨rest, body, h1, h2, -, sums, hs, hall⟩ := dictEncode_read hl h
    refine ⟨sums, ?_, hall⟩
    rw [dictDecodeSums, if_neg (by simp), h1]
    simp only [bind, Except.bind, length_cons]
    rw [if_neg (by simp), h2]
    simp only [BitVec.ofNat_toNat, BitVec.setWidth_eq, Nat.add_sub_cancel, hs]

theorem dict_round_trip_minus_one :
    dictDecode [2, 129, 128, 128, 128, 224, 255, 255, 255, 255, 1, 2] 2 = .ok [0xFFFFFFFF#32, 0#32] ∧
      ∃ sums, dictDecodeSums [2, 129, 128, 128, 128, 224, 255, 255, 255, 255, 1, 2] 2 = .ok sums ∧
        ∀ p ∈ sums, p.1.saddOverflow p.2 = false :=
  dict_round_trip [0xFFFFFFFF#32, 0#32] 64 _ (by decide) (by decide)

end QEngine.SymbolDictionary

import QEngine.BitCodes
import QEngine.Uvarint

/-!
# Delta-of-delta coding of 64-bit integers

The first value is stored raw, the first difference as a variable-length integer, and
every further value by the change of its difference, in one of five prefix codes. The
widest code holds a change of 32 bits; a larger one makes the encoder give up.
-/

namespace QEngine.DeltaOfDelta
open List ByteFields BitFields BitStream BitCodes Uvarint

def dodPuts (D : Word) : Except Rc (List Field) :=
  let d := D.toInt
  if d = 0 then .ok [(0, 1)]
  else if -63 ≤ d ∧ d ≤ 64 then .ok [(1, 2), ((D+63).toNat, 7)]
  else if -255 ≤ d ∧ d ≤ 256 then .ok [(3, 3), ((D+255).toNat, 9)]
  else if -2047 ≤ d ∧ d ≤ 2048 then .ok [(7, 4), ((D+2047).toNat, 12)]
  else if d < -0x80000000 ∨ 0x7FFFFFFF < d then .error .overflow
  else .ok [(15, 4), ((zigzagEnc D &&& 0xFFFFFFFF).toNat, 32)]

def dodPutAll : BitWriter → Word → Word → List Word → Except Rc BitWriter
  | w, _, _, [] => .ok w
  | w, prev, prevDelta, x::xs => do
    let delta := x-prev
    let fs ← dodPuts (delta-prevDelta)
    dodPutAll (w.puts fs) x delta xs

def dodEncode (xs : List Word) (cap : ℕ) : Except Rc Bytes :=
  match xs with
  | [] => .ok []
  | x0::xs =>
    if cap < 1 then .error .overflow else
    if cap < 8 then .error .overflow else
    let out := leBytes 8 x0.toNat
    match xs with
    | [] => .ok out
    | x1::xs => do
      let delta1 := x1-x0
      let out ← writeUvarint 10 out cap (zigzagEnc delta1).toNat
      if xs = [] then .ok out else do
      let w ← dodPutAll (BitWriter.init (cap-out.length)) x1 delta1 xs
      match w.finish with
      | none => .error .overflow
      | some bits => .ok (out++bits)

structure Decoded where
  values : List Word
  pos : ℕ
  asked : List ℕ
  deriving DecidableEq

def dodCode : Decode Word := do
  let b0 ← get 1
  if b0 = 0 then pure 0 else do
  let b1 ← get 1
  if b1 = 0 then do
    let stored ← get 7
    pure (BitVec.ofNat 64 stored-63)
  else do
  let b2 ← get 1
  if b2 = 0 then do
    let stored ← get 9
    pure (BitVec.ofNat 64 stored-255)
  else do
  let b3 ← get 1
  if b3 = 0 then do
    let stored ← get 12
    pure (BitVec.ofNat 64 stored-2047)
  else do
    let raw ← get 32
    pure (zigzagDec (BitVec.ofNat 64 raw))

def dodValues : ℕ → Word → Word → Decode (List Word)
  | 0, _, _ => pure []
  | n+1, prev, prevDelta => do
    let D ← dodCode
    check
    let delta := prevDelta+D
    let x := prev+delta
    let xs ← dodValues n x delta
    pure (x::xs)

def dodDecode (bs : Bytes) (n : ℕ) : Except Rc Decoded :=
  if n = 0 then .ok ⟨[], 0, []⟩ else
  if bs.length < 8 then .error .corrupt else
  let v0 := BitVec.ofNat 64 (leValue (bs.take 8))
  if n = 1 then .ok ⟨[v0], 8, []⟩ else do
  let (zz1, rest) ← readUvarint (bs.drop 8) 0 0
  let delta1 := zigzagDec (BitVec.ofNat 64 zz1)
  let v1 := v0+delta1
  if n = 2 then .ok ⟨[v0, v1], bs.length-rest.length, []⟩ else do
  let (xs, r) ← (dodValues (n-2) v1 delta1).run (BitReader.init rest)
  .ok ⟨v0::v1::xs, bs.length-rest.length, r.asked.reverse⟩

def deltaOfDeltas : List Word → List Word
  | a::b::c::xs => ((c-b)-(b-a))::deltaOfDeltas (b::c::xs)
  | _ => []

def Codable (D : Word) : Prop := -2^31 ≤ D.toInt ∧ D.toInt ≤ 2^31-1

instance (D : Word) : Decidable (Codable D) := inferInstanceAs (Decidable (_ ∧ _))

theorem yields_biased (D : Word) (b n : ℕ) (hb : b < 2^31) (hlo : -(b:ℤ) ≤ D.toInt)
    (hhi : D.toInt+b < 2^n) (hn : n ≤ 32) :
    Yields (get n >>= fun stored => pure (BitVec.ofNat 64 stored-BitVec.ofNat 64 b))
      [((D+BitVec.ofNat 64 b).toNat, n)] D := by
  have hlt := D.isLt
  have hi := BitVec.toInt_eq_toNat_cond D
  have hsum : ((D+BitVec.ofNat 64 b).toNat : ℤ) = D.toInt+b := by
    rw [BitVec.toNat_add, BitVec.toNat_ofNat]
    split_ifs at hi <;> omega
  have hfit : (D+BitVec.ofNat 64 b).toNat < 2^n := by
    rw [← hsum] at hhi
    exact_mod_cast hhi
  refine yields_bind _ _ [_] [] _ _ (yields_get _ n hn hfit) ?_
  rw [BitVec.ofNat_toNat, BitVec.setWidth_eq, BitVec.add_sub_cancel]
  exact yields_pure D

theorem dodPuts_spec (D : Word) : (¬Codable D ∧ dodPuts D = .error .overflow) ∨
    ∃ fs, Codable D ∧ dodPuts D = .ok fs ∧ (∀ f ∈ fs, f.2 < 64) ∧ width fs ≤ 36 ∧ Yields dodCode fs D := by
  unfold dodPuts
  dsimp only
  split_ifs with h0 h1 h2 h3 h4
  · have hD : D = 0 := BitVec.eq_of_toInt_eq (by simpa using h0)
    refine .inr ⟨_, by rw [Codable, h0]; decide, rfl, by simp, by simp, ?_⟩
    rw [hD]
    exact yields_bind _ _ [(0, 1)] [] 0 _ (yields_get 0 1 (by decide) (by decide)) (yields_pure 0)
  · refine .inr ⟨_, by rw [Codable]; omega, rfl, by simp, by simp, ?_⟩
    refine yields_bit 1 1 (yields_bind _ _ [(0, 1)] _ 0 _ (yields_get 0 1 (by decide) (by decide)) ?_)
    exact yields_biased D 63 7 (by decide) (by omega) (by omega) (by decide)
  · refine .inr ⟨_, by rw [Codable]; omega, rfl, by simp, by simp, ?_⟩
    refine yields_bit 3 2 (yields_bit 1 1 (yields_bind _ _ [(0, 1)] _ 0 _
      (yields_get 0 1 (by decide) (by decide)) ?_))
    exact yields_biased D 255 9 (by decide) (by omega) (by omega) (by decide)
  · refine .inr ⟨_, by rw [Codable]; omega, rfl, by simp, by simp, ?_⟩
    refine yields_bit 7 3 (yields_bit 3 2 (yields_bit 1 1
      (yields_bind _ _ [(0, 1)] _ 0 _ (yields_get 0 1 (by decide) (by decide)) ?_)))
    exact yields_biased D 2047 12 (by decide) (by omega) (by omega) (by decide)
  · exact .inl ⟨by rw [Codable]; omega, rfl⟩
  · have hzz : (zigzagEnc D).toNat < 2^32 := by
      have he := zigzagEnc_toNat D
      split_ifs at he <;> omega
    have hmask : (zigzagEnc D &&& 0xFFFFFFFF).toNat = (zigzagEnc D).toNat := by
      rw [BitVec.toNat_and]
      exact (Nat.and_two_pow_sub_one_eq_mod _ 32).trans (Nat.mod_eq_of_lt hzz)
    refine .inr ⟨_, by rw [Codable]; omega, rfl, by simp, by simp, ?_⟩
    rw [hmask]
    refine yields_bit 15 3 (yields_bit 7 2 (yields_bit 3 1
      (yields_bind _ _ [(1, 1)] _ 1 _ (yields_get 1 1 (by decide) (by decide)) ?_)))
    refine yields_bind _ _ [_] [] _ _ (yields_get _ 32 (by decide) hzz) ?_
    rw [BitVec.ofNat_toNat, BitVec.setWidth_eq, zigzag_dec_enc]
    exact yields_pure D

variable (xs : List Word)

/-- Either every change can be coded and the decoder gets the values back, or the encoder stops at
one that cannot. -/
theorem dodPutAll_spec (w : BitWriter) (a b : Word) :
    ((∃ D ∈ deltaOfDeltas (a::b::xs), ¬Codable D) ∧ dodPutAll w b (b-a) xs = .error .overflow) ∨
    ∃ fs, (∀ D ∈ deltaOfDeltas (a::b::xs), Codable D) ∧ dodPutAll w b (b-a) xs = .ok (w.puts fs) ∧
      (∀ f ∈ fs, f.2 < 64) ∧ width fs ≤ 36*xs.length ∧ Yields (dodValues xs.length b (b-a)) fs xs := by
  induction xs generalizing w a b with
  | nil => exact .inr ⟨[], by simp [deltaOfDeltas], rfl, by simp, by simp, yields_pure []⟩
  | cons x xs ih =>
    rw [dodPutAll, deltaOfDeltas]
    rcases dodPuts_spec _ with ⟨hn, he⟩ | ⟨fs, hc, he, hf, hw, hy⟩
    · rw [he]
      exact .inl ⟨⟨_, by simp, hn⟩, rfl⟩
    rw [he]
    change (_ ∧ dodPutAll (w.puts fs) x (x-b) xs = _) ∨ ∃ gs, _ ∧ dodPutAll (w.puts fs) x (x-b) xs = _ ∧ _
    rcases ih (w.puts fs) b x with ⟨⟨D, hD, hn⟩, he'⟩ | ⟨gs, hc', he', hg, hw', hy'⟩
    · exact .inl ⟨⟨D, by simp [hD], hn⟩, he'⟩
    refine .inr ⟨fs++gs, ?_, ?_, ?_, ?_, ?_⟩
    · intro D hD
      rcases mem_cons.mp hD with rfl | hD
      · exact hc
      · exact hc' D hD
    · rw [he', BitWriter.puts, BitWriter.puts, BitWriter.puts, foldl_append]
    · intro f hf'
      rcases mem_append.mp hf' with h | h
      · exact hf f h
      · exact hg f h
    · rw [width_append, length_cons]
      omega
    · have hd : (b-a)+((x-b)-(b-a)) = x-b := by bv_omega
      have hx : b+(x-b) = x := by bv_omega
      refine yields_bind _ _ fs gs _ _ hy (yields_bind _ _ [] gs _ _ yields_check ?_)
      dsimp only
      rw [hd, hx]
      have hlast := yields_bind _ (fun ys => pure (x::ys)) gs [] _ _ hy' (yields_pure _)
      rwa [append_nil] at hlast

theorem zigzag_ten {v : Word} : (zigzagEnc v).toNat < 128^10 :=
  lt_trans (zigzagEnc v).isLt (by decide)

variable (x0 x1 : Word)

theorem dodDecode_parts (n : ℕ) (bits : Bytes) :
    dodDecode (leBytes 8 x0.toNat++(uvarint 10 (zigzagEnc (x1-x0)).toNat++bits)) (n+2) =
      if n = 0 then .ok ⟨[x0, x1], 8+(uvarint 10 (zigzagEnc (x1-x0)).toNat).length, []⟩ else
      ((dodValues n x1 (x1-x0)).run (BitReader.init bits)).map (fun p =>
        ⟨x0::x1::p.1, 8+(uvarint 10 (zigzagEnc (x1-x0)).toNat).length, p.2.asked.reverse⟩) := by
  obtain ⟨ht, hd, hl, hv⟩ := first_value x0 (uvarint 10 (zigzagEnc (x1-x0)).toNat++bits)
  have hr := readUvarint_uvarint 10 (zigzagEnc (x1-x0)).toNat 0 0 bits (by decide) (zigzag_ten)
    (by decide) (by simpa using (zigzagEnc (x1-x0)).isLt)
  have hz : zigzagDec (BitVec.ofNat 64 (0+(zigzagEnc (x1-x0)).toNat*2^0)) = x1-x0 := by
    rw [Nat.zero_add, pow_zero, mul_one, BitVec.ofNat_toNat, BitVec.setWidth_eq, zigzag_dec_enc]
  have hx : x0+(x1-x0) = x1 := by bv_omega
  have hpos : (leBytes 8 x0.toNat++(uvarint 10 (zigzagEnc (x1-x0)).toNat++bits)).length-bits.length =
      8+(uvarint 10 (zigzagEnc (x1-x0)).toNat).length := by
    simp only [length_append, leBytes_length]
    omega
  unfold dodDecode
  rw [if_neg (by omega), if_neg (by omega), ht, hv, if_neg (by omega), hd, hr]
  simp only [bind, Except.bind]
  rw [hz, hx, hpos, Nat.add_sub_cancel]
  by_cases h0 : n = 0
  · rw [if_pos h0, if_pos (by omega)]
  · rw [if_neg h0, if_neg (by omega)]
    cases (dodValues n x1 (x1-x0)).run (BitReader.init bits) <;> rfl

theorem dodEncode_eq (xs : List Word) (cap : ℕ) :
    dodEncode (x0::x1::xs) cap =
      if 8+(uvarint 10 (zigzagEnc (x1-x0)).toNat).length ≤ cap then do
        let w ← dodPutAll (BitWriter.init (cap-(8+(uvarint 10 (zigzagEnc (x1-x0)).toNat).length)))
          x1 (x1-x0) xs
        match w.finish with
        | none => .error .overflow
        | some bits => .ok (leBytes 8 x0.toNat++(uvarint 10 (zigzagEnc (x1-x0)).toNat++bits))
      else .error .overflow := by
  have hwrite := writeUvarint_eq 10 (leBytes 8 x0.toNat) cap (zigzagEnc (x1-x0)).toNat (by decide)
    (zigzag_ten)
  rw [leBytes_length] at hwrite
  unfold dodEncode
  dsimp only
  rw [hwrite]
  by_cases hc : 8+(uvarint 10 (zigzagEnc (x1-x0)).toNat).length ≤ cap
  · rw [if_neg (by omega), if_neg (by omega), if_pos hc, if_pos hc]
    simp only [bind, Except.bind, length_append, leBytes_length]
    cases xs with
    | nil => simp [dodPutAll, BitWriter.finish, BitWriter.init, leBytes]
    | cons x xs =>
      rw [if_neg (by simp)]
      cases dodPutAll _ x1 (x1-x0) (x::xs) with
      | error rc => rfl
      | ok w => cases hf : w.finish <;> simp [hf]
  · rw [if_neg hc, if_neg hc]
    split_ifs <;> rfl

theorem dodEncode_parts (xs : List Word) (cap : ℕ) :
    ((∃ D ∈ deltaOfDeltas (x0::x1::xs), ¬Codable D) ∧
      dodEncode (x0::x1::xs) cap = .error .overflow) ∨
    ∃ fs, (∀ D ∈ deltaOfDeltas (x0::x1::xs), Codable D) ∧ width fs ≤ 36*xs.length ∧
      Yields (dodValues xs.length x1 (x1-x0)) fs xs ∧
      dodEncode (x0::x1::xs) cap =
        if 8+(uvarint 10 (zigzagEnc (x1-x0)).toNat).length+(width fs+7)/8 ≤ cap then
          .ok (leBytes 8 x0.toNat++(uvarint 10 (zigzagEnc (x1-x0)).toNat++
            leBytes ((width fs+7)/8) (pack fs)))
        else .error .overflow := by
  rw [dodEncode_eq]
  generalize uvarint 10 (zigzagEnc (x1-x0)).toNat = var
  rcases dodPutAll_spec xs _ x0 x1 with
    ⟨hn, he⟩ | ⟨fs, hc, he, hf, hw, hy⟩
  · rw [he]
    refine .inl ⟨hn, ?_⟩
    split_ifs <;> rfl
  refine .inr ⟨fs, hc, hw, hy, ?_⟩
  rw [he]
  simp only [bind, Except.bind]
  rw [BitWriter.finish_puts _ _ hf]
  split_ifs with h1 h2 h3 h3 h3 <;> first | rfl | omega

variable (cap : ℕ)

theorem dodDecode_written (bs : Bytes) (h : dodEncode xs cap = .ok bs) :
    (dodDecode bs xs.length).map Decoded.values = .ok xs := by
  match xs with
  | [] => rfl
  | [x] =>
    obtain ⟨ht, hd, hl, hv⟩ := first_value x []
    rw [append_nil] at ht hd hl
    unfold dodEncode at h
    dsimp only at h
    split_ifs at h
    cases h
    unfold dodDecode
    rw [if_neg (by simp), if_neg (by omega), ht, hv]
    rfl
  | x0::x1::xs =>
    rcases dodEncode_parts x0 x1 xs cap with ⟨-, he⟩ | ⟨fs, hc, hw, hy, he⟩
    · rw [he] at h
      simp at h
    rw [he] at h
    split_ifs at h
    rw [← Except.ok.inj h, length_cons, length_cons, dodDecode_parts]
    by_cases h0 : xs.length = 0
    · have hx : xs = [] := by simpa using h0
      rw [if_pos h0, hx]
      rfl
    obtain ⟨r, hr, -⟩ := hy (BitReader.init (leBytes ((width fs+7)/8) (pack fs))) []
      (by rw [append_nil]; exact BitReader.carries_init _ fs (by omega))
    rw [if_neg h0, StateT.run, hr]
    rfl

/-- With room for the widest code of every value only a change that no code
can hold is refused. -/
theorem dodEncode_refuses (hcap : 18+(36*(xs.length-2)+7)/8 ≤ cap) :
    (∃ rc, dodEncode xs cap = .error rc) ↔ ∃ D ∈ deltaOfDeltas xs, D.toInt < -2^31 ∨ 2^31-1 < D.toInt := by
  match xs with
  | [] => simp [dodEncode, deltaOfDeltas]
  | [x] =>
    unfold dodEncode
    dsimp only
    rw [if_neg (by omega), if_neg (by omega)]
    simp [deltaOfDeltas]
  | x0::x1::xs =>
    have hbad : ∀ D : Word, ¬Codable D ↔ D.toInt < -2^31 ∨ 2^31-1 < D.toInt := by
      intro D
      rw [Codable]
      omega
    have hlen := uvarint_length 10 (zigzagEnc (x1-x0)).toNat
    rcases dodEncode_parts x0 x1 xs cap with ⟨⟨D, hD, hn⟩, he⟩ | ⟨fs, hc, hw, hy, he⟩
    · rw [he]
      exact ⟨fun _ => ⟨D, hD, (hbad D).mp hn⟩, fun _ => ⟨_, rfl⟩⟩
    rw [length_cons, length_cons] at hcap
    rw [he, if_pos (by omega)]
    constructor
    · rintro ⟨rc, h⟩
      simp at h
    · rintro ⟨D, hD, hn⟩
      exact absurd (hc D hD) ((hbad D).mpr hn)

/-- Encoding and decoding gives the list back, and only a change that no code can hold is refused.
-/
theorem dod_round_trip (xs : List Word) (cap : ℕ) :
    (∀ bs, dodEncode xs cap = .ok bs → (dodDecode bs xs.length).map Decoded.values = .ok xs) ∧
    (18+(36*(xs.length-2)+7)/8 ≤ cap → ((∃ rc, dodEncode xs cap = .error rc) ↔
      ∃ D ∈ deltaOfDeltas xs, D.toInt < -2^31 ∨ 2^31-1 < D.toInt)) :=
  ⟨dodDecode_written xs cap, dodEncode_refuses xs cap⟩

theorem dod_refuses_wide_change : (∃ rc, dodEncode [0, 0, BitVec.ofNat 64 (2^31)] 24 = .error rc) ∧
    (dodDecode [7, 0, 0, 0, 0, 0, 0, 0, 2, 77, 1] 3).map Decoded.values = .ok [7, 8, 29] :=
  ⟨((dod_round_trip _ 24).2 (by decide)).mpr
      ⟨BitVec.ofNat 64 (2^31), by decide, .inr (by decide)⟩,
    (dod_round_trip [7, 8, 29] 24).1 _ (by decide +kernel)⟩

end QEngine.DeltaOfDelta

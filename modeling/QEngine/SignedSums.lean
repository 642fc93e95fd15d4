import QEngine.DeltaOfDelta
import QEngine.PatchedFrames
import QEngine.WordSums

/-!
# The signed sums of the integer codecs

The exact results of the additions and subtractions on `int64_t`. All arithmetic
wraps, so a decoder's differences are those of the values it returns.
-/

namespace QEngine.SignedSums
open List Uvarint DeltaOfDelta PatchedFrames ByteFields
open WordSums (Fits)

def biasSums (d : ℤ) : List ℤ :=
  if d = 0 then []
  else if -63 ≤ d ∧ d ≤ 64 then [d+63]
  else if -255 ≤ d ∧ d ≤ 256 then [d+255]
  else if -2047 ≤ d ∧ d ≤ 2048 then [d+2047]
  else []

def changeSums (prev prevDelta x : Word) : List ℤ :=
  let delta := x-prev
  (x.toInt-prev.toInt)::(delta.toInt-prevDelta.toInt)::biasSums (delta-prevDelta).toInt

def valueSums (prev prevDelta x : Word) : List ℤ :=
  let delta := x-prev
  let D := delta-prevDelta
  [D.toInt, prevDelta.toInt+D.toInt, prev.toInt+delta.toInt]

/-- The steps from the third value on, up to a change that no code can hold. -/
def dodSteps (sums : Word → Word → Word → List ℤ) : Word → Word → List Word → List ℤ
  | _, _, [] => []
  | prev, prevDelta, x::xs =>
    sums prev prevDelta x++if Codable (x-prev-prevDelta) then dodSteps sums x (x-prev) xs else []

/-- With room for the first value and the first difference. -/
def dodEncodeSums : List Word → List ℤ
  | a::b::xs => (b.toInt-a.toInt)::dodSteps changeSums b (b-a) xs
  | _ => []

def dodDecodeSums : List Word → List ℤ
  | a::b::xs => (a.toInt+(b-a).toInt)::dodSteps valueSums b (b-a) xs
  | _ => []

def deltaSums : Word → List ℕ → List ℤ
  | _, [] => []
  | prev, z::zs =>
    let delta := zigzagDec (BitVec.ofNat 64 z)
    (prev.toInt+delta.toInt)::deltaSums (prev+delta) zs

/-- The additions of `pforRead64`: a packed block adds its differences, a raw one is copied. -/
def pforReadSums : ℕ → ℕ → Bytes → Word → List ℤ
  | 0, _, _, _ => []
  | f+1, n, bs, prev =>
    if n = 0 then [] else
    let count := if n < pforBlock then n else pforBlock
    match bs with
    | [] => []
    | kind::bs =>
      if kind = 0 then
        match decodeBlock bs count with
        | none => []
        | some (us, rest) =>
          deltaSums prev us++pforReadSums f (n-count) rest ((addDeltas prev us).getLastD prev)
      else if kind = 1 then
        if bs.length < count*8 then [] else
        let vals := (List.range count).map (fun i => BitVec.ofNat 64 (leValue ((bs.drop (i*8)).take 8)))
        pforReadSums f (n-count) (bs.drop (count*8)) (vals.getLastD prev)
      else []

def pforDecodeSums (bs : Bytes) (n : ℕ) : List ℤ :=
  if n = 0 ∨ bs.length < 4 ∨ leValue (bs.take 4) ≠ n then [] else pforReadSums n n (bs.drop 4) 0

/-! ### Values whose differences fit -/

/-- The differences and their changes fit, up to a change that no code can hold. -/
def GentleSteps : Word → Word → List Word → Prop
  | _, _, [] => True
  | a, b, x::xs =>
    Fits (x.toInt-b.toInt) ∧ Fits ((x.toInt-b.toInt)-(b.toInt-a.toInt)) ∧
      (-2^31 ≤ (x.toInt-b.toInt)-(b.toInt-a.toInt) ∧ (x.toInt-b.toInt)-(b.toInt-a.toInt) ≤ 2^31-1 →
        GentleSteps b x xs)

def Gentle : List Word → Prop
  | a::b::xs => Fits (b.toInt-a.toInt) ∧ GentleSteps a b xs
  | _ => True

def Level : Word → List Word → Prop
  | _, [] => True
  | prev, x::xs => Fits (x.toInt-prev.toInt) ∧ Level x xs

/-- In a block whose differences are all short as words, they fit as integers. -/
def LevelBlocks : ℕ → List Word → Word → Prop
  | 0, _, _ => True
  | f+1, xs, prev =>
    xs = [] ∨
      ((∀ z ∈ zigzagDeltas prev (xs.take pforBlock), z ≤ 0xFFFFFFFF) → Level prev (xs.take pforBlock)) ∧
      LevelBlocks f (xs.drop pforBlock) ((xs.take pforBlock).getLastD prev)

variable {a b x prev : Word} {xs : List Word}

theorem sub_exact (h : Fits (b.toInt-a.toInt)) : (b-a).toInt = b.toInt-a.toInt := by
  unfold Fits at h
  rw [BitVec.toInt_sub, Int.bmod_eq_of_le (by omega) (by omega)]

theorem back_fits : Fits (prev.toInt+(x-prev).toInt) ↔ Fits (x.toInt-prev.toInt) := by
  have hx := BitVec.le_toInt x
  have hx' := @BitVec.toInt_lt 64 x
  have hp := BitVec.le_toInt prev
  have hp' := @BitVec.toInt_lt 64 prev
  rw [BitVec.toInt_sub, Int.bmod_def]
  unfold Fits
  split_ifs <;> omega

theorem bias_fits {d : ℤ} : ∀ z ∈ biasSums d, Fits z := by
  unfold biasSums Fits
  split_ifs <;> simp <;> omega

theorem changes_fit (hab : Fits (b.toInt-a.toInt)) :
    (∀ z ∈ dodSteps changeSums b (b-a) xs, Fits z) ↔ GentleSteps a b xs := by
  induction xs generalizing a b with
  | nil => simp [dodSteps, GentleSteps]
  | cons x xs ih =>
    rw [dodSteps, forall_mem_append, changeSums, forall_mem_cons, forall_mem_cons, GentleSteps, and_assoc]
    refine and_congr_right fun hbx => ?_
    rw [sub_exact hbx, sub_exact hab]
    have hD : Fits ((x.toInt-b.toInt)-(b.toInt-a.toInt)) →
      (x-b-(b-a)).toInt = (x.toInt-b.toInt)-(b.toInt-a.toInt) := by
      intro h
      rw [← sub_exact hbx, ← sub_exact hab] at h ⊢
      exact sub_exact h
    constructor
    · rintro ⟨⟨hd, -⟩, hrest⟩
      refine ⟨hd, fun hcod => ?_⟩
      rw [if_pos (by rw [Codable, hD hd]; exact hcod)] at hrest
      exact (ih hbx).mp hrest
    · rintro ⟨hd, hrest⟩
      refine ⟨⟨hd, bias_fits⟩, ?_⟩
      split
      · rename_i hcod
        rw [Codable, hD hd] at hcod
        exact (ih hbx).mpr (hrest hcod)
      · simp

theorem values_fit (hab : Fits (b.toInt-a.toInt)) (h : GentleSteps a b xs) :
    ∀ z ∈ dodSteps valueSums b (b-a) xs, Fits z := by
  induction xs generalizing a b with
  | nil => simp [dodSteps]
  | cons x xs ih =>
    obtain ⟨hbx, hd, hrest⟩ := h
    have hx := BitVec.le_toInt x
    have hx' := @BitVec.toInt_lt 64 x
    have hD : (x-b-(b-a)).toInt = (x.toInt-b.toInt)-(b.toInt-a.toInt) := by
      rw [← sub_exact hbx, ← sub_exact hab] at hd ⊢
      exact sub_exact hd
    refine forall_mem_append.mpr ⟨?_, ?_⟩
    · simp only [valueSums, forall_mem_cons, not_mem_nil, false_implies, implies_true, and_true, hD,
        sub_exact hbx, sub_exact hab]
      refine ⟨hd, ?_, ?_⟩
      · unfold Fits at hbx ⊢
        omega
      · unfold Fits
        omega
    · split
      · rename_i hcod
        rw [Codable, hD] at hcod
        exact ih hbx (hrest hcod)
      · simp

theorem deltaSums_fit (h : ∀ z ∈ zigzagDeltas prev xs, z ≤ 0xFFFFFFFF) :
    (∀ z ∈ deltaSums prev ((zigzagDeltas prev xs).map (· &&& 0xFFFFFFFF)), Fits z) ↔ Level prev xs := by
  induction xs generalizing prev with
  | nil => simp [zigzagDeltas, deltaSums, Level]
  | cons x xs ih =>
    obtain ⟨hz, hzs⟩ := forall_mem_cons.mp (by rwa [zigzagDeltas] at h)
    have hmask : (zigzagEnc (x-prev)).toNat &&& 0xFFFFFFFF = (zigzagEnc (x-prev)).toNat :=
      (Nat.and_two_pow_sub_one_eq_mod _ 32).trans (Nat.mod_eq_of_lt (by omega))
    have hx : prev+(x-prev) = x := by bv_omega
    rw [zigzagDeltas, map_cons, deltaSums, hmask, BitVec.ofNat_toNat, BitVec.setWidth_eq, zigzag_dec_enc,
      forall_mem_cons, back_fits, hx, ih hzs, Level]

/-- The bytes of the packed encoder are read back with the additions of the packed blocks only. -/
theorem pforBlocks64_sums (f : ℕ) (xs : List Word) (prev : Word) (out res : Bytes) (cap : ℕ)
    (hf : xs.length ≤ f) (h : pforBlocks64 f xs prev out cap = .ok res) :
    ∃ body, res = out++body ∧
    ((∀ z ∈ pforReadSums f xs.length body prev, Fits z) ↔ LevelBlocks f xs prev) := by
  induction f generalizing xs out prev with
  | zero => exact ⟨[], by simpa [pforBlocks64] using h.symm, by simp [pforReadSums, LevelBlocks]⟩
  | succ f ih =>
    rw [pforBlocks64] at h
    dsimp only at h
    by_cases hx : xs = []
    · rw [if_pos hx] at h
      exact ⟨[], by simpa using (Except.ok.inj h).symm, by simp [hx, pforReadSums, LevelBlocks]⟩
    have hlen : 0 < xs.length := length_pos_iff.mpr hx
    have hcount : (if xs.length < pforBlock then xs.length else pforBlock) = (xs.take pforBlock).length := by
      rw [length_take]
      split_ifs <;> omega
    have hrest : xs.length-(xs.take pforBlock).length = (xs.drop pforBlock).length := by
      simp
      omega
    have hshort : (xs.drop pforBlock).length ≤ f := by simp [pforBlock]; omega
    rw [if_neg hx] at h
    rw [LevelBlocks]
    split_ifs at h with hc hz hr
    · cases hb : encodeBlock ((zigzagDeltas prev (xs.take pforBlock)).map (· &&& 0xFFFFFFFF))
        (cap-(out.length+1)) false with
      | none => simp [hb] at h
      | some bs =>
        rw [hb] at h
        obtain ⟨body, hres, hsums⟩ := ih _ _ _ hshort h
        have hblock := decodeBlock_packed _ _ bs body
          (by rw [length_map, zigzagDeltas_length]; simp)
          (fun v hm => by
            obtain ⟨z, -, rfl⟩ := mem_map.mp hm
            exact Nat.and_lt_two_pow z (by decide)) hb
        rw [length_map, zigzagDeltas_length] at hblock
        refine ⟨0::(bs++body), by rw [hres]; simp, ?_⟩
        rw [pforReadSums, if_neg (by omega)]
        dsimp only
        rw [hcount, if_pos rfl, hblock]
        dsimp only
        rw [addDeltas_zigzagDeltas _ _ hz, hrest, forall_mem_append, deltaSums_fit hz, hsums]
        exact ⟨fun h => .inr ⟨fun _ => h.1, h.2⟩, fun h => ⟨(h.resolve_left hx).1 hz, (h.resolve_left hx).2⟩⟩
    · obtain ⟨body, hres, hsums⟩ := ih _ _ _ hshort h
      refine ⟨1::(((xs.take pforBlock).map BitVec.toNat).flatMap (leBytes 8)++body), by rw [hres]; simp, ?_⟩
      have hw : (((xs.take pforBlock).map BitVec.toNat).flatMap (leBytes 8)).length =
          (xs.take pforBlock).length*8 := by
        rw [flatMap_word_length, length_map]
      rw [pforReadSums, if_neg (by omega)]
      dsimp only
      rw [hcount, if_neg (by decide), if_pos rfl, if_neg (by rw [length_append, hw]; omega),
        read_raw_words, drop_left' hw, hrest, hsums]
      simp only [hx, hz, false_or, false_implies, true_and]

theorem pfor_sums {cap : ℕ} {bs : Bytes} (h : pforEncodeI64 xs cap = .ok bs) :
    (∀ z ∈ pforDecodeSums bs xs.length, Fits z) ↔ LevelBlocks xs.length xs 0 := by
  unfold pforEncodeI64 at h
  split_ifs at h with hx hn hc
  · simp [hx, pforDecodeSums, LevelBlocks]
  obtain ⟨body, rfl, hsums⟩ := pforBlocks64_sums _ _ _ _ _ _ le_rfl h
  obtain ⟨h4, hv, hd⟩ := count_back body hn
  have hne : xs.length ≠ 0 := by simpa using hx
  rw [pforDecodeSums, if_neg (by rw [hv]; omega), hd, hsums]

/-- Every signed sum of the two encoders and of the decoders over their bytes is in range exactly when the
differences that are taken, their changes, and those inside packed blocks fit. -/
theorem codec_sums_fit {cap : ℕ} {bs : Bytes} (hp : pforEncodeI64 xs cap = .ok bs) :
    ((∀ z ∈ dodEncodeSums xs, Fits z) ∧
      (∀ room out d, dodEncode xs room = .ok out → dodDecode out xs.length = .ok d →
        ∀ z ∈ dodDecodeSums d.values, Fits z) ∧
      ∀ z ∈ pforDecodeSums bs xs.length, Fits z) ↔ Gentle xs ∧ LevelBlocks xs.length xs 0 := by
  have henc : (∀ z ∈ dodEncodeSums xs, Fits z) ↔ Gentle xs := by
    match xs with
    | [] | [x] => simp [dodEncodeSums, Gentle]
    | a::b::xs =>
      rw [dodEncodeSums, forall_mem_cons, Gentle]
      exact and_congr_right fun hab => changes_fit hab
  have hdec (hg : Gentle xs) : ∀ z ∈ dodDecodeSums xs, Fits z := by
    match xs with
    | [] | [x] => simp [dodDecodeSums]
    | a::b::xs => exact forall_mem_cons.mpr ⟨back_fits.mpr hg.1, values_fit hg.1 hg.2⟩
  rw [pfor_sums hp, henc]
  refine ⟨fun ⟨hg, _, hl⟩ => ⟨hg, hl⟩, fun ⟨hg, hl⟩ => ⟨hg, fun room out d he hd => ?_, hl⟩⟩
  have hback := dodDecode_written xs room out he
  rw [hd] at hback
  rw [Except.ok.inj hback]
  exact hdec hg

theorem codec_sums_fit_three : (∃ bs, pforEncodeI64 [0, 5, 9] 1000 = .ok bs) ∧
    62 ∈ dodEncodeSums [0, 5, 9] ∧ Fits 62 := by
  have hp : (pforEncodeI64 [0, 5, 9] 1000).isOk = true := by decide +kernel
  cases hbs : pforEncodeI64 [0, 5, 9] 1000 with
  | error e =>
    rw [hbs] at hp
    cases hp
  | ok bs =>
  refine ⟨⟨bs,
    rfl⟩, by decide, ((codec_sums_fit hbs).mpr ⟨?_, .inr ⟨fun _ => ?_, .inl rfl⟩⟩).1 62 (by decide)⟩
  · simp only [Gentle, GentleSteps]
    decide
  · simp only [pforBlock, Level, take]
    decide

/-- The difference of the two bounds. -/
theorem bounds_too_far : 2^64-1 ∈ dodEncodeSums [BitVec.intMin 64, BitVec.intMax 64] ∧ ¬Fits (2^64-1) :=
  ⟨by decide +kernel, by decide⟩

end QEngine.SignedSums

import QEngine.Lzlite

/-!
# The size returned as an int

The encoder returns the number of bytes it wrote as an `int`. From one length on,
every length has an input whose output is as long as the overflow code: a run of one
byte and a tail in which no four bytes repeat.
-/

namespace QEngine.LzliteReturn
open ByteFields BitStream BackReferences Lzlite

/-- A counter of fourteen bits, written over and over in four bytes. Only the
first byte of a group has its top bit set. -/
def counter (i : ℕ) : ℕ :=
  if i%4 = 0 then 128+i/4%128 else if i%4 = 2 then i/4%128 else i/512%128

theorem counter_lt (i : ℕ) : counter i < 256 := by
  rw [counter]
  split_ifs <;> omega

theorem counter_top (i : ℕ) : 128 ≤ counter i ↔ i%4 = 0 := by
  rw [counter]
  split_ifs <;> omega

theorem counter_zero (i : ℕ) (h : i%4 = 0) : counter i = 128+i/4%128 := if_pos h

theorem counter_two (i : ℕ) (h : i%4 = 2) : counter i = i/4%128 := by
  rw [counter, if_neg (by omega), if_pos h]

theorem counter_odd (i : ℕ) (h : i%2 = 1) : counter i = i/512%128 := by
  rw [counter, if_neg (by omega), if_neg (by omega)]

theorem counter_fresh (a b : ℕ) (hab : a < b) (hw : b-a < 65536)
    (h : ∀ k < 4, counter (a+k) = counter (b+k)) : False := by
  have halign : a%4 = b%4 := by
    have ha := counter_top (a+(4-a%4)%4)
    have hb := counter_top (b+(4-a%4)%4)
    have hk := h ((4-a%4)%4) (by omega)
    omega
  have h0 := h 0 (by omega)
  have h1 := h 1 (by omega)
  have h2 := h 2 (by omega)
  rw [Nat.add_zero, Nat.add_zero] at h0
  have hr : b%4 = 0 ∨ b%4 = 1 ∨ b%4 = 2 ∨ b%4 = 3 := by omega
  obtain hr | hr | hr | hr := hr
  · rw [counter_odd _ (by omega), counter_odd _ (by omega)] at h1
    rw [counter_two _ (by omega), counter_two _ (by omega)] at h2
    omega
  · rw [counter_odd a (by omega), counter_odd b (by omega)] at h0
    rw [counter_two _ (by omega), counter_two _ (by omega)] at h1
    omega
  · rw [counter_two a (by omega), counter_two b (by omega)] at h0
    rw [counter_odd _ (by omega), counter_odd _ (by omega)] at h1
    omega
  · rw [counter_zero _ (by omega), counter_zero _ (by omega)] at h1
    rw [counter_odd _ (by omega), counter_odd _ (by omega)] at h2
    omega

/-- `k` ones, `m` zeros, and the counter from its third round on, at a place
where three bytes without top bit come first. -/
def byteAt (k m i : ℕ) : ℕ := if i < k then 1 else if i < k+m then 0 else counter (i-k-m+513)

def sample (k m n : ℕ) : Bytes := (List.range n).map fun i => UInt8.ofNat (byteAt k m i)

theorem byteAt_lt (k m i : ℕ) : byteAt k m i < 256 := by
  have h := counter_lt (i-k-m+513)
  rw [byteAt]
  split_ifs <;> omega

@[simp] theorem sample_length (k m n : ℕ) : (sample k m n).length = n := by
  simp [sample]

theorem sample_getD (k m n i : ℕ) (h : i < n) :
    (sample k m n).getD i default = UInt8.ofNat (byteAt k m i) := by
  rw [getD_at i (by simpa using h)]
  simp [sample]

theorem sample_same (k m n : ℕ) {i j : ℕ} (hi : i < n) (hj : j < n) :
    (sample k m n).getD i default = (sample k m n).getD j default ↔ byteAt k m i = byteAt k m j := by
  rw [sample_getD k m n i hi, sample_getD k m n j hj]
  constructor
  · intro h
    have ht := congrArg UInt8.toNat h
    rw [UInt8.toNat_ofNat', UInt8.toNat_ofNat'] at ht
    have h1 := byteAt_lt k m i
    have h2 := byteAt_lt k m j
    omega
  · intro h
    rw [h]

theorem byteAt_tail (k m i : ℕ) (h : k+m ≤ i) : byteAt k m i = counter (i-k-m+513) := by
  rw [byteAt, if_neg (by omega), if_neg (by omega)]

theorem byteAt_early (k m i : ℕ) (h : i < k+m+3) : byteAt k m i < 128 := by
  have hc := counter_top (i-k-m+513)
  rw [byteAt]
  split_ifs <;> omega

theorem tail_fresh (k m ref ip : ℕ) (hr : ref < ip) (hw : ip-ref < 65536) (hip : k+m ≤ ip)
    (h : ∀ j < 4, byteAt k m (ref+j) = byteAt k m (ip+j)) : False := by
  by_cases href : k+m ≤ ref
  · apply counter_fresh (ref-k-m+513) (ip-k-m+513) (by omega) (by omega)
    intro j hj
    have hj := h j hj
    rw [byteAt_tail k m _ (by omega), byteAt_tail k m _ (by omega)] at hj
    rw [show ref-k-m+513+j = ref+j-k-m+513 by omega, show ip-k-m+513+j = ip+j-k-m+513 by omega]
    exact hj
  · have hj := h ((4-(ip-k-m+513)%4)%4) (by omega)
    have he := byteAt_early k m (ref+(4-(ip-k-m+513)%4)%4) (by omega)
    rw [hj, byteAt_tail k m _ (by omega)] at he
    have ht := counter_top (ip+(4-(ip-k-m+513)%4)%4-k-m+513)
    omega

def Fresh (src : Bytes) (ip : ℕ) : Prop :=
  ∀ off, 1 ≤ off → off < 65536 → off ≤ ip → sameFour src (ip-off) ip = false

variable (src : Bytes)

theorem walk_fresh {prev : ℕ → ℕ} {ip limit ref16 : ℕ} {best : ℕ × ℕ}
    (h : Fresh src ip) : walk src prev ip limit ref16 best = best := by
  induction limit generalizing ref16 with
  | zero => rfl
  | succ limit ih =>
    rw [walk]
    by_cases hn : ref16 = nil
    · rw [if_pos hn]
    rw [if_neg hn]
    dsimp only
    generalize ho : (ip%65536+65536-ref16)%65536 = off
    by_cases h0 : off = 0
    · rw [if_pos h0]
    rw [if_neg h0]
    by_cases hs : ip < off
    · rw [if_pos hs]
    rw [if_neg hs, h off (by omega) (by omega) (by omega), ih]
    simp

theorem findMatch_fresh (ht : HashTable) {ip : ℕ}
    (h : ip+4 ≤ src.length → Fresh src ip) : findMatch src ht ip = (0, 0) := by
  by_cases h4 : ip+4 ≤ src.length
  · rw [findMatch, if_pos h4, walk_fresh src (h h4)]
  · rw [findMatch, if_neg h4]

theorem encodeLoop_literal (cap : ℕ) {src : Bytes} (f : ℕ) {c : Cursor} (hip : c.ip < src.length)
    (h : findMatch src c.ht c.ip = (0, 0)) : encodeLoop cap src (f+1) c =
      encodeLoop cap src f ⟨c.ip+1, c.litStart, c.out, insertAll src 1 c.ip c.ht⟩ := by
  rw [encodeLoop, if_pos hip, h]
  rfl

theorem encodeLoop_fresh (cap : ℕ) (src : Bytes) (f : ℕ) (c : Cursor)
    (h : ∀ ip, c.ip ≤ ip → ip+4 ≤ src.length → Fresh src ip) :
    ∃ c', encodeLoop cap src f c = .ok c' ∧ c'.litStart = c.litStart ∧ c'.out = c.out := by
  induction f generalizing c with
  | zero => exact ⟨c, rfl, rfl, rfl⟩
  | succ f ih =>
    by_cases hip : c.ip < src.length
    · rw [encodeLoop_literal cap f hip (findMatch_fresh src _ (h c.ip (le_refl _)))]
      apply ih
      intro ip hle
      exact h ip (by dsimp only at hle; omega)
    · rw [encodeLoop, if_neg hip]
      exact ⟨c, rfl, rfl, rfl⟩

theorem sameFour_eq_false (ref ip : ℕ)
    (h : (∀ j < 4, src.getD (ref+j) default = src.getD (ip+j) default) → False) :
    sameFour src ref ip = false := by
  rw [Bool.eq_false_iff]
  intro hs
  apply h
  intro j hj
  exact eq_of_beq (List.all_eq_true.mp hs j (List.mem_range.mpr hj))

theorem sample_fresh (k m n ip : ℕ) (hip : k+m ≤ ip) (hn : ip+4 ≤ n) : Fresh (sample k m n) ip := by
  intro off h1 h2 ho
  apply sameFour_eq_false
  intro h
  apply tail_fresh k m (ip-off) ip (by omega) (by omega) hip
  intro j hj
  exact (sample_same k m n (by omega) (by omega)).mp (h j hj)

theorem encode_counter (cap n : ℕ) (prev : ℕ → ℕ) (hc : maxOutput n ≤ cap) :
    ∃ out, encodeBytes cap (sample 0 0 n) prev = .ok out ∧ out.length = 1+n+(n+240)/255 := by
  obtain ⟨c, hrun, hl, ho⟩ := encodeLoop_fresh cap (sample 0 0 n) n ⟨0, 0, [], ⟨fun _ => nil, prev⟩⟩
    (fun ip _ h4 => sample_fresh 0 0 n ip (by omega) (by simpa using h4))
  have hlen := lastBytes_length (sample 0 0 n)
  rw [sample_length] at hlen
  refine ⟨lastBytes (sample 0 0 n), ?_, hlen⟩
  simp only [encodeBytes, sample_length, hrun, bind, Except.bind, emitLast_eq, hl, ho, List.drop_zero]
  rw [putAll, if_neg (by rw [maxOutput] at hc; rw [List.length_nil, hlen]; omega), List.nil_append]

theorem walk_best (prev : ℕ → ℕ) (ip limit ref16 : ℕ) (best : ℕ × ℕ) :
    best.1 ≤ (walk src prev ip limit ref16 best).1 := by
  induction limit generalizing ref16 best with
  | zero => exact le_refl _
  | succ limit ih =>
    rw [walk]
    dsimp only
    generalize (ip%65536+65536-ref16)%65536 = off
    generalize extend src (ip-off) ip (src.length-ip-4) 4 = ml
    split_ifs with h1 h2 h3 h4 h5 h6 h7
    all_goals first | exact le_refl _ | exact ih _ _ | skip
    · exact h6.le
    · exact h6.le.trans (ih _ (ml, off))

theorem extend_reaches (ref ip f ml len : ℕ) (hl : len ≤ ml+f)
    (h : ∀ j < len, src.getD (ref+j) default = src.getD (ip+j) default) : len ≤ extend src ref ip f ml := by
  induction f generalizing ml with
  | zero => exact hl
  | succ f ih =>
    by_cases hs : src.getD (ref+ml) default = src.getD (ip+ml) default
    · rw [extend, if_pos hs]
      exact ih (ml+1) (by omega)
    rw [extend, if_neg hs]
    by_contra hlt
    exact hs (h ml (by omega))

theorem byteAt_run (k m i : ℕ) (h1 : k ≤ i) (h2 : i < k+m) : byteAt k m i = 0 := by
  rw [byteAt, if_neg (by omega), if_pos h2]

theorem byteAt_break (k m : ℕ) : byteAt k m (k+m) ≠ 0 := by
  rw [byteAt_tail k m _ (le_refl _), show k+m-k-m+513 = 513 by omega]
  decide

theorem sample_hash (k m n i : ℕ) (h1 : k ≤ i) (h2 : i+5 ≤ k+m) (hn : k+m ≤ n) :
    hash4 (sample k m n) (i+1) = hash4 (sample k m n) i := by
  have hfour : ((sample k m n).drop (i+1)).take 4 = ((sample k m n).drop i).take 4 := by
    apply List.ext_getElem
    · simp only [List.length_take, List.length_drop, sample_length]
      omega
    intro j hj hj2
    simp only [List.length_take, List.length_drop, sample_length] at hj
    simp only [List.getElem_take, List.getElem_drop, sample, List.getElem_map, List.getElem_range]
    rw [byteAt_run k m _ (by omega) (by omega), byteAt_run k m _ (by omega) (by omega)]
  rw [hash4, hash4, hfour]

theorem findMatch_run {k m n : ℕ} {ht : HashTable} (hk : k ≤ 1) (hm : 5 ≤ m) (hn : k+m ≤ n)
    (hh : ht.head (hash4 (sample k m n) (k+1)) = k) : (findMatch (sample k m n) ht (k+1)).1 = m-1 := by
  have hlow : m-1 ≤ (findMatch (sample k m n) ht (k+1)).1 := by
    have hrun : ∀ j < m-1, (sample k m n).getD (k+j) default = (sample k m n).getD (k+1+j) default := by
      intro j hj
      rw [sample_same k m n (by omega) (by omega)]
      rw [byteAt_run k m _ (by omega) (by omega), byteAt_run k m _ (by omega) (by omega)]
    have hsame : sameFour (sample k m n) k (k+1) = true := by
      apply List.all_eq_true.mpr
      intro j hj
      rw [hrun j (by have := List.mem_range.mp hj; omega)]
      exact beq_self_eq_true _
    have hext := extend_reaches (sample k m n) k (k+1) (n-(k+1)-4) 4 (m-1) (by omega) hrun
    have hoff : ((k+1)%65536+65536-k)%65536 = 1 := by omega
    rw [findMatch, sample_length, if_pos (by omega), hh, walk, if_neg (by rw [nil]; omega), hoff]
    rw [if_neg (by decide), if_neg (by omega), Nat.add_sub_cancel, sample_length, if_neg (by omega), hsame]
    generalize extend (sample k m n) k (k+1) (n-(k+1)-4) 4 = ml at hext ⊢
    rw [if_neg (by decide), if_pos (by omega)]
    by_cases hl : 256 ≤ ml
    · rwa [if_pos hl]
    · rw [if_neg hl]
      exact hext.trans (walk_best _ _ _ _ _ (ml, 1))
  obtain h0 | ⟨-, h1, -, ho, hin, hr⟩ := findMatch_compared (sample k m n) ht (k+1)
  · omega
  rw [sample_length] at hin
  by_contra hne
  have hbreak := hr (m-1) (by omega)
  rw [sample_same k m n (by omega) (by omega), show k+1+(m-1) = k+m by omega] at hbreak
  rw [byteAt_run k m _ (by omega) (by omega)] at hbreak
  exact byteAt_break k m hbreak.symm

theorem findMatch_empty (prev : ℕ → ℕ) (ip : ℕ) : findMatch src ⟨fun _ => nil, prev⟩ ip = (0, 0) := by
  rw [findMatch]
  split_ifs
  · rw [walk, if_pos rfl]
  · rfl

theorem insertAll_head (ip : ℕ) (ht : HashTable) (h : ip+4 ≤ src.length) :
    (insertAll src 1 ip ht).head (hash4 src ip) = ip%65536 := by
  rw [insertAll, if_pos h, insertAll, HashTable.insert]
  exact Function.update_self _ _ _

theorem second_fresh {m n : ℕ} (hm : 5 ≤ m) (hn : 1+m ≤ n) : Fresh (sample 1 m n) 1 := by
  intro off h1 h2 ho
  apply sameFour_eq_false
  intro h
  have h0 := (sample_same 1 m n (by omega) (by omega)).mp (h 0 (by decide))
  rw [byteAt_run 1 m (1+0) (by omega) (by omega), show 1-off+0 = 0 by omega] at h0
  exact absurd h0 (by rw [byteAt, if_pos (by decide)]; decide)

theorem encodeLoop_front (cap k m n f : ℕ) (prev : ℕ → ℕ) (hk : k ≤ 1) (hm : 5 ≤ m) (hn : k+m ≤ n) :
    ∃ ht : HashTable, ht.head (hash4 (sample k m n) (k+1)) = k ∧
      encodeLoop cap (sample k m n) (f+k+1) ⟨0, 0, [], ⟨fun _ => nil, prev⟩⟩ =
        encodeLoop cap (sample k m n) f ⟨k+1, 0, [], ht⟩ := by
  have hlen := sample_length k m n
  have hhash := sample_hash k m n k (le_refl _) (by omega) hn
  rw [hhash]
  have hk01 : k = 0 ∨ k = 1 := by omega
  obtain rfl | rfl := hk01
  · refine ⟨_, insertAll_head (sample 0 m n) 0 ⟨fun _ => nil, prev⟩ (by omega), ?_⟩
    rw [encodeLoop_literal cap (f+0) (by dsimp only; omega) (findMatch_empty _ prev 0)]
    rfl
  refine ⟨_, insertAll_head (sample 1 m n) 1 (insertAll (sample 1 m n) 1 0 ⟨fun _ => nil, prev⟩)
    (by omega), ?_⟩
  rw [encodeLoop_literal cap _ (by dsimp only; omega) (findMatch_empty _ _ 0)]
  rw [encodeLoop_literal cap f (by dsimp only; omega)
    (findMatch_fresh _ _ (fun _ => second_fresh hm hn))]

theorem encode_run (cap k m n : ℕ) (prev : ℕ → ℕ) (hk : k ≤ 1) (hm : 5 ≤ m) (hn : k+m ≤ n)
    (hc : maxOutput n ≤ cap) :
    ∃ out, encodeBytes cap (sample k m n) prev = .ok out ∧
    out.length = 5+k+(m+235)/255+(n-k-m)+(n-k-m+240)/255 := by
  obtain ⟨ht, hhead, hfront⟩ := encodeLoop_front cap k m n (n-k-2+1) prev hk hm hn
  rw [show n-k-2+1+k+1 = n by omega] at hfront
  have hmatch := findMatch_run hk hm hn hhead
  have hlen := sample_length k m n
  rw [encodeLoop, if_pos (by dsimp only; omega)] at hfront
  dsimp only at hfront
  generalize findMatch (sample k m n) ht (k+1) = best at hmatch hfront
  have hlits : ((List.drop 0 (sample k m n)).take (k+1-0)).length = k+1 := by
    rw [List.drop_zero, List.length_take]
    omega
  have hbytes := matchBytes_length ((List.drop 0 (sample k m n)).take (k+1-0)) best.1 best.2
  rw [hlits, hmatch] at hbytes
  rw [maxOutput] at hc
  rw [hmatch, if_neg (by omega), emitMatch_eq, putAll, List.length_nil, if_neg (by omega)] at hfront
  simp only [bind, Except.bind, List.nil_append] at hfront
  obtain ⟨c, hrun, hl, ho⟩ := encodeLoop_fresh cap _ (n-k-2)
    ⟨k+1+(m-1), k+1+(m-1), matchBytes ((List.drop 0 (sample k m n)).take (k+1-0)) (m-1) best.2,
      insertAll (sample k m n) (m-1-1) (k+1+1) (insertAll (sample k m n) 1 (k+1) ht)⟩
    (fun ip hip h4 => sample_fresh k m n ip (by dsimp only at hip; omega) (by omega))
  dsimp only at hl ho
  have hlast := lastBytes_length ((sample k m n).drop c.litStart)
  rw [List.length_drop, hlen, hl] at hlast
  refine ⟨c.out++lastBytes ((sample k m n).drop c.litStart), ?_, ?_⟩
  · simp only [encodeBytes, hlen, hfront, hrun, bind, Except.bind, emitLast_eq]
    rw [putAll, if_neg (by rw [ho, hl]; omega)]
  · rw [List.length_append, ho, hl]
    omega

theorem toInt_overflow (n : ℕ) : toInt n = Rc.overflow.code ↔ n%4294967296 = 4294967288 := by
  have hc : Rc.overflow.code = -8 := rfl
  rw [toInt, hc]
  by_cases h : n%4294967296 < 2147483648
  · rw [if_pos h]
    constructor <;> intro he <;> omega
  · rw [if_neg h]
    constructor <;> intro he <;> omega

theorem div_step (a : ℕ) : a/255 ≤ (a+1)/255 ∧ (a+1)/255 ≤ a/255+1 := by
  omega

/-- Some split of `n` bytes into a run and a tail is stored in `t` bytes: the size grows by at
most two with a tail byte, and a step of two is halved by a literal. -/
theorem split_of_size {n t l : ℕ} (hl : l+5 ≤ n) (h0 : 5+(n+235)/255 ≤ t)
    (ht : t ≤ 5+(n-l+235)/255+l+(l+240)/255) :
    ∃ k m l, k ≤ 1 ∧ 5 ≤ m ∧ k+m+l = n ∧ 5+k+(m+235)/255+l+(l+240)/255 = t := by
  induction l with
  | zero =>
    rw [Nat.sub_zero] at ht
    exact ⟨0, n, 0, Nat.zero_le _, hl.trans' (by omega), by omega, by omega⟩
  | succ l ih =>
    by_cases hle : t ≤ 5+(n-l+235)/255+l+(l+240)/255
    · exact ih (by omega) hle
    have hrun := div_step (n-(l+1)+235)
    rw [show n-(l+1)+235+1 = n-l+235 by omega] at hrun
    have htail := div_step (l+240)
    rw [show l+240+1 = l+1+240 by omega] at htail
    have hm : 5 ≤ n-(l+1) := by omega
    have hsum : n-(l+1)+(l+1) = n := by omega
    generalize n-(l+1) = m at *
    generalize (n-l+235)/255 = a at *
    generalize hb : (m+235)/255 = b at *
    generalize hd : (l+240)/255 = d at *
    generalize he : (l+1+240)/255 = e at *
    clear h0 ih
    by_cases heq : t = 5+b+(l+1)+e
    · exact ⟨0, m, l+1, by omega, hm, by omega, by rw [hb, he]; omega⟩
    · exact ⟨1, m, l, by omega, hm, by omega, by rw [hb, hd]; omega⟩

/-- From the length on at which a literal run reaches `2^32-8` bytes, each length has an input read
as an overflow. -/
theorem overflow_sample (n : ℕ) (hn : 4278190071 ≤ n) (prev : ℕ → ℕ) :
    ∃ k m out, encodeBytes (maxOutput n) (sample k m n) prev = .ok out ∧
    toInt out.length = Rc.overflow.code := by
  by_cases heq : n = 4278190071
  · obtain ⟨out, hrun, hlen⟩ := encode_counter _ n _ (le_refl _)
    refine ⟨0, 0, out, hrun, ?_⟩
    rw [toInt_overflow]
    omega
  have hsize : ∃ t, t%4294967296 = 4294967288 ∧ 5+(n+235)/255 ≤ t ∧
      t ≤ 5+(n-(n-5)+235)/255+(n-5)+(n-5+240)/255 := by
    refine ⟨(5+(n+235)/255+7)/4294967296*4294967296+4294967288, ?_, ?_, ?_⟩ <;> omega
  obtain ⟨t, hmod, hlow, hhigh⟩ := hsize
  obtain ⟨k, m, l, hk, hm, hsum, htotal⟩ := split_of_size (by omega) hlow hhigh
  obtain ⟨out, hrun, hlen⟩ := encode_run _ k m n _ hk hm (by omega) (le_refl _)
  refine ⟨k, m, out, hrun, ?_⟩
  rw [toInt_overflow, hlen, show n-k-m = l by omega, htotal]
  exact hmod

/-- With room for the largest output the encoder keeps to its bound, and its output decodes to the
input. -/
def RoundTrips (src : Bytes) : Prop :=
  ∀ cap scratch, maxOutput src.length ≤ cap →
    (lzliteEncode scratch src cap).rc ≠ Rc.overflow.code ∧
    (lzliteEncode scratch src cap).out.length ≤ maxOutput src.length ∧
    (scratch ≠ none → lzliteDecode (lzliteEncode scratch src cap).out src.length = .ok src)

theorem roundTrips_short (h : src.length < 4278190071) : RoundTrips src := by
  intro cap scratch hc
  by_cases he : src = []
  · subst he
    rw [lzliteEncode_empty]
    exact ⟨by simp [Rc.code], Nat.zero_le _, fun _ => rfl⟩
  cases scratch with
  | none =>
    rw [lzliteEncode_unallocated src he hc]
    exact ⟨by simp [Rc.code], Nat.zero_le _, fun hs => absurd rfl hs⟩
  | some prev =>
    obtain ⟨out, hrun, hlen, hdec⟩ := encodeBytes_spec cap src prev hc
    rw [lzliteEncode_allocated prev he hc]
    simp only [hrun, Encoded.ofResult]
    refine ⟨?_, ?_, fun _ => hdec⟩
    · rw [ne_eq, toInt_overflow]
      omega
    · rw [maxOutput]
      omega

theorem not_roundTrips (out : Bytes) (prev : ℕ → ℕ) (hne : src ≠ [])
    (hrun : encodeBytes (maxOutput src.length) src prev = .ok out)
    (hrc : toInt out.length = Rc.overflow.code) : ¬RoundTrips src := by
  intro h
  have hbad := (h (maxOutput src.length) (some prev) (le_refl _)).1
  rw [lzliteEncode_allocated _ hne (le_refl _)] at hbad
  simp only [hrun, Encoded.ofResult] at hbad
  exact hbad hrc

theorem sample_ne_nil (k m n : ℕ) (hn : 0 < n) : sample k m n ≠ [] := by
  apply List.ne_nil_of_length_pos
  rw [sample_length]
  exact hn

/-- The inputs of a length round trip exactly when no literal run of it is stored in `2^32-8` bytes.
-/
theorem lzlite_round_trip (n : ℕ) : (∀ src : Bytes, src.length = n → RoundTrips src) ↔ n < 4278190071 := by
  constructor
  · intro h
    by_contra hn
    obtain ⟨k, m, out, hrun, hrc⟩ := overflow_sample n (by omega) fun _ => 0
    have hlen := sample_length k m n
    have hbad : ¬RoundTrips (sample k m n) :=
      not_roundTrips _ out (fun _ => 0) (sample_ne_nil k m n (by omega)) (by rwa [hlen]) hrc
    exact hbad (h _ hlen)
  · intro hn src hlen
    exact roundTrips_short src (by omega)

theorem counter_not_roundTrips (n : ℕ) (hn : (1+n+(n+240)/255)%4294967296 = 4294967288) :
    ¬RoundTrips (sample 0 0 n) := by
  obtain ⟨out, hrun, hsize⟩ := encode_counter _ n (fun _ => 0) (le_refl _)
  have hlen := sample_length 0 0 n
  apply not_roundTrips _ out (fun _ => 0) (sample_ne_nil 0 0 n (by omega)) (by rwa [hlen])
  rw [toInt_overflow, hsize]
  exact hn

/-- Four gigabytes without a repetition: the encoder succeeds and returns the overflow code. -/
theorem lzlite_size_reads_as_overflow :
    (sample 0 0 4278190071).length = 4278190071 ∧ ¬RoundTrips (sample 0 0 4278190071) :=
  ⟨sample_length 0 0 _, counter_not_roundTrips _ (by norm_num)⟩

end QEngine.LzliteReturn

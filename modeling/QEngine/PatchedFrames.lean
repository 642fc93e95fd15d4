import QEngine.LanePacking
import QEngine.Uvarint

/-!
# Patched frame-of-reference coding

A block stores its minimum, the residuals at a bit width that covers 95 percent of
them, and the rest as exceptions that are patched in. The 64-bit variant codes
differences this way and falls back to raw values where they do not fit in 32 bits.
-/

namespace QEngine.PatchedFrames
open List ByteFields BitFields BitStream Uvarint LanePacking

def pforBlock : ℕ := 128

def bitsNeeded (v : ℕ) : ℕ := if v = 0 then 0 else v.log2+1

def chooseLoop (residuals : List ℕ) (threshold : ℕ) : ℕ → ℕ → ℕ → ℕ
  | 0, _, _ => 32
  | f+1, b, cumulative =>
    let cumulative := cumulative+residuals.countP (fun v => bitsNeeded v = b)
    if threshold ≤ cumulative then (if b = 0 then 1 else b)
    else chooseLoop residuals threshold f (b+1) cumulative

def chooseB (residuals : List ℕ) : ℕ :=
  chooseLoop residuals ((residuals.length*95+99)/100) 33 0 0

def exceptions (m : ℕ) : ℕ → List ℕ → List (ℕ × ℕ)
  | _, [] => []
  | i, r::rs => if m < r then (i, r)::exceptions m (i+1) rs else exceptions m (i+1) rs

def placeholders (m : ℕ) (rs : List ℕ) : List ℕ := rs.map (fun r => if m < r then 0 else r)

def exceptionBytes (e : ℕ × ℕ) : Bytes := UInt8.ofNat e.1::leBytes 4 e.2

def encodeBlock (src : List ℕ) (cap : ℕ) (raw : Bool) : Option Bytes :=
  if raw then
    if cap < 6+src.length*4 then none
    else some (leBytes 2 (31 ||| 1 <<< 13)++(leBytes 4 0++src.flatMap (leBytes 4)))
  else
    let base := src.tail.foldl (fun m v => if v < m then v else m) (src.headD 0)
    let residuals := src.map (fun v => (v+2^32-base)%2^32)
    let b := chooseB residuals
    let exc := exceptions (mask b) 0 residuals
    let packed := placeholders (mask b) residuals++List.replicate (pforBlock-src.length) 0
    if cap < 6+b*16+exc.length*5 then none
    else some (leBytes 2 ((b-1) ||| exc.length <<< 5)++(leBytes 4 base++
      ((pack4 b (toQuads packed)).flatMap quadBytes++exc.flatMap exceptionBytes)))

def patch : ℕ → Bytes → List ℕ → Option (List ℕ × Bytes)
  | 0, bs, rs => some (rs, bs)
  | n+1, bs, rs =>
    if bs.length < 5 then none else
    let idx := (bs.headD 0).toNat
    let val := leValue ((bs.drop 1).take 4)
    if pforBlock ≤ idx then none else patch n (bs.drop 5) (rs.set idx val)

def decodeBlock (bs : Bytes) (count : ℕ) : Option (List ℕ × Bytes) :=
  if bs.length < 6 then none else
  let hdr := leValue (bs.take 2)
  let base := leValue ((bs.drop 2).take 4)
  let b := (hdr &&& 0x1F)+1
  let nExc := (hdr >>> 5) &&& 0xFF
  if (hdr >>> 13) &&& 1 = 1 then
    if bs.length < 6+count*4 then none
    else some ((List.range count).map (fun i => leValue ((bs.drop (6+i*4)).take 4)), bs.drop (6+count*4))
  else
    if bs.length < 6+b*16+nExc*5 then none else
    if pforBlock < nExc then none else
    let residuals := fromQuads (unpack4 b (readQuads b (bs.drop 6)))
    match patch nExc (bs.drop (6+b*16)) residuals with
    | none => none
    | some (rs, rest) => some ((rs.take count).map (fun r => (r+base)%2^32), rest)

variable (rs : List ℕ)

theorem chooseLoop_range (t f b c : ℕ) (hb : b+f = 33) :
    1 ≤ chooseLoop rs t f b c ∧ chooseLoop rs t f b c ≤ 32 := by
  induction f generalizing b c with
  | zero => simp [chooseLoop]
  | succ f ih =>
    rw [chooseLoop]
    split_ifs
    · decide
    · omega
    · exact ih _ _ (by omega)

theorem chooseB_range : 1 ≤ chooseB rs ∧ chooseB rs ≤ 32 :=
  chooseLoop_range rs _ 33 0 0 (by decide)

theorem mask_lt {b v : ℕ} (h : ¬mask b < v) : v < 2^b := by
  have hp := Nat.two_pow_pos b
  have hm : mask b = 2^b-1 := by
    unfold mask
    split_ifs with h32
    · rw [h32]
      norm_num
    · rfl
  omega

theorem exceptions_length (m i : ℕ) (rs : List ℕ) : (exceptions m i rs).length ≤ rs.length := by
  induction rs generalizing i with
  | nil => simp [exceptions]
  | cons r rs ih =>
    have := ih (i+1)
    rw [exceptions]
    split_ifs <;> simp <;> omega

theorem exceptionBytes_length (e : ℕ × ℕ) : (exceptionBytes e).length = 5 := by
  simp [exceptionBytes]

theorem patch_exceptions (m : ℕ) (rs pre tail : List ℕ) (post : Bytes) (hv : ∀ r ∈ rs, r < 2^32)
    (hl : pre.length+rs.length ≤ pforBlock) :
    patch (exceptions m pre.length rs).length ((exceptions m pre.length rs).flatMap exceptionBytes++post)
      (pre++(placeholders m rs++tail)) = some (pre++(rs++tail), post) := by
  induction rs generalizing pre with
  | nil => simp [exceptions, placeholders, patch]
  | cons r rs ih =>
    have hnext := ih (pre++[r]) (fun r' h => hv r' (by simp [h])) (by simp at hl ⊢; omega)
    rw [length_append, length_singleton] at hnext
    have hcons : placeholders m (r::rs) = (if m < r then 0 else r)::placeholders m rs := rfl
    rw [exceptions, hcons]
    split_ifs with h
    · have hr : r < 256^4 := lt_of_lt_of_le (hv r (by simp)) (by decide)
      have hp : pre.length < 256 := by
        simp [pforBlock] at hl
        omega
      have hb : (UInt8.ofNat pre.length).toNat = pre.length := byte_low _ hp
      rw [length_cons, patch, flatMap_cons, append_assoc]
      rw [if_neg (by simp [exceptionBytes])]
      have hidx : ((exceptionBytes (pre.length, r)++((exceptions m (pre.length+1) rs).flatMap exceptionBytes
        ++post)).headD 0).toNat = pre.length := hb
      have hval : leValue (((exceptionBytes (pre.length, r)++((exceptions m (pre.length+1) rs).flatMap
          exceptionBytes++post)).drop 1).take 4) = r := by
        rw [exceptionBytes, cons_append, drop_succ_cons, drop_zero,
          take_left' (leBytes_length 4 r), leValue_leBytes 4 r hr]
      rw [hidx, hval, if_neg (by simp at hl; omega), drop_left' (exceptionBytes_length _)]
      have hset : (pre++(0::placeholders m rs++tail)).set pre.length r =
          (pre++[r])++(placeholders m rs++tail) := by
        simp
      rw [hset, hnext]
      simp
    · have hsame : pre++(r::placeholders m rs++tail) = (pre++[r])++(placeholders m rs++tail) := by simp
      rw [hsame, hnext]
      simp

theorem header_fields {b e : ℕ} (hb : 1 ≤ b ∧ b ≤ 32) (he : e ≤ 128) :
    (b-1) ||| e <<< 5 < 256^2 ∧ ((b-1) ||| e <<< 5) &&& 0x1F = b-1 ∧
    (((b-1) ||| e <<< 5) >>> 5) &&& 0xFF = e ∧ (((b-1) ||| e <<< 5) >>> 13) &&& 1 = 0 := by
  have hor := or_shift 5 (b-1) e (by omega)
  have h31 := Nat.and_two_pow_sub_one_eq_mod ((b-1)+2^5*e) 5
  have h255 := Nat.and_two_pow_sub_one_eq_mod (((b-1)+2^5*e) >>> 5) 8
  have h1 := Nat.and_two_pow_sub_one_eq_mod (((b-1)+2^5*e) >>> 13) 1
  rw [hor]
  simp only [Nat.shiftRight_eq_div_pow] at h255 h1 ⊢
  refine ⟨by omega, h31.trans (by omega), h255.trans (by omega), h1.trans (by omega)⟩

theorem flatMap_quad_length (ws : List Quad) : (ws.flatMap quadBytes).length = ws.length*16 := by
  induction ws with
  | nil => rfl
  | cons w ws ih => rw [flatMap_cons, length_append, quadBytes_length, ih, length_cons]; omega

theorem flatMap_exception_length (es : List (ℕ × ℕ)) : (es.flatMap exceptionBytes).length = es.length*5 := by
  induction es with
  | nil => rfl
  | cons e es ih => rw [flatMap_cons, length_append, exceptionBytes_length, ih, length_cons]; omega

theorem flatMap_word_length (w : ℕ) (vs : List ℕ) : (vs.flatMap (leBytes w)).length = vs.length*w := by
  induction vs with
  | nil => simp
  | cons v vs ih => rw [flatMap_cons, length_append, leBytes_length, ih, length_cons]; ring

theorem base_back {v base : ℕ} (hv : v < 2^32) (hb : base < 2^32) : ((v+2^32-base)%2^32+base)%2^32 = v := by
  omega

theorem base_lt {src : List ℕ} (hv : ∀ v ∈ src, v < 2^32) :
    src.tail.foldl (fun m v => if v < m then v else m) (src.headD 0) < 2^32 := by
  have hfold : ∀ (vs : List ℕ) (m : ℕ), m < 2^32 → (∀ v ∈ vs, v < 2^32) →
      vs.foldl (fun m v => if v < m then v else m) m < 2^32 := by
    intro vs
    induction vs with
    | nil => exact fun m hm _ => hm
    | cons v vs ih =>
      intro m hm h
      refine ih _ ?_ fun v' h' => h v' (by simp [h'])
      dsimp only
      split_ifs
      · exact h v (by simp)
      · exact hm
  cases src with
  | nil => exact Nat.two_pow_pos 32
  | cons v vs => exact hfold vs v (hv v (by simp)) fun v' h => hv v' (by simp [h])

theorem decodeBlock_parts (b base count : ℕ) (exc : List (ℕ × ℕ)) (qs : List Quad) (vals rs : List ℕ)
    (post : Bytes) (hb : 1 ≤ b ∧ b ≤ 32) (hbase : base < 2^32) (he : exc.length ≤ 128)
    (hql : qs.length = 32) (hq : ∀ q ∈ qs, ∀ k, q k < 2^b)
    (hp : patch exc.length (exc.flatMap exceptionBytes++post) (fromQuads qs) = some (rs, post))
    (hvals : (rs.take count).map (fun r => (r+base)%2^32) = vals) :
    decodeBlock (leBytes 2 ((b-1) ||| exc.length <<< 5)++(leBytes 4 base++
      ((pack4 b qs).flatMap quadBytes++exc.flatMap exceptionBytes))++post) count = some (vals, post) := by
  obtain ⟨hh, h31, h255, hraw⟩ := header_fields hb he
  obtain ⟨hun, hpl, hpw⟩ := unpack4_pack4 hb.2 hql hq
  generalize hhdr : (b-1) ||| exc.length <<< 5 = hdr at hh h31 h255 hraw
  have hpk : ((pack4 b qs).flatMap quadBytes).length = b*16 := by rw [flatMap_quad_length, hpl]
  have htl : (exc.flatMap exceptionBytes++post).length = exc.length*5+post.length := by
    rw [length_append, flatMap_exception_length]
  have hq' := readQuads_written hpw (exc.flatMap exceptionBytes++post)
  rw [hpl] at hq'
  rw [append_assoc, append_assoc, append_assoc]
  generalize exc.flatMap exceptionBytes++post = tail at hp htl hq' ⊢
  generalize (pack4 b qs).flatMap quadBytes = packed at hpk hq' ⊢
  have hlen : (leBytes 2 hdr++(leBytes 4 base++(packed++tail))).length = 6+b*16+exc.length*5+post.length := by
    simp only [length_append, leBytes_length, hpk, htl]
    omega
  have hd2 : (leBytes 2 hdr++(leBytes 4 base++(packed++tail))).drop 2 = leBytes 4 base++(packed++tail) :=
    drop_left' (leBytes_length 2 _)
  have hd6 : (leBytes 2 hdr++(leBytes 4 base++(packed++tail))).drop 6 = packed++tail := by
    rw [show 6 = 2+4 from rfl, ← drop_drop, hd2, drop_left' (leBytes_length 4 _)]
  have hd : (leBytes 2 hdr++(leBytes 4 base++(packed++tail))).drop (6+b*16) = tail := by
    rw [← drop_drop, hd6, drop_left' hpk]
  unfold decodeBlock
  rw [if_neg (by omega), take_left' (leBytes_length 2 hdr), leValue_leBytes 2 hdr hh, hd2,
    take_left' (leBytes_length 4 base), leValue_leBytes 4 base (lt_of_lt_of_le hbase (by decide)), hd6]
  dsimp only
  rw [h31, h255, hraw, if_neg (by decide), Nat.sub_add_cancel hb.1, if_neg (by omega),
    if_neg (by rw [pforBlock]; omega), hq', hun, hd, hp]
  dsimp only
  rw [hvals]

theorem decodeBlock_packed (src : List ℕ) (cap : ℕ) (bs post : Bytes) (hl : src.length ≤ pforBlock)
    (hv : ∀ v ∈ src, v < 2^32) (h : encodeBlock src cap false = some bs) :
    decodeBlock (bs++post) src.length = some (src, post) := by
  have hbase := base_lt hv
  unfold encodeBlock at h
  rw [if_neg (by decide)] at h
  dsimp only at h
  generalize src.tail.foldl (fun m v => if v < m then v else m) (src.headD 0) = base at h hbase
  have hback : (src.map (fun v => (v+2^32-base)%2^32)).map (fun r => (r+base)%2^32) = src := by
    rw [map_map]
    exact (map_congr_left (fun v hm => base_back (hv v hm) hbase)).trans (map_id src)
  have hrv : ∀ r ∈ src.map (fun v => (v+2^32-base)%2^32), r < 2^32 := by
    intro r hr
    obtain ⟨v, -, rfl⟩ := mem_map.mp hr
    exact Nat.mod_lt _ (Nat.two_pow_pos 32)
  have hrl : (src.map (fun v => (v+2^32-base)%2^32)).length = src.length := length_map _
  generalize src.map (fun v => (v+2^32-base)%2^32) = residuals at h hback hrv hrl
  have hb := chooseB_range residuals
  generalize chooseB residuals = b at h hb
  have hexc := exceptions_length (mask b) 0 residuals
  rw [pforBlock] at hl
  have hpatch := patch_exceptions (mask b) residuals [] (List.replicate (pforBlock-src.length) 0) post
    hrv (by simpa [hrl, pforBlock] using hl)
  have hpl : (placeholders (mask b) residuals++List.replicate (pforBlock-src.length) 0).length = 4*32 := by
    simp [placeholders, hrl, pforBlock]
    omega
  have hpv : ∀ v ∈ placeholders (mask b) residuals++List.replicate (pforBlock-src.length) 0, v < 2^b := by
    intro v hm
    rcases mem_append.mp hm with hm | hm
    · obtain ⟨r, -, rfl⟩ := mem_map.mp hm
      split_ifs with hr
      · exact Nat.two_pow_pos b
      · exact mask_lt hr
    · rw [(mem_replicate.mp hm).2]
      exact Nat.two_pow_pos b
  obtain ⟨hfrom, hlen⟩ := fromQuads_toQuads 32 _ hpl
  split_ifs at h
  cases h
  refine decodeBlock_parts b base src.length _ _ src (residuals++List.replicate (pforBlock-src.length) 0)
    post hb hbase (by omega) hlen (toQuads_bound hpv) ?_ ?_
  · rw [hfrom]
    exact hpatch
  · rw [← hrl, take_left' rfl]
    exact hback

/-- Blocks are written until no values remain; `f` bounds their number. -/
def pforBlocks : ℕ → List ℕ → Bytes → ℕ → Except Rc Bytes
  | 0, _, out, _ => .ok out
  | f+1, xs, out, cap =>
    if xs = [] then .ok out else
    match encodeBlock (xs.take pforBlock) (cap-out.length) false with
    | none => .error .overflow
    | some bs => pforBlocks f (xs.drop pforBlock) (out++bs) cap

def pforEncode (xs : List (BitVec 32)) (cap : ℕ) : Except Rc Bytes :=
  if xs = [] then .ok [] else
  if 0xFFFFFFFF < xs.length then .error .inval else
  if cap < 4 then .error .overflow else
  pforBlocks xs.length (xs.map BitVec.toNat) (leBytes 4 xs.length) cap

def pforRead : ℕ → ℕ → Bytes → Except Rc (List ℕ)
  | 0, _, _ => .ok []
  | f+1, n, bs =>
    if n = 0 then .ok [] else
    let count := if n < pforBlock then n else pforBlock
    match decodeBlock bs count with
    | none => .error .corrupt
    | some (vs, rest) => (pforRead f (n-count) rest).map (vs++·)

def pforDecode (bs : Bytes) (n : ℕ) : Except Rc (List (BitVec 32)) :=
  if n = 0 then .ok [] else
  if bs.length < 4 then .error .corrupt else
  if leValue (bs.take 4) ≠ n then .error .corrupt else
  (pforRead n n (bs.drop 4)).map (List.map (BitVec.ofNat 32))

def zigzagDeltas : Word → List Word → List ℕ
  | _, [] => []
  | prev, x::xs => (zigzagEnc (x-prev)).toNat::zigzagDeltas x xs

def pforBlocks64 : ℕ → List Word → Word → Bytes → ℕ → Except Rc Bytes
  | 0, _, _, out, _ => .ok out
  | f+1, xs, prev, out, cap =>
    if xs = [] then .ok out else
    let block := xs.take pforBlock
    let zz := zigzagDeltas prev block
    let prev := block.getLastD prev
    if cap ≤ out.length then .error .overflow else
    if ∀ z ∈ zz, z ≤ 0xFFFFFFFF then
      match encodeBlock (zz.map (· &&& 0xFFFFFFFF)) (cap-(out.length+1)) false with
      | none => .error .overflow
      | some bs => pforBlocks64 f (xs.drop pforBlock) prev (out++0::bs) cap
    else
      if cap < out.length+(1+block.length*8) then .error .overflow
      else pforBlocks64 f (xs.drop pforBlock) prev (out++1::(block.map BitVec.toNat).flatMap (leBytes 8)) cap

def pforEncodeI64 (xs : List Word) (cap : ℕ) : Except Rc Bytes :=
  if xs = [] then .ok [] else
  if 0xFFFFFFFF < xs.length then .error .inval else
  if cap < 4 then .error .overflow else
  pforBlocks64 xs.length xs 0 (leBytes 4 xs.length) cap

def addDeltas : Word → List ℕ → List Word
  | _, [] => []
  | prev, z::zs =>
    let val := prev+zigzagDec (BitVec.ofNat 64 z)
    val::addDeltas val zs

def pforRead64 : ℕ → ℕ → Bytes → Word → Except Rc (List Word)
  | 0, _, _, _ => .ok []
  | f+1, n, bs, prev =>
    if n = 0 then .ok [] else
    let count := if n < pforBlock then n else pforBlock
    match bs with
    | [] => .error .corrupt
    | kind::bs =>
      if kind = 0 then
        match decodeBlock bs count with
        | none => .error .corrupt
        | some (us, rest) =>
          let vals := addDeltas prev us
          (pforRead64 f (n-count) rest (vals.getLastD prev)).map (vals++·)
      else if kind = 1 then
        if bs.length < count*8 then .error .corrupt else
        let vals := (List.range count).map (fun i => BitVec.ofNat 64 (leValue ((bs.drop (i*8)).take 8)))
        (pforRead64 f (n-count) (bs.drop (count*8)) (vals.getLastD prev)).map (vals++·)
      else .error .corrupt

def pforDecodeI64 (bs : Bytes) (n : ℕ) : Except Rc (List Word) :=
  if n = 0 then .ok [] else
  if bs.length < 4 then .error .corrupt else
  if leValue (bs.take 4) ≠ n then .error .corrupt else
  pforRead64 n n (bs.drop 4) 0

theorem take_count (n : ℕ) (xs : List ℕ) (h : n = xs.length) :
    (if n < pforBlock then n else pforBlock) = (xs.take pforBlock).length := by
  rw [length_take]
  split_ifs <;> omega

theorem pforBlocks_read (f : ℕ) (xs : List ℕ) (out res : Bytes) (cap : ℕ) (hf : xs.length ≤ f)
    (hv : ∀ v ∈ xs, v < 2^32) (h : pforBlocks f xs out cap = .ok res) :
    ∃ body, res = out++body ∧ pforRead f xs.length body = .ok xs := by
  induction f generalizing xs out with
  | zero =>
    have hx : xs = [] := by simpa using hf
    exact ⟨[], by simpa [pforBlocks] using h.symm, by rw [hx]; rfl⟩
  | succ f ih =>
    rw [pforBlocks] at h
    split_ifs at h with hx
    · exact ⟨[], by simpa using (Except.ok.inj h).symm, by rw [hx]; rfl⟩
    cases hb : encodeBlock (xs.take pforBlock) (cap-out.length) false with
    | none => simp [hb] at h
    | some bs =>
      rw [hb] at h
      have hlen : 0 < xs.length := length_pos_iff.mpr hx
      obtain ⟨body, hres, hread⟩ := ih (xs.drop pforBlock) (out++bs) (by simp [pforBlock]; omega)
        (fun v hm => hv v (mem_of_mem_drop hm)) h
      refine ⟨bs++body, by rw [hres, append_assoc], ?_⟩
      have hblock := decodeBlock_packed (xs.take pforBlock) _ bs body (by simp)
        (fun v hm => hv v (mem_of_mem_take hm)) hb
      rw [pforRead, if_neg (by omega)]
      dsimp only
      rw [take_count _ xs rfl, hblock]
      dsimp only
      have hrest : xs.length-(xs.take pforBlock).length = (xs.drop pforBlock).length := by
        simp
        omega
      rw [hrest, hread]
      exact congrArg Except.ok (take_append_drop _ _)

variable (prev : Word) (xs : List Word)

theorem addDeltas_zigzagDeltas (h : ∀ z ∈ zigzagDeltas prev xs, z ≤ 0xFFFFFFFF) :
    addDeltas prev ((zigzagDeltas prev xs).map (· &&& 0xFFFFFFFF)) = xs := by
  induction xs generalizing prev with
  | nil => rfl
  | cons x xs ih =>
    have hz := h (zigzagEnc (x-prev)).toNat (by simp [zigzagDeltas])
    have hmask : (zigzagEnc (x-prev)).toNat &&& 0xFFFFFFFF = (zigzagEnc (x-prev)).toNat :=
      (Nat.and_two_pow_sub_one_eq_mod _ 32).trans (Nat.mod_eq_of_lt (by omega))
    have hx : prev+(x-prev) = x := by bv_omega
    rw [zigzagDeltas, map_cons, addDeltas, hmask, BitVec.ofNat_toNat, BitVec.setWidth_eq,
      zigzag_dec_enc, hx, ih x (fun z hz => h z (by simp [zigzagDeltas, hz]))]

theorem zigzagDeltas_length : (zigzagDeltas prev xs).length = xs.length := by
  induction xs generalizing prev with
  | nil => rfl
  | cons x xs ih => rw [zigzagDeltas, length_cons, ih, length_cons]

theorem read_raw_words (post : Bytes) : (List.range xs.length).map (fun i => BitVec.ofNat 64
      (leValue (((xs.map BitVec.toNat).flatMap (leBytes 8)++post).drop (i*8) |>.take 8))) = xs := by
  have hr := read_words 8 (xs.map BitVec.toNat) (fun v hm => by
    obtain ⟨x, -, rfl⟩ := mem_map.mp hm
    exact lt_of_lt_of_le x.isLt (by decide)) post
  rw [length_map] at hr
  have hm := congrArg (List.map (BitVec.ofNat 64)) hr
  rw [map_map, map_map] at hm
  refine Eq.trans hm ?_
  conv_rhs => rw [← map_id xs]
  exact map_congr_left fun x _ => by simp

/-- The previous value is the same on both sides after a packed block and
after a raw one. -/
theorem pforBlocks64_read (f : ℕ) (xs : List Word) (prev : Word) (out res : Bytes) (cap : ℕ)
    (hf : xs.length ≤ f) (h : pforBlocks64 f xs prev out cap = .ok res) :
    ∃ body, res = out++body ∧ pforRead64 f xs.length body prev = .ok xs := by
  induction f generalizing xs out prev with
  | zero =>
    have hx : xs = [] := by simpa using hf
    exact ⟨[], by simpa [pforBlocks64] using h.symm, by rw [hx]; rfl⟩
  | succ f ih =>
    rw [pforBlocks64] at h
    dsimp only at h
    by_cases hx : xs = []
    · rw [if_pos hx] at h
      exact ⟨[], by simpa using (Except.ok.inj h).symm, by rw [hx]; rfl⟩
    have hlen : 0 < xs.length := length_pos_iff.mpr hx
    have hcount : (if xs.length < pforBlock then xs.length else pforBlock) = (xs.take pforBlock).length := by
      rw [length_take]
      split_ifs <;> omega
    have hrest : xs.length-(xs.take pforBlock).length = (xs.drop pforBlock).length := by
      simp
      omega
    have hdone : (.ok (xs.take pforBlock++xs.drop pforBlock) : Except Rc (List Word)) = .ok xs :=
      congrArg Except.ok (take_append_drop _ _)
    have hshort : (xs.drop pforBlock).length ≤ f := by simp [pforBlock]; omega
    rw [if_neg hx] at h
    split_ifs at h with hc hz hr
    · cases hb : encodeBlock ((zigzagDeltas prev (xs.take pforBlock)).map (· &&& 0xFFFFFFFF))
        (cap-(out.length+1)) false with
      | none => simp [hb] at h
      | some bs =>
        rw [hb] at h
        obtain ⟨body, hres, hread⟩ := ih _ _ _ hshort h
        have hblock := decodeBlock_packed _ _ bs body
          (by rw [length_map, zigzagDeltas_length]; simp)
          (fun v hm => by
            obtain ⟨z, -, rfl⟩ := mem_map.mp hm
            exact Nat.and_lt_two_pow z (by decide)) hb
        rw [length_map, zigzagDeltas_length] at hblock
        refine ⟨0::(bs++body), by rw [hres]; simp, ?_⟩
        rw [pforRead64, if_neg (by omega)]
        dsimp only
        rw [hcount, if_pos rfl, hblock]
        dsimp only
        rw [addDeltas_zigzagDeltas _ _ hz, hrest, hread]
        exact hdone
    · obtain ⟨body, hres, hread⟩ := ih _ _ _ hshort h
      refine ⟨1::(((xs.take pforBlock).map BitVec.toNat).flatMap (leBytes 8)++body), by rw [hres]; simp, ?_⟩
      have hw : (((xs.take pforBlock).map BitVec.toNat).flatMap (leBytes 8)).length =
          (xs.take pforBlock).length*8 := by
        rw [flatMap_word_length, length_map]
      rw [pforRead64, if_neg (by omega)]
      dsimp only
      rw [hcount, if_neg (by decide), if_pos rfl, if_neg (by rw [length_append, hw]; omega),
        read_raw_words, drop_left' hw, hrest, hread]
      exact hdone

theorem count_back {n : ℕ} (body : Bytes) (hn : ¬0xFFFFFFFF < n) :
    4 ≤ (leBytes 4 n++body).length ∧ leValue ((leBytes 4 n++body).take 4) = n ∧
    (leBytes 4 n++body).drop 4 = body := by
  have hl := leBytes_length 4 n
  refine ⟨by simp, ?_, drop_left' hl⟩
  rw [take_left' hl, leValue_leBytes 4 n]
  omega

theorem pforDecode_written (xs : List (BitVec 32)) (cap : ℕ) (bs : Bytes)
    (h : pforEncode xs cap = .ok bs) : pforDecode bs xs.length = .ok xs := by
  unfold pforEncode at h
  split_ifs at h with hx hn hc
  · rw [hx]
    rfl
  have hmem : ∀ v ∈ xs.map BitVec.toNat, v < 2^32 := by
    intro v hm
    obtain ⟨x, -, rfl⟩ := mem_map.mp hm
    exact x.isLt
  obtain ⟨body, rfl, hread⟩ := pforBlocks_read _ _ _ _ _ (by rw [length_map]) hmem h
  rw [length_map] at hread
  obtain ⟨h4, hv, hd⟩ := count_back body hn
  have hne : xs.length ≠ 0 := by simpa using hx
  have hback : (xs.map BitVec.toNat).map (BitVec.ofNat 32) = xs := by
    rw [map_map]
    conv_rhs => rw [← map_id xs]
    exact map_congr_left fun x _ => by simp
  unfold pforDecode
  rw [if_neg hne, if_neg (by omega), if_neg (by rw [hv]; simp), hd, hread]
  exact congrArg Except.ok hback

theorem pforDecodeI64_written (cap : ℕ) (bs : Bytes)
    (h : pforEncodeI64 xs cap = .ok bs) : pforDecodeI64 bs xs.length = .ok xs := by
  unfold pforEncodeI64 at h
  split_ifs at h with hx hn hc
  · rw [hx]
    rfl
  obtain ⟨body, rfl, hread⟩ := pforBlocks64_read _ _ _ _ _ _ le_rfl h
  obtain ⟨h4, hv, hd⟩ := count_back body hn
  have hne : xs.length ≠ 0 := by simpa using hx
  unfold pforDecodeI64
  rw [if_neg hne, if_neg (by omega), if_neg (by rw [hv]; simp), hd, hread]

/-- What either variant wrote is read back, whatever the length of the list
and whichever of its blocks are packed or raw. -/
theorem pfor_round_trip : (∀ (xs : List (BitVec 32)) (cap : ℕ) (bs : Bytes), pforEncode xs cap = .ok bs →
    pforDecode bs xs.length = .ok xs) ∧
    (∀ (xs : List Word) (cap : ℕ) (bs : Bytes), pforEncodeI64 xs cap = .ok bs →
    pforDecodeI64 bs xs.length = .ok xs) :=
  ⟨pforDecode_written, pforDecodeI64_written⟩

/-- A packed block with two-bit residuals, and a block of raw 64-bit values. -/
theorem pfor_round_trip_short_blocks :
    pforDecode ([3, 0, 0, 0, 1, 0, 5, 0, 0, 0, 0, 0, 0, 0, 2, 0, 0, 0, 1]++List.replicate 23 0) 3 =
    .ok [5, 7, 6] ∧
    pforDecodeI64 [3, 0, 0, 0, 1, 1, 0, 0, 0, 0, 0, 0, 0, 0, 0, 0, 0, 0, 1, 0, 0, 3, 0, 0, 0, 0, 0, 0, 0]
    3 = .ok [1, 0x10000000000, 3] :=
  ⟨pfor_round_trip.1 [5, 7, 6] 64 _ (by decide +kernel),
    pfor_round_trip.2 [1, 0x10000000000, 3] 64 _ (by decide +kernel)⟩

end QEngine.PatchedFrames

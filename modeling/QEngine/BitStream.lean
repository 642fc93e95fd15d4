import QEngine.ByteFields
import QEngine.BitFields

/-!
# The bit writer and the bit reader

The writer spills eight bytes at a time; the reader banks bytes ahead, by one 64-bit
load or singly near the end, and pads with zeros behind it.
-/

namespace QEngine.BitStream
open List ByteFields BitFields

inductive Rc where
  | inval
  | nomem
  | corrupt
  | overflow
  | unsupported
  deriving DecidableEq

def Rc.code : Rc → ℤ
  | .inval => -1
  | .nomem => -2
  | .corrupt => -4
  | .overflow => -8
  | .unsupported => -9

/-- `out` is the part of the caller's buffer already written. -/
structure BitWriter where
  cap : ℕ
  out : Bytes
  scratch : ℕ
  nbits : ℕ
  overflow : Bool
  deriving DecidableEq

namespace BitWriter

def init (cap : ℕ) : BitWriter := ⟨cap, [], 0, 0, false⟩

def put (w : BitWriter) (val n : ℕ) : BitWriter :=
  if n = 0 then w else
  let val := if n < 64 then val &&& (2^n-1) else val
  let scratch := w.scratch ||| (val <<< w.nbits)%2^64
  if w.nbits+n < 64 then {w with scratch := scratch, nbits := w.nbits+n}
  else if w.cap < w.out.length+8 then {w with scratch := scratch, overflow := true}
  else
    let shift := 64-w.nbits
    if shift = 64 ∨ n = shift then
      {w with out := w.out++leBytes 8 scratch, scratch := 0, nbits := w.nbits+n-64}
    else
      {w with out := w.out++leBytes 8 scratch, scratch := val >>> shift, nbits := n-shift}

/-- Pads the final byte with zeros; nothing when the buffer is too short. -/
def finish (w : BitWriter) : Option Bytes :=
  if w.overflow then none else
  let need := (w.nbits+7)/8
  if w.cap < w.out.length+need then none else some (w.out++leBytes need w.scratch)

def puts (w : BitWriter) (fs : List Field) : BitWriter := fs.foldl (fun w f => w.put f.1 f.2) w

def putSafe (val n : ℕ) : List Field :=
  if n = 0 then [] else
  if n ≤ 32 then [(val, n)] else [(val &&& 0xFFFFFFFF, 32), (val >>> 32, n-32)]

structure Pending (w : BitWriter) (fs : List Field) : Prop where
  bits : w.nbits < 64
  scratch : w.scratch < 2^w.nbits
  length : 8*w.out.length+w.nbits = width fs
  number : leValue w.out+256^w.out.length*w.scratch = pack fs

structure Wrote (w : BitWriter) (fs : List Field) : Prop where
  room : w.out.length ≤ w.cap
  pending : w.overflow = false → Pending w fs
  full : w.overflow = true → 8*w.cap < width fs

theorem wrote_init (cap : ℕ) : Wrote (init cap) [] where
  room := by simp [init]
  pending _ := ⟨by simp [init], by simp [init], rfl, rfl⟩
  full h := by simp [init] at h

theorem pow_bytes (k : ℕ) : 256^k = 2^(8*k) := by
  rw [pow_mul]
  norm_num

variable (w : BitWriter)

theorem put_zero (v : ℕ) : w.put v 0 = w := by
  simp [put]

variable (v n : ℕ)

theorem put_cap : (w.put v n).cap = w.cap := by
  unfold put
  dsimp only
  split_ifs <;> rfl

theorem put_room (h : w.out.length ≤ w.cap) : (w.put v n).out.length ≤ (w.put v n).cap := by
  have h8 : ∀ s : ℕ, ¬w.cap < w.out.length+8 → (w.out++leBytes 8 s).length ≤ w.cap := by
    intro s hs
    rw [length_append, leBytes_length]
    omega
  rw [put_cap]
  unfold put
  dsimp only
  split_ifs <;> first | exact h | exact h8 _ (by assumption)

theorem put_overflow (h : w.overflow = true) : (w.put v n).overflow = true := by
  unfold put
  dsimp only
  split_ifs <;> first | rfl | exact h

theorem put_cases (h0 : n ≠ 0) (hn : n < 64) (hb : w.nbits < 64)
    (hs : w.scratch < 2^w.nbits) :
    (w.nbits+n < 64 ∧
      w.put v n = {w with scratch := w.scratch+2^w.nbits*(v%2^n), nbits := w.nbits+n}) ∨
    (64 ≤ w.nbits+n ∧ w.cap < w.out.length+8 ∧ (w.put v n).overflow = true) ∨
    (64 ≤ w.nbits+n ∧ w.put v n =
      {w with out := w.out++leBytes 8 (w.scratch+2^w.nbits*(v%2^n%2^(64-w.nbits))),
              scratch := v%2^n/2^(64-w.nbits), nbits := w.nbits+n-64}) := by
  have hm := Nat.mod_lt v (Nat.two_pow_pos n)
  unfold put
  rw [if_neg h0, if_pos hn, Nat.and_two_pow_sub_one_eq_mod]
  generalize v%2^n = m at hm
  have hor : w.scratch ||| (m <<< w.nbits)%2^64 = w.scratch+2^w.nbits*(m%2^(64-w.nbits)) := by
    rw [shift_mod m _ 64 (by omega), ← or_shift _ _ _ hs, Nat.shiftLeft_eq, mul_comm]
  dsimp only
  rw [hor]
  by_cases hfit : w.nbits+n < 64
  · have hlow : m < 2^(64-w.nbits) := lt_of_lt_of_le hm (Nat.pow_le_pow_right (by decide) (by omega))
    rw [if_pos hfit, Nat.mod_eq_of_lt hlow]
    exact .inl ⟨hfit, rfl⟩
  have hge : 64 ≤ w.nbits+n := by omega
  rw [if_neg hfit]
  by_cases hc : w.cap < w.out.length+8
  · rw [if_pos hc]
    exact .inr (.inl ⟨hge, hc, rfl⟩)
  rw [if_neg hc]
  refine .inr (.inr ⟨hge, ?_⟩)
  by_cases hsh : 64-w.nbits = 64 ∨ n = 64-w.nbits
  · have hz : m/2^(64-w.nbits) = 0 := by
      rw [Nat.div_eq_of_lt]
      exact lt_of_lt_of_le hm (Nat.pow_le_pow_right (by decide) (by omega))
    rw [if_pos hsh, hz]
  · have hk : n-(64-w.nbits) = w.nbits+n-64 := by omega
    rw [if_neg hsh, Nat.shiftRight_eq_div_pow, hk]

variable (fs : List Field)

theorem pack_snoc (v n : ℕ) : pack (fs++[(v, n)]) = pack fs+2^width fs*(v%2^n) := by
  rw [pack_append]
  simp [pack]

theorem pending_put (v n : ℕ) (hn : n < 64) (hp : Pending w fs) :
    (w.put v n).overflow = true ∧ 8*w.cap < width fs+n ∨
    (w.put v n).overflow = w.overflow ∧ Pending (w.put v n) (fs++[(v, n)]) := by
  obtain ⟨hb, hs, hlen, hnum⟩ := hp
  by_cases h0 : n = 0
  · subst h0
    rw [put_zero]
    exact .inr ⟨rfl, hb, hs, by simpa using hlen, by rw [pack_snoc, hnum]; simp [Nat.mod_one]⟩
  have hm := Nat.mod_lt v (Nat.two_pow_pos n)
  have hpow : (2:ℕ)^width fs = 256^w.out.length*2^w.nbits := by
    rw [pow_bytes, ← pow_add, hlen]
  rcases put_cases w v n h0 hn hb hs with ⟨hfit, he⟩ | ⟨hge, hc, ho⟩ | ⟨hge, he⟩
  · rw [he]
    refine .inr ⟨rfl, hfit, ?_, ?_, ?_⟩
    · calc w.scratch+2^w.nbits*(v%2^n) < 2^w.nbits+2^w.nbits*(v%2^n) := by omega
        _ = 2^w.nbits*(v%2^n+1) := by ring
        _ ≤ 2^w.nbits*2^n := Nat.mul_le_mul_left _ hm
        _ = 2^(w.nbits+n) := (pow_add _ _ _).symm
    · simp only [width_append, width_cons, width_nil]
      omega
    · rw [pack_snoc, ← hnum, hpow]
      ring
  · exact .inl ⟨ho, by omega⟩
  rw [he]
  have hsplit := Nat.mod_add_div (v%2^n) (2^(64-w.nbits))
  have hlow : w.scratch+2^w.nbits*(v%2^n%2^(64-w.nbits)) < 256^8 := by
    have hr := Nat.mod_lt (v%2^n) (Nat.two_pow_pos (64-w.nbits))
    calc w.scratch+2^w.nbits*(v%2^n%2^(64-w.nbits))
        < 2^w.nbits*(v%2^n%2^(64-w.nbits)+1) := by rw [mul_add]; omega
      _ ≤ 2^w.nbits*2^(64-w.nbits) := Nat.mul_le_mul_left _ hr
      _ = 256^8 := by rw [← pow_add, Nat.add_sub_cancel' (by omega)]; norm_num
  have hword : (2:ℕ)^w.nbits*2^(64-w.nbits) = 256^8 := by
    rw [← pow_add, Nat.add_sub_cancel' (by omega)]
    norm_num
  refine .inr ⟨rfl, by dsimp only; omega, ?_, ?_, ?_⟩
  · rw [Nat.div_lt_iff_lt_mul (Nat.two_pow_pos _), ← pow_add]
    refine lt_of_lt_of_le hm (Nat.pow_le_pow_right (by decide) ?_)
    dsimp only
    omega
  · simp only [width_append, width_cons, width_nil, length_append, leBytes_length]
    omega
  rw [pack_snoc, ← hnum, hpow, leValue_append, leValue_leBytes _ _ hlow, length_append,
    leBytes_length, pow_add, ← hword]
  generalize v%2^n%2^(64-w.nbits) = r at hsplit
  generalize v%2^n/2^(64-w.nbits) = q at hsplit
  rw [← hsplit]
  ring

theorem wrote_put (v n : ℕ) (hn : n < 64) (hw : Wrote w fs) :
    Wrote (w.put v n) (fs++[(v, n)]) := by
  have hroom := put_room w v n hw.room
  have hwid : width (fs++[(v, n)]) = width fs+n := by simp
  cases ho : w.overflow with
  | true =>
    have ho' := put_overflow w v n ho
    have hf := hw.full ho
    exact ⟨hroom, fun h => by simp [ho'] at h, fun _ => by rw [put_cap, hwid]; omega⟩
  | false =>
    rcases pending_put w fs v n hn (hw.pending ho) with ⟨ho', hf⟩ | ⟨ho', hp⟩
    · exact ⟨hroom, fun h => by simp [ho'] at h, fun _ => by rw [put_cap, hwid]; exact hf⟩
    · exact ⟨hroom, fun _ => hp, fun h => by simp [ho', ho] at h⟩

theorem wrote_puts (fs gs : List Field) (w : BitWriter) (hn : ∀ f ∈ gs, f.2 < 64)
    (hw : Wrote w fs) : Wrote (w.puts gs) (fs++gs) := by
  induction gs generalizing w fs with
  | nil => simpa [puts] using hw
  | cons g gs ih =>
    have h1 := wrote_put w fs g.1 g.2 (hn g (by simp)) hw
    have h2 := ih (fs++[g]) (w.put g.1 g.2) (fun f hf => hn f (by simp [hf])) h1
    simpa [puts] using h2

theorem finish_wrote (hw : Wrote w fs) :
    w.finish = if (width fs+7)/8 ≤ w.cap then some (leBytes ((width fs+7)/8) (pack fs)) else none := by
  unfold finish
  cases ho : w.overflow with
  | true =>
    have hf := hw.full ho
    rw [if_pos rfl, if_neg (by omega)]
  | false =>
    obtain ⟨hb, hs, hlen, hnum⟩ := hw.pending ho
    have hk : w.out.length+(w.nbits+7)/8 = (width fs+7)/8 := by omega
    have hlow : w.scratch < 256^((w.nbits+7)/8) := by
      rw [pow_bytes]
      exact lt_of_lt_of_le hs (Nat.pow_le_pow_right (by decide) (by omega))
    have hval : leValue (w.out++leBytes ((w.nbits+7)/8) w.scratch) = pack fs := by
      rw [leValue_append, leValue_leBytes _ _ hlow, hnum]
    have hout := leBytes_leValue (w.out++leBytes ((w.nbits+7)/8) w.scratch)
    rw [hval, length_append, leBytes_length, hk] at hout
    rw [if_neg (by simp)]
    dsimp only
    rw [hk, ← hout]
    by_cases hc : (width fs+7)/8 ≤ w.cap
    · rw [if_pos hc, if_neg (by omega)]
    · rw [if_neg hc, if_pos (by omega)]

theorem finish_puts (cap : ℕ) (fs : List Field) (hn : ∀ f ∈ fs, f.2 < 64) :
    ((init cap).puts fs).finish =
      if (width fs+7)/8 ≤ cap then some (leBytes ((width fs+7)/8) (pack fs)) else none := by
  have hw := wrote_puts [] fs (init cap) hn (wrote_init cap)
  have hc : ((init cap).puts fs).cap = cap := by
    generalize hi : init cap = w
    have hwc : w.cap = cap := by rw [← hi]; rfl
    clear hi hw hn
    induction fs generalizing w with
    | nil => exact hwc
    | cons f fs ih => exact ih _ (by rw [put_cap, hwc])
  rw [finish_wrote _ _ hw, hc]
  rfl

end BitWriter

/-- `asked` lists the widths requested so far, latest first; the code keeps no such record. -/
structure BitReader where
  buf : Bytes
  bytes : ℕ
  scratch : ℕ
  nbits : ℕ
  underflow : Bool
  asked : List ℕ
  deriving DecidableEq

namespace BitReader

def init (buf : Bytes) : BitReader := ⟨buf, 0, 0, 0, false, []⟩

def bulk (r : BitReader) (n : ℕ) : BitReader :=
  if r.nbits < n ∧ r.nbits ≤ 56 ∧ r.bytes+8 ≤ r.buf.length then
    let w := leValue ((r.buf.drop r.bytes).take 8)
    let take := (64-r.nbits) >>> 3
    let have' := r.nbits+take <<< 3
    {r with scratch := (r.scratch ||| (w <<< r.nbits)%2^64) &&& (2^64-1) >>> (64-have'),
            bytes := r.bytes+take, nbits := have'}
  else r

/-- The byte loop. Every turn adds eight bits, so eight turns reach 64. -/
def fill : ℕ → BitReader → ℕ → BitReader
  | 0, r, _ => r
  | k+1, r, n =>
    if n ≤ r.nbits then r
    else if r.buf.length ≤ r.bytes then
      let r := if r.nbits+8 < n ∧ r.buf.length ≤ r.bytes then {r with underflow := true} else r
      if 64 ≤ r.nbits+8 then {r with nbits := 64} else fill k {r with nbits := r.nbits+8} n
    else
      fill k {r with scratch := r.scratch ||| ((r.buf.getD r.bytes 0).toNat <<< r.nbits)%2^64,
                     bytes := r.bytes+1, nbits := r.nbits+8} n

def refill (r : BitReader) (n : ℕ) : BitReader := fill 8 (r.bulk n) n

def get (r : BitReader) (n : ℕ) : ℕ × BitReader :=
  if n = 0 then (0, {r with asked := 0::r.asked}) else
  let k := if n > 64 then 64 else n
  let r := r.refill k
  (r.scratch &&& (if k = 64 then 2^64-1 else 2^k-1),
    {r with scratch := if k = 64 then 0 else r.scratch >>> k, nbits := r.nbits-k,
            asked := n::r.asked})

def gets (r : BitReader) (ns : List ℕ) : BitReader := ns.foldl (fun r n => (r.get n).2) r

def rest (r : BitReader) : ℕ := r.scratch+2^r.nbits*leValue (r.buf.drop r.bytes)

def left (r : BitReader) : ℕ := r.nbits+8*(r.buf.length-r.bytes)

structure Sound (r : BitReader) : Prop where
  scratch : r.scratch < 2^r.nbits
  bits : r.nbits ≤ 64
  bytes : r.bytes ≤ r.buf.length

theorem sound_init (buf : Bytes) : Sound (init buf) :=
  ⟨by simp [init], by simp [init], by simp [init]⟩

theorem drop_value (bs : Bytes) (i k : ℕ) (h : i+k ≤ bs.length) :
    leValue (bs.drop i) = leValue ((bs.drop i).take k)+256^k*leValue (bs.drop (i+k)) := by
  have hl : ((bs.drop i).take k).length = k := by simp; omega
  have hv := leValue_append ((bs.drop i).take k) ((bs.drop i).drop k)
  rw [take_append_drop, hl, drop_drop] at hv
  exact hv

variable (r : BitReader) (k : ℕ)

theorem bank_spec (hr : Sound r) (hk : r.bytes+k ≤ r.buf.length)
    (hn : r.nbits+8*k ≤ 64) :
    let r' : BitReader :=
      {r with scratch := r.scratch+2^r.nbits*leValue ((r.buf.drop r.bytes).take k),
              bytes := r.bytes+k, nbits := r.nbits+8*k}
    Sound r' ∧ r'.rest = r.rest ∧ r'.left = r.left := by
  have hv := leValue_lt ((r.buf.drop r.bytes).take k)
  have hl : ((r.buf.drop r.bytes).take k).length = k := by simp; omega
  rw [hl, BitWriter.pow_bytes] at hv
  refine ⟨⟨?_, hn, hk⟩, ?_, ?_⟩
  · have hs := hr.scratch
    calc r.scratch+2^r.nbits*leValue ((r.buf.drop r.bytes).take k)
        < 2^r.nbits*(leValue ((r.buf.drop r.bytes).take k)+1) := by rw [mul_add]; omega
      _ ≤ 2^r.nbits*2^(8*k) := Nat.mul_le_mul_left _ hv
      _ = 2^(r.nbits+8*k) := (pow_add _ _ _).symm
  · simp only [rest]
    rw [drop_value r.buf r.bytes k hk, pow_add, BitWriter.pow_bytes]
    ring
  · simp only [left]
    omega

theorem mask_shift (h : ℕ) (hh : h ≤ 64) : (2^64-1) >>> (64-h) = 2^h-1 := by
  apply Nat.eq_of_testBit_eq
  intro j
  rw [Nat.testBit_shiftRight, Nat.testBit_two_pow_sub_one, Nat.testBit_two_pow_sub_one]
  exact decide_eq_decide.mpr (by omega)

theorem take_value (bs : Bytes) (k : ℕ) (h : k ≤ 8) (hb : 8 ≤ bs.length) :
    leValue (bs.take 8)%2^(8*k) = leValue (bs.take k) := by
  have hl : (bs.take k).length = k := by simp; omega
  have hsplit : (bs.take 8).take k = bs.take k := by rw [take_take, Nat.min_eq_left h]
  have hv := leValue_append ((bs.take 8).take k) ((bs.take 8).drop k)
  have hlt := leValue_lt (bs.take k)
  rw [take_append_drop, hsplit, hl] at hv
  rw [hl] at hlt
  rw [hv, ← BitWriter.pow_bytes, Nat.add_mul_mod_self_left, Nat.mod_eq_of_lt hlt]

theorem bulk_scratch (s w nb k : ℕ) (hs : s < 2^nb) (hk : nb+8*k ≤ 64) :
    (s ||| (w <<< nb)%2^64) &&& (2^64-1) >>> (64-(nb+8*k)) = s+2^nb*(w%2^(8*k)) := by
  rw [mask_shift _ hk, Nat.and_two_pow_sub_one_eq_mod, Nat.or_mod_two_pow,
    Nat.mod_mod_of_dvd _ (pow_dvd_pow 2 hk), shift_mod w nb _ (by omega), Nat.add_sub_cancel_left,
    Nat.mod_eq_of_lt (lt_of_lt_of_le hs (Nat.pow_le_pow_right (by decide) (by omega))),
    ← or_shift nb s _ hs, Nat.shiftLeft_eq, mul_comm]

variable (n : ℕ)

theorem bulk_spec (hr : Sound r) :
    Sound (r.bulk n) ∧ (r.bulk n).rest = r.rest ∧ (r.bulk n).left = r.left ∧
    (r.bulk n).underflow = r.underflow ∧ (r.bulk n).buf = r.buf ∧ (r.bulk n).asked = r.asked := by
  unfold bulk
  split
  · rename_i hc
    have ht : (64-r.nbits) >>> 3 = (64-r.nbits)/8 := by rw [Nat.shiftRight_eq_div_pow]
    have h8 : ((64-r.nbits)/8) <<< 3 = 8*((64-r.nbits)/8) := by rw [Nat.shiftLeft_eq]; omega
    have hle : r.nbits+8*((64-r.nbits)/8) ≤ 64 := by omega
    dsimp only
    rw [ht, h8]
    generalize (64-r.nbits)/8 = k at hle
    rw [bulk_scratch _ _ _ _ hr.scratch hle, take_value _ k (by omega) (by simp; omega)]
    obtain ⟨h1, h2, h3⟩ := bank_spec r k hr (by omega) hle
    exact ⟨h1, h2, h3, rfl, rfl, rfl⟩
  · exact ⟨hr, rfl, rfl, rfl, rfl, rfl⟩

/-- A refill to `n` bits adds the bytes missing behind the end and raises the flag when more than
one is. -/
structure Refilled (r : BitReader) (n : ℕ) (r' : BitReader) : Prop where
  sound : Sound r'
  rest : r'.rest = r.rest
  bits : n ≤ r'.nbits
  left : r'.left = if n ≤ r.left then r.left else r.left+8*((n-r.left+7)/8)
  underflow : r'.underflow = (r.underflow || decide (r.left+8 < n))
  buf : r'.buf = r.buf
  asked : r'.asked = r.asked

theorem byte_spec (hr : Sound r) (hc : r.bytes < r.buf.length) (hn : r.nbits < 56) :
    let r' : BitReader :=
      {r with scratch := r.scratch ||| ((r.buf.getD r.bytes 0).toNat <<< r.nbits)%2^64,
              bytes := r.bytes+1, nbits := r.nbits+8}
    Sound r' ∧ r'.rest = r.rest ∧ r'.left = r.left := by
  have hb := (r.buf.getD r.bytes 0).toNat_lt
  have hone : (r.buf.drop r.bytes).take 1 = [r.buf.getD r.bytes 0] := by
    rw [drop_eq_getElem_cons hc, take_succ_cons, take_zero]
    simp [hc]
  have h8 : (2:ℕ)^8 ≤ 2^(64-r.nbits) := Nat.pow_le_pow_right (by decide) (by omega)
  have hlow := lt_of_lt_of_le hb h8
  have hor : r.scratch ||| ((r.buf.getD r.bytes 0).toNat <<< r.nbits)%2^64 =
      r.scratch+2^r.nbits*leValue ((r.buf.drop r.bytes).take 1) := by
    rw [hone, leValue_cons, leValue_nil, mul_zero, add_zero, shift_mod _ _ _ (by omega),
      Nat.mod_eq_of_lt hlow, ← or_shift _ _ _ hr.scratch, Nat.shiftLeft_eq, mul_comm]
  rw [hor]
  exact bank_spec r 1 hr hc (by omega)

theorem pad_spec (u : Bool) (hr : Sound r) (hc : r.buf.length ≤ r.bytes)
    (hn : r.nbits < 56) :
    let r' : BitReader := {r with underflow := u, nbits := r.nbits+8}
    Sound r' ∧ r'.rest = r.rest ∧ r'.left = r.left+8 := by
  have hz : leValue (r.buf.drop r.bytes) = 0 := by rw [drop_eq_nil_of_le hc]; rfl
  refine ⟨⟨?_, by dsimp only; omega, hr.bytes⟩, ?_, ?_⟩
  · exact lt_of_lt_of_le hr.scratch (Nat.pow_le_pow_right (by decide) (Nat.le_add_right _ _))
  · simp only [rest]
    rw [hz]
    rfl
  · simp only [left]
    omega

theorem refilled_refl (hr : Sound r) (hd : n ≤ r.nbits) : Refilled r n r := by
  have hl : n ≤ r.left := by unfold BitReader.left; omega
  exact ⟨hr, rfl, hd, by rw [if_pos hl], by simp; omega, rfl, rfl⟩

theorem fill_spec (r : BitReader) (n : ℕ) (hr : Sound r) (hn : n ≤ 56)
    (hk : n ≤ r.nbits+8*k) : Refilled r n (fill k r n) := by
  induction k generalizing r with
  | zero => exact refilled_refl r n hr (by simpa using hk)
  | succ k ih =>
    unfold fill
    by_cases hd : n ≤ r.nbits
    · rw [if_pos hd]
      exact refilled_refl r n hr hd
    rw [if_neg hd]
    by_cases hc : r.buf.length ≤ r.bytes
    · -- behind the end: the bits on hand are all there is
      have hleft : r.left = r.nbits := by unfold BitReader.left; omega
      have hu : (if r.nbits+8 < n ∧ r.buf.length ≤ r.bytes then {r with underflow := true} else r) =
          {r with underflow := r.underflow || decide (r.left+8 < n)} := by
        by_cases h8 : r.nbits+8 < n
        · simp [h8, hc, hleft]
        · simp [h8, hleft]
      rw [if_pos hc, hu]
      dsimp only
      rw [if_neg (by omega)]
      obtain ⟨h1, h2, h3⟩ := pad_spec r (r.underflow || decide (r.left+8 < n)) hr hc (by omega)
      have hi := ih _ h1 (by dsimp only; omega)
      refine ⟨hi.sound, hi.rest.trans h2, hi.bits, ?_, ?_, hi.buf, hi.asked⟩
      · rw [hi.left, h3]
        split_ifs <;> omega
      rw [hi.underflow, h3]
      by_cases h8 : r.left+8 < n
      · simp [h8]
      · simp [h8]
        omega
    · rw [if_neg hc]
      obtain ⟨h1, h2, h3⟩ := byte_spec r hr (by omega) (by omega)
      have hi := ih _ h1 (by dsimp only; omega)
      refine ⟨hi.sound, hi.rest.trans h2, hi.bits, ?_, ?_, hi.buf, hi.asked⟩
      · rw [hi.left, h3]
      · rw [hi.underflow, h3]

theorem refill_spec (hr : Sound r) (hn : n ≤ 56) : Refilled r n (r.refill n) := by
  obtain ⟨h1, h2, h3, h4, h5, h6⟩ := bulk_spec r n hr
  have hf := fill_spec 8 (r.bulk n) n h1 hn (by omega)
  exact ⟨hf.sound, hf.rest.trans h2, hf.bits, by rw [refill, hf.left, h3],
    by rw [refill, hf.underflow, h3, h4], hf.buf.trans h5, hf.asked.trans h6⟩

structure Took (r : BitReader) (n : ℕ) (r' : BitReader) : Prop where
  sound : Sound r'
  rest : r'.rest = r.rest/2^n
  left : r'.left = if n ≤ r.left then r.left-n else r.left+8*((n-r.left+7)/8)-n
  underflow : r'.underflow = (r.underflow || decide (r.left+8 < n))
  buf : r'.buf = r.buf
  asked : r'.asked = n::r.asked

theorem get_spec (hr : Sound r) (hn : n ≤ 32) :
    (r.get n).1 = r.rest%2^n ∧ Took r n (r.get n).2 := by
  unfold get
  by_cases h0 : n = 0
  · subst h0
    have h8 : ¬r.left+8 < 0 := Nat.not_lt_zero _
    exact ⟨by simp [Nat.mod_one], ⟨hr.scratch, hr.bits, hr.bytes⟩, by simp [BitReader.rest],
      by simp [BitReader.left], by simp [h8], rfl, rfl⟩
  rw [if_neg h0]
  dsimp only
  rw [if_neg (by omega : ¬n > 64), if_neg (by omega : ¬n = 64), if_neg (by omega : ¬n = 64)]
  have hf := refill_spec r n hr (by omega)
  have hrest := hf.rest
  generalize r.refill n = q at hf hrest
  have hsplit : (2:ℕ)^q.nbits = 2^n*2^(q.nbits-n) := by
    rw [← pow_add, Nat.add_sub_cancel' hf.bits]
  have hnum : r.rest = q.scratch+2^n*(2^(q.nbits-n)*leValue (q.buf.drop q.bytes)) := by
    rw [← hrest, BitReader.rest, hsplit, mul_assoc]
  have hpos := Nat.two_pow_pos n
  refine ⟨?_, ⟨?_, ?_, ?_⟩, ?_, ?_, hf.underflow, hf.buf, ?_⟩
  · rw [Nat.and_two_pow_sub_one_eq_mod, hnum, Nat.add_mul_mod_self_left]
  · rw [Nat.shiftRight_eq_div_pow, Nat.div_lt_iff_lt_mul hpos, mul_comm, ← hsplit]
    exact hf.sound.scratch
  · exact le_trans (Nat.sub_le _ _) hf.sound.bits
  · exact hf.sound.bytes
  · rw [hnum, Nat.add_mul_div_left _ _ hpos]
    simp only [BitReader.rest, Nat.shiftRight_eq_div_pow]
  · have hl := hf.left
    have hb := hf.bits
    have hq : q.left = q.nbits+8*(q.buf.length-q.bytes) := rfl
    change q.nbits-n+8*(q.buf.length-q.bytes) = _
    by_cases hle : n ≤ r.left
    · rw [if_pos hle] at hl ⊢
      omega
    · rw [if_neg hle] at hl ⊢
      omega
  · rw [hf.asked]

theorem get_lt (hn : n < 64) : (r.get n).1 < 2^n := by
  unfold get
  by_cases h0 : n = 0
  · rw [if_pos h0]
    exact Nat.two_pow_pos n
  rw [if_neg h0]
  dsimp only
  rw [if_neg (by omega : ¬n > 64), if_neg (by omega : ¬n = 64), Nat.and_two_pow_sub_one_eq_mod]
  exact Nat.mod_lt _ (Nat.two_pow_pos n)

/-- The remaining stream begins with the fields `fs`, all of them real bits. -/
structure Carries (r : BitReader) (fs : List Field) : Prop where
  sound : Sound r
  clear : r.underflow = false
  room : width fs ≤ r.left
  number : ∃ t, r.rest = pack fs+2^width fs*t

theorem carries_init (fs : List Field) (hk : width fs ≤ 8*k) : Carries (init (leBytes k (pack fs))) fs := by
  have hlt : pack fs < 256^k := by
    rw [BitWriter.pow_bytes]
    exact lt_of_lt_of_le (pack_lt fs) (Nat.pow_le_pow_right (by decide) hk)
  refine ⟨sound_init _, rfl, ?_, 0, ?_⟩
  · simpa [left, init] using hk
  · simp [rest, init, leValue_leBytes k _ hlt]

theorem get_carries (v n : ℕ) (fs : List Field) (hn : n ≤ 32)
    (hc : Carries r ((v, n)::fs)) : (r.get n).1 = v%2^n ∧ Carries (r.get n).2 fs := by
  obtain ⟨hv, ht⟩ := get_spec r n hc.sound hn
  obtain ⟨t, hnum⟩ := hc.number
  have hroom := hc.room
  have hform : r.rest = v%2^n+2^n*(pack fs+2^width fs*t) := by
    rw [hnum, pack, width_cons, pow_add]
    ring
  obtain ⟨hlow, hhigh⟩ := low_high n (v%2^n) (pack fs+2^width fs*t) (Nat.mod_lt _ (Nat.two_pow_pos n))
  rw [width_cons] at hroom
  refine ⟨by rw [hv, hform, hlow], ht.sound, ?_, ?_, t, by rw [ht.rest, hform, hhigh]⟩
  · rw [ht.underflow, hc.clear]
    simp
    omega
  · rw [ht.left, if_pos (by omega)]
    omega

theorem carries_split (v a b : ℕ) (fs : List Field)
    (hc : Carries r ((v, a+b)::fs)) : Carries r ((v%2^a, a)::(v/2^a, b)::fs) := by
  have hw : width ((v%2^a, a)::(v/2^a, b)::fs) = width ((v, a+b)::fs) := by
    simp only [width_cons]
    omega
  obtain ⟨t, ht⟩ := hc.number
  exact ⟨hc.sound, hc.clear, by rw [hw]; exact hc.room, t, by rw [hw, ← pack_split]; exact ht⟩

theorem gets_flagged (ns : List ℕ) (hr : Sound r) (hn : ∀ n ∈ ns, n ≤ 32)
    (hu : r.underflow = true) : (r.gets ns).underflow = true := by
  induction ns generalizing r with
  | nil => exact hu
  | cons n ns ih =>
    have ht := (get_spec r n hr (hn n (by simp))).2
    exact ih _ ht.sound (fun m hm => hn m (by simp [hm])) (by rw [ht.underflow, hu]; rfl)

end BitReader

/-- The first read that passes the end asks for more than eight bits beyond it. -/
def Abrupt : ℕ → List ℕ → Prop
  | _, [] => True
  | bits, n::ns => if n ≤ bits then Abrupt (bits-n) ns else bits+8 < n

instance decidableAbrupt : ∀ (bits : ℕ) (ns : List ℕ), Decidable (Abrupt bits ns)
  | _, [] => isTrue trivial
  | bits, n::ns =>
    haveI := decidableAbrupt (bits-n) ns
    inferInstanceAs (Decidable (if n ≤ bits then Abrupt (bits-n) ns else bits+8 < n))

namespace BitReader

theorem flag_exact (r : BitReader) (ns : List ℕ) (hr : Sound r) (hu : r.underflow = false)
    (hn : ∀ n ∈ ns, n ≤ 32) :
    (∀ k, (r.gets (ns.take k)).underflow = true ↔ r.left < (ns.take k).sum) ↔ Abrupt r.left ns := by
  induction ns generalizing r with
  | nil => simp [gets, hu, Abrupt]
  | cons n ns ih =>
    have ht := (get_spec r n hr (hn n (by simp))).2
    have hns : ∀ m ∈ ns, m ≤ 32 := fun m hm => hn m (by simp [hm])
    have hstep : ∀ k, r.gets ((n::ns).take (k+1)) = (r.get n).2.gets (ns.take k) := fun k => rfl
    have hsum : ∀ k, ((n::ns).take (k+1)).sum = n+(ns.take k).sum := fun k => by simp
    rw [Abrupt]
    by_cases hle : n ≤ r.left
    · have hl : (r.get n).2.left = r.left-n := by rw [ht.left, if_pos hle]
      have hu' : (r.get n).2.underflow = false := by
        rw [ht.underflow, hu]
        simp
        omega
      rw [if_pos hle, ← hl, ← ih _ ht.sound hu' hns]
      constructor
      · intro h k
        have hk := h (k+1)
        rw [hstep, hsum] at hk
        rw [hk, hl]
        omega
      intro h k
      cases k with
      | zero => simp [gets, hu]
      | succ k =>
        rw [hstep, hsum, h k, hl]
        omega
    rw [if_neg hle]
    constructor
    · intro h
      have h1 := (h 1).mpr (by simp; omega)
      rw [hstep 0] at h1
      have h2 : (r.get n).2.underflow = true := h1
      rw [ht.underflow, hu] at h2
      simpa using h2
    intro h8 k
    cases k with
    | zero => simp [gets, hu]
    | succ k =>
      have hu' : (r.get n).2.underflow = true := by
        rw [ht.underflow]
        simp [h8]
      rw [hstep, hsum]
      have hf := gets_flagged _ (ns.take k) ht.sound
        (fun m hm => hns m (mem_of_mem_take hm)) hu'
      simp only [hf, true_iff]
      omega

theorem gets_asked (r : BitReader) (ns : List ℕ) (hr : Sound r) (hn : ∀ n ∈ ns, n ≤ 32) :
    (r.gets ns).asked = ns.reverse++r.asked ∧ (r.gets ns).buf = r.buf := by
  induction ns generalizing r with
  | nil => simp [gets]
  | cons n ns ih =>
    have ht := (get_spec r n hr (hn n (by simp))).2
    obtain ⟨h1, h2⟩ := ih _ ht.sound fun m hm => hn m (by simp [hm])
    refine ⟨?_, h2.trans ht.buf⟩
    change ((r.get n).2.gets ns).asked = _
    rw [h1, ht.asked]
    simp

end BitReader

end QEngine.BitStream

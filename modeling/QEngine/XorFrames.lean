import QEngine.BitCodes
import QEngine.Uvarint

/-!
# The frame of the floating-point codecs

Three codecs for 64-bit patterns share one frame: the first value raw, then a code for
each further value that depends on a state carried along.
-/

namespace QEngine.XorFrames
open List ByteFields BitFields BitStream BitCodes Uvarint
open BitWriter (putSafe)

section Frame
variable {S T : Type}

def putAll (step : S → Word → List Field × S) : BitWriter → S → List Word → BitWriter
  | w, _, [] => w
  | w, s, x::xs => putAll step (w.puts (step s x).1) (step s x).2 xs

def stateAfter (step : S → Word → List Field × S) : S → List Word → S
  | s, [] => s
  | s, x::xs => stateAfter step (step s x).2 xs

def xorEncode (init : Word → S) (step : S → Word → List Field × S) (xs : List Word) (cap : ℕ) :
    Except Rc Bytes :=
  match xs with
  | [] => .ok []
  | x0::xs =>
    if cap < 8 then .error .overflow else
    let out := leBytes 8 x0.toNat
    if xs = [] then .ok out else
    match (putAll step (BitWriter.init (cap-8)) (init x0) xs).finish with
    | none => .error .overflow
    | some bits => .ok (out++bits)

def readAll (step : T → Decode (Word × T)) : ℕ → T → Decode (List Word × T)
  | 0, t => pure ([], t)
  | n+1, t => do
    let p ← step t
    check
    let q ← readAll step n p.2
    pure (p.1::q.1, q.2)

structure Decoded (T : Type) where
  values : List Word
  state : Option T
  asked : List ℕ

def xorDecode (init : Word → T) (step : T → Decode (Word × T)) (bs : Bytes) (n : ℕ) :
    Except Rc (Decoded T) :=
  if n = 0 then .ok ⟨[], none, []⟩ else
  if bs.length < 8 then .error .corrupt else
  let u0 := BitVec.ofNat 64 (leValue (bs.take 8))
  if n = 1 then .ok ⟨[u0], some (init u0), []⟩ else do
  let (q, r) ← (readAll step (n-1) (init u0)).run (BitReader.init (bs.drop 8))
  .ok ⟨u0::q.1, some q.2, r.asked.reverse⟩

structure Simulates (einit : Word → S) (estep : S → Word → List Field × S) (dinit : Word → T)
    (dstep : T → Decode (Word × T)) (R : S → T → Prop) (bound : ℕ) : Prop where
  start : ∀ x, R (einit x) (dinit x)
  value : ∀ s t x, R s t → (∀ f ∈ (estep s x).1, f.2 ≤ 32) ∧ width (estep s x).1 ≤ bound ∧
    ∃ t', Yields (dstep t) (estep s x).1 (x, t') ∧ R (estep s x).2 t'

variable {einit : Word → S} {estep : S → Word → List Field × S} {dinit : Word → T}
  {dstep : T → Decode (Word × T)} {R : S → T → Prop} {bound : ℕ}

variable (h : Simulates einit estep dinit dstep R bound)

include h

theorem putAll_spec (xs : List Word) (w : BitWriter)
    (s : S) (t : T) (hr : R s t) :
    ∃ fs, putAll estep w s xs = w.puts fs ∧ (∀ f ∈ fs, f.2 < 64) ∧ width fs ≤ bound*xs.length ∧
      ∀ k ≤ xs.length, ∃ gs hs t', fs = gs++hs ∧
        Yields (readAll dstep k t) gs (xs.take k, t') ∧ R (stateAfter estep s (xs.take k)) t' := by
  induction xs generalizing w s t with
  | nil =>
    refine ⟨[], rfl, by simp, by simp, fun k hk => ⟨[], [], t, rfl, ?_, by simpa [stateAfter] using hr⟩⟩
    obtain rfl : k = 0 := by simpa using hk
    exact yields_pure _
  | cons x xs ih =>
    obtain ⟨hn, hsz, t1, hy, hr1⟩ := h.value s t x hr
    obtain ⟨fs, he, hf, hw, hk⟩ := ih (w.puts (estep s x).1) (estep s x).2 t1 hr1
    refine ⟨(estep s x).1++fs, ?_, ?_, ?_, ?_⟩
    · rw [putAll, he, BitWriter.puts, BitWriter.puts, BitWriter.puts, foldl_append]
    · intro f hf'
      rcases mem_append.mp hf' with h1 | h1
      · exact lt_of_le_of_lt (hn f h1) (by decide)
      · exact hf f h1
    · rw [width_append, length_cons, mul_add, mul_one]
      omega
    intro k hkl
    cases k with
    | zero => exact ⟨[], _, t, rfl, yields_pure _, hr⟩
    | succ k =>
      obtain ⟨gs, hs, t', hsp, hy', hr'⟩ := hk k (by simpa using hkl)
      refine ⟨(estep s x).1++gs, hs, t', by rw [hsp, append_assoc], ?_, hr'⟩
      refine yields_bind _ _ _ gs _ _ hy (yields_bind _ _ [] gs _ _ yields_check ?_)
      have hlast := yields_bind _ (fun q : List Word × T => pure (x::q.1, q.2)) gs [] _ _ hy'
        (yields_pure _)
      rwa [append_nil] at hlast

def encoderState (init : Word → S) (step : S → Word → List Field × S) : List Word → Option S
  | [] => none
  | x0::xs => some (stateAfter step (init x0) xs)

theorem xorEncode_spec (x0 : Word) (xs : List Word)
    (cap : ℕ) :
    ∃ fs, width fs ≤ bound*xs.length ∧
      xorEncode einit estep (x0::xs) cap =
        (if 8+(width fs+7)/8 ≤ cap then
          .ok (leBytes 8 x0.toNat++leBytes ((width fs+7)/8) (pack fs)) else .error .overflow) ∧
      ∀ k ≤ xs.length, ∃ gs hs t', fs = gs++hs ∧ Yields (readAll dstep k (dinit x0)) gs (xs.take k, t') ∧
        R (stateAfter estep (einit x0) (xs.take k)) t' := by
  obtain ⟨fs, he, hf, hw, hk⟩ := putAll_spec h xs _ _ _ (h.start x0)
  refine ⟨fs, hw, ?_, hk⟩
  unfold xorEncode
  dsimp only
  rw [he, BitWriter.finish_puts _ _ hf]
  by_cases h8 : cap < 8
  · rw [if_pos h8, if_neg (by omega)]
  rw [if_neg h8]
  cases xs with
  | nil =>
    have hz : width fs = 0 := by simpa using hw
    rw [if_pos rfl, hz, if_pos (by omega)]
    simp [leBytes]
  | cons x xs =>
    rw [if_neg (by simp)]
    by_cases hc : 8+(width fs+7)/8 ≤ cap
    · rw [if_pos hc, if_pos (by omega)]
    · rw [if_neg hc, if_neg (by omega)]

/-- Every front part of the values comes back from the whole encoding, with
the decoder's state related to the encoder's at that point. -/
theorem xor_round_trip {xs : List Word} {cap : ℕ}
    {bs : Bytes} (he : xorEncode einit estep xs cap = .ok bs) (k : ℕ) (hk : k ≤ xs.length) :
    ∃ d, xorDecode dinit dstep bs k = .ok d ∧ d.values = xs.take k ∧
      Option.Rel R (encoderState einit estep (xs.take k)) d.state := by
  cases k with
  | zero => exact ⟨_, rfl, rfl, Option.Rel.none⟩
  | succ k =>
    obtain ⟨x0, xs, rfl⟩ := exists_cons_of_length_pos (by omega : 0 < xs.length)
    obtain ⟨fs, -, henc, hall⟩ := xorEncode_spec h x0 xs cap
    rw [henc] at he
    split_ifs at he
    obtain ⟨ht, hd, hl, hv⟩ := first_value x0 (leBytes ((width fs+7)/8) (pack fs))
    obtain ⟨gs, hs, t, hsp, hy, hr⟩ := hall k (by simpa using hk)
    cases he
    unfold xorDecode
    rw [if_neg (by omega), if_neg (by omega), ht, hd, hv]
    cases k with
    | zero => exact ⟨_, rfl, rfl, Option.Rel.some (h.start x0)⟩
    | succ k =>
      have hc : (BitReader.init (leBytes ((width fs+7)/8) (pack fs))).Carries (gs++hs) := by
        rw [← hsp]
        exact BitReader.carries_init _ fs (by omega)
      obtain ⟨r, hrun, -⟩ := hy _ hs hc
      dsimp only
      rw [if_neg (by omega), StateT.run, Nat.add_sub_cancel, hrun]
      exact ⟨_, rfl, rfl, Option.Rel.some hr⟩

theorem xor_room (xs : List Word) (cap : ℕ)
    (hc : 8+(bound*(xs.length-1)+7)/8 ≤ cap) : ∃ bs, xorEncode einit estep xs cap = .ok bs := by
  cases xs with
  | nil => exact ⟨_, rfl⟩
  | cons x0 xs =>
    obtain ⟨fs, hw, henc, -⟩ := xorEncode_spec h x0 xs cap
    rw [length_cons, Nat.add_sub_cancel] at hc
    rw [henc, if_pos (by omega)]
    exact ⟨_, rfl⟩

omit h

end Frame

/-- `__builtin_clzll`, with 64 for zero. -/
def clz64 (x : Word) : ℕ := if x = 0 then 64 else 63-x.toNat.log2

def ctzLoop : ℕ → ℕ → ℕ
  | 0, _ => 0
  | k+1, x => if x%2 = 1 then 0 else ctzLoop k (x/2)+1

def ctz64 (x : Word) : ℕ := if x = 0 then 64 else ctzLoop 64 x.toNat

variable (x : Word)

theorem toNat_pos (h : x ≠ 0) : 0 < x.toNat := by
  rcases Nat.eq_zero_or_pos x.toNat with h0 | h0
  · exact absurd (BitVec.eq_of_toNat_eq (by simpa using h0)) h
  · exact h0

theorem clz_bound (h : x ≠ 0) : clz64 x ≤ 63 ∧ x.toNat < 2^(64-clz64 x) := by
  have hlt := x.isLt
  have hpos := toNat_pos x h
  have hlog : x.toNat.log2 < 64 := (Nat.log2_lt (by omega)).mpr hlt
  rw [clz64, if_neg h]
  refine ⟨by omega, ?_⟩
  have he : 64-(63-x.toNat.log2) = x.toNat.log2+1 := by omega
  rw [he]
  exact Nat.lt_log2_self

theorem ctzLoop_dvd (k x : ℕ) : 2^ctzLoop k x ∣ x := by
  induction k generalizing x with
  | zero => simp [ctzLoop]
  | succ k ih =>
    rw [ctzLoop]
    split
    · simp
    have he : x = 2*(x/2) := by omega
    rw [pow_succ, mul_comm]
    conv_rhs => rw [he]
    exact Nat.mul_dvd_mul_left 2 (ih (x/2))

theorem ctz_bound (h : x ≠ 0) : 2^ctz64 x ∣ x.toNat ∧ clz64 x+ctz64 x ≤ 63 := by
  obtain ⟨hc, hlt⟩ := clz_bound x h
  have hdvd : 2^ctz64 x ∣ x.toNat := by
    rw [ctz64, if_neg h]
    exact ctzLoop_dvd 64 x.toNat
  refine ⟨hdvd, ?_⟩
  have hle := Nat.le_of_dvd (toNat_pos x h) hdvd
  have hexp := (Nat.pow_lt_pow_iff_right (by decide : 1 < 2)).mp (lt_of_le_of_lt hle hlt)
  omega

theorem window (l t : ℕ) (hlt : x.toNat < 2^(64-l)) (hdvd : 2^t ∣ x.toNat) (hle : l+t ≤ 64) :
    (x >>> t).toNat < 2^(64-l-t) ∧ BitVec.ofNat 64 (x >>> t).toNat <<< t = x := by
  rw [BitVec.toNat_ushiftRight, Nat.shiftRight_eq_div_pow]
  constructor
  · rw [Nat.div_lt_iff_lt_mul (Nat.two_pow_pos t), ← pow_add, Nat.sub_add_cancel (by omega)]
    exact hlt
  apply BitVec.eq_of_toNat_eq
  have hq : x.toNat/2^t < 2^64 := lt_of_le_of_lt (Nat.div_le_self _ _) x.isLt
  rw [BitVec.toNat_shiftLeft, BitVec.toNat_ofNat, Nat.mod_eq_of_lt hq, Nat.shiftLeft_eq,
    Nat.div_mul_cancel hdvd, Nat.mod_eq_of_lt x.isLt]

def storedLen (n : ℕ) : ℕ := if n = 64 then 0 else n

def loadedLen (stored : ℕ) : ℕ := if stored = 0 then 64 else stored

theorem storedLen_loaded (n : ℕ) (h0 : 0 < n) (hn : n ≤ 64) : storedLen n < 2^6 ∧
    loadedLen (storedLen n) = n := by
  unfold storedLen loadedLen
  split_ifs <;> omega

theorem xor_back (a b : Word) : b ^^^ (a ^^^ b) = a := by
  rw [BitVec.xor_comm a b, ← BitVec.xor_assoc, BitVec.xor_self, BitVec.zero_xor]

theorem putSafe_narrow (v n : ℕ) (hn : n ≤ 64) : (∀ f ∈ putSafe v n, f.2 ≤ 32) ∧ width (putSafe v n) = n := by
  unfold putSafe
  split_ifs with h0 h1
  · simp [h0]
  · simpa using h1
  · simp
    omega

theorem narrow_cons (v n : ℕ) {fs : List Field} (hn : n ≤ 32) (h : ∀ g ∈ fs, g.2 ≤ 32) :
    ∀ g ∈ (v, n)::fs, g.2 ≤ 32 := by
  intro g hg
  rcases mem_cons.mp hg with rfl | hg
  · exact hn
  · exact h g hg

theorem ofNat_toNat_word : BitVec.ofNat 64 x.toNat = x := by
  rw [BitVec.ofNat_toNat, BitVec.setWidth_eq]

theorem yields_full {α : Type} {l : ℕ} (f : ℕ → α) {a : α} (hx : x.toNat < 2^(64-l))
    (ha : f x.toNat = a) : Yields (getSafe (64-l) >>= fun bits => pure (f bits))
    (putSafe x.toNat (64-l)) a := by
  have hy := yields_bind _ (fun bits => (pure (f bits) : Decode α)) _ [] _ a
    (yields_getSafe (by omega) hx) (by rw [ha]; exact yields_pure a)
  rwa [append_nil] at hy

theorem yields_stripped {α : Type} (l : ℕ) {t : ℕ} (f : Word → α) {a : α}
    (hx : x.toNat < 2^(64-l)) (hd : 2^t ∣ x.toNat) (hle : l+t ≤ 64) (ha : f x = a) :
    Yields (getSafe (64-l-t) >>= fun bits => pure (f (BitVec.ofNat 64 bits <<< t)))
      (putSafe (x >>> t).toNat (64-l-t)) a := by
  obtain ⟨hsmall, hback⟩ := window x l t hx hd hle
  have hy := yields_bind _ (fun bits => (pure (f (BitVec.ofNat 64 bits <<< t)) : Decode α)) _ [] _ a
    (yields_getSafe (by omega) hsmall) (by rw [hback, ha]; exact yields_pure a)
  rwa [append_nil] at hy

end QEngine.XorFrames

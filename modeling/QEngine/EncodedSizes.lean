import QEngine.GorillaChimp
import QEngine.SymbolDictionary
import QEngine.DecimalFloats

/-!
# The size of an encoded column

Every encoder stops before it writes behind its buffer, so what a successful
one leaves fits the capacity it was given.
-/

namespace QEngine.EncodedSizes
open List ByteFields BitFields BitStream Uvarint DeltaOfDelta LanePacking PatchedFrames XorFrames
open SymbolDictionary DecimalFloats

theorem writeUvarint_le (k : ℕ) (out : Bytes) (cap v : ℕ) (bs : Bytes) (ho : out.length ≤ cap)
    (h : writeUvarint k out cap v = .ok bs) : bs.length ≤ cap := by
  induction k generalizing out v with
  | zero =>
    cases h
    exact ho
  | succ k ih =>
    rw [writeUvarint] at h
    split at h
    · cases h
    dsimp only at h
    split at h
    · rw [← Except.ok.inj h, length_append, length_singleton]
      omega
    · exact ih _ _ (by rw [length_append, length_singleton]; omega) h

variable {cap : ℕ} {bs : Bytes} {xs : List Symbol}

theorem finish_le {w : BitWriter} (h : w.finish = some bs) : bs.length ≤ w.cap := by
  rw [BitWriter.finish] at h
  split_ifs at h with hover
  dsimp only at h
  split_ifs at h with hroom
  rw [← Option.some.inj h, length_append, leBytes_length]
  omega

theorem puts_cap (w : BitWriter) (fs : List Field) : (w.puts fs).cap = w.cap := by
  induction fs generalizing w with
  | nil => rfl
  | cons f fs ih => exact (ih (w.put f.1 f.2)).trans (BitWriter.put_cap w f.1 f.2)

theorem putAll_cap {S : Type} (step : S → Word → List Field × S) (w : BitWriter) (s : S) (xs : List Word) :
    (putAll step w s xs).cap = w.cap := by
  induction xs generalizing w s with
  | nil => rfl
  | cons x xs ih => exact (ih _ _).trans (puts_cap w _)

theorem xorEncode_le {S : Type} {init : Word → S} {step : S → Word → List Field × S} {xs : List Word}
    (h : xorEncode init step xs cap = .ok bs) : bs.length ≤ cap := by
  cases xs with
  | nil =>
    cases h
    exact Nat.zero_le cap
  | cons x0 xs =>
    rw [xorEncode] at h
    split_ifs at h with hcap hone
    · rw [← Except.ok.inj h, leBytes_length]
      omega
    split at h
    · cases h
    rename_i bits hbits
    have hle := finish_le hbits
    rw [putAll_cap] at hle
    change bits.length ≤ cap-8 at hle
    rw [← Except.ok.inj h, length_append, leBytes_length]
    omega

theorem dodPutAll_cap (w w' : BitWriter) (prev prevDelta : Word) (xs : List Word)
    (h : dodPutAll w prev prevDelta xs = .ok w') : w'.cap = w.cap := by
  induction xs generalizing w prev prevDelta with
  | nil => rw [← Except.ok.inj h]
  | cons x xs ih =>
    rw [dodPutAll] at h
    obtain ⟨fs, -, h⟩ := bind_ok h
    exact (ih _ _ _ h).trans (puts_cap w fs)

theorem dodEncode_le (xs : List Word) (cap : ℕ) (bs : Bytes) (h : dodEncode xs cap = .ok bs) :
    bs.length ≤ cap := by
  match xs with
  | [] =>
    cases h
    exact Nat.zero_le cap
  | [x0] =>
    rw [dodEncode] at h
    split_ifs at h with h1 h8
    rw [← Except.ok.inj h, leBytes_length]
    omega
  | x0::x1::xs =>
    rw [dodEncode] at h
    split_ifs at h with h1 h8
    dsimp only at h
    obtain ⟨out, hv, h⟩ := bind_ok h
    have hout := writeUvarint_le _ _ _ _ _ (by rw [leBytes_length]; omega) hv
    split_ifs at h with hnil
    · cases h
      exact hout
    obtain ⟨w, hw, h⟩ := bind_ok h
    cases hf : w.finish with
    | none => simp [hf] at h
    | some bits =>
      simp only [hf] at h
      have hle := finish_le hf
      rw [dodPutAll_cap _ _ _ _ _ hw] at hle
      change bits.length ≤ cap-out.length at hle
      rw [← Except.ok.inj h, length_append]
      omega

theorem dictPutAll_le (cap : ℕ) (out : Bytes) (prev : Symbol) (xs : List Symbol) (bs : Bytes)
    (ho : out.length ≤ cap) (h : dictPutAll cap out prev xs = .ok bs) : bs.length ≤ cap := by
  induction xs generalizing out prev with
  | nil =>
    cases h
    exact ho
  | cons x xs ih =>
    rw [dictPutAll] at h
    obtain ⟨out', hv, h⟩ := bind_ok h
    exact ih out' x (writeUvarint_le _ _ _ _ _ ho hv) h

theorem dictEncode_le (h : dictEncode xs cap = .ok bs) : bs.length ≤ cap := by
  cases xs with
  | nil =>
    cases h
    exact Nat.zero_le cap
  | cons x xs =>
    rw [dictEncode] at h
    obtain ⟨out, hn, h⟩ := bind_ok h
    obtain ⟨out', hf, h⟩ := bind_ok h
    have hout := writeUvarint_le _ _ _ _ _ (Nat.zero_le cap) hn
    exact dictPutAll_le cap _ x xs bs (writeUvarint_le _ _ _ _ _ hout hf) h

theorem encodeBlock_le (src : List ℕ) (cap : ℕ) (bs : Bytes) (hl : src.length ≤ pforBlock)
    (h : encodeBlock src cap false = some bs) : bs.length ≤ cap := by
  unfold encodeBlock at h
  rw [if_neg (by decide)] at h
  dsimp only at h
  generalize src.tail.foldl (fun m v => if v < m then v else m) (src.headD 0) = base at h
  have hrl : (src.map (fun v => (v+2^32-base)%2^32)).length = src.length := length_map _
  generalize src.map (fun v => (v+2^32-base)%2^32) = residuals at h hrl
  have hb := chooseB_range residuals
  generalize chooseB residuals = b at h hb
  rw [pforBlock] at hl
  have hpl : (placeholders (mask b) residuals++List.replicate (pforBlock-src.length) 0).length = 4*32 := by
    simp [placeholders, hrl, pforBlock]
    omega
  obtain ⟨-, hquads⟩ := fromQuads_toQuads 32 _ hpl
  generalize toQuads (placeholders (mask b) residuals++List.replicate (pforBlock-src.length) 0) =
    quads at h hquads
  have hpack := (packLoop_spec hb.2 quads 0 (fun _ => 0) (by decide) (fun _ => by simp)).1
  rw [hquads] at hpack
  split_ifs at h with hcap
  cases h
  simp only [length_append, leBytes_length, flatMap_quad_length, flatMap_exception_length]
  rw [pack4, hpack]
  omega

theorem pforBlocks_le (f : ℕ) (xs : List ℕ) (out : Bytes) (cap : ℕ) (bs : Bytes) (ho : out.length ≤ cap)
    (h : pforBlocks f xs out cap = .ok bs) : bs.length ≤ cap := by
  induction f generalizing xs out with
  | zero =>
    cases h
    exact ho
  | succ f ih =>
    rw [pforBlocks] at h
    split_ifs at h with hnil
    · cases h
      exact ho
    split at h
    · cases h
    rename_i block hblock
    have hle := encodeBlock_le _ _ _ (length_take_le _ _) hblock
    exact ih _ _ (by rw [length_append]; omega) h

theorem pforEncode_le (h : pforEncode xs cap = .ok bs) : bs.length ≤ cap := by
  rw [pforEncode] at h
  split_ifs at h with hnil hmany hcap
  · cases h
    exact Nat.zero_le cap
  · exact pforBlocks_le _ _ _ _ _ (by rw [leBytes_length]; omega) h

theorem pforBlocks64_le (f : ℕ) (xs : List Word) (prev : Word) (out : Bytes) (cap : ℕ) (bs : Bytes)
    (ho : out.length ≤ cap) (h : pforBlocks64 f xs prev out cap = .ok bs) : bs.length ≤ cap := by
  induction f generalizing xs prev out with
  | zero =>
    cases h
    exact ho
  | succ f ih =>
    rw [pforBlocks64] at h
    split at h
    · cases h
      exact ho
    dsimp only at h
    split at h
    · cases h
    split_ifs at h with hsmall hwide
    · split at h
      · cases h
      rename_i block hblock
      have hlen : ((zigzagDeltas prev (xs.take pforBlock)).map (· &&& 0xFFFFFFFF)).length ≤ pforBlock := by
        rw [length_map, zigzagDeltas_length]
        exact length_take_le _ _
      have hle := encodeBlock_le _ _ _ hlen hblock
      exact ih _ _ _ (by rw [length_append, length_cons]; omega) h
    · refine ih _ _ _ ?_ h
      rw [length_append, length_cons, flatMap_word_length, length_map]
      omega

theorem pforEncodeI64_le (xs : List Word) (cap : ℕ) (bs : Bytes) (h : pforEncodeI64 xs cap = .ok bs) :
    bs.length ≤ cap := by
  rw [pforEncodeI64] at h
  split_ifs at h with hnil hmany hcap
  · cases h
    exact Nat.zero_le cap
  · exact pforBlocks64_le _ _ _ _ _ _ (by rw [leBytes_length]; omega) h

theorem decPack_le {q : List Word} {scale : ℕ} {inner : Codec}
    (h : decPack q scale inner cap = .ok bs) : bs.length ≤ cap := by
  rw [decPack] at h
  split_ifs at h with hnil hscale hinner hcap hdod
  · obtain ⟨body, hb, h⟩ := bind_ok h
    have hle := dodEncode_le _ _ _ hb
    rw [← Except.ok.inj h, length_cons, length_cons]
    omega
  obtain ⟨body, hb, h⟩ := bind_ok h
  have hle := pforEncodeI64_le _ _ _ hb
  rw [← Except.ok.inj h, length_cons, length_cons]
  omega

end QEngine.EncodedSizes

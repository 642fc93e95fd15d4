import QEngine.DeltaOfDelta
import QEngine.Chimp128

/-!
# Bit streams that end too early

The flag of the reader is raised by a comparison made while padding: a read that lacks
at most eight bits is answered with zeros and no flag.
-/

namespace QEngine.TruncatedStreams
open List ByteFields BitStream BitCodes Uvarint DeltaOfDelta XorFrames GorillaChimp Chimp128

/-- A computation that checks the flag after its last read cannot succeed with
the flag raised. -/
def Guarded {α : Type} (m : Decode α) : Prop :=
  ∀ r a r', r.underflow = false → m r = .ok (a, r') → r'.underflow = false

theorem guarded_checked {α β : Type} (m : Decode α) (f : α → Decode β) (hf : ∀ a, Guarded (f a)) :
    Guarded (m >>= fun a => check >>= fun _ => f a) := by
  intro r b r' hr h
  change (m r >>= fun p => (check >>= fun _ => f p.1) p.2) = _ at h
  cases h1 : m r with
  | error e =>
    rw [h1] at h
    simp [bind, Except.bind] at h
  | ok p =>
    rw [h1] at h
    change (check p.2 >>= fun q => f p.1 q.2) = _ at h
    cases hu : p.2.underflow with
    | true => simp [check, hu, bind, Except.bind] at h
    | false =>
      have hc : check p.2 = .ok ((), p.2) := by simp [check, hu]
      rw [hc] at h
      exact hf p.1 p.2 b r' hu h

theorem guarded_map {α β : Type} (m : Decode α) (f : α → β) (hm : Guarded m) :
    Guarded (m >>= fun a => pure (f a)) := by
  intro r b r' hr h
  change (m r >>= fun p => (pure (f p.1) : Decode β) p.2) = _ at h
  cases h1 : m r with
  | error e =>
    rw [h1] at h
    simp [bind, Except.bind] at h
  | ok p =>
    rw [h1] at h
    have he : (f p.1, p.2) = (b, r') := Except.ok.inj h
    rw [← (Prod.mk.inj he).2]
    exact hm r p.1 p.2 hr h1

theorem guarded_pure {α : Type} (a : α) : Guarded (pure a) := by
  intro r b r' hr h
  obtain ⟨-, rfl⟩ := Prod.mk.inj (Except.ok.inj h)
  exact hr

theorem dodValues_guarded (n : ℕ) (prev delta : Word) : Guarded (dodValues n prev delta) := by
  induction n generalizing prev delta with
  | zero => exact guarded_pure []
  | succ n ih => exact guarded_checked _ _ fun D => guarded_map _ _ (ih _ _)

theorem readAll_guarded {T : Type} (step : T → Decode (Word × T)) (n : ℕ) (t : T) :
    Guarded (readAll step n t) := by
  induction n generalizing t with
  | zero => exact guarded_pure _
  | succ n ih => exact guarded_checked _ _ fun p => guarded_map _ _ (ih p.2)

theorem guarded_reads {α : Type} {m : Decode α} {P : α → Prop} (hg : Guarded m) (hr : Reads m P)
    {bs : Bytes} {a : α} {r : BitReader} (h : m (BitReader.init bs) = .ok (a, r))
    (hc : Abrupt (8*bs.length) r.asked.reverse) : r.asked.sum ≤ 8*bs.length := by
  obtain ⟨-, ns, hn, rfl⟩ := hr _ _ _ h
  obtain ⟨hasked, -⟩ := BitReader.gets_asked (BitReader.init bs) ns (BitReader.sound_init bs) hn
  have hleft : (BitReader.init bs).left = 8*bs.length := by simp [BitReader.left, BitReader.init]
  have hrev : ((BitReader.init bs).gets ns).asked = ns.reverse := by
    rw [hasked]
    simp [BitReader.init]
  have hu := hg _ _ _ rfl h
  rw [hrev, reverse_reverse, ← hleft] at hc
  have hf := (BitReader.flag_exact _ ns (BitReader.sound_init bs) rfl hn).mpr hc ns.length
  rw [take_length, hu, hleft] at hf
  rw [hrev, sum_reverse]
  by_contra hlt
  exact absurd (hf.mpr (by omega)) (by decide)

theorem loadedLen_le {stored : ℕ} (h : stored < 2^6) : loadedLen stored ≤ 64 := by
  unfold loadedLen
  split_ifs <;> omega

section Reading
variable {α β : Type} {T : Type}

variable {P : α → Prop}

theorem reads_field (n : ℕ) (hn : n ≤ 32) {f : ℕ → α} (hP : ∀ v, P (f v)) :
    Reads (get n >>= fun v => pure (f v)) P :=
  reads_bind (reads_get n hn) (fun v _ => reads_pure (hP v))

theorem reads_window {n : ℕ} (hn : n ≤ 64) {f : ℕ → α} (hP : ∀ v, P (f v)) :
    Reads (getSafe n >>= fun v => pure (f v)) P :=
  reads_bind (reads_getSafe n hn) (fun v _ => reads_pure (hP v))

theorem reads_ite {c : Prop} [Decidable c] {m m' : Decode α} (h : c → Reads m P)
    (h' : ¬c → Reads m' P) : Reads (if c then m else m') P := by
  split
  · exact h (by assumption)
  · exact h' (by assumption)

theorem readAll_reads (step : T → Decode (Word × T)) (I : T → Prop)
    (hs : ∀ t, I t → Reads (step t) (fun p => I p.2)) (n : ℕ) (t : T) (ht : I t) :
    Reads (readAll step n t) (fun _ => True) := by
  induction n generalizing t with
  | zero => exact reads_pure trivial
  | succ n ih =>
    refine reads_bind (hs t ht) fun p hp => reads_bind reads_check (fun _ _ => ?_)
    exact reads_bind (ih p.2 hp) fun q _ => reads_pure trivial

end Reading

theorem dodCode_reads : Reads dodCode (fun _ => True) := by
  refine reads_bind (reads_get 1 (by decide)) fun b0 _ => reads_ite (fun _ => ?_) (fun _ => ?_)
  · exact reads_pure trivial
  refine reads_bind (reads_get 1 (by decide)) fun b1 _ => reads_ite (fun _ => ?_) (fun _ => ?_)
  · exact reads_field 7 (by decide) fun _ => trivial
  refine reads_bind (reads_get 1 (by decide)) fun b2 _ => reads_ite (fun _ => ?_) (fun _ => ?_)
  · exact reads_field 9 (by decide) fun _ => trivial
  refine reads_bind (reads_get 1 (by decide)) fun b3 _ => reads_ite (fun _ => ?_) (fun _ => ?_)
  · exact reads_field 12 (by decide) fun _ => trivial
  · exact reads_field 32 (by decide) fun _ => trivial

theorem dodValues_reads (n : ℕ) (prev delta : Word) : Reads (dodValues n prev delta) (fun _ => True) := by
  induction n generalizing prev delta with
  | zero => exact reads_pure trivial
  | succ n ih =>
    refine reads_bind dodCode_reads fun D _ => reads_bind reads_check (fun _ _ => ?_)
    exact reads_bind (ih _ _) fun xs _ => reads_pure trivial

theorem gorillaValue_reads (t : GorillaDec) (ht : t.meaningful ≤ 64) :
    Reads (gorillaValue t) (fun p => p.2.meaningful ≤ 64) := by
  have hx : Reads (gorillaXor t) (fun p => p.2.meaningful ≤ 64) := by
    refine reads_bind (reads_get 1 (by decide)) fun b0 _ => reads_ite (fun _ => ?_) (fun _ => ?_)
    · exact reads_pure ht
    refine reads_bind (reads_get 1 (by decide)) fun b1 _ => reads_ite (fun _ => ?_) (fun _ => ?_)
    · exact reads_ite (fun _ => reads_fail) fun _ => reads_window ht (fun _ => ht)
    refine reads_bind (reads_get 5 (by decide)) fun leading _ => ?_
    refine reads_bind (reads_get 6 (by decide)) fun stored hs => ?_
    have hl := loadedLen_le hs
    exact reads_ite (fun _ => reads_fail) fun _ => reads_window hl (fun _ => hl)
  exact reads_bind hx fun p hp => reads_pure hp

theorem chimpValue_reads (t : Chimp) : Reads (chimpValue t) (fun _ => True) := by
  have hx : Reads (chimpXor t) (fun _ => True) := by
    refine reads_bind (reads_get 2 (by decide)) fun flag _ => reads_ite (fun _ => ?_) (fun _ => ?_)
    · exact reads_pure trivial
    refine reads_ite (fun _ => ?_) fun _ => reads_ite (fun _ => ?_) (fun _ => ?_)
    · refine reads_bind (reads_get 3 (by decide)) (fun idx _ => ?_)
      refine reads_bind (reads_get 6 (by decide)) fun stored hs => ?_
      exact reads_ite (fun _ => reads_fail)
        (fun _ => reads_window (loadedLen_le hs) (fun _ => trivial))
    · exact reads_ite (fun _ => reads_fail)
        (fun _ => reads_window (by omega) (fun _ => trivial))
    refine reads_ite (fun _ => ?_) fun _ => reads_fail
    refine reads_bind (reads_get 3 (by decide)) fun idx _ => ?_
    exact reads_window (by omega) fun _ => trivial
  exact reads_bind hx fun p _ => reads_pure trivial

theorem strippedXor_reads : Reads strippedXor (fun _ => True) := by
  refine reads_bind (reads_get 3 (by decide)) fun idx _ => ?_
  refine reads_bind (reads_get 6 (by decide)) fun stored hs => ?_
  exact reads_ite (fun _ => reads_fail)
    (fun _ => reads_window (loadedLen_le hs) (fun _ => trivial))

theorem chimp128Flag_reads (t : State) (flag : ℕ) : Reads (chimp128Flag t flag) (fun _ => True) := by
  refine reads_ite (fun _ => ?_) (fun _ => reads_ite (fun _ => ?_) (fun _ =>
    reads_ite (fun _ => ?_) (fun _ => reads_ite (fun _ => ?_) (fun _ =>
    reads_ite (fun _ => ?_) (fun _ => reads_fail)))))
  · refine reads_bind (reads_get 7 (by decide)) (fun idx _ => ?_)
    exact reads_bind strippedXor_reads fun p _ => reads_pure trivial
  · refine reads_ite (fun _ => reads_fail) (fun _ => ?_)
    refine reads_bind (reads_get 7 (by decide)) fun idx _ => ?_
    exact reads_window (by omega) fun _ => trivial
  · refine reads_bind (reads_get 3 (by decide)) (fun idx _ => ?_)
    exact reads_window (by omega) fun _ => trivial
  · exact reads_bind strippedXor_reads fun p _ => reads_pure trivial
  · exact reads_ite (fun _ => reads_fail)
      (fun _ => reads_window (by omega) (fun _ => trivial))

theorem chimp128Value_reads (t : State) : Reads (chimp128Value t) (fun _ => True) := by
  have hc : Reads (chimp128Code t) (fun _ => True) := by
    refine reads_bind (reads_get 2 (by decide)) fun pre _ => reads_ite (fun _ => ?_) (fun _ => ?_)
    · exact reads_pure trivial
    exact reads_bind (reads_get 1 (by decide)) fun bit2 _ => chimp128Flag_reads t _
  exact reads_bind hc fun p _ => reads_pure trivial

theorem xorDecode_abrupt {T : Type} {init : Word → T} {step : T → Decode (Word × T)} (I : T → Prop)
    (hi : ∀ u, I (init u)) (hs : ∀ t, I t → Reads (step t) (fun p => I p.2)) (bs : Bytes) (n : ℕ)
    (d : XorFrames.Decoded T) (h : xorDecode init step bs n = .ok d)
    (hc : Abrupt (8*(bs.length-8)) d.asked) : d.asked.sum ≤ 8*(bs.length-8) := by
  unfold xorDecode at h
  split_ifs at h
  · cases h
    simp
  · cases h
    simp
  obtain ⟨p, hrun, h⟩ := bind_ok h
  rw [← Except.ok.inj h] at hc ⊢
  have hl : 8*(bs.length-8) = 8*(bs.drop 8).length := by rw [length_drop]
  rw [hl] at hc ⊢
  rw [sum_reverse]
  exact guarded_reads (readAll_guarded _ _ _) (readAll_reads _ I hs _ _ (hi _)) hrun hc

theorem readUvarint_shorter (bs : Bytes) (shift result : ℕ) (p : ℕ × Bytes)
    (h : readUvarint bs shift result = .ok p) : p.2.length ≤ bs.length := by
  induction bs generalizing shift result with
  | nil => simp [readUvarint] at h
  | cons b bs ih =>
    rw [readUvarint] at h
    split_ifs at h
    · cases h
      simp
    have := ih _ _ h
    rw [length_cons]
    omega

theorem dodDecode_abrupt (bs : Bytes) (n : ℕ) (d : DeltaOfDelta.Decoded) (h : dodDecode bs n = .ok d)
    (hc : Abrupt (8*(bs.length-d.pos)) d.asked) : d.asked.sum ≤ 8*(bs.length-d.pos) := by
  unfold dodDecode at h
  split_ifs at h
  · cases h
    simp
  · cases h
    simp
  · obtain ⟨p, -, h⟩ := bind_ok h
    cases h
    simp
  obtain ⟨p, hv, h⟩ := bind_ok h
  obtain ⟨q, hrun, h⟩ := bind_ok h
  have hlen := readUvarint_shorter _ _ _ _ hv
  rw [length_drop] at hlen
  rw [← Except.ok.inj h] at hc ⊢
  have hl : 8*(bs.length-(bs.length-p.2.length)) = 8*p.2.length := by omega
  rw [hl] at hc ⊢
  rw [sum_reverse]
  exact guarded_reads (dodValues_guarded _ _ _) (dodValues_reads _ _ _) hrun hc

/-- The flag is exact just when the first read past the end lacks more than eight bits. -/
theorem truncation_detected (bs : Bytes) (ns : List ℕ) (hn : ∀ n ∈ ns, n ≤ 32) (n : ℕ) :
    ((∀ k, ((BitReader.init bs).gets (ns.take k)).underflow = true ↔ 8*bs.length < (ns.take k).sum) ↔
      Abrupt (8*bs.length) ns) ∧ (∀ d, dodDecode bs n = .ok d → Abrupt (8*(bs.length-d.pos)) d.asked →
      d.asked.sum ≤ 8*(bs.length-d.pos)) ∧
      (∀ d, gorillaDecode bs n = .ok d → Abrupt (8*(bs.length-8)) d.asked →
      d.asked.sum ≤ 8*(bs.length-8)) ∧ (∀ d, chimpDecode bs n = .ok d → Abrupt (8*(bs.length-8)) d.asked →
      d.asked.sum ≤ 8*(bs.length-8)) ∧ (∀ d, chimp128Decode bs n = .ok d → Abrupt (8*(bs.length-8)) d.asked →
      d.asked.sum ≤ 8*(bs.length-8)) := by
  refine ⟨?_, dodDecode_abrupt bs n, ?_, ?_, ?_⟩
  · have hleft : (BitReader.init bs).left = 8*bs.length := by simp [BitReader.left, BitReader.init]
    have hf := BitReader.flag_exact _ ns (BitReader.sound_init bs) rfl hn
    rwa [hleft] at hf
  · exact xorDecode_abrupt (fun t => t.meaningful ≤ 64) (fun _ => by simp) gorillaValue_reads bs n
  · exact xorDecode_abrupt (fun _ => True) (fun _ => trivial) (fun t _ => chimpValue_reads t) bs n
  · exact xorDecode_abrupt (fun _ => True) (fun _ => trivial) (fun t _ => chimp128Value_reads t) bs n

/-- Ten bytes: the third read of 32 bits raises the flag, and three values are
decoded with one bit of the last byte. -/
theorem truncation_detected_ten :
    Abrupt 80 [32, 32, 32] ∧ ((BitReader.init [7, 0, 0, 0, 0, 0, 0, 0, 2, 0]).gets [32, 32, 32]).underflow =
    true ∧
    dodDecode [7, 0, 0, 0, 0, 0, 0, 0, 2, 0] 3 = .ok ⟨[7, 8, 9], 9, [1]⟩ ∧ [1].sum ≤ 8*(10-9) := by
  have hd : dodDecode [7, 0, 0, 0, 0, 0, 0, 0, 2, 0] 3 = .ok ⟨[7, 8, 9], 9, [1]⟩ := by decide +kernel
  obtain ⟨hf, hdod, -⟩ := truncation_detected [7, 0, 0, 0, 0, 0, 0, 0, 2, 0] [32, 32, 32] (by decide) 3
  have ha : Abrupt 80 [32, 32, 32] := by decide
  exact ⟨ha, (hf.mpr ha 3).mpr (by decide), hd, hdod _ hd (by decide)⟩

/-- Nothing behind the first values, yet the decoders return one more. -/
theorem truncation_missed : ((BitReader.init []).gets [1]).underflow = false ∧
    8*([] : Bytes).length < [1].sum ∧
    ((BitReader.init []).gets (List.replicate 40 8)).underflow = false ∧
    dodDecode [7, 0, 0, 0, 0, 0, 0, 0, 2] 3 = .ok ⟨[7, 8, 9], 9, [1]⟩ ∧
    (gorillaDecode [7, 0, 0, 0, 0, 0, 0, 0] 2).map (fun d => (d.values, d.asked)) = .ok ([7, 7], [1]) ∧
    (chimpDecode [7, 0, 0, 0, 0, 0, 0, 0] 2).map (fun d => (d.values, d.asked)) = .ok ([7, 7], [2]) ∧
    (chimp128Decode [7, 0, 0, 0, 0, 0, 0, 0] 2).map (fun d => (d.values, d.asked)) = .ok ([7, 7], [2]) := by
  refine ⟨?_, ?_, ?_, ?_, ?_, ?_, ?_⟩ <;> decide +kernel

end QEngine.TruncatedStreams

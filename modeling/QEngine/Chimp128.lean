import QEngine.GorillaChimp

/-!
# Chimp coding against a ring of 128 patterns

Each value is coded against the one before it or against one of the last 128, found
through a hash of its top bits.
-/

namespace QEngine.Chimp128
open List ByteFields BitFields BitStream BitCodes Uvarint XorFrames GorillaChimp
open BitWriter (putSafe)

/-- `index` gives the slot last written under a hash, −1 for none. -/
structure Ring where
  ring : List Word
  index : ℕ → ℤ
  writePos : ℕ

def ringSize : ℕ := 128

def hash (bits : Word) : ℕ := (bits >>> 50).toNat &&& 16383

def ringInit : Ring := ⟨List.replicate ringSize 0, fun _ => -1, 0⟩

def ringUpdate (s : Ring) (bits : Word) : Ring where
  ring := s.ring.set s.writePos bits
  index := Function.update s.index (hash bits) s.writePos
  writePos := (s.writePos+1) &&& (ringSize-1)

def costPrevReuse (leading : ℕ) : ℕ := 3+(64-leading)

def costPrevNew (lead : ℕ) : ℕ := 3+3+(64-lead)

def costPrevStrip (lead ctz : ℕ) : ℕ := 3+3+6+(64-lead-ctz)

def costBestPrev (xor : Word) (leading : ℕ) : ℕ :=
  let lead := leadRound xor
  let best := costPrevNew lead
  let best := if trailThresh ≤ ctz64 xor ∧ costPrevStrip lead (ctz64 xor) < best
    then costPrevStrip lead (ctz64 xor) else best
  if leading ≠ noPrevLeading ∧ lead = leading ∧ costPrevReuse leading < best
    then costPrevReuse leading else best

def costRingNew (lead ctz : ℕ) : ℕ :=
  3+7+3+6+(if trailThresh ≤ ctz then 64-lead-ctz else 64-lead)

def costRingReuse (leading : ℕ) : ℕ := 3+7+(64-leading)

def costBestRing (xor : Word) (leading : ℕ) : ℕ :=
  let lead := leadRound xor
  let best := costRingNew lead (ctz64 xor)
  if leading ≠ noPrevLeading ∧ lead = leading ∧ costRingReuse leading < best
    then costRingReuse leading else best

structure State where
  ring : Ring
  prev : Word
  leading : ℕ

def init (u0 : Word) : State := ⟨ringUpdate ringInit u0, u0, noPrevLeading⟩

/-- After a value both sides store it and remember the class left by its code. -/
def advance (s : State) (cur : Word) (leading : ℕ) : State := ⟨ringUpdate s.ring cur, cur, leading⟩

def slot (s : State) (i : ℕ) : Word := s.ring.ring.getD i 0

def ringChoice (s : State) (cur : Word) : Option (ℕ × Bool) :=
  let raw := s.ring.index (hash cur)
  if raw < 0 then none else
  let idx := raw.toNat &&& (ringSize-1)
  let xor := cur ^^^ slot s idx
  if xor = 0 then none else
  if costBestRing xor s.leading < costBestPrev (cur ^^^ s.prev) s.leading then
    some (idx, decide (s.leading ≠ noPrevLeading ∧ leadRound xor = s.leading ∧
      costRingReuse s.leading ≤ costRingNew (leadRound xor) (ctz64 xor)))
  else none

def ringPuts (s : State) (xor : Word) (idx : ℕ) (reuse : Bool) : List Field × ℕ :=
  if reuse then ((2, 3)::(idx, 7)::putSafe xor.toNat (64-s.leading), s.leading) else
  let lead := leadRound xor
  let (sigLen, cut) := if trailThresh ≤ ctz64 xor then (64-lead-ctz64 xor, ctz64 xor) else (64-lead, 0)
  ((1, 3)::(idx, 7)::(leadIdx xor, 3)::(storedLen sigLen, 6)::putSafe (xor >>> cut).toNat sigLen, lead)

def prevPuts (s : State) (xor : Word) : List Field × ℕ :=
  let lead := leadRound xor
  let ctz := ctz64 xor
  let reuse := s.leading ≠ noPrevLeading ∧ lead = s.leading
  let full : List Field × ℕ := ((3, 3)::(leadIdx xor, 3)::putSafe xor.toNat (64-lead), lead)
  let again : List Field × ℕ := ((6, 3)::putSafe xor.toNat (64-s.leading), s.leading)
  if trailThresh ≤ ctz then
    let costReuse := if reuse then costPrevReuse s.leading else 2^32-1
    if costPrevStrip lead ctz ≤ costPrevNew lead ∧ costPrevStrip lead ctz ≤ costReuse then
      let sigLen := 64-lead-ctz
      ((5, 3)::(leadIdx xor, 3)::(storedLen sigLen, 6)::putSafe (xor >>> ctz).toNat sigLen, lead)
    else if reuse ∧ costReuse < costPrevNew lead then again
    else full
  else if reuse then again
  else full

def chimp128Puts (s : State) (cur : Word) : List Field × State :=
  if cur ^^^ s.prev = 0 then ([(0, 2)], advance s cur noPrevLeading) else
  let p := match ringChoice s cur with
    | some (idx, reuse) => ringPuts s (cur ^^^ slot s idx) idx reuse
    | none => prevPuts s (cur ^^^ s.prev)
  (p.1, advance s cur p.2)

def chimp128Encode : List Word → ℕ → Except Rc Bytes := xorEncode init chimp128Puts

def strippedXor : Decode (Word × ℕ) := do
  let idx ← get 3
  let stored ← get 6
  let lead := leadOf idx
  let sigLen := loadedLen stored
  if 64 < lead+sigLen then fail .corrupt else do
  let sig ← getSafe sigLen
  pure (BitVec.ofNat 64 sig <<< (64-lead-sigLen), lead)

def chimp128Flag (t : State) (flag : ℕ) : Decode (Word × ℕ) :=
  if flag = 1 then do
    let idx ← get 7
    let p ← strippedXor
    pure (slot t (idx &&& (ringSize-1)) ^^^ p.1, p.2)
  else if flag = 2 then
    if t.leading = noPrevLeading then fail .corrupt else do
    let idx ← get 7
    let bits ← getSafe (64-t.leading)
    pure (slot t (idx &&& (ringSize-1)) ^^^ BitVec.ofNat 64 bits, t.leading)
  else if flag = 3 then do
    let idx ← get 3
    let lead := leadOf idx
    let bits ← getSafe (64-lead)
    pure (t.prev ^^^ BitVec.ofNat 64 bits, lead)
  else if flag = 5 then do
    let p ← strippedXor
    pure (t.prev ^^^ p.1, p.2)
  else if flag = 6 then
    if t.leading = noPrevLeading then fail .corrupt else do
    let bits ← getSafe (64-t.leading)
    pure (t.prev ^^^ BitVec.ofNat 64 bits, t.leading)
  else fail .corrupt

def chimp128Code (t : State) : Decode (Word × ℕ) := do
  let pre ← get 2
  if pre = 0 then pure (t.prev, noPrevLeading) else do
  let bit2 ← get 1
  chimp128Flag t (pre ||| bit2 <<< 2)

def chimp128Value (t : State) : Decode (Word × State) := do
  let p ← chimp128Code t
  pure (p.1, advance t p.1 p.2)

def chimp128Decode : Bytes → ℕ → Except Rc (Decoded State) := xorDecode init chimp128Value

structure SameState (s t : State) : Prop where
  same : t = s
  range : s.leading = noPrevLeading ∨ s.leading ≤ 24

variable (t : State)

theorem yields_flag (flag : ℕ) {fs : List Field} {a : Word × ℕ} (h8 : flag < 8)
    (h0 : flag%4 ≠ 0) (h : Yields (chimp128Flag t flag) fs a) : Yields (chimp128Code t)
    ((flag, 3)::fs) a := by
  have hflag : flag%4 ||| (flag/4) <<< 2 = flag := by
    have hall : ∀ f : Fin 8, f.val%4 ||| (f.val/4) <<< 2 = f.val := by decide
    exact hall ⟨flag, h8⟩
  apply yields_split _ _ 2 1
  refine yields_bind _ _ _ _ _ _ (yields_get _ 2 (by decide) (Nat.mod_lt _ (by decide))) ?_
  rw [if_neg (by simpa using h0)]
  refine yields_bind _ _ _ _ _ _ (yields_get _ 1 (by decide) (by omega)) ?_
  change Yields (chimp128Flag t (flag%4 ||| (flag/4) <<< 2)) fs a
  rw [hflag]
  exact h

theorem yields_strippedXor {x : Word} {cut : ℕ} (h0 : x ≠ 0) (hd : 2^cut ∣ x.toNat)
    (hle : leadRound x+cut ≤ 63) :
    Yields strippedXor ((leadIdx x, 3)::(storedLen (64-leadRound x-cut), 6)::
      putSafe (x >>> cut).toNat (64-leadRound x-cut)) (x, leadRound x) := by
  obtain ⟨-, -, hidx, hof⟩ := lead_spec h0
  obtain ⟨hst, hld⟩ := storedLen_loaded (64-leadRound x-cut) (by omega) (by omega)
  have htr : 64-leadRound x-(64-leadRound x-cut) = cut := by omega
  refine yields_bind _ _ _ _ _ _ (yields_get _ 3 (by decide) hidx) ?_
  refine yields_bind _ _ [(_, 6)] _ _ _ (yields_get _ 6 (by decide) hst) ?_
  rw [hof, hld, if_neg (by omega), htr]
  exact yields_stripped x _ (fun y => (y, leadRound x)) (below_lead h0) hd (by omega) rfl

def Coded (t : State) (cur : Word) (p : List Field × ℕ) : Prop :=
  (∀ f ∈ p.1, f.2 ≤ 32) ∧ width p.1 ≤ 83 ∧ Yields (chimp128Code t) p.1 (cur, p.2) ∧
    (p.2 = noPrevLeading ∨ p.2 ≤ 24)

variable {idx : ℕ} {reuse : Bool}

theorem mask_idx (hi : idx < 2^7) : idx &&& (ringSize-1) = idx := by
  have hm := Nat.and_two_pow_sub_one_eq_mod idx 7
  rw [Nat.mod_eq_of_lt hi] at hm
  exact hm

theorem stripped_fields (x : Word) (cut : ℕ) (hle : leadRound x+cut ≤ 63) :
    (∀ f ∈ (leadIdx x, 3)::(storedLen (64-leadRound x-cut), 6)::
      putSafe (x >>> cut).toNat (64-leadRound x-cut), f.2 ≤ 32) ∧
    width ((leadIdx x, 3)::(storedLen (64-leadRound x-cut), 6)::
      putSafe (x >>> cut).toNat (64-leadRound x-cut)) ≤ 73 := by
  obtain ⟨hn, hwid⟩ := putSafe_narrow (x >>> cut).toNat (64-leadRound x-cut) (by omega)
  refine ⟨narrow_cons _ 3 (by decide) (narrow_cons _ 6 (by decide) hn), ?_⟩
  simp only [width_cons, hwid]
  omega

variable (cur : Word)

theorem coded_ring_reuse (hi : idx < 2^7) (h0 : cur ^^^ slot t idx ≠ 0) (hp : t.leading ≠ noPrevLeading)
    (hl : leadRound (cur ^^^ slot t idx) = t.leading) :
    Coded t cur ((2, 3)::(idx, 7)::putSafe (cur ^^^ slot t idx).toNat (64-t.leading), t.leading) := by
  obtain ⟨hn, hwid⟩ := putSafe_narrow (cur ^^^ slot t idx).toNat (64-t.leading) (by omega)
  refine ⟨narrow_cons _ 3 (by decide) (narrow_cons _ 7 (by decide) hn), ?_, ?_, ?_⟩
  · simp only [width_cons, hwid]
    omega
  · apply yields_flag t 2 (by decide) (by decide)
    unfold chimp128Flag
    rw [if_neg (by decide), if_pos rfl, if_neg hp]
    refine yields_bind _ _ _ _ _ _ (yields_get _ 7 (by decide) hi) ?_
    refine yields_full _ (fun bits => (slot t (idx &&& (ringSize-1)) ^^^ BitVec.ofNat 64 bits, t.leading))
      (by rw [← hl]; exact below_lead h0) ?_
    rw [ofNat_toNat_word, mask_idx hi, xor_back]
  · exact .inr (by rw [← hl]; exact (lead_spec h0).2.1)

theorem coded_ring_new (idx cut : ℕ) (hi : idx < 2^7)
    (h0 : cur ^^^ slot t idx ≠ 0) (hd : 2^cut ∣ (cur ^^^ slot t idx).toNat)
    (hle : leadRound (cur ^^^ slot t idx)+cut ≤ 63) :
    Coded t cur ((1, 3)::(idx, 7)::(leadIdx (cur ^^^ slot t idx), 3)::
      (storedLen (64-leadRound (cur ^^^ slot t idx)-cut), 6)::
      putSafe ((cur ^^^ slot t idx) >>> cut).toNat (64-leadRound (cur ^^^ slot t idx)-cut),
      leadRound (cur ^^^ slot t idx)) := by
  obtain ⟨hn, hwid⟩ := stripped_fields _ cut hle
  refine ⟨narrow_cons _ 3 (by decide) (narrow_cons _ 7 (by decide) hn), ?_, ?_, .inr (lead_spec h0).2.1⟩
  · rw [width_cons, width_cons]
    omega
  apply yields_flag t 1 (by decide) (by decide)
  unfold chimp128Flag
  refine yields_bind _ _ _ _ _ _ (yields_get _ 7 (by decide) hi) ?_
  have hy := yields_bind _ (fun p : Word × ℕ => pure (slot t (idx &&& (ringSize-1)) ^^^ p.1, p.2)) _ [] _
    _ (yields_strippedXor h0 hd hle)
    (by rw [mask_idx hi, xor_back]; exact yields_pure _)
  rwa [append_nil] at hy

theorem coded_ring (hi : idx < 2^7) (h0 : cur ^^^ slot t idx ≠ 0)
    (hr : reuse = true → t.leading ≠ noPrevLeading ∧ leadRound (cur ^^^ slot t idx) = t.leading) :
    Coded t cur (ringPuts t (cur ^^^ slot t idx) idx reuse) := by
  obtain ⟨h1, h24, -, -⟩ := lead_spec h0
  obtain ⟨hdvd, hle⟩ := ctz_bound _ h0
  unfold ringPuts
  cases reuse with
  | true => exact coded_ring_reuse t cur hi h0 (hr rfl).1 (hr rfl).2
  | false =>
    rw [if_neg (by decide)]
    split_ifs
    · exact coded_ring_new t cur idx _ hi h0 hdvd (by omega)
    · exact coded_ring_new t cur idx 0 hi h0 (one_dvd _) (by omega)

variable (h0 : cur ^^^ t.prev ≠ 0)

include h0

theorem coded_prev_full : Coded t cur ((3, 3)::(leadIdx (cur ^^^ t.prev), 3)::
      putSafe (cur ^^^ t.prev).toNat (64-leadRound (cur ^^^ t.prev)), leadRound (cur ^^^ t.prev)) := by
  obtain ⟨-, h24, hidx, hof⟩ := lead_spec h0
  obtain ⟨hn, hwid⟩ := putSafe_narrow (cur ^^^ t.prev).toNat (64-leadRound (cur ^^^ t.prev)) (by omega)
  refine ⟨narrow_cons _ 3 (by decide) (narrow_cons _ 3 (by decide) hn), ?_, ?_, .inr h24⟩
  · simp only [width_cons, hwid]
    omega
  apply yields_flag t 3 (by decide) (by decide)
  unfold chimp128Flag
  rw [if_neg (by decide), if_neg (by decide), if_pos rfl]
  refine yields_bind _ _ _ _ _ _ (yields_get _ 3 (by decide) hidx) ?_
  rw [hof]
  exact yields_full _ (fun bits => (t.prev ^^^ BitVec.ofNat 64 bits, leadRound (cur ^^^ t.prev)))
    (below_lead h0) (by rw [ofNat_toNat_word, xor_back])

theorem coded_prev_again (hp : t.leading ≠ noPrevLeading) (hl : leadRound (cur ^^^ t.prev) = t.leading) :
    Coded t cur ((6, 3)::putSafe (cur ^^^ t.prev).toNat (64-t.leading), t.leading) := by
  obtain ⟨hn, hwid⟩ := putSafe_narrow (cur ^^^ t.prev).toNat (64-t.leading) (by omega)
  refine ⟨narrow_cons _ 3 (by decide) hn, ?_, ?_, .inr (by rw [← hl]; exact (lead_spec h0).2.1)⟩
  · simp only [width_cons, hwid]
    omega
  apply yields_flag t 6 (by decide) (by decide)
  unfold chimp128Flag
  rw [if_neg (by decide), if_neg (by decide), if_neg (by decide), if_neg (by decide), if_pos rfl, if_neg hp]
  exact yields_full _ (fun bits => (t.prev ^^^ BitVec.ofNat 64 bits, t.leading))
    (by rw [← hl]; exact below_lead h0) (by rw [ofNat_toNat_word, xor_back])

theorem coded_prev_strip : Coded t cur ((5, 3)::(leadIdx (cur ^^^ t.prev), 3)::
      (storedLen (64-leadRound (cur ^^^ t.prev)-ctz64 (cur ^^^ t.prev)), 6)::
      putSafe ((cur ^^^ t.prev) >>> ctz64 (cur ^^^ t.prev)).toNat
        (64-leadRound (cur ^^^ t.prev)-ctz64 (cur ^^^ t.prev)), leadRound (cur ^^^ t.prev)) := by
  obtain ⟨h1, h24, -, -⟩ := lead_spec h0
  obtain ⟨hdvd, hle⟩ := ctz_bound _ h0
  obtain ⟨hn, hwid⟩ := stripped_fields (cur ^^^ t.prev) (ctz64 (cur ^^^ t.prev)) (by omega)
  refine ⟨narrow_cons _ 3 (by decide) hn, ?_, ?_, .inr h24⟩
  · rw [width_cons]
    omega
  apply yields_flag t 5 (by decide) (by decide)
  unfold chimp128Flag
  rw [if_neg (by decide), if_neg (by decide), if_neg (by decide), if_pos rfl]
  have hy := yields_bind _ (fun p : Word × ℕ => pure (t.prev ^^^ p.1, p.2)) _ [] _
    _ (yields_strippedXor h0 hdvd (by omega))
    (by rw [xor_back]; exact yields_pure _)
  rwa [append_nil] at hy

theorem coded_prev : Coded t cur (prevPuts t (cur ^^^ t.prev)) := by
  unfold prevPuts
  dsimp only
  split_ifs with h1 h2 h3 h4 h5 h6
  all_goals first
    | exact coded_prev_strip t cur h0
    | exact coded_prev_full t cur h0
    | exact coded_prev_again t cur h0 (by tauto) (by tauto)

omit h0

theorem ringChoice_spec {s : State} {cur : Word} (h : ringChoice s cur = some (idx, reuse)) :
    idx < 2^7 ∧ cur ^^^ slot s idx ≠ 0 ∧
    (reuse = true → s.leading ≠ noPrevLeading ∧ leadRound (cur ^^^ slot s idx) = s.leading) := by
  unfold ringChoice at h
  dsimp only at h
  split_ifs at h with h1 h2 h3
  obtain ⟨rfl, rfl⟩ := Prod.mk.inj (Option.some.inj h)
  refine ⟨?_, h2, fun hr => ?_⟩
  · exact Nat.and_lt_two_pow _ (by decide)
  · have hd := of_decide_eq_true hr
    exact ⟨hd.1, hd.2.1⟩

theorem chimp128_simulates : Simulates init chimp128Puts init chimp128Value SameState 83 where
  start x := ⟨rfl, .inl rfl⟩
  value s t x hr := by
    obtain ⟨rfl, hrange⟩ := hr
    have hframe : ∀ p : List Field × ℕ, Coded t x p →
        (∀ f ∈ p.1, f.2 ≤ 32) ∧ width p.1 ≤ 83 ∧
        ∃ t', Yields (chimp128Value t) p.1 (x, t') ∧ SameState (advance t x p.2) t' := by
      rintro p ⟨hn, hw, hy, hl⟩
      refine ⟨hn, hw, advance t x p.2, ?_, rfl, hl⟩
      have hv := yields_bind _ (fun q : Word × ℕ => pure (q.1, advance t q.1 q.2)) _ [] _ _ hy
        (yields_pure _)
      rwa [append_nil] at hv
    unfold chimp128Puts
    by_cases h0 : x ^^^ t.prev = 0
    · rw [if_pos h0]
      have hx : t.prev = x := by
        have hb := xor_back x t.prev
        rw [h0] at hb
        simpa using hb
      refine hframe ([(0, 2)], noPrevLeading) ⟨by simp, by simp, ?_, .inl rfl⟩
      rw [← hx]
      exact yields_bind _ _ [(0, 2)] [] 0 _ (yields_get 0 2 (by decide) (by decide)) (yields_pure _)
    rw [if_neg h0]
    cases hc : ringChoice t x with
    | none => exact hframe _ (coded_prev t x h0)
    | some c =>
      obtain ⟨hi, hne, hre⟩ := ringChoice_spec hc
      exact hframe _ (coded_ring t x hi hne hre)

/-- Every front part of the list comes back, after which the two rings are the same. -/
theorem chimp128_round_trip (xs : List Word) (cap : ℕ) (bs : Bytes) (he : chimp128Encode xs cap = .ok bs) :
    (∃ d, chimp128Decode bs xs.length = .ok d ∧ d.values = xs) ∧
    ∀ k ≤ xs.length, ∃ d, chimp128Decode bs k = .ok d ∧ d.values = xs.take k ∧
      d.state.map (fun t => (t.ring.ring, t.ring.writePos)) =
        (encoderState init chimp128Puts (xs.take k)).map (fun s => (s.ring.ring, s.ring.writePos)) := by
  have hall := xor_round_trip chimp128_simulates he
  refine ⟨?_, fun k hk => ?_⟩
  · obtain ⟨d, hd, hv, -⟩ := hall xs.length le_rfl
    exact ⟨d, hd, by rw [hv, take_length]⟩
  obtain ⟨d, hd, hv, hr⟩ := hall k hk
  refine ⟨d, hd, hv, ?_⟩
  generalize encoderState init chimp128Puts (xs.take k) = o at hr
  generalize d.state = q at hr
  cases hr with
  | none => rfl
  | some h => rw [Option.map_some, Option.map_some, h.same]

def throughRing : List Word := [0x3FF0000000000000, 0x4000000000000000, 0x3FF0000000000001]

theorem chimp128_round_trip_through_ring :
    chimp128Encode throughRing 40 = .ok [0, 0, 0, 0, 0, 0, 240, 63, 5, 243, 127, 1, 28, 13, 0, 0, 0, 0, 0] ∧
    ∃ d, chimp128Decode [0, 0, 0, 0, 0, 0, 240, 63, 5, 243, 127, 1, 28, 13, 0, 0, 0, 0, 0]
    throughRing.length = .ok d ∧
      d.values = throughRing :=
  have he :
    chimp128Encode throughRing 40 =
    .ok [0, 0, 0, 0, 0, 0, 240, 63, 5, 243, 127, 1, 28, 13, 0, 0, 0, 0, 0] := by
    decide +kernel
  ⟨he, (chimp128_round_trip _ 40 _ he).1⟩

end QEngine.Chimp128

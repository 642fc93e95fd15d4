import QEngine.XorFrames

/-!
# Gorilla and Chimp coding of 64-bit patterns

Both codecs store the exclusive or of each value with the one before it. Chimp rounds
the leading zeros to one of eight classes, and strips trailing zeros, reuses the class
or starts a new one; 65 stands for no class.
-/

namespace QEngine.GorillaChimp
open List ByteFields BitFields BitStream BitCodes Uvarint XorFrames
open BitWriter (putSafe)

structure GorillaEnc where
  prev : Word
  leading : ℕ
  trailing : ℕ
  window : Bool
  deriving DecidableEq

def gorillaPuts (s : GorillaEnc) (cur : Word) : List Field × GorillaEnc :=
  let xor := cur ^^^ s.prev
  let s := {s with prev := cur}
  if xor = 0 then ([(0, 1)], s) else
  let leading := if clz64 xor > 31 then 31 else clz64 xor
  let trailing := ctz64 xor
  let meaningful := 64-leading-trailing
  if s.window = true ∧ s.leading ≤ leading ∧ s.trailing ≤ trailing then
    ((1, 2)::putSafe (xor >>> s.trailing).toNat (64-s.leading-s.trailing), s)
  else
    ((3, 2)::(leading, 5)::(storedLen meaningful, 6)::putSafe (xor >>> trailing).toNat meaningful,
      {s with leading := leading, trailing := trailing, window := true})

def gorillaEncode : List Word → ℕ → Except Rc Bytes :=
  xorEncode (fun u0 => ⟨u0, 0, 0, false⟩) gorillaPuts

structure GorillaDec where
  prev : Word
  trailing : ℕ
  meaningful : ℕ
  window : Bool
  deriving DecidableEq

def gorillaXor (t : GorillaDec) : Decode (Word × GorillaDec) := do
  let b0 ← get 1
  if b0 = 0 then pure (0, t) else do
  let b1 ← get 1
  if b1 = 0 then
    if t.window = false then fail .corrupt else do
    let bits ← getSafe t.meaningful
    pure (BitVec.ofNat 64 bits <<< t.trailing, t)
  else do
    let leading ← get 5
    let stored ← get 6
    let meaningful := loadedLen stored
    if 64 < leading+meaningful then fail .corrupt else do
    let trailing := 64-leading-meaningful
    let bits ← getSafe meaningful
    pure (BitVec.ofNat 64 bits <<< trailing,
      {t with trailing := trailing, meaningful := meaningful, window := true})

def gorillaValue (t : GorillaDec) : Decode (Word × GorillaDec) := do
  let p ← gorillaXor t
  let cur := p.2.prev ^^^ p.1
  pure (cur, {p.2 with prev := cur})

def gorillaDecode : Bytes → ℕ → Except Rc (Decoded GorillaDec) :=
  xorDecode (fun u0 => ⟨u0, 0, 0, false⟩) gorillaValue

structure SameWindow (s : GorillaEnc) (t : GorillaDec) : Prop where
  prev : t.prev = s.prev
  window : t.window = s.window
  trailing : s.window = true → t.trailing = s.trailing
  meaningful : s.window = true → t.meaningful = 64-s.leading-s.trailing
  fits : s.window = true → s.leading+s.trailing ≤ 63

variable {x : Word}

theorem gorilla_reuse {s : GorillaEnc} {t : GorillaDec} (h0 : x ≠ 0) (hr : SameWindow s t)
    (hw : s.window = true) (hl : s.leading ≤ clz64 x) (ht : s.trailing ≤ ctz64 x) :
    Yields (gorillaXor t) ((1, 2)::putSafe (x >>> s.trailing).toNat (64-s.leading-s.trailing)) (x, t) := by
  obtain ⟨-, hlt⟩ := clz_bound x h0
  obtain ⟨hdvd, -⟩ := ctz_bound x h0
  have hfit := hr.fits hw
  have hopen : t.window ≠ false := by
    rw [hr.window, hw]
    decide
  refine yields_bit 1 1 (yields_bind _ _ [(0, 1)] _ 0 _ (yields_get 0 1 (by decide) (by decide)) ?_)
  rw [if_pos rfl, if_neg hopen, hr.meaningful hw, hr.trailing hw]
  exact yields_stripped x _ (fun y => (y, t))
    (lt_of_lt_of_le hlt (Nat.pow_le_pow_right (by decide) (by omega)))
    (dvd_trans (pow_dvd_pow 2 ht) hdvd) (by omega) rfl

theorem gorilla_open (t : GorillaDec) {l : ℕ} (h0 : x ≠ 0) (hl : l ≤ clz64 x) (hl5 : l < 2^5) :
    Yields (gorillaXor t)
    ((3, 2)::(l, 5)::(storedLen (64-l-ctz64 x), 6)::putSafe (x >>> ctz64 x).toNat (64-l-ctz64 x))
      (x, {t with trailing := ctz64 x, meaningful := 64-l-ctz64 x, window := true}) := by
  obtain ⟨-, hlt⟩ := clz_bound x h0
  obtain ⟨hdvd, hle⟩ := ctz_bound x h0
  obtain ⟨hst, hld⟩ := storedLen_loaded (64-l-ctz64 x) (by omega) (by omega)
  have htr : 64-l-(64-l-ctz64 x) = ctz64 x := by omega
  refine yields_bit 3 1 (yields_bind _ _ [(1, 1)] _ 1 _ (yields_get 1 1 (by decide) (by decide)) ?_)
  rw [if_neg (by decide)]
  refine yields_bind _ _ [(l, 5)] _ l _ (yields_get l 5 (by decide) hl5) ?_
  refine yields_bind _ _ [_] _ _ _ (yields_get _ 6 (by decide) hst) ?_
  dsimp only
  rw [hld, if_neg (by omega), htr]
  exact yields_stripped x l
    (fun y => (y, {t with trailing := ctz64 x, meaningful := 64-l-ctz64 x, window := true}))
    (lt_of_lt_of_le hlt (Nat.pow_le_pow_right (by decide) (by omega))) hdvd (by omega) rfl

theorem gorilla_value (t t' : GorillaDec) (x y : Word) (fs : List Field) (hx : t'.prev ^^^ y = x)
    (h : Yields (gorillaXor t) fs (y, t')) : Yields (gorillaValue t) fs (x, {t' with prev := x}) := by
  have hy := yields_bind _ (fun p : Word × GorillaDec =>
    pure (p.2.prev ^^^ p.1, {p.2 with prev := p.2.prev ^^^ p.1})) fs [] _ _ h
    (by rw [hx]; exact yields_pure _)
  rwa [append_nil] at hy

theorem gorilla_simulates : Simulates (fun u0 => (⟨u0, 0, 0, false⟩ : GorillaEnc)) gorillaPuts
      (fun u0 => (⟨u0, 0, 0, false⟩ : GorillaDec)) gorillaValue SameWindow 77 where
  start x := ⟨rfl, rfl, by simp, by simp, by simp⟩
  value s t x hr := by
    have hback : t.prev ^^^ (x ^^^ s.prev) = x := by rw [hr.prev, xor_back]
    unfold gorillaPuts
    dsimp only
    by_cases h0 : x ^^^ s.prev = 0
    · rw [if_pos h0]
      rw [h0] at hback
      refine ⟨by simp, by simp, _, gorilla_value t t x 0 [(0, 1)] hback ?_, ?_⟩
      · exact yields_bind _ _ [(0, 1)] [] 0 _ (yields_get 0 1 (by decide) (by decide)) (yields_pure _)
      · exact ⟨rfl, hr.window, hr.trailing, hr.meaningful, hr.fits⟩
    rw [if_neg h0]
    generalize x ^^^ s.prev = y at h0 hback
    generalize hL : (if clz64 y > 31 then 31 else clz64 y) = L
    have hL31 : L ≤ 31 ∧ L ≤ clz64 y := by
      rw [← hL]
      split_ifs <;> omega
    obtain ⟨hdvd, hle⟩ := ctz_bound y h0
    split_ifs with hw
    · obtain ⟨hn, hwid⟩ := putSafe_narrow (y >>> s.trailing).toNat (64-s.leading-s.trailing) (by omega)
      refine ⟨narrow_cons _ _ (by decide) hn, ?_, _, gorilla_value t t x y _ hback
        (gorilla_reuse h0 hr hw.1 (by omega) hw.2.2), ?_⟩
      · rw [width_cons, hwid]
        omega
      · exact ⟨rfl, hr.window, hr.trailing, hr.meaningful, hr.fits⟩
    obtain ⟨hn, hwid⟩ := putSafe_narrow (y >>> ctz64 y).toNat (64-L-ctz64 y) (by omega)
    have hy := gorilla_open t h0 hL31.2 (by omega)
    refine ⟨narrow_cons 3 2 (by decide) (narrow_cons L 5 (by decide) (narrow_cons _ 6 (by decide) hn)),
      ?_, _, gorilla_value t _ x y _ ?_ hy, ?_⟩
    · simp only [width_cons, hwid]
      omega
    · exact hback
    · exact ⟨rfl, rfl, fun _ => rfl, fun _ => rfl, fun _ => by dsimp only; omega⟩

def leadingRound : List ℕ :=
  List.replicate 8 0++List.replicate 4 8++List.replicate 4 12++List.replicate 2 16++
  List.replicate 2 18++List.replicate 2 20++List.replicate 2 22++List.replicate 41 24

def leadingIdx : List ℕ :=
  List.replicate 8 0++List.replicate 4 1++List.replicate 4 2++List.replicate 2 3++
  List.replicate 2 4++List.replicate 2 5++List.replicate 2 6++[7]

def idxToLeading : List ℕ := [0, 8, 12, 16, 18, 20, 22, 24]

def noPrevLeading : ℕ := 65

def trailThresh : ℕ := 7

def leadRound (x : Word) : ℕ := leadingRound.getD (if clz64 x < 65 then clz64 x else 64) 0

def leadIdx (x : Word) : ℕ := leadingIdx.getD (leadRound x) 0

def leadOf (idx : ℕ) : ℕ := idxToLeading.getD (idx &&& 7) 0

structure Chimp where
  prev : Word
  leading : ℕ
  deriving DecidableEq

def chimpPuts (s : Chimp) (cur : Word) : List Field × Chimp :=
  let xor := cur ^^^ s.prev
  if xor = 0 then ([(0, 2)], {s with prev := cur}) else
  let ctz := ctz64 xor
  if trailThresh ≤ ctz then
    let sigLen := 64-leadRound xor-ctz
    ((1, 2)::(leadIdx xor, 3)::(storedLen sigLen, 6)::putSafe (xor >>> ctz).toNat sigLen,
      ⟨cur, noPrevLeading⟩)
  else if s.leading ≠ noPrevLeading ∧ leadRound xor = s.leading then
    ((2, 2)::putSafe xor.toNat (64-s.leading), {s with prev := cur})
  else
    ((3, 2)::(leadIdx xor, 3)::putSafe xor.toNat (64-leadRound xor), ⟨cur, leadRound xor⟩)

def chimpEncode : List Word → ℕ → Except Rc Bytes :=
  xorEncode (fun u0 => ⟨u0, noPrevLeading⟩) chimpPuts

def chimpXor (t : Chimp) : Decode (Word × ℕ) := do
  let flag ← get 2
  if flag = 0 then pure (0, t.leading) else
  if flag = 1 then do
    let idx ← get 3
    let stored ← get 6
    let lead := leadOf idx
    let sigLen := loadedLen stored
    if 64 < lead+sigLen then fail .corrupt else do
    let ctz := 64-lead-sigLen
    let sig ← getSafe sigLen
    pure (BitVec.ofNat 64 sig <<< ctz, noPrevLeading)
  else if flag = 2 then
    if t.leading = noPrevLeading then fail .corrupt else do
    let bits ← getSafe (64-t.leading)
    pure (BitVec.ofNat 64 bits, t.leading)
  else if flag = 3 then do
    let idx ← get 3
    let lead := leadOf idx
    let bits ← getSafe (64-lead)
    pure (BitVec.ofNat 64 bits, lead)
  else fail .corrupt

def chimpValue (t : Chimp) : Decode (Word × Chimp) := do
  let p ← chimpXor t
  let cur := t.prev ^^^ p.1
  pure (cur, ⟨cur, p.2⟩)

def chimpDecode : Bytes → ℕ → Except Rc (Decoded Chimp) :=
  xorDecode (fun u0 => ⟨u0, noPrevLeading⟩) chimpValue

theorem lead_spec (h : x ≠ 0) :
    leadRound x ≤ clz64 x ∧ leadRound x ≤ 24 ∧ leadIdx x < 2^3 ∧ leadOf (leadIdx x) = leadRound x := by
  have hall : ∀ c : Fin 65, leadingRound.getD c 0 ≤ c ∧ leadingRound.getD c 0 ≤ 24 ∧
    leadingIdx.getD (leadingRound.getD c 0) 0 < 2^3 ∧
    leadOf (leadingIdx.getD (leadingRound.getD c 0) 0) = leadingRound.getD c 0 := by decide +kernel
  have hc := (clz_bound x h).1
  have hr : leadRound x = leadingRound.getD (clz64 x) 0 := by rw [leadRound, if_pos (by omega)]
  have h1 := hall ⟨clz64 x, by omega⟩
  unfold leadIdx
  rw [hr]
  exact h1

theorem below_lead (h : x ≠ 0) : x.toNat < 2^(64-leadRound x) := by
  obtain ⟨h1, -⟩ := lead_spec h
  exact lt_of_lt_of_le (clz_bound x h).2 (Nat.pow_le_pow_right (by decide) (by omega))

structure SameClass (s t : Chimp) : Prop where
  same : t = s
  range : s.leading = noPrevLeading ∨ s.leading ≤ 24

theorem chimp_value {t : Chimp} {y : Word} (l : ℕ) (fs : List Field) (hx : t.prev ^^^ y = x)
    (h : Yields (chimpXor t) fs (y, l)) : Yields (chimpValue t) fs (x, ⟨x, l⟩) := by
  have hy := yields_bind _ (fun p : Word × ℕ =>
    pure (t.prev ^^^ p.1, (⟨t.prev ^^^ p.1, p.2⟩ : Chimp))) fs [] _ _ h
    (by rw [hx]; exact yields_pure _)
  rwa [append_nil] at hy

theorem chimp_strip (x : Word) (t : Chimp) (h0 : x ≠ 0) :
    Yields (chimpXor t) ((1, 2)::(leadIdx x, 3)::(storedLen (64-leadRound x-ctz64 x), 6)::
      putSafe (x >>> ctz64 x).toNat (64-leadRound x-ctz64 x)) (x, noPrevLeading) := by
  obtain ⟨h1, h24, hidx, hof⟩ := lead_spec h0
  obtain ⟨hdvd, hle⟩ := ctz_bound x h0
  obtain ⟨hst, hld⟩ := storedLen_loaded (64-leadRound x-ctz64 x) (by omega) (by omega)
  have htr : 64-leadRound x-(64-leadRound x-ctz64 x) = ctz64 x := by omega
  refine yields_bind _ _ [(1, 2)] _ 1 _ (yields_get 1 2 (by decide) (by decide)) ?_
  refine yields_bind _ _ _ _ _ _ (yields_get _ 3 (by decide) hidx) ?_
  refine yields_bind _ _ [(_, 6)] _ _ _ (yields_get _ 6 (by decide) hst) ?_
  dsimp only
  rw [hof, hld, if_neg (by omega), htr]
  exact yields_stripped x _ (fun y => (y, noPrevLeading)) (below_lead h0) hdvd (by omega) rfl

theorem chimp_simulates :
    Simulates (fun u0 => (⟨u0, noPrevLeading⟩ : Chimp)) chimpPuts (fun u0 => ⟨u0, noPrevLeading⟩)
      chimpValue SameClass 69 where
  start x := ⟨rfl, .inl rfl⟩
  value s t x hr := by
    obtain ⟨rfl, hrange⟩ := hr
    have hback := xor_back x t.prev
    unfold chimpPuts
    dsimp only
    by_cases h0 : x ^^^ t.prev = 0
    · rw [if_pos h0]
      rw [h0] at hback
      refine ⟨by simp, by simp, _, chimp_value t.leading [(0, 2)] hback ?_, rfl, hrange⟩
      exact yields_bind _ _ [(0, 2)] [] 0 _ (yields_get 0 2 (by decide) (by decide)) (yields_pure _)
    rw [if_neg h0]
    generalize x ^^^ t.prev = y at h0 hback
    obtain ⟨h1, h24, hidx, hof⟩ := lead_spec h0
    obtain ⟨hdvd, hle⟩ := ctz_bound y h0
    split_ifs with hc hs
    · obtain ⟨hn, hwid⟩ := putSafe_narrow (y >>> ctz64 y).toNat (64-leadRound y-ctz64 y) (by omega)
      refine ⟨narrow_cons 1 2 (by decide) (narrow_cons _ 3 (by decide) (narrow_cons _ 6 (by decide) hn)),
        ?_, _, chimp_value _ _ hback (chimp_strip y t h0), rfl, .inl rfl⟩
      rw [trailThresh] at hc
      simp only [width_cons, hwid]
      omega
    · obtain ⟨hn, hwid⟩ := putSafe_narrow y.toNat (64-t.leading) (by omega)
      refine ⟨narrow_cons 2 2 (by decide) hn, ?_, _, chimp_value _ _ hback ?_, rfl, hrange⟩
      · simp only [width_cons, hwid]
        omega
      refine yields_bind _ _ [(2, 2)] _ 2 _ (yields_get 2 2 (by decide) (by decide)) ?_
      rw [if_neg (by decide), if_neg (by decide), if_pos rfl, if_neg hs.1, ← hs.2]
      exact yields_full y (fun bits => (BitVec.ofNat 64 bits, leadRound y)) (below_lead h0)
        (by rw [ofNat_toNat_word])
    · obtain ⟨hn, hwid⟩ := putSafe_narrow y.toNat (64-leadRound y) (by omega)
      refine ⟨narrow_cons 3 2 (by decide) (narrow_cons _ 3 (by decide) hn), ?_, _,
        chimp_value _ _ hback ?_, rfl, .inr h24⟩
      · simp only [width_cons, hwid]
        omega
      refine yields_bind _ _ [(3, 2)] _ 3 _ (yields_get 3 2 (by decide) (by decide)) ?_
      rw [if_neg (by decide), if_neg (by decide), if_neg (by decide), if_pos rfl]
      refine yields_bind _ _ [(leadIdx y, 3)] _ _ _ (yields_get _ 3 (by decide) hidx) ?_
      dsimp only
      rw [hof]
      exact yields_full y (fun bits => (BitVec.ofNat 64 bits, leadRound y)) (below_lead h0)
        (by rw [ofNat_toNat_word])

/-- Every list of patterns comes back from its encoding, and the stated room
is enough for either codec. -/
theorem gorilla_chimp_round_trip (xs : List Word) (cap : ℕ) : (∀ bs, gorillaEncode xs cap = .ok bs →
      ∃ d, gorillaDecode bs xs.length = .ok d ∧ d.values = xs) ∧ (∀ bs, chimpEncode xs cap = .ok bs →
      ∃ d, chimpDecode bs xs.length = .ok d ∧ d.values = xs) ∧
    (10*xs.length+8 ≤ cap → ∃ bs, gorillaEncode xs cap = .ok bs) ∧
    (9*xs.length+8 ≤ cap → ∃ bs, chimpEncode xs cap = .ok bs) := by
  refine ⟨fun bs h => ?_, fun bs h => ?_, fun h => ?_, fun h => ?_⟩
  · obtain ⟨d, hd, hv, -⟩ := xor_round_trip gorilla_simulates h _ le_rfl
    exact ⟨d, hd, by rw [hv, take_length]⟩
  · obtain ⟨d, hd, hv, -⟩ := xor_round_trip chimp_simulates h _ le_rfl
    exact ⟨d, hd, by rw [hv, take_length]⟩
  · exact xor_room gorilla_simulates xs cap (by omega)
  · exact xor_room chimp_simulates xs cap (by omega)

theorem gorilla_chimp_two_patterns :
    (∃ bs, gorillaEncode [0x3FF0000000000000, 0x3FF8000000000000] 28 = .ok bs) ∧
    (∃ bs, chimpEncode [0x3FF0000000000000, 0x3FF8000000000000] 26 = .ok bs) ∧
    ∃ d, gorillaDecode [0, 0, 0, 0, 0, 0, 0xF0, 0x3F, 0xB3, 0x20] 2 = .ok d ∧
      d.values = [0x3FF0000000000000, 0x3FF8000000000000] :=
  have h := gorilla_chimp_round_trip _
  ⟨(h 28).2.2.1 (by decide), (h 26).2.2.2 (by decide), (h 28).1 _ (by decide +kernel)⟩

end QEngine.GorillaChimp

import QEngine.ByteStreams

/-!
# Repair of a torn log

A record of the redo log is a checksum, a length and a payload. Repair cuts
the file behind the last record that reads well, and new records go there.
The checksum may be any fold over the bytes: what is left of a torn record is
shorter than its own length field says.
-/

namespace QEngine.WalRepair
open Option List ByteFields ByteStreams

variable (crcByte : UInt32 → UInt8 → UInt32)

def recordCrc (payload : Bytes) : ℕ :=
  ((leBytes 4 payload.length++payload).foldl crcByte 0xFFFFFFFF ^^^ 0xFFFFFFFF).toNat

def walRecord (payload : Bytes) : Bytes :=
  leBytes 4 (recordCrc crcByte payload)++(leBytes 4 payload.length++payload)

def walAppend (file payload : Bytes) : Option Bytes :=
  if 0xFFFFFFFF < payload.length then none else some (file++walRecord crcByte payload)

def nextRecord (bs : Bytes) : Option (Bytes × Bytes) := do
  let (stored, bs) ← nextWord bs
  let (len, bs) ← nextWord bs
  let (payload, bs) ← next len bs
  if recordCrc crcByte payload = stored then some (payload, bs) else none

theorem walRecord_length (x : Bytes) : (walRecord crcByte x).length = 8+x.length := by
  rw [walRecord, length_append, length_append, leBytes_length, leBytes_length]
  omega

variable {crcByte}

variable {x : Bytes} {ps : List Bytes}

theorem next_length {n : ℕ} {bs rest : Bytes} (h : next n bs = some (x, rest)) :
    x = bs.take n ∧ rest = bs.drop n ∧ n ≤ bs.length := by
  rw [ByteStreams.next] at h
  split_ifs at h with hn
  cases h
  exact ⟨rfl, rfl, by omega⟩

theorem nextRecord_some {bs rest : Bytes} (h : nextRecord crcByte bs = some (x, rest)) :
    bs.length = 8+x.length+rest.length ∧ x.length = leValue ((bs.drop 4).take 4) ∧
    rest = bs.drop (8+x.length) := by
  simp only [nextRecord, nextWord, bind, bind_eq_some_iff, map_eq_some_iff, Prod.exists] at h
  obtain ⟨_, _, ⟨c, b1, h1, hc⟩, _, _, ⟨l, b2, h2, hl⟩, y, b3, h3, h4⟩ := h
  cases hc
  cases hl
  split_ifs at h4
  cases h4
  obtain ⟨-, rfl, n1⟩ := next_length h1
  obtain ⟨rfl, rfl, n2⟩ := next_length h2
  obtain ⟨rfl, rfl, n3⟩ := next_length h3
  simp only [length_take, length_drop] at n2 n3 ⊢
  refine ⟨by omega, by omega, ?_⟩
  rw [drop_drop, drop_drop]
  congr 1
  omega

variable (crcByte)

/-- The payload is read and added to the checksum in chunks of 4096 bytes. -/
def chunkedCrc (c : UInt32) (payload : Bytes) : UInt32 :=
  if payload = [] then c else chunkedCrc ((payload.take 4096).foldl crcByte c) (payload.drop 4096)
termination_by payload.length
decreasing_by have := length_pos_iff.mpr ‹_›; rw [length_drop]; omega

/-- The scan of a repair looks at the size of the file before it reads a payload, and keeps none. -/
def scanRecord (bs : Bytes) : Option ℕ :=
  let len := leValue ((bs.drop 4).take 4)
  if bs.length < 8 then none
  else if bs.length < 8+len then none
  else if (chunkedCrc crcByte (((bs.drop 4).take 4).foldl crcByte 0xFFFFFFFF) ((bs.drop 8).take len) ^^^
    0xFFFFFFFF).toNat = leValue (bs.take 4) then some (8+len)
  else none

variable {crcByte}

theorem chunkedCrc_eq (c : UInt32) (payload : Bytes) :
    chunkedCrc crcByte c payload = payload.foldl crcByte c := by
  fun_induction chunkedCrc crcByte c payload with
  | case1 c => rfl
  | case2 c payload hne ih => rw [ih, ← foldl_append, take_append_drop]

theorem next_some {n : ℕ} {bs : Bytes} (h : n ≤ bs.length) : next n bs = some (bs.take n, bs.drop n) :=
  if_neg (by omega)

theorem next_none {n : ℕ} {bs : Bytes} (h : bs.length < n) : next n bs = none := if_pos h

/-- Repair and replay stop at the same byte. -/
theorem scanRecord_eq (bs : Bytes) : scanRecord crcByte bs = (nextRecord crcByte bs).map fun r =>
    8+r.1.length := by
  rw [scanRecord, nextRecord, nextWord]
  dsimp only
  by_cases h4 : bs.length < 4
  · rw [next_none h4, if_pos (by omega)]
    rfl
  rw [next_some (by omega)]
  by_cases h8 : bs.length < 8
  · have hword : nextWord (bs.drop 4) = none := by
      rw [nextWord, next_none (by rw [length_drop]; omega)]
      rfl
    rw [if_pos h8, Option.map_some, bind_eq_bind, Option.bind_some]
    dsimp only
    rw [hword]
    rfl
  have hword : nextWord (bs.drop 4) = some (leValue ((bs.drop 4).take 4), bs.drop 8) := by
    rw [nextWord, next_some (by rw [length_drop]; omega), drop_drop]
    rfl
  rw [if_neg h8, Option.map_some, bind_eq_bind, Option.bind_some]
  dsimp only
  rw [hword, bind_eq_bind, Option.bind_some]
  dsimp only
  by_cases hlen : bs.length < 8+leValue ((bs.drop 4).take 4)
  · rw [if_pos hlen, next_none (by rw [length_drop]; omega)]
    rfl
  have hback : leBytes 4 (leValue ((bs.drop 4).take 4)) = (bs.drop 4).take 4 := by
    have hw := leBytes_leValue ((bs.drop 4).take 4)
    rwa [length_take, length_drop, Nat.min_eq_left (by omega)] at hw
  have hsize : ((bs.drop 8).take (leValue ((bs.drop 4).take 4))).length = leValue ((bs.drop 4).take 4) := by
    rw [length_take, length_drop]
    omega
  rw [if_neg hlen, next_some (by rw [length_drop]; omega), Option.bind_some]
  dsimp only
  rw [recordCrc, hsize, hback, foldl_append, chunkedCrc_eq]
  split_ifs
  · rw [Option.map_some, hsize]
  · rfl

variable (crcByte)

def validPrefix (bs : Bytes) : ℕ :=
  match _h : scanRecord crcByte bs with
  | none => 0
  | some n => n+validPrefix (bs.drop n)
termination_by bs.length
decreasing_by
  have h : scanRecord crcByte bs = some n := ‹_›
  rw [scanRecord_eq] at h
  obtain ⟨⟨x, rest⟩, hx, rfl⟩ := map_eq_some_iff.mp h
  have := (nextRecord_some hx).1
  rw [length_drop]
  omega

def walRepair (file : Bytes) : Bytes := file.take (validPrefix crcByte file)

def walReplay (bs : Bytes) : List Bytes × Bool :=
  match _h : nextRecord crcByte bs with
  | none => ([], bs = [])
  | some (x, rest) => (x::(walReplay rest).1, (walReplay rest).2)
termination_by bs.length
decreasing_by all_goals have := (nextRecord_some ‹_›).1; omega

def appendAll (file : Bytes) (ps : List Bytes) : Option Bytes := ps.foldlM (walAppend crcByte) file

theorem nextRecord_written (h : x.length < 2^32) (rest : Bytes) :
    nextRecord crcByte (walRecord crcByte x++rest) = some (x, rest) := by
  have hc : recordCrc crcByte x < 2^32 := UInt32.toNat_lt _
  simp only [nextRecord, walRecord, append_assoc, nextWord_written hc, nextWord_written h,
    next_written x _ rfl, bind, Option.bind, if_true]

variable {crcByte}

theorem nextRecord_torn (h : x.length < 2^32) {k : ℕ} (hk : k < (walRecord crcByte x).length) :
    nextRecord crcByte ((walRecord crcByte x).take k) = none := by
  cases hn : nextRecord crcByte ((walRecord crcByte x).take k) with
  | none => rfl
  | some r =>
    obtain ⟨h1, h2, -⟩ := nextRecord_some hn
    have hl := walRecord_length crcByte x
    rw [length_take] at h1
    have hf : (((walRecord crcByte x).take k).drop 4).take 4 = leBytes 4 x.length := by
      rw [drop_take, take_take, walRecord, drop_left' (leBytes_length 4 _), Nat.min_eq_left (by omega),
        take_left' (leBytes_length 4 _)]
    rw [hf, leValue_leBytes 4 _ (by omega)] at h2
    omega

theorem appendAll_some {file f : Bytes} (h : appendAll crcByte file ps = some f) :
    (∀ p ∈ ps, p.length < 2^32) ∧ f = file++ps.flatMap (walRecord crcByte) := by
  induction ps generalizing file with
  | nil =>
    cases h
    exact ⟨nofun, by simp⟩
  | cons p ps ih =>
    rw [appendAll, foldlM_cons] at h
    obtain ⟨f1, h1, h2⟩ := bind_eq_some_iff.mp h
    rw [walAppend] at h1
    split_ifs at h1 with hp
    cases h1
    obtain ⟨hps, rfl⟩ := ih h2
    exact ⟨forall_mem_cons.mpr ⟨by omega, hps⟩, by simp⟩

theorem validPrefix_none {bs : Bytes} (h : nextRecord crcByte bs = none) : validPrefix crcByte bs = 0 := by
  rw [validPrefix]
  split
  · rfl
  · rename_i n hn
    rw [scanRecord_eq, h] at hn
    cases hn

theorem validPrefix_some {bs rest : Bytes} (h : nextRecord crcByte bs = some (x, rest)) :
    validPrefix crcByte bs = 8+x.length+validPrefix crcByte rest := by
  have hscan := @scanRecord_eq crcByte bs
  rw [h, Option.map_some] at hscan
  rw [validPrefix]
  split
  · rename_i hn
    cases hscan.symm.trans hn
  · rename_i n hn
    cases hscan.symm.trans hn
    rw [(nextRecord_some h).2.2]

theorem validPrefix_written (h : ∀ p ∈ ps, p.length < 2^32) {torn : Bytes}
    (ht : nextRecord crcByte torn = none) :
    validPrefix crcByte (ps.flatMap (walRecord crcByte)++torn) = (ps.flatMap (walRecord crcByte)).length := by
  induction ps with
  | nil => exact validPrefix_none ht
  | cons p ps ih =>
    obtain ⟨hp, hps⟩ := forall_mem_cons.mp h
    rw [flatMap_cons, append_assoc, validPrefix_some (nextRecord_written crcByte hp _), ih hps, length_append,
      walRecord_length]

theorem walReplay_written (h : ∀ p ∈ ps, p.length < 2^32) :
    walReplay crcByte (ps.flatMap (walRecord crcByte)) = (ps, true) := by
  induction ps with
  | nil =>
    have hn : nextRecord crcByte [] = none := rfl
    rw [flatMap_nil, walReplay]
    split
    · rfl
    · simp_all
  | cons p ps ih =>
    obtain ⟨hp, hps⟩ := forall_mem_cons.mp h
    have hn := nextRecord_written crcByte hp (ps.flatMap (walRecord crcByte))
    rw [flatMap_cons, walReplay]
    split
    · simp_all
    rename_i x rest hx
    cases hn.symm.trans hx
    rw [ih hps]

/-- After a crash in the middle of an append, repair and further appends, replay delivers the records
appended before and after the crash and reports a clean end. -/
theorem repaired_log_replays (crcByte : UInt32 → UInt8 → UInt32) (ps qs : List Bytes) (torn : Bytes) (k : ℕ)
    (f g : Bytes) (hf : appendAll crcByte [] ps = some f) (ht : torn.length < 2^32)
    (hk : k < (walRecord crcByte torn).length)
    (hg : appendAll crcByte (walRepair crcByte (f++(walRecord crcByte torn).take k)) qs = some g) :
    walReplay crcByte g = (ps++qs, true) := by
  obtain ⟨hps, rfl⟩ := appendAll_some hf
  obtain ⟨hqs, rfl⟩ := appendAll_some hg
  rw [walRepair, nil_append, validPrefix_written hps (nextRecord_torn ht hk), take_left, ← flatMap_append]
  exact walReplay_written fun p hp => (mem_append.mp hp).elim (hps p) (hqs p)

/-- One record of two bytes, five bytes of the next one, then a record of one byte. -/
theorem repaired_log_replays_one : ∃ f g, appendAll (fun c _ => c+1) [] [[7, 8]] = some f ∧
    appendAll (fun c _ => c+1) (walRepair (fun c _ => c+1) (f++(walRecord (fun c _ => c+1) [9]).take 5))
    [[5]] = some g ∧
    walReplay (fun c _ => c+1) g = ([[7, 8], [5]], true) :=
  ⟨_, _, rfl, rfl, repaired_log_replays (fun c _ => c+1) [[7, 8]] [[5]] [9] 5 _ _ rfl (by decide)
    (by decide) rfl⟩

/-! ### Logs damaged in any way -/

theorem nextRecord_shape {bs rest : Bytes} (h : nextRecord crcByte bs = some (x, rest)) :
    bs = walRecord crcByte x++rest ∧ x.length < 2^32 := by
  simp only [nextRecord, nextWord, bind, bind_eq_some_iff, map_eq_some_iff, Prod.exists] at h
  obtain ⟨_, _, ⟨c, b1, h1, hc⟩, _, _, ⟨l, b2, h2, hl⟩, y, b3, h3, h4⟩ := h
  cases hc
  cases hl
  split_ifs at h4 with hcrc
  cases h4
  obtain ⟨rfl, rfl, n1⟩ := next_length h1
  obtain ⟨hl, rfl, n2⟩ := next_length h2
  obtain ⟨hx, rfl, n3⟩ := next_length h3
  have hll : l.length = 4 := by rw [hl, length_take, Nat.min_eq_left n2]
  have hlen : x.length = leValue l := by rw [hx, length_take, Nat.min_eq_left n3]
  have hlt := leValue_lt l
  have hw := leBytes_leValue l
  have hcw := leBytes_leValue (bs.take 4)
  rw [length_take, Nat.min_eq_left n1] at hcw
  rw [hll] at hlt hw
  refine ⟨?_, by omega⟩
  rw [walRecord, hcrc, hcw, hlen, hw, append_assoc, append_assoc, hx, take_append_drop, hl, take_append_drop,
    take_append_drop]

theorem replay_shape (bs : Bytes) : ∃ tail, bs = (walReplay crcByte bs).1.flatMap (walRecord crcByte)++tail ∧
    nextRecord crcByte tail = none ∧ ∀ p ∈ (walReplay crcByte bs).1, p.length < 2^32 := by
  fun_induction walReplay crcByte bs with
  | case1 bs h => exact ⟨bs, rfl, h, nofun⟩
  | case2 bs x rest h ih =>
    obtain ⟨tail, ht, hn, hps⟩ := ih
    obtain ⟨hbs, hx⟩ := nextRecord_shape h
    refine ⟨tail, ?_, hn, forall_mem_cons.mpr ⟨hx, hps⟩⟩
    rw [flatMap_cons, append_assoc, ← ht]
    exact hbs

/-- Repair keeps the records that replay delivers, whatever the file holds behind them, and what is
appended then is replayed behind these. -/
theorem repair_keeps_records (crcByte : UInt32 → UInt8 → UInt32) (bs : Bytes) (qs : List Bytes) (g : Bytes)
    (hg : appendAll crcByte (walRepair crcByte bs) qs = some g) :
    walReplay crcByte g = ((walReplay crcByte bs).1++qs, true) ∧ walRepair crcByte g = g := by
  obtain ⟨tail, ht, hn, hps⟩ := @replay_shape crcByte bs
  obtain ⟨hqs, rfl⟩ := appendAll_some hg
  have hr : walRepair crcByte bs = (walReplay crcByte bs).1.flatMap (walRecord crcByte) := by
    have hv := validPrefix_written hps hn
    rw [← ht] at hv
    rw [walRepair, hv]
    exact (congrArg (take _) ht).trans take_left
  have hall : ∀ p ∈ (walReplay crcByte bs).1++qs, p.length < 2^32 :=
    fun p hp => (mem_append.mp hp).elim (hps p) (hqs p)
  have hv := validPrefix_written hall (show nextRecord crcByte [] = none from rfl)
  rw [append_nil] at hv
  rw [hr, ← flatMap_append]
  exact ⟨walReplay_written hall, by rw [walRepair, hv, take_length]⟩

/-- One record and three bytes that are none, then a record of one byte. -/
theorem repair_keeps_records_one : ∃ f g, f = walRecord (fun c _ => c+1) [7]++[1, 2, 3] ∧
    appendAll (fun c _ => c+1) (walRepair (fun c _ => c+1) f) [[5]] = some g ∧
    walReplay (fun c _ => c+1) g = ((walReplay (fun c _ => c+1) f).1++[[5]], true) ∧
    walRepair (fun c _ => c+1) g = g :=
  ⟨_, _, rfl, rfl, repair_keeps_records (fun c _ => c+1) _ [[5]] _ rfl⟩

end QEngine.WalRepair

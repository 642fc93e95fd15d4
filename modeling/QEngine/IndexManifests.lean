import QEngine.IndexPublish
import QEngine.StepRuns

/-!
# The index files of one partition over time

Three kinds of writer change the index files of a partition: a flush, a block that
another node pushes, and a compaction, which reads each column without a lock and,
under the lock, moves its files over the old ones, unless a column has other
blocks by then.
-/

namespace QEngine.IndexManifests
open List ByteFields IndexFiles IndexPublish StepRuns

def sameBlock (bytes : Meta → Bool) (p e : Meta) : Bool :=
  decide (e.size = p.size ∧ e.count = p.count ∧ e.tsMin = p.tsMin ∧ e.tsMax = p.tsMax) &&
    (decide (p.size = 0) || bytes e)

/-- The place of a block with ordinal `v`; none when the block is already there. -/
def scanEntries (same : Meta → Bool) (v : UInt32) : List Meta → ℕ → ℕ → Bool → Option (ℕ × Bool)
  | [], _, pos, unmarked => some (pos, unmarked)
  | e::es, b, pos, unmarked =>
    match e.ord with
    | none => scanEntries same v es (b+1) (b+1) true
    | some eo =>
      if eo = v then if same e then none else scanEntries same v es (b+1) (b+1) unmarked
      else scanEntries same v es (b+1) (if eo < v then b+1 else pos) unmarked

def placement (same : Meta → Bool) (es : List Meta) : Option UInt32 → Option ℕ
  | some v =>
    match scanEntries same v es 0 0 false with
    | none => none
    | some (pos, unmarked) =>
      if unmarked = true ∧ es.getLast?.any (fun e => e.ord.isNone && same e) = true then none else some pos
  | none => if es.getLast?.any same = true then none else some es.length

/-- The index after a pushed block; `fails` is any write that does not succeed. -/
def applyRawblock (fails : Bool) (bytes : Meta → Bool) (file : Option Bytes) (p : Meta) : Option Bytes :=
  let m := readFile file
  let old := file.elim [] (oldEntries false)
  if old.length ≠ declared file then file
  else
    match placement (sameBlock bytes p) m.entries p.ord with
    | none => file
    | some pos =>
      if fails then file
      else
        let w := Writer.writeBlock ⟨m.totalRows, m.maxSeq, startZone m⟩ p
        some (headerBytes w (UInt32.ofNat (old.length+1)) m.ncols++
          (old.take pos++writeIdxEntry { p with bloom := 0 }::old.drop pos).flatten)

def compactBlockPoints : ℕ := 32768

inductive Payload
  | outside
  | broken
  | values (v : ℕ → Int64)

structure Compaction where
  isTimestamp : Bool
  threshold : Int32
  tsFlat : List Int64
  padRows : ℕ
  force : Bool
  ordBase : UInt32
  payload : Meta → Payload
  encoded : ℕ → UInt32 × Stats
  ioFails : Bool

def decodeBlocks (payload : Meta → Payload) (room : ℕ) : List Meta → List Int64 → Option (List Int64)
  | [], out => some out
  | e::es, out =>
    match payload e with
    | .outside => decodeBlocks payload room es out
    | .broken => if e.count = 0 then decodeBlocks payload room es out else none
    | .values v =>
      if e.count = 0 then decodeBlocks payload room es out
      else if room < out.length+e.count.toNat then none
      else decodeBlocks payload room es (out++(List.range e.count.toNat).map v)

def stamps (c : Compaction) (out : List Int64) : Option (List Int64) :=
  if c.isTimestamp then some out
  else if out.length ≤ c.tsFlat.length then some (c.tsFlat.take out.length)
  else none

def valueRange : List Int64 → Int64 × Int64
  | [] => (0, 0)
  | v::vs => vs.foldl (fun z v => widenZone z v v) (v, v)

def cutBlocks (encoded : ℕ → UInt32 × Stats) (ordBase : UInt32) : ℕ → ℕ → UInt64 → List Int64 → List Meta
  | 0, _, _, _ => []
  | n+1, j, offset, ts =>
    if ts = [] then []
    else
      let chunk := ts.take compactBlockPoints
      let z := valueRange chunk
      ⟨offset, (encoded j).1, UInt32.ofNat chunk.length, z.1, z.2, 0, (encoded j).2,
        some (ordBase+UInt32.ofNat j)⟩::
        cutBlocks encoded ordBase n (j+1) (offset+32+(encoded j).1.toUInt64+4) (ts.drop compactBlockPoints)

def compactedZone (es : List Meta) : Int64 × Int64 :=
  let z := derivedZone es
  if z.1 = Int64.maxValue then (0, 0) else z

def compactHeaderSize : ℕ → ℕ
  | 1 => 20
  | 2 => 36
  | 3 => 40
  | _ => 48

def compactEntrySize (bs : Bytes) (version : ℕ) : ℕ :=
  if 3 ≤ version ∧ 40 ≤ bs.length then if getLe bs 36 2 = 0 then 40 else getLe bs 36 2 else 40

def compactMaxSeq (bs : Bytes) (version : ℕ) : UInt64 :=
  if 4 ≤ version ∧ 48 ≤ bs.length then UInt64.ofNat (getLe bs 40 8) else 0

def compactCols (bs : Bytes) (version : ℕ) : UInt16 :=
  if 3 ≤ version ∧ 40 ≤ bs.length then UInt16.ofNat (getLe bs 10 2) else 0

/-- A column with few blocks, or with no more than a compaction would leave, is
not compacted on its own account. -/
def worthwhile (c : Compaction) (blockCount : UInt32) (totalRows : UInt64) : Bool :=
  c.force || (decide (c.threshold ≤ blockCount.toInt32) &&
    (decide (totalRows = 0) ||
      decide ((totalRows.toNat+compactBlockPoints-1)/compactBlockPoints < blockCount.toNat)))

def compactedTimes (c : Compaction) (bs : Bytes) : Option (List Int64) :=
  let version := getLe bs 8 2
  let blockCount := UInt32.ofNat (getLe bs 4 4)
  let totalRows := UInt64.ofNat (getLe bs 12 8)
  if worthwhile c blockCount totalRows = false then none
  else
    let esz := compactEntrySize bs version
    let items := freadItems esz blockCount.toNat (bs.drop (compactHeaderSize version))
    if items.length ≠ blockCount.toNat then none
    else
      (decodeBlocks c.payload (totalRows.toNat+c.padRows) (items.map (readIdxEntry esz))
        (List.replicate c.padRows 0)).bind (stamps c)

def compactedBlocks (c : Compaction) (ts : List Int64) : List Meta :=
  cutBlocks c.encoded c.ordBase ts.length 0 0 ts

def compactedFile (c : Compaction) (bs : Bytes) (ts : List Int64) : Bytes :=
  let es := compactedBlocks c ts
  let z := compactedZone es
  writeIdxHeader (UInt32.ofNat es.length) (UInt64.ofNat ts.length) z.1 z.2
    (compactMaxSeq bs (getLe bs 8 2)) (compactCols bs (getLe bs 8 2))++(es.map writeIdxEntry).flatten

/-- The new index of a column, next to the old one, and the number of blocks
it was made from. -/
def compactColumnFile (c : Compaction) : Option Bytes → Option (UInt32 × Bytes)
  | none => none
  | some bs =>
    if bs.length < 20 ∨ getLe bs 0 4 ≠ idxMagic ∨ c.ioFails = true then none
    else (compactedTimes c bs).map fun ts => (UInt32.ofNat (getLe bs 4 4), compactedFile c bs ts)

def liveIdxBlockCount : Option Bytes → UInt32
  | none => 0xFFFFFFFF
  | some bs =>
    if bs.length < 8 ∨ getLe bs 0 4 ≠ idxMagic then 0xFFFFFFFF else UInt32.ofNat (getLe bs 4 4)

structure Column where
  file : Option Bytes
  draft : Option (UInt32 × Bytes)
  published : ℕ
  merged : ℕ

abbrev Partition := List Column

/-- `n` entries count as published when the index says something new. -/
def Column.publish (col : Column) (file : Option Bytes) (n : ℕ) : Column :=
  { col with file := file, published := col.published+if readFile file = readFile col.file then 0 else n }

def Column.stale (col : Column) : Bool := col.draft.any fun d => liveIdxBlockCount col.file != d.1

def Column.swap (col : Column) : Column :=
  match col.draft with
  | none => col
  | some (_, bs) => ⟨some bs, none, col.published+declared (some bs), col.merged+declared col.file⟩

/-- A flush may stop at any of its steps; a swap may be given up for any other
column's sake. -/
inductive Event
  | flush (ci : ℕ) (f : Faults) (hwm : UInt64) (ncols : UInt16) (new : List Meta) (stop : ℕ)
  | apply (ci : ℕ) (fails : Bool) (bytes : Meta → Bool) (p : Meta)
  | compact (ci : ℕ) (c : Compaction)
  | swap (vetoed : Bool)

def step (s : Partition) : Event → Option Partition
  | .flush ci f hwm ncols new stop =>
    s[ci]?.bind fun col => (colWriterClose f col.file hwm ncols new)[stop]?.map fun file =>
      s.set ci (col.publish file new.length)
  | .apply ci fails bytes p =>
    s[ci]?.map fun col => s.set ci (col.publish (applyRawblock fails bytes col.file p) 1)
  | .compact ci c =>
    s[ci]?.map fun col => s.set ci { col with draft := compactColumnFile c col.file }
  | .swap vetoed =>
    if vetoed = true ∨ s.any Column.stale = true then some (s.map fun col => { col with draft := none })
    else some (s.map Column.swap)

/-- The index fits its header, a flush reads the old entries, a failed write leaves the header,
and a compaction meets a time other than the greatest. -/
def Allowed (s : Partition) : Event → Prop
  | .flush ci f _ _ new _ => f.Clean ∧ ∀ col ∈ s[ci]?, (readFile col.file).entries.length+new.length < 2^32
  | .apply ci _ _ _ => ∀ col ∈ s[ci]?, (readFile col.file).entries.length+1 < 2^32
  | .compact ci c => ∀ col ∈ s[ci]?, ∀ bs ∈ col.file, ∀ ts ∈ compactedTimes c bs,
    (compactedBlocks c ts).length < 2^32 ∧ (ts = [] ∨ ∃ t ∈ ts, t ≠ Int64.maxValue)
  | .swap _ => True

def rowSum (es : List Meta) : ℕ := (es.map fun e => e.count.toNat).sum

def Covers (m : Manifest) : Prop :=
  ∀ z ∈ m.zone, ∀ e ∈ m.entries, ¬e.tsMin < z.1 ∧ ¬z.2 < e.tsMax

def Spans (zone : Option (Int64 × Int64)) (es : List Meta) : Prop :=
  ∀ e ∈ es, ∃ z ∈ zone, ¬e.tsMin < z.1 ∧ ¬z.2 < e.tsMax

theorem rowSum_append (es fs : List Meta) : rowSum (es++fs) = rowSum es+rowSum fs := by
  simp [rowSum]

theorem widenZone_self (z : Int64 × Int64) (a b : Int64) : ¬a < (widenZone z a b).1 ∧
    ¬(widenZone z a b).2 < b := by
  simp only [widenZone, Int64.lt_iff_toInt_lt]
  constructor
  · split_ifs <;> omega
  · split_ifs <;> omega

variable {z : Int64 × Int64}

variable {es : List Meta}

theorem widenZone_spans (h : Spans (some z) es) (a b : Int64) : Spans (some (widenZone z a b)) es := by
  intro e he
  obtain ⟨z', hz, hcover⟩ := h e he
  cases hz
  exact ⟨_, rfl, widenZone_reaches a b hcover⟩

theorem writeBlock_spans {w : Writer} (h : Spans w.zone es) (m : Meta) :
    Spans (w.writeBlock m).zone (m::es) := by
  intro e he
  rcases mem_cons.mp he with rfl | he
  · cases hz : w.zone with
    | none => exact ⟨(e.tsMin, e.tsMax), by simp [Writer.writeBlock, hz], by simp⟩
    | some z => exact ⟨_, by simp [Writer.writeBlock, hz], widenZone_self z _ _⟩
  obtain ⟨z, hz, hcover⟩ := h e he
  have hz : w.zone = some z := hz
  exact ⟨_, by simp [Writer.writeBlock, hz], widenZone_reaches m.tsMin m.tsMax hcover⟩

theorem blocks_spans {w : Writer} (h : Spans w.zone es) (new : List Meta) :
    Spans (new.foldl Writer.writeBlock w).zone (es++new) := by
  induction new generalizing w es with
  | nil =>
    rw [append_nil]
    exact h
  | cons m new ih =>
    have hm := ih (writeBlock_spans h m)
    intro e he
    apply hm e
    rw [mem_append, mem_cons] at he ⊢
    tauto

theorem blocks_totalRows (w : Writer) (new : List Meta) :
    (new.foldl Writer.writeBlock w).totalRows = w.totalRows+UInt64.ofNat (rowSum new) := by
  induction new generalizing w with
  | nil => simp [rowSum]
  | cons m new ih =>
    rw [foldl_cons, ih]
    have hcount : m.count.toUInt64 = UInt64.ofNat m.count.toNat := by simp
    simp only [Writer.writeBlock, rowSum, map_cons, sum_cons, UInt64.ofNat_add, hcount]
    rw [UInt64.add_assoc]

theorem fold_spans {seen : List Meta} (h : Spans (some z) seen) (es : List Meta) :
    Spans (some (es.foldl (fun z e => widenZone z e.tsMin e.tsMax) z)) (seen++es) := by
  induction es generalizing z seen with
  | nil =>
    rw [append_nil]
    exact h
  | cons m es ih =>
    have hm : Spans (some (widenZone z m.tsMin m.tsMax)) (m::seen) := by
      intro e he
      rcases mem_cons.mp he with rfl | he
      · exact ⟨_, rfl, widenZone_self z _ _⟩
      · exact widenZone_spans h _ _ e he
    intro e he
    apply ih hm e
    rw [mem_append, mem_cons] at he ⊢
    tauto

theorem derivedZone_spans (es : List Meta) : Spans (some (derivedZone es)) es := by
  have h : Spans (some (derivedZone es)) ([]++es) := fold_spans (by simp [Spans]) es
  rw [nil_append] at h
  exact h

variable {m : Manifest}

theorem startZone_spans (h : Covers m) : Spans (startZone m) m.entries := by
  intro e he
  rw [startZone]
  cases hz : m.zone with
  | some z => exact ⟨z, by simp, h z hz e he⟩
  | none =>
    have hne : m.entries ≠ [] := ne_nil_of_mem he
    obtain ⟨z, hmem, hcover⟩ := derivedZone_spans _ e he
    exact ⟨z, by simpa [hne] using hmem, hcover⟩

structure Consistent (m : Manifest) : Prop where
  rows : m.totalRows = UInt64.ofNat (rowSum m.entries)
  covers : Covers m

theorem covers_of_spans (h : Spans m.zone m.entries) : Covers m := by
  intro z hz e he
  obtain ⟨z', hz', hcover⟩ := h e he
  rw [Option.mem_unique hz hz']
  exact hcover

theorem grown_consistent (h : Consistent m) (hwm : UInt64) (ncols : UInt16) (new : List Meta) :
    Consistent (grown m hwm ncols new) := by
  have hstart : Spans (Writer.raise hwm ⟨m.totalRows, m.maxSeq, startZone m⟩).zone m.entries := by
    rw [raise_zone]
    exact startZone_spans h.covers
  constructor
  · rw [grown]
    rw [blocks_totalRows, rowSum_append, UInt64.ofNat_add, ← h.rows]
    rw [Writer.raise]
    split_ifs <;> rfl
  · exact covers_of_spans (blocks_spans hstart new)

theorem grown_maxSeq (m : Manifest) (hwm : UInt64) (ncols : UInt16) (new : List Meta) :
    m.maxSeq ≤ (grown m hwm ncols new).maxSeq := by
  have h : ¬(grown m hwm ncols new).maxSeq < m.maxSeq := by
    rw [grown]
    rw [blocks_maxSeq]
    exact raise_not_lt _ hwm _ (UInt64.lt_irrefl _)
  exact UInt64.not_lt.mp h

structure Whole (file : Option Bytes) : Prop where
  intact : Intact file
  readable : ∀ bs ∈ file, (readIdxHeaderEx bs).isSome = true

variable {file : Option Bytes}

theorem declared_entries (hi : Intact file) : declared file = (readFile file).entries.length := by
  cases file with
  | none => rfl
  | some bs =>
    cases hr : readIdxHeaderEx bs with
    | none => simp [declared, readFile, readManifest, hr, Manifest.empty]
    | some r =>
      obtain ⟨front, es, tail, -, -, -, hcount, hread, -⟩ := intact_shape hi hr
      rw [readFile, intact_manifest hi hr, hread, length_map, ← hcount]
      simp [declared, hr]

section
variable {front : Bytes} {es : List Bytes} {tail : Bytes} {h : Header} {k : ℕ}

theorem whole_shaped (hr : readIdxHeaderEx (front++(es.flatten++tail)) = some (front.length, h))
    (hesz : h.entrySize = 88) (hv : ¬h.version < 3) (hcount : h.count.toNat = es.length)
    (hlen : ∀ e ∈ es, e.length = 88) (ht : tail.length = k*88) :
    Whole (some (front++(es.flatten++tail))) := by
  constructor
  · intro bs hbs r hread
    cases hbs
    obtain rfl := Option.some.inj (hr.symm.trans hread)
    rw [hesz, if_neg hv, hcount, length_append, length_append, flatten_length hlen, ht]
    refine ⟨rfl, by omega, ?_⟩
    rw [← Nat.add_mul]
    exact recover_longer _ _ k
  · intro bs hbs
    cases hbs
    rw [hr]
    rfl

theorem whole_written {totalRows : UInt64} {tsMin tsMax : Int64} {maxSeq : UInt64} {ncols : UInt16}
    (hlen : ∀ e ∈ es, e.length = 88) (hlt : es.length < 2^32) :
    Whole
    (some (writeIdxHeader (UInt32.ofNat es.length) totalRows tsMin tsMax maxSeq ncols++es.flatten)) := by
  obtain ⟨version, hv, hread⟩ := written_shape (UInt32.ofNat es.length) totalRows tsMin tsMax maxSeq ncols
    (es.flatten++[])
  have hwhole := whole_shaped (k := 0) hread rfl (Nat.not_lt.mpr hv) (ofNat_length hlt) hlen rfl
  rw [append_nil] at hwhole
  exact hwhole

end

theorem written_length {old : List Bytes} (hold : ∀ e ∈ old, e.length = 88) (new : List Meta) :
    ∀ e ∈ old++new.map writeIdxEntry, e.length = 88 := by
  intro e he
  rcases mem_append.mp he with he | he
  · exact hold e he
  · obtain ⟨m, -, rfl⟩ := mem_map.mp he
    exact writeIdxEntry_length m

section
variable {f : Faults} {file s : Option Bytes} {hwm : UInt64} {ncols : UInt16} {new : List Meta}

theorem closed_whole (hw : Whole file) (hf : f.Clean) (hlt : (readFile file).entries.length+new.length < 2^32)
    (hc : Closed f file hwm ncols new s) : Whole s := by
  cases hc with
  | same => exact hw
  | rewritten hn =>
    obtain ⟨hlen, hm⟩ := oldEntries_intact hw.intact
    rw [← hm, length_map] at hlt
    rw [rewritten, hf.1]
    have hcount : (file.elim [] (oldEntries false)).length+new.length =
      (file.elim [] (oldEntries false)++new.map writeIdxEntry).length := by simp
    rw [hcount] at hlt ⊢
    exact whole_written (written_length hlen new) hlt
  | behind bs front es h tail k hfile ha ht =>
    subst hfile
    obtain ⟨hesz, -, -⟩ := hw.intact bs rfl _ ha.header
    have hv : ¬h.version < 3 := by
      intro hv
      rw [if_pos hv] at hesz
      exact absurd (hesz.symm.trans ha.entrySize) (by decide)
    have hr := ha.header
    rw [ha.file] at hr
    exact whole_shaped (readIdxHeaderEx_front hr) ha.entrySize hv ha.count ha.entries ht
  | appended bs front es h hsz hdr hn hfile ha _ hhdr =>
    subst hfile
    rw [readFile, readManifest_itself ha, length_map] at hlt
    have hcount : h.count+UInt32.ofNat new.length = UInt32.ofNat (es++new.map writeIdxEntry).length := by
      rw [length_append, length_map, UInt32.ofNat_add, ← ha.count, UInt32.ofNat_toNat]
    rw [hhdr, hcount, ← flatten_append]
    exact whole_written (written_length ha.entries new) (by simpa using hlt)

end

theorem apply_placed (hw : Whole file) (bytes : Meta → Bool) (p : Meta)
    (hlt : (readFile file).entries.length+1 < 2^32) {pos : ℕ}
    (hpos : placement (sameBlock bytes p) (readFile file).entries p.ord = some pos) :
    Whole (applyRawblock false bytes file p) ∧ readFile (applyRawblock false bytes file p) =
      ⟨(readFile file).entries.take pos++{ p with bloom := 0 }::(readFile file).entries.drop pos,
        (readFile file).totalRows+p.count.toUInt64,
        (Writer.writeBlock ⟨(readFile file).totalRows, (readFile file).maxSeq, startZone (readFile file)⟩
          p).zone,
        (readFile file).maxSeq, clampCols (readFile file).ncols⟩ := by
  obtain ⟨hlen, hm⟩ := oldEntries_intact hw.intact
  have hdecl := declared_entries hw.intact
  rw [applyRawblock]
  generalize file.elim [] (oldEntries false) = old at hlen hm
  have hold : old.length = declared file := by rw [hdecl, ← hm, length_map]
  rw [if_neg (not_not.mpr hold), hpos]
  dsimp only
  rw [if_neg (by decide)]
  have hes : ∀ e ∈ old.take pos++writeIdxEntry { p with bloom := 0 }::old.drop pos, e.length = 88 := by
    intro e he
    rcases mem_append.mp he with he | he
    · exact hlen e (mem_of_mem_take he)
    rcases mem_cons.mp he with rfl | he
    · exact writeIdxEntry_length _
    · exact hlen e (mem_of_mem_drop he)
  have hcount : (old.take pos++writeIdxEntry { p with bloom := 0 }::old.drop pos).length = old.length+1 := by
    simp only [length_append, length_cons, length_take, length_drop]
    omega
  have hnew : old.length+1 < 2^32 := by
    rw [← hm, length_map] at hlt
    exact hlt
  obtain ⟨z, hz⟩ : ∃ z, (Writer.writeBlock ⟨(readFile file).totalRows, (readFile file).maxSeq,
    startZone (readFile file)⟩ p).zone = some z := ⟨_, rfl⟩
  rw [headerBytes, hz, ← hcount, Option.getD_some]
  rw [← hcount] at hnew
  refine ⟨whole_written hes hnew, ?_⟩
  rw [readFile, readManifest_written _ _ _ _ _ hes hnew, if_neg (by simp)]
  rw [map_append, map_cons, map_take, map_drop, hm, readIdxEntry_written]
  rfl

theorem apply_cases (hw : Whole file) (fails : Bool) (bytes : Meta → Bool) (p : Meta)
    (hlt : (readFile file).entries.length+1 < 2^32) : applyRawblock fails bytes file p = file ∨
    Whole (applyRawblock fails bytes file p) ∧ ∃ pos, readFile (applyRawblock fails bytes file p) =
      ⟨(readFile file).entries.take pos++{ p with bloom := 0 }::(readFile file).entries.drop pos,
        (readFile file).totalRows+p.count.toUInt64,
        (Writer.writeBlock ⟨(readFile file).totalRows, (readFile file).maxSeq, startZone (readFile file)⟩
          p).zone,
        (readFile file).maxSeq, clampCols (readFile file).ncols⟩ := by
  cases hpos : placement (sameBlock bytes p) (readFile file).entries p.ord with
  | none =>
    left
    rw [applyRawblock, hpos]
    exact ite_self _
  | some pos =>
    cases fails with
    | true =>
      left
      rw [applyRawblock, hpos]
      exact ite_self _
    | false =>
      obtain ⟨hwhole, hread⟩ := apply_placed hw _ p hlt hpos
      exact .inr ⟨hwhole, pos, hread⟩

theorem insert_consistent (h : Consistent m) (p : Meta) (pos : ℕ) (ncols : UInt16) :
    Consistent ⟨m.entries.take pos++{ p with bloom := 0 }::m.entries.drop pos, m.totalRows+p.count.toUInt64,
      (Writer.writeBlock ⟨m.totalRows, m.maxSeq, startZone m⟩ p).zone, m.maxSeq, ncols⟩ := by
  constructor
  · have hsum : rowSum (m.entries.take pos++{ p with bloom := 0 }::m.entries.drop pos) =
        rowSum m.entries+p.count.toNat := by
      have hsplit := rowSum_append (m.entries.take pos) (m.entries.drop pos)
      rw [take_append_drop] at hsplit
      rw [hsplit, rowSum_append]
      simp only [rowSum, map_cons, sum_cons]
      omega
    rw [hsum, UInt64.ofNat_add, ← h.rows]
    simp
  · apply covers_of_spans
    intro e he
    have hspans := writeBlock_spans (w := ⟨m.totalRows, m.maxSeq, startZone m⟩) (startZone_spans h.covers) p
    rcases mem_append.mp he with he | he
    · exact hspans e (mem_cons_of_mem _ (mem_of_mem_take he))
    rcases mem_cons.mp he with rfl | he
    · exact hspans p mem_cons_self
    · exact hspans e (mem_cons_of_mem _ (mem_of_mem_drop he))

theorem fold_low (vs : List Int64) (z : Int64 × Int64) :
    (vs.foldl (fun z v => widenZone z v v) z).1.toInt ≤ z.1.toInt ∧
    ∀ v ∈ vs, (vs.foldl (fun z v => widenZone z v v) z).1.toInt ≤ v.toInt := by
  induction vs generalizing z with
  | nil => simp
  | cons v vs ih =>
    obtain ⟨hstart, hall⟩ := ih (widenZone z v v)
    have hself : (widenZone z v v).1.toInt ≤ z.1.toInt ∧ (widenZone z v v).1.toInt ≤ v.toInt := by
      simp only [widenZone, Int64.lt_iff_toInt_lt]
      split_ifs <;> omega
    rw [foldl_cons]
    refine ⟨by omega, ?_⟩
    intro x hx
    rcases mem_cons.mp hx with rfl | hx
    · omega
    · exact hall x hx

theorem valueRange_low (vs : List Int64) : ∀ v ∈ vs, (valueRange vs).1.toInt ≤ v.toInt := by
  cases vs with
  | nil => simp
  | cons w vs =>
    obtain ⟨hstart, hall⟩ := fold_low vs _
    intro v hv
    rcases mem_cons.mp hv with rfl | hv
    · exact hstart
    · exact hall v hv

section
variable (encoded : ℕ → UInt32 × Stats) (ordBase : UInt32)

theorem cutBlocks_rows (n j : ℕ) (offset : UInt64) (ts : List Int64) (hn : ts.length ≤ n) :
    rowSum (cutBlocks encoded ordBase n j offset ts) = ts.length := by
  induction n generalizing j offset ts with
  | zero =>
    rw [eq_nil_of_length_eq_zero (Nat.le_zero.mp hn)]
    rfl
  | succ n ih =>
    rw [cutBlocks]
    by_cases hnil : ts = []
    · rw [if_pos hnil, hnil]
      rfl
    have hrest := ih (j+1) (offset+32+(encoded j).1.toUInt64+4) (ts.drop compactBlockPoints)
      (by rw [length_drop, compactBlockPoints]; omega)
    have hchunk : (UInt32.ofNat (ts.take compactBlockPoints).length).toNat = min compactBlockPoints
      ts.length := by
      rw [UInt32.toNat_ofNat', length_take]
      apply Nat.mod_eq_of_lt
      rw [compactBlockPoints]
      omega
    rw [if_neg hnil]
    rw [rowSum, map_cons, sum_cons, ← rowSum, hrest, hchunk, length_drop]
    omega

theorem cutBlocks_low (n j : ℕ) (offset : UInt64) (ts : List Int64) (hn : ts.length ≤ n) :
    ∀ t ∈ ts, ∃ e ∈ cutBlocks encoded ordBase n j offset ts, e.tsMin.toInt ≤ t.toInt := by
  induction n generalizing j offset ts with
  | zero =>
    rw [eq_nil_of_length_eq_zero (Nat.le_zero.mp hn)]
    simp
  | succ n ih =>
    intro t ht
    have hnil : ts ≠ [] := ne_nil_of_mem ht
    have hrest := ih (j+1) (offset+32+(encoded j).1.toUInt64+4) (ts.drop compactBlockPoints)
      (by rw [length_drop, compactBlockPoints]; omega)
    rw [cutBlocks, if_neg hnil]
    rw [← take_append_drop compactBlockPoints ts, mem_append] at ht
    rcases ht with ht | ht
    · exact ⟨_, mem_cons_self, valueRange_low _ t ht⟩
    · obtain ⟨e, he, hle⟩ := hrest t ht
      exact ⟨e, mem_cons_of_mem _ he, hle⟩

end

theorem compactedZone_spans (c : Compaction) (ts : List Int64) (h : ts = [] ∨ ∃ t ∈ ts, t ≠ Int64.maxValue) :
    Spans (some (compactedZone (compactedBlocks c ts))) (compactedBlocks c ts) := by
  rcases h with rfl | ⟨t, ht, hmax⟩
  · intro e he
    cases he
  obtain ⟨e, he, hle⟩ := cutBlocks_low _ _ _ 0 0 ts le_rfl t ht
  obtain ⟨z, hz, hcover⟩ := derivedZone_spans (compactedBlocks c ts) e he
  cases hz
  have hne : (derivedZone (compactedBlocks c ts)).1 ≠ Int64.maxValue := by
    intro hz
    have hlow := hcover.1
    rw [hz, Int64.lt_iff_toInt_lt] at hlow
    have hle' := Int64.toInt_le t
    have heq : t.toInt = Int64.maxValue.toInt := by
      omega
    exact hmax (Int64.toInt_inj.mp heq)
  rw [compactedZone, if_neg hne]
  exact derivedZone_spans _

section
variable {bs : Bytes} {hsz : ℕ} {h : Header}

theorem compactMaxSeq_header (hr : readIdxHeaderEx bs = some (hsz, h)) :
    compactMaxSeq bs (getLe bs 8 2) = h.maxSeq := by
  obtain ⟨-, hsize, hle, rfl⟩ := readIdxHeaderEx_some hr
  rw [compactMaxSeq, headerAt]
  rcases headerSize_cases hsize with ⟨hv, hl⟩ | ⟨hv, hl⟩ | ⟨hv, hl⟩ | ⟨hv, hl⟩
  · simp [hv]
  · simp [hv]
  · simp [hv]
  · rw [hl] at hle
    simp [hv, hle]

theorem live_count (hr : readIdxHeaderEx bs = some (hsz, h)) : liveIdxBlockCount (some bs) = h.count := by
  obtain ⟨hmagic, hsize, hle, rfl⟩ := readIdxHeaderEx_some hr
  have hlen : ¬bs.length < 8 := by
    rcases headerSize_cases hsize with ⟨-, hl⟩ | ⟨-, hl⟩ | ⟨-, hl⟩ | ⟨-, hl⟩ <;> omega
  rw [liveIdxBlockCount, if_neg (by simp [hmagic]; omega)]
  rfl

end

structure Drafted (file : Option Bytes) (d : UInt32 × Bytes) : Prop where
  whole : Whole (some d.2)
  consistent : Consistent (readManifest d.2)
  source : file.isSome = true
  older : d.1.toNat ≤ declared file
  maxSeq : d.1.toNat = declared file → (readFile file).maxSeq ≤ (readManifest d.2).maxSeq

structure Held (col : Column) : Prop where
  whole : Whole col.file
  consistent : Consistent (readFile col.file)
  counted : declared col.file+col.merged = col.published
  draft : ∀ d ∈ col.draft, Drafted col.file d

structure Extended (file s : Option Bytes) (n : ℕ) : Prop where
  whole : Whole s
  kept : file.isSome = true → s.isSome = true
  reads : readFile s = readFile file ∨
    0 < n ∧ Consistent (readFile s) ∧ (readFile s).entries.length = (readFile file).entries.length+n ∧
      (readFile file).maxSeq ≤ (readFile s).maxSeq

variable {s : Option Bytes}

theorem Extended.maxSeq {n : ℕ} (h : Extended file s n) : (readFile file).maxSeq ≤ (readFile s).maxSeq := by
  rcases h.reads with hsame | ⟨-, -, -, hseq⟩
  · rw [hsame]
    exact UInt64.le_refl _
  · exact hseq

theorem flush_extends {f : Faults} {hwm : UInt64} {ncols : UInt16} {new : List Meta}
    (hw : Whole file) (hc : Consistent (readFile file)) (hf : f.Clean)
    (hlt : (readFile file).entries.length+new.length < 2^32) (hs : s ∈ colWriterClose f file hwm ncols new) :
    Extended file s new.length := by
  have hclosed := close_cases hf s hs
  refine ⟨closed_whole hw hf hlt hclosed, ?_, ?_⟩
  · intro hsome
    cases hclosed with
    | same => exact hsome
    | rewritten | behind | appended => rfl
  rcases closed_reads hw.intact hf hlt hclosed with hsame | ⟨hn, hgrown⟩
  · exact .inl hsame
  right
  rw [hgrown]
  refine ⟨length_pos_iff.mpr hn, grown_consistent hc hwm _ new, ?_, grown_maxSeq _ hwm _ new⟩
  simp [grown]

theorem apply_extends (hw : Whole file) (hc : Consistent (readFile file)) (fails : Bool)
    (bytes : Meta → Bool) (p : Meta) (hlt : (readFile file).entries.length+1 < 2^32) :
    Extended file (applyRawblock fails bytes file p) 1 := by
  rcases apply_cases hw _ _ p hlt with hsame | ⟨hwhole, pos, hread⟩
  · rw [hsame]
    exact ⟨hw, id, .inl rfl⟩
  refine ⟨hwhole, ?_, .inr ⟨Nat.one_pos, ?_, ?_, ?_⟩⟩
  · intro hsome
    cases happ : applyRawblock fails bytes file p with
    | some bs => rfl
    | none =>
      -- an index without entries does not read as one with an entry
      rw [happ] at hread
      have hlen := congrArg (fun m => m.entries.length) hread
      simp [readFile, Manifest.empty] at hlen
  · rw [hread]
    exact insert_consistent hc p pos _
  · rw [hread]
    simp only [length_append, length_cons, length_take, length_drop]
    omega
  · rw [hread]
    exact UInt64.le_refl _

variable {col : Column}

theorem publish_held (hh : Held col) {n : ℕ} (he : Extended col.file s n) : Held (col.publish s n) := by
  have hdecl : declared s = declared col.file+if readFile s = readFile col.file then 0 else n := by
    rw [declared_entries he.whole.intact, declared_entries hh.whole.intact]
    rcases he.reads with hsame | ⟨hn, -, hlen, -⟩
    · simp [hsame]
    rw [if_neg, hlen]
    intro hsame
    rw [hsame] at hlen
    omega
  constructor
  · exact he.whole
  · rcases he.reads with hsame | ⟨-, hc, -, -⟩
    · rw [Column.publish, hsame]
      exact hh.consistent
    · exact hc
  · have hcounted := hh.counted
    simp only [Column.publish]
    omega
  intro d hd
  have hold := hh.draft d hd
  refine ⟨hold.whole, hold.consistent, he.kept hold.source, ?_, ?_⟩
  · simp only [Column.publish]
    have := hold.older
    omega
  simp only [Column.publish]
  intro heq
  rcases he.reads with hsame | ⟨hn, -, hlen, -⟩
  · rw [hsame] at hdecl ⊢
    rw [if_pos rfl, Nat.add_zero] at hdecl
    exact hold.maxSeq (heq.trans hdecl)
  · -- a column with more blocks is not the one that was compacted
    have := hold.older
    rw [← declared_entries he.whole.intact, ← declared_entries hh.whole.intact] at hlen
    omega

theorem drafted_compacted {c : Compaction} {bs : Bytes} {ts : List Int64} (hw : Whole (some bs))
    (hlt : (compactedBlocks c ts).length < 2^32) (hts : ts = [] ∨ ∃ t ∈ ts, t ≠ Int64.maxValue) :
    Drafted (some bs) (UInt32.ofNat (getLe bs 4 4), compactedFile c bs ts) := by
  obtain ⟨⟨hsz, h⟩, hr⟩ := Option.isSome_iff_exists.mp (hw.readable bs rfl)
  have hlen : ∀ e ∈ (compactedBlocks c ts).map writeIdxEntry, e.length = 88 := by simp
  have hcount : (compactedBlocks c ts).length = ((compactedBlocks c ts).map writeIdxEntry).length := by simp
  have hback : ((compactedBlocks c ts).map writeIdxEntry).map (readIdxEntry 88) = compactedBlocks c ts := by
    rw [map_map, show readIdxEntry 88 ∘ writeIdxEntry = id from funext readIdxEntry_written, map_id]
  have hdecl : (UInt32.ofNat (getLe bs 4 4)).toNat = declared (some bs) := by
    obtain ⟨-, -, -, rfl⟩ := readIdxHeaderEx_some hr
    simp [declared, hr, headerAt]
  have hwhole : Whole (some (compactedFile c bs ts)) := by
    rw [compactedFile, hcount]
    rw [hcount] at hlt
    exact whole_written hlen hlt
  have hread : readManifest (compactedFile c bs ts) = ⟨compactedBlocks c ts, UInt64.ofNat ts.length,
      if (compactedBlocks c ts).map writeIdxEntry = [] then none else
        some (compactedZone (compactedBlocks c ts)),
      h.maxSeq, clampCols (compactCols bs (getLe bs 8 2))⟩ := by
    rw [compactedFile, hcount]
    rw [hcount] at hlt
    rw [readManifest_written _ _ _ _ _ hlen hlt, hback, compactMaxSeq_header hr]
  refine ⟨hwhole, ?_, rfl, le_of_eq hdecl, ?_⟩
  · rw [hread]
    constructor
    · rw [compactedBlocks, cutBlocks_rows _ _ _ 0 0 ts le_rfl]
    apply covers_of_spans
    intro e he
    rw [if_neg (by simp [ne_nil_of_mem he])]
    exact compactedZone_spans c ts hts e he
  · intro _
    rw [hread, readFile, intact_manifest hw.intact hr]
    exact UInt64.le_refl _

theorem compact_held (hh : Held col) (c : Compaction)
    (ha : ∀ bs ∈ col.file, ∀ ts ∈ compactedTimes c bs,
      (compactedBlocks c ts).length < 2^32 ∧ (ts = [] ∨ ∃ t ∈ ts, t ≠ Int64.maxValue)) :
    Held { col with draft := compactColumnFile c col.file } := by
  refine ⟨hh.whole, hh.consistent, hh.counted, ?_⟩
  intro d hd
  have hw := hh.whole
  cases hfile : col.file with
  | none =>
    rw [hfile] at hd
    cases hd
  | some bs =>
    rw [hfile] at hd hw
    rw [compactColumnFile] at hd
    split_ifs at hd with hbad
    · cases hd
    obtain ⟨ts, hts, rfl⟩ := Option.map_eq_some_iff.mp hd
    obtain ⟨hlt, hmax⟩ := ha bs hfile ts hts
    exact drafted_compacted hw hlt hmax

theorem swap_held (hh : Held col) (hs : col.stale = false) :
    Held col.swap ∧ (readFile col.file).maxSeq ≤ (readFile col.swap.file).maxSeq := by
  obtain ⟨file, draft, published, merged⟩ := col
  cases draft with
  | none => exact ⟨hh, UInt64.le_refl _⟩
  | some d =>
    have hd := hh.draft d rfl
    have hlive : d.1.toNat = declared file := by
      obtain ⟨bs, rfl⟩ := Option.isSome_iff_exists.mp hd.source
      obtain ⟨⟨hsz, h⟩, hr⟩ := Option.isSome_iff_exists.mp (hh.whole.readable bs rfl)
      simp only [Column.stale, Option.any_some, live_count hr, bne_eq_false_iff_eq] at hs
      simp [declared, hr, hs]
    refine ⟨⟨hd.whole, hd.consistent, ?_, by simp [Column.swap]⟩, hd.maxSeq hlive⟩
    have hcounted := hh.counted
    simp only [Column.swap] at hcounted ⊢
    omega

def Grows (s t : Partition) : Prop :=
  ∀ (ci : ℕ) (a : Column), s[ci]? = some a → ∃ b, t[ci]? = some b ∧
    (readFile a.file).maxSeq ≤ (readFile b.file).maxSeq

theorem grows_trans {s t u : Partition} (hst : Grows s t) (htu : Grows t u) : Grows s u := by
  intro ci a ha
  obtain ⟨b, hb, hab⟩ := hst ci a ha
  obtain ⟨c, hc, hbc⟩ := htu ci b hb
  exact ⟨c, hc, UInt64.le_trans hab hbc⟩

def AllHeld (s : Partition) : Prop := ∀ col ∈ s, Held col

theorem set_held {s : Partition} {ci : ℕ} {a b : Column} (hs : AllHeld s) (ha : s[ci]? = some a) (hb : Held b)
    (hseq : (readFile a.file).maxSeq ≤ (readFile b.file).maxSeq) : AllHeld (s.set ci b) ∧
    Grows s (s.set ci b) := by
  constructor
  · intro col hcol
    rcases mem_or_eq_of_mem_set hcol with hcol | rfl
    · exact hs col hcol
    · exact hb
  intro i x hx
  by_cases hi : ci = i
  · subst hi
    obtain rfl := Option.some.inj (ha.symm.trans hx)
    obtain ⟨hlt, -⟩ := List.getElem?_eq_some_iff.mp ha
    exact ⟨b, by simp [hlt], hseq⟩
  · exact ⟨x, by rw [getElem?_set_ne hi, hx], UInt64.le_refl _⟩

theorem map_held {s : Partition} {g : Column → Column}
    (h : ∀ col ∈ s, Held (g col) ∧ (readFile col.file).maxSeq ≤ (readFile (g col).file).maxSeq) :
    AllHeld (s.map g) ∧ Grows s (s.map g) := by
  constructor
  · intro col hcol
    obtain ⟨x, hx, rfl⟩ := mem_map.mp hcol
    exact (h x hx).1
  · intro i x hx
    exact ⟨g x, by rw [getElem?_map, hx]; rfl, (h x (mem_of_getElem? hx)).2⟩

theorem step_held {s t : Partition} {ev : Event} (hs : AllHeld s) (ha : Allowed s ev)
    (hst : step s ev = some t) :
    AllHeld t ∧ Grows s t := by
  cases ev with
  | flush ci f hwm ncols new stop =>
    obtain ⟨col, hcol, hst⟩ := Option.bind_eq_some_iff.mp hst
    obtain ⟨file, hfile, rfl⟩ := Option.map_eq_some_iff.mp hst
    have hh := hs col (mem_of_getElem? hcol)
    have he := flush_extends hh.whole hh.consistent ha.1 (ha.2 col hcol) (mem_of_getElem? hfile)
    exact set_held hs hcol (publish_held hh he) he.maxSeq
  | apply ci fails bytes p =>
    obtain ⟨col, hcol, rfl⟩ := Option.map_eq_some_iff.mp hst
    have hh := hs col (mem_of_getElem? hcol)
    have he := apply_extends hh.whole hh.consistent fails bytes p (ha col hcol)
    exact set_held hs hcol (publish_held hh he) he.maxSeq
  | compact ci c =>
    obtain ⟨col, hcol, rfl⟩ := Option.map_eq_some_iff.mp hst
    have hh := hs col (mem_of_getElem? hcol)
    exact set_held hs hcol (compact_held hh c (ha col hcol)) (UInt64.le_refl _)
  | swap vetoed =>
    rw [step] at hst
    split_ifs at hst with hveto
    · cases hst
      apply map_held
      intro col hcol
      have hh := hs col hcol
      exact ⟨⟨hh.whole, hh.consistent, hh.counted, by simp⟩, UInt64.le_refl _⟩
    cases hst
    apply map_held
    intro col hcol
    apply swap_held (hs col hcol)
    by_contra hstale
    exact hveto (.inr (any_eq_true.mpr ⟨col, hcol, by simpa using hstale⟩))

theorem rows_toNat (hc : Consistent m) (hlt : m.entries.length < 2^32) :
    m.totalRows.toNat = rowSum m.entries := by
  have hbound : rowSum m.entries ≤ m.entries.length*(2^32-1) := by
    have h := sum_le_card_nsmul (m.entries.map fun e => e.count.toNat) (2^32-1) (by
      intro x hx
      obtain ⟨e, -, rfl⟩ := mem_map.mp hx
      have := e.count.toNat_lt
      omega)
    simpa [rowSum] using h
  rw [hc.rows, UInt64.toNat_ofNat']
  apply Nat.mod_eq_of_lt
  omega

theorem declared_lt (file : Option Bytes) : declared file < 2^32 := by
  cases file with
  | none => decide
  | some bs =>
    cases hr : readIdxHeaderEx bs with
    | none => simp [declared, hr]
    | some r =>
      have := r.2.count.toNat_lt
      simpa [declared, hr] using this

structure Settled (col : Column) : Prop where
  whole : Whole col.file
  consistent : Consistent (readFile col.file)
  counted : declared col.file+col.merged = col.published
  draft : col.draft = none

/-- Along every run of allowed steps each header has the row count, the range and the number of its
entries, no published block is lost except by a merge, and the high-water marks only grow. -/
theorem manifests_stay_consistent (start s t : Partition) (before after : List Event)
    (h0 : ∀ col ∈ start, Settled col) (ha : Along step Allowed start (before++after))
    (hs : run step start before = some s) (ht : run step s after = some t) :
    (∀ col ∈ t, (readFile col.file).totalRows.toNat = rowSum (readFile col.file).entries ∧
      Covers (readFile col.file) ∧ declared col.file = (readFile col.file).entries.length ∧
      declared col.file+col.merged = col.published) ∧ Grows s t := by
  obtain ⟨hbefore, hafter⟩ := along_append ha hs
  have hstart : AllHeld start := by
    intro col hcol
    have h := h0 col hcol
    exact ⟨h.whole, h.consistent, h.counted, by simp [h.draft]⟩
  have hmid : AllHeld s := run_invariant _ (fun _ _ _ hs ha hst => (step_held hs ha hst).1)
    _ _ s hstart hbefore hs
  have hend : AllHeld t ∧ Grows s t := by
    refine run_invariant (fun u => AllHeld u ∧ Grows s u) ?_ _ s t
      ⟨hmid, fun _ a h => ⟨a, h, UInt64.le_refl _⟩⟩ hafter ht
    rintro u ev u' ⟨hu, hg⟩ hok hstep
    obtain ⟨hu', hg'⟩ := step_held hu hok hstep
    exact ⟨hu', grows_trans hg hg'⟩
  refine ⟨?_, hend.2⟩
  intro col hcol
  have hh := hend.1 col hcol
  have hdecl := declared_entries hh.whole.intact
  refine ⟨rows_toNat hh.consistent ?_, hh.consistent.covers, hdecl, hh.counted⟩
  rw [← hdecl]
  exact declared_lt _

instance (f : Faults) : Decidable f.Clean :=
  inferInstanceAs (Decidable (f.oldEntries = false ∧ (∀ k ∈ f.header, k = 0) ∧ (∀ k ∈ f.restore, k = 0)))

instance (s : Partition) (ev : Event) : Decidable (Allowed s ev) := by
  cases ev <;> unfold Allowed <;> infer_instance

instance (m : Manifest) : Decidable (Covers m) :=
  @Option.decidableForallMem (Int64 × Int64) (fun z => ∀ e ∈ m.entries, ¬e.tsMin < z.1 ∧ ¬z.2 < e.tsMax)
    (fun _ => inferInstance) m.zone

def fresh : Partition := [⟨none, none, 0, 0⟩]

theorem fresh_settled : ∀ col ∈ fresh, Settled col := by
  intro col hcol
  obtain rfl := mem_singleton.mp hcol
  exact ⟨⟨by simp [Intact], by simp⟩, ⟨rfl, by simp [Covers, readFile, Manifest.empty]⟩, rfl, rfl⟩

def compactAt (t : Int64) : Compaction where
  isTimestamp := true
  threshold := 2
  tsFlat := []
  padRows := 0
  force := false
  ordBase := 2
  payload := fun _ => .values fun _ => t
  encoded := fun _ => (8, Stats.absent)
  ioFails := false

/-- Two flushes of one row at time `t`, a compaction, and its swap. -/
def flushTwice (t : Int64) : List Event :=
  [.flush 0 Faults.none 3 1 [oneRow t 0] 1, .flush 0 Faults.none 4 1 [oneRow t 1] 3,
    .compact 0 (compactAt t), .swap false]

theorem manifests_stay_consistent_compacted : ∃ t, run step fresh (flushTwice 5) = some t ∧
      t.map (fun col => (readFile col.file).zone) = [some (5, 5)] ∧
      t.map (fun col => declared col.file) = [1] ∧
      ∀ col ∈ t, (readFile col.file).totalRows.toNat = rowSum (readFile col.file).entries := by
  obtain ⟨t, ht, hz, hd⟩ := run_reaches step fresh (flushTwice 5) (fun t =>
    t.map (fun col => (readFile col.file).zone) = [some (5, 5)] ∧ t.map (fun col => declared col.file) = [1])
    (by decide +kernel)
  have hall := manifests_stay_consistent fresh fresh t [] (flushTwice 5) fresh_settled (by decide +kernel)
    rfl ht
  exact ⟨t, ht, hz, hd, fun col hcol => (hall.1 col hcol).1⟩

/-- A compaction of rows that all have the greatest time records the range of
an empty column. -/
theorem compaction_loses_greatest_time : ∃ t, run step fresh (flushTwice Int64.maxValue) = some t ∧
      t.map (fun col => (readFile col.file).zone) = [some (0, 0)] ∧
      t.map (fun col => (readFile col.file).entries.map fun e => (e.count, e.tsMin, e.tsMax)) =
        [[(2, Int64.maxValue, Int64.maxValue)]] ∧ ¬∀ col ∈ t, Covers (readFile col.file) := by
  exact run_reaches step fresh (flushTwice Int64.maxValue) (fun t =>
    t.map (fun col => (readFile col.file).zone) = [some (0, 0)] ∧
    t.map (fun col => (readFile col.file).entries.map fun e => (e.count, e.tsMin, e.tsMax)) =
      [[(2, Int64.maxValue, Int64.maxValue)]] ∧
    ¬∀ col ∈ t, Covers (readFile col.file)) (by decide +kernel)

end QEngine.IndexManifests

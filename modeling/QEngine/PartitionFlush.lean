import QEngine.PartitionRead
import QEngine.FlushOrder
import QEngine.IndexManifests
import QEngine.RedoLog

/-!
# Flushing a memtable into partitions

A flush puts the rows in order, collects them by day or hour, and writes each
bucket to the directory of its first row, the timestamps last. The range of a
block is that of the timestamps of its rows, except for a column of timestamps,
which has the range of its own values.
-/

namespace QEngine.PartitionFlush
open List Function ByteFields Uvarint AdaptiveCodec IndexFiles IndexPublish ColumnAlignment
open PartitionOpen BlockFiles PartitionRead FlushOrder StepRuns
open IndexManifests (valueRange)
open RedoLog (PartitionUnit partIndex partName collectDays mem_collectDays collectDays_nodup Named)

structure Schema where
  types : List ColumnType
  tsIdx : ℕ
  unit : PartitionUnit
  points : ℤ
  sortByTagCol : Option ℕ
  timestamps : types[tsIdx]? = some .timestamp

def Schema.blockSize (s : Schema) : ℕ := if 0 < s.points ∧ s.points ≤ blockPoints then s.points.toNat else
    blockPoints

/-- A value for every row in every column, at most one block of them. `slOk`
says that the skip list could be allocated. -/
structure Memtable (s : Schema) where
  cols : List Column
  nrows : ℕ
  slOk : Bool
  types : cols.map Column.type = s.types
  counts : ∀ c ∈ cols, c.count = nrows
  room : nrows ≤ s.blockSize

def words : Column → List Word
  | .timestamp xs => xs
  | .int64 xs => xs
  | .float64 xs => xs
  | .symbol _ => []

def int64s (c : Column) : List Int64 := (words c).map Int64.ofBitVec

def gather (idx : List ℕ) : Column → Column
  | .timestamp xs => .timestamp (idx.map fun r => xs.getD r 0)
  | .int64 xs => .int64 (idx.map fun r => xs.getD r 0)
  | .float64 xs => .float64 (idx.map fun r => xs.getD r 0)
  | .symbol xs => .symbol (idx.map fun r => xs.getD r 0)

section
variable {s : Schema}

def Memtable.col (m : Memtable s) (ci : ℕ) : Column := m.cols[ci]?.getD (.timestamp [])

def Memtable.times (m : Memtable s) : List ℤ := (words (m.col s.tsIdx)).map BitVec.toInt

def Memtable.tags (m : Memtable s) : Option (ℕ → ℕ) :=
  s.sortByTagCol.bind fun c =>
    if s.types[c]? = some .symbol then some fun r => ((symbolCodes (m.col c)).getD r 0).toNat else none

def Memtable.bucket (m : Memtable s) (r : ℕ) : ℤ := partIndex s.unit (timeOf m.times r)

def Memtable.days (m : Memtable s) : List ℤ := collectDays [] (m.times.map (partIndex s.unit))

def cut (n : ℕ) : ℕ → List ℕ → List (List ℕ)
  | 0, _ => []
  | f+1, idx => if idx = [] then [] else idx.take n::cut n f (idx.drop n)

def chunkRange (ts : List Int64) : Int64 × Int64 :=
  ts.foldl (fun z t => widenZone z t t) (Int64.maxValue, Int64.minValue)

def blockRange (m : Memtable s) (ci : ℕ) (idx : List ℕ) : Int64 × Int64 :=
  if (m.col ci).type = .timestamp then valueRange (int64s (gather idx (m.col ci)))
  else chunkRange (int64s (gather idx (m.col s.tsIdx)))

end

structure ColumnRun where
  opens : Option Err
  blocks : ℕ → BlockRun
  close : Faults

structure PartRun where
  fails : Option Err
  cols : ℕ → ColumnRun

structure FlushRun where
  fails : Option Err
  tagBufs : Bool
  parts : ℤ → PartRun

def closesOk (f : Faults) : Bool :=
  !f.colSync && f.entries.isNone && !f.entriesSync && f.header.isNone && !f.headerSync && !f.publish

def closeColumn (f : Faults) (idx : Option Bytes) (hwm : UInt64) (ncols : UInt16) (new : List Meta) :
    Option (Option Bytes) :=
  if closesOk f = true then (colWriterClose f idx hwm ncols new).getLast? else none

section
variable (mc : Machine) {s : Schema} (m : Memtable s) (hwm : UInt64)

def writeBlock (run : ColumnRun) (ord : UInt32) (ci : ℕ) (w : ColWriter) (idx : List ℕ) :
    Except Err ColWriter :=
  colWriterWriteBlock mc (run.blocks w.entries.length) ord (gather idx (m.col ci)) (blockRange m ci idx).1
    (blockRange m ci idx).2 w

def flushColumn (run : ColumnRun) (ord : UInt32) (cuts : List (List ℕ)) (ci : ℕ) (c : ColumnFile) :
    Except Err ColumnFile :=
  match run.opens with
  | some e => .error e
  | none =>
    match cuts.foldlM (writeBlock mc m run ord ci) ⟨c.data, []⟩ with
    | .error e => .error e
    | .ok w =>
      match closeColumn run.close c.idx hwm (UInt16.ofNat s.types.length) w.entries with
      | none => .error .io
      | some idx => .ok ⟨idx, w.file⟩

def columnOrder (s : Schema) : List ℕ := (List.range s.types.length).filter (· ≠ s.tsIdx)++[s.tsIdx]

def flushInto (run : PartRun) (ord : UInt32) (cuts : List (List ℕ)) (cols : List ColumnFile) (ci : ℕ) :
    Except Err (List ColumnFile) :=
  match flushColumn mc m hwm (run.cols ci) ord cuts ci (cols[ci]?.getD ⟨none, []⟩) with
  | .error e => .error e
  | .ok c => .ok (cols.set ci c)

end

/-- A partition directory. `ordNext` is the high-water mark of the ordinals
given to blocks of other nodes. -/
structure Dir where
  cols : List ColumnFile
  ordNext : UInt32

def idxNextOrd (idx : Option Bytes) : UInt32 :=
  (readFile idx).entries.foldl (fun n e => e.ord.elim n fun v => if n < v+1 then v+1 else n)
    (UInt32.ofNat (declared idx))

def nextOrdinal (d : Dir) : UInt32 :=
  d.cols.foldl (fun n c => if n < idxNextOrd c.idx then idxNextOrd c.idx else n) d.ordNext

abbrev Store := ℤ → Dir

section
variable (mc : Machine) {s : Schema} (m : Memtable s) (hwm : UInt64)

def rowsOf (order : List ℕ) (d : ℤ) : List ℕ := order.filter fun r => m.bucket r = d

def blocksOf (order : List ℕ) (d : ℤ) : List (List ℕ) :=
  cut s.blockSize (rowsOf m order d).length (rowsOf m order d)

def flushDay (run : FlushRun) (order : List ℕ) (st : Store) (d : ℤ) : Except Err Store :=
  match rowsOf m order d with
  | [] => .ok st
  | r::_ =>
    match (run.parts d).fails with
    | some e => .error e
    | none =>
      let name := partName s.unit (timeOf m.times r)
      match (columnOrder s).foldlM
        (flushInto mc m hwm (run.parts d) (nextOrdinal (st name)) (blocksOf m order d)) (st name).cols with
      | .error e => .error e
      | .ok cols => .ok (update st name ⟨cols, (st name).ordNext⟩)

def orderOf (run : FlushRun) : List ℕ := flushOrder m.slOk run.tagBufs (rowIndex m.times) m.tags

def partFlush (run : FlushRun) (st : Store) : Except Err Store :=
  if m.nrows = 0 then .ok st
  else
    match run.fails with
    | some e => .error e
    | none => m.days.foldlM (flushDay mc m hwm run (orderOf m run)) st

end

def Dir.partition (d : Dir) (s : Schema) : Partition := ⟨d.cols, s.tsIdx⟩

def Fresh (s : Schema) (d : Dir) : Prop := d.cols = List.replicate s.types.length ⟨none, []⟩

def StampsAgree {s : Schema} (m : Memtable s) (order : List ℕ) : Prop :=
  ∀ ci < s.types.length, (m.col ci).type = .timestamp → ∀ d ∈ m.days, ∀ idx ∈ blocksOf m order d,
    valueRange (int64s (gather idx (m.col ci))) = valueRange (int64s (gather idx (m.col s.tsIdx)))

theorem blockSize_range (s : Schema) : 0 < s.blockSize ∧ s.blockSize ≤ blockPoints := by
  rw [Schema.blockSize]
  split_ifs with h
  · omega
  · exact ⟨by decide, le_rfl⟩

@[simp] theorem gather_type (idx : List ℕ) (c : Column) : (gather idx c).type = c.type := by cases c <;> rfl

@[simp] theorem gather_count (idx : List ℕ) (c : Column) : (gather idx c).count = idx.length := by
  cases c <;> simp [gather, Column.count]

theorem cut_flatten {n : ℕ} (hn : 0 < n) (f : ℕ) (idx : List ℕ) (hf : idx.length ≤ f) :
    (cut n f idx).flatten = idx := by
  induction f generalizing idx with
  | zero => rw [eq_nil_of_length_eq_zero (Nat.le_zero.mp hf), cut, flatten_nil]
  | succ f ih =>
    rw [cut]
    split_ifs with hnil
    · rw [hnil, flatten_nil]
    · have hpos := length_pos_of_ne_nil hnil
      rw [flatten_cons, ih _ (by rw [length_drop]; omega), take_append_drop]

theorem cut_mem (n f : ℕ) (hn : 0 < n) (idx : List ℕ) : ∀ c ∈ cut n f idx, c ≠ [] ∧ c.length ≤ n := by
  induction f generalizing idx with
  | zero => simp [cut]
  | succ f ih =>
    intro c hc
    rw [cut] at hc
    split_ifs at hc with hnil
    · simp at hc
    rcases mem_cons.mp hc with rfl | hc
    · refine ⟨?_, length_take_le _ _⟩
      rw [Ne, take_eq_nil_iff, not_or]
      exact ⟨by omega, hnil⟩
    · exact ih _ c hc

theorem cut_length (n f : ℕ) (idx : List ℕ) : (cut n f idx).length ≤ f := by
  induction f generalizing idx with
  | zero => simp [cut]
  | succ f ih =>
    rw [cut]
    split_ifs
    · simp
    · rw [length_cons]
      exact Nat.succ_le_succ (ih _)

theorem chunkRange_eq {ts : List Int64} (h : ts ≠ []) : chunkRange ts = valueRange ts := by
  cases ts with
  | nil => exact absurd rfl h
  | cons t ts =>
    have hfirst : widenZone (Int64.maxValue, Int64.minValue) t t = (t, t) := by
      have hmax : t.toInt ≤ Int64.maxValue.toInt := Int64.toInt_le t
      have hmin : Int64.minValue.toInt ≤ t.toInt := Int64.le_toInt t
      simp only [widenZone, Prod.mk.injEq, Int64.lt_iff_toInt_lt]
      constructor
      · split_ifs with hlt
        · rfl
        · exact Int64.toInt_inj.mp (by omega)
      split_ifs with hlt
      · rfl
      · exact Int64.toInt_inj.mp (by omega)
    rw [chunkRange, foldl_cons, hfirst]
    rfl

section
variable {mc : Machine} {s : Schema} {m : Memtable s} {hwm : UInt64} {ord : UInt32} {ci : ℕ}

structure Describes (m : Memtable s) (ci : ℕ) (idx : List ℕ) (o : UInt32) (e : Meta) : Prop where
  count : e.count = UInt32.ofNat idx.length
  tsMin : e.tsMin = (blockRange m ci idx).1
  tsMax : e.tsMax = (blockRange m ci idx).2
  ord : e.ord = some o

structure Wrote (mc : Machine) (m : Memtable s) (ci : ℕ) (ord : UInt32) (done : List (List ℕ))
    (w : ColWriter) :
    Prop where
  count : w.entries.length = done.length
  size : w.file.length ≤ done.length*2^32
  entry : ∀ (j : ℕ) (e : Meta) (idx : List ℕ), w.entries[j]? = some e → done[j]? = some idx →
    Holds mc w.file e (gather idx (m.col ci)) ∧ Describes m ci idx (ord+UInt32.ofNat j) e

variable {run : ColumnRun} {idx : List ℕ} {cols : List ColumnFile}

theorem wrote_step {done : List (List ℕ)} {w w' : ColWriter}
    (hw : Wrote mc m ci ord done w) (hd : done.length < blockPoints) (hi : idx.length ≤ blockPoints)
    (h : writeBlock mc m run ord ci w idx = .ok w') : Wrote mc m ci ord (done++[idx]) w' := by
  have hsize := hw.size
  rw [blockPoints] at hd
  obtain ⟨e, more, hfile, hentries, hlen, hholds, hcount, hmin, hmax, hord⟩ := writeBlock_spec
    (by rw [gather_count]; exact hi) (by omega) h
  rw [gather_count] at hcount
  rw [hw.count] at hord
  constructor
  · rw [hentries, length_append, length_append, hw.count]
    rfl
  · rw [length_append, length_singleton]
    omega
  intro j e' idx' he hidx
  rw [hentries] at he
  by_cases hj : j < done.length
  · rw [getElem?_append_left (by rw [hw.count]; exact hj)] at he
    rw [getElem?_append_left hj] at hidx
    obtain ⟨hold, hdesc⟩ := hw.entry j e' idx' he hidx
    rw [hfile]
    exact ⟨holds_append hold _, hdesc⟩
  have hlast : j = done.length := by
    have := (List.getElem?_eq_some_iff.mp hidx).1
    rw [length_append, length_singleton] at this
    omega
  subst hlast
  rw [← hw.count, getElem?_concat_length] at he
  rw [getElem?_concat_length] at hidx
  cases he
  cases hidx
  exact ⟨hholds, hcount, hmin, hmax, hord⟩

variable {cuts : List (List ℕ)}

theorem wrote_run {w : ColWriter} (hn : cuts.length ≤ blockPoints)
    (hc : ∀ idx ∈ cuts, idx.length ≤ blockPoints)
    (h : cuts.foldlM (writeBlock mc m run ord ci) ⟨[], []⟩ = .ok w) : Wrote mc m ci ord cuts w := by
  refine foldlM_done _ ?_ ?_ h
  · intro done idx rest w w' hcuts hw hstep
    rw [hcuts, length_append, length_cons] at hn
    exact wrote_step hw (by omega) (hc idx (by simp [hcuts])) hstep
  · constructor <;> simp

theorem closeColumn_new {f : Faults} {ncols : UInt16} {new : List Meta} {idx : Option Bytes} (hn : new ≠ [])
    (hlt : new.length < 2^32) (h : closeColumn f none hwm ncols new = some idx) :
    (readFile idx).entries = new := by
  rw [closeColumn] at h
  split_ifs at h with hok
  have hsync : f.colSync = false ∧ f.publish = false := by
    simp only [closesOk, Bool.and_eq_true, Bool.not_eq_true'] at hok
    exact ⟨hok.1.1.1.1.1, hok.2⟩
  rw [colWriterClose, if_neg (by simp [hsync.1, hn]), publishStates, rewriteStates,
    if_neg (by simp [hsync.2])] at h
  have hidx : idx = some (rewritten f none (flushed none hwm new) ncols new) := (Option.some.inj h).symm
  have hread := rewritten_grown Faults.none rfl none (by simp [Intact]) hwm ncols hn
    (by simpa [readFile, Manifest.empty] using hlt)
  rw [hidx]
  exact congrArg Manifest.entries hread

structure Flushed (mc : Machine) (m : Memtable s) (ci : ℕ) (ord : UInt32) (cuts : List (List ℕ))
    (c : ColumnFile) :
    Prop where
  stores : Stores mc c (cuts.map fun idx => gather idx (m.col ci))
  describes : ∀ (j : ℕ) (e : Meta) (idx : List ℕ), c.entries[j]? = some e → cuts[j]? = some idx →
    Describes m ci idx (ord+UInt32.ofNat j) e

theorem flushColumn_spec {c : ColumnFile} (hne : cuts ≠ [])
    (hn : cuts.length ≤ blockPoints) (hc : ∀ idx ∈ cuts, idx.length ≤ blockPoints)
    (h : flushColumn mc m hwm run ord cuts ci ⟨none, []⟩ = .ok c) : Flushed mc m ci ord cuts c := by
  unfold flushColumn at h
  split at h
  · cases h
  split at h
  · cases h
  rename_i w hw
  split at h
  · cases h
  rename_i idx hidx
  cases h
  have hwrote := wrote_run hn hc hw
  have hsize := hwrote.size
  rw [blockPoints] at hn
  have hlen : w.entries.length < 2^32 := by
    rw [hwrote.count]
    omega
  have hnew : w.entries ≠ [] := by
    intro hnil
    apply hne
    apply eq_nil_of_length_eq_zero
    rw [← hwrote.count, hnil, length_nil]
  have hentries : (ColumnFile.mk idx w.file).entries = w.entries := closeColumn_new hnew hlen hidx
  constructor
  · constructor
    · dsimp only
      omega
    · rw [hentries, hwrote.count, length_map]
    intro j e b he hb
    rw [hentries] at he
    rw [getElem?_map] at hb
    obtain ⟨idx, hidx, rfl⟩ := Option.map_eq_some_iff.mp hb
    exact (hwrote.entry j e idx he hidx).1
  · intro j e idx he hidx
    rw [hentries] at he
    exact (hwrote.entry j e idx he hidx).2

structure Columns (mc : Machine) (m : Memtable s) (ord : UInt32) (cuts : List (List ℕ)) (done : List ℕ)
    (cols : List ColumnFile) : Prop where
  count : cols.length = s.types.length
  flushed : ∀ ci ∈ done, ∀ c, cols[ci]? = some c → Flushed mc m ci ord cuts c
  fresh : ∀ ci, ci ∉ done → ∀ c, cols[ci]? = some c → c = ⟨none, []⟩

theorem columnOrder_nodup (s : Schema) : (columnOrder s).Nodup := by
  rw [columnOrder, nodup_append]
  refine ⟨nodup_range.filter _, nodup_singleton _, ?_⟩
  rintro a ha b hb rfl
  rw [mem_singleton.mp hb] at ha
  simp at ha

theorem mem_columnOrder {s : Schema} (ci : ℕ) : ci ∈ columnOrder s ↔ ci < s.types.length := by
  have hts := (List.getElem?_eq_some_iff.mp s.timestamps).1
  by_cases h : ci = s.tsIdx
  · simp [columnOrder, h, hts]
  · simp [columnOrder, h]

theorem columns_step {run : PartRun} {done : List ℕ} {cols' : List ColumnFile}
    (hne : cuts ≠ []) (hn : cuts.length ≤ blockPoints) (hc : ∀ idx ∈ cuts, idx.length ≤ blockPoints)
    (hci : ci < s.types.length) (hnew : ci ∉ done) (hcols : Columns mc m ord cuts done cols)
    (h : flushInto mc m hwm run ord cuts cols ci = .ok cols') : Columns mc m ord cuts (done++[ci]) cols' := by
  have hat : cols[ci]? = some ⟨none, []⟩ := by
    have hget := getElem?_eq_getElem (by rw [hcols.count]; exact hci : ci < cols.length)
    rw [hget, hcols.fresh ci hnew _ hget]
  unfold flushInto at h
  rw [hat, Option.getD_some] at h
  split at h
  · cases h
  rename_i c hflush
  cases h
  have hspec := flushColumn_spec hne hn hc hflush
  constructor
  · rw [length_set, hcols.count]
  · intro k hk c' hget
    by_cases he : k = ci
    · subst he
      rw [getElem?_set_self (by rw [hcols.count]; exact hci)] at hget
      cases hget
      exact hspec
    · rw [getElem?_set_ne (Ne.symm he)] at hget
      exact hcols.flushed k (by simpa [he] using hk) c' hget
  · intro k hk c' hget
    have hk : k ∉ done ∧ k ≠ ci := by simpa using hk
    rw [getElem?_set_ne (Ne.symm hk.2)] at hget
    exact hcols.fresh k hk.1 c' hget

theorem columns_run {run : PartRun} {d : Dir} (hf : Fresh s d)
    (hne : cuts ≠ []) (hn : cuts.length ≤ blockPoints) (hc : ∀ idx ∈ cuts, idx.length ≤ blockPoints)
    (h : (columnOrder s).foldlM (flushInto mc m hwm run ord cuts) d.cols = .ok cols) :
    Columns mc m ord cuts (columnOrder s) cols := by
  refine foldlM_done _ ?_ ?_ h
  · intro done ci rest cols cols' horder hcols hstep
    have hnodup := columnOrder_nodup s
    rw [horder, nodup_append] at hnodup
    have hnew : ci ∉ done := fun hin => hnodup.2.2 ci hin ci (by simp) rfl
    have hci : ci < s.types.length := (mem_columnOrder ci).mp (by simp [horder])
    exact columns_step hne hn hc hci hnew hcols hstep
  rw [hf]
  constructor
  · simp
  · simp
  · intro ci _ c hget
    exact eq_of_mem_replicate (mem_of_getElem? hget)

theorem col_mem {ci : ℕ} (hci : ci < s.types.length) : m.cols[ci]? = some (m.col ci) := by
  have hlen : m.cols.length = s.types.length := by rw [← m.types, length_map]
  rw [Memtable.col, getElem?_eq_getElem (by omega)]
  rfl

theorem col_type {ci : ℕ} {type : ColumnType} (h : s.types[ci]? = some type) : (m.col ci).type = type := by
  have hci := (List.getElem?_eq_some_iff.mp h).1
  rw [← m.types, getElem?_map, col_mem hci, Option.map_some] at h
  exact Option.some.inj h

theorem blockRange_agrees {ci : ℕ} (hne : idx ≠ []) (hs : (m.col ci).type = .timestamp →
      valueRange (int64s (gather idx (m.col ci))) = valueRange (int64s (gather idx (m.col s.tsIdx)))) :
    blockRange m ci idx = blockRange m s.tsIdx idx := by
  have htype := col_type (m := m) s.timestamps
  have hts : int64s (gather idx (m.col s.tsIdx)) ≠ [] := by
    cases hc : m.col s.tsIdx with
    | timestamp xs => simpa [int64s, words, gather] using hne
    | int64 xs | float64 xs | symbol xs => simp [hc, Column.type] at htype
  rw [blockRange, blockRange, if_pos htype]
  split_ifs with h
  · exact hs h
  · exact chunkRange_eq hts

theorem columns_complete {n : UInt32} (hcols : Columns mc m ord cuts (columnOrder s) cols)
    (hr : ∀ ci < s.types.length, ∀ idx ∈ cuts, blockRange m ci idx = blockRange m s.tsIdx idx) :
    Complete mc (Dir.partition ⟨cols, n⟩ s) fun ci => cuts.map fun idx => gather idx (m.col ci) := by
  have hts := (List.getElem?_eq_some_iff.mp s.timestamps).1
  have hflushed : ∀ (ci : ℕ) (c : ColumnFile), cols[ci]? = some c → ci < s.types.length ∧
    Flushed mc m ci ord cuts c := by
    intro ci c hget
    have hci : ci < s.types.length := by
      rw [← hcols.count]
      exact (List.getElem?_eq_some_iff.mp hget).1
    exact ⟨hci, hcols.flushed ci ((mem_columnOrder ci).mpr hci) c hget⟩
  have htscol : cols[s.tsIdx]? = some (Partition.ts ⟨cols, s.tsIdx⟩) :=
    col_get (p := ⟨cols, s.tsIdx⟩) (by dsimp only; rw [hcols.count]; exact hts)
  obtain ⟨-, htsf⟩ := hflushed _ _ htscol
  constructor
  · dsimp only [Dir.partition]
    rw [hcols.count]
    exact hts
  · intro ci c hget
    exact (hflushed ci c hget).2.stores
  intro ci c hget
  obtain ⟨hci, hf⟩ := hflushed ci c hget
  constructor
  · rw [hf.stores.count, Dir.partition, htsf.stores.count, length_map, length_map]
  intro j e t he ht
  have hj : j < cuts.length := by
    have := (List.getElem?_eq_some_iff.mp he).1
    rw [hf.stores.count, length_map] at this
    exact this
  have hidx := getElem?_eq_getElem hj
  have hde := hf.describes j e _ he hidx
  have hdt := htsf.describes j t _ ht hidx
  have hrange := hr ci hci _ (getElem_mem hj)
  refine ⟨hde.count.trans hdt.count.symm, ?_, ?_, hde.ord.trans hdt.ord.symm, by rw [hdt.ord]; rfl⟩
  · rw [hde.tsMin, hdt.tsMin, hrange]
  · rw [hde.tsMax, hdt.tsMax, hrange]

theorem times_length (m : Memtable s) : m.times.length = m.nrows := by
  have htype := col_type (m := m) s.timestamps
  have hts := (List.getElem?_eq_some_iff.mp s.timestamps).1
  have hcount := m.counts _ (mem_of_getElem? (col_mem hts))
  rw [Memtable.times, length_map, ← hcount]
  cases hc : m.col s.tsIdx with
  | timestamp xs | int64 xs | float64 xs => rfl
  | symbol xs => simp [hc, Column.type] at htype

theorem time_mem {r : ℕ} (hr : r < m.nrows) : timeOf m.times r ∈ m.times := by
  have hlt : r < m.times.length := by rwa [times_length m]
  rw [timeOf, getD_eq_getElem?_getD, getElem?_eq_getElem hlt]
  exact getElem_mem hlt

theorem mem_days {d : ℤ} : d ∈ m.days ↔ ∃ r < m.nrows, m.bucket r = d := by
  rw [Memtable.days, mem_collectDays]
  constructor
  · rintro (h | h)
    · simp at h
    obtain ⟨t, ht, rfl⟩ := mem_map.mp h
    obtain ⟨r, hr, rfl⟩ := mem_iff_getElem.mp ht
    refine ⟨r, by rwa [← times_length m], ?_⟩
    rw [Memtable.bucket, timeOf, getD_eq_getElem?_getD, getElem?_eq_getElem hr]
    rfl
  · rintro ⟨r, hr, rfl⟩
    exact .inr (mem_map_of_mem (time_mem hr))

theorem blocksOf_flatten (m : Memtable s) (order : List ℕ) (d : ℤ) :
    (blocksOf m order d).flatten = rowsOf m order d :=
  cut_flatten (blockSize_range s).1 _ _ le_rfl

theorem blocksOf_mem (m : Memtable s) (order : List ℕ) (d : ℤ) : ∀ idx ∈ blocksOf m order d, idx ≠ [] ∧
    idx.length ≤ blockPoints := by
  intro idx hidx
  obtain ⟨hne, hle⟩ := cut_mem _ _ (blockSize_range s).1 _ idx hidx
  exact ⟨hne, hle.trans (blockSize_range s).2⟩

section
variable {order : List ℕ} (ho : order.Perm (List.range m.nrows))
include ho

theorem mem_rowsOf {d : ℤ} {r : ℕ} : r ∈ rowsOf m order d ↔ r < m.nrows ∧ m.bucket r = d := by
  rw [rowsOf, mem_filter, ho.mem_iff, mem_range, decide_eq_true_iff]

theorem rowsOf_length (d : ℤ) : (rowsOf m order d).length ≤ blockPoints := by
  have h : (rowsOf m order d).length ≤ order.length := length_filter_le _ _
  rw [ho.length_eq, length_range] at h
  exact h.trans (m.room.trans (blockSize_range s).2)

theorem days_perm : (m.days.flatMap fun d => (blocksOf m order d).flatten).Perm (range m.nrows) := by
  have hblocks : (fun d => (blocksOf m order d).flatten) = fun d => order.filter fun r => m.bucket r = d :=
    funext fun d => blocksOf_flatten m _ d
  rw [hblocks]
  refine (CountingSort.flatMap_filter_perm _ _ (collectDays_nodup [] _ nodup_nil) _).trans ?_
  rw [filter_eq_self.mpr]
  · exact ho
  · intro r hr
    exact decide_eq_true (mem_days.mpr ⟨r, mem_range.mp (ho.mem_iff.mp hr), rfl⟩)

variable {run : FlushRun}

theorem flushDay_spec {st st' : Store} {d : ℤ} (hd : d ∈ m.days) (hfresh : Fresh s (st d))
    (hnamed : ∀ t ∈ m.times, Named s.unit t) (hs : StampsAgree m order)
    (h : flushDay mc m hwm run order st d = .ok st') :
    (∀ n, n ≠ d → st' n = st n) ∧ (st' d).cols.length = s.types.length ∧
    Complete mc ((st' d).partition s) fun ci => (blocksOf m order d).map fun idx =>
    gather idx (m.col ci) := by
  have hflat := blocksOf_flatten m order d
  have hmem := blocksOf_mem m order d
  unfold flushDay at h
  split at h
  · rename_i hnil
    obtain ⟨r, hr, hb⟩ := mem_days.mp hd
    have hin := (mem_rowsOf ho).mpr ⟨hr, hb⟩
    rw [hnil] at hin
    simp at hin
  rename_i r rest hrows
  split at h
  · cases h
  obtain ⟨hr, hb⟩ := (mem_rowsOf ho).mp (by rw [hrows]; simp : r ∈ rowsOf m order d)
  have hname : partName s.unit (timeOf m.times r) = d := (hnamed _ (time_mem hr)).symm.trans hb
  rw [hname] at h
  dsimp only at h
  split at h
  · cases h
  rename_i cols hcols
  cases h
  have hne : blocksOf m order d ≠ [] := by
    intro hnil
    rw [hnil, hrows] at hflat
    cases hflat
  have hlen : (blocksOf m order d).length ≤ blockPoints := (cut_length _ _ _).trans (rowsOf_length ho d)
  have hspec := columns_run hfresh hne hlen (fun idx hidx => (hmem idx hidx).2) hcols
  refine ⟨fun n hn => update_of_ne hn _ _, ?_, ?_⟩
  · rw [update_self]
    exact hspec.count
  rw [update_self]
  apply columns_complete hspec
  intro ci hci idx hidx
  exact blockRange_agrees (hmem idx hidx).1 fun htype => hs ci hci htype d hd idx hidx

theorem flushDays_spec {st st' : Store} (hfresh : ∀ d ∈ m.days, Fresh s (st d))
    (hnamed : ∀ t ∈ m.times, Named s.unit t) (hs : StampsAgree m order)
    (h : m.days.foldlM (flushDay mc m hwm run order) st = .ok st') :
    (∀ n, n ∉ m.days → st' n = st n) ∧ ∀ d ∈ m.days, (st' d).cols.length = s.types.length ∧
      Complete mc ((st' d).partition s) fun ci => (blocksOf m order d).map fun idx =>
      gather idx (m.col ci) := by
  refine foldlM_done (fun done u => (∀ n, n ∉ done → u n = st n) ∧ ∀ d ∈ done,
    (u d).cols.length = s.types.length ∧
      Complete mc ((u d).partition s) fun ci => (blocksOf m order d).map fun idx =>
        gather idx (m.col ci)) ?_ ?_ h
  · intro done d rest u u' hdays hdone hstep
    have hd : d ∈ m.days := by simp [hdays]
    have hnodup : m.days.Nodup := collectDays_nodup [] _ nodup_nil
    rw [hdays, nodup_append] at hnodup
    have hnew : d ∉ done := fun hin => hnodup.2.2 d hin d (by simp) rfl
    have hf : Fresh s (u d) := by
      rw [hdone.1 d hnew]
      exact hfresh d hd
    obtain ⟨hother, hcount, hcomplete⟩ := flushDay_spec ho hd hf hnamed hs hstep
    constructor
    · intro n hn
      rw [mem_append, mem_singleton, not_or] at hn
      rw [hother n hn.2, hdone.1 n hn.1]
    intro e he
    by_cases hed : e = d
    · subst hed
      exact ⟨hcount, hcomplete⟩
    · rw [hother e hed]
      exact hdone.2 e (by simpa [hed] using he)
  · simp

end

end

/-- Opening the partitions of a flush and reading all their blocks. -/
theorem flush_reads_back (mc : Machine) {s : Schema} (m : Memtable s) (hwm : UInt64) (run : FlushRun)
    (st st' : Store) (hfresh : ∀ t ∈ m.times, Fresh s (st (partName s.unit t)))
    (hnamed : ∀ t ∈ m.times, Named s.unit t) (hsl : m.slOk = true) (hbufs : run.tagBufs = true)
    (hstamps : StampsAgree m (orderOf m run)) (h : partFlush mc m hwm run st = .ok st') :
    ∃ layout : ℤ → List (List ℕ), (m.days.flatMap fun d => (layout d).flatten).Perm (List.range m.nrows) ∧
      (∀ d, d ∉ m.days → st' d = st d) ∧ ∀ d ∈ m.days, (layout d).flatten.Pairwise (Before m.times m.tags) ∧
        (∀ r ∈ (layout d).flatten, partName s.unit (timeOf m.times r) = d) ∧ ∀ ci type,
        s.types[ci]? = some type →
          columnSlots ((st' d).partition s) ci = (List.range (layout d).length).map .block ∧
          readColumn mc type ((st' d).partition s) ci =
            .ok ((layout d).map fun idx => (gather idx (m.col ci)).values) := by
  have ho : (orderOf m run).Perm (range m.nrows) := by
    rw [← times_length m]
    exact flushOrder_perm _ _ _ _
  refine ⟨blocksOf m (orderOf m run), days_perm ho, ?_⟩
  rw [partFlush] at h
  split_ifs at h with hzero
  · have hdays : ∀ d, d ∉ m.days := by
      intro d hd
      obtain ⟨r, hr, -⟩ := mem_days.mp hd
      omega
    rw [Except.ok.inj h]
    exact ⟨fun _ _ => rfl, fun d hd => absurd hd (hdays d)⟩
  split at h
  · cases h
  have hf : ∀ d ∈ m.days, Fresh s (st d) := by
    intro d hd
    obtain ⟨r, hr, rfl⟩ := mem_days.mp hd
    have ht := time_mem hr
    rw [Memtable.bucket, hnamed _ ht]
    exact hfresh _ ht
  obtain ⟨hother, hdays⟩ := flushDays_spec ho hf hnamed hstamps h
  refine ⟨hother, ?_⟩
  intro d hd
  obtain ⟨hcount, hcomplete⟩ := hdays d hd
  have hsorted : (orderOf m run).Pairwise (Before m.times m.tags) := by
    rw [orderOf, hsl, hbufs]
    exact flushOrder_sorted _ _
  refine ⟨?_, ?_, ?_⟩
  · rw [blocksOf_flatten m _ d]
    exact hsorted.filter _
  · intro r hr
    rw [blocksOf_flatten m _ d] at hr
    obtain ⟨hlt, hb⟩ := (mem_rowsOf ho).mp hr
    exact (hnamed _ (time_mem hlt)).symm.trans hb
  intro ci type htype
  have hci : ci < ((st' d).partition s).cols.length :=
    lt_of_lt_of_eq (List.getElem?_eq_some_iff.mp htype).1 hcount.symm
  have hts := hcomplete.stores _ _ (col_get hcomplete.ts)
  constructor
  · rw [complete_slots hcomplete hci, Partition.ts, hts.count, length_map]
  rw [complete_read hcomplete hci, map_map]
  · rfl
  intro b hb
  obtain ⟨idx, -, rfl⟩ := mem_map.mp hb
  rw [gather_type, col_type htype]

theorem ok_reaches {α : Type} {x : Except Err α} (P : α → Prop) [DecidablePred P]
    (h : (match x with
      | .ok a => decide (P a)
      | .error _ => false) = true) : ∃ a, x = .ok a ∧ P a := by
  cases x with
  | error e => cases h
  | ok a => exact ⟨a, rfl, of_decide_eq_true h⟩

def plainMachine : Machine := ⟨zeroOnly, crc32cStep, fun _ => Stats.absent, fun _ => 0⟩

def calm : FlushRun :=
    ⟨none, true, fun _ => ⟨none, fun _ => ⟨none, fun _ => ⟨none, false, plenty⟩, Faults.none⟩⟩⟩

def emptyStore (s : Schema) : Store := fun _ => ⟨List.replicate s.types.length ⟨none, []⟩, 0⟩

def tagged : Schema := ⟨[.timestamp, .int64, .symbol], 0, .day, 1024, some 2, rfl⟩

def taggedRows : Memtable tagged where
  cols := [.timestamp [5, 86400000000001, 3], .int64 [10, 20, 30], .symbol [1, 0, 0]]
  nrows := 3
  slOk := true
  types := rfl
  counts := by decide
  room := by decide

theorem flush_reads_back_tagged : ∃ st', partFlush plainMachine taggedRows 0 calm (emptyStore tagged) =
    .ok st' ∧
      ∃ layout : ℤ → List (List ℕ),
      (taggedRows.days.flatMap fun d => (layout d).flatten).Perm (List.range 3) ∧
        (∀ d, d ∉ taggedRows.days → st' d = emptyStore tagged d) ∧
        ∀ d ∈ taggedRows.days, (layout d).flatten.Pairwise (Before taggedRows.times taggedRows.tags) ∧
          (∀ r ∈ (layout d).flatten, partName .day (timeOf taggedRows.times r) = d) ∧
          ∀ ci type, tagged.types[ci]? = some type →
            columnSlots ((st' d).partition tagged) ci = (List.range (layout d).length).map .block ∧
            readColumn plainMachine type ((st' d).partition tagged) ci =
              .ok ((layout d).map fun idx => (gather idx (taggedRows.col ci)).values) := by
  obtain ⟨st', hok, -⟩ := ok_reaches (x := partFlush plainMachine taggedRows 0 calm (emptyStore tagged))
    (fun _ => True)
    (by decide +kernel)
  refine ⟨st', hok, flush_reads_back _ _ 0 _ _ st' (fun _ _ => rfl)
    (by decide) rfl rfl ?_ hok⟩
  intro ci hci htype
  have h0 : ci = 0 := by
    match ci, hci, htype with
    | 0, _, _ => rfl
    | 1, _, h => cases h
    | 2, _, h => cases h
  subst h0
  intro _ _ _ _
  rfl

end QEngine.PartitionFlush

import QEngine.RaftLogRecord

/-!
# The segment file under the Raft log

`seg.bin` is a byte string of framed records, `snap_meta.bin` a small marker file,
and the offset table tells where the record of each index starts. The operations
are those of `raft_log.c` with every I/O call succeeding, but for a write past the
largest file offset.
-/

namespace QEngine.RaftLogSegment
open List Function ByteFields RaftLogRecord

def logEntryMagic : ℕ := 0x45544652
def snapMagic : ℕ := 0x53544652
def logVersion : ℕ := 1
def longMax : ℕ := 2^63-1

def recordBytes (e : Entry) : Bytes :=
  leBytes 4 logEntryMagic++(leBytes 8 e.index++(leBytes 8 e.term++(leBytes 4 e.type++
    (leBytes 4 e.payload.length++(e.payload++leBytes 4 e.payload.length)))))

def segBytes (es : List Entry) : Bytes := es.flatMap recordBytes

/-- The files a reopened log is read from, and the temporary segment of a
compaction in progress. -/
structure Disk where
  seg : Bytes
  segTmp : Option Bytes
  snapMeta : Option Bytes
  deriving DecidableEq

structure RaftLog where
  disk : Disk
  snapIndex : ℕ
  snapTerm : ℕ
  firstIndex : ℕ
  lastIndex : ℕ
  lastTerm : ℕ
  offsets : ℕ → ℕ

structure Draft where
  term : UInt64
  type : UInt32
  payload : Bytes
  deriving DecidableEq

def Draft.entry (d : Draft) (index : ℕ) : Entry := ⟨index, d.term.toNat, d.type.toNat, d.payload⟩

def ftruncate (bs : Bytes) (n : ℕ) : Bytes := bs.take n++List.replicate (n-bs.length) 0

def RaftLog.append (rl : RaftLog) (d : Draft) : Option (RaftLog × ℕ) :=
  if maxEntryPayload < d.payload.length then none
  else
    let idx := rl.lastIndex+1
    let first := if rl.lastIndex = 0 then idx else rl.firstIndex
    let off := rl.disk.seg.length
    let bytes := recordBytes (d.entry idx)
    if longMax < off+bytes.length then none
    else some ({ rl with
      disk := { rl.disk with seg := rl.disk.seg++bytes }
      firstIndex := first
      lastIndex := idx
      lastTerm := d.term.toNat
      offsets := update rl.offsets (idx-first) off }, idx)

def RaftLog.read (rl : RaftLog) (index : ℕ) : Option Entry :=
  if index = 0 then none
  else if index < rl.firstIndex ∨ rl.lastIndex < index then none
  else
    let off := rl.offsets (index-rl.firstIndex)
    do
      let magic ← fieldAt rl.disk.seg off 4
      guard (magic = logEntryMagic)
      let idx ← fieldAt rl.disk.seg (off+4) 8
      let term ← fieldAt rl.disk.seg (off+12) 8
      let type ← fieldAt rl.disk.seg (off+20) 4
      let plen ← fieldAt rl.disk.seg (off+24) 4
      guard (plen ≤ maxEntryPayload)
      let payload ← sliceAt rl.disk.seg (off+28) plen
      pure ⟨idx, term, type, payload⟩

def RaftLog.termAt (rl : RaftLog) (index : ℕ) : ℕ :=
  if index = 0 then 0
  else if index = rl.snapIndex then rl.snapTerm
  else if rl.firstIndex ≤ index ∧ index ≤ rl.lastIndex then
    let off := rl.offsets (index-rl.firstIndex)
    (do
      let magic ← fieldAt rl.disk.seg off 4
      guard (magic = logEntryMagic)
      let idx ← fieldAt rl.disk.seg (off+4) 8
      let term ← fieldAt rl.disk.seg (off+12) 8
      guard (idx = index)
      pure term : Option ℕ).getD 0
  else 0

def RaftLog.truncate (rl : RaftLog) (index : ℕ) : RaftLog :=
  if index = 0 ∨ rl.lastIndex < index then rl
  else if index < rl.firstIndex then rl
  else
    let cut := rl.offsets (index-rl.firstIndex)
    let seg := ftruncate rl.disk.seg cut
    if index-1 < rl.firstIndex then
      { rl with
          disk := { rl.disk with seg := seg }
          firstIndex := 1
          lastIndex := 0
          lastTerm := 0 }
    else
      { rl with
          disk := { rl.disk with seg := seg }
          lastIndex := index-1
          lastTerm := (fieldAt seg (rl.offsets (index-1-rl.firstIndex)+12) 8).getD rl.lastTerm }

/-- One surviving record, read at its old offset with its trailer checked. -/
def RaftLog.copyRecord (rl : RaftLog) (index : ℕ) : Option Entry := do
  let off := rl.offsets (index-rl.firstIndex)
  let magic ← fieldAt rl.disk.seg off 4
  guard (magic = logEntryMagic)
  let idx ← fieldAt rl.disk.seg (off+4) 8
  let term ← fieldAt rl.disk.seg (off+12) 8
  let type ← fieldAt rl.disk.seg (off+20) 4
  let plen ← fieldAt rl.disk.seg (off+24) 4
  let payload ← sliceAt rl.disk.seg (off+28) plen
  let trailer ← fieldAt rl.disk.seg (off+28+plen) 4
  guard (trailer = plen)
  pure ⟨idx, term, type, payload⟩

/-- The records a compaction at `snapIdx` writes to the temporary segment, in
order; `none` when one of them cannot be read. -/
def RaftLog.survivors (rl : RaftLog) (snapIdx : ℕ) : Option (List Entry) :=
  ((List.range' (snapIdx+1) (rl.lastIndex-snapIdx)).filter
    (fun idx => rl.firstIndex ≤ idx)).mapM rl.copyRecord

def snapMetaBytes (snapIdx snapTerm : ℕ) : Bytes :=
  leBytes 4 snapMagic++(leBytes 4 logVersion++(leBytes 8 snapIdx++leBytes 8 snapTerm))

def Disk.renamed (d : Disk) (kept : List Entry) : Disk :=
  { d with seg := segBytes kept, segTmp := none }

def RaftLog.compact (rl : RaftLog) (snapIdx snapTerm : UInt64) : Option RaftLog :=
  if snapIdx.toNat ≤ rl.snapIndex then some rl
  else do
    let kept ← rl.survivors snapIdx.toNat
    pure
      { disk := { rl.disk.renamed kept with
          snapMeta := some (snapMetaBytes snapIdx.toNat snapTerm.toNat) }
        snapIndex := snapIdx.toNat
        snapTerm := snapTerm.toNat
        firstIndex := snapIdx.toNat+1
        lastIndex := if kept.length = 0 then snapIdx.toNat else snapIdx.toNat+kept.length
        lastTerm := if kept.length = 0 then snapTerm.toNat
          else ((kept.getLast?).map Entry.term).getD 0
        offsets := fun i => (segBytes (kept.take i)).length }

def snapMetaLoad : Option Bytes → ℕ × ℕ
  | none => (0, 0)
  | some bs => (do
    let m ← fieldAt bs 0 4
    let _ ← fieldAt bs 4 4
    let idx ← fieldAt bs 8 8
    let term ← fieldAt bs 16 8
    guard (m = snapMagic)
    pure (idx, term) : Option (ℕ × ℕ)).getD (0, 0)

inductive Scan where
  | eof
  | torn
  | record (idx term plen : ℕ)
  deriving DecidableEq

/-- One turn of the recovery scan. A magic that cannot be read whole is the end of the file; a later
mismatch a torn tail. -/
def scanRecord (seg : Bytes) (off : ℕ) : Scan :=
  match fieldAt seg off 4 with
  | none => .eof
  | some magic =>
    if magic ≠ logEntryMagic then .torn
    else
      match (do
        let idx ← fieldAt seg (off+4) 8
        let term ← fieldAt seg (off+12) 8
        let _ ← fieldAt seg (off+20) 4
        let plen ← fieldAt seg (off+24) 4
        guard (plen ≤ maxEntryPayload)
        let trailer ← fieldAt seg (off+28+plen) 4
        guard (trailer = plen)
        pure (idx, term, plen) : Option (ℕ × ℕ × ℕ)) with
      | some (idx, term, plen) => .record idx term plen
      | none => .torn

structure Table where
  first : ℕ
  last : ℕ
  lastTerm : ℕ
  offsets : ℕ → ℕ

def Table.fresh : Table := ⟨1, 0, 0, fun _ => 0⟩

def Table.put (t : Table) (off idx term : ℕ) : Table :=
  let first := if t.last = 0 then idx else t.first
  ⟨first, idx, term, update t.offsets (idx-first) off⟩

def rebuildLoop : ℕ → Bytes → ℕ → Table → Bytes × Table
  | 0, seg, _, t => (seg, t)
  | fuel+1, seg, off, t =>
    match scanRecord seg off with
    | .eof => (seg, t)
    | .torn => (ftruncate seg off, t)
    | .record idx term plen => rebuildLoop fuel seg (off+32+plen) (t.put off idx term)

/-- Every record is at least one byte long, so the loop stops before its
allowance does. -/
def logRebuildOffsets (seg : Bytes) : Bytes × Table :=
  rebuildLoop (seg.length+1) seg 0 Table.fresh

def raftLogOpen (d : Disk) : RaftLog :=
  let snap := snapMetaLoad d.snapMeta
  let scan := logRebuildOffsets d.seg
  let short := scan.2.last < snap.1
  { disk := { d with seg := scan.1 }
    snapIndex := snap.1
    snapTerm := snap.2
    firstIndex := if short then snap.1+1 else scan.2.first
    lastIndex := if short then snap.1 else scan.2.last
    lastTerm := if short then snap.2 else scan.2.lastTerm
    offsets := scan.2.offsets }

def RaftLog.empty : RaftLog := raftLogOpen ⟨[], none, none⟩

structure Sized (e : Entry) : Prop where
  index : e.index < 256^8
  term : e.term < 256^8
  type : e.type < 256^4
  payload : e.payload.length ≤ maxEntryPayload

theorem draft_sized (d : Draft) {index : ℕ} (hi : index < 2^64)
    (hp : d.payload.length ≤ maxEntryPayload) : Sized (d.entry index) :=
  ⟨by simpa [Draft.entry] using hi, by simpa [Draft.entry] using d.term.toNat_lt,
    by simpa [Draft.entry] using d.type.toNat_lt, hp⟩

variable (e : Entry)

theorem plen_lt (h : e.payload.length ≤ maxEntryPayload) : e.payload.length < 256^4 := by
  simp only [maxEntryPayload] at h
  omega

@[simp] theorem recordBytes_length : (recordBytes e).length = 32+e.payload.length := by
  simp [recordBytes]
  omega

variable (es : List Entry)

theorem segBytes_append (fs : List Entry) : segBytes (es++fs) = segBytes es++segBytes fs := by
  simp [segBytes]

theorem segBytes_cons : segBytes (e::es) = recordBytes e++segBytes es := rfl

theorem magic_lt : logEntryMagic < 256^4 := by
  unfold logEntryMagic
  norm_num

theorem record_magic : fieldAt (recordBytes e) 0 4 = some logEntryMagic := by
  have hf := fieldAt_written [] (leBytes 8 e.index++(leBytes 8 e.term++(leBytes 4 e.type++
    (leBytes 4 e.payload.length++(e.payload++leBytes 4 e.payload.length))))) 4 logEntryMagic magic_lt
  rwa [nil_append, length_nil] at hf

theorem record_index (h : Sized e) : fieldAt (recordBytes e) 4 8 = some e.index := by
  have hf := fieldAt_written (leBytes 4 logEntryMagic) (leBytes 8 e.term++(leBytes 4 e.type++
    (leBytes 4 e.payload.length++(e.payload++leBytes 4 e.payload.length)))) 8 e.index h.index
  rwa [leBytes_length] at hf

theorem record_term (h : Sized e) : fieldAt (recordBytes e) 12 8 = some e.term := by
  have hf := fieldAt_written (leBytes 4 logEntryMagic++leBytes 8 e.index) (leBytes 4 e.type++
    (leBytes 4 e.payload.length++(e.payload++leBytes 4 e.payload.length))) 8 e.term h.term
  simpa [recordBytes] using hf

theorem record_type (h : Sized e) : fieldAt (recordBytes e) 20 4 = some e.type := by
  have hf := fieldAt_written (leBytes 4 logEntryMagic++(leBytes 8 e.index++leBytes 8 e.term))
    (leBytes 4 e.payload.length++(e.payload++leBytes 4 e.payload.length)) 4 e.type h.type
  simpa [recordBytes] using hf

theorem record_plen (h : e.payload.length ≤ maxEntryPayload) :
    fieldAt (recordBytes e) 24 4 = some e.payload.length := by
  have hf := fieldAt_written
    (leBytes 4 logEntryMagic++(leBytes 8 e.index++(leBytes 8 e.term++leBytes 4 e.type)))
    (e.payload++leBytes 4 e.payload.length) 4 e.payload.length (plen_lt e h)
  simpa [recordBytes] using hf

theorem record_payload : sliceAt (recordBytes e) 28 e.payload.length = some e.payload := by
  have hf := sliceAt_split
    (leBytes 4 logEntryMagic++(leBytes 8 e.index++(leBytes 8 e.term++(leBytes 4 e.type++
      leBytes 4 e.payload.length)))) e.payload (leBytes 4 e.payload.length)
  simpa [recordBytes] using hf

theorem record_trailer (h : e.payload.length ≤ maxEntryPayload) :
    fieldAt (recordBytes e) (28+e.payload.length) 4 = some e.payload.length := by
  have hf := fieldAt_written
    (leBytes 4 logEntryMagic++(leBytes 8 e.index++(leBytes 8 e.term++(leBytes 4 e.type++
      (leBytes 4 e.payload.length++e.payload))))) [] 4 e.payload.length (plen_lt e h)
  simpa [recordBytes, add_assoc, add_comm, add_left_comm] using hf

variable {i : ℕ}

theorem seg_split {e : Entry} (h : es[i]? = some e) :
    segBytes es = segBytes (es.take i)++(recordBytes e++segBytes (es.drop (i+1))) := by
  obtain ⟨hi, he⟩ := List.getElem?_eq_some_iff.mp h
  have hd : es = es.take i++(e::es.drop (i+1)) := by
    rw [← he, ← drop_eq_getElem_cons hi, take_append_drop]
  calc
    segBytes es = segBytes (es.take i++(e::es.drop (i+1))) := congrArg segBytes hd
    _ = _ := by rw [segBytes_append, segBytes_cons]

theorem seg_field {e : Entry} (h : es[i]? = some e) (o w : ℕ) (hw : o+w ≤ 32+e.payload.length) :
    fieldAt (segBytes es) ((segBytes (es.take i)).length+o) w = fieldAt (recordBytes e) o w := by
  rw [seg_split es h]
  exact fieldAt_inside _ _ _ o w (by simpa using hw)

theorem seg_slice {e : Entry} (h : es[i]? = some e) (o w : ℕ) (hw : o+w ≤ 32+e.payload.length) :
    sliceAt (segBytes es) ((segBytes (es.take i)).length+o) w = sliceAt (recordBytes e) o w := by
  rw [seg_split es h]
  exact sliceAt_inside _ _ _ o w (by simpa using hw)

structure Repr (rl : RaftLog) (l : Log) : Prop where
  seg : rl.disk.seg = segBytes l.entries
  sized : ∀ e ∈ l.entries, Sized e
  offsets : ∀ i < l.entries.length, rl.offsets i = (segBytes (l.entries.take i)).length
  snapIndex : rl.snapIndex = l.snapIndex
  snapTerm : rl.snapTerm = l.snapTerm
  firstIndex : rl.firstIndex = l.firstIndex
  lastIndex : rl.lastIndex = l.lastIndex
  lastTerm : rl.lastTerm = l.lastTerm
  marker : snapMetaLoad rl.disk.snapMeta = (l.snapIndex, l.snapTerm)

theorem ftruncate_left {xs ys : Bytes} : ftruncate (xs++ys) xs.length = xs := by
  simp [ftruncate]

theorem seg_cut (i : ℕ) : ftruncate (segBytes es) (segBytes (es.take i)).length = segBytes (es.take i) := by
  have hs : segBytes es = segBytes (es.take i)++segBytes (es.drop i) := by
    rw [← segBytes_append, take_append_drop]
  calc
    ftruncate (segBytes es) (segBytes (es.take i)).length
      = ftruncate (segBytes (es.take i)++segBytes (es.drop i)) (segBytes (es.take i)).length :=
        congrArg (fun bs => ftruncate bs _) hs
    _ = _ := ftruncate_left

theorem snapMeta_fields (si st : UInt64) : fieldAt (snapMetaBytes si.toNat st.toNat) 0 4 = some snapMagic ∧
    fieldAt (snapMetaBytes si.toNat st.toNat) 4 4 = some logVersion ∧
    fieldAt (snapMetaBytes si.toNat st.toNat) 8 8 = some si.toNat ∧
    fieldAt (snapMetaBytes si.toNat st.toNat) 16 8 = some st.toNat := by
  have h1 := fieldAt_written [] (leBytes 4 logVersion++(leBytes 8 si.toNat++
    leBytes 8 st.toNat)) 4 snapMagic (by unfold snapMagic; norm_num)
  rw [nil_append, length_nil] at h1
  have h2 := fieldAt_written (leBytes 4 snapMagic) (leBytes 8 si.toNat++leBytes 8 st.toNat)
    4 logVersion (by unfold logVersion; norm_num)
  rw [leBytes_length] at h2
  have h3 := fieldAt_written (leBytes 4 snapMagic++leBytes 4 logVersion) (leBytes 8 st.toNat)
    8 si.toNat (by simpa using si.toNat_lt)
  rw [append_assoc, length_append, leBytes_length, leBytes_length] at h3
  have h4 := fieldAt_written (leBytes 4 snapMagic++(leBytes 4 logVersion++leBytes 8 si.toNat)) []
    8 st.toNat (by simpa using st.toNat_lt)
  rw [append_nil, append_assoc, append_assoc, length_append, length_append,
    leBytes_length, leBytes_length, leBytes_length] at h4
  exact ⟨h1, h2, h3, h4⟩

theorem snapMeta_written (si st : UInt64) :
    snapMetaLoad (some (snapMetaBytes si.toNat st.toNat)) = (si.toNat, st.toNat) := by
  obtain ⟨h1, h2, h3, h4⟩ := snapMeta_fields si st
  simp only [snapMetaLoad, h1, h2, h3, h4, Option.bind_eq_bind, Option.bind_some, guard, if_true,
    Option.pure_def, Option.getD_some]

variable (rl : RaftLog) (l : Log)

theorem segment_append_some (d : Draft) (rl' : RaftLog) (idx : ℕ)
    (h : rl.append d = some (rl', idx)) :
    d.payload.length ≤ maxEntryPayload ∧
    rl.disk.seg.length+(32+d.payload.length) ≤ longMax ∧ idx = rl.lastIndex+1 ∧
    rl' = { rl with
      disk := { rl.disk with seg := rl.disk.seg++recordBytes (d.entry (rl.lastIndex+1)) }
      firstIndex := if rl.lastIndex = 0 then rl.lastIndex+1 else rl.firstIndex
      lastIndex := rl.lastIndex+1
      lastTerm := d.term.toNat
      offsets := update rl.offsets
        (rl.lastIndex+1-(if rl.lastIndex = 0 then rl.lastIndex+1 else rl.firstIndex))
        rl.disk.seg.length } := by
  unfold RaftLog.append at h
  split at h
  · simp at h
  rename_i hp
  dsimp only at h
  split at h
  · simp at h
  rename_i hb
  simp only [recordBytes_length, Draft.entry] at hb
  simp only [Option.some.injEq, Prod.mk.injEq] at h
  exact ⟨by omega, by omega, h.2.symm, h.1.symm⟩

variable (hr : Repr rl l) (ha : l.Aligned)
include hr ha

theorem repr_position (index : ℕ)
    (hf : l.firstIndex ≤ index) (hl : index ≤ l.lastIndex) :
    ∃ e, l.entries[index-l.firstIndex]? = some e ∧ Sized e ∧ e.index = index ∧
      rl.offsets (index-rl.firstIndex) = (segBytes (l.entries.take (index-l.firstIndex))).length := by
  have hs := ha.span
  have hi : index-l.firstIndex < l.entries.length := by omega
  have he := getElem?_eq_getElem hi
  refine ⟨l.entries[index-l.firstIndex], he, hr.sized _ (getElem_mem hi), ?_, ?_⟩
  · rw [ha.index _ _ he]
    omega
  · rw [hr.firstIndex]
    exact hr.offsets _ hi

theorem read_repr (index : ℕ) : rl.read index = l.read index := by
  unfold RaftLog.read Log.read
  rw [hr.firstIndex, hr.lastIndex]
  split_ifs with h0 h1
  · rfl
  · rfl
  obtain ⟨e, he, hs, _, ho⟩ := repr_position rl l hr ha index (by omega) (by omega)
  rw [hr.firstIndex] at ho
  have hp := hs.payload
  rw [he, ho, hr.seg]
  have h4 := seg_field _ he 0 4 (by omega)
  rw [add_zero] at h4
  simp only [h4, record_magic, seg_field _ he 4 8 (by omega), record_index e hs,
    seg_field _ he 12 8 (by omega), record_term e hs, seg_field _ he 20 4 (by omega), record_type e hs,
    seg_field _ he 24 4 (by omega), record_plen e hs.payload, Option.bind_eq_bind, Option.bind_some,
    guard, if_true, Option.pure_def, hp, seg_slice _ he 28 e.payload.length (by omega), record_payload]

theorem termAt_repr (index : ℕ) : rl.termAt index = l.termAt index := by
  unfold RaftLog.termAt Log.termAt
  rw [hr.snapIndex, hr.snapTerm, hr.lastIndex, hr.firstIndex]
  split_ifs with h0 h1 h2
  · rfl
  · rfl
  · obtain ⟨e, he, hs, hx, ho⟩ := repr_position rl l hr ha _ h2.1 h2.2
    rw [hr.firstIndex] at ho
    rw [he, ho, hr.seg]
    have h4 := seg_field _ he 0 4 (by omega)
    rw [add_zero] at h4
    simp only [h4, record_magic, seg_field _ he 4 8 (by omega), record_index e hs,
      seg_field _ he 12 8 (by omega), record_term e hs, Option.bind_eq_bind, Option.bind_some,
      guard, if_true, Option.pure_def, hx, Option.map_some]
  · rfl

theorem copyRecord_repr (index : ℕ)
    (hf : l.firstIndex ≤ index) (hl : index ≤ l.lastIndex) :
    rl.copyRecord index = l.entries[index-l.firstIndex]? := by
  obtain ⟨e, he, hs, _, ho⟩ := repr_position rl l hr ha index hf hl
  unfold RaftLog.copyRecord
  rw [he, ho, hr.seg]
  have h4 := seg_field _ he 0 4 (by omega)
  rw [add_zero] at h4
  have ht := seg_field _ he (28+e.payload.length) 4 (by omega)
  rw [← add_assoc] at ht
  simp only [h4, record_magic, seg_field _ he 4 8 (by omega), record_index e hs,
    seg_field _ he 12 8 (by omega), record_term e hs, seg_field _ he 20 4 (by omega),
    record_type e hs, seg_field _ he 24 4 (by omega), record_plen e hs.payload, Option.bind_eq_bind,
    Option.bind_some, guard, if_true, Option.pure_def,
    seg_slice _ he 28 e.payload.length (by omega), record_payload, ht, record_trailer e hs.payload]

theorem append_repr {d : Draft}
    (hi : l.lastIndex+1 < 2^64) {rl' : RaftLog} {idx : ℕ} (h : rl.append d = some (rl', idx)) :
    ∃ l', l.append d.term.toNat d.type.toNat d.payload = some (l', idx) ∧ Repr rl' l' := by
  have hs := ha.span
  have hf := append_first l ha
  obtain ⟨hp, _, rfl, rfl⟩ := segment_append_some rl d rl' idx h
  unfold Log.append
  rw [if_neg (by omega)]
  refine ⟨_, by rw [hr.lastIndex], ?_⟩
  have hsz : Sized (d.entry (rl.lastIndex+1)) :=
    draft_sized d (by rw [hr.lastIndex]; exact hi) (by omega)
  rw [hr.lastIndex] at hsz
  constructor
  · simp [hr.seg, hr.lastIndex, segBytes, Draft.entry]
  · intro e he
    rcases mem_append.mp he with h1 | h1
    · exact hr.sized e h1
    · rw [mem_singleton.mp h1]
      exact hsz
  · intro i hn
    simp only [length_append, length_singleton] at hn
    simp only [hr.lastIndex, hr.firstIndex, hf]
    have hpos : l.lastIndex+1-l.firstIndex = l.entries.length := by omega
    by_cases hlt : i < l.entries.length
    · rw [update_of_ne (by omega), take_append_of_le_length (by omega)]
      exact hr.offsets i hlt
    · have hie : i = l.entries.length := by omega
      rw [hie, hpos, update_self, hr.seg, take_left]
  · exact hr.snapIndex
  · exact hr.snapTerm
  · simp only [hr.lastIndex, hr.firstIndex]
  · simp only [hr.lastIndex]
  · rfl
  · exact hr.marker

theorem truncate_repr {index : ℕ} :
    Repr (rl.truncate index) (l.truncate index) := by
  have hs := ha.span
  unfold RaftLog.truncate Log.truncate
  rw [hr.lastIndex, hr.firstIndex]
  split_ifs with h1 h2 h3
  · exact hr
  · exact hr
  all_goals
    have hlt : index-l.firstIndex < l.entries.length := by omega
    have hcut : ftruncate rl.disk.seg (rl.offsets (index-l.firstIndex)) =
        segBytes (l.entries.take (index-l.firstIndex)) := by
      rw [hr.seg, hr.offsets _ hlt, seg_cut]
    have hmem : ∀ e ∈ l.entries.take (index-l.firstIndex), Sized e :=
      fun e he => hr.sized e (mem_of_mem_take he)
    have hoff : ∀ i < (l.entries.take (index-l.firstIndex)).length, rl.offsets i =
        (segBytes ((l.entries.take (index-l.firstIndex)).take i)).length := by
      intro i hi
      rw [length_take] at hi
      rw [take_take, min_eq_left (by omega), hr.offsets i (by omega)]
  · exact ⟨hcut, hmem, hoff, hr.snapIndex, hr.snapTerm, rfl, rfl, rfl, hr.marker⟩
  refine ⟨hcut, hmem, hoff, hr.snapIndex, hr.snapTerm, rfl, rfl, ?_, hr.marker⟩
  have hk : index-1-l.firstIndex < (l.entries.take (index-l.firstIndex)).length := by
    rw [length_take]
    omega
  have he := getElem?_eq_getElem hk
  have hsz := hmem _ (getElem_mem hk)
  simp only [hcut, hoff _ hk]
  rw [seg_field _ he 12 8 (by omega), record_term _ hsz, he]
  rfl

theorem survivors_repr (si : ℕ) (h : l.snapIndex < si) :
    rl.survivors si = some (l.entries.drop (si+1-l.firstIndex)) := by
  have hs := ha.span
  have hf := ha.first_le
  unfold RaftLog.survivors
  rw [hr.lastIndex, hr.firstIndex, filter_eq_self.mpr (by
    intro i hi
    rw [mem_range'] at hi
    simp
    omega)]
  by_cases hl : l.lastIndex ≤ si
  · rw [Nat.sub_eq_zero_of_le hl, drop_of_length_le (by omega)]
    rfl
  refine mapM_range' _ _ _ _ (by omega) ?_
  intro i hi
  rw [copyRecord_repr rl l hr ha _ (by omega) (by omega)]
  congr 1
  omega

theorem compact_repr (si st : UInt64) :
    ∃ rl', rl.compact si st = some rl' ∧ Repr rl' (l.compact si.toNat st.toNat) := by
  unfold RaftLog.compact
  rw [hr.snapIndex]
  by_cases h : si.toNat ≤ l.snapIndex
  · rw [if_pos h, compact_stale l _ h]
    exact ⟨rl, rfl, hr⟩
  rw [if_neg h, survivors_repr rl l hr ha _ (by omega)]
  refine ⟨_, rfl, ?_⟩
  have he := compact_entries l si.toNat st.toNat (by omega)
  obtain ⟨hsi, hst, hfi⟩ := compact_marks l si.toNat st.toNat (by omega)
  constructor
  · rw [he]
    rfl
  · intro e hm
    rw [he] at hm
    exact hr.sized e (mem_of_mem_drop hm)
  · intro i _
    rw [he]
  · exact hsi.symm
  · exact hst.symm
  · exact hfi.symm
  · simp [Log.compact, h]
  · rw [compact_lastTerm l _ _ (by omega)]
  · rw [hsi, hst]
    exact snapMeta_written si st

end QEngine.RaftLogSegment

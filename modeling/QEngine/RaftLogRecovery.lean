import QEngine.RaftLogInvariant

/-!
# Reopening the Raft log after a crash

The scan of `log_rebuild_offsets` walks the records of `seg.bin`, stops at the first
one it cannot read whole, and cuts the file there unless it takes the leftover for the
end of the file.
-/

namespace QEngine.RaftLogRecovery
open List Function ByteFields RaftLogRecord RaftLogSegment

theorem scan_record (pre post : Bytes) (e : Entry) (hs : Sized e) :
    scanRecord (pre++(recordBytes e++post)) pre.length = .record e.index e.term e.payload.length := by
  have hin : ∀ o w, o+w ≤ 32+e.payload.length →
      fieldAt (pre++(recordBytes e++post)) (pre.length+o) w = fieldAt (recordBytes e) o w :=
    fun o w h => fieldAt_inside pre _ _ o w (by simpa using h)
  have h0 := hin 0 4 (by omega)
  rw [add_zero] at h0
  have ht := hin (28+e.payload.length) 4 (by omega)
  rw [← add_assoc] at ht
  have hp := hs.payload
  simp only [scanRecord, h0, record_magic, hin 4 8 (by omega), record_index e hs,
    hin 12 8 (by omega), record_term e hs, hin 20 4 (by omega), record_type e hs,
    hin 24 4 (by omega), record_plen e hs.payload, ht, record_trailer e hs.payload, Option.bind_eq_bind,
    Option.bind_some, guard, if_true, Option.pure_def, hp, ne_eq, not_true_eq_false, if_false]

theorem scan_end {bs : Bytes} {off : ℕ} (h : bs.length < off+4) : scanRecord bs off = .eof := by
  simp [scanRecord, fieldAt_short bs off 4 h]

theorem cut_field (pre : Bytes) (e : Entry) (k o w : ℕ) (h : o+w ≤ k) (hk : k < 32+e.payload.length) :
    fieldAt (pre++(recordBytes e).take k) (pre.length+o) w = fieldAt (recordBytes e) o w := by
  have h1 := fieldAt_inside pre ((recordBytes e).take k) [] o w (by simp; omega)
  rw [append_nil] at h1
  rw [h1]
  have h2 := fieldAt_front ((recordBytes e).take k) ((recordBytes e).drop k) o w (by simp; omega)
  rw [take_append_drop] at h2
  exact h2.symm

theorem scan_cut {pre : Bytes} {e : Entry} (hs : e.payload.length ≤ maxEntryPayload) {k : ℕ}
    (h4 : 4 ≤ k) (hk : k < 32+e.payload.length) :
    scanRecord (pre++(recordBytes e).take k) pre.length = .torn := by
  have hlen : (pre++(recordBytes e).take k).length = pre.length+k := by
    simp
    omega
  have h0 := cut_field pre e k 0 4 h4 hk
  rw [add_zero, record_magic] at h0
  simp only [scanRecord, h0, ne_eq, not_true_eq_false, if_false]
  split
  · rename_i idx term plen hread
    simp only [Option.bind_eq_bind, Option.bind_eq_some_iff, guard] at hread
    obtain ⟨_, _, _, _, _, _, p, hp, _, _, t, ht, _⟩ := hread
    by_cases h28 : k < 28
    · rw [fieldAt_short _ _ _ (by rw [hlen]; omega)] at hp
      exact absurd hp (by simp)
    rw [cut_field pre e k 24 4 (by omega) hk, record_plen e hs] at hp
    rw [← Option.some.inj hp, fieldAt_short _ _ _ (by rw [hlen]; omega)] at ht
    exact absurd ht (by simp)
  · rfl

def scanned (es : List Entry) (p : ℕ × Table) : ℕ × Table :=
  es.foldl (fun p e => (p.1+32+e.payload.length, p.2.put p.1 e.index e.term)) p

variable (es : List Entry)

theorem scanned_offset (p : ℕ × Table) : (scanned es p).1 = p.1+(segBytes es).length := by
  induction es generalizing p with
  | nil => simp [scanned, segBytes]
  | cons e es ih =>
    have h := ih (p.1+32+e.payload.length, p.2.put p.1 e.index e.term)
    rw [segBytes_cons, length_append, recordBytes_length]
    simp only [scanned, foldl_cons] at h ⊢
    rw [h]
    omega

theorem rebuild_records (hs : ∀ e ∈ es, Sized e) (pre post : Bytes) (fuel : ℕ) (t : Table) :
    rebuildLoop (fuel+es.length) (pre++(segBytes es++post)) pre.length t =
      rebuildLoop fuel (pre++(segBytes es++post)) (pre.length+(segBytes es).length)
        (scanned es (pre.length, t)).2 := by
  induction es generalizing pre t with
  | nil => simp [segBytes, scanned]
  | cons e es ih =>
    have hscan := scan_record pre (segBytes es++post) e (hs e (mem_cons_self ..))
    have hstep : pre++(segBytes (e::es)++post) = pre++(recordBytes e++(segBytes es++post)) := by
      rw [segBytes_cons, append_assoc]
    have htail := ih (fun x hx => hs x (mem_cons_of_mem _ hx)) (pre++recordBytes e)
      (t.put pre.length e.index e.term)
    rw [length_append, recordBytes_length, append_assoc] at htail
    rw [hstep, length_cons, ← add_assoc, rebuildLoop, hscan]
    simp only
    rw [add_assoc pre.length 32, htail, segBytes_cons, length_append, recordBytes_length]
    congr 1
    · omega
    · rw [← add_assoc]
      rfl

structure Filed (es : List Entry) (t : Table) : Prop where
  first : t.first = ((es.head?).map Entry.index).getD 1
  last : t.last = ((es.getLast?).map Entry.index).getD 0
  lastTerm : t.lastTerm = ((es.getLast?).map Entry.term).getD 0
  offsets : ∀ i < es.length, t.offsets i = (segBytes (es.take i)).length

theorem scanned_filed {f : ℕ} (hf : 1 ≤ f)
    (hi : ∀ i e, es[i]? = some e → e.index = f+i) : Filed es (scanned es (0, Table.fresh)).2 := by
  induction es using List.reverseRecOn with
  | nil => exact ⟨rfl, rfl, rfl, by simp⟩
  | append_singleton es e ih =>
    have ht := ih (fun i x hx => hi i x (by
      rw [List.getElem?_append_left (List.getElem?_eq_some_iff.mp hx).1]
      exact hx))
    have he : e.index = f+es.length := hi es.length e (by simp)
    have hsc : (scanned (es++[e]) (0, Table.fresh)).2 =
        (scanned es (0, Table.fresh)).2.put (segBytes es).length e.index e.term := by
      have ho := scanned_offset es (0, Table.fresh)
      rw [zero_add] at ho
      rw [← ho]
      simp [scanned, foldl_append]
    rw [hsc]
    have hfirst : (if (scanned es (0, Table.fresh)).2.last = 0 then e.index
        else (scanned es (0, Table.fresh)).2.first) = f := by
      cases es with
      | nil => simpa [scanned, Table.fresh] using he
      | cons x xs =>
        have hx := hi 0 x (by simp)
        have hl := hi xs.length ((x::xs).getLast (by simp)) (by
          rw [getElem?_append_left (by simp), getLast_eq_getElem]
          simp)
        rw [ht.last, ht.first, getLast?_eq_getLast_of_ne_nil (by simp)]
        simp only [Option.map_some, Option.getD_some, head?_cons]
        rw [if_neg (by omega), hx, add_zero]
    constructor
    · simp only [Table.put, hfirst]
      cases es with
      | nil => simpa using he.symm
      | cons x xs => simpa using (hi 0 x (by simp)).symm
    · simp [Table.put]
    · simp [Table.put]
    intro i hlt
    simp only [length_append, length_singleton] at hlt
    simp only [Table.put, hfirst]
    have hpos : e.index-f = es.length := by omega
    by_cases hlt' : i < es.length
    · rw [update_of_ne (by omega), take_append_of_le_length (by omega)]
      exact ht.offsets i hlt'
    · rw [show i = es.length by omega, hpos, update_self, take_left]

theorem seg_count : 32*es.length ≤ (segBytes es).length := by
  induction es with
  | nil => simp
  | cons e es ih =>
    rw [segBytes_cons, length_append, recordBytes_length, length_cons]
    omega

theorem rebuild_stop (hs : ∀ e ∈ es, Sized e) (tail : Bytes) : ∃ fuel, logRebuildOffsets (segBytes es++tail) =
    rebuildLoop (fuel+1) (segBytes es++tail) (segBytes es).length (scanned es (0, Table.fresh)).2 := by
  have hc := seg_count es
  refine ⟨(segBytes es++tail).length-es.length, ?_⟩
  have h := rebuild_records es hs [] tail ((segBytes es++tail).length-es.length+1) Table.fresh
  simp only [nil_append, length_nil, zero_add] at h
  rw [← h, logRebuildOffsets]
  congr 1
  rw [length_append]
  omega

theorem rebuild_eof (hs : ∀ e ∈ es, Sized e) (tail : Bytes) (ht : tail.length < 4) :
    logRebuildOffsets (segBytes es++tail) = (segBytes es++tail, (scanned es (0, Table.fresh)).2) := by
  obtain ⟨fuel, h⟩ := rebuild_stop es hs _
  rw [h, rebuildLoop, scan_end (by rw [length_append]; omega)]

theorem rebuild_torn (hs : ∀ e ∈ es, Sized e) {tail : Bytes}
    (ht : scanRecord (segBytes es++tail) (segBytes es).length = .torn) :
    logRebuildOffsets (segBytes es++tail) =
      (segBytes es, (scanned es (0, Table.fresh)).2) := by
  obtain ⟨fuel, h⟩ := rebuild_stop es hs _
  rw [h, rebuildLoop, ht]
  simp only [ftruncate_left]

/-- Reopening the files of a log whose last index is not below its snapshot
gives that log back. -/
theorem open_repr {d : Disk} {l : Log} (hseg : d.seg = segBytes l.entries) (hs : ∀ e ∈ l.entries, Sized e)
    (hm : snapMetaLoad d.snapMeta = (l.snapIndex, l.snapTerm))
    (ha : l.Aligned) (hle : l.snapIndex ≤ l.lastIndex) : Repr (raftLogOpen d) l := by
  have hspan := ha.span
  have hfl := ha.first_le
  have hscan := rebuild_eof _ hs [] (by simp)
  rw [append_nil, ← hseg] at hscan
  have hf := scanned_filed _ ha.first_pos ha.index
  have hseg' : (raftLogOpen d).disk.seg = segBytes l.entries := by
    simp only [raftLogOpen, hscan]
    exact hseg
  rcases eq_nil_or_concat l.entries with hn | ⟨es, e, hc⟩
  · have h0 : l.entries.length = 0 := by rw [hn]; rfl
    have hlast : l.lastTerm = l.snapTerm := by
      rcases ha.empty hn with ⟨_, h1⟩ | ⟨h1, h2⟩
      · exact h1
      · rw [h2, ha.fresh (by omega)]
    have hfl' : (scanned l.entries (0, Table.fresh)).2.last = 0 := by rw [hf.last, hn]; rfl
    have hff : (scanned l.entries (0, Table.fresh)).2.first = 1 := by rw [hf.first, hn]; rfl
    have hft : (scanned l.entries (0, Table.fresh)).2.lastTerm = 0 := by rw [hf.lastTerm, hn]; rfl
    refine ⟨hseg', hs, by omega, ?_, ?_, ?_, ?_, ?_, hm⟩
    · simp only [raftLogOpen, hm]
    · simp only [raftLogOpen, hm]
    · simp only [raftLogOpen, hm, hscan, hfl', hff]
      split <;> omega
    · simp only [raftLogOpen, hm, hscan, hfl']
      split <;> omega
    · simp only [raftLogOpen, hm, hscan, hfl', hft]
      split
      · exact hlast.symm
      · rw [hlast, ha.fresh (by omega)]
  have hgl : l.entries.getLast? = some e := by rw [hc]; simp
  have hlen : l.entries.length = es.length+1 := by rw [hc]; simp
  have hidx : e.index = l.lastIndex := by
    rw [ha.index es.length e (by rw [hc]; simp)]
    omega
  have hhead : ((l.entries.head?).map Entry.index).getD 1 = l.firstIndex := by
    cases hx : l.entries with
    | nil => simp [hx] at hlen
    | cons x xs => simpa using ha.index 0 x (by rw [hx]; rfl)
  have hlast : (scanned l.entries (0, Table.fresh)).2.last = l.lastIndex := by
    rw [hf.last, hgl]
    exact hidx
  have hnot : ¬l.lastIndex < l.snapIndex := by omega
  refine ⟨hseg', hs, ?_, ?_, ?_, ?_, ?_, ?_, hm⟩
  · simp only [raftLogOpen, hscan]
    exact hf.offsets
  · simp only [raftLogOpen, hm]
  · simp only [raftLogOpen, hm]
  · simp only [raftLogOpen, hm, hscan, hlast, hnot, if_false]
    rw [hf.first, hhead]
  · simp only [raftLogOpen, hm, hscan, hlast, hnot, if_false]
  · simp only [raftLogOpen, hm, hscan, hlast, hnot, if_false]
    rw [hf.lastTerm, hgl, ha.last e hgl]
    rfl

section TornAppend

def appendAll : RaftLog → List Draft → Option RaftLog
  | rl, [] => some rl
  | rl, d::ds => (rl.append d).bind (fun p => appendAll p.1 ds)

def tornDisk (rl : RaftLog) (r : Draft) (k : ℕ) : Disk :=
  { rl.disk with seg := rl.disk.seg++(recordBytes (r.entry (rl.lastIndex+1))).take k }

/-- Appends `a`, an interrupted append, a reopen, appends `b`, a reopen. -/
def crashReopen (a b : List Draft) (r : Draft) (k : ℕ) : Option RaftLog := do
  let rl ← appendAll RaftLog.empty a
  let rl ← appendAll (raftLogOpen (tornDisk rl r k)) b
  pure (raftLogOpen rl.disk)

def ReadsBack (rl : RaftLog) (ds : List Draft) : Prop :=
  ∀ i d, ds[i]? = some d → rl.read (i+1) = some (d.entry (i+1))

def entriesFrom : ℕ → List Draft → List Entry
  | _, [] => []
  | n, d::ds => d.entry n::entriesFrom (n+1) ds

variable (ds : List Draft)

theorem entriesFrom_get (n i : ℕ) : (entriesFrom n ds)[i]? = (ds[i]?).map (fun d => d.entry (n+i)) := by
  induction ds generalizing n i with
  | nil => simp [entriesFrom]
  | cons d ds ih =>
    cases i with
    | zero => simp [entriesFrom]
    | succ i =>
      simp only [entriesFrom, getElem?_cons_succ, ih]
      rw [show n+1+i = n+(i+1) by omega]

@[simp] theorem entriesFrom_length (n : ℕ) : (entriesFrom n ds).length = ds.length := by
  induction ds generalizing n with
  | nil => rfl
  | cons d ds ih => simp [entriesFrom, ih]

theorem entriesFrom_append (a b : List Draft) (n : ℕ) :
    entriesFrom n (a++b) = entriesFrom n a++entriesFrom (n+a.length) b := by
  induction a generalizing n with
  | nil => rfl
  | cons d a ih =>
    simp only [cons_append, entriesFrom, ih, length_cons]
    rw [show n+1+a.length = n+(a.length+1) by omega]

theorem appendAll_some (rl rl' : RaftLog) (h : appendAll rl ds = some rl') :
    rl'.disk = { rl.disk with seg := rl.disk.seg++segBytes (entriesFrom (rl.lastIndex+1) ds) } ∧
    (∀ d ∈ ds, d.payload.length ≤ maxEntryPayload) ∧ (ds = [] ∨ rl'.disk.seg.length ≤ longMax) := by
  induction ds generalizing rl with
  | nil =>
    cases h
    simp [entriesFrom, segBytes]
  | cons d ds ih =>
    obtain ⟨⟨rl1, idx⟩, h1, h2⟩ := Option.bind_eq_some_iff.mp h
    obtain ⟨hp, hb, _, hrl1⟩ := segment_append_some rl d rl1 idx h1
    obtain ⟨hd, hps, hbs⟩ := ih rl1 h2
    refine ⟨?_, ?_, .inr ?_⟩
    · rw [hd, hrl1, entriesFrom, segBytes_cons]
      simp only [append_assoc]
    · intro x hx
      rcases mem_cons.mp hx with rfl | hx
      · exact hp
      · exact hps x hx
    · rcases hbs with rfl | hbs
      · rw [hd, hrl1]
        simpa [entriesFrom, segBytes, Draft.entry] using hb
      · exact hbs

theorem entriesFrom_sized (hp : ∀ d ∈ ds, d.payload.length ≤ maxEntryPayload)
    (hl : (segBytes (entriesFrom 1 ds)).length ≤ longMax) : ∀ e ∈ entriesFrom 1 ds, Sized e := by
  intro e he
  obtain ⟨i, hi⟩ := List.mem_iff_getElem?.mp he
  rw [entriesFrom_get] at hi
  obtain ⟨d, hd, rfl⟩ := Option.map_eq_some_iff.mp hi
  have hlt := (List.getElem?_eq_some_iff.mp hd).1
  have hc := seg_count (entriesFrom 1 ds)
  rw [entriesFrom_length] at hc
  simp only [longMax] at hl
  exact draft_sized d (by omega) (hp d (List.mem_of_getElem? hd))

def listed (es : List Entry) : Log :=
  { snapIndex := 0
    snapTerm := 0
    firstIndex := 1
    lastIndex := es.length
    lastTerm := ((es.getLast?).map Entry.term).getD 0
    entries := es }

theorem listed_aligned : (listed (entriesFrom 1 ds)).Aligned where
  first_pos := le_refl 1
  first_le := le_refl 1
  span := by simp [listed, add_comm]
  index := by
    intro i e h
    simp only [listed, entriesFrom_get] at h
    obtain ⟨d, _, rfl⟩ := Option.map_eq_some_iff.mp h
    rfl
  last := by
    intro e h
    simp only [listed] at h ⊢
    simp [h]
  empty := by
    intro h
    simp only [listed] at h
    exact .inr ⟨rfl, by simp [listed, h]⟩
  fresh := fun _ => rfl

theorem listed_readsBack (d : Disk) (hm : d.snapMeta = none)
    (hseg : d.seg = segBytes (entriesFrom 1 ds)) (hs : ∀ e ∈ entriesFrom 1 ds, Sized e) :
    Repr (raftLogOpen d) (listed (entriesFrom 1 ds)) ∧ ReadsBack (raftLogOpen d) ds := by
  have ha := listed_aligned ds
  have hr := open_repr hseg hs (by rw [hm]; rfl) ha (Nat.zero_le _)
  refine ⟨hr, ?_⟩
  intro i x hx
  rw [read_repr _ _ hr ha, add_comm]
  refine read_position _ ha i ?_
  change (entriesFrom 1 ds)[i]? = _
  rw [entriesFrom_get, hx]
  rfl

theorem shifted_magic (k : ℕ) (h1 : 1 ≤ k) (h3 : k ≤ 3) :
    fieldAt ((leBytes 4 logEntryMagic).take k++leBytes 4 logEntryMagic) 0 4 ≠ some logEntryMagic := by
  interval_cases k <;> decide +kernel

theorem record_front (e : Entry) : ∃ rest, recordBytes e = leBytes 4 logEntryMagic++rest :=
  ⟨_, rfl⟩

theorem scan_shifted {pre post : Bytes} (e f : Entry) {k : ℕ} (h1 : 1 ≤ k) (h3 : k ≤ 3) :
    scanRecord (pre++((recordBytes e).take k++(recordBytes f++post))) pre.length = .torn := by
  obtain ⟨re, he⟩ := record_front e
  obtain ⟨rf, hf⟩ := record_front f
  have hk : (recordBytes e).take k = (leBytes 4 logEntryMagic).take k := by
    rw [he, take_append_of_le_length (by simp; omega)]
  have hin := fieldAt_inside pre ((leBytes 4 logEntryMagic).take k++leBytes 4 logEntryMagic)
    (rf++post) 0 4 (by simp)
  rw [add_zero] at hin
  have hshift := shifted_magic k h1 h3
  rw [← hin] at hshift
  rw [hk, hf]
  simp only [append_assoc] at hshift ⊢
  unfold scanRecord
  cases hm : fieldAt (pre++((leBytes 4 logEntryMagic).take k++(leBytes 4 logEntryMagic++
    (rf++post)))) pre.length 4 with
  | none =>
    rw [fieldAt, Option.map_eq_none_iff, sliceAt, if_pos (by simp; omega)] at hm
    simp at hm
  | some m =>
    have hne : m ≠ logEntryMagic := fun h => hshift (by rw [hm, h])
    simp only [if_pos hne]

theorem reopen_tail (d : Disk) {es : List Entry} (hs : ∀ e ∈ es, Sized e) (tail kept : Bytes)
    (h : logRebuildOffsets (segBytes es++tail) =
      (segBytes es++kept, (scanned es (0, Table.fresh)).2)) :
    raftLogOpen { d with seg := segBytes es++tail } =
      { raftLogOpen { d with seg := segBytes es } with
          disk := { d with seg := segBytes es++kept } } := by
  have h0 := rebuild_eof es hs [] (by simp)
  rw [append_nil] at h0
  simp only [raftLogOpen, h, h0]

variable {tail : Bytes} {rl : RaftLog} {a : List Draft}

theorem field_extend {bs : Bytes} {off w n : ℕ} (h : fieldAt bs off w = some n) :
    fieldAt (bs++tail) off w = some n := by
  by_cases hl : off+w ≤ bs.length
  · rw [fieldAt_front bs _ off w hl, h]
  · rw [fieldAt_short bs off w (by omega)] at h
    simp at h

theorem slice_extend {bs : Bytes} {off w : ℕ} {x : Bytes} (h : sliceAt bs off w = some x) :
    sliceAt (bs++tail) off w = some x := by
  by_cases hl : off+w ≤ bs.length
  · have hin := sliceAt_inside [] bs tail off w hl
    simp only [nil_append, length_nil, zero_add] at hin
    rw [hin, h]
  · rw [sliceAt_short bs off w (by omega)] at h
    simp at h

theorem read_extend (tail : Bytes) {index : ℕ} {e : Entry} (h : rl.read index = some e) :
    ({ rl with disk := { rl.disk with seg := rl.disk.seg++tail } } : RaftLog).read index = some e := by
  unfold RaftLog.read at h ⊢
  split_ifs at h with h0 h1
  rw [if_neg h0, if_neg h1]
  simp only [Option.bind_eq_bind, Option.bind_eq_some_iff, guard] at h ⊢
  obtain ⟨m, hm, u, hu, idx, hidx, term, hterm, type, htype, plen, hplen, v, hv, x, hx, he⟩ := h
  exact ⟨m, field_extend hm, u, hu, idx, field_extend hidx,
    term, field_extend hterm, type, field_extend htype,
    plen, field_extend hplen, v, hv, x, slice_extend hx, he⟩

theorem leftover_readsBack (hs : ∀ e ∈ entriesFrom 1 a, Sized e)
    (ht : tail.length < 4) : ReadsBack (raftLogOpen ⟨segBytes (entriesFrom 1 a)++tail, none, none⟩) a := by
  intro i d hi
  obtain ⟨hr, hback⟩ := listed_readsBack a ⟨segBytes (entriesFrom 1 a), none, none⟩ rfl rfl hs
  have hext := read_extend tail (hback i d hi)
  have hdisk : (raftLogOpen ⟨segBytes (entriesFrom 1 a), none, none⟩).disk =
      ⟨segBytes (entriesFrom 1 a), none, none⟩ := by
    have hseg : (raftLogOpen ⟨segBytes (entriesFrom 1 a), none, none⟩).disk.seg =
      segBytes (entriesFrom 1 a) := hr.seg
    simp only [raftLogOpen] at hseg ⊢
    rw [hseg]
  rw [hdisk] at hext
  have hopen := reopen_tail ⟨[], none, none⟩ hs tail tail (rebuild_eof _ hs tail ht)
  exact Eq.trans (congrArg (fun rl => rl.read (i+1)) hopen) hext

theorem shifted_loses (hs : ∀ e ∈ entriesFrom 1 a, Sized e) {e f : Entry}
    {fs : List Entry} (k : ℕ) (h1 : 1 ≤ k) (h3 : k ≤ 3) :
    (raftLogOpen ⟨segBytes (entriesFrom 1 a)++((recordBytes e).take k++segBytes (f::fs)),
      none, none⟩).read (a.length+1) = none := by
  obtain ⟨hr, _⟩ := listed_readsBack a ⟨segBytes (entriesFrom 1 a), none, none⟩ rfl rfl hs
  have hlast : (raftLogOpen ⟨segBytes (entriesFrom 1 a), none, none⟩).lastIndex = a.length := by
    rw [hr.lastIndex]
    simp [listed]
  have hopen := reopen_tail ⟨[], none, none⟩ hs
    ((recordBytes e).take k++segBytes (f::fs)) [] (by
      rw [append_nil (segBytes _)]
      exact rebuild_torn (entriesFrom 1 a) hs (scan_shifted e f h1 h3))
  rw [show raftLogOpen ⟨segBytes (entriesFrom 1 a)++((recordBytes e).take k++segBytes (f::fs)),
    none, none⟩ = _ from hopen, RaftLog.read, if_neg (by omega), if_pos]
  right
  change (raftLogOpen ⟨segBytes (entriesFrom 1 a), none, none⟩).lastIndex < _
  omega

theorem reopen_torn_append {r : Draft} {k : ℕ}
    (ha : appendAll RaftLog.empty a = some rl) (hr : r.payload.length ≤ maxEntryPayload)
    (hk : k < 32+r.payload.length) :
    (∀ d ∈ a, d.payload.length ≤ maxEntryPayload) ∧
    (segBytes (entriesFrom 1 a)).length ≤ longMax ∧
    raftLogOpen (tornDisk rl r k) =
      { raftLogOpen ⟨segBytes (entriesFrom 1 a), none, none⟩ with
          disk := ⟨segBytes (entriesFrom 1 a)++
            (if 4 ≤ k then [] else (recordBytes (r.entry (rl.lastIndex+1))).take k), none, none⟩ } := by
  obtain ⟨hd, hp, hb⟩ := appendAll_some a _ rl ha
  have hdisk : rl.disk = ⟨segBytes (entriesFrom 1 a), none, none⟩ := hd
  have hlen : (segBytes (entriesFrom 1 a)).length ≤ longMax := by
    rcases hb with rfl | hb
    · simp [entriesFrom, segBytes]
    · rwa [hdisk] at hb
  have hs := entriesFrom_sized a hp hlen
  refine ⟨hp, hlen, ?_⟩
  unfold tornDisk
  rw [hdisk]
  refine reopen_tail _ hs _ _ ?_
  split
  · rename_i h4
    rw [append_nil]
    exact rebuild_torn _ hs (scan_cut hr h4 hk)
  · exact rebuild_eof _ hs _ (by simp; omega)

/-- After an append cut `k` bytes into its record, later entries survive a reopen exactly when the
leftover was empty or held the whole magic. -/
theorem torn_append_readsBack_iff (a b : List Draft) (r : Draft) (k : ℕ) (rl : RaftLog)
    (hr : r.payload.length ≤ maxEntryPayload) (hk : k < 32+r.payload.length)
    (h : crashReopen a b r k = some rl) :
    ReadsBack rl (a++b) ↔ k = 0 ∨ 4 ≤ k ∨ b = [] := by
  simp only [crashReopen, Option.bind_eq_bind, Option.bind_eq_some_iff, Option.pure_def,
    Option.some.injEq] at h
  obtain ⟨rl1, ha, rl2, hb, rfl⟩ := h
  obtain ⟨hpa, hla, hopen⟩ := reopen_torn_append ha hr hk
  have hsa := entriesFrom_sized a hpa hla
  obtain ⟨hra, _⟩ := listed_readsBack a ⟨segBytes (entriesFrom 1 a), none, none⟩ rfl rfl hsa
  have hlast : (raftLogOpen (tornDisk rl1 r k)).lastIndex+1 = 1+a.length := by
    rw [hopen]
    rw [hra.lastIndex]
    simp [listed, add_comm]
  obtain ⟨hd2, hpb, hlb⟩ := appendAll_some b _ rl2 hb
  rw [hlast, hopen] at hd2
  by_cases hfull : k = 0 ∨ 4 ≤ k
  · -- the reopened file ends at the last record, so both phases are one segment
    have hkept : (if 4 ≤ k then [] else (recordBytes (r.entry (rl1.lastIndex+1))).take k) = [] := by
      rcases hfull with h0 | h4
      · simp [h0]
      · simp [h4]
    rw [hkept, append_nil] at hd2
    have hseg : rl2.disk = ⟨segBytes (entriesFrom 1 (a++b)), none, none⟩ := by
      rw [hd2, entriesFrom_append, segBytes_append]
    have hs : ∀ e ∈ entriesFrom 1 (a++b), Sized e := by
      refine entriesFrom_sized _ ?_ ?_
      · intro d hd
        rcases mem_append.mp hd with hd | hd
        · exact hpa d hd
        · exact hpb d hd
      · rcases hlb with rfl | hlb
        · rwa [append_nil]
        · rwa [hseg] at hlb
    refine ⟨fun _ => hfull.elim .inl (fun h4 => .inr (.inl h4)), fun _ => ?_⟩
    rw [hseg]
    exact (listed_readsBack _ _ rfl rfl hs).2
  · have hkept : (if 4 ≤ k then [] else (recordBytes (r.entry (rl1.lastIndex+1))).take k) =
      (recordBytes (r.entry (rl1.lastIndex+1))).take k := if_neg (by omega)
    rw [hkept] at hd2
    cases b with
    | nil =>
      refine ⟨fun _ => .inr (.inr rfl), fun _ => ?_⟩
      simp only [entriesFrom, segBytes, flatMap_nil, append_nil] at hd2 ⊢
      rw [hd2]
      exact leftover_readsBack hsa (by simp; omega)
    | cons d ds =>
      refine ⟨fun hback => ?_, fun hc => absurd hc (by simp; omega)⟩
      exfalso
      have hread := hback a.length d (by simp)
      rw [hd2, entriesFrom, append_assoc, shifted_loses hsa k (by omega) (by omega)] at hread
      simp at hread

theorem torn_append_after_magic : ∃ rl, crashReopen [⟨1, 1, [7]⟩] [⟨1, 1, [8]⟩] ⟨1, 1, [9]⟩ 4 = some rl ∧
      ReadsBack rl [⟨1, 1, [7]⟩, ⟨1, 1, [8]⟩] := by
  obtain ⟨rl, h⟩ := Option.isSome_iff_exists.mp
    (show (crashReopen [⟨1, 1, [7]⟩] [⟨1, 1, [8]⟩] ⟨1, 1, [9]⟩ 4).isSome = true by decide +kernel)
  exact ⟨rl, h, (torn_append_readsBack_iff _ _ _ 4 rl (by decide)
    (by decide) h).mpr (by decide)⟩

theorem torn_magic_loses_entry : ∃ rl, crashReopen [⟨1, 1, [7]⟩] [⟨1, 1, [8]⟩] ⟨1, 1, [9]⟩ 2 = some rl ∧
      ¬ReadsBack rl [⟨1, 1, [7]⟩, ⟨1, 1, [8]⟩] := by
  obtain ⟨rl, h⟩ := Option.isSome_iff_exists.mp
    (show (crashReopen [⟨1, 1, [7]⟩] [⟨1, 1, [8]⟩] ⟨1, 1, [9]⟩ 2).isSome = true by decide +kernel)
  have hn : (crashReopen [⟨1, 1, [7]⟩] [⟨1, 1, [8]⟩] ⟨1, 1, [9]⟩ 2).bind (fun rl => rl.read 2) = none := by
    decide +kernel
  rw [h] at hn
  refine ⟨rl, h, fun hback => ?_⟩
  have hread := hback 1 ⟨1, 1, [8]⟩ rfl
  rw [show rl.read 2 = none from hn] at hread
  simp at hread

end TornAppend

section CompactionCrash

/-- Logs that the operations and clean reopens lead to. A log whose
truncation took it below its snapshot is not reopened. -/
inductive Reached : RaftLog → Prop
  | start : Reached RaftLog.empty
  | append (rl rl' : RaftLog) (d : Draft) (idx : ℕ) : Reached rl → rl.lastIndex+1 < 2^64 →
    rl.append d = some (rl', idx) → Reached rl'
  | truncate (rl : RaftLog) (index : UInt64) : Reached rl → Reached (rl.truncate index.toNat)
  | compact (rl rl' : RaftLog) (si st : UInt64) : Reached rl → rl.compact si st = some rl' →
    Reached rl'
  | reopen (rl : RaftLog) : Reached rl → rl.snapIndex ≤ rl.lastIndex →
    Reached (raftLogOpen rl.disk)

/-- What a process leaves that died while writing the temporary segment, or after renaming it. -/
inductive CrashDisk (rl : RaftLog) (si : UInt64) : Disk → Prop
  | writing (kept : List Entry) (n : ℕ) : rl.snapIndex < si.toNat →
    rl.survivors si.toNat = some kept →
    CrashDisk rl si { rl.disk with segTmp := some ((segBytes kept).take n) }
  | renamed (kept : List Entry) : rl.snapIndex < si.toNat →
    rl.survivors si.toNat = some kept → CrashDisk rl si (rl.disk.renamed kept)

structure SameLog (a b : RaftLog) : Prop where
  snapIndex : a.snapIndex = b.snapIndex
  snapTerm : a.snapTerm = b.snapTerm
  firstIndex : a.firstIndex = b.firstIndex
  lastIndex : a.lastIndex = b.lastIndex
  lastTerm : a.lastTerm = b.lastTerm
  read : ∀ index, a.read index = b.read index
  termAt : ∀ index, a.termAt index = b.termAt index

theorem repr_same {a b : RaftLog} {l : Log} (ha : Repr a l) (hb : Repr b l) (hl : l.Aligned) :
    SameLog a b where
  snapIndex := by rw [ha.snapIndex, hb.snapIndex]
  snapTerm := by rw [ha.snapTerm, hb.snapTerm]
  firstIndex := by rw [ha.firstIndex, hb.firstIndex]
  lastIndex := by rw [ha.lastIndex, hb.lastIndex]
  lastTerm := by rw [ha.lastTerm, hb.lastTerm]
  read := fun i => by rw [read_repr a l ha hl, read_repr b l hb hl]
  termAt := fun i => by rw [termAt_repr a l ha hl, termAt_repr b l hb hl]

theorem reached_repr (rl : RaftLog) (h : Reached rl) : ∃ l, Repr rl l ∧ l.Aligned := by
  induction h with
  | start => exact ⟨Log.empty, RaftLogInvariant.start_tracks.repr, aligned_empty⟩
  | append rl rl' d idx _ hi ha ih =>
    obtain ⟨l, hr, hl⟩ := ih
    rw [hr.lastIndex] at hi
    obtain ⟨l', hl', hr'⟩ := append_repr rl l hr hl hi ha
    exact ⟨l', hr', append_aligned l _ _ _ l' idx hl hl'⟩
  | truncate rl index _ ih =>
    obtain ⟨l, hr, hl⟩ := ih
    exact ⟨_, truncate_repr rl l hr hl, truncate_aligned l _ hl⟩
  | compact rl rl' si st _ hc ih =>
    obtain ⟨l, hr, hl⟩ := ih
    obtain ⟨rl1, hc1, hr1⟩ := compact_repr rl l hr hl si st
    rw [hc] at hc1
    rw [Option.some.inj hc1]
    exact ⟨_, hr1, compact_aligned l _ _ hl⟩
  | reopen rl _ hle ih =>
    obtain ⟨l, hr, hl⟩ := ih
    rw [hr.snapIndex, hr.lastIndex] at hle
    exact ⟨l, open_repr hr.seg hr.sized hr.marker hl hle, hl⟩

theorem open_empty (d : Disk) (h : d.seg = []) : (raftLogOpen d).firstIndex = (snapMetaLoad d.snapMeta).1+1 ∧
    (raftLogOpen d).lastIndex = (snapMetaLoad d.snapMeta).1 := by
  have hscan : logRebuildOffsets d.seg = ([], Table.fresh) := by
    rw [h]
    exact rebuild_eof [] (by simp) [] (by simp)
  simp only [raftLogOpen, hscan, Table.fresh]
  split <;> omega

theorem open_first (d : Disk) (e : Entry) (es : List Entry) (h : d.seg = segBytes (e::es))
    (hs : ∀ x ∈ e::es, Sized x) (hi : ∀ i x, (e::es)[i]? = some x → x.index = e.index+i)
    (hp : (snapMetaLoad d.snapMeta).1 < e.index) : (raftLogOpen d).firstIndex = e.index := by
  have hscan := rebuild_eof _ hs [] (by simp)
  rw [append_nil, ← h] at hscan
  have hf := scanned_filed _ (by omega) hi
  have hlast : e.index ≤ (scanned (e::es) (0, Table.fresh)).2.last := by
    rw [hf.last, getLast?_eq_getElem?, getElem?_eq_getElem (by simp)]
    have hx := hi es.length (e::es)[es.length] (getElem?_eq_getElem (by simp))
    simp only [length_cons, Nat.add_sub_cancel, Option.map_some, Option.getD_some]
    omega
  simp only [raftLogOpen, hscan, hf.first]
  rw [if_neg (by omega)]
  rfl

/-- A reopen after the rename does not find the first record that the
compaction dropped. -/
theorem renamed_misses_first {rl : RaftLog} {l : Log} (hr : Repr rl l) (hl : l.Aligned) (si : ℕ)
    (hsi : l.snapIndex < si) :
    (raftLogOpen (rl.disk.renamed (l.entries.drop (si+1-l.firstIndex)))).read l.firstIndex =
      none := by
  have hf := hl.first_le
  have hm : snapMetaLoad (rl.disk.renamed (l.entries.drop (si+1-l.firstIndex))).snapMeta =
    (l.snapIndex, l.snapTerm) := hr.marker
  cases hk : l.entries.drop (si+1-l.firstIndex) with
  | nil =>
    obtain ⟨h1, h2⟩ := open_empty (rl.disk.renamed []) rfl
    rw [hk] at hm
    rw [hm] at h1 h2
    rw [RaftLog.read, h1, h2]
    split
    · rfl
    · rw [if_pos (by omega)]
  | cons e es =>
    have hi : ∀ i x, (e::es)[i]? = some x → x.index = l.firstIndex+(si+1-l.firstIndex+i) := by
      intro i x hx
      rw [← hk, getElem?_drop] at hx
      exact hl.index _ x hx
    have he := hi 0 e rfl
    have h1 := open_first _ e es rfl
      (fun x hx => hr.sized x (mem_of_mem_drop (hk ▸ hx)))
      (fun i x hx => by rw [hi i x hx, he]; omega)
      (by rw [hk] at hm; rw [hm, he]; simp only; omega)
    rw [RaftLog.read, h1]
    split
    · rfl
    · rw [if_pos (.inl (by omega))]

/-- An interrupted compaction reopens to the state before or after it exactly when it had nothing
to do or the log was empty above its snapshot. The log is one that was never reopened while its
last index was below its snapshot. -/
theorem compaction_crash_atomic_iff (rl : RaftLog) (h : Reached rl) (si st : UInt64) :
    (∀ d, CrashDisk rl si d → SameLog (raftLogOpen d) rl ∨
      ∃ rl', rl.compact si st = some rl' ∧ SameLog (raftLogOpen d) rl') ↔
    si.toNat ≤ rl.snapIndex ∨ (rl.lastIndex < rl.firstIndex ∧ rl.lastIndex = rl.snapIndex) := by
  obtain ⟨l, hr, hl⟩ := reached_repr rl h
  have hspan := hl.span
  obtain ⟨rl1, hc1, hr1⟩ := compact_repr rl l hr hl si st
  rw [hr.snapIndex, hr.lastIndex, hr.firstIndex]
  by_cases hsi : si.toNat ≤ l.snapIndex
  · refine ⟨fun _ => .inl hsi, fun _ d hd => ?_⟩
    rw [← hr.snapIndex] at hsi
    cases hd with
    | writing kept n hlt _ => omega
    | renamed kept hlt _ => omega
  have hsur := survivors_repr rl l hr hl si.toNat (by omega)
  have hlt : rl.snapIndex < si.toNat := by
    rw [hr.snapIndex]
    omega
  constructor
  · intro hall
    right
    -- the state after the compaction carries the new marker, which no reopen has yet
    have hbefore : ∀ d, CrashDisk rl si d → d.snapMeta = rl.disk.snapMeta →
        SameLog (raftLogOpen d) rl := by
      intro d hcd hd
      rcases hall d hcd with hs | ⟨rl', hc, hs⟩
      · exact hs
      exfalso
      rw [hc1] at hc
      have hx := hs.snapIndex
      rw [← Option.some.inj hc, hr1.snapIndex, (compact_marks l _ _ (by omega)).1] at hx
      simp only [raftLogOpen, hd, hr.marker] at hx
      omega
    by_cases hn : l.lastIndex < l.firstIndex
    · refine ⟨hn, ?_⟩
      have h0 : l.entries = [] := length_eq_zero_iff.mp (by omega)
      rw [h0, drop_nil] at hsur
      have hx := (hbefore _ (CrashDisk.renamed _ hlt hsur) rfl).lastIndex
      rw [(open_empty _ rfl).2, hr.lastIndex] at hx
      rw [← hx]
      exact congrArg Prod.fst hr.marker
    exfalso
    have hs := (hbefore _ (CrashDisk.renamed _ hlt hsur) rfl).read l.firstIndex
    rw [renamed_misses_first hr hl _ (by omega), read_repr rl l hr hl] at hs
    have he := getElem?_eq_getElem (show 0 < l.entries.length by omega)
    have hread := read_position l hl 0 he
    rw [add_zero, ← hs] at hread
    simp at hread
  · rintro (hle | ⟨hn, heq⟩) d hd
    · exact absurd hle hsi
    left
    have h0 : l.entries = [] := length_eq_zero_iff.mp (by omega)
    cases hd with
    | writing kept n _ _ =>
      exact repr_same (open_repr hr.seg hr.sized hr.marker hl (by omega)) hr hl
    | renamed kept _ hk =>
      rw [hsur, h0, drop_nil] at hk
      have hseg : (rl.disk.renamed kept).seg = segBytes l.entries := by
        rw [h0, ← Option.some.inj hk]
        rfl
      exact repr_same (open_repr hseg hr.sized hr.marker hl (by omega)) hr hl

theorem first_append : ∃ p, RaftLog.empty.append ⟨1, 1, [7]⟩ = some p ∧ Reached p.1 := by
  obtain ⟨p, h1⟩ := Option.isSome_iff_exists.mp
    (show (RaftLog.empty.append ⟨1, 1, [7]⟩).isSome = true by decide +kernel)
  exact ⟨p, h1, Reached.append RaftLog.empty p.1 ⟨1, 1, [7]⟩ p.2 .start (by decide +kernel) h1⟩

theorem compaction_crash_atomic_snapshot_only :
    ∃ rl, Reached rl ∧ rl.snapIndex = 1 ∧ ∀ d, CrashDisk rl 2 d → SameLog (raftLogOpen d) rl ∨
      ∃ rl', rl.compact 2 1 = some rl' ∧ SameLog (raftLogOpen d) rl' := by
  obtain ⟨p, h1, hp⟩ := first_append
  have hv : ((RaftLog.empty.append ⟨1, 1, [7]⟩).bind (fun p => p.1.compact 1 1)).any
    (fun rl => rl.snapIndex = 1 ∧ rl.lastIndex < rl.firstIndex ∧ rl.lastIndex = rl.snapIndex) =
      true := by decide +kernel
  rw [h1, Option.bind_some] at hv
  cases hc : p.1.compact 1 1 with
  | none => simp [hc] at hv
  | some rl =>
    rw [hc] at hv
    obtain ⟨hs, hl⟩ := of_decide_eq_true hv
    have hr := Reached.compact p.1 rl 1 1 hp hc
    exact ⟨rl, hr, hs, (compaction_crash_atomic_iff rl hr 2 1).mpr (.inr hl)⟩

theorem compaction_crash_loses_log : ∃ rl d, Reached rl ∧ CrashDisk rl 1 d ∧ (raftLogOpen d).lastIndex = 0 ∧
      ¬(SameLog (raftLogOpen d) rl ∨ ∃ rl', rl.compact 1 1 = some rl' ∧ SameLog (raftLogOpen d) rl') := by
  obtain ⟨p, h1, hp⟩ := first_append
  have hv : (RaftLog.empty.append ⟨1, 1, [7]⟩).any (fun p => p.1.snapIndex = 0 ∧
    p.1.survivors 1 = some [] ∧ p.1.lastIndex = 1 ∧
    (raftLogOpen (p.1.disk.renamed [])).lastIndex = 0 ∧
    (p.1.compact 1 1).any (fun rl => rl.lastIndex = 1)) = true := by decide +kernel
  rw [h1] at hv
  obtain ⟨hs, hk, hl, ho, hc⟩ := of_decide_eq_true hv
  refine ⟨p.1, p.1.disk.renamed [], hp, CrashDisk.renamed [] (by rw [hs]; decide) hk, ho, ?_⟩
  rintro (hsame | ⟨rl', hc', hsame⟩)
  · have hx := hsame.lastIndex
    omega
  rw [hc'] at hc
  have hx := hsame.lastIndex
  rw [ho, of_decide_eq_true hc] at hx
  exact absurd hx (by decide)

/-- A clean restart gives the same log back unless a truncation took it below its snapshot,
provided that no earlier restart found it there. -/
theorem reopened_log_same_iff (rl : RaftLog) (h : Reached rl) :
    SameLog (raftLogOpen rl.disk) rl ↔ rl.snapIndex ≤ rl.lastIndex := by
  obtain ⟨l, hr, hl⟩ := reached_repr rl h
  constructor
  · intro hs
    have hopen : (raftLogOpen rl.disk).snapIndex ≤ (raftLogOpen rl.disk).lastIndex := by
      simp only [raftLogOpen]
      split <;> omega
    rwa [hs.snapIndex, hs.lastIndex] at hopen
  · intro hle
    rw [hr.snapIndex, hr.lastIndex] at hle
    exact repr_same (open_repr hr.seg hr.sized hr.marker hl hle) hr hl

theorem reopened_log_same_one : ∃ rl : RaftLog, Reached rl ∧ rl.lastIndex = 1 ∧
    SameLog (raftLogOpen rl.disk) rl := by
  obtain ⟨p, hp, h⟩ := first_append
  refine ⟨p.1, h, ?_, (reopened_log_same_iff p.1 h).mpr ?_⟩
  · cases hp
    rfl
  · cases hp
    decide +kernel

end CompactionCrash

end QEngine.RaftLogRecovery

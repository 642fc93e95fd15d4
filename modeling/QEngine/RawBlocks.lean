import QEngine.PartitionFlush
import QEngine.PublishGate
import QEngine.BlockOrdinals
import QEngine.SymbolTables

/-!
# Blocks that another node has flushed

A node in raw mode sends every block it flushes to the others, as it was encoded, with
what its index entry says. The receiver gives the block an ordinal of its own and puts
it behind the data of its column; timestamps wait for the other columns.
-/

namespace QEngine.RawBlocks
open Option List ByteFields SymbolDictionary DecimalFloats AdaptiveCodec IndexFiles IndexPublish
open IndexManifests (sameBlock placement applyRawblock Whole apply_placed)
open ColumnAlignment PartitionOpen PublishGate BlockFiles
open BlockOrdinals (OrdKey OrdMap Written ordmapNext ordTranslate)
open SymbolTables

/-! ### The record on the wire -/

structure Push where
  table : Bytes
  day : UInt32
  colIdx : UInt16
  codec : Codec
  flags : UInt16
  count : UInt32
  tsMin : Int64
  tsMax : Int64
  stats : Stats
  ord : Option UInt32
  data : Bytes
  issuer : UInt64
  tableLen : table.length ≤ 63
  dataLen : data.length < 2^32
  deriving DecidableEq

def wireFields (p : Push) : List (ℕ × ℕ) :=
  [(4, p.day.toNat), (2, p.colIdx.toNat), (1, p.codec.id), (2, p.flags.toNat), (4, p.count.toNat),
    (8, p.tsMin.toUInt64.toNat), (8, p.tsMax.toUInt64.toNat), (8, p.stats.min.toUInt64.toNat),
    (8, p.stats.max.toUInt64.toNat), (8, p.stats.sum.toUInt64.toNat), (8, p.stats.first.toUInt64.toNat),
    (8, p.stats.last.toUInt64.toNat), (2, p.stats.flags.toNat)]++(ordFields p.ord++[(4, p.data.length)])

def serialize (p : Push) : Bytes :=
  UInt8.ofNat p.table.length ::
    (p.table++(fieldsBytes (wireFields p)++(p.data++leBytes 8 p.issuer.toNat)))

theorem getLe_lt (bs : Bytes) (off w : ℕ) : getLe bs off w < 256^w := by
  rw [getLe, fieldAt, sliceAt]
  split_ifs with h
  · rw [map_some, getD_some]
    refine lt_of_lt_of_le (leValue_lt _) (Nat.pow_le_pow_right (by decide) ?_)
    exact length_take_le _ _
  · exact Nat.pow_pos (by decide)

def parse (bs : Bytes) : Option Push :=
  match bs with
  | [] => none
  | tlen :: rest =>
    if h : 63 < tlen.toNat then none
    else if rest.length < tlen.toNat+81 then none
    else
      let f := rest.drop tlen.toNat
      if f.length < 81+getLe f 77 4 then none
      else some {
        table := rest.take tlen.toNat
        day := UInt32.ofNat (getLe f 0 4)
        colIdx := UInt16.ofNat (getLe f 4 2)
        codec := codecOf (getLe f 6 1)
        flags := UInt16.ofNat (getLe f 7 2)
        count := UInt32.ofNat (getLe f 9 4)
        tsMin := getI64le f 13
        tsMax := getI64le f 21
        stats := ⟨getI64le f 29, getI64le f 37, getI64le f 45, getI64le f 53, getI64le f 61,
          UInt16.ofNat (getLe f 69 2)⟩
        ord := if getLe f 75 2 = ordMark then some (UInt32.ofNat (getLe f 71 4)) else none
        data := (f.drop 81).take (getLe f 77 4)
        issuer := if 81+getLe f 77 4+8 ≤ f.length then UInt64.ofNat (getLe f (81+getLe f 77 4) 8) else 0
        tableLen := (length_take_le _ _).trans (not_lt.mp h)
        dataLen := (length_take_le _ _).trans_lt (getLe_lt f 77 4) }

variable (p : Push)

theorem wire_width : fieldsWidth (wireFields p) = 81 := by
  unfold wireFields
  cases p.ord <;> simp [ordFields, fieldsWidth]

theorem wire_field (post : Bytes) (i w n off : ℕ) (hi : (wireFields p)[i]? = some (w, n))
    (hn : n < 256^w) (ho : fieldsWidth ((wireFields p).take i) = off) :
    getLe (fieldsBytes (wireFields p)++post) off w = n := by
  have h := fieldAt_fields (wireFields p) post i w n hi hn
  rw [ho] at h
  rw [getLe, h]
  rfl

theorem wire_i64 (post : Bytes) (i off : ℕ) (x : Int64) (hi : (wireFields p)[i]? = some (8, x.toUInt64.toNat))
    (ho : fieldsWidth ((wireFields p).take i) = off) :
    getI64le (fieldsBytes (wireFields p)++post) off = x := by
  rw [getI64le, wire_field p _ i 8 _ off hi (u64_lt _) ho, i64_back]

theorem wire_ord (post : Bytes) :
    (if getLe (fieldsBytes (wireFields p)++post) 75 2 = ordMark then
      some (UInt32.ofNat (getLe (fieldsBytes (wireFields p)++post) 71 4)) else none) = p.ord ∧
    getLe (fieldsBytes (wireFields p)++post) 77 4 = p.data.length := by
  cases ho : p.ord with
  | none =>
    have hm := wire_field p post 14 2 0 75 (by simp [wireFields, ho, ordFields]) (by decide)
      (by simp [wireFields, ho, ordFields, fieldsWidth])
    have hl := wire_field p post 15 4 p.data.length 77 (by simp [wireFields, ho, ordFields]) p.dataLen
      (by simp [wireFields, ho, ordFields, fieldsWidth])
    exact ⟨by simp [hm, ordMark], hl⟩
  | some v =>
    have hv := wire_field p post 13 4 v.toNat 71 (by simp [wireFields, ho, ordFields]) (u32_lt v)
      (by simp [wireFields, fieldsWidth])
    have hm := wire_field p post 14 2 ordMark 75 (by simp [wireFields, ho, ordFields]) (by decide)
      (by simp [wireFields, ho, ordFields, fieldsWidth])
    have hl := wire_field p post 15 4 p.data.length 77 (by simp [wireFields, ho, ordFields]) p.dataLen
      (by simp [wireFields, ho, ordFields, fieldsWidth])
    exact ⟨by simp [hm, hv], hl⟩

theorem parse_serialize : parse (serialize p) = some p := by
  have htl : (UInt8.ofNat p.table.length).toNat = p.table.length := by
    have := p.tableLen
    rw [UInt8.toNat_ofNat']
    omega
  have hwidth : (fieldsBytes (wireFields p)).length = 81 := by rw [fieldsBytes_length, wire_width]
  have hpost :
    (p.data++leBytes 8 p.issuer.toNat).length = p.data.length+8 := by rw [length_append, leBytes_length]
  have hiss : getLe (fieldsBytes (wireFields p)++(p.data++leBytes 8 p.issuer.toNat)) (81+p.data.length) 8 =
      p.issuer.toNat := by
    have h := fieldAt_written (fieldsBytes (wireFields p)++p.data) [] 8 p.issuer.toNat (u64_lt p.issuer)
    rw [append_nil, append_assoc, length_append, hwidth] at h
    rw [getLe, h]
    rfl
  have hdata : (p.data++leBytes 8 p.issuer.toNat).take p.data.length = p.data := take_left
  unfold parse serialize
  dsimp only
  rw [dif_neg (by rw [htl]; exact not_lt.mpr p.tableLen)]
  simp only [htl, drop_left, take_left]
  generalize p.data++leBytes 8 p.issuer.toNat = post at hpost hiss hdata ⊢
  obtain ⟨hord, hlen⟩ := wire_ord p post
  have hdrop : (fieldsBytes (wireFields p)++post).drop 81 = post := drop_left' hwidth
  simp only [hlen, hord, hdrop, hiss, hdata]
  rw [if_neg (by simp only [length_append, hwidth, hpost]; omega),
    if_neg (by simp only [length_append, hwidth, hpost]; omega),
    if_pos (by simp only [length_append, hwidth, hpost]; omega)]
  have h0 := wire_field p post 0 4 _ 0 rfl (u32_lt p.day) rfl
  have h1 := wire_field p post 1 2 _ 4 rfl (u16_lt p.colIdx) (by simp [wireFields, fieldsWidth])
  have h2 := wire_field p post 2 1 _ 6 rfl (id_lt p.codec) (by simp [wireFields, fieldsWidth])
  have h3 := wire_field p post 3 2 _ 7 rfl (u16_lt p.flags) (by simp [wireFields, fieldsWidth])
  have h4 := wire_field p post 4 4 _ 9 rfl (u32_lt p.count) (by simp [wireFields, fieldsWidth])
  have h5 := wire_i64 p post 5 13 p.tsMin rfl (by simp [wireFields, fieldsWidth])
  have h6 := wire_i64 p post 6 21 p.tsMax rfl (by simp [wireFields, fieldsWidth])
  have h7 := wire_i64 p post 7 29 p.stats.min rfl (by simp [wireFields, fieldsWidth])
  have h8 := wire_i64 p post 8 37 p.stats.max rfl (by simp [wireFields, fieldsWidth])
  have h9 := wire_i64 p post 9 45 p.stats.sum rfl (by simp [wireFields, fieldsWidth])
  have h10 := wire_i64 p post 10 53 p.stats.first rfl (by simp [wireFields, fieldsWidth])
  have h11 := wire_i64 p post 11 61 p.stats.last rfl (by simp [wireFields, fieldsWidth])
  have h12 := wire_field p post 12 2 _ 69 rfl (u16_lt p.stats.flags) (by simp [wireFields, fieldsWidth])
  simp only [h0, h1, h2, h3, h4, h5, h6, h7, h8, h9, h10, h11, h12, codecOf_id,
    UInt32.ofNat_toNat, UInt16.ofNat_toNat, UInt64.ofNat_toNat]

/-! ### What the sender pushes -/

def Push.header (p : Push) : BlockHeader :=
  ⟨p.codec, p.flags, p.count, p.tsMin, p.tsMax, UInt32.ofNat p.data.length⟩

def Push.bytes (step : UInt32 → Bytes → UInt32) (p : Push) : Bytes :=
  writeBlockHeader p.header++(p.data++
    (if p.flags &&& flagCrc ≠ 0 then leBytes 4 (blockCrc step (writeBlockHeader p.header) p.data).toNat
      else []))

theorem Push.bytes_length_le (step : UInt32 → Bytes → UInt32) : (p.bytes step).length ≤ 32+2^32+4 := by
  have := p.dataLen
  simp only [Push.bytes, length_append, writeBlockHeader_length]
  split_ifs
  · rw [leBytes_length]
    omega
  · rw [length_nil]
    omega

theorem name_short (table : Bytes) : (table.take 63).length ≤ 63 := length_take_le 63 table

theorem encoded_short (b : Block) (h : ¬b.n < 0) : b.out.length < 2^32 := by
  obtain ⟨hl, hn⟩ := out_length b (not_lt.mp h)
  omega

def rawPush (mc : Machine) (r : BlockRun) (table : Bytes) (day : UInt32) (ci : UInt16) (issuer : UInt64)
    (ord : UInt32) (col : Column) (tsMin tsMax : Int64) : Option Push :=
  match encodeAdaptiveEx mc.ar r.allocs r.decimal col maxCompressedBlock outerLzMinGain with
  | .error _ => none
  | .ok b =>
    if h : b.n < 0 then none
    else some {
      table := table.take 63
      day := day
      colIdx := ci
      codec := b.codec
      flags := blockFlags b.lz col.type
      count := UInt32.ofNat col.count
      tsMin := tsMin
      tsMax := tsMax
      stats := mc.stats col
      ord := some ord
      data := b.out
      issuer := issuer
      tableLen := name_short table
      dataLen := encoded_short b h }

structure Carries (mc : Machine) (p : Push) (col : Column) : Prop where
  rows : p.count.toNat = col.count
  decodes : ∃ lz, p.flags = blockFlags lz col.type ∧
    decodeAdaptive mc.ar p.codec col.type lz p.data col.count = .ok col.values

theorem rawPush_carries {mc : Machine} {r : BlockRun} {table : Bytes} {day : UInt32} {ci : UInt16}
    {issuer : UInt64} {ord : UInt32} {col : Column} {tsMin tsMax : Int64} {p : Push}
    (hc : col.count ≤ blockPoints)
    (h : rawPush mc r table day ci issuer ord col tsMin tsMax = some p) : Carries mc p col := by
  unfold rawPush at h
  split at h
  · cases h
  rename_i b hb
  split at h
  · cases h
  rename_i hneg
  cases h
  obtain ⟨hroom, hsound⟩ := adaptive_encodes _ _ hb
  refine ⟨?_, b.lz, rfl, hsound (hroom.trans (domainRoom_le hc)) (not_lt.mp hneg)⟩
  rw [blockPoints] at hc
  rw [UInt32.toNat_ofNat', Nat.mod_eq_of_lt (by omega)]

/-! ### What the receiver does with it -/

structure Replica where
  cols : List ColumnFile
  map : Option OrdMap

structure ApplyRun where
  translation : Written
  unread : Bool
  unopened : Bool
  fails : Bool
  deriving DecidableEq

def Replica.col (d : Replica) (ci : ℕ) : ColumnFile := d.cols[ci]?.getD ⟨none, []⟩

def Replica.next (d : Replica) : UInt32 := PartitionFlush.nextOrdinal ⟨d.cols, ordmapNext d.map⟩

/-- The ordinals of a column, where an entry without one has its position. -/
def ordinals (c : ColumnFile) : List UInt32 := c.entries.zipIdx.map fun r => effOrd r.1 r.2

theorem foldl_effOrd (es : List Meta) {k m : ℕ} {n : UInt32} (hk : k+es.length ≤ m)
    (hn : m ≤ n.toNat) : (es.zipIdx k).foldl (fun n r => BlockOrdinals.raise n (effOrd r.1 r.2)) n =
    es.foldl (fun n e => e.ord.elim n fun v => if n < v+1 then v+1 else n) n := by
  induction es generalizing k n with
  | nil => rfl
  | cons e es ih =>
    rw [length_cons] at hk
    rw [zipIdx_cons, foldl_cons, foldl_cons]
    cases ho : e.ord with
    | none =>
      -- a position is below the number of entries, which the fold starts with
      have hle : ¬n < UInt32.ofNat k+1 := by
        rw [UInt32.lt_iff_toNat_lt, UInt32.toNat_add, UInt32.toNat_ofNat']
        simp
        omega
      rw [effOrd, ho, Option.getD_none, BlockOrdinals.raise, if_neg hle, Option.elim_none]
      exact ih (by omega) hn
    | some v =>
      rw [effOrd, ho, Option.getD_some, Option.elim_some, BlockOrdinals.raise]
      refine ih (by omega) ?_
      split_ifs with hlt
      · exact hn.trans (UInt32.lt_iff_toNat_lt.mp hlt).le
      · exact hn

/-- The next ordinal is the one that the partition's ordinals give. -/
theorem next_ordinals (d : Replica)
    (h : ∀ c ∈ d.cols, declared c.idx = c.entries.length ∧ c.entries.length < 2^32) :
    d.next = BlockOrdinals.nextOrdinal (d.cols.map ordinals) d.map := by
  have hcol (c : ColumnFile) (hc : c ∈ d.cols) :
      PartitionFlush.idxNextOrd c.idx = BlockOrdinals.idxNextOrd (ordinals c) := by
    obtain ⟨hd, hlt⟩ := h c hc
    rw [BlockOrdinals.idxNextOrd, ordinals, length_map, length_zipIdx, foldl_map,
      foldl_effOrd _ (zero_add _).le (by simp; omega), PartitionFlush.idxNextOrd, hd]
    rfl
  rw [Replica.next, PartitionFlush.nextOrdinal, BlockOrdinals.nextOrdinal, foldl_map]
  exact foldl_ext _ _ _ fun n c hc => by rw [hcol c hc]

def Replica.partition (d : Replica) (tsIdx : ℕ) : Partition := ⟨d.cols, tsIdx⟩

def Push.key (p : Push) (v : UInt32) : OrdKey := ⟨p.issuer, v, p.count, p.tsMin, p.tsMax⟩

def Replica.translate (r : ApplyRun) (d : Replica) (p : Push) : Replica × Option (Option UInt32) :=
  match p.ord with
  | none => (d, some none)
  | some v =>
    match ordTranslate d.next d.map (p.key v) r.translation with
    | (m, none) => ({ d with map := m }, none)
    | (m, some v) => ({ d with map := m }, some (some v))

def Push.entry (p : Push) (offset : ℕ) (ord : Option UInt32) : Meta :=
  ⟨UInt64.ofNat offset, UInt32.ofNat p.data.length, p.count, p.tsMin, p.tsMax, 0, p.stats, ord⟩

def Push.sameData (p : Push) (r : ApplyRun) (file : Bytes) (e : Meta) : Bool :=
  !r.unopened && decide ((file.drop (e.offset.toNat+32)).take p.data.length = p.data)

def Push.place (p : Push) (r : ApplyRun) (c : ColumnFile) (ord : Option UInt32) : Option ℕ :=
  placement (sameBlock (p.sameData r c.data) (p.entry c.data.length ord)) c.entries ord

def Push.stored (step : UInt32 → Bytes → UInt32) (p : Push) (r : ApplyRun) (c : ColumnFile)
    (ord : Option UInt32) : ColumnFile :=
  ⟨applyRawblock false (p.sameData r c.data) c.idx (p.entry c.data.length ord), c.data++p.bytes step⟩

def Replica.store (step : UInt32 → Bytes → UInt32) (r : ApplyRun) (d : Replica) (p : Push)
    (ord : Option UInt32) : Replica × Ready :=
  let c := d.col p.colIdx.toNat
  if (c.idx.elim [] (oldEntries r.unread)).length ≠ declared c.idx then (d, .io)
  else
    match p.place r c ord with
    | none => (d, .ok)
    | some _ =>
      if r.fails then (d, .io)
      else ({ d with cols := d.cols.set p.colIdx.toNat (p.stored step r c ord) }, .ok)

/-- `verify` asks for the blocks of the other columns before timestamps are published. -/
def Replica.apply (step : UInt32 → Bytes → UInt32) (verify : Bool) (tsIdx : ℕ) (r : ApplyRun) (d : Replica)
    (p : Push) : Replica × Ready :=
  if d.cols.length ≤ p.colIdx.toNat then (d, .invalid)
  else
    match d.translate r p with
    | (d, none) => (d, .io)
    | (d, some ord) =>
      if verify = true ∧ p.colIdx.toNat = tsIdx then
        match tsPublishReady (d.partition tsIdx) ord p.tsMin p.count with
        | .ok => d.store step r p ord
        | e => (d, e)
      else d.store step r p ord

theorem translate_cols (r : ApplyRun) (d : Replica) (p : Push) : (d.translate r p).1.cols = d.cols := by
  unfold Replica.translate
  split
  · rfl
  · split <;> rfl

theorem store_cases (step : UInt32 → Bytes → UInt32) (r : ApplyRun) (d : Replica) (p : Push)
    (ord : Option UInt32) :
    d.store step r p ord = (d, .io) ∨
    (d.store step r p ord = (d, .ok) ∧ p.place r (d.col p.colIdx.toNat) ord = none) ∨
    (∃ pos, p.place r (d.col p.colIdx.toNat) ord = some pos ∧ d.store step r p ord =
      ({ d with cols := d.cols.set p.colIdx.toNat (p.stored step r (d.col p.colIdx.toNat) ord) }, .ok)) := by
  unfold Replica.store
  by_cases hold : ((d.col p.colIdx.toNat).idx.elim [] (oldEntries r.unread)).length ≠
    declared (d.col p.colIdx.toNat).idx
  · exact .inl (if_pos hold)
  rw [if_neg hold]
  cases hp : p.place r (d.col p.colIdx.toNat) ord with
  | none => exact .inr (.inl ⟨rfl, rfl⟩)
  | some pos =>
    split_ifs with hf
    · exact .inl rfl
    · exact .inr (.inr ⟨pos, rfl, rfl⟩)

theorem apply_cases {step : UInt32 → Bytes → UInt32} {verify : Bool} {tsIdx : ℕ} {r : ApplyRun}
    {d d' : Replica} {p : Push} {rc : Ready} (h : d.apply step verify tsIdx r p = (d', rc)) :
    (rc ≠ .ok ∧ (d' = d ∨ d' = (d.translate r p).1)) ∨
    (rc = .ok ∧ p.colIdx.toNat < d.cols.length ∧ ∃ ord, (d.translate r p).2 = some ord ∧
      ((d' = (d.translate r p).1 ∧ p.place r (d.col p.colIdx.toNat) ord = none) ∨
      (∃ pos, p.place r (d.col p.colIdx.toNat) ord = some pos ∧
        d' = ⟨d.cols.set p.colIdx.toNat (p.stored step r (d.col p.colIdx.toNat) ord),
          (d.translate r p).1.map⟩))) := by
  unfold Replica.apply at h
  by_cases hci : d.cols.length ≤ p.colIdx.toNat
  · rw [if_pos hci] at h
    cases h
    exact .inl ⟨by decide, .inl rfl⟩
  rw [if_neg hci] at h
  have hcols := translate_cols r d p
  cases ht : d.translate r p with
  | mk t o =>
    rw [ht] at h hcols
    have hcol : t.col p.colIdx.toNat = d.col p.colIdx.toNat := by rw [Replica.col, hcols, Replica.col]
    cases o with
    | none =>
      cases h
      exact .inl ⟨by decide, .inr rfl⟩
    | some ord =>
      -- Both with the test and without it the block is stored or the record refused.
      have hstore : t.store step r p ord = (d', rc) ∨ (rc ≠ .ok ∧ d' = t) := by
        dsimp only at h
        split at h
        · split at h
          · exact .inl h
          rename_i hne
          cases h
          exact .inr ⟨hne, rfl⟩
        · exact .inl h
      rcases hstore with h | ⟨hrc, rfl⟩
      · rcases store_cases _ r t p ord with hs | ⟨hs, hp⟩ | ⟨pos, hp, hs⟩
        · rw [hs] at h
          cases h
          exact .inl ⟨by decide, .inr rfl⟩
        · rw [hs] at h
          rw [hcol] at hp
          cases h
          exact .inr ⟨rfl, not_le.mp hci, ord, rfl, .inl ⟨rfl, hp⟩⟩
        · rw [hs, hcol, hcols] at h
          rw [hcol] at hp
          cases h
          exact .inr ⟨rfl, not_le.mp hci, ord, rfl, .inr ⟨pos, hp, rfl⟩⟩
      · exact .inl ⟨hrc, .inr rfl⟩

/-! ### The block that was put in -/

section Stored
variable {mc : Machine} {p : Push} {r : ApplyRun} {c : ColumnFile} {ord : Option UInt32}

theorem stored_holds {col : Column} (hp : Carries mc p col) (hl : c.data.length < 2^64) :
    Holds mc (c.data++p.bytes mc.crcStep) (p.entry c.data.length ord) col := by
  obtain ⟨hrows, lz, hflags, hdec⟩ := hp
  have hsize : (UInt32.ofNat p.data.length).toNat = p.data.length := by
    rw [UInt32.toNat_ofNat', Nat.mod_eq_of_lt p.dataLen]
  have hbytes : p.bytes mc.crcStep = blockBytes mc.crcStep p.header p.data := by
    rw [Push.bytes, blockBytes, if_pos (by rw [hflags]; exact flags_crc lz _)]
  refine .block c.data [] p.data lz p.header ?_ ?_ rfl rfl hsize hrows hflags hdec
  · rw [hbytes, append_nil]
  · show (UInt64.ofNat c.data.length).toNat = _
    rw [UInt64.toNat_ofNat', Nat.mod_eq_of_lt hl]

theorem stored_entries (step : UInt32 → Bytes → UInt32) (hw : Whole c.idx) (hlt : c.entries.length+1 < 2^32)
    {pos : ℕ} (hpos : p.place r c ord = some pos) : Whole (p.stored step r c ord).idx ∧
    (p.stored step r c ord).entries = c.entries.take pos++p.entry c.data.length ord :: c.entries.drop
    pos := by
  obtain ⟨h1, h2⟩ := apply_placed hw _ _ hlt hpos
  refine ⟨h1, ?_⟩
  rw [ColumnFile.entries, Push.stored, h2]
  rfl

end Stored

/-! ### Symbols -/

def strings (t : SymTab) (codes : List Symbol) : List (Option Bytes) := codes.map fun x => t.str x.toNat

variable {es : List Meta}

theorem scanEntries_none {same : Meta → Bool} {v : UInt32} {b pos : ℕ} {unmarked : Bool}
    (h : IndexManifests.scanEntries same v es b pos unmarked = none) : ∃ e ∈ es, e.ord = some v ∧
    same e = true := by
  induction es generalizing b pos unmarked with
  | nil => cases h
  | cons e es ih =>
    rw [IndexManifests.scanEntries] at h
    have hrest : ∀ {b pos unmarked}, IndexManifests.scanEntries same v es b pos unmarked = none →
        ∃ e' ∈ e :: es, e'.ord = some v ∧ same e' = true := by
      intro b pos unmarked h
      obtain ⟨e', he', hs⟩ := ih h
      exact ⟨e', mem_cons_of_mem _ he', hs⟩
    cases ho : e.ord with
    | none =>
      rw [ho] at h
      exact hrest h
    | some eo =>
      rw [ho] at h
      dsimp only at h
      split_ifs at h with hv hsame
      · exact ⟨e, mem_cons_self, by rw [ho, hv], hsame⟩
      · exact hrest h
      · exact hrest h
      · exact hrest h

theorem getLast_any {f : Meta → Bool} (h : es.getLast?.any f = true) : ∃ e ∈ es, f e = true := by
  obtain ⟨e, hl, h⟩ := (Option.any_eq_true ..).mp h
  exact ⟨e, mem_of_getLast? hl, h⟩

theorem placement_none {same : Meta → Bool} {ord : Option UInt32}
    (h : placement same es ord = none) : ∃ e ∈ es, same e = true := by
  cases ord with
  | none =>
    rw [placement] at h
    split_ifs at h with hs
    exact getLast_any hs
  | some v =>
    rw [placement] at h
    split at h
    · rename_i hscan
      obtain ⟨e, he, -, hs⟩ := scanEntries_none hscan
      exact ⟨e, he, hs⟩
    split_ifs at h with hs
    obtain ⟨e, he, hs⟩ := getLast_any hs.2
    exact ⟨e, he, (Bool.and_eq_true_iff.mp hs).2⟩

theorem accepted_holds {mc : Machine} {verify : Bool} {tsIdx : ℕ} {r : ApplyRun} {d d' : Replica} {p : Push}
    {col : Column} (hp : Carries mc p col) (hw : Whole (d.col p.colIdx.toNat).idx)
    (hlt : (d.col p.colIdx.toNat).entries.length+1 < 2^32)
    (hl : (d.col p.colIdx.toNat).data.length+2^33 < 2^64)
    (hdup : ∀ e ∈ (d.col p.colIdx.toNat).entries, ∀ ord, sameBlock (p.sameData r (d.col p.colIdx.toNat).data)
      (p.entry (d.col p.colIdx.toNat).data.length ord) e = true → Holds mc (d.col p.colIdx.toNat).data e col)
    (h : d.apply mc.crcStep verify tsIdx r p = (d', .ok)) : (d'.col p.colIdx.toNat).data.length < 2^64 ∧
    ∃ e ∈ (d'.col p.colIdx.toNat).entries, Holds mc (d'.col p.colIdx.toNat).data e col := by
  rcases apply_cases h with ⟨hne, -⟩ | ⟨-, hci, ord, -, ⟨rfl, hnone⟩ | ⟨pos, hpos, rfl⟩⟩
  · exact absurd rfl hne
  · have hcol : ((d.translate r p).1).col p.colIdx.toNat = d.col p.colIdx.toNat := by
      rw [Replica.col, translate_cols, Replica.col]
    rw [hcol]
    obtain ⟨e, he, hs⟩ := placement_none hnone
    exact ⟨by omega, e, he, hdup e he ord hs⟩
  have hcol : (Replica.mk (d.cols.set p.colIdx.toNat
      (p.stored mc.crcStep r (d.col p.colIdx.toNat) ord)) (d.translate r p).1.map).col p.colIdx.toNat =
      p.stored mc.crcStep r (d.col p.colIdx.toNat) ord := by
    rw [Replica.col, getElem?_set_self hci]
    rfl
  rw [hcol]
  obtain ⟨-, hes⟩ := stored_entries _ hw hlt hpos
  have hbytes := p.bytes_length_le mc.crcStep
  refine ⟨?_, p.entry (d.col p.colIdx.toNat).data.length ord, ?_, stored_holds hp (by omega)⟩
  · rw [Push.stored, length_append]
    omega
  · rw [hes]
    exact mem_append_right _ mem_cons_self

/-- An accepted block of a symbol column reads with the codes of the peer, which stand for the
same strings exactly when the tables agree on them. -/
theorem symbols_replicated (mc : Machine) (br : BlockRun) (table : Bytes) (day : UInt32) (ci : UInt16)
    (issuer : UInt64) (ord : UInt32) (codes : List Symbol) (tsMin tsMax : Int64) (p q : Push)
    (sent here : List Bytes) (verify : Bool) (tsIdx : ℕ) (r : ApplyRun) (d d' : Replica)
    (hn : codes.length ≤ blockPoints)
    (hp : rawPush mc br table day ci issuer ord (.symbol codes) tsMin tsMax = some p)
    (hq : parse (serialize p) = some q) (hw : Whole (d.col ci.toNat).idx)
    (hlt : (d.col ci.toNat).entries.length+1 < 2^32) (hl : (d.col ci.toNat).data.length+2^33 < 2^64)
    (hdup : ∀ e ∈ (d.col ci.toNat).entries, ∀ ord,
      sameBlock (p.sameData r (d.col ci.toNat).data) (p.entry (d.col ci.toNat).data.length ord) e = true →
      Holds mc (d.col ci.toNat).data e (.symbol codes))
      (h : d.apply mc.crcStep verify tsIdx r q = (d', .ok)) :
    ∃ e ∈ (d'.col ci.toNat).entries, partReadBlock mc .symbol (d'.col ci.toNat).data e =
    .ok (.symbols codes) ∧
      (strings (internMany SymTab.empty here).1 codes = strings (internMany SymTab.empty sent).1 codes ↔
        ∀ x ∈ codes, (internMany SymTab.empty here).1.str x.toNat =
          (internMany SymTab.empty sent).1.str x.toNat) := by
  obtain rfl : q = p := some.inj (hq.symm.trans (parse_serialize p))
  have hc : Carries mc q (.symbol codes) := rawPush_carries hn hp
  have hci : q.colIdx = ci := by
    unfold rawPush at hp
    split at hp
    · cases hp
    split at hp
    · cases hp
    · exact congrArg Push.colIdx (some.inj hp).symm
  subst hci
  obtain ⟨hsize, e, he, hh⟩ := accepted_holds hc hw hlt hl hdup h
  exact ⟨e, he, holds_read hh hsize, map_inj_left⟩

def noFault : ApplyRun := ⟨.entry, false, false, false⟩

def blank : Replica := ⟨[⟨none, []⟩, ⟨none, []⟩], none⟩

def oneSymbol : Option Push :=
  rawPush PartitionFlush.plainMachine ⟨none, false, plenty⟩ [116] 19700101 1 7 0 (.symbol [0]) 5 5

def applied (d : Replica) (p : Option Push) : Option (Replica × Ready) :=
  p.map fun p => d.apply crc32cStep true 0 noFault p

theorem blank_whole (ci : ℕ) : Whole (blank.col ci).idx := by
  have h : (blank.col ci).idx = none := by
    match ci with
    | 0 | 1 | _+2 => rfl
  rw [h]
  exact ⟨fun bs hbs => (by cases hbs), fun bs hbs => (by cases hbs)⟩

/-- Both nodes have met the same string first. -/
theorem symbols_replicated_shared : ∃ p d', oneSymbol = some p ∧
    blank.apply crc32cStep true 0 noFault p = (d', .ok) ∧
      ∃ e ∈ (d'.col 1).entries,
        partReadBlock PartitionFlush.plainMachine .symbol (d'.col 1).data e = .ok (.symbols [0]) ∧
        (strings (internMany SymTab.empty [[97]]).1 [0] = strings (internMany SymTab.empty [[97], [98]]).1
          [0] ↔
          ∀ x ∈ ([0] : List Symbol), (internMany SymTab.empty [[97]]).1.str x.toNat =
            (internMany SymTab.empty [[97], [98]]).1.str x.toNat) := by
  have hok : (applied blank oneSymbol).map Prod.snd = some .ok := by decide +kernel
  obtain ⟨a, ha, hrc⟩ := map_eq_some_iff.mp hok
  obtain ⟨p, hp, rfl⟩ := map_eq_some_iff.mp ha
  have happly : blank.apply crc32cStep true 0 noFault p =
    ((blank.apply crc32cStep true 0 noFault p).1, .ok) := Prod.ext rfl hrc
  refine ⟨p, _, hp, happly, ?_⟩
  exact symbols_replicated _ _ [116] 19700101 1 7 0 [0] 5 5 p p
    _ [[97]] _ 0 _ _ _ (by decide) hp (parse_serialize p) (blank_whole 1)
    (by decide) (by decide) (fun e he => by cases he) happly

/-- The sender has met `a` first and the receiver `b`: the row with `a` reads `b`. -/
theorem foreign_code_reads_other_string :
    ((applied blank oneSymbol).map fun a => (a.2, (a.1.col 1).entries.map
      (partReadBlock PartitionFlush.plainMachine .symbol (a.1.col 1).data))) =
      some (.ok, [.ok (.symbols [0])]) ∧
    strings (internMany SymTab.empty [[97]]).1 [0] = [some [97]] ∧
    strings (internMany SymTab.empty [[98]]).1 [0] = [some [98]] := by
  decide +kernel

end QEngine.RawBlocks

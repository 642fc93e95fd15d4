import QEngine.ByteFields

/-!
# Column index files

Four header versions are in use; the last one adds the checkpoint of the redo log. A
reader takes the header size from the version and falls back to the other size when
the length of the file says so.
-/

namespace QEngine.IndexFiles
open List ByteFields

def idxMagic : ℕ := 0x31584449
def maxCols : ℕ := 256
def ordMark : ℕ := 0x4F52

structure Stats where
  min : Int64
  max : Int64
  sum : Int64
  first : Int64
  last : Int64
  flags : UInt16
  deriving DecidableEq

def Stats.absent : Stats := ⟨0, 0, 0, 0, 0, 0⟩

structure Meta where
  offset : UInt64
  size : UInt32
  count : UInt32
  tsMin : Int64
  tsMax : Int64
  bloom : UInt64
  stats : Stats
  ord : Option UInt32
  deriving DecidableEq

def ordFields : Option UInt32 → List (ℕ × ℕ)
  | some v => [(4, v.toNat), (2, ordMark)]
  | none => [(4, 0), (2, 0)]

def entryFields (m : Meta) : List (ℕ × ℕ) :=
  [(8, m.offset.toNat), (4, m.size.toNat), (4, m.count.toNat), (8, m.tsMin.toUInt64.toNat),
    (8, m.tsMax.toUInt64.toNat), (8, m.bloom.toNat), (8, m.stats.min.toUInt64.toNat),
    (8, m.stats.max.toUInt64.toNat), (8, m.stats.sum.toUInt64.toNat), (8, m.stats.first.toUInt64.toNat),
    (8, m.stats.last.toUInt64.toNat), (2, m.stats.flags.toNat)]++ordFields m.ord

def writeIdxEntry (m : Meta) : Bytes := fieldsBytes (entryFields m)

def getLe (bs : Bytes) (off w : ℕ) : ℕ := (fieldAt bs off w).getD 0

def getI64le (bs : Bytes) (off : ℕ) : Int64 := (UInt64.ofNat (getLe bs off 8)).toInt64

def readIdxEntryOrd (e : Bytes) (esz : ℕ) : Option UInt32 :=
  if esz < 88 then none
  else if getLe e 86 2 ≠ ordMark then none
  else some (UInt32.ofNat (getLe e 82 4))

def readStats (e : Bytes) : Stats :=
  ⟨getI64le e 40, getI64le e 48, getI64le e 56, getI64le e 64, getI64le e 72, UInt16.ofNat (getLe e 80 2)⟩

def readIdxEntry (esz : ℕ) (e : Bytes) : Meta where
  offset := UInt64.ofNat (getLe e 0 8)
  size := UInt32.ofNat (getLe e 8 4)
  count := UInt32.ofNat (getLe e 12 4)
  tsMin := getI64le e 16
  tsMax := getI64le e 24
  bloom := UInt64.ofNat (getLe e 32 8)
  stats := if 88 ≤ esz then readStats e else Stats.absent
  ord := readIdxEntryOrd e esz

structure Header where
  count : UInt32
  version : ℕ
  totalRows : UInt64
  tsMin : Int64
  tsMax : Int64
  entrySize : ℕ
  maxSeq : UInt64
  ncols : UInt16
  deriving DecidableEq

def clampCols (ncols : UInt16) : UInt16 := if maxCols < ncols.toNat then 0 else ncols

def headerFields (count : UInt32) (totalRows : UInt64) (tsMin tsMax : Int64) (version : ℕ) (ncols : UInt16) :
    List (ℕ × ℕ) :=
  [(4, idxMagic), (4, count.toNat), (2, version), (2, (clampCols ncols).toNat), (8, totalRows.toNat),
    (8, tsMin.toUInt64.toNat), (8, tsMax.toUInt64.toNat), (2, 88), (2, 0)]

def writeIdxHeader (count : UInt32) (totalRows : UInt64) (tsMin tsMax : Int64) (maxSeq : UInt64)
    (ncols : UInt16) : Bytes :=
  if maxSeq = 0 then fieldsBytes (headerFields count totalRows tsMin tsMax 3 ncols)
  else fieldsBytes (headerFields count totalRows tsMin tsMax 4 ncols++[(8, maxSeq.toNat)])

def idxHdrNcols (bs : Bytes) (version : ℕ) : UInt16 :=
  if version < 3 then 0
  else if getLe bs 10 2 ≤ maxCols then UInt16.ofNat (getLe bs 10 2) else 0

def headerSize : ℕ → Option ℕ
  | 1 => some 20
  | 2 => some 36
  | 3 => some 40
  | 4 => some 48
  | _ => none

def headerAt (bs : Bytes) (version : ℕ) : Header where
  count := UInt32.ofNat (getLe bs 4 4)
  version := version
  totalRows := UInt64.ofNat (getLe bs 12 8)
  tsMin := if version < 2 then Int64.maxValue else getI64le bs 20
  tsMax := if version < 2 then Int64.minValue else getI64le bs 28
  entrySize := if version < 3 then 40 else if getLe bs 36 2 = 0 then 88 else getLe bs 36 2
  maxSeq := if version < 4 then 0 else UInt64.ofNat (getLe bs 40 8)
  ncols := idxHdrNcols bs version

def readIdxHeaderEx (bs : Bytes) : Option (ℕ × Header) :=
  if bs.length < 20 ∨ getLe bs 0 4 ≠ idxMagic then none
  else (headerSize (getLe bs 8 2)).bind fun hsz =>
    if bs.length < hsz then none else some (hsz, headerAt bs (getLe bs 8 2))

def otherSize (hdrSize : ℕ) : ℕ := if hdrSize = 48 then 40 else if hdrSize = 40 then 48 else 0

def recoverHeaderSize (hdrSize esz count fileSize : ℕ) : ℕ :=
  if hdrSize = 0 ∨ esz = 0 ∨ count = 0 then hdrSize
  else if hdrSize ≤ fileSize ∧ fileSize-hdrSize = count*esz then hdrSize
  else if esz = 88 ∧ 0 < otherSize hdrSize ∧ otherSize hdrSize ≤ fileSize ∧
    fileSize-otherSize hdrSize = count*esz then otherSize hdrSize
  else hdrSize

def freadItems (sz : ℕ) : ℕ → Bytes → List Bytes
  | 0, _ => []
  | n+1, bs => if sz ≤ bs.length then bs.take sz::freadItems sz n (bs.drop sz) else []

/-- What an index file says. `zone` is its time range, absent in the first
version and without blocks. -/
structure Manifest where
  entries : List Meta
  totalRows : UInt64
  zone : Option (Int64 × Int64)
  maxSeq : UInt64
  ncols : UInt16
  deriving DecidableEq

def Manifest.empty : Manifest := ⟨[], 0, none, 0, 0⟩

def probedMaxSeq (bs : Bytes) (hsz found : ℕ) (h : Header) : UInt64 :=
  if found = hsz then h.maxSeq
  else if found = 48 then UInt64.ofNat (getLe bs 40 8)
  else 0

def readManifest (bs : Bytes) : Manifest :=
  match readIdxHeaderEx bs with
  | none => Manifest.empty
  | some (hsz, h) =>
    let found := recoverHeaderSize hsz h.entrySize h.count.toNat bs.length
    { entries := (freadItems h.entrySize h.count.toNat (bs.drop found)).map (readIdxEntry h.entrySize)
      totalRows := h.totalRows
      zone := if 2 ≤ h.version ∧ h.count ≠ 0 then some (h.tsMin, h.tsMax) else none
      maxSeq := probedMaxSeq bs hsz found h
      ncols := h.ncols }

def readFile : Option Bytes → Manifest
  | none => Manifest.empty
  | some bs => readManifest bs

def declared (file : Option Bytes) : ℕ :=
  file.elim 0 fun bs => (readIdxHeaderEx bs).elim 0 fun r => r.2.count.toNat

def widenEntry (e : Bytes) : Bytes := e.take 88++List.replicate (88-e.length) 0

theorem i64_back (x : Int64) : (UInt64.ofNat x.toUInt64.toNat).toInt64 = x := by simp

theorem u64_lt (x : UInt64) : x.toNat < 256^8 := by
  have := x.toNat_lt
  omega

theorem u32_lt (x : UInt32) : x.toNat < 256^4 := by
  have := x.toNat_lt
  omega

theorem u16_lt (x : UInt16) : x.toNat < 256^2 := by
  have := x.toNat_lt
  omega

variable (m : Meta)

@[simp] theorem writeIdxEntry_length : (writeIdxEntry m).length = 88 := by
  cases h : m.ord with
  | none | some v => simp [writeIdxEntry, entryFields, fieldsWidth, ordFields, h]

theorem entry_field (i w n off : ℕ) (hi : (entryFields m)[i]? = some (w, n)) (hn : n < 256^w)
    (ho : fieldsWidth ((entryFields m).take i) = off) : getLe (writeIdxEntry m) off w = n := by
  have h := fieldAt_fields _ [] i w n hi hn
  rw [append_nil, ho] at h
  rw [getLe, writeIdxEntry, h]
  rfl

theorem entry_i64 (i off : ℕ) (x : Int64) (hi : (entryFields m)[i]? = some (8, x.toUInt64.toNat))
    (ho : fieldsWidth ((entryFields m).take i) = off) : getI64le (writeIdxEntry m) off = x := by
  rw [getI64le, entry_field m i 8 _ off hi (u64_lt _) ho, i64_back]

theorem readStats_written : readStats (writeIdxEntry m) = m.stats := by
  have hmin := entry_i64 m 6 40 _ rfl (by simp [entryFields, fieldsWidth])
  have hmax := entry_i64 m 7 48 _ rfl (by simp [entryFields, fieldsWidth])
  have hsum := entry_i64 m 8 56 _ rfl (by simp [entryFields, fieldsWidth])
  have hfirst := entry_i64 m 9 64 _ rfl (by simp [entryFields, fieldsWidth])
  have hlast := entry_i64 m 10 72 _ rfl (by simp [entryFields, fieldsWidth])
  have hflags := entry_field m 11 2 _ 80 rfl (u16_lt _) (by simp [entryFields, fieldsWidth])
  simp [readStats, hmin, hmax, hsum, hfirst, hlast, hflags]

theorem readOrd_written : readIdxEntryOrd (writeIdxEntry m) 88 = m.ord := by
  obtain ⟨offset, size, count, tsMin, tsMax, bloom, stats, ord⟩ := m
  cases ord with
  | none =>
    have hmark := entry_field ⟨offset, size, count, tsMin, tsMax, bloom, stats, none⟩ 13 2 0 86 rfl
      (by decide) (by simp [entryFields, fieldsWidth, ordFields])
    simp [readIdxEntryOrd, hmark, ordMark]
  | some v =>
    have hmark := entry_field ⟨offset, size, count, tsMin, tsMax, bloom, stats, some v⟩ 13 2 ordMark 86 rfl
      (by decide) (by simp [entryFields, fieldsWidth, ordFields])
    have hord := entry_field ⟨offset, size, count, tsMin, tsMax, bloom, stats, some v⟩ 12 4 v.toNat 82 rfl
      (u32_lt v) (by simp [entryFields, fieldsWidth, ordFields])
    simp [readIdxEntryOrd, hmark, hord]

theorem readIdxEntry_written : readIdxEntry 88 (writeIdxEntry m) = m := by
  have hoffset := entry_field m 0 8 _ 0 rfl (u64_lt _) rfl
  have hsize := entry_field m 1 4 _ 8 rfl (u32_lt _) (by simp [entryFields, fieldsWidth])
  have hcount := entry_field m 2 4 _ 12 rfl (u32_lt _) (by simp [entryFields, fieldsWidth])
  have htsMin := entry_i64 m 3 16 _ rfl (by simp [entryFields, fieldsWidth])
  have htsMax := entry_i64 m 4 24 _ rfl (by simp [entryFields, fieldsWidth])
  have hbloom := entry_field m 5 8 _ 32 rfl (u64_lt _) (by simp [entryFields, fieldsWidth])
  simp [readIdxEntry, hoffset, hsize, hcount, htsMin, htsMax, hbloom, readStats_written, readOrd_written]

variable (count : UInt32) (totalRows : UInt64) (tsMin tsMax : Int64) (maxSeq : UInt64) (ncols : UInt16)

theorem header_field (version : ℕ) (extra : List (ℕ × ℕ)) (post : Bytes) (i w n off : ℕ)
    (hi : (headerFields count totalRows tsMin tsMax version ncols++extra)[i]? = some (w, n)) (hn : n < 256^w)
    (ho : fieldsWidth ((headerFields count totalRows tsMin tsMax version ncols++extra).take i) = off) :
    getLe (fieldsBytes (headerFields count totalRows tsMin tsMax version ncols++extra)++post) off w = n := by
  have h := fieldAt_fields _ post i w n hi hn
  rw [ho] at h
  rw [getLe, h]
  rfl

theorem clampCols_le : (clampCols ncols).toNat ≤ maxCols := by
  rw [clampCols]
  split_ifs with h
  · exact Nat.zero_le _
  · omega

def written : ℕ × Header :=
  if maxSeq = 0 then (40, ⟨count, 3, totalRows, tsMin, tsMax, 88, 0, clampCols ncols⟩)
  else (48, ⟨count, 4, totalRows, tsMin, tsMax, 88, maxSeq, clampCols ncols⟩)

theorem readIdxHeaderEx_written (post : Bytes) :
    readIdxHeaderEx (writeIdxHeader count totalRows tsMin tsMax maxSeq ncols++post) =
      some (written count totalRows tsMin tsMax maxSeq ncols) := by
  -- the fields up to the entry size are the same in both versions
  have hfields : ∀ (version : ℕ) (extra : List (ℕ × ℕ)), version < 256^2 →
      let bs := fieldsBytes (headerFields count totalRows tsMin tsMax version ncols++extra)++post
      getLe bs 0 4 = idxMagic ∧ getLe bs 4 4 = count.toNat ∧ getLe bs 8 2 = version ∧
      getLe bs 10 2 = (clampCols ncols).toNat ∧ getLe bs 12 8 = totalRows.toNat ∧
      getI64le bs 20 = tsMin ∧ getI64le bs 28 = tsMax ∧ getLe bs 36 2 = 88 := by
    intro version extra hv bs
    have hfield := header_field count totalRows tsMin tsMax ncols version extra post
    refine ⟨?_, ?_, ?_, ?_, ?_, ?_, ?_, ?_⟩
    · exact hfield 0 4 _ 0 rfl (by decide) rfl
    · exact hfield 1 4 _ 4 rfl (u32_lt count) rfl
    · exact hfield 2 2 _ 8 rfl hv rfl
    · exact hfield 3 2 _ 10 rfl (u16_lt _) rfl
    · exact hfield 4 8 _ 12 rfl (u64_lt totalRows) rfl
    · rw [getI64le, hfield 5 8 _ 20 rfl (u64_lt _) rfl, i64_back]
    · rw [getI64le, hfield 6 8 _ 28 rfl (u64_lt _) rfl, i64_back]
    · exact hfield 7 2 _ 36 rfl (by decide) rfl
  have hcols := clampCols_le ncols
  by_cases hs : maxSeq = 0
  · obtain ⟨h0, h4, h8, h10, h12, h20, h28, h36⟩ := hfields 3 [] (by decide)
    have hlen : (fieldsBytes (headerFields count totalRows tsMin tsMax 3 ncols++[])++post).length =
        40+post.length := by
      simp [headerFields, fieldsWidth]
    rw [append_nil] at h0 h4 h8 h10 h12 h20 h28 h36 hlen
    simp [writeIdxHeader, written, hs, readIdxHeaderEx, headerSize, headerAt, idxHdrNcols, h0, h4, h8, h10,
      h12, h20, h28, h36,
      hlen, hcols]
    omega
  obtain ⟨h0, h4, h8, h10, h12, h20, h28, h36⟩ := hfields 4 [(8, maxSeq.toNat)] (by decide)
  have hlen :
    (fieldsBytes (headerFields count totalRows tsMin tsMax 4 ncols++[(8, maxSeq.toNat)])++post).length =
      48+post.length := by
    simp [headerFields, fieldsWidth]
  have h40 := header_field count totalRows tsMin tsMax ncols 4 [(8, maxSeq.toNat)] post 9 8 _ 40 rfl
    (u64_lt maxSeq) rfl
  simp [writeIdxHeader, written, hs, readIdxHeaderEx, headerSize, headerAt, idxHdrNcols, h0, h4, h8, h10,
    h12, h20, h28, h36,
    h40, hlen, hcols]
  omega

theorem headerSize_cases {version hsz : ℕ} (h : headerSize version = some hsz) :
    (version = 1 ∧ hsz = 20) ∨ (version = 2 ∧ hsz = 36) ∨ (version = 3 ∧ hsz = 40) ∨
    (version = 4 ∧ hsz = 48) := by
  unfold headerSize at h
  split at h <;> simp_all

theorem readIdxHeaderEx_some {bs : Bytes} {hsz : ℕ} {h : Header} (hr : readIdxHeaderEx bs = some (hsz, h)) :
    getLe bs 0 4 = idxMagic ∧ headerSize (getLe bs 8 2) = some hsz ∧ hsz ≤ bs.length ∧
    h = headerAt bs (getLe bs 8 2) := by
  rw [readIdxHeaderEx] at hr
  split_ifs at hr with hbad
  obtain ⟨n, hn, hr⟩ := Option.bind_eq_some_iff.mp hr
  split_ifs at hr with hshort
  obtain ⟨rfl, rfl⟩ := Prod.mk.inj (Option.some.inj hr)
  exact ⟨by tauto, hn, by omega, rfl⟩

theorem getLe_front {front : Bytes} (post : Bytes) {off w : ℕ} (h : off+w ≤ front.length) :
    getLe (front++post) off w = getLe front off w := by
  rw [getLe, getLe, fieldAt_front _ _ off w h]

theorem readIdxHeaderEx_front {front post : Bytes} {h : Header}
    (hr : readIdxHeaderEx (front++post) = some (front.length, h)) {rest : Bytes} :
    readIdxHeaderEx (front++rest) = some (front.length, h) := by
  obtain ⟨hmagic, hsize, -, rfl⟩ := readIdxHeaderEx_some hr
  have hlen := headerSize_cases hsize
  have hfront : ∀ off w, off+w ≤ front.length → getLe (front++rest) off w = getLe (front++post) off w := by
    intro off w ho
    rw [getLe_front _ ho, getLe_front _ ho]
  have h0 := hfront 0 4 (by omega)
  have h8 := hfront 8 2 (by omega)
  have hat : headerAt (front++rest) (getLe (front++post) 8 2) = headerAt (front++post)
    (getLe (front++post) 8 2) := by
    have h4 := hfront 4 4 (by omega)
    have h12 := hfront 12 8 (by omega)
    rcases hlen with ⟨hv, hl⟩ | ⟨hv, hl⟩ | ⟨hv, hl⟩ | ⟨hv, hl⟩
    · simp [headerAt, idxHdrNcols, hv, h4, h12]
    · simp [headerAt, idxHdrNcols, getI64le, hv, h4, h12, hfront 20 8 (by omega), hfront 28 8 (by omega)]
    · simp [headerAt, idxHdrNcols, getI64le, hv, h4, h12, hfront 20 8 (by omega), hfront 28 8 (by omega),
        hfront 10 2 (by omega), hfront 36 2 (by omega)]
    · simp [headerAt, idxHdrNcols, getI64le, hv, h4, h12, hfront 20 8 (by omega), hfront 28 8 (by omega),
        hfront 10 2 (by omega), hfront 36 2 (by omega), hfront 40 8 (by omega)]
  rw [readIdxHeaderEx, h0, h8, hsize, if_neg (by simp [hmagic]; omega), Option.bind_some]
  rw [if_neg (by simp), hat]

theorem freadItems_all {sz : ℕ} {es : List Bytes} {tail : Bytes} (h : ∀ e ∈ es, e.length = sz) :
    freadItems sz es.length (es.flatten++tail) = es := by
  induction es with
  | nil => rfl
  | cons e es ih =>
    have he : e.length = sz := h e mem_cons_self
    rw [length_cons, freadItems, flatten_cons, append_assoc, if_pos (by simp; omega)]
    rw [← he, take_left, drop_left, he, ih (fun x hx => h x (mem_cons_of_mem _ hx))]

theorem freadItems_length (sz n : ℕ) (bs : Bytes) : ∀ e ∈ freadItems sz n bs, e.length = sz := by
  induction n generalizing bs with
  | zero => simp [freadItems]
  | succ n ih =>
    intro e he
    rw [freadItems] at he
    split_ifs at he with hb
    · rcases mem_cons.mp he with rfl | he
      · simp [hb]
      · exact ih _ e he
    · simp at he

theorem freadItems_split (sz n : ℕ) (bs : Bytes) (h : n*sz ≤ bs.length) :
    (freadItems sz n bs).length = n ∧ ∃ tail, bs = (freadItems sz n bs).flatten++tail := by
  induction n generalizing bs with
  | zero => exact ⟨rfl, bs, rfl⟩
  | succ n ih =>
    have hsz : sz ≤ bs.length := le_trans (Nat.le_mul_of_pos_left sz n.succ_pos) h
    have hrest : n*sz ≤ (bs.drop sz).length := by
      rw [length_drop]
      rw [Nat.succ_mul] at h
      omega
    obtain ⟨hlen, tail, htail⟩ := ih (bs.drop sz) hrest
    rw [freadItems, if_pos hsz]
    refine ⟨by rw [length_cons, hlen], tail, ?_⟩
    rw [flatten_cons, append_assoc, ← htail, take_append_drop]

theorem leValue_zeros (n : ℕ) : leValue (List.replicate n 0) = 0 := by
  induction n with
  | zero => rfl
  | succ n ih => simp [replicate_succ, leValue_cons, ih]

theorem getLe_zeros (e : Bytes) (n k w : ℕ) : getLe (e++List.replicate n 0) (e.length+k) w = 0 := by
  rw [getLe, fieldAt_behind, fieldAt, sliceAt]
  split_ifs with h
  · simp [leValue_zeros]
  · rfl

theorem readIdxEntry_widened {e : Bytes} {esz : ℕ} (he : e.length = esz) (hs : esz = 40 ∨ esz = 88) :
    readIdxEntry 88 (widenEntry e) = readIdxEntry esz e := by
  rcases hs with rfl | rfl
  · have hw : widenEntry e = e++List.replicate 48 0 := by
      rw [widenEntry, he, take_of_length_le (by omega)]
    have hfront : ∀ off w, off+w ≤ 40 → getLe (widenEntry e) off w = getLe e off w := by
      intro off w ho
      rw [hw, getLe_front _ (by omega)]
    have hzero : ∀ k w, getLe (widenEntry e) (40+k) w = 0 := by
      intro k w
      rw [hw, ← he]
      exact getLe_zeros e 48 k w
    have hstats : readStats (widenEntry e) = Stats.absent := by
      simp [readStats, getI64le, Stats.absent, hzero 0, hzero 8, hzero 16, hzero 24, hzero 32, hzero 40]
    have hord : readIdxEntryOrd (widenEntry e) 88 = none := by
      simp [readIdxEntryOrd, hzero 46, ordMark]
    have hnone : readIdxEntryOrd e 40 = none := rfl
    simp [readIdxEntry, getI64le, hstats, hord, hnone, hfront 0 8, hfront 8 4, hfront 12 4, hfront 16 8,
      hfront 24 8,
      hfront 32 8]
  · rw [widenEntry, he, take_of_length_le (by omega)]
    simp

theorem otherSize_cases (hsz : ℕ) :
    (hsz = 48 ∧ otherSize hsz = 40) ∨ (hsz = 40 ∧ otherSize hsz = 48) ∨ otherSize hsz = 0 := by
  rw [otherSize]
  split_ifs with h48 h40
  · exact .inl ⟨h48, rfl⟩
  · exact .inr (.inl ⟨h40, rfl⟩)
  · exact .inr (.inr rfl)

/-- A file that is longer than its header declares by whole entries keeps its
header size: the two sizes differ by less than an entry. -/
theorem recover_longer (hsz n k : ℕ) : recoverHeaderSize hsz 88 n (hsz+(n+k)*88) = hsz := by
  have hother := otherSize_cases hsz
  have hnot : ¬((88:ℕ) = 88 ∧ 0 < otherSize hsz ∧ otherSize hsz ≤ hsz+(n+k)*88 ∧
    hsz+(n+k)*88-otherSize hsz = n*88) := by omega
  rw [recoverHeaderSize, if_neg hnot]
  simp only [ite_self]

section
variable {front : Bytes} {es : List Bytes} {tail : Bytes} {h : Header}

theorem readManifest_shape (hr : readIdxHeaderEx (front++(es.flatten++tail)) = some (front.length, h))
    (hlen : ∀ e ∈ es, e.length = h.entrySize) (hcount : h.count.toNat = es.length)
    (hfound : recoverHeaderSize front.length h.entrySize es.length (front++(es.flatten++tail)).length =
      front.length) :
    readManifest (front++(es.flatten++tail)) =
      ⟨es.map (readIdxEntry h.entrySize), h.totalRows,
        if 2 ≤ h.version ∧ h.count ≠ 0 then some (h.tsMin, h.tsMax) else none, h.maxSeq, h.ncols⟩ := by
  rw [readManifest, hr]
  dsimp only
  rw [hcount, hfound, drop_left, freadItems_all hlen, probedMaxSeq, if_pos rfl]

end

theorem flatten_length {es : List Bytes} (he : ∀ e ∈ es, e.length = 88) :
    es.flatten.length = es.length*88 := by
  rw [length_flatten, map_congr_left he, map_const', sum_replicate, smul_eq_mul]

theorem writeIdxHeader_length : (writeIdxHeader count totalRows tsMin tsMax maxSeq ncols).length =
    (written count totalRows tsMin tsMax maxSeq ncols).1 := by
  rw [writeIdxHeader, written]
  split_ifs <;> simp [headerFields, fieldsWidth]

theorem written_fields : ∃ version, 3 ≤ version ∧ (written count totalRows tsMin tsMax maxSeq ncols).2 =
    ⟨count, version, totalRows, tsMin, tsMax, 88, maxSeq, clampCols ncols⟩ := by
  rw [written]
  split_ifs with h
  · exact ⟨3, le_refl 3, by rw [h]⟩
  · exact ⟨4, by decide, rfl⟩

theorem written_shape (post : Bytes) : ∃ version, 3 ≤ version ∧
    readIdxHeaderEx (writeIdxHeader count totalRows tsMin tsMax maxSeq ncols++post) =
      some ((writeIdxHeader count totalRows tsMin tsMax maxSeq ncols).length,
        ⟨count, version, totalRows, tsMin, tsMax, 88, maxSeq, clampCols ncols⟩) := by
  obtain ⟨version, hv, hw⟩ := written_fields count totalRows tsMin tsMax maxSeq ncols
  exact ⟨version, hv, by rw [readIdxHeaderEx_written, writeIdxHeader_length, ← hw]⟩

theorem ofNat_length {α : Type} {es : List α} (h : es.length < 2^32) :
    (UInt32.ofNat es.length).toNat = es.length := by
  rw [UInt32.toNat_ofNat']
  exact Nat.mod_eq_of_lt h

theorem readManifest_written {es : List Bytes} (he : ∀ e ∈ es, e.length = 88) (hlt : es.length < 2^32) :
    readManifest (writeIdxHeader (UInt32.ofNat es.length) totalRows tsMin tsMax maxSeq ncols++es.flatten) =
      ⟨es.map (readIdxEntry 88), totalRows, if es = [] then none else some (tsMin, tsMax), maxSeq,
        clampCols ncols⟩ := by
  have hcount := ofNat_length hlt
  have hnz : UInt32.ofNat es.length = 0 ↔ es = [] := by
    rw [← length_eq_zero_iff, ← hcount, ← UInt32.toNat_inj, UInt32.toNat_zero]
    simp
  have hlen := flatten_length he
  obtain ⟨version, hv, hread⟩ := written_shape (UInt32.ofNat es.length) totalRows tsMin tsMax maxSeq ncols
    (es.flatten++[])
  generalize writeIdxHeader (UInt32.ofNat es.length) totalRows tsMin tsMax maxSeq ncols = front at hread ⊢
  have hfound := recover_longer front.length es.length 0
  rw [Nat.add_zero, ← hlen, ← length_append] at hfound
  have hshape := readManifest_shape hread he hcount (by rw [append_nil]; exact hfound)
  rw [append_nil] at hshape
  rw [hshape]
  by_cases hnil : es = []
  · simp [hnil]
  · simp [hnil, hnz, Nat.le_trans (by decide : 2 ≤ 3) hv]

end QEngine.IndexFiles

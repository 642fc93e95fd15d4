import QEngine.AdaptiveCodec
import QEngine.IndexFiles

/-!
# Blocks of a column file

A block of a column file is a header, the encoded values and a checksum of both. The
reader comes with the index entry of the block and takes nothing from the header but
the codec and the flags, after the count and the size have been found to be those of
the entry.
-/

namespace QEngine.BlockFiles
open List ByteFields BitStream SymbolDictionary DecimalFloats AdaptiveCodec IndexFiles
open Lzlite

def blockMagic : ℕ := 0x314B4C42
def blockPoints : ℕ := 8192
def maxCompressedBlock : ℕ := blockPoints*8*2+256
def outerLzMinGain : ℤ := 16

inductive Err where
  | io
  | nomem
  | notfound
  | internal
  | codec (rc : Rc)
  deriving DecidableEq

/-- The arithmetic on doubles, the checksum of the processor, and what an entry says about the
values. -/
structure Machine where
  ar : DecimalArith
  crcStep : UInt32 → Bytes → UInt32
  stats : Column → Stats
  bloom : List Symbol → UInt64

def codecOf : ℕ → Codec
  | 0 => .none
  | 1 => .dod
  | 2 => .gorilla
  | 3 => .forInt
  | 4 => .dict
  | 5 => .raw
  | 6 => .chimp
  | 8 => .chimp128
  | 9 => .bp128
  | 10 => .pfor
  | 12 => .dec
  | _ => .lzlite

def crc32c (step : UInt32 → Bytes → UInt32) (data : Bytes) : UInt32 := step 0xFFFFFFFF data ^^^ 0xFFFFFFFF

def crc32cUpdate (step : UInt32 → Bytes → UInt32) (crc : UInt32) (data : Bytes) : UInt32 :=
  step (crc ^^^ 0xFFFFFFFF) data ^^^ 0xFFFFFFFF

def blockCrc (step : UInt32 → Bytes → UInt32) (hdr data : Bytes) : UInt32 :=
  if data = [] then crc32c step hdr else crc32cUpdate step (crc32c step hdr) data

def crcBit (c : UInt32) : UInt32 := if c &&& 1 = 1 then (0x82F63B78 : UInt32) ^^^ (c >>> 1) else c >>> 1

def crc32cStep (crc : UInt32) (data : Bytes) : UInt32 :=
  data.foldl (fun c b => crcBit^[8] ((c ^^^ b.toUInt32) &&& 0xFF) ^^^ (c >>> 8)) crc

example : crc32c crc32cStep [49, 50, 51, 52, 53, 54, 55, 56, 57] = 0xE3069283 := by decide +kernel

structure BlockHeader where
  codec : Codec
  flags : UInt16
  count : UInt32
  tsMin : Int64
  tsMax : Int64
  size : UInt32
  deriving DecidableEq

def headerFields (h : BlockHeader) : List (ℕ × ℕ) :=
  [(4, blockMagic), (1, h.codec.id), (1, 0), (2, h.flags.toNat), (4, h.count.toNat),
    (8, h.tsMin.toUInt64.toNat),
    (8, h.tsMax.toUInt64.toNat), (4, h.size.toNat)]

def writeBlockHeader (h : BlockHeader) : Bytes := fieldsBytes (headerFields h)

def readBlockHeader (bs : Bytes) : Option BlockHeader :=
  if getLe bs 0 4 ≠ blockMagic then none
  else some ⟨codecOf (getLe bs 4 1), UInt16.ofNat (getLe bs 6 2), UInt32.ofNat (getLe bs 8 4), getI64le bs 12,
    getI64le bs 20, UInt32.ofNat (getLe bs 28 4)⟩

def flagLz : UInt16 := 1
def flagBloom : UInt16 := 4
def flagCrc : UInt16 := 8

def blockBytes (step : UInt32 → Bytes → UInt32) (h : BlockHeader) (data : Bytes) : Bytes :=
  writeBlockHeader h++(data++leBytes 4 (blockCrc step (writeBlockHeader h) data).toNat)

def partBlockLocate (step : UInt32 → Bytes → UInt32) (file : Bytes) (m : Meta) :
    Except Err (BlockHeader × Bytes) :=
  let hdr := (file.drop m.offset.toNat).take 32
  let data := (file.drop (m.offset.toNat+32)).take m.size.toNat
  if file = [] then .error .notfound
  else if file.length < (m.offset+32).toNat then .error (.codec .corrupt)
  else
    match readBlockHeader hdr with
    | none => .error (.codec .corrupt)
    | some h =>
      if h.count ≠ m.count ∨ h.size ≠ m.size then .error (.codec .corrupt)
      else if file.length < (m.offset+32+h.size.toUInt64).toNat then .error (.codec .corrupt)
      else if h.flags &&& flagCrc = 0 then .ok (h, data)
      else if file.length < (m.offset+32+h.size.toUInt64+4).toNat then .error (.codec .corrupt)
      else
        if blockCrc step hdr data ≠ UInt32.ofNat (getLe (file.drop (m.offset.toNat+32+m.size.toNat)) 0 4) then
        .error (.codec .corrupt)
      else .ok (h, data)

def partReadBlock (mc : Machine) (type : ColumnType) (file : Bytes) (m : Meta) : Except Err Values :=
  match partBlockLocate mc.crcStep file m with
  | .error e => .error e
  | .ok (h, data) =>
    match decodeAdaptive mc.ar h.codec type (decide (h.flags &&& flagLz ≠ 0)) data m.count.toNat with
    | .error rc => .error (.codec rc)
    | .ok v => .ok v

structure ColWriter where
  file : Bytes
  entries : List Meta
  deriving DecidableEq

structure BlockRun where
  fails : Option Err
  decimal : Bool
  allocs : Allocs

def padded (file : Bytes) : Bytes := file++List.replicate ((8-file.length%8)%8) 0

def symbolCodes : Column → List Symbol
  | .symbol xs => xs
  | _ => []

def blockFlags (lz : Bool) (type : ColumnType) : UInt16 :=
  (if lz then flagLz else 0) ||| (if type = .symbol then flagBloom else 0) ||| flagCrc

def headerOf (col : Column) (tsMin tsMax : Int64) (b : Block) : BlockHeader :=
  ⟨b.codec, blockFlags b.lz col.type, UInt32.ofNat col.count, tsMin, tsMax, UInt32.ofNat b.n.toNat⟩

def entryOf (mc : Machine) (col : Column) (h : BlockHeader) (offset : ℕ) (ord : UInt32) : Meta :=
  ⟨UInt64.ofNat offset, h.size, h.count, h.tsMin, h.tsMax, mc.bloom (symbolCodes col), mc.stats col, some ord⟩

/-- `ord` is the ordinal of the first block this writer adds. -/
def colWriterWriteBlock (mc : Machine) (r : BlockRun) (ord : UInt32) (col : Column) (tsMin tsMax : Int64)
    (w : ColWriter) : Except Err ColWriter :=
  match r.fails with
  | some e => .error e
  | none =>
    match encodeAdaptiveEx mc.ar r.allocs r.decimal col maxCompressedBlock outerLzMinGain with
    | .error _ => .error .internal
    | .ok b =>
      if b.n < 0 then .error .internal
      else
        let h := headerOf col tsMin tsMax b
        .ok ⟨padded w.file++blockBytes mc.crcStep h b.out,
          w.entries++[entryOf mc col h (padded w.file).length (ord+UInt32.ofNat w.entries.length)]⟩

inductive Holds (mc : Machine) (file : Bytes) (m : Meta) (col : Column) : Prop
  | block (pre post data : Bytes) (lz : Bool) (h : BlockHeader) :
  file = pre++(blockBytes mc.crcStep h data++post) →
    m.offset.toNat = pre.length → m.count = h.count → m.size = h.size → h.size.toNat = data.length →
    h.count.toNat = col.count → h.flags = blockFlags lz col.type →
    decodeAdaptive mc.ar h.codec col.type lz data col.count = .ok col.values → Holds mc file m col

theorem codecOf_id (c : Codec) : codecOf c.id = c := by cases c <;> rfl

theorem id_lt (c : Codec) : c.id < 256^1 := by cases c <;> decide

@[simp] theorem writeBlockHeader_length (h : BlockHeader) : (writeBlockHeader h).length = 32 := by
  simp [writeBlockHeader, headerFields, fieldsWidth]

theorem header_at (h : BlockHeader) (i w n off : ℕ) (hi : (headerFields h)[i]? = some (w, n)) (hn : n < 256^w)
    (ho : fieldsWidth ((headerFields h).take i) = off) : getLe (writeBlockHeader h) off w = n := by
  have hf := fieldAt_fields _ [] i w n hi hn
  rw [append_nil, ho] at hf
  rw [getLe, writeBlockHeader, hf]
  rfl

theorem readBlockHeader_written (h : BlockHeader) : readBlockHeader (writeBlockHeader h) = some h := by
  have hmagic := header_at h 0 4 _ 0 rfl (by decide) rfl
  have hcodec := header_at h 1 1 _ 4 rfl (id_lt _) (by simp [headerFields, fieldsWidth])
  have hflags := header_at h 3 2 _ 6 rfl (u16_lt _) (by simp [headerFields, fieldsWidth])
  have hcount := header_at h 4 4 _ 8 rfl (u32_lt _) (by simp [headerFields, fieldsWidth])
  have hmin := header_at h 5 8 _ 12 rfl (u64_lt _) (by simp [headerFields, fieldsWidth])
  have hmax := header_at h 6 8 _ 20 rfl (u64_lt _) (by simp [headerFields, fieldsWidth])
  have hsize := header_at h 7 4 _ 28 rfl (u32_lt _) (by simp [headerFields, fieldsWidth])
  simp [readBlockHeader, getI64le, hmagic, hcodec, hflags, hcount, hmin, hmax, hsize, codecOf_id]

theorem flags_crc (lz : Bool) (type : ColumnType) : blockFlags lz type &&& flagCrc ≠ 0 := by
  cases lz <;> cases type <;> decide

theorem flags_lz (lz : Bool) (type : ColumnType) : decide (blockFlags lz type &&& flagLz ≠ 0) = lz := by
  cases lz <;> cases type <;> decide

@[simp] theorem blockBytes_length (step : UInt32 → Bytes → UInt32) (h : BlockHeader) (data : Bytes) :
    (blockBytes step h data).length = 32+data.length+4 := by
  simp [blockBytes]
  omega

section
variable {mc : Machine} {file : Bytes} {m : Meta} {col : Column}

variable (hh : Holds mc file m col)

include hh

theorem holds_append (more : Bytes) : Holds mc (file++more) m col := by
  cases hh with
  | block pre post data lz h hfile hoff hcount hsize hlen hrows hflags hdec =>
    refine .block pre (post++more) data lz h ?_ hoff hcount hsize hlen hrows hflags hdec
    rw [hfile]
    simp

theorem holds_within (hl : file.length < 2^64) : (m.offset+32).toNat = m.offset.toNat+32 ∧
    (m.offset+32+m.size.toUInt64).toNat = m.offset.toNat+32+m.size.toNat ∧
    (m.offset+32+m.size.toUInt64+4).toNat = m.offset.toNat+32+m.size.toNat+4 ∧
    m.offset.toNat+32+m.size.toNat+4 ≤ file.length := by
  cases hh with
  | block pre post data lz h hfile hoff hcount hsize hlen hrows hflags hdec =>
    have hbound : m.offset.toNat+32+m.size.toNat+4 ≤ file.length := by
      rw [hfile, hoff, hsize, hlen]
      simp
      omega
    have h32 : (32 : UInt64).toNat = 32 := rfl
    have h4 : (4 : UInt64).toNat = 4 := rfl
    simp only [UInt64.toNat_add, UInt32.toNat_toUInt64, h32, h4]
    omega

theorem holds_slices :
    ∃ h data lz post, (file.drop m.offset.toNat).take 32 = writeBlockHeader h ∧
    file.drop (m.offset.toNat+32) =
        data++(leBytes 4 (blockCrc mc.crcStep (writeBlockHeader h) data).toNat++post) ∧
      m.count = h.count ∧ m.size = h.size ∧ h.size.toNat = data.length ∧ h.count.toNat = col.count ∧
      h.flags = blockFlags lz col.type ∧
      decodeAdaptive mc.ar h.codec col.type lz data col.count = .ok col.values := by
  cases hh with
  | block pre post data lz h hfile hoff hcount hsize hlen hrows hflags hdec =>
    refine ⟨h, data, lz, post, ?_, ?_, hcount, hsize, hlen, hrows, hflags, hdec⟩
    · rw [hfile, hoff, drop_left, blockBytes, append_assoc, take_left' (writeBlockHeader_length h)]
    · rw [← drop_drop, hfile, hoff, drop_left, blockBytes, append_assoc,
        drop_left' (writeBlockHeader_length h), append_assoc]

theorem holds_located (hl : file.length < 2^64) :
    ∃ h data lz, partBlockLocate mc.crcStep file m = .ok (h, data) ∧ h.flags = blockFlags lz col.type ∧
      m.count.toNat = col.count ∧ decodeAdaptive mc.ar h.codec col.type lz data col.count =
      .ok col.values := by
  obtain ⟨hat, hend, hcrc, hbound⟩ := holds_within hh hl
  obtain ⟨h, data, lz, post, hhdr, hbehind, hcount, hsize, hlen, hrows, hflags, hdec⟩ := holds_slices hh
  have hdata : (file.drop (m.offset.toNat+32)).take m.size.toNat = data := by
    rw [hbehind, hsize, take_left' hlen.symm]
  have hstored : getLe (file.drop (m.offset.toNat+32+m.size.toNat)) 0 4 =
      (blockCrc mc.crcStep (writeBlockHeader h) data).toNat := by
    rw [← drop_drop, hbehind, hsize, drop_left' hlen.symm, getLe]
    have hw := fieldAt_written [] post 4 _ (u32_lt (blockCrc mc.crcStep (writeBlockHeader h) data))
    rw [nil_append, length_nil] at hw
    rw [hw]
    rfl
  refine ⟨h, data, lz, ?_, hflags, by rw [hcount, hrows], hdec⟩
  have hne : file ≠ [] := by
    intro hnil
    rw [hnil] at hbound
    simp at hbound
  rw [partBlockLocate, hhdr, hdata, hstored, if_neg hne, if_neg (by omega), readBlockHeader_written]
  dsimp only
  rw [if_neg (by simp [hcount, hsize]), ← hsize, if_neg (by omega), hflags, if_neg (flags_crc lz _),
    if_neg (by omega),
    if_neg (by simp)]

theorem holds_read (hl : file.length < 2^64) :
    partReadBlock mc col.type file m = .ok col.values := by
  obtain ⟨h, data, lz, hloc, hflags, hcount, hdec⟩ := holds_located hh hl
  rw [partReadBlock, hloc]
  dsimp only
  rw [hflags, flags_lz, hcount, hdec]

end

theorem padded_eq (file : Bytes) : ∃ k, k < 8 ∧ padded file = file++List.replicate k 0 :=
  ⟨_, Nat.mod_lt _ (by decide), by rw [padded]⟩

theorem out_length (b : Block) (hn : 0 ≤ b.n) : b.out.length = b.n.toNat ∧ b.n.toNat < 2^31 := by
  rw [Block.out, length_take]
  rw [Block.n, toInt] at hn ⊢
  split_ifs at hn ⊢ with hsmall
  · rw [Int.toNat_natCast]
    omega
  · omega

theorem domainRoom_le {col : Column} (hc : col.count ≤ blockPoints) :
    domainRoom col maxCompressedBlock ≤ domainLimit := by
  unfold blockPoints at hc
  unfold domainRoom maxCompressedBlock blockPoints domainLimit
  omega

theorem writeBlock_spec {mc : Machine} {r : BlockRun} {ord : UInt32} {col : Column} {tsMin tsMax : Int64}
    {w w' : ColWriter} (hc : col.count ≤ blockPoints) (hl : w.file.length+2^32 < 2^64)
    (h : colWriterWriteBlock mc r ord col tsMin tsMax w = .ok w') :
    ∃ m more, w'.file = w.file++more ∧ w'.entries = w.entries++[m] ∧ w'.file.length ≤ w.file.length+2^32 ∧
      Holds mc w'.file m col ∧ m.count = UInt32.ofNat col.count ∧ m.tsMin = tsMin ∧ m.tsMax = tsMax ∧
      m.ord = some (ord+UInt32.ofNat w.entries.length) := by
  unfold colWriterWriteBlock at h
  split at h
  · cases h
  split at h
  · cases h
  rename_i b hb
  split_ifs at h with hneg
  obtain ⟨hroom, hsound⟩ := adaptive_encodes _ _ hb
  have hdec := hsound (hroom.trans (domainRoom_le hc)) (by omega)
  obtain ⟨hlen, hint⟩ := out_length b (by omega)
  obtain ⟨k, hk, hpad⟩ := padded_eq _
  cases h
  have hplen : (padded w.file).length = w.file.length+k := by
    rw [hpad, length_append, length_replicate]
  have hsize : (headerOf col tsMin tsMax b).size.toNat = b.out.length := by
    rw [headerOf, UInt32.toNat_ofNat', hlen, Nat.mod_eq_of_lt (by omega)]
  have hrows : (headerOf col tsMin tsMax b).count.toNat = col.count := by
    rw [blockPoints] at hc
    rw [headerOf, UInt32.toNat_ofNat', Nat.mod_eq_of_lt (by omega)]
  have hoff : (UInt64.ofNat (padded w.file).length).toNat = (padded w.file).length := by
    rw [UInt64.toNat_ofNat', Nat.mod_eq_of_lt (by omega)]
  refine ⟨entryOf mc col (headerOf col tsMin tsMax b) (padded w.file).length
    (ord+UInt32.ofNat w.entries.length),
    List.replicate k 0++blockBytes mc.crcStep (headerOf col tsMin tsMax b) b.out, ?_, rfl, ?_, ?_, rfl, rfl,
      rfl, rfl⟩
  · dsimp only
    rw [hpad, append_assoc]
  · dsimp only
    rw [length_append, hplen, blockBytes_length, hlen]
    omega
  · exact .block (padded w.file) [] b.out b.lz (headerOf col tsMin tsMax b) (by rw [append_nil]) hoff rfl rfl
      hsize hrows rfl hdec

end QEngine.BlockFiles

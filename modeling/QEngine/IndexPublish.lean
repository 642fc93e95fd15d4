import QEngine.IndexFiles

/-!
# Publishing new index entries

A flush publishes the entries of its blocks when it closes the column. If they can
simply be added, the file is extended in place: first its length, then the entries,
then the header. Otherwise the whole index is written to a temporary file and renamed.
-/

namespace QEngine.IndexPublish
open List ByteFields IndexFiles

structure Writer where
  totalRows : UInt64
  maxSeq : UInt64
  zone : Option (Int64 × Int64)
  deriving DecidableEq

def widenZone (z : Int64 × Int64) (tsMin tsMax : Int64) : Int64 × Int64 :=
  (if tsMin < z.1 then tsMin else z.1, if z.2 < tsMax then tsMax else z.2)

def derivedZone (es : List Meta) : Int64 × Int64 :=
  es.foldl (fun z e => widenZone z e.tsMin e.tsMax) (Int64.maxValue, Int64.minValue)

def colWriterOpen (file : Option Bytes) : Writer :=
  match file with
  | none => ⟨0, 0, none⟩
  | some bs =>
    match readIdxHeaderEx bs with
    | none => ⟨0, 0, none⟩
    | some (hsz, h) =>
      let zone :=
        if h.count = 0 then none
        else if 2 ≤ h.version then some (h.tsMin, h.tsMax)
        else
          some
          (derivedZone ((freadItems h.entrySize h.count.toNat (bs.drop hsz)).map (readIdxEntry h.entrySize)))
      ⟨h.totalRows, h.maxSeq, zone⟩

def Writer.raise (seq : UInt64) (w : Writer) : Writer :=
  if w.maxSeq < seq then { w with maxSeq := seq } else w

def Writer.writeBlock (w : Writer) (m : Meta) : Writer :=
  { w with
      totalRows := w.totalRows+m.count.toUInt64
      zone := some (w.zone.elim (m.tsMin, m.tsMax) fun z => widenZone z m.tsMin m.tsMax) }

def flushed (file : Option Bytes) (hwm : UInt64) (new : List Meta) : Writer :=
  new.foldl Writer.writeBlock ((colWriterOpen file).raise hwm)

def headerBytes (w : Writer) (count : UInt32) (ncols : UInt16) : Bytes :=
  let z := w.zone.getD (0, 0)
  writeIdxHeader count w.totalRows z.1 z.2 w.maxSeq ncols

/-- What can go wrong. A write that fails has written some of its bytes. -/
structure Faults where
  colSync : Bool
  openUpdate : Bool
  extend : Bool
  entries : Option ℕ
  entriesSync : Bool
  header : Option ℕ
  headerSync : Bool
  restore : Option ℕ
  shorten : Bool
  oldEntries : Bool
  publish : Bool
  deriving DecidableEq

def Faults.none : Faults :=
    ⟨false, false, false, Option.none, false, Option.none, false, Option.none, false, false, false⟩

def ftruncate (bs : Bytes) (n : ℕ) : Bytes := bs.take n++List.replicate (n-bs.length) 0

def writeAt (bs : Bytes) (off : ℕ) (data : Bytes) : Bytes := bs.take off++(data++bs.drop (off+data.length))

def Writer.covering (w : Writer) (h : Header) : Writer :=
  let w := w.raise h.maxSeq
  { w with zone := w.zone.map fun z => widenZone z h.tsMin h.tsMax }

/-- The entries can be added in place: the size of the old header and the new one. -/
def appendable (bs : Bytes) (w : Writer) (n : ℕ) (ncols : UInt16) : Option (ℕ × Bytes) :=
  if bs.length < 48 then none
  else
    match readIdxHeaderEx bs with
    | none => none
    | some (hsz, h) =>
      if h.count = 0 ∨ h.entrySize ≠ 88 then none
      else if bs.length ≠ hsz+h.count.toNat*88 then none
      else
        let hdr := headerBytes (w.covering h) (h.count+UInt32.ofNat n) ncols
        if hdr.length ≠ hsz then none else some (hsz, hdr)

def rollback (f : Faults) (bs : Bytes) (hsz : ℕ) (now : Bytes) : List Bytes :=
  match f.restore with
  | some k => [writeAt now 0 ((bs.take hsz).take k)]
  | none =>
    let back := writeAt now 0 (bs.take hsz)
    if f.shorten then [back] else [back, ftruncate back bs.length]

def appendStates (f : Faults) (bs : Bytes) (hsz : ℕ) (hdr entries : Bytes) : List Bytes :=
  let s1 := ftruncate bs (bs.length+entries.length)
  match f.entries with
  | some k =>
    let s2 := writeAt s1 bs.length (entries.take k)
    s1::s2::rollback f bs hsz s2
  | none =>
    let s2 := writeAt s1 bs.length entries
    if f.entriesSync then s1::s2::rollback f bs hsz s2
    else
      match f.header with
      | some k =>
        let s3 := writeAt s2 0 (hdr.take k)
        s1::s2::s3::rollback f bs hsz s3
      | none =>
        let s3 := writeAt s2 0 hdr
        if f.headerSync then s1::s2::s3::rollback f bs hsz s3 else [s1, s2, s3]

/-- The old entries of a rewrite; when they cannot all be read there are none. -/
def oldEntries (fails : Bool) (bs : Bytes) : List Bytes :=
  match readIdxHeaderEx bs with
  | none => []
  | some (hsz, h) =>
    let found := recoverHeaderSize hsz h.entrySize h.count.toNat bs.length
    if fails = true ∨ bs.length < found+h.count.toNat*h.entrySize then []
    else (freadItems h.entrySize h.count.toNat (bs.drop found)).map widenEntry

def diskSeq (bs : Bytes) : UInt64 := (readIdxHeaderEx bs).elim 0 fun r => r.2.maxSeq

def rewritten (f : Faults) (file : Option Bytes) (w : Writer) (ncols : UInt16) (new : List Meta) : Bytes :=
  let old := file.elim [] (oldEntries f.oldEntries)
  let w := w.raise (file.elim 0 diskSeq)
  headerBytes w (UInt32.ofNat (old.length+new.length)) ncols++(old++new.map writeIdxEntry).flatten

def rewriteStates (f : Faults) (file : Option Bytes) (w : Writer) (ncols : UInt16) (new : List Meta) :
    List (Option Bytes) :=
  if f.publish then [] else [some (rewritten f file w ncols new)]

def publishStates (f : Faults) (file : Option Bytes) (w : Writer) (ncols : UInt16) (new : List Meta) :
    List (Option Bytes) :=
  match file with
  | none => rewriteStates f none w ncols new
  | some bs =>
    if f.openUpdate = true ∨ f.extend = true then rewriteStates f (some bs) w ncols new
    else
      match appendable bs w new.length ncols with
      | none => rewriteStates f (some bs) w ncols new
      | some (hsz, hdr) => (appendStates f bs hsz hdr (new.map writeIdxEntry).flatten).map some

def colWriterClose (f : Faults) (file : Option Bytes) (hwm : UInt64) (ncols : UInt16) (new : List Meta) :
    List (Option Bytes) :=
  if f.colSync = true ∨ new = [] then [file]
  else file::publishStates f file (flushed file hwm new) ncols new

/-- An existing index holds the entries its header declares, in the size of its version. -/
def Intact (file : Option Bytes) : Prop :=
  ∀ bs ∈ file, ∀ r ∈ readIdxHeaderEx bs,
    r.2.entrySize = (if r.2.version < 3 then 40 else 88) ∧ r.1+r.2.count.toNat*r.2.entrySize ≤ bs.length ∧
    recoverHeaderSize r.1 r.2.entrySize r.2.count.toNat bs.length = r.1

instance (file : Option Bytes) : Decidable (Intact file) := by
  unfold Intact
  infer_instance

/-- The old entries can be read, and a write of the header that fails leaves
it as it was. -/
def Faults.Clean (f : Faults) : Prop :=
  f.oldEntries = false ∧ (∀ k, f.header = some k → k = 0) ∧ (∀ k, f.restore = some k → k = 0)

def startZone (m : Manifest) : Option (Int64 × Int64) :=
  if m.zone.isSome then m.zone else if m.entries = [] then none else some (derivedZone m.entries)

def grown (old : Manifest) (hwm : UInt64) (ncols : UInt16) (new : List Meta) : Manifest :=
  let w := new.foldl Writer.writeBlock (Writer.raise hwm ⟨old.totalRows, old.maxSeq, startZone old⟩)
  ⟨old.entries++new, w.totalRows, w.zone, w.maxSeq, clampCols ncols⟩

section
variable {bs : Bytes} {hsz : ℕ} {h : Header}

theorem intact_shape (hi : Intact (some bs)) (hr : readIdxHeaderEx bs = some (hsz, h)) :
    ∃ front es tail, bs = front++(es.flatten++tail) ∧ front.length = hsz ∧
      (∀ e ∈ es, e.length = h.entrySize) ∧ h.count.toNat = es.length ∧
      freadItems h.entrySize h.count.toNat (bs.drop hsz) = es ∧ (h.entrySize = 40 ∨ h.entrySize = 88) := by
  obtain ⟨hesz, hfit, -⟩ := hi bs rfl (hsz, h) hr
  dsimp only at hesz hfit
  obtain ⟨-, -, hle, -⟩ := readIdxHeaderEx_some hr
  have hroom : h.count.toNat*h.entrySize ≤ (bs.drop hsz).length := by
    rw [length_drop]
    omega
  obtain ⟨hlen, tail, htail⟩ := freadItems_split _ _ _ hroom
  refine ⟨bs.take hsz, freadItems h.entrySize h.count.toNat (bs.drop hsz), tail, ?_, by simp [hle],
    freadItems_length _ _ _, hlen.symm, rfl, ?_⟩
  · rw [← htail, take_append_drop]
  split_ifs at hesz with hv
  · exact .inl hesz
  · exact .inr hesz

theorem intact_manifest (hi : Intact (some bs)) (hr : readIdxHeaderEx bs = some (hsz, h)) :
    readManifest bs =
      ⟨(freadItems h.entrySize h.count.toNat (bs.drop hsz)).map (readIdxEntry h.entrySize), h.totalRows,
        if 2 ≤ h.version ∧ h.count ≠ 0 then some (h.tsMin, h.tsMax) else none, h.maxSeq, h.ncols⟩ := by
  obtain ⟨front, es, tail, hbs, hfront, hlen, hcount, hread, -⟩ := intact_shape hi hr
  obtain ⟨-, -, hfound⟩ := hi bs rfl (hsz, h) hr
  rw [hread]
  rw [hcount, hbs, ← hfront] at hfound
  rw [hbs, ← hfront] at hr
  rw [hbs]
  exact readManifest_shape hr hlen hcount hfound

theorem open_intact {file : Option Bytes} (hi : Intact file) :
    colWriterOpen file = ⟨(readFile file).totalRows, (readFile file).maxSeq, startZone (readFile file)⟩ := by
  cases file with
  | none => rfl
  | some bs =>
    cases hr : readIdxHeaderEx bs with
    | none => simp [colWriterOpen, readFile, readManifest, hr, Manifest.empty, startZone]
    | some r =>
      obtain ⟨hsz, h⟩ := r
      have hm := intact_manifest hi hr
      obtain ⟨front, es, tail, -, -, -, hcount, hread, -⟩ := intact_shape hi hr
      rw [readFile, hm, hread, colWriterOpen, hr]
      dsimp only
      rw [hread]
      by_cases h0 : h.count = 0
      · have hnil : es = [] := by
          apply eq_nil_of_length_eq_zero
          rw [← hcount, h0]
          rfl
        simp [startZone, h0, hnil]
      have hne : es ≠ [] := by
        rintro rfl
        apply h0
        apply UInt32.toNat_inj.mp
        rw [hcount]
        rfl
      by_cases hv : 2 ≤ h.version
      · simp [startZone, h0, hv]
      · simp [startZone, h0, hv, hne]

end

structure Reaches (w : Writer) (h : Header) : Prop where
  maxSeq : ¬w.maxSeq < h.maxSeq
  zone : ∃ z, w.zone = some z ∧ ¬h.tsMin < z.1 ∧ ¬z.2 < h.tsMax

theorem widenZone_reaches {z : Int64 × Int64} {a b : Int64} (tsMin tsMax : Int64) (h : ¬a < z.1 ∧ ¬z.2 < b) :
    ¬a < (widenZone z tsMin tsMax).1 ∧ ¬(widenZone z tsMin tsMax).2 < b := by
  simp only [widenZone, Int64.lt_iff_toInt_lt] at h ⊢
  constructor
  · split_ifs <;> omega
  · split_ifs <;> omega

variable {w : Writer} {h : Header} {new : List Meta}

theorem writeBlock_reaches (hw : Reaches w h) (m : Meta) : Reaches (w.writeBlock m) h := by
  obtain ⟨z, hz, hcover⟩ := hw.zone
  constructor
  · exact hw.maxSeq
  refine ⟨widenZone z m.tsMin m.tsMax, ?_, widenZone_reaches _ _ hcover⟩
  rw [Writer.writeBlock, hz]
  rfl

theorem blocks_reach (hw : Reaches w h) (new : List Meta) : Reaches (new.foldl Writer.writeBlock w) h := by
  induction new generalizing w with
  | nil => exact hw
  | cons m new ih => exact ih (writeBlock_reaches hw m)

variable {seq : UInt64}

theorem raise_of_not_lt (h : ¬w.maxSeq < seq) : w.raise seq = w := by
  rw [Writer.raise, if_neg h]

theorem raise_not_lt (w : Writer) (seq s : UInt64) (h : ¬w.maxSeq < s) : ¬(w.raise seq).maxSeq < s := by
  rw [Writer.raise]
  split_ifs with hlt
  · dsimp only
    rw [UInt64.lt_iff_toNat_lt] at h hlt ⊢
    omega
  · exact h

theorem raise_zone : (w.raise seq).zone = w.zone := by
  rw [Writer.raise]
  split_ifs <;> rfl

theorem blocks_maxSeq (w : Writer) (new : List Meta) : (new.foldl Writer.writeBlock w).maxSeq = w.maxSeq := by
  induction new generalizing w with
  | nil => rfl
  | cons m new ih => exact ih (w.writeBlock m)

theorem blocks_zone (w : Writer) (hn : new ≠ []) : ∃ z, (new.foldl Writer.writeBlock w).zone = some z := by
  induction new generalizing w with
  | nil => exact absurd rfl hn
  | cons m new ih =>
    by_cases hnil : new = []
    · rw [hnil]
      exact ⟨_, rfl⟩
    · exact ih (w.writeBlock m) hnil

theorem covering_flushed {bs : Bytes} {hsz : ℕ} (hr : readIdxHeaderEx bs = some (hsz, h))
    (hc : h.count ≠ 0) (hv : 2 ≤ h.version) (hwm : UInt64) (new : List Meta) :
    (flushed (some bs) hwm new).covering h = flushed (some bs) hwm new := by
  have hopen : colWriterOpen (some bs) = ⟨h.totalRows, h.maxSeq, some (h.tsMin, h.tsMax)⟩ := by
    simp [colWriterOpen, hr, hc, hv]
  have hstart : Reaches ((colWriterOpen (some bs)).raise hwm) h := by
    rw [hopen]
    constructor
    · exact raise_not_lt _ hwm _ (by simp)
    · exact ⟨(h.tsMin, h.tsMax), raise_zone, by simp, by simp⟩
  have hw : Reaches (flushed (some bs) hwm new) h := blocks_reach hstart new
  obtain ⟨z, hz, hmin, hmax⟩ := hw.zone
  have hsame : widenZone z h.tsMin h.tsMax = z := by simp [widenZone, hmin, hmax]
  rw [Writer.covering, raise_of_not_lt hw.maxSeq, hz, Option.map_some, hsame, ← hz]

theorem readManifest_grown {file : Option Bytes} (hi : Intact file) (hwm : UInt64) (ncols : UInt16)
    (hn : new ≠ []) {old : List Bytes} (hold : ∀ e ∈ old, e.length = 88)
    (hm : old.map (readIdxEntry 88) = (readFile file).entries) (hlt : old.length+new.length < 2^32) :
    readManifest (headerBytes (flushed file hwm new) (UInt32.ofNat (old.length+new.length)) ncols++
      (old++new.map writeIdxEntry).flatten) = grown (readFile file) hwm ncols new := by
  obtain ⟨z, hz⟩ := blocks_zone ((colWriterOpen file).raise hwm) hn
  have hes : ∀ e ∈ old++new.map writeIdxEntry, e.length = 88 := by
    intro e he
    rcases mem_append.mp he with he | he
    · exact hold e he
    · obtain ⟨m, -, rfl⟩ := mem_map.mp he
      exact writeIdxEntry_length m
  have hback : (new.map writeIdxEntry).map (readIdxEntry 88) = new := by
    rw [map_map, show readIdxEntry 88 ∘ writeIdxEntry = id from funext readIdxEntry_written, map_id]
  have hread := readManifest_written (flushed file hwm new).totalRows z.1 z.2 (flushed file hwm new).maxSeq
    ncols hes (by simpa using hlt)
  rw [length_append, length_map, if_neg (by simp [hn])] at hread
  rw [headerBytes, show (flushed file hwm new).zone = some z from hz, Option.getD_some, hread, map_append,
    hm, hback]
  rw [grown, ← open_intact hi, hz]
  rfl

theorem diskSeq_not_lt (file : Option Bytes) (hwm : UInt64) (new : List Meta) :
    ¬(flushed file hwm new).maxSeq < file.elim 0 diskSeq := by
  rw [flushed, blocks_maxSeq]
  apply raise_not_lt
  cases file with
  | none => simp [colWriterOpen]
  | some bs =>
    cases hr : readIdxHeaderEx bs with
    | none => simp [diskSeq, colWriterOpen, hr]
    | some r => simp [diskSeq, colWriterOpen, hr]

theorem oldEntries_intact {file : Option Bytes} (hi : Intact file) :
    (∀ e ∈ file.elim [] (oldEntries false), e.length = 88) ∧
    (file.elim [] (oldEntries false)).map (readIdxEntry 88) = (readFile file).entries := by
  cases file with
  | none => exact ⟨by simp, rfl⟩
  | some bs =>
    cases hr : readIdxHeaderEx bs with
    | none => simp [oldEntries, readFile, readManifest, hr, Manifest.empty]
    | some r =>
      obtain ⟨hsz, h⟩ := r
      obtain ⟨front, es, tail, hbs, hfront, hlen, hcount, hread, hesz⟩ := intact_shape hi hr
      have hm := intact_manifest hi hr
      obtain ⟨-, hfit, hfound⟩ := hi bs rfl (hsz, h) hr
      have hold : oldEntries false bs = es.map widenEntry := by
        rw [oldEntries, hr]
        dsimp only
        rw [hfound, if_neg (by simp; omega), hread]
      rw [Option.elim_some, readFile, hm, hread, hold]
      constructor
      · intro e he
        obtain ⟨e0, he0, rfl⟩ := mem_map.mp he
        rw [widenEntry, length_append, length_take, length_replicate]
        omega
      · rw [map_map]
        apply map_congr_left
        intro e he
        exact readIdxEntry_widened (hlen e he) hesz

theorem rewritten_grown (f : Faults) (hf : f.oldEntries = false) (file : Option Bytes) (hi : Intact file)
    (hwm : UInt64) (ncols : UInt16) (hn : new ≠ [])
    (hlt : (readFile file).entries.length+new.length < 2^32) :
    readManifest (rewritten f file (flushed file hwm new) ncols new) = grown (readFile file) hwm ncols
    new := by
  obtain ⟨hlen, hm⟩ := oldEntries_intact hi
  rw [rewritten, hf, raise_of_not_lt (diskSeq_not_lt _ hwm new)]
  apply readManifest_grown hi hwm _ hn hlen hm
  rw [← hm, length_map] at hlt
  exact hlt

theorem writeAt_behind (a b data : Bytes) : writeAt (a++b) a.length data = a++(data++b.drop data.length) := by
  rw [writeAt, take_left, ← drop_drop, drop_left]

theorem writeAt_front {a : Bytes} {b : Bytes} {data : Bytes} (h : data.length = a.length) :
    writeAt (a++b) 0 data = data++b := by
  rw [writeAt, take_zero, nil_append, Nat.zero_add, h, drop_left]

theorem writeAt_nothing (bs : Bytes) : writeAt bs 0 [] = bs := by simp [writeAt]

structure Appendable (bs : Bytes) (front : Bytes) (es : List Bytes) (h : Header) : Prop where
  file : bs = front++es.flatten
  header : readIdxHeaderEx bs = some (front.length, h)
  entrySize : h.entrySize = 88
  count : h.count.toNat = es.length
  nonzero : h.count ≠ 0
  version : 2 ≤ h.version
  entries : ∀ e ∈ es, e.length = 88
  length : bs.length = front.length+es.length*88

section
variable {bs front : Bytes} {es : List Bytes} {h : Header}

theorem appendable_some {w : Writer} {n hsz : ℕ} {ncols : UInt16} {hdr : Bytes}
    (ha : appendable bs w n ncols = some (hsz, hdr)) :
    ∃ front es h, Appendable bs front es h ∧ front.length = hsz ∧ hdr.length = hsz ∧
      hdr = headerBytes (w.covering h) (h.count+UInt32.ofNat n) ncols := by
  rw [appendable] at ha
  split_ifs at ha with hshort
  split at ha
  · cases ha
  rename_i size h hr
  split_ifs at ha with h0 hfit
  dsimp only at ha
  split_ifs at ha with hsize
  obtain ⟨rfl, rfl⟩ := Prod.mk.inj (Option.some.inj ha)
  rw [not_or, not_not] at h0
  rw [not_not] at hfit hsize
  obtain ⟨-, -, -, hat⟩ := readIdxHeaderEx_some hr
  have hv : 2 ≤ h.version := by
    have hesz := h0.2
    rw [hat] at hesz ⊢
    simp only [headerAt] at hesz ⊢
    split_ifs at hesz <;> omega
  have hroom : h.count.toNat*88 ≤ (bs.drop size).length := by
    rw [length_drop]
    omega
  obtain ⟨hlen, tail, htail⟩ := freadItems_split 88 _ _ hroom
  have hes := freadItems_length 88 h.count.toNat (bs.drop size)
  generalize freadItems 88 h.count.toNat (bs.drop size) = es at hlen htail hes
  have hflat : es.flatten.length = es.length*88 := flatten_length hes
  have hnil : tail = [] := by
    have := congrArg length htail
    rw [length_append, length_drop, hflat, hlen] at this
    exact eq_nil_of_length_eq_zero (by omega)
  have hfront : (bs.take size).length = size := by
    rw [length_take]
    omega
  refine ⟨bs.take size, es, h, ⟨?_, ?_, h0.2, hlen.symm, h0.1, hv, hes, ?_⟩, hfront, hsize, rfl⟩
  · rw [hnil, append_nil] at htail
    rw [← htail, take_append_drop]
  · rw [hfront]
    exact hr
  · rw [hfront, hlen]
    exact hfit

variable (ha : Appendable bs front es h)

include ha

theorem readManifest_longer (tail : Bytes) (k : ℕ) (ht : tail.length = k*88) :
    readManifest (front++(es.flatten++tail)) =
      ⟨es.map (readIdxEntry 88), h.totalRows,
        if 2 ≤ h.version ∧ h.count ≠ 0 then some (h.tsMin, h.tsMax) else none, h.maxSeq, h.ncols⟩ := by
  have hr := ha.header
  rw [ha.file] at hr
  rw [← ha.entrySize]
  apply readManifest_shape (readIdxHeaderEx_front hr) (by rw [ha.entrySize]; exact ha.entries) ha.count
  rw [ha.entrySize, length_append, length_append, flatten_length ha.entries, ht, ← Nat.add_mul]
  exact recover_longer _ _ k

theorem readManifest_itself : readManifest bs =
      ⟨es.map (readIdxEntry 88), h.totalRows,
        if 2 ≤ h.version ∧ h.count ≠ 0 then some (h.tsMin, h.tsMax) else none, h.maxSeq, h.ncols⟩ := by
  have hshape := readManifest_longer ha [] 0 rfl
  rw [append_nil, ← ha.file] at hshape
  exact hshape

theorem readManifest_named (hi : Intact (some bs)) (hwm : UInt64) (ncols : UInt16)
    {new : List Meta} (hn : new ≠ []) (hlt : es.length+new.length < 2^32) :
    readManifest
    (headerBytes ((flushed (some bs) hwm new).covering h) (h.count+UInt32.ofNat new.length) ncols++
      (es.flatten++(new.map writeIdxEntry).flatten)) = grown (readManifest bs) hwm ncols new := by
  have hm : es.map (readIdxEntry 88) = (readFile (some bs)).entries := by
    rw [readFile, readManifest_itself ha]
  have hcount : h.count+UInt32.ofNat new.length = UInt32.ofNat (es.length+new.length) := by
    rw [UInt32.ofNat_add, ← ha.count, UInt32.ofNat_toNat]
  rw [covering_flushed ha.header ha.nonzero ha.version, hcount, ← flatten_append]
  exact readManifest_grown hi hwm _ hn ha.entries hm hlt

variable {P : Bytes → Prop}

theorem rollback_safe {f : Faults} (hf : ∀ k, f.restore = some k → k = 0)
    (hold : ∀ (tail : Bytes) (k : ℕ), tail.length = k*88 → P (front++(es.flatten++tail)))
    (fr tail : Bytes) (k : ℕ) (hfr : fr.length = front.length) (ht : tail.length = k*88)
    (hnow : P (fr++(es.flatten++tail))) : ∀ s ∈ rollback f bs front.length (fr++(es.flatten++tail)), P s := by
  have hback : writeAt (fr++(es.flatten++tail)) 0 (bs.take front.length) = front++(es.flatten++tail) := by
    rw [ha.file, take_left]
    exact writeAt_front hfr.symm
  have hshort : ftruncate (front++(es.flatten++tail)) bs.length = front++(es.flatten++[]) := by
    rw [ftruncate, ha.file, ← append_assoc, take_left]
    simp
  intro s hs
  rw [rollback, hback] at hs
  cases hr : f.restore with
  | some j =>
    rw [hr] at hs
    dsimp only at hs
    rw [hf j hr, take_zero, writeAt_nothing, mem_singleton] at hs
    rw [hs]
    exact hnow
  | none =>
    rw [hr] at hs
    dsimp only at hs
    rw [hshort] at hs
    split_ifs at hs
    · rw [mem_singleton.mp hs]
      exact hold tail k ht
    rcases mem_pair.mp hs with rfl | rfl
    · exact hold tail k ht
    · exact hold [] 0 rfl

/-- Every file an append leaves has the old header in front of the old entries,
or is the new file. -/
theorem append_safe {f : Faults} (hf : f.Clean)
    (hold : ∀ (tail : Bytes) (k : ℕ), tail.length = k*88 → P (front++(es.flatten++tail)))
    {hdr : Bytes} (hlen : hdr.length = front.length) {entries : Bytes} {n : ℕ} (hn : entries.length = n*88)
    (hnew : P (hdr++(es.flatten++entries))) : ∀ s ∈ appendStates f bs front.length hdr entries, P s := by
  have h1 : ftruncate bs (bs.length+entries.length) = front++(es.flatten++replicate entries.length 0) := by
    rw [ftruncate, take_of_length_le (by omega), ← append_assoc, ← ha.file]
    simp
  have h2 : ∀ data : Bytes, writeAt (front++(es.flatten++replicate entries.length 0)) bs.length data =
      front++(es.flatten++(data++(replicate entries.length 0).drop data.length)) := by
    intro data
    rw [← append_assoc, ha.file, writeAt_behind, append_assoc]
  have h2len :
    ∀ k, (entries.take k++(replicate entries.length (0 : UInt8)).drop (entries.take k).length).length =
      n*88 := by
    intro k
    rw [← hn]
    simp
  have hfull : entries++(replicate entries.length (0 : UInt8)).drop entries.length = entries := by simp
  have hroll := rollback_safe ha hf.2.2 hold
  have hzero : P (front++(es.flatten++replicate entries.length 0)) := hold _ n (by simp [hn])
  have hwritten : P (front++(es.flatten++entries)) := hold entries n hn
  rw [appendStates, h1]
  rw [h2 entries, hfull]
  cases f.entries with
  | some k =>
    have hpart := hold _ n (h2len k)
    dsimp only
    rw [h2]
    exact forall_mem_cons.mpr ⟨hzero, forall_mem_cons.mpr ⟨hpart, hroll front _ n rfl (h2len k) hpart⟩⟩
  | none =>
    by_cases hsync : f.entriesSync = true
    · rw [if_pos hsync]
      have hback := hroll front entries n rfl hn hwritten
      exact forall_mem_cons.mpr ⟨hzero, forall_mem_cons.mpr ⟨hwritten, hback⟩⟩
    rw [if_neg hsync]
    -- the header either stays as it was or is written as a whole
    cases hh : f.header with
    | some k =>
      have hback := hroll front entries n rfl hn hwritten
      dsimp only
      rw [hf.2.1 k hh, take_zero, writeAt_nothing]
      exact forall_mem_cons.mpr ⟨hzero, forall_mem_cons.mpr ⟨hwritten,
        forall_mem_cons.mpr ⟨hwritten, hback⟩⟩⟩
    | none =>
      rw [writeAt_front hlen]
      split_ifs
      · have hback := hroll hdr entries n hlen hn hnew
        exact forall_mem_cons.mpr ⟨hzero, forall_mem_cons.mpr ⟨hwritten,
          forall_mem_cons.mpr ⟨hnew, hback⟩⟩⟩
      · exact forall_mem_cons.mpr ⟨hzero, forall_mem_cons.mpr ⟨hwritten,
          forall_mem_cons.mpr ⟨hnew, forall_mem_nil _⟩⟩⟩

omit ha

end

theorem append_named {bs front : Bytes} {es : List Bytes} (ha : Appendable bs front es h) {hdr : Bytes}
    (hlen : hdr.length = front.length) (entries : Bytes) :
    (appendStates Faults.none bs front.length hdr entries).getLast? = some (hdr++(es.flatten++entries)) := by
  have h1 : ftruncate bs (bs.length+entries.length) = bs++replicate entries.length 0 := by
    rw [ftruncate, take_of_length_le (by omega)]
    simp
  have h2 : writeAt (bs++replicate entries.length 0) bs.length entries = front++(es.flatten++entries) := by
    rw [writeAt_behind, ← append_assoc front, ← ha.file]
    simp
  simp [appendStates, Faults.none, h1, h2, writeAt_front hlen]

section
variable (f : Faults) (file : Option Bytes) (w : Writer) (ncols : UInt16) (new : List Meta)

theorem publish_cases : publishStates f file w ncols new = rewriteStates f file w ncols new ∨
    ∃ bs hsz hdr, file = some bs ∧ appendable bs w new.length ncols = some (hsz, hdr) ∧
      publishStates f file w ncols new = (appendStates f bs hsz hdr (new.map writeIdxEntry).flatten).map
      some := by
  cases file with
  | none => exact .inl rfl
  | some bs =>
    rw [publishStates]
    split_ifs
    · exact .inl rfl
    split
    · exact .inl rfl
    · rename_i hsz hdr ha
      exact .inr ⟨bs, hsz, hdr, rfl, ha, rfl⟩

end

section
variable {file : Option Bytes} {hwm : UInt64} {ncols : UInt16} {new : List Meta}

theorem append_grown (hi : Intact file) (hlt : (readFile file).entries.length+new.length < 2^32)
    (hn : new ≠ [])
    {bs : Bytes} {hsz : ℕ} {hdr : Bytes} (hfile : file = some bs)
    (ha : appendable bs (flushed file hwm new) new.length ncols = some (hsz, hdr)) :
    ∃ front es h, Appendable bs front es h ∧ front.length = hsz ∧ hdr.length = front.length ∧
      readManifest (hdr++(es.flatten++(new.map writeIdxEntry).flatten)) = grown (readFile file) hwm ncols
      new := by
  subst hfile
  obtain ⟨front, es, h, happ, hsz, hlen, rfl⟩ := appendable_some ha
  rw [readFile, readManifest_itself happ, length_map] at hlt
  exact ⟨front, es, h, happ, hsz, hlen.trans hsz.symm, readManifest_named happ hi hwm _ hn hlt⟩

/-- What a flush may leave: the old index, whole entries behind its own, or the new entries named by
a new header. -/
inductive Closed (f : Faults) (file : Option Bytes) (hwm : UInt64) (ncols : UInt16) (new : List Meta) :
    Option Bytes → Prop
  | same : Closed f file hwm ncols new file
  | rewritten : new ≠ [] →
    Closed f file hwm ncols new (some (rewritten f file (flushed file hwm new) ncols new))
  | behind (bs front : Bytes) (es : List Bytes) (h : Header) (tail : Bytes) (k : ℕ) : file = some bs →
    Appendable bs front es h → tail.length = k*88 →
    Closed f file hwm ncols new (some (front++(es.flatten++tail)))
  | appended (bs front : Bytes) (es : List Bytes) (h : Header) (hsz : ℕ) (hdr : Bytes) : new ≠ [] →
    file = some bs → Appendable bs front es h →
    appendable bs (flushed file hwm new) new.length ncols = some (hsz, hdr) →
    hdr = headerBytes ((flushed file hwm new).covering h) (h.count+UInt32.ofNat new.length) ncols →
    Closed f file hwm ncols new (some (hdr++(es.flatten++(new.map writeIdxEntry).flatten)))

variable {f : Faults}

theorem close_cases (hf : f.Clean) : ∀ s ∈ colWriterClose f file hwm ncols new,
    Closed f file hwm ncols new s := by
  intro s hs
  rw [colWriterClose] at hs
  split_ifs at hs with hnone
  · rw [mem_singleton.mp hs]
    exact .same
  have hn : new ≠ [] := fun h0 => hnone (.inr h0)
  rcases mem_cons.mp hs with rfl | hs
  · exact .same
  rcases publish_cases f _ _ _ new with hp | ⟨bs, hsz, hdr, hfile, ha, hp⟩
  · rw [hp, rewriteStates] at hs
    split_ifs at hs
    · simp at hs
    · rw [mem_singleton.mp hs]
      exact .rewritten hn
  obtain ⟨front, es, h, happ, hsize, hlen, hhdr⟩ := appendable_some ha
  rw [hp] at hs
  obtain ⟨b, hb, rfl⟩ := mem_map.mp hs
  rw [← hsize] at hb hlen
  refine append_safe (P := fun b => Closed f file hwm ncols new (some b)) happ hf ?_ hlen
    (by rw [flatten_length (by simp), length_map])
    (.appended bs front es h hsz hdr hn hfile happ ha hhdr) b hb
  intro tail k ht
  exact .behind bs front es h tail k hfile happ ht

theorem closed_reads {s : Option Bytes} (hi : Intact file) (hf : f.Clean)
    (hlt : (readFile file).entries.length+new.length < 2^32) (hc : Closed f file hwm ncols new s) :
    readFile s = readFile file ∨ new ≠ [] ∧ readFile s = grown (readFile file) hwm ncols new := by
  cases hc with
  | same => exact .inl rfl
  | rewritten hn => exact .inr ⟨hn, rewritten_grown f hf.1 _ hi hwm _ hn hlt⟩
  | behind bs front es h tail k hfile happ ht =>
    rw [hfile]
    exact .inl ((readManifest_longer happ _ k ht).trans (readManifest_itself happ).symm)
  | appended bs front es h hsz hdr hn hfile happ ha hhdr =>
    subst hfile
    rw [readFile, readManifest_itself happ, length_map] at hlt
    rw [hhdr]
    exact .inr ⟨hn, readManifest_named happ hi hwm _ hn hlt⟩

theorem close_atomic (hi : Intact file) (hf : f.Clean)
    (hlt : (readFile file).entries.length+new.length < 2^32) : ∀ s ∈ colWriterClose f file hwm ncols new,
      readFile s = readFile file ∨ readFile s = grown (readFile file) hwm ncols new := by
  intro s hs
  rcases closed_reads hi hf hlt (close_cases hf s hs) with h | ⟨-, h⟩
  · exact .inl h
  · exact .inr h

theorem close_complete (hi : Intact file) (hlt : (readFile file).entries.length+new.length < 2^32)
    (hn : new ≠ []) :
    ∃ s, (colWriterClose Faults.none file hwm ncols new).getLast? = some s ∧
      readFile s = grown (readFile file) hwm ncols new := by
  rw [colWriterClose, if_neg (by simp [Faults.none, hn])]
  rcases publish_cases _ _ _ _ new with hp | ⟨bs, hsz, hdr, hfile, ha, hp⟩
  · rw [hp]
    exact ⟨_, rfl, rewritten_grown _ rfl _ hi hwm _ hn hlt⟩
  obtain ⟨front, es, h, happ, rfl, hlen, hgrown⟩ := append_grown hi hlt hn hfile ha
  have hlast := append_named happ hlen (new.map writeIdxEntry).flatten
  rw [hp, getLast?_cons, getLast?_map, hlast]
  exact ⟨_, rfl, hgrown⟩

end

/-- A reader between any two writes of a close sees the old index or the complete new one, a close
without a fault ends with the new one, and extending the file in place gives the same index as
rewriting it. -/
theorem index_publish_atomic (f : Faults) (file : Option Bytes) (hwm : UInt64) (ncols : UInt16)
    (new : List Meta)
    (hi : Intact file) (hf : f.Clean) (hlt : (readFile file).entries.length+new.length < 2^32) :
    (∀ s ∈ colWriterClose f file hwm ncols new,
      readFile s = readFile file ∨ readFile s = grown (readFile file) hwm ncols new) ∧
    (new ≠ [] → ∃ s, (colWriterClose Faults.none file hwm ncols new).getLast? = some s ∧
      readFile s = grown (readFile file) hwm ncols new) ∧
    -- an index that can be extended in place, and the same index rewritten
    (∀ bs hsz hdr, file = some bs → appendable bs (flushed file hwm new) new.length ncols = some (hsz, hdr) →
      new ≠ [] → ∃ s, (appendStates Faults.none bs hsz hdr (new.map writeIdxEntry).flatten).getLast? =
      some s ∧
        readManifest s = readManifest (rewritten Faults.none file (flushed file hwm new) ncols new)) := by
  refine ⟨close_atomic hi hf hlt, close_complete hi hlt, ?_⟩
  intro bs hsz hdr hfile ha hn
  obtain ⟨front, es, h, happ, rfl, hlen, hgrown⟩ := append_grown hi hlt hn hfile ha
  refine ⟨_, append_named happ hlen _, ?_⟩
  rw [hgrown, rewritten_grown _ rfl _ hi hwm _ hn hlt]

def oneRow (ts : Int64) (ord : UInt32) : Meta := ⟨0, 8, 1, ts, ts, 0, Stats.absent, some ord⟩

def oneBlock : Bytes := rewritten Faults.none none (flushed none 0 [oneRow 5 0]) 2 [oneRow 5 0]

def syncFails : Faults := { Faults.none with headerSync := true }

theorem index_publish_atomic_rolled_back : Intact (some oneBlock) ∧ syncFails.Clean ∧
    ∀ s ∈ colWriterClose syncFails (some oneBlock) 0 2 [oneRow 7 1],
      readFile s = readFile (some oneBlock) ∨
      readFile s = grown (readFile (some oneBlock)) 0 2 [oneRow 7 1] := by
  have hi : Intact (some oneBlock) := by decide +kernel
  have hf : syncFails.Clean := ⟨rfl, by simp [syncFails, Faults.none], by simp [syncFails, Faults.none]⟩
  exact ⟨hi, hf, (index_publish_atomic _ _ 0 2 _ hi hf (by decide +kernel)).1⟩

def oneOfTwo : Bytes := writeIdxHeader 2 2 5 6 0 2++writeIdxEntry (oneRow 5 0)

/-- The block that is left is dropped when the next one is published. -/
theorem rewrite_drops_entries : readFile (some oneOfTwo) = ⟨[oneRow 5 0], 2, some (5, 6), 0, 2⟩ ∧
    ∃ s ∈ colWriterClose Faults.none (some oneOfTwo) 0 2 [oneRow 7 1],
    readFile s = ⟨[oneRow 7 1], 3, some (5, 7), 0, 2⟩ ∧
      readFile s ≠ grown (readFile (some oneOfTwo)) 0 2 [oneRow 7 1] := by
  refine ⟨by decide +kernel, some (rewritten Faults.none (some oneOfTwo)
    (flushed (some oneOfTwo) 0 [oneRow 7 1]) 2 [oneRow 7 1]), ?_⟩
  decide +kernel

end QEngine.IndexPublish

import QEngine.ReplicatedBatches
import QEngine.ByteStreams
import QEngine.AdaptiveCodec

/-!
# A redo record and its replay

The rows of a commit are written column by column behind a sequence number and a
count, with the id of the batch at the end.
-/

namespace QEngine.RedoRecords
open List ByteFields ByteStreams ReplicatedBatches
open AdaptiveCodec (ColumnType)

inductive Cell where
  | bits (v : UInt64)
  | text (s : Bytes)
  deriving DecidableEq

structure Row where
  ts : UInt64
  cells : List Cell
  deriving DecidableEq

def Cell.Fits : ColumnType → Cell → Prop
  | .symbol, .text s => s.length < 2^32
  | .symbol, .bits _ => False
  | _, .bits _ => True
  | _, .text _ => False

def Cell.bytes : Cell → Bytes
  | .bits v => leBytes 8 v.toNat
  | .text s => leBytes 4 s.length++s

def Row.bytes (r : Row) : Bytes := leBytes 8 r.ts.toNat++r.cells.flatMap Cell.bytes

def trailer (id : Id) : Bytes := leBytes 4 trailerMagic++(leBytes 8 id.1++leBytes 8 id.2)

def idBytes (id : Id) : Bytes := if id.1 ≠ 0 ∧ id.2 ≠ 0 then trailer id else []

def redoSerialize (seq : UInt64) (rows : List Row) (id : Id) : Bytes :=
  leBytes 8 seq.toNat++(leBytes 4 rows.length++(rows.flatMap Row.bytes++idBytes id))

inductive Err where
  | corrupt
  | schema
  deriving DecidableEq

def take (n : ℕ) (bs : Bytes) : Except Err (Bytes × Bytes) := (next n bs).elim (.error .corrupt) .ok

def walkCell (t : ColumnType) (bs : Bytes) : Except Err (Cell × Bytes) :=
  if t = .symbol then do
    let (len, bs) ← take 4 bs
    let (s, bs) ← take (leValue len) bs
    pure (.text s, bs)
  else do
    let (v, bs) ← take 8 bs
    pure (.bits (UInt64.ofNat (leValue v)), bs)

/-- A cell that is neither text nor a double is set by the call for INT64 columns. -/
def applyCell (t : ColumnType) (bs : Bytes) : Except Err (Cell × Bytes) := do
  let r ← walkCell t bs
  if t = .timestamp then throw .schema else pure r

section
variable (cell : ColumnType → Bytes → Except Err (Cell × Bytes)) (cols : List ColumnType)

def readCells : List ColumnType → Bytes → Except Err (List Cell × Bytes)
  | [], bs => pure ([], bs)
  | t::ts, bs => do
    let (c, bs) ← cell t bs
    let (cs, bs) ← readCells ts bs
    pure (c::cs, bs)

def readRows : ℕ → Bytes → Except Err (List Row × Bytes)
  | 0, bs => pure ([], bs)
  | n+1, bs => do
    let (ts, bs) ← take 8 bs
    let (cs, bs) ← readCells cell cols bs
    let (rows, bs) ← readRows n bs
    pure (⟨UInt64.ofNat (leValue ts), cs⟩::rows, bs)

end

def redoCutoff (checkpoint : UInt64 → ℕ) (rows : List Row) : ℕ :=
  let least := rows.foldl (fun c r => min c (checkpoint r.ts)) (2^64-1)
  if least = 2^64-1 then 0 else least

def redoRecCutoff (checkpoint : UInt64 → ℕ) (cols : List ColumnType) (nrows : ℕ) (body : Bytes) : Option ℕ :=
  match readRows walkCell cols nrows body with
  | .ok (rows, rest) =>
    if rest = [] ∨ (rest.length = 20 ∧ leValue (rest.take 4) = trailerMagic) then
      some (redoCutoff checkpoint rows) else none
  | .error _ => none

def redoRecCutoffFallback (checkpoint : UInt64 → ℕ) (nrows : ℕ) (bs : Bytes) : ℕ :=
  if nrows = 0 ∨ bs.length < 20 then 0 else checkpoint (UInt64.ofNat (leValue ((bs.drop 12).take 8)))

/-- The rows put back; the ledger is empty, so the record is no duplicate. -/
def redoReplayApply (checkpoint : UInt64 → ℕ) (cols : List ColumnType) (bs : Bytes) : Except Err (List Row) :=
  if bs.length < 12 then pure []
  else
    let nrows := leValue ((bs.drop 8).take 4)
    let cut := redoRecCutoff checkpoint cols nrows (bs.drop 12)
    if leValue (bs.take 8) ≤ cut.getD (redoRecCutoffFallback checkpoint nrows bs) then pure []
    else if cut = none then throw .corrupt
    else Prod.fst <$> readRows applyCell cols nrows (bs.drop 12)

theorem take_written {xs : Bytes} {n : ℕ} (h : xs.length = n) (rest : Bytes) :
    take n (xs++rest) = .ok (xs, rest) := by
  rw [take, next_written xs rest h]
  rfl

theorem walkCell_written {t : ColumnType} {c : Cell} (h : c.Fits t) (rest : Bytes) :
    walkCell t (c.bytes++rest) = .ok (c, rest) := by
  have h8 (v : UInt64) := leValue_leBytes 8 _ v.toNat_lt
  cases c with
  | bits v =>
    have ht : t ≠ .symbol := by rintro rfl; exact h
    rw [walkCell, if_neg ht, Cell.bytes, take_written (leBytes_length _ _)]
    simp [bind, Except.bind, pure, Except.pure, h8]
  | text s =>
    obtain rfl : t = .symbol := by cases t <;> first | rfl | cases h
    have hs : s.length < 2^32 := h
    rw [walkCell, if_pos rfl, Cell.bytes, append_assoc, take_written (leBytes_length _ _)]
    simp [bind, Except.bind, pure, Except.pure, leValue_leBytes 4 _ hs, take_written]

section
variable {cell : ColumnType → Bytes → Except Err (Cell × Bytes)} {cols : List ColumnType}
  (hc : ∀ t ∈ cols, ∀ c : Cell, c.Fits t → ∀ rest, cell t (c.bytes++rest) = .ok (c, rest))
include hc

theorem readCells_written {cs : List Cell} (h : Forall₂ (fun t c => c.Fits t) cols cs) (rest : Bytes) :
    readCells cell cols (cs.flatMap Cell.bytes++rest) = .ok (cs, rest) := by
  induction h with
  | nil => rfl
  | cons hf _ ih =>
    obtain ⟨ht, hts⟩ := forall_mem_cons.mp hc
    rw [flatMap_cons, append_assoc, readCells, ht _ hf]
    simp [bind, Except.bind, pure, Except.pure, ih hts]

theorem readRows_written {rows : List Row} (h : ∀ r ∈ rows, Forall₂ (fun t c => c.Fits t) cols r.cells)
    (rest : Bytes) :
    readRows cell cols rows.length (rows.flatMap Row.bytes++rest) = .ok (rows, rest) := by
  induction rows with
  | nil => rfl
  | cons r rows ih =>
    obtain ⟨hr, hrs⟩ := forall_mem_cons.mp h
    have h8 := leValue_leBytes 8 _ r.ts.toNat_lt
    rw [flatMap_cons, Row.bytes, append_assoc, append_assoc, length_cons, readRows,
      take_written (leBytes_length _ _)]
    simp [bind, Except.bind, pure, Except.pure, readCells_written hc hr, ih hrs, h8]

end

theorem applyCell_written {t : ColumnType} {c : Cell} (h : c.Fits t) (rest : Bytes) :
    applyCell t (c.bytes++rest) = if t = .timestamp then .error .schema else .ok (c, rest) := by
  rw [applyCell, walkCell_written h]
  rfl

theorem applyCells_refused {cols : List ColumnType} {cs : List Cell}
    (h : Forall₂ (fun t c => c.Fits t) cols cs) (ht : .timestamp ∈ cols) (rest : Bytes) :
    readCells applyCell cols (cs.flatMap Cell.bytes++rest) = .error .schema := by
  induction h with
  | nil => cases ht
  | @cons t c ts cs hf _ ih =>
    rw [flatMap_cons, append_assoc, readCells, applyCell_written hf]
    by_cases he : t = .timestamp
    · rw [if_pos he]
      rfl
    · rw [if_neg he]
      simp [bind, Except.bind, ih ((mem_cons.mp ht).resolve_left (Ne.symm he))]

theorem applyRows_refused {cols : List ColumnType} {rows : List Row} (ht : .timestamp ∈ cols)
    (hne : rows ≠ []) (h : ∀ r ∈ rows, Forall₂ (fun t c => c.Fits t) cols r.cells) (rest : Bytes) :
    readRows applyCell cols rows.length (rows.flatMap Row.bytes++rest) = .error .schema := by
  obtain ⟨r, rows, rfl⟩ := exists_cons_of_ne_nil hne
  rw [flatMap_cons, Row.bytes, append_assoc, append_assoc, length_cons, readRows,
    take_written (leBytes_length _ _)]
  simp [bind, Except.bind, applyCells_refused (h r mem_cons_self) ht]

/-- What replay makes of a written record that no checkpoint covers. -/
theorem replay_written {checkpoint : UInt64 → ℕ} {cols : List ColumnType} {rows : List Row} {seq : UInt64}
    (id : Id) (hr : ∀ r ∈ rows, Forall₂ (fun t c => c.Fits t) cols r.cells) (hn : rows.length < 2^32)
    (hs : redoCutoff checkpoint rows < seq.toNat) :
    redoReplayApply checkpoint cols (redoSerialize seq rows id) =
      Prod.fst <$> readRows applyCell cols rows.length (rows.flatMap Row.bytes++idBytes id) := by
  have h8 := leValue_leBytes 8 _ seq.toNat_lt
  have h4 := leValue_leBytes 4 _ hn
  have hw := readRows_written (fun t _ c hf => walkCell_written hf) hr (idBytes id)
  have hcut : redoRecCutoff checkpoint cols rows.length (rows.flatMap Row.bytes++idBytes id) =
      some (redoCutoff checkpoint rows) := by
    rw [redoRecCutoff, hw]
    refine if_pos ?_
    rw [idBytes]
    split_ifs
    · simp [trailer, leValue_leBytes 4 trailerMagic (by decide)]
    · simp
  have h12 (x : Bytes) : (leBytes 8 seq.toNat++(leBytes 4 rows.length++x)).drop 12 = x := by
    rw [← append_assoc, drop_left' (by simp)]
  rw [redoReplayApply, redoSerialize, if_neg (by simp only [length_append, leBytes_length]; omega)]
  dsimp only
  rw [h12, take_left' (leBytes_length _ _), drop_left' (leBytes_length _ _),
    take_left' (leBytes_length _ _), h8, h4, hcut,
    Option.getD_some, if_neg (not_le.mpr hs), if_neg (Option.some_ne_none _)]

/-- Replay puts the rows of a record back exactly when there are none or the designated column is the
only TIMESTAMP column. -/
theorem redo_round_trip {checkpoint : UInt64 → ℕ} {cols : List ColumnType} {rows : List Row} {seq : UInt64}
    (id : Id) (hr : ∀ r ∈ rows, Forall₂ (fun t c => c.Fits t) cols r.cells) (hn : rows.length < 2^32)
    (hs : redoCutoff checkpoint rows < seq.toNat) :
    redoReplayApply checkpoint cols (redoSerialize seq rows id) = .ok rows ↔ .timestamp ∉ cols ∨
    rows = [] := by
  rw [replay_written id hr hn hs]
  constructor
  · intro h
    by_contra hc
    obtain ⟨ht, hne⟩ := not_or.mp hc
    rw [applyRows_refused (not_not.mp ht) hne hr] at h
    cases h
  · rintro (ht | rfl)
    · have hcell : ∀ t ∈ cols, ∀ c : Cell, c.Fits t → ∀ rest, applyCell t (c.bytes++rest) = .ok (c, rest) :=
        fun t hm c hf rest => (applyCell_written hf rest).trans (if_neg (ne_of_mem_of_not_mem hm ht))
      rw [readRows_written hcell hr]
      rfl
    · rfl

theorem redo_round_trip_row : redoReplayApply (fun _ => 0)
    [.int64, .symbol] (redoSerialize 1 [⟨5, [.bits 9, .text [97]]⟩] (7, 1)) =
    .ok [⟨5, [.bits 9, .text [97]]⟩] :=
  (@redo_round_trip (fun _ => 0) [.int64, .symbol] [⟨5, [.bits 9, .text [97]]⟩] 1 (7, 1)
    (forall_mem_singleton.mpr (.cons trivial (.cons (by decide : 1 < 2^32) .nil))) (by decide)
      (by decide)).mpr (.inl (by decide))

theorem second_timestamp_refused : redoReplayApply (fun _ => 0)
    [.timestamp] (redoSerialize 1 [⟨5, [.bits 9]⟩] (0, 0)) =
    .error .schema := by
  decide

end QEngine.RedoRecords

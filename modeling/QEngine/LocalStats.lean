import QEngine.Aggregates

/-!
# The local row count and newest time of a table

The rows on disk are counted from the index `ts.idx` of each partition, in every data
directory, and those in memory from the first column of the memtable, read as 64-bit
integers. An index that is absent or cannot be read and a snapshot that fails are skipped.
-/

namespace QEngine.LocalStats
open List QueryTables Aggregates

variable {n : ℕ} (s : Schema n)

structure Entry (n : ℕ) where
  name : String
  rows : List (Row n)
  readable : Bool
  visible : rows ≠ [] → name.front ≠ '.'

def newest (rows : List (Row n)) : Int64 := maxI64 (rows.map s.time)

/-- Each column of a partition has an index with the number of rows and their newest time. -/
def partIdxProbe (e : Entry n) (file : String) : Option (ℕ × Int64) :=
  if e.readable ∧ e.rows ≠ [] ∧ ∃ c, file = (s.cols c).name++".idx" then
    some (e.rows.length, newest s e.rows) else none

def addEntry (acc : ℕ × Int64) (e : Entry n) : ℕ × Int64 :=
  if e.name.front = '.' then acc
  else
    match partIdxProbe s e "ts.idx" with
    | none => acc
    | some (rows, fmax) => (acc.1+rows, if 0 < rows ∧ acc.2 < fmax then fmax else acc.2)

/-- Column 0 read as 64-bit words: two codes of a symbol column make one, behind the last the heap's. -/
def firstColumn (heap : ℕ → UInt32) (c : Fin n) (mem : List (Row n)) : List Int64 :=
  if (s.cols c).type = .symbol then
    let code (i : ℕ) : UInt32 := (mem[i]?.map fun r => r.code c).getD (heap i)
    (List.range mem.length).map fun i => ((code (2*i)).toUInt64 ||| (code (2*i+1)).toUInt64 <<< 32).toInt64
  else mem.map fun r => r.int c

/-- `snapshot` says whether the memtable could be copied. -/
def localTableStats (heap : ℕ → UInt32) (snapshot : Bool) (dirs : List (List (Entry n)))
    (mem : List (Row n)) : ℕ × Int64 :=
  let acc := dirs.flatten.foldl (addEntry s) (0, Int64.minValue)
  if h : 0 < n then
    if snapshot then (acc.1+mem.length, (firstColumn s heap ⟨0, h⟩ mem).foldl tsHigh acc.2) else acc
  else acc

def tableRows (dirs : List (List (Entry n))) (mem : List (Row n)) : List (Row n) :=
    dirs.flatten.flatMap Entry.rows++mem

variable {s}

theorem tsHigh_toInt (a b : Int64) : (tsHigh a b).toInt = max a.toInt b.toInt := by
  unfold tsHigh
  split
  · rw [max_eq_right (Int64.lt_iff_toInt_lt.mp ‹_›).le]
  · rw [max_eq_left (not_lt.mp fun h => ‹¬_› (Int64.lt_iff_toInt_lt.mpr h))]

instance tsHigh_assoc : Std.Associative tsHigh :=
  ⟨fun a b c => Int64.toInt_inj.mp (by simp only [tsHigh_toInt, max_assoc])⟩

theorem tsHigh_least (a : Int64) : tsHigh a Int64.minValue = a :=
  Int64.toInt_inj.mp ((tsHigh_toInt a _).trans (max_eq_left (Int64.le_toInt a)))

theorem tsHigh_newest (m : Int64) (rows : List (Row n)) :
    tsHigh m (newest s rows) = (rows.map s.time).foldl tsHigh m := by
  rw [newest, maxI64, ← @foldl_assoc _ tsHigh, tsHigh_least]

/-- The rows that `ts.idx` accounts for. -/
def Counted (s : Schema n) (e : Entry n) : Prop := e.rows = [] ∨ e.readable = true ∧
    ∃ c, (s.cols c).name = "ts"

instance (e : Entry n) : Decidable (Counted s e) := inferInstanceAs (Decidable (_ ∨ _))

theorem idx_name {x : String} : "ts.idx" = x++".idx" ↔ x = "ts" := by
  rw [show "ts.idx" = "ts"++".idx" from rfl, String.append_left_inj, eq_comm]

theorem addEntry_counted {e : Entry n} (h : Counted s e) (acc : ℕ × Int64) :
    addEntry s acc e = (acc.1+e.rows.length, (e.rows.map s.time).foldl tsHigh acc.2) := by
  by_cases hr : e.rows = []
  · simp [addEntry, partIdxProbe, hr]
  obtain ⟨hread, c, hc⟩ := h.resolve_left hr
  rw [addEntry, if_neg (e.visible hr), partIdxProbe, if_pos ⟨hread, hr, c, idx_name.mpr hc⟩, ← tsHigh_newest]
  simp [tsHigh, length_pos_iff.mpr hr]

theorem addEntry_skipped {e : Entry n} (h : ¬ Counted s e) (acc : ℕ × Int64) : addEntry s acc e = acc := by
  have hno : ¬ (e.readable = true ∧ e.rows ≠ [] ∧ ∃ c, "ts.idx" = (s.cols c).name++".idx") := by
    rintro ⟨hread, -, c, hc⟩
    exact h (.inr ⟨hread, c, idx_name.mp hc⟩)
  rw [addEntry, partIdxProbe, if_neg hno]
  split <;> rfl

theorem entries_fold (es : List (Entry n)) (acc : ℕ × Int64) : es.foldl (addEntry s) acc =
    (acc.1+((es.filter fun e => Counted s e).flatMap Entry.rows).length,
      (((es.filter fun e => Counted s e).flatMap Entry.rows).map s.time).foldl tsHigh acc.2) := by
  induction es generalizing acc with
  | nil => rfl
  | cons e es ih =>
    rw [foldl_cons, ih]
    by_cases he : Counted s e
    · rw [addEntry_counted he, filter_cons_of_pos (by simpa using he), flatMap_cons, length_append,
        map_append, foldl_append, add_assoc]
    · rw [addEntry_skipped he, filter_cons_of_neg (by simpa using he)]

theorem counted_length (es : List (Entry n)) :
    ((es.filter fun e => Counted s e).flatMap Entry.rows).length ≤ (es.flatMap Entry.rows).length ∧
      (((es.filter fun e => Counted s e).flatMap Entry.rows).length = (es.flatMap Entry.rows).length →
        ∀ e ∈ es, Counted s e) := by
  induction es with
  | nil => simp
  | cons e es ih =>
    by_cases he : Counted s e
    · rw [filter_cons_of_pos (by simpa using he), flatMap_cons, flatMap_cons, length_append, length_append,
        forall_mem_cons]
      exact ⟨by omega, fun h => ⟨he, ih.2 (by omega)⟩⟩
    · have hpos : 0 < e.rows.length := length_pos_iff.mpr fun h => he (.inl h)
      rw [filter_cons_of_neg (by simpa using he), flatMap_cons, length_append]
      exact ⟨by omega, fun h => by omega⟩

/-- Everything is counted, and column 0 of the memtable, read as integers, changes the newest time as the
designated column does. -/
structure Sound (s : Schema n) (heap : ℕ → UInt32) (snapshot : Bool) (dirs : List (List (Entry n)))
    (mem : List (Row n)) :
    Prop where
  counted : ∀ e ∈ dirs.flatten, Counted s e
  copied : snapshot = true ∨ mem = []
  first : tsHigh (newest s (dirs.flatten.flatMap Entry.rows))
    (maxI64 (firstColumn s heap ⟨0, s.tsCol.pos⟩ mem)) =
    tsHigh (newest s (dirs.flatten.flatMap Entry.rows)) (newest s mem)

theorem foldl_tsHigh (m : Int64) (xs : List Int64) : xs.foldl tsHigh m = tsHigh m (maxI64 xs) := by
  rw [maxI64, ← @foldl_assoc _ tsHigh, tsHigh_least]

/-- A table whose time column is the first and named `ts` is sound if all can be read. -/
theorem sound_ts {heap : ℕ → UInt32} {dirs : List (List (Entry n))} {mem : List (Row n)}
    (hn : (s.cols s.tsCol).name = "ts") (h0 : s.tsCol.val = 0) (hr : ∀ e ∈ dirs.flatten, e.readable = true) :
    Sound s heap true dirs mem := by
  have hc : (⟨0, s.tsCol.pos⟩ : Fin n) = s.tsCol := Fin.ext h0.symm
  refine ⟨fun e he => .inr ⟨hr e he, s.tsCol, hn⟩, .inl rfl, ?_⟩
  rw [hc, firstColumn, if_neg (by simp [s.timed])]
  rfl

def timeFirst : Schema 1 := ⟨fun _ => ⟨"time", .timestamp, []⟩, 0, rfl⟩

def oneDay : Entry 1 := ⟨"19700101", [fun _ => 5], true, fun _ => by decide⟩

end QEngine.LocalStats

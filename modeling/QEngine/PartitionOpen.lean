import QEngine.ColumnAlignment

/-!
# Opening a partition

Opening a partition reads the indexes, the timestamps first, drops entries whose
blocks are not in the data file, cuts the partition down to the blocks that every full
column still has, and aligns each other column with the timestamps.
-/

namespace QEngine.PartitionOpen
open List ByteFields IndexFiles ColumnAlignment

structure ColumnFile where
  idx : Option Bytes
  data : Bytes

structure Partition where
  cols : List ColumnFile
  tsIdx : ℕ

def ColumnFile.entries (c : ColumnFile) : List Meta := (readFile c.idx).entries

def Partition.col (p : Partition) (ci : ℕ) : ColumnFile := p.cols[ci]?.getD ⟨none, []⟩

def Partition.ts (p : Partition) : ColumnFile := p.col p.tsIdx

def ColumnFile.readable (c : ColumnFile) : List Meta :=
  if c.data = [] then []
  else c.entries.filter fun e => decide ((e.offset+32+e.size.toUInt64).toNat ≤ c.data.length)

/-- How many blocks every column has that declares as many as the timestamps. -/
def durablePrefix (p : Partition) : ℕ :=
  (List.range p.cols.length).foldl (fun n ci =>
    if ci ≠ p.tsIdx ∧ p.ts.entries.length ≤ (p.col ci).entries.length ∧ (p.col ci).readable.length < n then
      (p.col ci).readable.length
    else n) p.ts.readable.length

def openTs (p : Partition) : List Meta := p.ts.readable.take (durablePrefix p)

def openColumn (p : Partition) (ci : ℕ) : List Meta :=
  if durablePrefix p < p.ts.readable.length ∧ p.ts.entries.length ≤ (p.col ci).entries.length then
    (p.col ci).readable.take (durablePrefix p)
  else (p.col ci).readable

/-- A column without blocks was added later, unless a column to its right has
blocks, or the timestamps were written when the column existed. -/
def lateAdd (counts : List ℕ) (stamp : UInt16) (ci : ℕ) : Bool :=
  (counts.drop (ci+1)).all (fun n => decide (n = 0)) && !decide (stamp ≠ 0 ∧ ci < stamp.toNat)

def columnSlots (p : Partition) (ci : ℕ) : List Slot :=
  alignColumn
    (decide ((p.col ci).entries.length = 0) &&
      lateAdd (p.cols.map fun c => c.entries.length) (readFile p.ts.idx).ncols ci)
    (openTs p) (openColumn p ci)

def Untorn (p : Partition) : Prop := ∀ c ∈ p.cols, c.readable = c.entries

instance (p : Partition) : Decidable (Untorn p) :=
    inferInstanceAs (Decidable (∀ c ∈ p.cols, c.readable = c.entries))

section
variable {p : Partition} (hu : Untorn p)
include hu

theorem untorn_col (ci : ℕ) : (p.col ci).readable = (p.col ci).entries := by
  rw [Partition.col]
  cases h : p.cols[ci]? with
  | none => rfl
  | some c => exact hu c (mem_of_getElem? h)

theorem durablePrefix_untorn : durablePrefix p = p.ts.entries.length := by
  have hkeep : ∀ cis : List ℕ, cis.foldl (fun n ci =>
      if ci ≠ p.tsIdx ∧ p.ts.entries.length ≤ (p.col ci).entries.length ∧ (p.col ci).readable.length < n then
        (p.col ci).readable.length
      else n) p.ts.entries.length = p.ts.entries.length := by
    intro cis
    induction cis with
    | nil => rfl
    | cons ci cis ih =>
      rw [foldl_cons, untorn_col hu ci, if_neg (by omega)]
      exact ih
  rw [durablePrefix, Partition.ts, untorn_col hu _]
  exact hkeep _

theorem untorn_openTs : openTs p = p.ts.entries := by
  rw [openTs, durablePrefix_untorn hu, Partition.ts, untorn_col hu _, take_length]

theorem untorn_openColumn (ci : ℕ) : openColumn p ci = (p.col ci).entries := by
  have hts : p.ts.readable = p.ts.entries := untorn_col hu _
  rw [openColumn, durablePrefix_untorn hu, hts, if_neg (by omega)]
  exact untorn_col hu ci

end

end QEngine.PartitionOpen

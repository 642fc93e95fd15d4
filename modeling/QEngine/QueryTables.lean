import Mathlib.Data.List.MinMax
import Mathlib.Data.Fin.VecNotation
import Mathlib.Tactic.Linarith

/-!
# Tables as a query reads them

A row is a cell of 64 bits for each column. A query reads a table through the blocks
of its partitions, in the order of the directory names, and a copy of the memtable.
-/

namespace QEngine.QueryTables
open List

inductive Code where
  | parse
  | schema
  | unsupported
  | notFound
  | corrupt
  | overflow
  | noMemory
  | io
  | invalid
  | internal
  deriving DecidableEq

structure Failure where
  code : Code
  text : String
  deriving DecidableEq

inductive ColType where
  | int64
  | timestamp
  | float64
  | float32
  | symbol
  deriving DecidableEq

def qcoltype : ColType → ColType
  | .float32 => .float64
  | t => t

structure Column where
  name : String
  type : ColType
  symtab : List String
  deriving DecidableEq

structure Schema (n : ℕ) where
  cols : Fin n → Column
  tsCol : Fin n
  timed : (cols tsCol).type = .timestamp

abbrev Row (n : ℕ) := Fin n → UInt64

namespace Row

variable {n : ℕ}

def int (r : Row n) (c : Fin n) : Int64 := (r c).toInt64

def double (r : Row n) (c : Fin n) : Float := Float.ofBits (r c)

def code (r : Row n) (c : Fin n) : UInt32 := (r c).toUInt32

end Row

section Columns

variable {n : ℕ}

def Schema.time (s : Schema n) (r : Row n) : Int64 := r.int s.tsCol

def resolveCol (s : Schema n) (name : String) : Option (Fin n) :=
  (List.finRange n).find? fun c => (s.cols c).name = name

def symtabLookup (symtab : List String) (x : String) : Option UInt32 :=
  (symtab.findIdx? (· = x)).map UInt32.ofNat

end Columns

/-! ### The filter of a symbol block -/

def bloomFnv1a (v seed : UInt32) : UInt32 :=
  [v, v >>> 8, v >>> 16, v >>> 24].foldl (fun h b => (h ^^^ (b &&& 0xff))*0x01000193) seed

def bloomBits (v : UInt32) : List UInt64 :=
  let h0 := bloomFnv1a v 0x811c9dc5
  let h1 := bloomFnv1a v 0x01000193 ^^^ (h0 >>> 5)
  let h2 := bloomFnv1a v 0x6b432795 ^^^ (h0 >>> 11)
  [h0, h1, h2].map fun h => (1 : UInt64) <<< (h &&& 63).toUInt64

def bloomAdd (bloom : UInt64) (v : UInt32) : UInt64 := (bloomBits v).foldl (· ||| ·) bloom

def bloomTest (bloom : UInt64) (v : UInt32) : Bool := (bloomBits v).all fun b => bloom &&& b ≠ 0

def bloomOf (codes : List UInt32) : UInt64 := codes.foldl bloomAdd 0

variable {codes : List UInt32}

/-! ### Sources -/

/-- At a block of the time column: a block of the same rows, no block, one of other rows, or one
that does not decode. -/
inductive BlockState where
  | ready
  | short
  | mismatch
  | damaged
  deriving DecidableEq

structure Source {n : ℕ} (s : Schema n) where
  mem : Bool
  rows : List (Row n)
  tsMin : Int64
  tsMax : Int64
  state : Fin n → BlockState
  bloom : Fin n → Option UInt64
  stats : Fin n → Bool
  covered : ∀ r ∈ rows, tsMin ≤ s.time r ∧ s.time r ≤ tsMax
  screened : ∀ c b, bloom c = some b → b = bloomOf (rows.map fun r => r.code c)
  memReady : mem = true → ∀ c, state c = .ready

section Reading

variable {n : ℕ} {s : Schema n}

def range (src : Source s) : String :=
  "ts in ["++toString src.tsMin.toInt++","++toString src.tsMax.toInt++"]"

def scanLoadColBlock (src : Source s) (c : Fin n) : Except Failure Unit :=
  match src.state c with
  | .ready => .ok ()
  | .short => .error ⟨.corrupt, "column '"++(s.cols c).name++"' has no stored value for "++range src⟩
  | .mismatch =>
    .error ⟨.corrupt, "column '"++(s.cols c).name++"' block does not describe the rows of "++range src⟩
  | .damaged => .error ⟨.corrupt, ""⟩

def loadAll (src : Source s) : List (Fin n) → Except Failure Unit
  | [] => .ok ()
  | c::cs =>
    match scanLoadColBlock src c with
    | .ok () => loadAll src cs
    | .error f => .error f

def loadCols (need : Fin n → Bool) (src : Source s) : Except Failure Unit :=
  loadAll src ((List.finRange n).filter need)

variable {src : Source s}

theorem loadAll_ok (cs : List (Fin n)) :
    loadAll src cs = .ok () ↔ ∀ c ∈ cs, src.state c = .ready := by
  induction cs with
  | nil => simp [loadAll]
  | cons c cs ih =>
    rw [loadAll, forall_mem_cons, scanLoadColBlock]
    cases hc : src.state c <;> simp [ih]

theorem loadCols_ok {need : Fin n → Bool} :
    loadCols need src = .ok () ↔ ∀ c, need c = true → src.state c = .ready := by
  rw [loadCols, loadAll_ok]
  simp

end Reading

/-! ### Partitions and plans -/

structure TsRange where
  lo : Option Int64
  hi : Option Int64
  deriving DecidableEq

def TsRange.all : TsRange := ⟨none, none⟩

def TsRange.bounded (r : TsRange) : Bool := r.lo.isSome || r.hi.isSome

def tsRangeExcludes (r : TsRange) (tsMin tsMax : Int64) : Bool :=
  r.hi.any (fun hi => hi < tsMin) || r.lo.any (fun lo => tsMax < lo)

theorem any_mem {α : Type} {o : Option α} {p : α → Bool} (h : o.any p = true) : ∃ a ∈ o, p a = true := by
  cases o with
  | none => simp at h
  | some a => exact ⟨a, rfl, h⟩

structure Partition {n : ℕ} (s : Schema n) where
  blocks : List (Source s)
  opens : Bool
  lists : Bool
  zone : Option (Int64 × Int64)
  onDisk : ∀ b ∈ blocks, b.mem = false
  zoned : ∀ z, zone = some z → ∀ b ∈ blocks, z.1 ≤ b.tsMin ∧ b.tsMax ≤ z.2

/-- `listed` says that the directory of the table could be read; the partitions
stand in the order of their names. -/
structure Table {n : ℕ} (s : Schema n) where
  listed : Bool
  partitions : List (Partition s)
  memtable : Except Failure (List (Row n))

section Plans

variable {n : ℕ} {s : Schema n}

def listPartitions (t : Table s) : List (Partition s) := if t.listed then t.partitions else []

/-- A partition that does not open, or whose blocks are not found, is left out. -/
def planPart (prune : TsRange) (p : Partition s) : List (Source s) :=
  if p.opens = false then []
  else if prune.bounded && p.zone.any (fun z => tsRangeExcludes prune z.1 z.2) then []
  else if p.lists = false then []
  else p.blocks

def tsLow (t : Int64) (r : Int64) : Int64 := if r < t then r else t

def tsHigh (t : Int64) (r : Int64) : Int64 := if t < r then r else t

theorem foldl_tsLow (ts : List Int64) (a : Int64) : ts.foldl tsLow a ≤ a ∧ ∀ t ∈ ts,
    ts.foldl tsLow a ≤ t := by
  induction ts generalizing a with
  | nil => exact ⟨Int64.le_refl a, by simp⟩
  | cons t ts ih =>
    obtain ⟨h1, h2⟩ := ih (tsLow a t)
    have hs : tsLow a t ≤ a ∧ tsLow a t ≤ t := by
      simp only [tsLow, Int64.le_iff_toInt_le, Int64.lt_iff_toInt_lt]
      split <;> omega
    exact ⟨Int64.le_trans h1 hs.1, forall_mem_cons.mpr ⟨Int64.le_trans h1 hs.2, h2⟩⟩

theorem foldl_tsHigh (ts : List Int64) (a : Int64) : a ≤ ts.foldl tsHigh a ∧ ∀ t ∈ ts,
    t ≤ ts.foldl tsHigh a := by
  induction ts generalizing a with
  | nil => exact ⟨Int64.le_refl a, by simp⟩
  | cons t ts ih =>
    obtain ⟨h1, h2⟩ := ih (tsHigh a t)
    have hs : a ≤ tsHigh a t ∧ t ≤ tsHigh a t := by
      simp only [tsHigh, Int64.le_iff_toInt_le, Int64.lt_iff_toInt_lt]
      split <;> omega
    exact ⟨Int64.le_trans hs.1 h1, forall_mem_cons.mpr ⟨Int64.le_trans hs.2 h1, h2⟩⟩

theorem mem_covered (s : Schema n) (q : Row n) (rows : List (Row n)) :
    ∀ r ∈ rows, (rows.map s.time).foldl tsLow (s.time q) ≤ s.time r ∧
      s.time r ≤ (rows.map s.time).foldl tsHigh (s.time q) :=
  fun _ hr => ⟨(foldl_tsLow _ _).2 _ (mem_map_of_mem hr), (foldl_tsHigh _ _).2 _ (mem_map_of_mem hr)⟩

def memSource (s : Schema n) (q : Row n) (rows : List (Row n)) : Source s where
  mem := true
  rows := rows
  tsMin := (rows.map s.time).foldl tsLow (s.time q)
  tsMax := (rows.map s.time).foldl tsHigh (s.time q)
  state := fun _ => .ready
  bloom := fun _ => none
  stats := fun _ => false
  covered := mem_covered s q rows
  screened := fun _ _ h => absurd h (Option.some_ne_none _).symm
  memReady := fun _ _ => rfl

def memSources (s : Schema n) : List (Row n) → List (Source s)
  | [] => []
  | q::qs => [memSource s q (q::qs)]

def scanPlanBuild (t : Table s) (prune : TsRange) : Except Failure (List (Source s)) :=
  t.memtable.map fun rows => (listPartitions t).flatMap (planPart prune)++memSources s rows

end Plans

end QEngine.QueryTables

import QEngine.WhereFilters

/-!
# Aggregates

A sum of integers is added with a check and leaves a mark when it overflows; `first`
and `last` compare times row by row. The kernels for doubles and the t-digests are
parameters; functions of the user are left out.
-/

namespace QEngine.Aggregates
open QueryTables

structure Kernels where
  Digest : Type
  digestNew : Digest
  addBulk : Digest → List Float → Digest
  digestMerge : Digest → Digest → Digest
  digestCount : Digest → Float
  quantile : Digest → Float → Float
  stddev : Digest → Float
  sumF64 : List Float → Float
  minF64 : List Float → Float
  maxF64 : List Float → Float

inductive AggKind where
  | sum
  | avg
  | min
  | max
  | spread
  | count
  | percentile (q : Float)
  | stddev
  | first
  | last
  | lastRow
  | twa

def AggKind.digests : AggKind → Bool
  | .percentile _ => true
  | .stddev => true
  | _ => false

def AggKind.timed : AggKind → Bool
  | .first => true
  | .last => true
  | .lastRow => true
  | .twa => true
  | _ => false

structure AggState (k : Kernels) where
  sumF : Float
  sumI : Int64
  minF : Float
  maxF : Float
  minI : Int64
  maxI : Int64
  count : ℕ
  ovf : Bool
  digest : k.Digest
  tsFirst : Int64
  tsLast : Int64
  firstF : Float
  lastF : Float
  firstI : Int64
  lastI : Int64
  firstU : UInt32
  lastU : UInt32
  twaSum : Float
  twaLastTs : Int64
  twaLastV : Float

variable {k : Kernels}

def infinity : Float := Float.ofBits 0x7ff0000000000000

def nan : Float := Float.ofBits 0x7ff8000000000000

def aggInit (k : Kernels) : AggState k where
  sumF := 0
  sumI := 0
  minF := infinity
  maxF := -infinity
  minI := Int64.maxValue
  maxI := Int64.minValue
  count := 0
  ovf := false
  digest := k.digestNew
  tsFirst := Int64.maxValue
  tsLast := Int64.minValue
  firstF := 0
  lastF := 0
  firstI := 0
  lastI := 0
  firstU := 0
  lastU := 0
  twaSum := 0
  twaLastTs := -1
  twaLastV := 0

def addOverflow (a b : Int64) : Int64 × Bool := (a+b, (a+b).toInt ≠ a.toInt+b.toInt)

def sumI64 (xs : List Int64) : Int64 := xs.foldl (· + ·) 0

def minI64 (xs : List Int64) : Int64 := xs.foldl tsLow Int64.maxValue

def maxI64 (xs : List Int64) : Int64 := xs.foldl tsHigh Int64.minValue

def updateInts (kind : AggKind) (xs : List Int64) (st : AggState k) : AggState k :=
  match kind with
  | .sum => { st with
    sumI := (addOverflow st.sumI (sumI64 xs)).1
    ovf := st.ovf || (addOverflow st.sumI (sumI64 xs)).2
    count := st.count+xs.length }
  | .avg => { st with
    sumI := (addOverflow st.sumI (sumI64 xs)).1
    ovf := st.ovf || (addOverflow st.sumI (sumI64 xs)).2
    count := st.count+xs.length }
  | .min => { st with minI := tsLow st.minI (minI64 xs), count := st.count+xs.length }
  | .max => { st with maxI := tsHigh st.maxI (maxI64 xs), count := st.count+xs.length }
  | .spread => { st with
    minI := tsLow st.minI (minI64 xs)
    maxI := tsHigh st.maxI (maxI64 xs)
    count := st.count+xs.length }
  | _ => st

def updateDoubles (kind : AggKind) (xs : List Float) (st : AggState k) : AggState k :=
  match kind with
  | .sum => { st with sumF := st.sumF+k.sumF64 xs, count := st.count+xs.length }
  | .avg => { st with sumF := st.sumF+k.sumF64 xs, count := st.count+xs.length }
  | .min => { st with
    minF := if k.minF64 xs < st.minF then k.minF64 xs else st.minF
    count := st.count+xs.length }
  | .max => { st with
    maxF := if st.maxF < k.maxF64 xs then k.maxF64 xs else st.maxF
    count := st.count+xs.length }
  | .spread => { st with
    minF := if k.minF64 xs < st.minF then k.minF64 xs else st.minF
    maxF := if st.maxF < k.maxF64 xs then k.maxF64 xs else st.maxF
    count := st.count+xs.length }
  | _ => st

def asDouble (t : ColType) (v : UInt64) : Float :=
  match t with
  | .float64 => Float.ofBits v
  | _ => Float.ofInt v.toInt64.toInt

def keepFirst (t : ColType) (v : UInt64) (ts : Int64) (st : AggState k) : AggState k :=
  if ts < st.tsFirst then
    match t with
    | .float64 => { st with tsFirst := ts, firstF := Float.ofBits v }
    | .symbol => { st with tsFirst := ts, firstU := v.toUInt32 }
    | _ => { st with tsFirst := ts, firstI := v.toInt64 }
  else st

def keepLast (t : ColType) (v : UInt64) (ts : Int64) (st : AggState k) : AggState k :=
  if st.tsLast < ts then
    match t with
    | .float64 => { st with tsLast := ts, lastF := Float.ofBits v }
    | .symbol => { st with tsLast := ts, lastU := v.toUInt32 }
    | _ => { st with tsLast := ts, lastI := v.toInt64 }
  else st

def twaValue (t : ColType) (v : UInt64) : Float :=
  match t with
  | .symbol => 0
  | _ => asDouble t v

def twaStep (t : ColType) (v : UInt64) (ts : Int64) (st : AggState k) : AggState k := { st with
  twaSum := if 0 ≤ st.twaLastTs ∧ 0 < ts-st.twaLastTs
    then st.twaSum+twaValue t v*Float.ofInt (ts-st.twaLastTs).toInt else st.twaSum
  tsFirst := tsLow st.tsFirst ts
  tsLast := tsHigh st.tsLast ts
  twaLastTs := ts
  twaLastV := twaValue t v }

def timedStep (kind : AggKind) (t : ColType) (st : AggState k) (c : UInt64 × Int64) : AggState k :=
  match kind with
  | .twa => twaStep t c.1 c.2 st
  | _ => keepLast t c.1 c.2 (keepFirst t c.1 c.2 st)

def aggUpdateVals (kind : AggKind) (t : ColType) (cells : List (UInt64 × Int64)) (st : AggState k) :
    AggState k :=
  match kind with
  | .count => { st with count := st.count+cells.length }
  | _ =>
    if cells.isEmpty then st
    else if kind.digests then { st with digest := k.addBulk st.digest (cells.map fun c => asDouble t c.1) }
    else if kind.timed then cells.foldl (timedStep kind t) st
    else
      match t with
      | .float64 => updateDoubles kind (cells.map fun c => Float.ofBits c.1) st
      | .int64 => updateInts kind (cells.map fun c => c.1.toInt64) st
      | .timestamp => updateInts kind (cells.map fun c => c.1.toInt64) st
      | _ => st

structure Agg (n : ℕ) where
  kind : AggKind
  col : Option (Fin n)

section Rows

variable {n : ℕ} (s : Schema n)

def Agg.type (a : Agg n) : ColType := (a.col.map fun c => qcoltype (s.cols c).type).getD .int64

def aggUpdate (a : Agg n) (rows : List (Row n)) (st : AggState k) : AggState k :=
  match a.col with
  | some c => aggUpdateVals a.kind (a.type s) (rows.map fun r => (r c, s.time r)) st
  | none =>
    match a.kind with
    | .count => aggUpdateVals .count (a.type s) (rows.map fun r => (0, s.time r)) st
    | _ => st

def Agg.outType (a : Agg n) : ColType :=
  match a.kind with
  | .count => .int64
  | .percentile _ => .float64
  | .stddev => .float64
  | .avg => .float64
  | .twa => .float64
  | _ => (a.col.map fun c => qcoltype (s.cols c).type).getD .float64

end Rows

/-- An integer and a double are prepared, and the type of the column says which
of them is written. -/
def cell (out : ColType) (i : Int64) (f : Float) : UInt64 :=
  match out with
  | .int64 => i.toUInt64
  | .timestamp => i.toUInt64
  | _ => f.toBits

def aggWrite (kind : AggKind) (src out : ColType) (st : AggState k) : UInt64 :=
  match kind with
  | .count => cell out (Int64.ofNat st.count) 0
  | .sum => if src = .float64 then cell out 0 st.sumF else cell out st.sumI 0
  | .avg => cell out 0 (
    if st.count = 0 then nan
    else if src = .float64 then st.sumF/Float.ofNat st.count
    else Float.ofInt st.sumI.toInt/Float.ofNat st.count)
  | .min => if src = .float64 then cell out 0 st.minF else cell out st.minI 0
  | .max => if src = .float64 then cell out 0 st.maxF else cell out st.maxI 0
  | .spread =>
    if src = .float64 then cell out 0 (
      if st.count = 0 ∨ st.maxF == -infinity ∨ st.minF == infinity then nan else st.maxF-st.minF)
    else cell out (
      if st.count = 0 ∨ st.maxI = Int64.minValue ∨ st.minI = Int64.maxValue then 0 else st.maxI-st.minI) 0
  | .percentile q => cell out 0 (k.quantile st.digest q)
  | .stddev => cell out 0 (k.stddev st.digest)
  | .first =>
    if st.tsFirst = Int64.maxValue then cell out 0 nan
    else if src = .float64 then cell out 0 st.firstF
    else if src = .symbol then st.firstU.toUInt64
    else cell out st.firstI 0
  | .last =>
    if st.tsLast = Int64.minValue then cell out 0 nan
    else if src = .float64 then cell out 0 st.lastF
    else if src = .symbol then st.lastU.toUInt64
    else cell out st.lastI 0
  | .lastRow =>
    if st.tsLast = Int64.minValue then cell out 0 nan
    else if src = .float64 then cell out 0 st.lastF
    else if src = .symbol then st.lastU.toUInt64
    else cell out st.lastI 0
  | .twa => cell out 0 (
    if 0 < st.tsLast-st.tsFirst then st.twaSum/Float.ofInt (st.tsLast-st.tsFirst).toInt
    else if 0 ≤ st.twaLastTs then st.twaLastV else nan)

/-- A quantile of nothing is refused where the whole table is one group. -/
def digestGuard (checkEmpty : Bool) (kind : AggKind) (st : AggState k) : Except Failure Unit :=
  match kind with
  | .stddev => if checkEmpty && k.digestCount st.digest == 0 then
    .error ⟨.invalid, "stddev() over empty input"⟩ else .ok ()
  | .percentile _ => if checkEmpty && k.digestCount st.digest == 0 then
    .error ⟨.invalid, "percentile() over empty input"⟩ else .ok ()
  | _ => .ok ()

def overflowed : Failure := ⟨.overflow, "sum(int64) overflow"⟩

end QEngine.Aggregates

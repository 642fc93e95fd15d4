import QEngine.RowProjections

/-!
# Statistics of blocks

A block is written with the least, the greatest, the first and the last of its
values and their sum, each with a mark that says if it counts. A query of
aggregates without a condition takes these in place of the block where every
aggregate can be served from them.
-/

namespace QEngine.BlockStatistics
open List QueryTables WhereFilters SourceScans ScanPaths Aggregates RowProjections WordSums

structure BlockStats where
  min : UInt64
  max : UInt64
  sum : UInt64
  first : UInt64
  last : UInt64
  hasMinMax : Bool
  hasSum : Bool
  hasFirstLast : Bool

def noStats : BlockStats := ⟨0, 0, 0, 0, 0, false, false, false⟩

def sumStep (acc : ℤ × Bool) (x : Int64) : ℤ × Bool :=
  if acc.2 then (acc.1+x.toInt, decide (Fits (acc.1+x.toInt))) else acc

def intStats (t : ColType) (v : Int64) (vs : List Int64) : BlockStats where
  min := (vs.foldl tsLow v).toUInt64
  max := (vs.foldl tsHigh v).toUInt64
  sum := if (vs.foldl sumStep (v.toInt, true)).2 then
    (Int64.ofInt (vs.foldl sumStep (v.toInt, true)).1).toUInt64 else 0
  first := v.toUInt64
  last := (vs.getLastD v).toUInt64
  hasMinMax := true
  hasSum := (vs.foldl sumStep (v.toInt, true)).2 && t = .int64
  hasFirstLast := true

structure DoubleAcc where
  mn : Float
  mx : Float
  s : Float
  mnmxOk : Bool
  sumOk : Bool

def sumFinite (x : Float) : Bool := x == x && x < 1e308 && x > -1e308

def doubleStep (a : DoubleAcc) (x : Float) : DoubleAcc :=
  if !(x == x) then { a with mnmxOk := false }
  else
    { mn := if x < a.mn then x else a.mn
      mx := if x > a.mx then x else a.mx
      s := if a.sumOk then a.s+x else a.s
      mnmxOk := a.mnmxOk
      sumOk := a.sumOk && !(!(a.s+x == a.s+x) || a.s+x > 1e308 || a.s+x < -1e308) }

def doubleStats (v : Float) (vs : List Float) : BlockStats :=
  let a := vs.foldl doubleStep ⟨v, v, v, v == v, sumFinite v⟩
  { min := a.mn.toBits
    max := a.mx.toBits
    sum := a.s.toBits
    first := v.toBits
    last := (vs.getLastD v).toBits
    hasMinMax := a.mnmxOk
    hasSum := a.sumOk
    hasFirstLast := true }

def computeBlockStats (t : ColType) : List UInt64 → BlockStats
  | [] => noStats
  | v::vs =>
    match t with
    | .symbol => noStats
    | .timestamp => intStats t v.toInt64 (vs.map UInt64.toInt64)
    | .int64 => intStats t v.toInt64 (vs.map UInt64.toInt64)
    | .float64 => doubleStats (Float.ofBits v) (vs.map Float.ofBits)
    | .float32 => doubleStats (Float.ofBits v) (vs.map Float.ofBits)

inductive StatBits where
  | nothing
  | minMax
  | sum
  | firstLast
  deriving DecidableEq

/-- `none` for a kind that the statistics do not serve. -/
def aggStatsRequires : AggKind → Option StatBits
  | .count => some .nothing
  | .min => some .minMax
  | .max => some .minMax
  | .spread => some .minMax
  | .sum => some .sum
  | .avg => some .sum
  | .first => some .firstLast
  | .last => some .firstLast
  | _ => none

def BlockStats.has (b : BlockStats) : StatBits → Bool
  | .nothing => true
  | .minMax => b.hasMinMax
  | .sum => b.hasSum
  | .firstLast => b.hasFirstLast

section Applying

variable {k : Kernels}

def lowF (a x : Float) : Float := if x < a then x else a

def highF (a x : Float) : Float := if x > a then x else a

def aggApplyStats (kind : AggKind) (t : ColType) (b : BlockStats) (tsMin tsMax : Int64) (rows : ℕ)
    (st : AggState k) : AggState k :=
  match kind with
  | .count => { st with count := st.count+rows }
  | .min =>
    if t = .float64 then { st with minF := lowF st.minF (Float.ofBits b.min), count := st.count+rows }
    else { st with minI := tsLow st.minI b.min.toInt64, count := st.count+rows }
  | .max =>
    if t = .float64 then { st with maxF := highF st.maxF (Float.ofBits b.max), count := st.count+rows }
    else { st with maxI := tsHigh st.maxI b.max.toInt64, count := st.count+rows }
  | .spread =>
    if t = .float64 then { st with
      minF := lowF st.minF (Float.ofBits b.min)
      maxF := highF st.maxF (Float.ofBits b.max)
      count := st.count+rows }
    else { st with
      minI := tsLow st.minI b.min.toInt64
      maxI := tsHigh st.maxI b.max.toInt64
      count := st.count+rows }
  | .sum => applySum b st
  | .avg => applySum b st
  | .first =>
    if tsMin < st.tsFirst then
      if t = .float64 then { st with tsFirst := tsMin, firstF := Float.ofBits b.first }
      else { st with tsFirst := tsMin, firstI := b.first.toInt64 }
    else st
  | .last =>
    if st.tsLast < tsMax then
      if t = .float64 then { st with tsLast := tsMax, lastF := Float.ofBits b.last }
      else { st with tsLast := tsMax, lastI := b.last.toInt64 }
    else st
  | _ => st
where
  applySum (b : BlockStats) (st : AggState k) : AggState k :=
    if t = .float64 then { st with sumF := st.sumF+Float.ofBits b.sum, count := st.count+rows }
    else { st with
      sumI := (addOverflow st.sumI b.sum.toInt64).1
      ovf := st.ovf || (addOverflow st.sumI b.sum.toInt64).2
      count := st.count+rows }

end Applying

section Scalar

variable {n : ℕ} {k : Kernels} (s : Schema n)

abbrev AggStates (k : Kernels) (projs : List (Proj n)) := Fin projs.length → AggState k

def blockStats (src : Source s) (c : Fin n) : BlockStats :=
  if src.stats c then computeBlockStats (s.cols c).type (src.rows.map fun r => r c) else noStats

def aggServed (src : Source s) (a : Agg n) : Bool :=
  match aggStatsRequires a.kind with
  | none => false
  | some bits =>
    a.col.all (fun c => BlockState.paired (src.state c)) &&
      (bits = .nothing || a.col.any fun c => (blockStats s src c).has bits)

def served (src : Source s) : Proj n → Bool
  | .agg a => aggServed s src a
  | _ => false

def applyStats (src : Source s) (p : Proj n) (st : AggState k) : AggState k :=
  match p with
  | .agg a =>
    aggApplyStats a.kind (a.type s) ((a.col.map (blockStats s src)).getD noStats) src.tsMin src.tsMax
      src.rows.length st
  | _ => st

/-- The statistics in place of the block, if every projection is served. -/
def tryStatsFastpath (projs : List (Proj n)) (sts : AggStates k projs) (src : Source s) :
    Option (AggStates k projs) :=
  if !src.mem && projs.all (served s src) then some fun i => applyStats s src (projs.get i) (sts i) else none

def foldRows (rows : List (Row n)) (p : Proj n) (st : AggState k) : AggState k :=
  match p with
  | .agg a => aggUpdate s a rows st
  | _ => st

def takeAggs (projs : List (Proj n)) (sts : AggStates k projs) (rows : List (Row n)) : AggStates k projs :=
  fun i => foldRows s rows (projs.get i) (sts i)

def guards : List (Except Failure Unit) → Except Failure Unit
  | [] => .ok ()
  | g::gs => g >>= fun _ => guards gs

def projGuard (checkEmpty : Bool) (p : Proj n) (st : AggState k) : Except Failure Unit :=
  match p with
  | .agg a => digestGuard checkEmpty a.kind st
  | _ => .ok ()

def aggCell (unwritten : UInt64) (p : Proj n) (st : AggState k) : UInt64 :=
  match p with
  | .agg a => aggWrite a.kind (a.type s) (a.outType s) st
  | _ => unwritten

def emitAggs (unwritten : UInt64) (projs : List (Proj n)) (sts : AggStates k projs) :
    Except Failure (List (List UInt64)) :=
  if (List.ofFn sts).any AggState.ovf then .error overflowed
  else do
    guards (List.ofFn fun i => projGuard true (projs.get i) (sts i))
    .ok [List.ofFn fun i => aggCell s unwritten (projs.get i) (sts i)]

def scalarPath (e : Engine) (q : Query n) : Path s (AggStates e.kernels q.projs) (List (List UInt64)) where
  done _ := !within q.limit 0
  shortcut sts src := if e.fastpath then tryStatsFastpath s q.projs sts src else none
  reads := q.reads s
  report := id
  take sts rows bm := .ok (takeAggs s q.projs sts (select rows bm))
  start _ := aggInit e.kernels
  finish := emitAggs s e.unwritten q.projs

variable (e : Engine) (q : Query n)

variable {s}

variable {src : Source s}

variable {p : Proj n} {projs : List (Proj n)}

theorem tryStats_some {sts sts' : AggStates k projs}
    (h : tryStatsFastpath s projs sts src = some sts') :
    (∀ p ∈ projs, served s src p = true) ∧ sts' = fun i => applyStats s src (projs.get i) (sts i) := by
  unfold tryStatsFastpath at h
  split at h
  · rename_i hs
    exact ⟨all_eq_true.mp ((Bool.and_eq_true ..).mp hs).2, (Option.some.inj h).symm⟩
  · simp at h

end Scalar

end QEngine.BlockStatistics

import QEngine.BlockStatistics

/-!
# Buckets and windows of time

SAMPLE BY, SESSION, STATE_WINDOW and EVENT_WINDOW share one accumulator for all
projections and write a row whenever a bucket or a window is closed. SAMPLE BY counts
a row once for each aggregate, the windows once.
-/

namespace QEngine.BucketWindows
open QueryTables WhereFilters SourceScans ScanPaths Aggregates RowProjections

structure Bucket where
  sumF : Float
  sumI : Int64
  minF : Float
  maxF : Float
  minI : Int64
  maxI : Int64
  count : ℕ

def bucketOpen : Bucket := ⟨0, 0, infinity, -infinity, Int64.maxValue, Int64.minValue, 0⟩

structure BucketState where
  out : List (List UInt64)
  cur : Int64
  bucket : Bucket
  prevTs : Int64
  prevState : Option UInt64
  inside : Bool
  winStart : Int64

def bucketStart : BucketState := ⟨[], Int64.minValue, bucketOpen, Int64.minValue, none, false, 0⟩

def sampledKind : AggKind → Bool
  | .sum => true
  | .avg => true
  | .min => true
  | .max => true
  | .spread => true
  | _ => false

section Rows

variable {n : ℕ} (s : Schema n)

def isDouble (c : Option (Fin n)) : Bool := c.any fun c => (s.cols c).type = .float64

def bucketCell (start : Int64) (b : Bucket) (p : Proj n) : UInt64 :=
  match p with
  | .bucket _ _ => start.toUInt64
  | .agg a =>
    match a.kind with
    | .sum => (if isDouble s a.col then b.sumF else Float.ofInt b.sumI.toInt).toBits
    | .avg =>
      (if b.count = 0 then 0
        else (if isDouble s a.col then b.sumF else Float.ofInt b.sumI.toInt)/Float.ofNat b.count).toBits
    | .min => (if isDouble s a.col then b.minF else Float.ofInt b.minI.toInt).toBits
    | .max => (if isDouble s a.col then b.maxF else Float.ofInt b.maxI.toInt).toBits
    | .count => (Int64.ofNat b.count).toUInt64
    | _ => 0
  | _ => 0

def addValue (c : Fin n) (r : Row n) (b : Bucket) : Bucket :=
  if qcoltype (s.cols c).type = .float64 then { b with
    sumF := b.sumF+r.double c
    minF := if r.double c < b.minF then r.double c else b.minF
    maxF := if r.double c > b.maxF then r.double c else b.maxF }
  else { b with
    sumI := b.sumI+r.int c
    minI := tsLow b.minI (r.int c)
    maxI := tsHigh b.maxI (r.int c) }

def sampleAgg (r : Row n) (b : Bucket) (p : Proj n) : Bucket :=
  match p with
  | .agg ⟨.count, _⟩ => { b with count := b.count+1 }
  | .agg ⟨kind, some c⟩ => if sampledKind kind then { addValue s c r b with count := b.count+1 } else b
  | _ => b

def windowAgg (r : Row n) (b : Bucket) (p : Proj n) : Bucket :=
  match p with
  | .agg ⟨kind, some c⟩ => if sampledKind kind then addValue s c r b else b
  | _ => b

variable (projs : List (Proj n)) (limit : Option ℕ)

def flushBucket (start : Int64) (st : BucketState) : BucketState :=
  if 0 < st.bucket.count then { st with out := st.out++[projs.map (bucketCell s start st.bucket)] } else st

def openBucket (ts : Int64) (st : BucketState) : BucketState := { st with cur := ts, bucket := bucketOpen }

def sampleAcc (r : Row n) (st : BucketState) : BucketState :=
  { st with bucket := projs.foldl (sampleAgg s r) st.bucket }

def windowAcc (r : Row n) (st : BucketState) : BucketState :=
  { st with bucket := projs.foldl (windowAgg s r) { st.bucket with count := st.bucket.count+1 } }

def sampleRow (width : Int64) (st : BucketState) (r : Row n) : BucketState :=
  let b := tsBucket (s.time r) (if width ≤ 0 then 1 else width)
  if !within limit st.out.length then st
  else if b = st.cur then sampleAcc s projs r st
  else
    let st' := if st.cur ≠ Int64.minValue then flushBucket s projs st.cur st else st
    if within limit st'.out.length then sampleAcc s projs r (openBucket b st') else st'

def sessionRow (gap : Int64) (st : BucketState) (r : Row n) : BucketState :=
  let ts := s.time r
  if !within limit st.out.length then st
  else
    let st' :=
      if st.cur ≠ Int64.minValue ∧ (if gap ≤ 0 then 1 else gap) < ts-st.prevTs then
        openBucket ts (flushBucket s projs st.cur st)
      else st
    let st' := if st'.cur = Int64.minValue then openBucket ts st' else st'
    windowAcc s projs r { st' with prevTs := ts }

def stateRow (c : Fin n) (st : BucketState) (r : Row n) : BucketState :=
  let ts := s.time r
  if !within limit st.out.length then st
  else
    let st' :=
      if st.prevState.any (fun v => v ≠ r c) then openBucket ts (flushBucket s projs st.cur st) else st
    let st' := if st'.cur = Int64.minValue then openBucket ts st' else st'
    windowAcc s projs r { st' with prevTs := ts, prevState := some (r c) }

def eventRow (st : BucketState) (x : Row n × Bool × Bool) : BucketState :=
  let ts := s.time x.1
  if !within limit st.out.length then st
  else
    let st' := if !st.inside && x.2.1 then { openBucket ts st with inside := true, winStart := ts } else st
    if st'.inside then
      let st' := { windowAcc s projs x.1 st' with prevTs := ts }
      if x.2.2 then { flushBucket s projs st'.winStart st' with cur := Int64.minValue, inside := false }
        else st'
    else st'

def lastBucket (st : BucketState) : List (List UInt64) :=
  if st.cur ≠ Int64.minValue ∧ within limit st.out.length = true then
    (flushBucket s projs st.cur st).out else st.out

end Rows

section Paths

variable {n : ℕ} (e : Engine) (s : Schema n) (q : Query n)

def takeWindow (w : AdvWindow) (st : BucketState) (rows : List (Row n)) (bm : List Bool) :
    Except Failure BucketState :=
  match w with
  | .session gap => .ok ((select rows bm).foldl (sessionRow s q.projs q.limit gap) st)
  | .state name =>
    match resolveCol s name with
    | none => .error ⟨.schema, "STATE_WINDOW: column '"++name++"' not found"⟩
    | some c => .ok ((select rows bm).foldl (stateRow s q.projs q.limit c) st)
  | .event a b => do
    let sbm ← applyFilterExpr s e.junk rows a (rows.map fun _ => true)
    let ebm ← applyFilterExpr s e.junk rows b (rows.map fun _ => true)
    .ok ((rows.zip (sbm.zip ebm)).foldl (eventRow s q.projs q.limit) st)

def samplePath (width : Int64) : Path s BucketState (List (List UInt64)) where
  done st := !within q.limit st.out.length
  shortcut _ _ := none
  reads := q.reads s
  report := id
  take st rows bm := .ok ((select rows bm).foldl (sampleRow s q.projs q.limit width) st)
  start := bucketStart
  finish st := .ok (lastBucket s q.projs q.limit st)

def windowPath (w : AdvWindow) : Path s BucketState (List (List UInt64)) where
  done st := !within q.limit st.out.length
  shortcut _ _ := none
  reads := q.reads s
  report := id
  take := takeWindow e s q w
  start := bucketStart
  finish st := .ok (lastBucket s q.projs q.limit st)

end Paths

end QEngine.BucketWindows

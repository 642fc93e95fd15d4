import QEngine.BlockStatistics
import QEngine.ProbeTables
import QEngine.BlockFiles
import QEngine.HashRing

/-!
# GROUP BY and LATEST ON

GROUP BY keeps a state for each tuple of keys in an open-addressing table of at
first 64 cells. LATEST ON goes over the rows from the end and writes the first row
of each key; keys are told apart by a hash. It takes the condition for the choice
of the partitions only.
-/

namespace QEngine.GroupedRows
open QueryTables WhereFilters SourceScans ScanPaths Aggregates RowProjections BlockStatistics
open ProbeTables

section Groups

variable {n : ℕ}

def gbHash (key : List UInt64) : ℕ :=
  ((BlockFiles.crc32c BlockFiles.crc32cStep (key.flatMap fun v => ByteFields.leBytes 8 v.toNat)).toUInt64*
    0x9E3779B97F4A7C15).toNat

abbrev Groups (k : Kernels) (projs : List (Proj n)) := Table (List UInt64) (AggStates k projs) gbHash

theorem gb_cells : 0 < 64 := by decide

def gbAlloc (k : Kernels) (projs : List (Proj n)) : Groups k projs := Table.empty 64 gb_cells

def clauseCols (s : Schema n) (clause : String) : List String → Except Failure (List (Fin n))
  | [] => .ok []
  | name::names =>
    match resolveCol s name with
    | none => .error ⟨.schema, "unknown "++clause++" column '"++name++"'"⟩
    | some c => (clauseCols s clause names).map (c::·)

def groupCols (s : Schema n) : List String → Except Failure (List (Fin n)) := clauseCols s "GROUP BY"

def partCols (s : Schema n) : List String → Except Failure (List (Fin n)) := clauseCols s "partition"

def checkProjs (s : Schema n) (keys : List (Fin n)) : List (Proj n) → Except Failure Unit
  | [] => .ok ()
  | .col c::ps =>
    if c ∈ keys then checkProjs s keys ps
    else .error ⟨.schema, "column '"++(s.cols c).name++"' in SELECT must appear in GROUP BY or be aggregated"⟩
  | _::ps => checkProjs s keys ps

variable {k : Kernels} (s : Schema n) (projs : List (Proj n)) (keys : List (Fin n))

def groupRow (t : Groups k projs) (r : Row n) : Groups k projs :=
  t.upsert (keys.map r) (fun _ => aggInit k) fun sts i => foldRows s [r] (projs.get i) (sts i)

def groupCell (unwritten : UInt64) (key : List UInt64) (p : Proj n) (st : AggState k) : UInt64 :=
  match p with
  | .col c => key.getD (keys.idxOf c) 0
  | _ => aggCell s unwritten p st

def emitGroups (unwritten : UInt64) (having : List UInt64 → Bool) (limit : Option ℕ) :
    List (List UInt64 × AggStates k projs) → List (List UInt64) → Except Failure (List (List UInt64))
  | [], out => .ok out
  | (key, sts)::gs, out =>
    if !within limit out.length then .ok out
    else if (List.ofFn sts).any AggState.ovf then .error overflowed
    else do
      guards (List.ofFn fun i => projGuard false (projs.get i) (sts i))
      let row := List.ofFn fun i => groupCell s keys unwritten key (projs.get i) (sts i)
      emitGroups unwritten having limit gs (if having row then out++[row] else out)

def groupReads (q : Query n) (c : Fin n) : Bool :=
  keys.contains c || q.projs.any (fun p => projMarkCols s p c) || (q.hasTsAgg && c = s.tsCol)

def groupPath (e : Engine) (q : Query n) (having : List UInt64 → Bool) :
    Path s (Groups e.kernels q.projs) (List (List UInt64)) where
  done _ := false
  shortcut _ _ := none
  reads := groupReads s keys q
  report f := { f with text := "" }
  take t rows bm := .ok ((select rows bm).foldl (groupRow s q.projs keys) t)
  start := gbAlloc e.kernels q.projs
  finish t := emitGroups s q.projs keys e.unwritten having q.limit t.entries []

variable (e : Engine) (q : Query n)

def groupSkips (e : Engine) : Skips := { e.skips with bloom := false }

def execGroupBy (e : Engine) (t : QueryTables.Table s) (q : Query n) :
    Except Failure (List (List UInt64)) := do
  let keys ← groupCols s q.groupBy
  checkProjs s keys q.projs
  let having ← q.having.getD (.ok fun _ => true)
  ((groupPath s keys e q having).executor (groupSkips e) q.cond).run e.junk t

end Groups

/-! ### The latest rows -/

section Latest

variable {n : ℕ} (s : Schema n)

def cellBytes (r : Row n) (c : Fin n) : List UInt8 :=
  ByteFields.leBytes (if (s.cols c).type = .symbol then 4 else 8) (r c).toNat

def latestKey (parts : List (Fin n)) (r : Row n) : UInt64 :=
  let key :=
    if parts.isEmpty then 0x00ababababababab
    else UInt64.ofNat (HashRing.fnv1a64 (parts.flatMap (cellBytes s r)))
  if key = 0 then 1 else key

structure LatestState where
  out : List (List UInt64)
  seen : List UInt64

def latestCell (r : Row n) : Proj n → UInt64
  | .col c => r c
  | _ => 0

def latestDone (q : Query n) (parts : List (Fin n)) (st : LatestState) : Bool :=
  !within q.limit st.out.length || (parts.isEmpty && !st.out.isEmpty)

def latestRow (q : Query n) (parts : List (Fin n)) (st : LatestState) (r : Row n) : LatestState :=
  if latestDone q parts st then st
  else if latestKey s parts r ∈ st.seen then st
  else ⟨st.out++[q.projs.map (latestCell r)], latestKey s parts r::st.seen⟩

def latestExecutor (e : Engine) (q : Query n) (parts : List (Fin n)) :
    Executor s LatestState (List (List UInt64)) where
  done := latestDone q parts
  skip _ := false
  shortcut _ _ := none
  need c := q.projs.any (fun p => p.col? = some c) || parts.contains c
  cond := none
  report := id
  take st rows _ := .ok (rows.reverse.foldl (latestRow s q parts) st)
  prune := e.skips.prune s q.cond
  backwards := true
  start := ⟨[], []⟩
  finish st := .ok st.out

def execLatestOn (e : Engine) (t : QueryTables.Table s) (q : Query n) (names : List String) :
    Except Failure (List (List UInt64)) := do
  let parts ← partCols s names
  (latestExecutor s e q parts).run e.junk t

end Latest

end QEngine.GroupedRows

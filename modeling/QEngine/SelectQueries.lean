import QEngine.BucketWindows
import QEngine.PointJoins

/-!
# SELECT on a table

`exec_select` sends a query to one of eight executors, after it has refused the
combinations that none of them takes. The executors run with one worker; the
deadline of a query and the functions of the user are left out, and ORDER BY,
which sorts the rows of an answer, is applied behind.
-/

namespace QEngine.SelectQueries
open Option List QueryTables WhereFilters SourceScans ScanPaths Aggregates RowProjections BlockStatistics
open BucketWindows GroupedRows PointJoins

section Dispatch

variable {n : ℕ} {s : Schema n}

def Query.shaped (q : Query n) : Bool :=
  q.hasAgg || q.sampleBy.isSome || !q.groupBy.isEmpty || q.latestOn.isSome

def refused (q : Query n) : Option Failure :=
  if q.projs.any Proj.isScalar && (Query.shaped q || q.hasInterp || q.window.isSome) then
    some
      ⟨.unsupported,
      "scalar column expressions in SELECT are only supported in a plain projection (no aggregate/GROUP BY/SAMPLE BY/window/interp/LATEST ON/JOIN) yet"⟩
  else if q.hasInterp && Query.shaped q then
    some
      ⟨.unsupported,
      "interp() cannot be combined with aggregates, GROUP BY, SAMPLE BY, LATEST ON, or ASOF JOIN"⟩
  else if q.hasInterp then none
  else if q.hasWindow && Query.shaped q then
    some
      ⟨.unsupported,
      "window functions (diff/derivative/csum/mavg) cannot be combined with aggregates, GROUP BY, SAMPLE BY, LATEST ON, or ASOF JOIN"⟩
  else if q.having.isSome && (q.groupBy.isEmpty || q.sampleBy.isSome) then
    some ⟨.unsupported, "HAVING requires GROUP BY (without SAMPLE BY)"⟩
  else none

def execScan (e : Engine) (t : Table s) (q : Query n) : Except Failure (List (List UInt64)) :=
  if q.hasAgg then
    match q.sampleBy, q.window with
    | some width, _ => ((samplePath s q width).executor e.skips q.cond).run e.junk t
    | none, some w => ((windowPath e s q w).executor e.skips q.cond).run e.junk t
    | none, none => ((scalarPath s e q).executor e.skips q.cond).run e.junk t
  else ((rowPath e s q).executor e.skips q.cond).run e.junk t

def execSelect (e : Engine) (t : Table s) (q : Query n) : Except Failure (List (List UInt64)) :=
  match refused q with
  | some f => .error f
  | none =>
    if q.hasInterp then execInterp s e t q
    else
      match q.latestOn with
      | some names => execLatestOn s e t q names
      | none => if q.groupBy.isEmpty || q.sampleBy.isSome then execScan e t q else execGroupBy s e t q

end Dispatch

/-! ### A small table -/

def countKernels : Kernels where
  Digest := Unit
  digestNew := ()
  addBulk _ _ := ()
  digestMerge _ _ := ()
  digestCount _ := 0
  quantile _ _ := 0
  stddev _ := 0
  sumF64 := List.foldl (· + ·) 0
  minF64 := List.foldl lowF infinity
  maxF64 := List.foldl highF (-infinity)

def everySkip : Skips := ⟨true, true, true⟩

def serialEngine (k : Skips) (fast : Bool) : Engine := ⟨countKernels, 0, 0, fun a _ => a, id, fast, k⟩

def twoCols : Schema 2 := ⟨![⟨"ts", .timestamp, []⟩, ⟨"v", .int64, []⟩], 0, rfl⟩

def vCol : Fin 2 := 1

def memOnly (rows : List (Row 2)) : Table twoCols := ⟨true, [], .ok rows⟩

def bothCols (cond : Option Expr) (latestOn : Option (List String)) : Query 2 where
  projs := [.col 0, .col 1]
  cond := cond
  limit := none
  sampleBy := none
  window := none
  groupBy := []
  having := none
  latestOn := latestOn

def diskBlock (rows : List (Row 2)) (tsMin tsMax : Int64)
    (h : ∀ r ∈ rows, tsMin ≤ twoCols.time r ∧ twoCols.time r ≤ tsMax) : Source twoCols where
  mem := false
  rows := rows
  tsMin := tsMin
  tsMax := tsMax
  state := fun _ => .ready
  bloom := fun _ => none
  stats := fun _ => true
  covered := h
  screened := fun _ _ h => absurd h (some_ne_none _).symm
  memReady := fun h => absurd h Bool.false_ne_true

end QEngine.SelectQueries

import QEngine.GroupedRows
import Mathlib.Data.List.Sort

/-!
# Interpolation and ASOF JOIN

`interp` sorts the selected points by time and writes a value at each multiple of the
interval. ASOF JOIN sorts the right table by time and moves over it once: each left
row gets the last right row passed with its key. The condition is not looked at.
-/

namespace QEngine.PointJoins
open List QueryTables WhereFilters SourceScans ScanPaths Aggregates RowProjections

/-! ### Interpolation -/

section Interpolation

variable {n : ℕ} (s : Schema n)

def interpProj : List (Proj n) → Option (Fin n × Int64)
  | [] => none
  | .interp c ns::_ => some (c, ns)
  | _::ps => interpProj ps

def interpPoint (c : Fin n) (r : Row n) : Int64 × Float :=
  (s.time r, asDouble (qcoltype (s.cols c).type) (r c))

def interpGrid (ns first last : Int64) : List Int64 :=
  let start := first/ns*ns
  let stop := (last+ns-1)/ns*ns
  (List.range ((stop.toInt-start.toInt)/ns.toInt+1).toNat).map fun i => start+Int64.ofNat i*ns

def interpAt (pts : List (Int64 × Float)) (b : Int64) : Option Float :=
  let before := pts.takeWhile fun p => p.1 < b
  match pts.drop before.length with
  | [] => none
  | (t1, v1)::_ =>
    if t1 = b then some v1
    else
      match before.getLast? with
      | none => none
      | some (t0, v0) =>
        let dt := Float.ofInt (t1-t0).toInt
        some (if dt == 0 then v0 else v0+(v1-v0)*Float.ofInt (b-t0).toInt/dt)

def interpCells (unwritten : UInt64) (b : Int64) (v : Float) : Bool → List (Proj n) → List UInt64
  | _, [] => []
  | first, .interp _ _::ps => v.toBits::interpCells unwritten b v first ps
  | first, .col c::ps =>
    if first && c = s.tsCol then b.toUInt64::interpCells unwritten b v false ps
    else unwritten::interpCells unwritten b v first ps
  | first, _::ps => unwritten::interpCells unwritten b v first ps

def interpRows (e : Engine) (q : Query n) (ns : Int64) (pts : List (Int64 × Float)) : List (List UInt64) :=
  let sorted := e.sortPoints pts
  match sorted.head?, sorted.getLast? with
  | some a, some z =>
    if pts.length < 2 then []
    else
      (interpGrid ns a.1 z.1).foldl (fun out b =>
        if within q.limit out.length then
          match interpAt sorted b with
          | none => out
          | some v => out++[interpCells s e.unwritten b v true q.projs]
        else out) []
  | _, _ => []

def interpPath (e : Engine) (q : Query n) (c : Fin n) (ns : Int64) :
    Path s (List (Int64 × Float)) (List (List UInt64)) where
  done _ := false
  shortcut _ _ := none
  reads c' := c' = s.tsCol || c' = c
  report f := { f with text := "" }
  take pts rows bm := .ok (pts++(select rows bm).map (interpPoint s c))
  start := []
  finish pts := .ok (interpRows s e q ns pts)

variable (e : Engine) (q : Query n) (c : Fin n) (ns : Int64)

def zoneSkips (e : Engine) : Skips := { e.skips with range := false, bloom := false }

def execInterp (e : Engine) (t : Table s) (q : Query n) : Except Failure (List (List UInt64)) :=
  match interpProj q.projs with
  | none => .error ⟨.parse, "interp: no interp() projection found"⟩
  | some (c, ns) => ((interpPath s e q c ns).executor (zoneSkips e) q.cond).run e.junk t

end Interpolation

/-! ### ASOF JOIN -/

abbrev JoinCol (n m : ℕ) := Fin n ⊕ Fin m

structure AsofQuery (n m : ℕ) where
  projs : Except Failure (List (JoinCol n m))
  on : List (String × String)
  cond : Option Expr
  limit : Option ℕ

structure JoinAnswer where
  rows : List (List UInt64)
  owned : List (List String)
  deriving DecidableEq

section Asof

variable {n m : ℕ} (s : Schema n) (s' : Schema m)

def asofCols : List (String × String) → Except Failure (List (Fin n × Fin m))
  | [] => .ok []
  | (l, r)::ks =>
    match resolveCol s l, resolveCol s' r with
    | none, _ => .error ⟨.schema, "ASOF ON: unknown left column '"++l++"'"⟩
    | some _, none => .error ⟨.schema, "ASOF ON: unknown right column '"++r++"'"⟩
    | some c, some d => (asofCols ks).map ((c, d)::·)

def isSymbol {j : ℕ} (x : Schema j) (c : Fin j) : Bool := (x.cols c).type = .symbol

def deadKey (k : Fin n × Fin m) : Bool := isSymbol s k.1 != isSymbol s' k.2

/-- A left key in the terms of the right table; a string that the right table does
not have gets the number behind its last code. -/
def asofLkey (r : Row n) (k : Fin n × Fin m) : UInt64 :=
  if isSymbol s k.1 then
    match (s.cols k.1).symtab[(r.code k.1).toNat]? with
    | none => UInt64.ofNat (s'.cols k.2).symtab.length
    | some x =>
      match symtabLookup (s'.cols k.2).symtab x with
      | none => UInt64.ofNat (s'.cols k.2).symtab.length
      | some code => code.toUInt64
  else r k.1

def asofRkey (r : Row m) (k : Fin n × Fin m) : UInt64 :=
  if isSymbol s' k.2 then
    if (r.code k.2).toNat < (s'.cols k.2).symtab.length then (r.code k.2).toUInt64
    else UInt64.ofNat (s'.cols k.2).symtab.length
  else r k.2

def rightNeeds (projs : List (JoinCol n m)) (on : List (Fin n × Fin m)) (c : Fin m) : Bool :=
  c = s'.tsCol || projs.any (fun p => p = .inr c) || on.any fun k => k.2 = c

def leftNeeds (projs : List (JoinCol n m)) (on : List (Fin n × Fin m)) (c : Fin n) : Bool :=
  c = s.tsCol || projs.any (fun p => p = .inl c) || on.any fun k => k.1 = c

def rightScan (need : Fin m → Bool) (srcs : List (Source s')) : Except Failure (List (Row m)) :=
  if srcs.all fun src => src.rows.isEmpty then .ok []
  else (srcs.mapM fun src => (loadCols need src).map fun _ => src.rows).map List.flatten

def rightMatBuild (t : Table s') (need : Fin m → Bool) : Except Failure (List (Row m)) := do
  let srcs ← scanPlanBuild t TsRange.all
  let rows ← rightScan s' need srcs
  .ok (rows.insertionSort fun a b => s'.time a ≤ s'.time b)

structure JoinState (m : ℕ) where
  out : List (List UInt64)
  rest : List (Row m)
  passed : List (List UInt64 × Row m)
  owned : List (List String)

def intern (strs : List String) (x : String) : List String × UInt64 :=
  match symtabLookup strs x with
  | some code => (strs, code.toUInt64)
  | none => (strs++[x], UInt64.ofNat strs.length)

def asofCell (l : Row n) (r : Option (Row m)) (p : JoinCol n m) (strs : List String) : List String × UInt64 :=
  match p with
  | .inl c => (strs, l c)
  | .inr c =>
    match r with
    | none => (strs, 0)
    | some r =>
      if isSymbol s' c then intern strs ((s'.cols c).symtab[(r.code c).toNat]?.getD "")
      else (strs, r c)

def asofRow (on : List (Fin n × Fin m)) (projs : List (JoinCol n m)) (limit : Option ℕ) (st : JoinState m)
    (l : Row n) : JoinState m :=
  if !within limit st.out.length then st
  else
    let ahead := st.rest.takeWhile fun r => s'.time r ≤ s.time l
    let passed := (ahead.map fun r => (on.map (asofRkey s' r), r)).reverse++st.passed
    let best := (passed.find? fun x => x.1 = on.map (asofLkey s s' l)).map Prod.snd
    let best := best.filter fun r => s'.time r ≤ s.time l
    let cells := List.zipWith (asofCell s' l best) projs st.owned
    ⟨st.out++[cells.map Prod.snd], st.rest.drop ahead.length, passed, cells.map Prod.fst⟩

def asofExecutor (on : List (Fin n × Fin m)) (projs : List (JoinCol n m)) (limit : Option ℕ)
    (right : List (Row m)) :
    Executor s (JoinState m) JoinAnswer where
  done st := !within limit st.out.length
  skip _ := false
  shortcut _ _ := none
  need := leftNeeds s projs on
  cond := none
  report := id
  take st rows _ := .ok (rows.foldl (asofRow s s' on projs limit) st)
  prune := TsRange.all
  backwards := false
  start := ⟨[], if on.any (deadKey s s') then [] else right, [], projs.map fun _ => []⟩
  finish st := .ok ⟨st.out, st.owned⟩

def execAsofJoin (junk : UInt64) (t : Table s) (t' : Table s') (q : AsofQuery n m) :
    Except Failure JoinAnswer := do
  let on ← asofCols s s' q.on
  let projs ← q.projs
  let right ← rightMatBuild s' t' (rightNeeds s' projs on)
  (asofExecutor s s' on projs q.limit right).run junk t

variable {s'}

theorem loads_rows {need : Fin m → Bool} {srcs : List (Source s')} {ys : List (List (Row m))}
    (h : (srcs.mapM fun src => (loadCols need src).map fun _ => src.rows) = .ok ys) :
    ys = srcs.map Source.rows := by
  induction srcs generalizing ys with
  | nil => exact (Except.ok.inj h).symm
  | cons x xs ih =>
    rw [mapM_cons] at h
    obtain ⟨y, hy, h⟩ := bind_ok_iff.mp h
    obtain ⟨zs, hz, h⟩ := bind_ok_iff.mp h
    rw [← Except.ok.inj h, ih hz, map_cons]
    obtain ⟨-, -, rfl⟩ := map_ok_iff.mp hy
    rfl

theorem rightScan_rows {need : Fin m → Bool} {srcs : List (Source s')} {rows : List (Row m)}
    (h : rightScan s' need srcs = .ok rows) : rows = srcs.flatMap Source.rows := by
  unfold rightScan at h
  split at h
  · rw [← Except.ok.inj h, eq_comm, flatMap_eq_nil_iff]
    exact fun src hs => isEmpty_iff.mp (all_eq_true.mp ‹_› src hs)
  obtain ⟨ys, hm, rfl⟩ := map_ok_iff.mp h
  rw [loads_rows hm, flatMap]

end Asof

end QEngine.PointJoins

import QEngine.ScanPaths
import QEngine.Aggregates

/-!
# Select lists and row projections

A select list is taken as `build_projections` leaves it. A plain query writes a
row for each selected row until its limit; columns of eight bytes are copied in
runs. Functions of the user are left out, and a window function over a symbol
column, which the source reads beyond its cells, is given the code.
-/

namespace QEngine.RowProjections
open List QueryTables WhereFilters SourceScans ScanPaths Aggregates

/-- The kernels, the bits of unwritten memory, `fmod`, the library's sort, and the switches for
statistics and skipping. -/
structure Engine where
  kernels : Kernels
  junk : UInt64
  unwritten : UInt64
  fmod : Float → Float → Float
  sortPoints : List (Int64 × Float) → List (Int64 × Float)
  fastpath : Bool
  skips : Skips

inductive WinKind where
  | diff
  | derivative
  | csum
  | mavg (w : ℕ)
  | lag (w : ℕ)
  deriving DecidableEq

inductive Proj (n : ℕ) where
  | col (c : Fin n)
  | bucket (c : Fin n) (ns : Int64)
  | agg (a : Agg n)
  | win (kind : WinKind) (c : Fin n)
  | interp (c : Fin n) (ns : Int64)
  | scalar (e : Expr)

inductive AdvWindow where
  | session (gap : Int64)
  | state (col : String)
  | event (start stop : Expr)

abbrev Having := Except Failure (List UInt64 → Bool)

structure Query (n : ℕ) where
  projs : List (Proj n)
  cond : Option Expr
  limit : Option ℕ
  sampleBy : Option Int64
  window : Option AdvWindow
  groupBy : List String
  having : Option Having
  latestOn : Option (List String)

section Lists

variable {n : ℕ}

def Proj.isAgg : Proj n → Bool
  | .agg _ => true
  | _ => false

def Proj.isWin : Proj n → Bool
  | .win _ _ => true
  | _ => false

def Proj.isInterp : Proj n → Bool
  | .interp _ _ => true
  | _ => false

def Proj.isScalar : Proj n → Bool
  | .scalar _ => true
  | _ => false

def Proj.isTimed : Proj n → Bool
  | .agg a => a.kind.timed
  | _ => false

def Proj.col? : Proj n → Option (Fin n)
  | .col c => some c
  | .bucket c _ => some c
  | .agg a => a.col
  | .win _ c => some c
  | .interp c _ => some c
  | .scalar _ => none

def projMarkCols (s : Schema n) (p : Proj n) (c : Fin n) : Bool :=
  match p with
  | .scalar e => e.idents.any fun name => resolveCol s name = some c
  | _ => p.col? = some c

def Query.hasAgg (q : Query n) : Bool := q.projs.any Proj.isAgg

def Query.hasWindow (q : Query n) : Bool := q.projs.any Proj.isWin

def Query.hasInterp (q : Query n) : Bool := q.projs.any Proj.isInterp

def Query.hasTsAgg (q : Query n) : Bool := q.projs.any Proj.isTimed

def windowCols (s : Schema n) (w : AdvWindow) (c : Fin n) : Bool :=
  match w with
  | .session _ => false
  | .state name => resolveCol s name = some c
  | .event a b => (a.idents++b.idents).any fun name => resolveCol s name = some c

def Query.reads (s : Schema n) (q : Query n) (c : Fin n) : Bool :=
  q.projs.any (fun p => projMarkCols s p c) ||
    ((q.sampleBy.isSome || q.window.isSome || q.hasWindow || q.hasTsAgg) && c = s.tsCol) ||
    q.window.any fun w => windowCols s w c

def within (limit : Option ℕ) (k : ℕ) : Bool := limit.all fun l => k < l

end Lists

/-! ### Rows -/

structure WinState where
  prevF : Float
  prevTs : Int64
  hasPrev : Bool
  csum : Float
  ring : List Float
  sum : Float

def winInit : WinState := ⟨0, 0, false, 0, [], 0⟩

/-- The value of a window function at a row, after the rows before; the ring
stands with its oldest value in front. -/
def winStep (kind : WinKind) (v : Float) (ts : Int64) (st : WinState) : WinState × Float :=
  match kind with
  | .diff => ({ st with prevF := v, hasPrev := true }, if st.hasPrev then v-st.prevF else nan)
  | .derivative =>
    ({ st with prevF := v, prevTs := ts, hasPrev := true },
      if st.hasPrev then
        if ts-st.prevTs = 0 then 0 else (v-st.prevF)/Float.ofInt (ts-st.prevTs).toInt*1.0e9
      else nan)
  | .csum => ({ st with csum := st.csum+v, hasPrev := true }, st.csum+v)
  | .mavg w =>
    if st.ring.length < w then
      ({ st with ring := st.ring++[v], sum := st.sum+v, hasPrev := true },
        (st.sum+v)/Float.ofNat (st.ring.length+1))
    else
      ({ st with ring := st.ring.tail++[v], sum := st.sum-st.ring.headD 0+v, hasPrev := true },
        (st.sum-st.ring.headD 0+v)/Float.ofNat w)
  | .lag w =>
    if st.ring.length < w then ({ st with ring := st.ring++[v], hasPrev := true }, nan)
    else ({ st with ring := st.ring.tail++[v], hasPrev := true }, st.ring.headD 0)

section Cells

variable {n : ℕ} (e : Engine) (s : Schema n)

def scalarEvalRow (fmod : Float → Float → Float) (r : Row n) : Expr → Float
  | .arith .add a b => scalarEvalRow fmod r a+scalarEvalRow fmod r b
  | .arith .sub a b => scalarEvalRow fmod r a-scalarEvalRow fmod r b
  | .arith .mul a b => scalarEvalRow fmod r a*scalarEvalRow fmod r b
  | .arith .div a b => scalarEvalRow fmod r a/scalarEvalRow fmod r b
  | .arith .mod a b => fmod (scalarEvalRow fmod r a) (scalarEvalRow fmod r b)
  | .neg a => -scalarEvalRow fmod r a
  | .litInt v => Float.ofInt v.toInt
  | .litFloat v => v
  | .ident name =>
    match resolveCol s name with
    | none => nan
    | some c => if (s.cols c).type = .float64 then r.double c else Float.ofInt (r.int c).toInt
  | _ => nan

def tsBucket (ts width : Int64) : Int64 := ts-ts%width

def projCell (p : Proj n) (r : Row n) (w : WinState) : WinState × UInt64 :=
  match p with
  | .col c => (w, r c)
  | .bucket c ns => (w, (tsBucket (r.int c) ns).toUInt64)
  | .win kind c =>
    let v := if (s.cols c).type = .float64 then r.double c else Float.ofInt (r.int c).toInt
    ((winStep kind v (s.time r) w).1, (winStep kind v (s.time r) w).2.toBits)
  | .scalar x => (w, (scalarEvalRow s e.fmod r x).toBits)
  | .agg _ => (w, e.unwritten)
  | .interp _ _ => (w, e.unwritten)

structure RowState where
  out : List (List UInt64)
  wins : List WinState

def emitRow (projs : List (Proj n)) (limit : Option ℕ) (st : RowState) (r : Row n) : RowState :=
  if within limit st.out.length then
    ⟨st.out++[List.zipWith (fun p w => (projCell e s p r w).2) projs st.wins],
      List.zipWith (fun p w => (projCell e s p r w).1) projs st.wins⟩
  else st

def allSimpleW8 (projs : List (Proj n)) : Bool :=
  !projs.isEmpty && projs.all fun p =>
    match p with
    | .col c => (s.cols c).type ≠ .symbol
    | _ => false

def room {β : Type} (limit : Option ℕ) (k : ℕ) (xs : List β) : List β :=
  match limit with
  | none => xs
  | some l => xs.take (l-k)

def copyRuns {β : Type} (limit : Option ℕ) (f : Row n → β) : ℕ → List (Row n × Bool) → List β → List β
  | 0, _, out => out
  | fuel+1, cells, out =>
    if within limit out.length then
      let rest := cells.dropWhile fun c => !c.2
      let run := room limit out.length (rest.takeWhile Prod.snd)
      if run.isEmpty then out
      else copyRuns limit f fuel (rest.drop run.length) (out++run.map fun c => f c.1)
    else out

def takeRows (projs : List (Proj n)) (limit : Option ℕ) (st : RowState) (rows : List (Row n))
    (bm : List Bool) :
    RowState :=
  if allSimpleW8 s projs then
    { st with out := copyRuns limit (fun r => projs.filterMap fun p => p.col?.map r) rows.length (rows.zip bm) st.out }
  else (select rows bm).foldl (emitRow e s projs limit) st

def rowPath (q : Query n) : Path s RowState (List (List UInt64)) where
  done st := !within q.limit st.out.length
  shortcut _ _ := none
  reads := q.reads s
  report := id
  take st rows bm := .ok (takeRows e s q.projs q.limit st rows bm)
  start := ⟨[], q.projs.map fun _ => winInit⟩
  finish st := .ok st.out

end Cells

end QEngine.RowProjections

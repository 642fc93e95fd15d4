import QEngine.SelectQueries

/-!
# Super tables

A query on a super table runs on every child whose tags satisfy the condition.
Aggregates over several children are merged; all other answers are put one behind the
other. ORDER BY is left out.
-/

namespace QEngine.SuperTables
open QueryTables WhereFilters SourceScans ScanPaths Aggregates RowProjections BlockStatistics
open PointJoins SelectQueries

/-! ### Tags -/

inductive Tag where
  | int (v : Int64)
  | double (v : Float)
  | symbol (v : String)

structure Child where
  name : String
  tags : List Tag

structure Stable where
  name : String
  cols : List (String × ColType)
  tagCols : List String
  children : List Child

/-- `strcasecmp` -/
def caseEq (a b : String) : Bool := a.toList.map Char.toLower = b.toList.map Char.toLower

def Stable.tagIdx (st : Stable) (name : String) : Option ℕ := st.tagCols.findIdx? (caseEq · name)

def isLit : Expr → Bool
  | .litStr _ => true
  | .litInt _ => true
  | .litFloat _ => true
  | _ => false

def identSide : Expr → Expr → Option (String × Expr)
  | .ident x, b => some (x, b)
  | a, .ident x => some (x, a)
  | _, _ => none

def tagExprOnly (st : Stable) : Expr → Bool
  | .and a b => tagExprOnly st a && tagExprOnly st b
  | .or a b => tagExprOnly st a && tagExprOnly st b
  | .cmp .eq a b => tagCmp a b
  | .cmp .ne a b => tagCmp a b
  | _ => false
where
  tagCmp (a b : Expr) : Bool := (identSide a b).any fun p => isLit p.2 && (st.tagIdx p.1).isSome

def tagEq : Expr → Tag → Bool
  | .litStr v, .symbol t => t = v
  | .litInt v, .int t => t = v
  | .litInt v, .double t => t == Float.ofInt v.toInt
  | .litFloat v, .double t => t == v
  | _, _ => false

def tagExprEval (st : Stable) (ct : Child) : Expr → Bool
  | .and a b => tagExprEval st ct a && tagExprEval st ct b
  | .or a b => tagExprEval st ct a || tagExprEval st ct b
  | .cmp .eq a b => (tagOf a b).any fun p => tagEq p.1 p.2
  | .cmp .ne a b => (tagOf a b).any fun p => !tagEq p.1 p.2
  | _ => false
where
  tagOf (a b : Expr) : Option (Expr × Tag) := do
    let p ← identSide a b
    let ti ← st.tagIdx p.1
    let tv ← ct.tags[ti]?
    some (p.2, tv)

structure TagPred where
  col : String
  value : String ⊕ Int64

def cut (x : String) : String := String.ofList (x.toList.take 63)

def maxTagCols : ℕ := 16

def stableExtractTagPreds (st : Stable) (cap : ℕ) : Expr → List TagPred × Expr
  | .and a b =>
    let pa := stableExtractTagPreds st cap a
    let pb := stableExtractTagPreds st (cap-pa.1.length) b
    (pa.1++pb.1, .and pa.2 pb.2)
  | .cmp .eq (.ident x) b =>
    if cap = 0 || (st.tagIdx x).isNone then ([], .cmp .eq (.ident x) b)
    else
      match b with
      | .litStr v => ([⟨cut x, .inl (cut v)⟩], .litInt 1)
      | .litInt v => ([⟨cut x, .inr v⟩], .litInt 1)
      | _ => ([], .cmp .eq (.ident x) b)
  | e => ([], e)

def tagMeets : String ⊕ Int64 → Tag → Bool
  | .inl v, .symbol t => t = v
  | .inr v, .int t => t = v
  | .inr v, .double t => t.toInt64 = v
  | _, _ => false

def stableChildMatches (st : Stable) (preds : List TagPred) (ct : Child) : Bool :=
  preds.all fun p => ((st.tagIdx p.col).bind fun ti => ct.tags[ti]?).any (tagMeets p.value)

/-- Which children a condition selects, and the condition that is left for them. -/
def stableWhere (st : Stable) (cond : Option Expr) : (Child → Bool) × Option Expr :=
  match cond with
  | none => (fun _ => true, none)
  | some e =>
    if tagExprOnly st e then (fun ct => tagExprEval st ct e, none)
    else
      let p := stableExtractTagPreds st maxTagCols e
      (stableChildMatches st p.1, some p.2)

/-! ### Results -/

structure OutCol where
  type : ColType
  symtab : Option (List String)
  deriving DecidableEq

structure Answer where
  cols : List OutCol
  rows : List (List UInt64)
  deriving DecidableEq

def Answer.empty : Answer := ⟨[], []⟩

def recode (d s : OutCol) (v : UInt64) : OutCol × UInt64 :=
  match d.symtab, s.symtab with
  | some ds, some ss =>
    let p := intern ds (ss[v.toUInt32.toNat]?.getD "")
    ({ d with symtab := some p.1 }, p.2)
  | _, _ => (d, v)

def concatRow (src : List OutCol) (dst : Answer) (row : List UInt64) : Answer :=
  let cells := List.zipWith (fun c v => recode c.1 c.2 v) (dst.cols.zip src) row
  ⟨cells.map Prod.fst, dst.rows++[cells.map Prod.snd]⟩

def stableResultConcat (dst src : Answer) : Answer := src.rows.foldl (concatRow src.cols) dst

/-- The rows of a child behind those of the others, each with the name of the child; the first
child lends its dictionaries. -/
def stableAppendChildWithTbname (master child : Answer) (name : String) : Answer :=
  match master.cols with
  | [] => ⟨⟨.symbol, some (if child.rows.isEmpty then [] else [name])⟩::child.cols, child.rows.map (0::·)⟩
  | tb::cols =>
    if child.rows.isEmpty then master
    else
      let p := intern (tb.symtab.getD []) name
      let rest := stableResultConcat ⟨cols, []⟩ child
      ⟨{ tb with symtab := some p.1 }::rest.cols, master.rows++rest.rows.map (p.2::·)⟩

/-! ### Partial aggregates -/

inductive StabAgg where
  | cnt
  | sum
  | min
  | max
  | avg
  | spread
  | other
  deriving DecidableEq

structure Call where
  fn : String
  kind : AggKind
  arg : Option String

def Stable.symbolCol (st : Stable) (x : String) : Bool := (st.cols.find? fun c => caseEq c.1 x).any fun c =>
    c.2 = .symbol

def classify (st : Stable) (c : Call) : StabAgg :=
  match c.kind, c.arg with
  | .count, _ => .cnt
  | .sum, some x => if st.symbolCol x then .other else .sum
  | .min, some x => if st.symbolCol x then .other else .min
  | .max, some x => if st.symbolCol x then .other else .max
  | .avg, some x => if st.symbolCol x then .other else .avg
  | .spread, some x => if st.symbolCol x then .other else .spread
  | _, _ => .other

def StabAgg.parts : StabAgg → List StabAgg
  | .avg => [.sum, .cnt]
  | .spread => [.min, .max]
  | k => [k]

def partialProj {n : ℕ} : StabAgg → Proj n → List (Proj n)
  | .avg, .agg a => [.agg ⟨.sum, a.col⟩, .agg ⟨.count, a.col⟩]
  | .spread, .agg a => [.agg ⟨.min, a.col⟩, .agg ⟨.max, a.col⟩]
  | _, p => [p]

structure Slot where
  type : ColType
  iv : Int64
  fv : Float

def Slot.init (k : StabAgg) (type : ColType) : Slot :=
  match k with
  | .min => ⟨type, Int64.maxValue, infinity⟩
  | .max => ⟨type, Int64.minValue, -infinity⟩
  | _ => ⟨type, 0, 0⟩

def Slot.merge (k : StabAgg) (x : Slot) (bits : UInt64) : Slot :=
  if x.type = .float64 then
    match k with
    | .min => { x with fv := lowF x.fv (Float.ofBits bits) }
    | .max => { x with fv := highF x.fv (Float.ofBits bits) }
    | _ => { x with fv := x.fv+Float.ofBits bits }
  else
    match k with
    | .min => { x with iv := tsLow x.iv bits.toInt64 }
    | .max => { x with iv := tsHigh x.iv bits.toInt64 }
    | _ => { x with iv := x.iv+bits.toInt64 }

abbrev Pacc := Option (List Slot)

def stabPaccMerge (parts : List StabAgg) (acc : Pacc) (a : Answer) : Except Failure Pacc :=
  if a.cols.isEmpty then .ok acc
  else if a.cols.length ≠ parts.length then .error ⟨.corrupt, ""⟩
  else
    let slots := acc.getD (List.zipWith (fun k c => Slot.init k c.type) parts a.cols)
    match a.rows with
    | [] => .ok (some slots)
    | row::_ => .ok (some (List.zipWith (fun p v => Slot.merge p.1 p.2 v) (parts.zip slots) row))

def Slot.double (x : Slot) : Float := if x.type = .float64 then x.fv else Float.ofInt x.iv.toInt

def Slot.count (x : Slot) : Int64 := if x.type = .float64 then x.fv.toInt64 else x.iv

def Slot.cell (x : Slot) : OutCol × UInt64 :=
  (⟨x.type, none⟩, if x.type = .float64 then x.fv.toBits else x.iv.toUInt64)

def finalCells : List StabAgg → List Slot → List (OutCol × UInt64)
  | .avg::ks, x::y::rest =>
    (⟨.float64, none⟩, (if y.count = 0 then nan else x.double/Float.ofInt y.count.toInt).toBits)::finalCells
      ks rest
  | .spread::ks, x::y::rest => Slot.cell ⟨x.type, y.iv-x.iv, y.fv-x.fv⟩::finalCells ks rest
  | _::ks, x::rest => x.cell::finalCells ks rest
  | _, _ => []

def stabPaccFinalize (kinds : List StabAgg) : Pacc → Answer
  | none => .empty
  | some slots => ⟨(finalCells kinds slots).map Prod.fst, [(finalCells kinds slots).map Prod.snd]⟩

/-! ### Execution -/

structure Stored where
  {n : ℕ}
  schema : Schema n
  table : Table schema

/-- What opening a table gives, the super tables, the names with partitions, and what opening gives
after a rebuild. -/
structure Database where
  tables : String → Except Failure Stored
  stables : String → Option Stable
  storage : String → Bool
  rebuilt : String → Except Failure Stored
  named : ∀ name st, stables name = some st → st.name = name

/-- A SELECT; `calls` is its select list if there is nothing but aggregates over the whole table in
it. -/
structure Select where
  source : String
  right : Option String
  cond : Option Expr
  byName : Bool
  calls : Option (List Call)
  query : ∀ {n : ℕ}, Schema n → Except Failure (Query n)
  join : ∀ {n m : ℕ}, Schema n → Schema m → AsofQuery n m

def outCol {n : ℕ} (s : Schema n) : Proj n → OutCol
  | .col c => ⟨qcoltype (s.cols c).type, if (s.cols c).type = .symbol then some (s.cols c).symtab else none⟩
  | .agg a => ⟨a.outType s, none⟩
  | .bucket _ _ => ⟨.timestamp, none⟩
  | _ => ⟨.float64, none⟩

def joinCol {n m : ℕ} (s : Schema n) (s' : Schema m) (p : JoinCol n m) (owned : List String) : OutCol :=
  match p with
  | .inl c => outCol s (.col c)
  | .inr c => { outCol s' (.col c) with symtab := if isSymbol s' c then some owned else none }

def notFound (what name : String) : Failure := ⟨.notFound, what++" '"++name++"' not found"⟩

def selectStored (e : Engine) (sel : Select) (d : Database) (cond : Option Expr) (kinds : List StabAgg)
    (x : Stored) : Except Failure Answer :=
  match sel.right with
  | some r =>
    match d.tables r with
    | .error _ => .error (notFound "ASOF JOIN: right table" r)
    | .ok y => do
      let q := { sel.join x.schema y.schema with cond := cond }
      let projs ← q.projs
      let a ← execAsofJoin x.schema y.schema e.junk x.table y.table q
      .ok ⟨List.zipWith (joinCol x.schema y.schema) projs a.owned, a.rows⟩
  | none => do
    let q ← sel.query x.schema
    let q := { q with
      cond := cond
      projs := if kinds.isEmpty then q.projs else (List.zipWith partialProj kinds q.projs).flatten }
    let rows ← execSelect e x.table q
    .ok ⟨q.projs.map (outCol x.schema), rows⟩

/-- Without children, a table of its own name stands for them, with its schema rebuilt if there are
partitions. -/
def childrenOf (d : Database) (st : Stable) : Except Failure (List (Child × Except Failure Stored)) :=
  match st.children with
  | [] =>
    match d.tables st.name with
    | .ok x => .ok [(⟨st.name, []⟩, .ok x)]
    | .error _ =>
      if d.storage st.name then
        match d.rebuilt st.name with
        | .ok x => .ok [(⟨st.name, []⟩, .ok x)]
        | .error f =>
          .error ⟨f.code, "table '"++st.name++"' has on-disk data but could not be opened: "++f.text⟩
      else .ok []
  | cs => .ok (cs.map fun c => (c, d.tables c.name))

def runChild (e : Engine) (sel : Select) (d : Database) (cond : Option Expr) (kinds : List StabAgg)
    (c : Child × Except Failure Stored) : Except Failure Answer :=
  match c.2 with
  | .error _ => .error (notFound "table" c.1.name)
  | .ok x => selectStored e sel d cond kinds x

def gather (kinds : Option (List StabAgg)) (byName : Bool)
    (run : List StabAgg → Child × Except Failure Stored → Except Failure Answer)
    (matched : List (Child × Except Failure Stored)) : Except Failure Answer :=
  match kinds.filter fun _ => 1 < matched.length with
  | some ks => do
    let acc ← matched.foldlM (fun acc c => do
      let a ← run ks c
      stabPaccMerge (ks.flatMap StabAgg.parts) acc a) none
    .ok (stabPaccFinalize ks acc)
  | none => matched.foldlM (fun r c => do
    let a ← run [] c
    .ok (
      if byName then stableAppendChildWithTbname r a c.1.name
      else if r.cols.isEmpty then a else stableResultConcat r a)) .empty

/-- An aggregate that cannot be merged is refused for several children. -/
def unmerged (st : Stable) (calls : Option (List Call)) (matched : ℕ) : Except Failure Unit :=
  match (calls.getD []).find? fun c => classify st c = .other with
  | some c =>
    if 1 < matched then
      .error ⟨.unsupported, "aggregate '"++c.fn++"' not supported on multi-child super-table yet"⟩
    else .ok ()
  | none => .ok ()

/-- `cover` are the children that are left to this node in a scatter over the cluster. -/
def execStableSelect (e : Engine) (d : Database) (cover : Option (String → Bool)) (sel : Select)
    (st : Stable) :
    Except Failure Answer := do
  let w := stableWhere st sel.cond
  let cs ← childrenOf d st
  let matched := cs.filter fun c => w.1 c.1 && cover.all fun f => f c.1.name
  let calls := if sel.byName then none else sel.calls
  unmerged st calls matched.length
  let r ← gather (calls.map fun cs => cs.map (classify st)) sel.byName (runChild e sel d w.2) matched
  if r.cols.isEmpty && !sel.byName && cover.isNone && d.storage st.name then
    .error
      ⟨.corrupt,
      "table '"++st.name++"' has on-disk data but produced no result rows (stable-mirror self-child setup failed)"⟩
  else .ok r

/-- `tsdb_query` for a SELECT on a node of its own. -/
def query (e : Engine) (d : Database) (sel : Select) : Except Failure Answer :=
  match d.stables sel.source with
  | some st => execStableSelect e d none sel st
  | none =>
    if sel.byName then .error ⟨.parse, "PARTITION BY tbname requires FROM to be a super-table"⟩
    else
      match d.tables sel.source with
      | .error _ => .error (notFound "table" sel.source)
      | .ok x => selectStored e sel d sel.cond [] x

end QEngine.SuperTables

import QEngine.QueryTables
import QEngine.WordSums

/-!
# WHERE clauses

A condition is walked twice more before the scan, for bounds of the time and for
equalities of symbol columns; both follow AND only. The arguments of a call are not
kept: no function of a condition is evaluated.
-/

namespace QEngine.WhereFilters
open Bool List QueryTables WordSums

inductive Cmp where
  | eq
  | ne
  | lt
  | le
  | gt
  | ge
  deriving DecidableEq

inductive Arith where
  | add
  | sub
  | mul
  | div
  | mod
  deriving DecidableEq

inductive Expr where
  | litInt (v : Int64)
  | litFloat (v : Float)
  | litStr (v : String)
  | litTs (v : Int64)
  | litNull
  | ident (name : String)
  | star
  | neg (e : Expr)
  | not (e : Expr)
  | arith (op : Arith) (a b : Expr)
  | cmp (op : Cmp) (a b : Expr)
  | and (a b : Expr)
  | or (a b : Expr)
  | call (name : String)

def Expr.kind : Expr → ℕ
  | .litInt _ => 0
  | .litFloat _ => 1
  | .litStr _ => 2
  | .litTs _ => 3
  | .litNull => 4
  | .ident _ => 5
  | .star => 6
  | .neg _ => 7
  | .not _ => 8
  | .arith op _ _ => match op with | .add => 9 | .sub => 10 | .mul => 11 | .div => 12 | .mod => 13
  | .cmp op _ _ => match op with | .eq => 14 | .ne => 15 | .lt => 16 | .le => 17 | .gt => 18 | .ge => 19
  | .and _ _ => 20
  | .or _ _ => 21
  | .call _ => 22

def Expr.idents : Expr → List String
  | .ident name => [name]
  | .neg e => e.idents
  | .not e => e.idents
  | .arith _ a b => a.idents++b.idents
  | .cmp _ a b => a.idents++b.idents
  | .and a b => a.idents++b.idents
  | .or a b => a.idents++b.idents
  | _ => []

inductive Value where
  | int (v : Int64)
  | double (v : Float)
  | str (v : String)

def evalConst : Expr → Option Value
  | .litInt v => some (.int v)
  | .litTs v => some (.int v)
  | .litFloat v => some (.double v)
  | .litStr v => some (.str v)
  | .neg e =>
    match evalConst e with
    | some (.int v) => some (.int (-v))
    | some (.double v) => some (.double (-v))
    | _ => none
  | _ => none

/-- A string leaves the number of the constant unset; `junk` is what is there. -/
def Value.toInt (junk : UInt64) : Value → Int64
  | .int v => v
  | .double v => v.toInt64
  | .str _ => (Float.ofBits junk).toInt64

def Value.toDouble (junk : UInt64) : Value → Float
  | .int v => Float.ofInt v.toInt
  | .double v => v
  | .str _ => Float.ofInt junk.toInt64.toInt

def cmpInt : Cmp → Int64 → Int64 → Bool
  | .eq, a, b => a = b
  | .ne, a, b => a ≠ b
  | .lt, a, b => a < b
  | .le, a, b => a ≤ b
  | .gt, a, b => b < a
  | .ge, a, b => b ≤ a

def cmpDouble : Cmp → Float → Float → Bool
  | .eq, a, b => a == b
  | .ne, a, b => !(a == b)
  | .lt, a, b => a < b
  | .le, a, b => a ≤ b
  | .gt, a, b => b < a
  | .ge, a, b => b ≤ a

section Filtering

variable {n : ℕ} (s : Schema n) (junk : UInt64)

def cmpSymbol (op : Cmp) (c : Fin n) : Value → Except Failure (Row n → Bool)
  | .str x =>
    match op, symtabLookup (s.cols c).symtab x with
    | .eq, none => .ok fun _ => false
    | .ne, none => .ok fun _ => true
    | .eq, some code => .ok fun r => r.code c = code
    | .ne, some code => .ok fun r => r.code c ≠ code
    | _, _ => .error ⟨.unsupported, ""⟩
  | _ => .error ⟨.unsupported, ""⟩

def cmpColumn (op : Cmp) (c : Fin n) (v : Value) : Except Failure (Row n → Bool) :=
  match qcoltype (s.cols c).type with
  | .timestamp => .ok fun r => cmpInt op (r.int c) (v.toInt junk)
  | .int64 => .ok fun r => cmpInt op (r.int c) (v.toInt junk)
  | .float64 => .ok fun r => cmpDouble op (r.double c) (v.toDouble junk)
  | .symbol => cmpSymbol s op c v
  | .float32 => .error ⟨.unsupported, ""⟩

def comparison (op : Cmp) : Expr → Expr → Except Failure (Row n → Bool)
  | .ident name, rhs =>
    match resolveCol s name with
    | none => .error ⟨.schema, "unknown column '"++name++"'"⟩
    | some c =>
      match evalConst rhs with
      | none => .error ⟨.unsupported, "WHERE rhs must be a constant"⟩
      | some v => cmpColumn s junk op c v
  | _, _ => .error ⟨.unsupported, "WHERE lhs must be a column name"⟩

/-- Both sides of an OR are evaluated: the first code counts, the last text stays. -/
def orFailure (f g : Failure) : Failure := ⟨f.code, if g.text = "" then f.text else g.text⟩

def applyFilterExpr (rows : List (Row n)) : Expr → List Bool → Except Failure (List Bool)
  | .litInt v, bm => .ok (if v = 0 then bm.map fun _ => false else bm)
  | .and a b, bm =>
    match applyFilterExpr rows a bm with
    | .ok x => applyFilterExpr rows b x
    | .error f => .error f
  | .or a b, bm =>
    match applyFilterExpr rows a (rows.map fun _ => true), applyFilterExpr rows b (rows.map fun _ => true) with
    | .ok x, .ok y => .ok (List.zipWith (· && ·) bm (List.zipWith (· || ·) x y))
    | .error f, .error g => .error (orFailure f g)
    | .error f, .ok _ => .error f
    | .ok _, .error g => .error g
  | .not a, bm =>
    match applyFilterExpr rows a (rows.map fun _ => true) with
    | .ok x => .ok (List.zipWith (fun b t => b && !t) bm x)
    | .error f => .error f
  | .cmp op a b, bm =>
    match comparison s junk op a b with
    | .ok p => .ok (List.zipWith (· && ·) bm (rows.map p))
    | .error f => .error f
  | e, _ => .error ⟨.unsupported, "unsupported WHERE expr kind "++toString e.kind⟩

def select (rows : List (Row n)) (bm : List Bool) : List (Row n) :=
  ((rows.zip bm).filter Prod.snd).map Prod.fst

def accepts : Expr → Except Failure (Row n → Bool)
  | .litInt v => .ok fun _ => v ≠ 0
  | .and a b =>
    match accepts a with
    | .ok p => (accepts b).map fun q r => p r && q r
    | .error f => .error f
  | .or a b =>
    match accepts a, accepts b with
    | .ok p, .ok q => .ok fun r => p r || q r
    | .error f, .error g => .error (orFailure f g)
    | .error f, .ok _ => .error f
    | .ok _, .error g => .error g
  | .not a => (accepts a).map fun p r => !p r
  | .cmp op a b => comparison s junk op a b
  | e => .error ⟨.unsupported, "unsupported WHERE expr kind "++toString e.kind⟩

variable {s junk}

theorem zip_marks {α : Type} (f : Bool → Bool → Bool) (xs : List α) (p q : α → Bool) :
    List.zipWith f (xs.map p) (xs.map q) = xs.map fun x => f (p x) (q x) := by
  rw [zipWith_map, zipWith_self]

/-- The bitmap is the truth of the expression row by row, and whether it is
refused does not depend on the block. -/
theorem applyFilterExpr_eq (rows : List (Row n)) (e : Expr) (q : Row n → Bool) :
    applyFilterExpr s junk rows e (rows.map q) = (accepts s junk e).map fun p => rows.map fun r =>
    q r && p r := by
  induction e generalizing q with
  | litInt v =>
    by_cases hv : v = 0 <;> simp [applyFilterExpr, accepts, Except.map, hv]
  | and a b iha ihb =>
    rw [applyFilterExpr, accepts, iha]
    cases accepts s junk a with
    | error f => rfl
    | ok p =>
      simp only [Except.map]
      rw [ihb]
      cases accepts s junk b with
      | error f => rfl
      | ok p' => simp only [Except.map, Bool.and_assoc]
  | or a b iha ihb =>
    rw [applyFilterExpr, accepts, iha, ihb]
    cases accepts s junk a with
    | error f => cases accepts s junk b <;> rfl
    | ok p =>
      cases accepts s junk b with
      | error g => rfl
      | ok p' => simp only [Except.map, Bool.true_and, zip_marks]
  | not a iha =>
    rw [applyFilterExpr, accepts, iha]
    cases accepts s junk a with
    | error f => rfl
    | ok p => simp only [Except.map, Bool.true_and, zip_marks]
  | cmp op a b =>
    rw [applyFilterExpr, accepts]
    cases comparison s junk op a b with
    | error f => rfl
    | ok p => simp only [Except.map, zip_marks]
  | _ => rfl

theorem select_map (rows : List (Row n)) (p : Row n → Bool) : select rows (rows.map p) = rows.filter p := by
  induction rows with
  | nil => rfl
  | cons r rows ih =>
    rw [select] at ih ⊢
    rw [map_cons, zip_cons_cons, filter_cons, filter_cons]
    split
    · rw [map_cons, ih]
    · exact ih

end Filtering

/-! ### Bounds of the time -/

def raiseLo (r : TsRange) (v : Int64) : TsRange :=
  if r.lo.all fun lo => lo < v then { r with lo := some v } else r

def lowerHi (r : TsRange) (v : Int64) : TsRange :=
  if r.hi.all fun hi => v < hi then { r with hi := some v } else r

/-- The bounds of a strict comparison stay at the ends of the int64 range. -/
def narrow (r : TsRange) (v : Int64) : Cmp → TsRange
  | .ge => raiseLo r v
  | .gt => raiseLo r (if v = Int64.maxValue then v else v+1)
  | .le => lowerHi r v
  | .lt => lowerHi r (if v = Int64.minValue then v else v-1)
  | .eq => lowerHi (raiseLo r v) v
  | .ne => r

section Bounds

variable {n : ℕ} (s : Schema n)

/-- A comparison counts with the time column on the left and a number on the right. -/
def comparisonBounds (r : TsRange) (op : Cmp) : Expr → Expr → TsRange
  | .ident name, .litInt v => if resolveCol s name = some s.tsCol then narrow r v op else r
  | .ident name, .litTs v => if resolveCol s name = some s.tsCol then narrow r v op else r
  | _, _ => r

def extractTsBounds : Expr → TsRange → TsRange
  | .and a b, r => extractTsBounds b (extractTsBounds a r)
  | .cmp op a b, r => comparisonBounds s r op a b
  | _, r => r

def tsBounds (cond : Option Expr) : TsRange :=
  match cond with
  | some e => extractTsBounds s e TsRange.all
  | none => TsRange.all

end Bounds

variable {r : TsRange}

variable {v t : Int64}

/-! ### Bloom filters -/

section Blooms

variable {n : ℕ} (s : Schema n)

def symbolConstraint : Expr → Expr → List (Option (Fin n × UInt32))
  | .ident name, .litStr x =>
    match resolveCol s name with
    | none => []
    | some c =>
      if (s.cols c).type = .symbol then [(symtabLookup (s.cols c).symtab x).map fun code => (c, code)]
      else []
  | _, _ => []

def extractBloomConstraints : Expr → ℕ → List (Option (Fin n × UInt32))
  | .and a b, cap =>
    extractBloomConstraints a cap++
      extractBloomConstraints b (cap-(extractBloomConstraints a cap).length)
  | .cmp op a b, cap => if cap = 0 ∨ op ≠ .eq then [] else symbolConstraint s a b
  | _, _ => []

def bloomConstraintMax : ℕ := 8

def bloomConstraints (cond : Option Expr) : List (Option (Fin n × UInt32)) :=
  match cond with
  | some e => extractBloomConstraints s e bloomConstraintMax
  | none => []

variable {s}

def BlockState.paired : BlockState → Bool
  | .ready => true
  | .damaged => true
  | .short => false
  | .mismatch => false

def bloomMisses (src : Source s) : Option (Fin n × UInt32) → Bool
  | none => true
  | some (c, code) => BlockState.paired (src.state c) && (src.bloom c).any fun b => !bloomTest b code

def bloomCanSkipBlock (src : Source s) (cs : List (Option (Fin n × UInt32))) : Bool :=
    cs.any (bloomMisses src)

end Blooms

/-! ### Skipping -/

section Skipping

variable {n : ℕ} {s : Schema n} {junk : UInt64} {e : Expr} {p : Row n → Bool}

def rangeSkips (cond : Option Expr) (src : Source s) : Bool :=
  (tsBounds s cond).bounded && tsRangeExcludes (tsBounds s cond) src.tsMin src.tsMax

def bloomSkips (cond : Option Expr) (src : Source s) : Bool :=
  !src.mem && bloomCanSkipBlock src (bloomConstraints s cond)

end Skipping

end QEngine.WhereFilters

import QEngine.IndexFiles
import QEngine.SortedRefs

/-!
# Aligning a column with the timestamps

The reader of a partition decides from the index entries which block of a column
holds the values of a block of timestamps: by durable ordinals, or else by the
time range and the number of rows. Without an answer it reads zeros when the
column was added later, and an error otherwise.
-/

namespace QEngine.ColumnAlignment
open List IndexFiles SortedRefs

def effOrd (m : Meta) (pos : ℕ) : UInt32 := m.ord.getD (UInt32.ofNat pos)

def metaAgrees (c t : Meta) : Bool :=
  decide (c.count = t.count) && decide (c.tsMin = t.tsMin) &&
    (c.ord.isNone || t.ord.isNone || decide (c.tsMax = t.tsMax))

def ordMode (cm : List Meta) : Bool := !cm.isEmpty && cm.all fun c => c.ord.isSome

def exactAt (byOrd : Bool) (b : ℕ) (c t : Meta) : Bool :=
  if byOrd = true ∧ c.ord.getD 0 ≠ effOrd t b then false
  else if c.ord.isSome = true ∧ t.ord.isNone = true then false
  else metaAgrees c t

def exact (ts cm : List Meta) : Bool :=
  decide (ts.length ≤ cm.length) && (cm.zip ts).zipIdx.all fun r => exactAt (ordMode cm) r.2 r.1.1 r.1.2

inductive Pick
  | none
  | mismatch
  | block (k : ℕ)
  deriving DecidableEq

def Pick.isBlock : Pick → Bool
  | .block _ => true
  | _ => false

def Pick.ofFind : Option ℕ → Pick
  | some k => .block k
  | Option.none => .none

def ordKey (m : Meta) : ℕ := (m.ord.getD 0).toNat
def fullKey (m : Meta) : ℤ ×ₗ ℤ ×ₗ ℕ := toLex (m.tsMin.toInt, toLex (m.tsMax.toInt, m.count.toNat))
def relKey (m : Meta) : ℤ ×ₗ ℕ := toLex (m.tsMin.toInt, m.count.toNat)

def ordPick (cm : List Meta) (b : ℕ) (t : Meta) : Pick :=
  match find (refs ordKey cm) (effOrd t b).toNat with
  | none => .none
  | some k => if cm[k]?.any (fun c => metaAgrees c t) = true then .block k else .mismatch

def ordPicks (ts cm : List Meta) : List Pick := ts.mapIdx (ordPick cm)

def suffixShaped (ps : List Pick) : Bool :=
  ps.zipIdx.all fun r => r.1.isBlock == decide (ps.length-ps.countP Pick.isBlock ≤ r.2)

def fitsAt (ts cm : List Meta) (d : ℕ) : Bool := (cm.zip (ts.drop d)).all fun r => metaAgrees r.1 r.2

def offsets (ts cm : List Meta) : List ℕ := (List.range (ts.length-cm.length+1)).filter (fitsAt ts cm)

def fitPicks (ts cm : List Meta) (d : ℕ) : List Pick :=
  ts.mapIdx fun b _ => if d ≤ b ∧ b < d+cm.length then .block (b-d) else .none

/-- Blocks with the same times and counts; nothing if those of the timestamps repeat. -/
def legacyPair (ts cm : List Meta) : Option (List Pick) :=
  if distinct (refs fullKey ts) = false then none
  else
    let full := ts.map fun t => Pick.ofFind (find (refs fullKey cm) (fullKey t))
    if full.any (fun p => decide (p = .none)) = true ∧ distinct (refs relKey ts) = true then
      some (ts.map fun t =>
        match find (refs fullKey cm) (fullKey t) with
        | some k => .block k
        | none => Pick.ofFind (find (refs relKey cm) (relKey t)))
    else some full

structure Plan where
  picks : List Pick
  alterShaped : Bool
  deriving DecidableEq

def blank (ts : List Meta) : List Pick := ts.map fun _ => .none

def legacyPlan (ts cm : List Meta) : Plan :=
  if cm.length < ts.length then
    match offsets ts cm with
    | [] => ⟨(legacyPair ts cm).getD (blank ts), false⟩
    | [d] => ⟨fitPicks ts cm d, decide (d = ts.length-cm.length)⟩
    | _ => ⟨blank ts, false⟩
  else ⟨(legacyPair ts cm).getD (blank ts), false⟩

/-- `late` says that a column without entries was added later. -/
def plan (late : Bool) (ts cm : List Meta) : Plan :=
  if cm = [] then ⟨blank ts, late⟩
  else if ordMode cm = true then
    let ps := ordPicks ts cm
    if ps.any (fun p => decide (p = .mismatch)) = true then ⟨ps, false⟩
    else if ps.any Pick.isBlock = true then ⟨ps, suffixShaped ps⟩
    else legacyPlan ts cm
  else legacyPlan ts cm

inductive Slot
  | block (k : ℕ)
  | added
  | hole
  | mismatch
  deriving DecidableEq

def toSlot (alterShaped : Bool) : Pick → Slot
  | .block k => .block k
  | .mismatch => .mismatch
  | .none => if alterShaped then .added else .hole

def alignColumn (late : Bool) (ts cm : List Meta) : List Slot :=
  if exact ts cm = true then (List.range ts.length).map .block
  else (plan late ts cm).picks.map (toSlot (plan late ts cm).alterShaped)

theorem metaAgrees_iff (c t : Meta) : metaAgrees c t = true ↔
    c.count = t.count ∧ c.tsMin = t.tsMin ∧ (c.ord = none ∨ t.ord = none ∨ c.tsMax = t.tsMax) := by
  simp [metaAgrees, and_assoc, or_assoc]

end QEngine.ColumnAlignment

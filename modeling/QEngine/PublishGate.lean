import QEngine.PartitionOpen

/-!
# Publishing a pushed timestamp block

A node that receives blocks column by column publishes a timestamp block only when
every other column has a block for it, or has none at all and was added later.
-/

namespace QEngine.PublishGate
open List ByteFields IndexFiles SortedRefs ColumnAlignment PartitionOpen

inductive Ready
  | ok
  | invalid
  | io
  | busy (ci : ℕ)
  deriving DecidableEq

def corrupt (c : ColumnFile) : Bool := c.idx.any fun bs => (readIdxHeaderEx bs).isNone

def columnReady (p : Partition) (ord : Option UInt32) (tsMin : Int64) (count : UInt32) (ci : ℕ) : Bool :=
  let es := (p.col ci).entries
  let tsCnt := declared p.ts.idx
  if declared (p.col ci).idx = 0 then
    decide (tsCnt ≠ 0) && lateAdd (p.cols.map fun c => declared c.idx) (readFile p.ts.idx).ncols ci
  else
    match ord with
    | some v => es.zipIdx.any fun r => decide (effOrd r.1 r.2 = v ∧ r.1.tsMin = tsMin ∧ r.1.count = count)
    | none =>
      es[tsCnt]?.any (fun e => decide (e.tsMin = tsMin ∧ e.count = count)) ||
        es.any fun e => decide (e.tsMin = tsMin ∧ e.count = count)

def tsPublishReady (p : Partition) (ord : Option UInt32) (tsMin : Int64) (count : UInt32) : Ready :=
  if p.cols.length ≤ p.tsIdx then .invalid
  else if p.cols.length ≤ 1 then .ok
  else if p.cols.any corrupt = true then .io
  else
    match (List.range p.cols.length).find? fun ci =>
      decide (ci ≠ p.tsIdx) && !columnReady p ord tsMin count ci with
    | some ci => .busy ci
    | none => .ok

end QEngine.PublishGate

import Mathlib.Tactic

/-!
# A table with a redo log

A commit appends the rows of a batch to the log and leaves them in the memtable. A
flush publishes the memtable partition by partition and stamps each one with the
sequence number committed last. After a crash a record is skipped if every
partition its rows belong to carries a stamp at least as high.
-/

namespace QEngine.RedoLog
open List

inductive PartitionUnit where
  | hour
  | day
  deriving DecidableEq

def PartitionUnit.seconds : PartitionUnit → ℤ
  | .hour => 3600
  | .day => 86400

/-- The bucket of a timestamp in nanoseconds; C division rounds to zero. -/
def partIndex (u : PartitionUnit) (ts : ℤ) : ℤ :=
  if 0 ≤ ts then ts.tdiv (u.seconds*1000000000)
  else (ts-u.seconds*1000000000+1).tdiv (u.seconds*1000000000)

def partName (u : PartitionUnit) (ts : ℤ) : ℤ := ts.tdiv 1000000000/u.seconds

/-- The rows of a run are told apart by `id`, in place of the other columns. -/
structure Row where
  id : ℕ
  ts : ℤ
  deriving DecidableEq

/-- A partition directory: the rows of its blocks and the stamp of its
timestamp column, which is written last. -/
structure Part where
  name : ℤ
  rows : List Row
  maxSeq : ℕ
  deriving DecidableEq

structure Record where
  seq : ℕ
  rows : List Row
  deriving DecidableEq

structure Schema where
  unit : PartitionUnit
  blockPoints : ℕ
  order : List Row → List Row
  order_perm : ∀ rows, (order rows).Perm rows

structure Store where
  parts : List Part
  wal : List Record
  deriving DecidableEq

structure Table where
  memtable : List Row
  memLogged : ℕ
  commitSeq : ℕ
  walIncomplete : Bool
  deriving DecidableEq

def partRows (parts : List Part) : List Row := parts.flatMap Part.rows

def checkpoint : List Part → ℤ → ℕ
  | [], _ => 0
  | p::ps, name => if p.name = name then p.maxSeq else checkpoint ps name

def publish (hwm : ℕ) (name : ℤ) (rows : List Row) : List Part → List Part
  | [] => [⟨name, rows, hwm⟩]
  | p::ps =>
    if p.name = name then ⟨name, p.rows++rows, if p.maxSeq < hwm then hwm else p.maxSeq⟩::ps
    else p::publish hwm name rows ps

def collectDays : List ℤ → List ℤ → List ℤ
  | found, [] => found
  | found, d::ds => collectDays (if d ∈ found then found else found++[d]) ds

def days (sc : Schema) (rows : List Row) : List ℤ :=
  collectDays [] (rows.map fun r => partIndex sc.unit r.ts)

def dayRows (sc : Schema) (rows : List Row) (d : ℤ) : List Row :=
  (sc.order rows).filter fun r => partIndex sc.unit r.ts = d

def publishDay (sc : Schema) (hwm : ℕ) (rows : List Row) (parts : List Part) (d : ℤ) : List Part :=
  match dayRows sc rows d with
  | [] => parts
  | r::rs => publish hwm (partName sc.unit r.ts) (r::rs) parts

def publishDays (sc : Schema) (hwm : ℕ) (rows : List Row) (ds : List ℤ) (parts : List Part) :
    List Part :=
  ds.foldl (publishDay sc hwm rows) parts

def publishBucket (u : PartitionUnit) (hwm : ℕ) (sorted : List Row) (parts : List Part) (d : ℤ) :
    List Part :=
  match sorted.filter fun r => partIndex u r.ts = d with
  | [] => parts
  | r::rs => publish hwm (partName u r.ts) (r::rs) parts

def publishBuckets (u : PartitionUnit) (hwm : ℕ) (sorted : List Row) (ds : List ℤ)
    (parts : List Part) : List Part :=
  ds.foldl (publishBucket u hwm sorted) parts

/-- How a flush ends: it publishes every partition, or an I/O error or a crash
ends it when those named have been published. -/
inductive FlushEnd where
  | done
  | fails (published : List ℤ)
  | crashes (published : List ℤ)
  deriving DecidableEq

inductive Outcome where
  | ok (d : Store) (t : Table)
  | failed (d : Store) (t : Table)
  | crashed (d : Store)
  deriving DecidableEq

def flushAndClear (sc : Schema) (replaying : Bool) (e : FlushEnd) (d : Store) (t : Table) : Outcome :=
  if t.memtable = [] then .ok d t
  else if t.walIncomplete then .failed d t
  else
    let published (ds : List ℤ) := publishDays sc t.commitSeq t.memtable ds d.parts
    let ds := days sc t.memtable
    match e with
    | .done =>
      .ok ⟨published ds, if replaying then d.wal else []⟩ { t with memtable := [], memLogged := 0 }
    | .fails gone => .failed { d with parts := published (ds.filter (· ∈ gone)) } t
    | .crashes gone => .crashed { d with parts := published (ds.filter (· ∈ gone)) }

/-- The rows not yet logged become one record; absent if the log is frozen. -/
def redoLog (d : Store) (t : Table) : Option (Store × Table) :=
  if t.walIncomplete then none
  else if t.memtable.length ≤ t.memLogged then some (d, t)
  else
    some ({ d with wal := d.wal++[⟨t.commitSeq+1, t.memtable.drop t.memLogged⟩] },
      { t with commitSeq := t.commitSeq+1, memLogged := t.memtable.length })

def recCutoff (u : PartitionUnit) (parts : List Part) (rows : List Row) : ℕ :=
  (rows.map fun r => checkpoint parts (partName u r.ts)).min?.getD 0

structure Replay where
  store : Store
  table : Table
  lastComplete : ℕ
  maxSeq : ℕ
  deriving DecidableEq

inductive Replayed where
  | complete (s : Replay)
  | aborted (seq : ℕ) (s : Replay)
  | crashed (d : Store)
  deriving DecidableEq

/-- The rows of a record enter the memtable one by one; a full memtable aborts. -/
def applyRows (sc : Schema) (r : Record) (s : Replay) : Replayed :=
  let room := sc.blockPoints-s.table.memtable.length
  let table := { s.table with memtable := s.table.memtable++r.rows.take room }
  if r.rows.length ≤ room then .complete { s with table := table, lastComplete := r.seq }
  else .aborted r.seq { s with table := table }

/-- One record of the replay; `cps` are the partitions as they were opened. A
record that does not fit is preceded by a flush. The dedup ledger (`TSDB_DEDUP`) is
off, so no record is left out because its id has been seen. -/
def replayApply (sc : Schema) (cps : List Part) (e : FlushEnd) (r : Record) (s : Replay) : Replayed :=
  let s := { s with maxSeq := max s.maxSeq r.seq }
  if r.seq ≤ recCutoff sc.unit cps r.rows then .complete s
  else if sc.blockPoints < s.table.memtable.length+r.rows.length ∧ 0 < s.table.memtable.length then
    let t := { s.table with commitSeq := max s.lastComplete s.table.commitSeq }
    match flushAndClear sc true e s.store t with
    | .ok d t => applyRows sc r { s with store := d, table := { t with memLogged := 0 } }
    | .failed d t => .aborted r.seq { s with store := d, table := t }
    | .crashed d => .crashed d
  else applyRows sc r s

def walReplay (sc : Schema) (cps : List Part) (ends : ℕ → FlushEnd) : List Record → Replay → Replayed
  | [], s => .complete s
  | r::rs, s =>
    match replayApply sc cps (ends r.seq) r s with
    | .complete s => walReplay sc cps ends rs s
    | .aborted seq s => .aborted seq s
    | .crashed d => .crashed d

def maxSeq (seqs : List ℕ) : ℕ := seqs.foldr max 0

/-- Opening a table: after an abort the records behind it decide whether the log is frozen. -/
def redoRecover (sc : Schema) (ends : ℕ → FlushEnd) (d : Store) : Store × Option Table :=
  let cutoff := maxSeq (d.parts.map Part.maxSeq)
  match walReplay sc d.parts ends d.wal ⟨d, ⟨[], 0, 0, false⟩, cutoff, 0⟩ with
  | .complete s =>
    (s.store, some { s.table with
      commitSeq := max s.table.commitSeq (max s.maxSeq cutoff)
      memLogged := s.table.memtable.length })
  | .aborted seq s =>
    let unread := d.wal.filter fun r => seq+1 ≤ r.seq ∧ recCutoff sc.unit d.parts r.rows < r.seq
    let hi := max (max s.maxSeq cutoff) (maxSeq (d.wal.map Record.seq))
    (s.store, some { s.table with
      commitSeq := max s.table.commitSeq hi
      memLogged := s.table.memtable.length
      walIncomplete := unread ≠ [] })
  | .crashed d => (d, none)

structure Db where
  store : Store
  table : Option Table
  nextId : ℕ
  batch : List Row
  acked : List Row
  deriving DecidableEq

inductive Event where
  | row (ts : ℤ) (e : FlushEnd)
  | commit
  | commitCrash
  | flush (e : FlushEnd)
  | crash
  | reopen (ends : ℕ → FlushEnd)

def Db.after (db : Db) : Outcome → Db
  | .ok d t => { db with store := d, table := some t }
  | .failed d t => { db with store := d, table := some t }
  | .crashed d => { db with store := d, table := none, batch := [] }

def addRow (sc : Schema) (ts : ℤ) (e : FlushEnd) (db : Db) (t : Table) : Db :=
  let o := if sc.blockPoints ≤ t.memtable.length then flushAndClear sc false e db.store t
    else .ok db.store t
  match o with
  | .ok d t =>
    if sc.blockPoints ≤ t.memtable.length then db.after (.failed d t)
    else
      let r : Row := ⟨db.nextId, ts⟩
      { db with
          store := d
          table := some { t with memtable := t.memtable++[r] }
          nextId := db.nextId+1
          batch := db.batch++[r] }
  | o => db.after o

/-- A commit that finds the log frozen is refused; `commitCrash` ends the
process between the append and the return of the call. -/
def step (sc : Schema) (db : Db) : Event → Option Db
  | .row ts e => db.table.map (addRow sc ts e db)
  | .commit => db.table.map fun t =>
    match redoLog db.store t with
    | none => db
    | some (d, t) => { db with store := d, table := some t, batch := [], acked := db.acked++db.batch }
  | .commitCrash => db.table.map fun t =>
    { db with store := ((redoLog db.store t).map Prod.fst).getD db.store, table := none, batch := [] }
  | .flush e => db.table.map fun t => db.after (flushAndClear sc false e db.store t)
  | .crash => some { db with table := none, batch := [] }
  | .reopen ends =>
    match db.table with
    | some _ => none
    | none =>
      let (d, t) := redoRecover sc ends db.store
      some { db with store := d, table := t }

def created : Db := ⟨⟨[], []⟩, some ⟨[], 0, 0, false⟩, 0, [], []⟩

theorem checkpoint_publish (hwm : ℕ) (name : ℤ) (rows : List Row) (parts : List Part) (n : ℤ) :
    checkpoint (publish hwm name rows parts) n =
      if n = name then max (checkpoint parts name) hwm else checkpoint parts n := by
  induction parts with
  | nil =>
    by_cases h : n = name
    · simp [publish, checkpoint, h]
    · simp [publish, checkpoint, h, Ne.symm h]
  | cons p ps ih =>
    by_cases hp : p.name = name
    · by_cases h : n = name
      · simp only [publish, if_pos hp, checkpoint, h]
        split_ifs <;> omega
      · simp only [publish, if_pos hp, checkpoint, if_neg h, if_neg (Ne.symm h)]
        rw [if_neg (by rw [hp]; exact Ne.symm h)]
    · by_cases h : n = name
      · simp only [publish, if_neg hp, checkpoint, ih, if_pos h]
        rw [if_neg (by rw [h]; exact hp)]
      · simp only [publish, if_neg hp, checkpoint, ih, if_neg h]

variable {rows : List Row}

theorem partRows_publish (hwm : ℕ) {name : ℤ} (parts : List Part) :
    (partRows (publish hwm name rows parts)).Perm (partRows parts++rows) := by
  induction parts with
  | nil => simp [publish, partRows]
  | cons p ps ih =>
    by_cases hp : p.name = name
    · simp only [publish, if_pos hp, partRows, flatMap_cons, append_assoc]
      exact (perm_append_left_iff _).mpr perm_append_comm
    · simp only [publish, if_neg hp, partRows, flatMap_cons, append_assoc]
      exact (perm_append_left_iff _).mpr ih

def Named (u : PartitionUnit) (ts : ℤ) : Prop := partIndex u ts = partName u ts

instance (u : PartitionUnit) (ts : ℤ) : Decidable (Named u ts) :=
  inferInstanceAs (Decidable (partIndex u ts = partName u ts))

variable (sc : Schema)

theorem dayRows_perm (rows : List Row) (d : ℤ) :
    (dayRows sc rows d).Perm (rows.filter fun r => partIndex sc.unit r.ts = d) :=
  (sc.order_perm rows).filter _

theorem mem_collectDays (found ds : List ℤ) (d : ℤ) : d ∈ collectDays found ds ↔ d ∈ found ∨ d ∈ ds := by
  induction ds generalizing found with
  | nil => simp [collectDays]
  | cons e es ih =>
    rw [collectDays, ih]
    split_ifs with h
    · simp only [mem_cons]
      constructor
      · rintro (hf | hs)
        · exact .inl hf
        · exact .inr (.inr hs)
      rintro (hf | rfl | hs)
      · exact .inl hf
      · exact .inl h
      · exact .inr hs
    · simp [or_assoc]

theorem collectDays_nodup (found ds : List ℤ) (h : found.Nodup) : (collectDays found ds).Nodup := by
  induction ds generalizing found with
  | nil => exact h
  | cons e es ih =>
    rw [collectDays]
    apply ih
    split_ifs with he
    · exact h
    exact nodup_append.mpr ⟨h, nodup_singleton e, fun a ha b hb hab => by
      rw [mem_singleton.mp hb] at hab
      rw [hab] at ha
      exact he ha⟩

theorem days_nodup (rows : List Row) : (days sc rows).Nodup :=
  collectDays_nodup [] _ nodup_nil

theorem mem_days (rows : List Row) (d : ℤ) : d ∈ days sc rows ↔ ∃ r ∈ rows, partIndex sc.unit r.ts = d := by
  simp [days, mem_collectDays]

theorem publishBucket_rows (u : PartitionUnit) (hwm : ℕ) (sorted : List Row) (parts : List Part)
    (d : ℤ) : (partRows (publishBucket u hwm sorted parts d)).Perm
      (partRows parts++sorted.filter fun r => partIndex u r.ts = d) := by
  rw [publishBucket]
  cases hr : sorted.filter fun r => partIndex u r.ts = d with
  | nil => simp
  | cons r rs => exact partRows_publish hwm _

theorem filter_split {α : Type} {p q : α → Bool} (xs : List α) (h : ∀ x, p x = true → q x = false) :
    (xs.filter p++xs.filter q).Perm (xs.filter fun x => p x || q x) := by
  induction xs with
  | nil => exact List.Perm.refl _
  | cons x xs ih =>
    cases hp : p x with
    | true =>
      have hq := h x hp
      simp only [filter_cons, hp, hq, Bool.true_or, if_true, cons_append]
      exact ih.cons x
    | false =>
      cases hq : q x with
      | true =>
        simp only [filter_cons, hp, hq, Bool.false_or, if_true]
        exact perm_middle.trans (ih.cons x)
      | false =>
        simp only [filter_cons, hp, hq, Bool.false_or]
        exact ih

theorem publishBuckets_rows (u : PartitionUnit) (hwm : ℕ) (sorted : List Row) (ds : List ℤ)
    (parts : List Part) (hu : ds.Nodup) : (partRows (publishBuckets u hwm sorted ds parts)).Perm
      (partRows parts++sorted.filter fun r => partIndex u r.ts ∈ ds) := by
  induction ds generalizing parts with
  | nil => simp [publishBuckets]
  | cons d ds ih =>
    obtain ⟨hnot, hu'⟩ := nodup_cons.mp hu
    have hp := publishBucket_rows u hwm sorted parts d
    have ihp := ih (publishBucket u hwm sorted parts d) hu'
    refine (ihp.trans (hp.append_right _)).trans ?_
    rw [append_assoc]
    refine (perm_append_left_iff _).mpr ((filter_split _ ?_).trans ?_)
    · intro r hr
      simp only [decide_eq_true_eq] at hr
      simp only [hr, hnot, decide_false]
    have hfun : (fun r : Row => decide (partIndex u r.ts = d) || decide (partIndex u r.ts ∈ ds)) =
        fun r => decide (partIndex u r.ts ∈ d::ds) := by
      funext r
      simp [mem_cons]
    rw [hfun]

theorem publishDays_rows (hwm : ℕ) (rows : List Row) {ds : List ℤ} (parts : List Part)
    (hu : ds.Nodup) : (partRows (publishDays sc hwm rows ds parts)).Perm
      (partRows parts++rows.filter fun r => partIndex sc.unit r.ts ∈ ds) := by
  rw [publishDays]
  refine (publishBuckets_rows _ hwm _ ds _ hu).trans ?_
  exact (perm_append_left_iff _).mpr ((sc.order_perm rows).filter _)

theorem publishDay_checkpoint (hwm : ℕ) (parts : List Part) {d : ℤ}
    (hn : ∀ r ∈ rows, Named sc.unit r.ts) (hd : d ∈ days sc rows) (n : ℤ) :
    checkpoint (publishDay sc hwm rows parts d) n =
      if n = d then max (checkpoint parts n) hwm else checkpoint parts n := by
  have hperm := dayRows_perm sc rows d
  rw [publishDay]
  cases hr : dayRows sc rows d with
  | nil =>
    obtain ⟨r, hm, hrd⟩ := (mem_days sc _ d).mp hd
    have hin : r ∈ rows.filter fun r => partIndex sc.unit r.ts = d :=
      mem_filter.mpr ⟨hm, decide_eq_true hrd⟩
    rw [hr] at hperm
    rw [hperm.symm.eq_nil] at hin
    cases hin
  | cons r rs =>
    have hin : r ∈ rows.filter fun r => partIndex sc.unit r.ts = d :=
      hperm.subset (by rw [hr]; exact mem_cons_self)
    obtain ⟨hm, hrd⟩ := mem_filter.mp hin
    have hname : partName sc.unit r.ts = d := by
      rw [← hn r hm]
      exact of_decide_eq_true hrd
    dsimp only
    rw [hname, checkpoint_publish]
    by_cases h : n = d
    · rw [if_pos h, if_pos h, h]
    · rw [if_neg h, if_neg h]

theorem publishDays_spec (hwm : ℕ) {ds : List ℤ} (parts : List Part)
    (hn : ∀ r ∈ rows, Named sc.unit r.ts) (hd : ∀ d ∈ ds, d ∈ days sc rows) (hu : ds.Nodup) :
    (∀ n, checkpoint (publishDays sc hwm rows ds parts) n =
      if n ∈ ds then max (checkpoint parts n) hwm else checkpoint parts n) ∧
    (partRows (publishDays sc hwm rows ds parts)).Perm
      (partRows parts++rows.filter fun r => partIndex sc.unit r.ts ∈ ds) := by
  refine ⟨?_, publishDays_rows sc hwm _ _ hu⟩
  induction ds generalizing parts with
  | nil => simp [publishDays]
  | cons d ds ih =>
    obtain ⟨hnot, hu'⟩ := nodup_cons.mp hu
    have hc := publishDay_checkpoint sc hwm parts hn (hd d mem_cons_self)
    have ihc := ih (publishDay sc hwm rows parts d) (fun e he => hd e (mem_cons_of_mem _ he)) hu'
    intro n
    rw [show publishDays sc hwm rows (d::ds) parts =
      publishDays sc hwm rows ds (publishDay sc hwm rows parts d) from rfl, ihc, hc]
    by_cases h : n = d
    · rw [h, if_neg hnot, if_pos rfl, if_pos mem_cons_self]
    by_cases hm : n ∈ ds
    · rw [if_pos hm, if_neg h, if_pos (mem_cons_of_mem _ hm)]
    · rw [if_neg hm, if_neg h, if_neg (by simp [h, hm])]

end QEngine.RedoLog

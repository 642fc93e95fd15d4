import QEngine.RowOrigins
import QEngine.RedoVisibility

/-!
# Deleting a range of partitions

DELETE removes the partitions that lie wholly inside its range, after a flush if
the memtable holds a row of such a partition. The stamp is removed with the
partition, so a record that was published but not yet truncated from the log is
replayed after the next crash.
-/

namespace QEngine.RangeDelete
open Option List StepRuns RedoLog RedoRecovery RedoVisibility RowOrigins

structure Cut where
  cutoff : ℤ
  opLt : Bool
  inclusive : Bool
  deriving DecidableEq

def span (u : PartitionUnit) : ℤ := u.seconds*1000000000

def partDirRange (u : PartitionUnit) (name : ℤ) : ℤ × ℤ := (name*span u, name*span u+span u-1)

def tsPartRange (u : PartitionUnit) (ts : ℤ) : ℤ × ℤ := partDirRange u (partIndex u ts)

def partFullyCovered (c : Cut) (range : ℤ × ℤ) : Bool :=
  if c.opLt then
    if c.inclusive then range.2 ≤ c.cutoff else range.2 < c.cutoff
  else
    if c.inclusive then range.1 ≥ c.cutoff else range.1 > c.cutoff

def memtableHasCoveredRow (u : PartitionUnit) (c : Cut) : List Row → Bool
  | [] => false
  | r::rs =>
    let extreme := rs.foldl (fun e x => if (if c.opLt then x.ts < e else e < x.ts) then x.ts else e) r.ts
    partFullyCovered c (tsPartRange u extreme)

def covered (u : PartitionUnit) (c : Cut) (p : Part) : Bool := partFullyCovered c (partDirRange u p.name)

def materialise (sc : Schema) (c : Cut) (e : FlushEnd) (d : Store) (t : Table) : Outcome :=
  if memtableHasCoveredRow sc.unit c t.memtable then flushAndClear sc false e d t else .ok d t

def removeParts (p : Part → Bool) (d : Store) : Store :=
  { d with parts := d.parts.filter fun q => !p q }

/-- Partitions are removed even when the flush failed; the call then returns
its error. -/
def deleteRange (sc : Schema) (c : Cut) (e : FlushEnd) (d : Store) (t : Table) : Outcome :=
  match materialise sc c e d t with
  | .ok d t => .ok (removeParts (covered sc.unit c) d) t
  | .failed d t => .failed (removeParts (covered sc.unit c) d) t
  | .crashed d => .crashed d

structure History where
  db : Db
  deleted : List Row
  deriving DecidableEq

/-- `deleteCrash` ends the process when the partitions named are removed. -/
inductive Call where
  | db (ev : Event)
  | delete (c : Cut) (e : FlushEnd)
  | deleteCrash (c : Cut) (e : FlushEnd) (names : List ℤ)

def removedRows (sc : Schema) (c : Cut) (d : Store) : List Row :=
  partRows (d.parts.filter (covered sc.unit c))

def removedBy (sc : Schema) (c : Cut) : Outcome → List Row
  | .ok d _ => removedRows sc c d
  | _ => []

def deleteCrashed (sc : Schema) (c : Cut) (e : FlushEnd) (names : List ℤ) (d : Store) (t : Table) :
    Store :=
  match materialise sc c e d t with
  | .ok d _ | .failed d _ => removeParts (fun p => covered sc.unit c p && p.name ∈ names) d
  | .crashed d => d

def step (sc : Schema) (s : History) : Call → Option History
  | .db ev => (RedoLog.step sc s.db ev).map fun db => { s with db := db }
  | .delete c e => s.db.table.map fun t =>
    ⟨s.db.after (deleteRange sc c e s.db.store t),
      s.deleted++removedBy sc c (materialise sc c e s.db.store t)⟩
  | .deleteCrash c e names => s.db.table.map fun t =>
    { s with db := s.db.after (.crashed (deleteCrashed sc c e names s.db.store t)) }

def started : History := ⟨created, []⟩

def StaysDeleted (sc : Schema) (s : History) : Prop :=
  ∀ x ∈ s.deleted, x ∉ visible sc s.db.store s.db.table

/-- Rows are filed by agreeing bucket and directory, and a delete that needs no flush finds no row of
the partitions it removes in a record of the log. -/
def Clean (sc : Schema) (s : History) : Call → Prop
  | .db ev => RowNamed sc s.db ev
  | .delete c _ => ∀ t ∈ s.db.table, memtableHasCoveredRow sc.unit c t.memtable = false →
    ∀ x ∈ removedRows sc c s.db.store, x ∉ walRows s.db.store.wal
  | .deleteCrash _ _ _ => True

instance (sc : Schema) (s : History) (call : Call) : Decidable (Clean sc s call) :=
  match call with
  | .db (.row ts _) => inferInstanceAs (Decidable (Named sc.unit ts))
  | .delete c _ =>
    inferInstanceAs (Decidable (∀ t ∈ s.db.table, memtableHasCoveredRow sc.unit c t.memtable = false →
    ∀ x ∈ removedRows sc c s.db.store, x ∉ walRows s.db.store.wal))
  | .db .commit | .db .commitCrash | .db (.flush _) | .db .crash | .db (.reopen _) | .deleteCrash _ _ _ =>
    isTrue trivial

/-! ### Rows and the partitions they are in -/

def Filed (u : PartitionUnit) (parts : List Part) : Prop := ∀ p ∈ parts, ∀ r ∈ p.rows,
    partIndex u r.ts = p.name

instance (u : PartitionUnit) (parts : List Part) : Decidable (Filed u parts) :=
  inferInstanceAs (Decidable (∀ p ∈ parts, ∀ r ∈ p.rows, partIndex u r.ts = p.name))

def deletes (u : PartitionUnit) (c : Cut) (ts : ℤ) : Bool := partFullyCovered c (tsPartRange u ts)

section
variable {u : PartitionUnit} {c : Cut}

theorem tdiv_neg_form {ts : ℤ} (h : ts < 0) (n : ℤ) : ts.tdiv n = -(-ts/n) := by
  rw [← Int.tdiv_eq_ediv_of_nonneg (by omega), Int.neg_tdiv, neg_neg]

theorem partIndex_eq (ts : ℤ) : partIndex u ts = ts/span u := by
  rw [partIndex]
  split_ifs with h
  · exact Int.tdiv_eq_ediv_of_nonneg h
  · rw [tdiv_neg_form (by cases u <;> simp only [PartitionUnit.seconds] <;> omega)]
    cases u <;> simp only [span, PartitionUnit.seconds] <;> omega

def Ahead (c : Cut) (a b : ℤ) : Prop := if c.opLt then a ≤ b else b ≤ a

theorem deletes_ahead {a b : ℤ} (h : Ahead c a b) (hb : deletes u c b = true) : deletes u c a = true := by
  simp only [deletes, partFullyCovered, tsPartRange, partDirRange, partIndex_eq, Ahead] at *
  cases u <;> simp only [span, PartitionUnit.seconds] at * <;> split_ifs at * <;> simp at * <;> omega

theorem extreme_ahead (rs : List Row) (a : ℤ) :
    let e := rs.foldl (fun e x => if (if c.opLt then x.ts < e else e < x.ts) then x.ts else e) a
    Ahead c e a ∧ ∀ x ∈ rs, Ahead c e x.ts := by
  induction rs generalizing a with
  | nil => simp [Ahead]
  | cons r rs ih =>
    obtain ⟨h, h'⟩ := ih (if (if c.opLt then r.ts < a else a < r.ts) then r.ts else a)
    refine ⟨?_, forall_mem_cons.mpr ⟨?_, h'⟩⟩
    all_goals
      simp only [foldl_cons, Ahead] at *
      split_ifs at * <;> omega

variable {sc : Schema} {parts : List Part} {rows : List Row}

theorem memtable_kept (h : memtableHasCoveredRow u c rows = false) :
    ∀ r ∈ rows, deletes u c r.ts = false := by
  cases rows with
  | nil => simp
  | cons r rs =>
    obtain ⟨ha, hs⟩ := extreme_ahead (c := c) rs r.ts
    intro x hx
    refine Bool.eq_false_iff.mpr fun hd => Bool.eq_false_iff.mp h ?_
    rcases mem_cons.mp hx with rfl | hx
    · exact deletes_ahead ha hd
    · exact deletes_ahead (hs x hx) hd

theorem publish_filed {name : ℤ} (hwm : ℕ)
    (hr : ∀ r ∈ rows, partIndex u r.ts = name) (h : Filed u parts) :
    Filed u (publish hwm name rows parts) := by
  induction parts with
  | nil => exact forall_mem_singleton.mpr hr
  | cons p ps ih =>
    obtain ⟨hp, hs⟩ := forall_mem_cons.mp h
    by_cases hn : p.name = name
    · rw [publish, if_pos hn]
      refine forall_mem_cons.mpr ⟨fun r hx => ?_, hs⟩
      rcases mem_append.mp hx with hx | hx
      · exact (hp r hx).trans hn
      · exact hr r hx
    · rw [publish, if_neg hn]
      exact forall_mem_cons.mpr ⟨hp, ih hs⟩

theorem publishDays_filed {hwm : ℕ} {ds : List ℤ}
    (hz : ∀ r ∈ rows, Named sc.unit r.ts) (h : Filed sc.unit parts) :
    Filed sc.unit (publishDays sc hwm rows ds parts) := by
  induction ds generalizing parts with
  | nil => exact h
  | cons x ds ih =>
    refine ih ?_
    have hd : ∀ r ∈ dayRows sc rows x, r ∈ rows ∧ partIndex sc.unit r.ts = x := fun r hr => by
      simpa using (dayRows_perm sc rows x).mem_iff.mp hr
    rw [publishDay]
    split
    · exact h
    next r rs hr =>
    rw [hr] at hd
    refine publish_filed _ (fun y hy => ?_) h
    rw [(hd y hy).2, ← (hd r mem_cons_self).2]
    exact hz r (hd r mem_cons_self).1

def outcomeStore : Outcome → Store
  | .ok d _ | .failed d _ | .crashed d => d

theorem flush_filed (replaying : Bool) (e : FlushEnd)
    {d : Store} {t : Table} (hn : ∀ r ∈ t.memtable, Named sc.unit r.ts)
    (h : Filed sc.unit d.parts) : Filed sc.unit (outcomeStore (flushAndClear sc replaying e d t)).parts := by
  by_cases hm : t.memtable = []
  · rw [flushAndClear, if_pos hm]
    exact h
  by_cases hw : t.walIncomplete = true
  · rw [flushAndClear, if_neg hm, if_pos hw]
    exact h
  rw [flushAndClear, if_neg hm, if_neg hw]
  cases e with
  | _ => exact publishDays_filed hn h

def replayedStore : Replayed → Store
  | .complete s | .aborted _ s => s.store
  | .crashed d => d

theorem applyRows_store (r : Record) (s : Replay) : replayedStore (applyRows sc r s) = s.store := by
  rw [applyRows]
  dsimp only
  split_ifs <;> rfl

theorem replayApply_filed (cps : List Part) (e : FlushEnd) (r : Record) {s : Replay}
    (hn : ∀ r ∈ s.table.memtable, Named sc.unit r.ts) (h : Filed sc.unit s.store.parts) :
    Filed sc.unit (replayedStore (replayApply sc cps e r s)).parts := by
  rw [replayApply]
  dsimp only
  split_ifs
  · exact h
  · have hf :=
      @flush_filed sc true e s.store { s.table with commitSeq := max s.lastComplete s.table.commitSeq } hn h
    generalize flushAndClear sc true e s.store _ = o at hf
    cases o with
    | ok d t =>
      dsimp only
      rw [applyRows_store]
      exact hf
    | failed d t => exact hf
    | crashed d => exact hf
  · rw [applyRows_store]
    exact h

theorem walReplay_filed (cps : List Part) (ends : ℕ → FlushEnd) (rs : List Record) (s : Replay)
    (hn : InTable (fun x => Named sc.unit x.ts) s.store s.table) (hr : ∀ x ∈ walRows rs, Named sc.unit x.ts)
    (h : Filed sc.unit s.store.parts) : Filed sc.unit (replayedStore (walReplay sc cps ends rs s)).parts := by
  induction rs generalizing s with
  | nil => exact h
  | cons r rs ih =>
    have hf := replayApply_filed cps (ends r.seq) r hn.memtable h
    have hi := @replayApply_inReplayed _ sc cps (ends r.seq) r s hn
      fun x hx => hr x (mem_flatMap.mpr ⟨r, mem_cons_self, hx⟩)
    rw [walReplay]
    generalize replayApply sc cps (ends r.seq) r s = a at hf hi
    cases a with
    | complete s' => exact ih s' hi (fun x hx => hr x (mem_append_right _ hx)) hf
    | aborted seq s' => exact hf
    | crashed d => exact hf

theorem recover_filed (ends : ℕ → FlushEnd) {d : Store} (hn : InStore (fun x => Named sc.unit x.ts) d)
    (h : Filed sc.unit d.parts) : Filed sc.unit (redoRecover sc ends d).1.parts := by
  have hf := walReplay_filed d.parts ends d.wal ⟨d, ⟨[], 0, 0, false⟩, maxSeq (d.parts.map Part.maxSeq), 0⟩
    ⟨hn, forall_mem_nil _⟩ hn.wal h
  rw [redoRecover]
  dsimp only
  generalize walReplay sc d.parts ends d.wal _ = w at hf
  cases w <;> exact hf

theorem after_store (db : Db) (o : Outcome) : (db.after o).store = outcomeStore o := by
  cases o <;> rfl

theorem addRow_filed {db : Db} {t : Table} (ts : ℤ) (e : FlushEnd) (hn : ∀ r ∈ t.memtable, Named sc.unit r.ts)
    (h : Filed sc.unit db.store.parts) : Filed sc.unit (addRow sc ts e db t).store.parts := by
  have hf :
    Filed sc.unit
    (outcomeStore (if sc.blockPoints ≤ t.memtable.length then flushAndClear sc false e db.store t
      else .ok db.store t)).parts := by
    split_ifs
    · exact flush_filed _ e hn h
    · exact h
  rw [addRow]
  dsimp only
  generalize (if sc.blockPoints ≤ t.memtable.length then flushAndClear sc false e db.store t
    else .ok db.store t) = o at hf
  cases o with
  | ok d u =>
    dsimp only
    split_ifs <;> exact hf
  | failed d u => exact hf
  | crashed d => exact hf

theorem step_filed {db db' : Db} {ev : Event} (hn : InDb (fun x => Named sc.unit x.ts) db)
    (h : Filed sc.unit db.store.parts) (hs : RedoLog.step sc db ev = some db') :
    Filed sc.unit db'.store.parts := by
  cases ev with
  | row ts e =>
    obtain ⟨t, ht, rfl⟩ := map_eq_some_iff.mp hs
    exact addRow_filed ts e (hn.2 t ht) h
  | commit =>
    obtain ⟨t, ht, rfl⟩ := map_eq_some_iff.mp hs
    cases hl : redoLog db.store t with
    | none => exact h
    | some du =>
      obtain ⟨-, hp, -⟩ := redoLog_frame hl
      dsimp only
      rwa [hp]
  | commitCrash =>
    obtain ⟨t, ht, rfl⟩ := map_eq_some_iff.mp hs
    cases hl : redoLog db.store t with
    | none => exact h
    | some du =>
      obtain ⟨-, hp, -⟩ := redoLog_frame hl
      simpa only [Option.map_some, Option.getD_some, hp] using h
  | flush e =>
    obtain ⟨t, ht, rfl⟩ := map_eq_some_iff.mp hs
    rw [after_store]
    exact flush_filed _ e (hn.2 t ht) h
  | crash =>
    cases hs
    exact h
  | reopen ends =>
    simp only [RedoLog.step] at hs
    cases ht : db.table with
    | some t => simp [ht] at hs
    | none =>
      rw [ht] at hs
      cases hs
      exact recover_filed _ hn.1 h

theorem removeParts_filed {p : Part → Bool} {d : Store} (h : Filed u d.parts) :
    Filed u (removeParts p d).parts :=
  fun q hq => h q (mem_filter.mp hq).1

/-- A row of a partition the delete removes is a row that it deletes, and is in no partition that it keeps. -/
theorem removed_deletes {d : Store} {x : Row} (h : Filed u d.parts)
    (hx : x ∈ partRows (d.parts.filter (covered u c))) :
    deletes u c x.ts = true ∧ x ∉ partRows (removeParts (covered u c) d).parts := by
  obtain ⟨p, hp, hxp⟩ := mem_flatMap.mp hx
  obtain ⟨hpd, hcov⟩ := mem_filter.mp hp
  have hname := h p hpd x hxp
  refine ⟨by rw [deletes, tsPartRange, hname]; exact hcov, fun hk => ?_⟩
  obtain ⟨q, hq, hxq⟩ := mem_flatMap.mp hk
  obtain ⟨hqd, hnot⟩ := mem_filter.mp hq
  have hsame : q.name = p.name := (h q hqd x hxq).symm.trans hname
  rw [covered, hsame] at hnot
  simp [show partFullyCovered c (partDirRange u p.name) = true from hcov] at hnot

end

/-- A row removed is left in no other partition, in the log or the memtable. -/
def NoCopyLeft (sc : Schema) (c : Cut) : Outcome → Prop
  | .ok d t => ∀ x ∈ removedRows sc c d,
    x ∉ partRows (removeParts (covered sc.unit c) d).parts ∧ x ∉ walRows d.wal ∧ x ∉ t.memtable
  | _ => True

theorem noCopyLeft_of {sc : Schema} {c : Cut} {e : FlushEnd} {d : Store} {t : Table}
    (hf : Filed sc.unit d.parts)
    (hn : ∀ r ∈ t.memtable, Named sc.unit r.ts) (h : memtableHasCoveredRow sc.unit c t.memtable = false →
      ∀ x ∈ removedRows sc c d, x ∉ walRows d.wal) : NoCopyLeft sc c (materialise sc c e d t) := by
  rw [materialise]
  split_ifs with hm
  · have hne : t.memtable ≠ [] := by
      intro h0
      rw [h0] at hm
      cases hm
    have hflush := flush_filed false e hn hf
    by_cases hw : t.walIncomplete = true
    · rw [flushAndClear, if_neg hne, if_pos hw]
      trivial
    · rw [flushAndClear, if_neg hne, if_neg hw] at hflush ⊢
      cases e with
      | done => exact fun x hx => ⟨(removed_deletes hflush hx).2, not_mem_nil, not_mem_nil⟩
      | fails gone => trivial
      | crashes gone => trivial
  · have hm' := Bool.eq_false_iff.mpr hm
    refine fun x hx => ⟨(removed_deletes hf hx).2, h hm' x hx, fun hx' => ?_⟩
    exact absurd (removed_deletes hf hx).1 (by rw [memtable_kept hm' x hx']; decide)

section
variable {sc : Schema} {P : Row → Prop}

variable {d : Store} {t : Table}

theorem inStore_remove {p : Part → Bool} (h : InStore P d) : InStore P (removeParts p d) := by
  refine ⟨?_, h.wal⟩
  intro x hx
  obtain ⟨q, hq, hxq⟩ := mem_flatMap.mp hx
  exact h.parts x (mem_flatMap.mpr ⟨q, (mem_filter.mp hq).1, hxq⟩)

theorem materialise_inOutcome (c : Cut) (e : FlushEnd) (h : InTable P d t) :
    InOutcome P (materialise sc c e d t) := by
  rw [materialise]
  split_ifs
  · exact flush_inOutcome _ e h
  · exact h

theorem deleteRange_inOutcome (c : Cut) (e : FlushEnd) (h : InTable P d t) :
    InOutcome P (deleteRange sc c e d t) := by
  have ho : InOutcome P (materialise sc c e d t) := materialise_inOutcome c e h
  rw [deleteRange]
  generalize materialise sc c e d t = o at ho
  cases o with
  | ok d u | failed d u => exact ⟨inStore_remove ho.toInStore, ho.memtable⟩
  | crashed d => exact ho

theorem deleteCrashed_inStore (c : Cut) (e : FlushEnd) (names : List ℤ)
    (h : InTable P d t) : InStore P (deleteCrashed sc c e names d t) := by
  have ho : InOutcome P (materialise sc c e d t) := materialise_inOutcome c e h
  rw [deleteCrashed]
  generalize materialise sc c e d t = o at ho
  cases o with
  | ok d u | failed d u => exact inStore_remove ho.toInStore
  | crashed d => exact ho

theorem removed_of {c : Cut} {e : FlushEnd} (h : InTable P d t) :
    ∀ x ∈ removedBy sc c (materialise sc c e d t), P x := by
  have ho : InOutcome P (materialise sc c e d t) := materialise_inOutcome c e h
  generalize materialise sc c e d t = o at ho
  cases o with
  | ok d u =>
    intro x hx
    obtain ⟨q, hq, hxq⟩ := mem_flatMap.mp hx
    exact ho.parts x (mem_flatMap.mpr ⟨q, (mem_filter.mp hq).1, hxq⟩)
  | failed d u | crashed d => exact forall_mem_nil _

end

structure Gone (sc : Schema) (s : History) : Prop where
  named : InDb (fun x => Named sc.unit x.ts) s.db
  filed : Filed sc.unit s.db.store.parts
  numbered : ∀ x ∈ s.deleted, x.id < s.db.nextId
  nowhere : InDb (fun x => x ∉ s.deleted ∧ x.id < s.db.nextId) s.db

theorem noCopyLeft_inOutcome {sc : Schema} {c : Cut} {e : FlushEnd} {d : Store} {t : Table}
    (h : NoCopyLeft sc c (materialise sc c e d t)) :
    InOutcome (fun x => x ∉ removedBy sc c (materialise sc c e d t)) (deleteRange sc c e d t) := by
  rw [deleteRange]
  generalize materialise sc c e d t = o at h
  cases o with
  | ok d u =>
    exact ⟨⟨fun x hx hr => (h x hr).1 hx, fun x hx hr => (h x hr).2.1 hx⟩, fun x hx hr => (h x hr).2.2 hx⟩
  | failed d u | crashed d => exact inOutcome_all fun x => not_mem_nil

theorem materialise_filed {sc : Schema} {c : Cut} {e : FlushEnd} {d : Store} {t : Table}
    (hn : ∀ r ∈ t.memtable, Named sc.unit r.ts) (h : Filed sc.unit d.parts) :
    Filed sc.unit (outcomeStore (materialise sc c e d t)).parts := by
  rw [materialise]
  split_ifs
  · exact flush_filed false e hn h
  · exact h

theorem deleteRange_filed {sc : Schema} {c : Cut} {e : FlushEnd} {d : Store} {t : Table}
    (hn : ∀ r ∈ t.memtable, Named sc.unit r.ts) (h : Filed sc.unit d.parts) :
    Filed sc.unit (outcomeStore (deleteRange sc c e d t)).parts := by
  have hf := @materialise_filed sc c e d t hn h
  rw [deleteRange]
  generalize materialise sc c e d t = o at hf
  cases o with
  | ok d u | failed d u => exact removeParts_filed hf
  | crashed d => exact hf

theorem deleteCrashed_filed {sc : Schema} {c : Cut} {e : FlushEnd} {d : Store} {t : Table} (names : List ℤ)
    (hn : ∀ r ∈ t.memtable, Named sc.unit r.ts) (h : Filed sc.unit d.parts) :
    Filed sc.unit (deleteCrashed sc c e names d t).parts := by
  have hf := @materialise_filed sc c e d t hn h
  rw [deleteCrashed]
  generalize materialise sc c e d t = o at hf
  cases o with
  | ok d u | failed d u => exact removeParts_filed hf
  | crashed d => exact hf

theorem step_gone (sc : Schema) (s : History) (call : Call) (s' : History) (h : Gone sc s)
    (hc : Clean sc s call) (hs : step sc s call = some s') : Gone sc s' := by
  cases call with
  | db ev =>
    obtain ⟨db, hdb, rfl⟩ := map_eq_some_iff.mp hs
    have hle := step_nextId hdb
    refine ⟨step_inDb h.named ?_ hdb, step_filed h.named h.filed hdb,
      fun x hx => lt_of_lt_of_le (h.numbered x hx) hle, ?_⟩
    · rintro ts e rfl -
      exact hc
    refine step_inDb (inDb_mono h.nowhere fun x hx => ⟨hx.1, lt_of_lt_of_le hx.2 hle⟩) ?_ hdb
    intro ts e _ hlt
    refine ⟨fun hd => ?_, hlt⟩
    have := h.numbered _ hd
    dsimp only at this
    omega
  | delete c e =>
    obtain ⟨t, ht, rfl⟩ := map_eq_some_iff.mp hs
    have hin := inTable_of h.nowhere ht
    have hnamed := inTable_of h.named ht
    have hcopy := noCopyLeft_of (e := e) h.filed hnamed.memtable (hc t ht)
    have hout := inOutcome_and (deleteRange_inOutcome c e hin) (noCopyLeft_inOutcome hcopy)
    refine ⟨after_inDb (deleteRange_inOutcome c e hnamed), ?_, ?_, ?_⟩
    · dsimp only
      rw [after_store]
      exact deleteRange_filed hnamed.memtable h.filed
    · intro x hx
      rw [after_nextId]
      rcases mem_append.mp hx with hx | hx
      · exact h.numbered x hx
      · exact (removed_of hin x hx).2
    refine inDb_mono (after_inDb hout) fun x hx => ⟨fun hd => ?_, ?_⟩
    · rcases mem_append.mp hd with hd | hd
      · exact hx.1.1 hd
      · exact hx.2 hd
    · rw [after_nextId]
      exact hx.1.2
  | deleteCrash c e names =>
    obtain ⟨t, ht, rfl⟩ := map_eq_some_iff.mp hs
    have hnamed := inTable_of h.named ht
    exact ⟨after_inDb (o := .crashed _) (deleteCrashed_inStore c e _ hnamed),
      deleteCrashed_filed names hnamed.memtable h.filed, h.numbered, after_inDb (o := .crashed _)
      (deleteCrashed_inStore c e _ (inTable_of h.nowhere ht))⟩

theorem gone_started (sc : Schema) : Gone sc started := by
  refine ⟨⟨⟨forall_mem_nil _, forall_mem_nil _⟩, ?_⟩, forall_mem_nil _, forall_mem_nil _,
    ⟨forall_mem_nil _, forall_mem_nil _⟩, ?_⟩
  · intro t ht
    cases ht
    exact forall_mem_nil _
  · intro t ht
    cases ht
    exact forall_mem_nil _

theorem gone_stays {sc : Schema} {s : History} (h : Gone sc s) : StaysDeleted sc s := by
  intro x hx hv
  cases ht : s.db.table with
  | none =>
    rw [ht] at hv
    rcases mem_append.mp hv with hv | hv
    · exact (h.nowhere.1.parts x hv).1 hx
    · exact (h.nowhere.1.wal x (pending_subset x hv)).1 hx
  | some t =>
    rw [ht] at hv
    rcases mem_append.mp hv with hv | hv
    · exact (h.nowhere.1.parts x hv).1 hx
    · exact (h.nowhere.2 t ht x hv).1 hx

def firstDay : Cut := ⟨86400000000000, true, false⟩

def deletedFromMemtable : List Call :=
  [.db (.row 0 .done), .db .commit, .delete firstDay .done, .db .crash, .db (.reopen fun _ => .done)]

/-- A crash between publish and truncate leaves the record in the log; it is skipped at the
reopen. -/
def replayedAfterDelete : List Call :=
  [.db (.row 0 .done), .db .commit, .db (.flush (.crashes [0])), .db (.reopen fun _ => .done),
    .delete firstDay .done, .db .crash, .db (.reopen fun _ => .done)]

end QEngine.RangeDelete

import QEngine.RedoAborts

/-!
# Rows that are seen once

A flush that fails keeps the memtable, so what it has published by then is seen twice.
A crash in a flush has the same effect on a record of which some rows were published
and some were not, since replay takes a record whole. Replay cannot set a second
TIMESTAMP column, so with one it ends at the first record it would have to apply.
-/

namespace QEngine.RedoVisibility
open Option List StepRuns RedoLog RedoRecovery

variable (sc : Schema)

def visible (d : Store) : Option Table → List Row
  | some t => partRows d.parts++t.memtable
  | none => partRows d.parts++pending sc d.parts d.wal

/-- A failed flush has published nothing; a crashed one all of a record still to be replayed, or
nothing of it. -/
def Untorn (d : Store) (t : Table) : FlushEnd → Prop
  | .done => True
  | .fails gone => ∀ x ∈ t.memtable, partIndex sc.unit x.ts ∉ gone
  | .crashes gone => ∀ r ∈ d.wal, Covered sc d.parts r ∨
    (∀ x ∈ r.rows, partIndex sc.unit x.ts ∈ gone) ∨ ∀ x ∈ r.rows, partIndex sc.unit x.ts ∉ gone

instance (d : Store) (t : Table) (e : FlushEnd) : Decidable (Untorn sc d t e) :=
  match e with
  | .done => isTrue trivial
  | .fails gone => inferInstanceAs (Decidable (∀ x ∈ t.memtable, partIndex sc.unit x.ts ∉ gone))
  | .crashes gone => inferInstanceAs (Decidable (∀ r ∈ d.wal, Covered sc d.parts r ∨
    (∀ x ∈ r.rows, partIndex sc.unit x.ts ∈ gone) ∨ ∀ x ∈ r.rows, partIndex sc.unit x.ts ∉ gone))

def Whole (db : Db) : Event → Prop
  | .row ts e => Named sc.unit ts ∧
    ∀ t ∈ db.table, sc.blockPoints ≤ t.memtable.length → Untorn sc db.store t e
  | .flush e => ∀ t ∈ db.table, Untorn sc db.store t e
  | _ => True

instance (db : Db) (ev : Event) : Decidable (Whole sc db ev) :=
  match ev with
  | .row ts e => inferInstanceAs (Decidable (Named sc.unit ts ∧
    ∀ t ∈ db.table, sc.blockPoints ≤ t.memtable.length → Untorn sc db.store t e))
  | .flush e => inferInstanceAs (Decidable (∀ t ∈ db.table, Untorn sc db.store t e))
  | .commit | .commitCrash | .crash | .reopen _ => isTrue trivial

variable {sc}

variable {db : Db} {d : Store}

theorem whole_rowNamed {ev : Event} (h : Whole sc db ev) : RowNamed sc db ev := by
  cases ev with
  | row ts e => exact h.1
  | _ => trivial

def outcomeParts : Outcome → Store × Option Table
  | .ok d t => (d, some t)
  | .failed d t => (d, some t)
  | .crashed d => (d, none)

variable {t : Table} {batch : List Row}

theorem covered_publish (h : Open sc d t batch)
    (p : ℤ → Bool) {r : Record} (hr : r ∈ d.wal) (hc : ¬Covered sc d.parts r)
    (hp : ∀ x ∈ r.rows, p (partIndex sc.unit x.ts) = true) :
    Covered sc (published sc d t p) r := by
  apply covered_of_rows (h.sound.filled r hr)
  intro x hx
  have hpend : x ∈ pending sc d.parts d.wal :=
    mem_flatMap.mpr ⟨r, mem_filter.mpr ⟨hr, decide_eq_true hc⟩, hx⟩
  have hmem := mem_of_mem_take (h.logged.subset hpend)
  have hday : partName sc.unit x.ts ∈ (days sc t.memtable).filter p := by
    rw [← h.named x hmem]
    exact mem_filter.mpr ⟨(mem_days sc _ _).mpr ⟨x, hmem, rfl⟩, hp x hx⟩
  rw [(publish_some h p).1, if_pos hday]
  exact le_trans (h.seqs r hr) (le_max_right _ _)

theorem pending_publish (h : Open sc d t batch) (p : ℤ → Bool) (hw : ∀ r ∈ d.wal, Covered sc d.parts r ∨
      (∀ x ∈ r.rows, p (partIndex sc.unit x.ts) = true) ∨ ∀ x ∈ r.rows, p (partIndex sc.unit x.ts) = false) :
    (pending sc (published sc d t p) d.wal).Sublist
      (t.memtable.filter fun x => !p (partIndex sc.unit x.ts)) := by
  have hmono := publish_mono h p
  have hcov : ∀ r ∈ d.wal, ¬Covered sc d.parts r → (∀ x ∈ r.rows, p (partIndex sc.unit x.ts) = true) →
      Covered sc (published sc d t p) r :=
    fun r hr hc hp => covered_publish h p hr hc hp
  generalize published sc d t p = parts at *
  have hnone : ∀ x ∈ pending sc parts d.wal, (!p (partIndex sc.unit x.ts)) = true := by
    intro x hx
    obtain ⟨r, hr, hxr⟩ := mem_flatMap.mp hx
    obtain ⟨hr, hnot⟩ := mem_filter.mp hr
    have hnot := of_decide_eq_true hnot
    have hold : ¬Covered sc d.parts r := fun hc => hnot (covered_mono hmono hc)
    obtain hc | hall | hno := hw r hr
    · exact absurd hc hold
    · exact absurd (hcov r hr hold hall) hnot
    · rw [hno x hxr]
      rfl
  rw [← filter_eq_self.mpr hnone]
  exact (((pending_mono _ hmono).trans h.logged).trans (take_sublist _ _)).filter _

theorem flush_visible (h : Open sc d t batch)
    {e : FlushEnd} (hw : Untorn sc d t e) :
    let o := outcomeParts (flushAndClear sc false e d t)
    (visible sc o.1 o.2).Subperm (visible sc d (some t)) := by
  rw [flushAndClear]
  by_cases hm : t.memtable = []
  · rw [if_pos hm]
    exact List.Subperm.refl _
  rw [if_neg hm, if_neg (by simp [h.complete])]
  cases e with
  | done =>
    simp only [outcomeParts, visible, append_nil]
    exact (publish_all h).1.subperm
  | fails gone =>
    have hnone : (t.memtable.filter fun r => decide (partIndex sc.unit r.ts ∈ gone)) = [] :=
      filter_eq_nil_iff.mpr fun x hx hg => hw x hx (of_decide_eq_true hg)
    have hp := (publish_some h fun n => decide (n ∈ gone)).2
    rw [hnone, append_nil] at hp
    exact (hp.append_right t.memtable).subperm
  | crashes gone =>
    have hp := (publish_some h fun n => decide (n ∈ gone)).2
    have hs := pending_publish h (fun n => decide (n ∈ gone)) (by simpa [Untorn] using hw)
    simp only [outcomeParts, visible]
    refine (hp.append_right _).subperm_right.mpr ?_
    rw [append_assoc]
    refine (subperm_append_left _).mpr ?_
    refine (hs.append_left _).subperm.trans (List.Perm.subperm ?_)
    exact filter_append_perm (fun x => decide (partIndex sc.unit x.ts ∈ gone)) t.memtable

theorem crash_visible (h : Open sc d t batch) : (visible sc d none).Subperm (visible sc d (some t)) :=
  ((h.logged.trans (take_sublist _ _)).append_left _).subperm

theorem nodup_subperm {xs ys : List Row} (h : ys.Nodup) (hs : xs.Subperm ys) : xs.Nodup := by
  obtain ⟨l, hp, hl⟩ := hs
  exact hp.nodup_iff.mp (h.sublist hl)

variable (sc) in
structure Single (db : Db) : Prop where
  once : (visible sc db.store db.table).Nodup
  acked : (db.acked++db.batch).Nodup
  fresh : ∀ x ∈ visible sc db.store db.table++(db.acked++db.batch), x.id < db.nextId

theorem single_of_subperm {db' : Db} (h : Single sc db)
    (hv : (visible sc db'.store db'.table).Subperm (visible sc db.store db.table))
    (ha : (db'.acked++db'.batch).Subperm (db.acked++db.batch)) (hn : db'.nextId = db.nextId) :
    Single sc db' := by
  refine ⟨nodup_subperm h.once hv, nodup_subperm h.acked ha, ?_⟩
  intro x hx
  rw [hn]
  exact h.fresh x (append_subset.mpr ⟨fun y hy => mem_append_left _ (hv.subset hy),
    fun y hy => mem_append_right _ (ha.subset hy)⟩ hx)

theorem single_after {o : Outcome} (h : Single sc db)
    (hv : (visible sc (outcomeParts o).1 (outcomeParts o).2).Subperm (visible sc db.store db.table)) :
    Single sc (db.after o) := by
  cases o with
  | ok d t | failed d t => exact single_of_subperm h hv (List.Subperm.refl _) rfl
  | crashed d =>
    exact single_of_subperm h hv ((nil_sublist db.batch).append_left db.acked).subperm rfl

theorem single_append (ts : ℤ) (h : Single sc (db.after (.ok d t))) :
    Single sc { db with
      store := d
      table := some { t with memtable := t.memtable++[⟨db.nextId, ts⟩] }
      nextId := db.nextId+1
      batch := db.batch++[⟨db.nextId, ts⟩] } := by
  have hnew : ∀ xs : List Row, xs.Nodup → (∀ x ∈ xs, x.id < db.nextId) →
      (xs++[(⟨db.nextId, ts⟩ : Row)]).Nodup := by
    intro xs hxs hlt
    refine nodup_append.mpr ⟨hxs, nodup_singleton _, ?_⟩
    intro x hx y hy hxy
    have := hlt x hx
    rw [hxy, mem_singleton.mp hy] at this
    exact absurd this (lt_irrefl _)
  obtain ⟨honce, hacked, hfresh⟩ := h
  refine ⟨?_, ?_, ?_⟩
  · simp only [visible]
    rw [← append_assoc]
    exact hnew _ honce fun x hx => hfresh x (mem_append_left _ hx)
  · dsimp only
    rw [← append_assoc]
    exact hnew _ hacked fun x hx => hfresh x (mem_append_right _ hx)
  intro x hx
  have hold := hfresh x
  simp only [visible, Db.after, mem_append, mem_singleton] at hx hold ⊢
  obtain (hp | hm | rfl) | ha | hb | rfl := hx
  · exact Nat.lt_succ_of_lt (hold (.inl (.inl hp)))
  · exact Nat.lt_succ_of_lt (hold (.inl (.inr hm)))
  · exact Nat.lt_succ_self _
  · exact Nat.lt_succ_of_lt (hold (.inr (.inl ha)))
  · exact Nat.lt_succ_of_lt (hold (.inr (.inr hb)))
  · exact Nat.lt_succ_self _

theorem addRow_single (ts : ℤ) (e : FlushEnd) (ht : db.table = some t)
    (ho : Open sc db.store t db.batch) (h : Single sc db)
    (hw : sc.blockPoints ≤ t.memtable.length → Untorn sc db.store t e) : Single sc (addRow sc ts e db t) := by
  rw [addRow]
  have hvis : let o := outcomeParts (if sc.blockPoints ≤ t.memtable.length then
      flushAndClear sc false e db.store t else .ok db.store t)
      (visible sc o.1 o.2).Subperm (visible sc db.store db.table) := by
    rw [ht]
    split_ifs with hfull
    · exact flush_visible ho (hw hfull)
    · exact List.Subperm.refl _
  generalize (if sc.blockPoints ≤ t.memtable.length then
    flushAndClear sc false e db.store t else .ok db.store t) = o at hvis
  have hafter := single_after h hvis
  cases o with
  | failed d t | crashed d => exact hafter
  | ok d t =>
    dsimp only
    split_ifs with hfull
    · exact hafter
    · exact single_append ts hafter

theorem step_single {db' : Db} {ev : Event} (h : Held sc db) (hu : Single sc db)
    (hok : Whole sc db ev) (hs : step sc db ev = some db') : Single sc db' := by
  obtain ⟨-, hstate⟩ := h
  have hdrop : (db.acked++[]).Subperm (db.acked++db.batch) :=
    ((nil_sublist db.batch).append_left db.acked).subperm
  cases ht : db.table with
  | none =>
    rw [ht] at hstate
    cases ev with
    | crash =>
      cases hs
      exact single_of_subperm hu (by rw [ht]) hdrop rfl
    | reopen ends =>
      obtain ⟨t, hrec, -, hmem⟩ := recover_open ends hstate.1
      simp only [step, ht, hrec] at hs
      cases hs
      refine single_of_subperm hu ?_ (List.Subperm.refl _) rfl
      rw [ht]
      simp only [visible, hmem]
      exact List.Subperm.refl _
    | row ts e | commit | commitCrash | flush e => simp [step, ht] at hs
  | some t =>
    rw [ht] at hstate
    dsimp only at hstate
    cases ev with
    | crash =>
      cases hs
      exact single_of_subperm hu (by rw [ht]; exact crash_visible hstate) hdrop rfl
    | reopen ends => simp [step, ht] at hs
    | row ts e =>
      simp only [step, ht, map_some] at hs
      cases hs
      exact addRow_single ts e ht hstate hu (hok.2 t ht)
    | flush e =>
      simp only [step, ht, map_some] at hs
      cases hs
      refine single_after hu ?_
      rw [ht]
      exact flush_visible hstate (hok t ht)
    | commit =>
      obtain ⟨d, t', hlog, -, hparts, hmem, -⟩ := redoLog_open hstate
      simp only [step, ht, map_some, hlog] at hs
      cases hs
      refine single_of_subperm hu ?_ (by rw [append_nil]) rfl
      rw [ht]
      simp only [visible, hparts, hmem]
      exact List.Subperm.refl _
    | commitCrash =>
      obtain ⟨d, t', hlog, hopen, hparts, hmem, -⟩ := redoLog_open hstate
      simp only [step, ht, map_some, hlog, getD_some] at hs
      cases hs
      refine single_of_subperm hu ((crash_visible hopen).trans ?_) hdrop rfl
      rw [ht]
      simp only [visible, hparts, hmem]
      exact List.Subperm.refl _

def SeenOnce (db : Db) : Prop :=
  ∀ t, db.table = some t → ∀ x ∈ db.acked,
    (partRows db.store.parts++t.memtable).count x = db.acked.count x

theorem seenOnce_of_single (h : Held sc db) (hu : Single sc db) : SeenOnce db := by
  intro t ht x hx
  have hloss := held_noLoss h t ht x hx
  have honce := hu.once
  rw [ht, visible] at honce
  rw [count_eq_one_of_mem honce (mem_append.mpr hloss),
    count_eq_one_of_mem (nodup_append.mp hu.acked).1 hx]

theorem single_created : Single sc created := by
  refine ⟨nodup_nil, nodup_nil, ?_⟩
  intro x hx
  cases hx

/-! ### Tables with a second TIMESTAMP column -/

/-- The setter refuses such a column at the first row of a record. -/
def refusing (ends : ℕ → FlushEnd) : RedoAborts.Faults := ⟨fun _ => true, fun _ => some 0, ends⟩

def redoRecoverTyped (stamps : Bool) (sc : Schema) (ends : ℕ → FlushEnd) (d : Store) : Store × Option Table :=
  if stamps then
    match RedoAborts.recoverAborted sc (refusing ends) d with
    | some (d, t, _) => (d, some t)
    | none => redoRecover sc ends d
  else redoRecover sc ends d

def stepTyped (stamps : Bool) (sc : Schema) (db : Db) : Event → Option Db
  | .reopen ends =>
    match db.table with
    | some _ => none
    | none =>
      let (d, t) := redoRecoverTyped stamps sc ends db.store
      some { db with store := d, table := t }
  | ev => step sc db ev

/-- With a second TIMESTAMP column a table is reopened only when replay has nothing to apply. -/
def Settled (stamps : Bool) (sc : Schema) (db : Db) (ev : Event) : Prop :=
  Whole sc db ev ∧
    (stamps = false ∨ (∀ r ∈ db.store.wal, Covered sc db.store.parts r) ∨ ∀ ends, ev ≠ .reopen ends)

theorem replay_covered (cps : List Part) (f : RedoAborts.Faults) (hw : ∀ r, f.walks r = true)
    {rs : List Record}
    (h : ∀ r ∈ rs, Covered sc cps r) (s : Replay) :
    ∃ t, RedoAborts.replayAll sc cps f rs s = .complete t := by
  induction rs generalizing s with
  | nil => exact ⟨s, rfl⟩
  | cons r rs ih =>
    obtain ⟨hr, hrs⟩ := forall_mem_cons.mp h
    have hcut : r.seq ≤ RedoAborts.cutoff f sc.unit cps r := by
      rw [RedoAborts.cutoff, if_pos (hw r)]
      exact hr
    rw [RedoAborts.replayAll, RedoAborts.applyRecord, if_pos hcut]
    exact ih hrs _

theorem stepTyped_eq {stamps : Bool} {ev : Event} (h : Settled stamps sc db ev) :
    stepTyped stamps sc db ev = step sc db ev := by
  cases ev with
  | reopen ends =>
    have hrec : redoRecoverTyped stamps sc ends db.store = redoRecover sc ends db.store := by
      rw [redoRecoverTyped]
      rcases h.2 with rfl | hc | hne
      · rfl
      · split
        · obtain ⟨t, ht⟩ := replay_covered db.store.parts (refusing ends) (fun _ => rfl) hc
            ⟨db.store, ⟨[], 0, 0, false⟩, maxSeq (db.store.parts.map Part.maxSeq), 0⟩
          rw [RedoAborts.recoverAborted, ht]
        · rfl
      · exact absurd rfl (hne ends)
    cases ht : db.table with
    | some _ => simp only [stepTyped, step, ht]
    | none => simp only [stepTyped, step, ht, hrec]
  | _ => rfl

/-- If bucket and directory agree, no failed flush has published, no crashed one has split a record and no
replay has to set a second TIMESTAMP column, rows are seen once. -/
theorem acked_rows_seen_once (stamps : Bool) (sc : Schema) (evs : List Event) (db : Db)
    (hw : Along (stepTyped stamps sc) (Settled stamps sc) created evs)
    (hr : run (stepTyped stamps sc) created evs = some db) : SeenOnce db := by
  obtain ⟨hheld, hsingle⟩ := run_invariant (fun db => Held sc db ∧ Single sc db)
    (fun db ev db' h hok hs => by
      rw [stepTyped_eq hok] at hs
      exact ⟨step_held h.1 (whole_rowNamed hok.1) hs, step_single h.1 h.2 hok.1 hs⟩) evs _ db
        ⟨held_created, single_created⟩ hw hr
  exact seenOnce_of_single hheld hsingle

instance (db : Db) (ev : Event) : Decidable (Settled false sc db ev) :=
  decidable_of_iff (Whole sc db ev) ⟨fun h => ⟨h, .inl rfl⟩, fun h => h.1⟩

def tornBetweenRecords : List Event :=
  [.row 0 .done, .commit, .row 86400000000000 .done, .commit, .flush (.crashes [0]),
    .reopen fun _ => .done, .flush .done]

theorem acked_rows_seen_once_between_records :
    ∃ db, Along (stepTyped false (byTime 4)) (Settled false (byTime 4)) created tornBetweenRecords ∧
      run (stepTyped false (byTime 4)) created tornBetweenRecords = some db ∧ db.acked.length = 2 ∧
      db.table.isSome ∧ SeenOnce db := by
  have ha : Along (stepTyped false (byTime 4))
    (Settled false (byTime 4)) created tornBetweenRecords := by decide
  obtain ⟨db, hr, hlen, ht⟩ := run_reaches (stepTyped false (byTime 4)) created tornBetweenRecords
    (fun db => db.acked.length = 2 ∧ db.table.isSome) (by decide)
  exact ⟨db, ha, hr, hlen, ht, acked_rows_seen_once false (byTime 4) tornBetweenRecords db ha hr⟩

/-- One record of two days; the flush fails between them and is tried again. -/
def retriedFlush : List Event :=
  [.row 0 .done, .row 86400000000000 .done, .commit, .flush (.fails [0]), .flush .done]

theorem retried_flush_shows_row_twice : ∃ db, run (stepTyped false (byTime 4)) created retriedFlush =
    some db ∧
      db.acked = [⟨0, 0⟩, ⟨1, 86400000000000⟩] ∧ db.table = some ⟨[], 0, 1, false⟩ ∧
      partRows db.store.parts = [⟨0, 0⟩, ⟨0, 0⟩, ⟨1, 86400000000000⟩] ∧ ¬SeenOnce db := by
  obtain ⟨db, hr, ha, ht, hp⟩ := run_reaches (stepTyped false (byTime 4)) created retriedFlush
    (fun db => db.acked = [⟨0, 0⟩, ⟨1, 86400000000000⟩] ∧ db.table = some ⟨[], 0, 1, false⟩ ∧
      partRows db.store.parts = [⟨0, 0⟩, ⟨0, 0⟩, ⟨1, 86400000000000⟩]) (by decide)
  refine ⟨db, hr, ha, ht, hp, ?_⟩
  intro h
  have hx := h _ ht ⟨0, 0⟩ (by rw [ha]; decide)
  rw [hp, ha] at hx
  exact absurd hx (by decide)

/-- A row of a table with a second TIMESTAMP column is not brought back. -/
example :
    ∃ db, run (stepTyped true (byTime 4)) created [.row 0 .done, .commit, .crash, .reopen fun _ => .done] =
    some db ∧
      db.acked = [⟨0, 0⟩] ∧ db.table = some ⟨[], 0, 1, false⟩ :=
  run_reaches (stepTyped true (byTime 4)) created _
    (fun db => db.acked = [⟨0, 0⟩] ∧ db.table = some ⟨[], 0, 1, false⟩)
    (by decide)

end QEngine.RedoVisibility

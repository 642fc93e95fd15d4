import QEngine.RedoRecovery

/-!
# Where rows come from

A partition, the log and the memtable only exchange rows: a flush moves them from the
memtable, a commit copies them to the log, a replay copies them back.
-/

namespace QEngine.RowOrigins
open Option List RedoLog RedoRecovery

section
variable (P : Row → Prop)

structure InStore (d : Store) : Prop where
  parts : ∀ x ∈ partRows d.parts, P x
  wal : ∀ x ∈ walRows d.wal, P x

structure InTable (d : Store) (t : Table) : Prop extends InStore P d where
  memtable : ∀ x ∈ t.memtable, P x

def InOutcome : Outcome → Prop
  | .ok d t => InTable P d t
  | .failed d t => InTable P d t
  | .crashed d => InStore P d

def InReplayed : Replayed → Prop
  | .complete s => InTable P s.store s.table
  | .aborted _ s => InTable P s.store s.table
  | .crashed d => InStore P d

def InDb (db : Db) : Prop := InStore P db.store ∧ ∀ t ∈ db.table, ∀ x ∈ t.memtable, P x

end

variable {P : Row → Prop} {sc : Schema}

variable {db : Db} {o : Outcome} {d : Store} {t : Table} {Q : Row → Prop}

theorem inStore_publish {rows : List Row} {ds : List ℤ} {hwm : ℕ} (h : InStore P d)
    (hr : ∀ x ∈ rows, P x) (hu : ds.Nodup) : ∀ x ∈ partRows (publishDays sc hwm rows ds d.parts), P x := by
  intro x hx
  rcases mem_append.mp ((publishDays_rows sc hwm _ _ hu).subset hx) with hx | hx
  · exact h.parts x hx
  · exact hr x (mem_filter.mp hx).1

theorem flush_inOutcome (replaying : Bool) (e : FlushEnd) (h : InTable P d t) :
    InOutcome P (flushAndClear sc replaying e d t) := by
  by_cases hm : t.memtable = []
  · rw [flushAndClear, if_pos hm]
    exact h
  by_cases hw : t.walIncomplete = true
  · rw [flushAndClear, if_neg hm, if_pos hw]
    exact h
  rw [flushAndClear, if_neg hm, if_neg hw]
  cases e with
  | done =>
    refine ⟨⟨inStore_publish h.toInStore h.memtable (days_nodup sc _), ?_⟩, forall_mem_nil _⟩
    cases replaying with
    | true => exact h.wal
    | false => exact forall_mem_nil _
  | fails gone =>
    exact ⟨⟨inStore_publish h.toInStore h.memtable ((days_nodup sc _).filter _), h.wal⟩, h.memtable⟩
  | crashes gone =>
    exact ⟨inStore_publish h.toInStore h.memtable ((days_nodup sc _).filter _), h.wal⟩

theorem redoLog_inTable {d' : Store} {t' : Table} (h : InTable P d t)
    (hl : redoLog d t = some (d', t')) : InTable P d' t' := by
  obtain ⟨hm, hp, hw⟩ := redoLog_frame hl
  refine ⟨⟨fun x hx => h.parts x (hp ▸ hx), fun x hx => ?_⟩, fun x hx => h.memtable x (hm ▸ hx)⟩
  exact (hw x hx).elim (h.wal x) (h.memtable x)

theorem applyRows_inReplayed {r : Record} {s : Replay} (h : InTable P s.store s.table)
    (hr : ∀ x ∈ r.rows, P x) : InReplayed P (applyRows sc r s) := by
  have hm : ∀ x ∈ s.table.memtable++r.rows.take (sc.blockPoints-s.table.memtable.length), P x := by
    intro x hx
    rcases mem_append.mp hx with hx | hx
    · exact h.memtable x hx
    · exact hr x (mem_of_mem_take hx)
  rw [applyRows]
  dsimp only
  split_ifs
  · exact ⟨h.toInStore, hm⟩
  · exact ⟨h.toInStore, hm⟩

theorem replayApply_inReplayed (cps : List Part) (e : FlushEnd) {r : Record} {s : Replay}
    (h : InTable P s.store s.table) (hr : ∀ x ∈ r.rows, P x) : InReplayed P (replayApply sc cps e r s) := by
  rw [replayApply]
  dsimp only
  split_ifs
  · exact h
  · have ho : InOutcome P (flushAndClear sc true e s.store
        { s.table with commitSeq := max s.lastComplete s.table.commitSeq }) :=
      flush_inOutcome _ e ⟨h.toInStore, h.memtable⟩
    generalize flushAndClear sc true e s.store
      { s.table with commitSeq := max s.lastComplete s.table.commitSeq } = o at ho
    cases o with
    | ok d t => exact applyRows_inReplayed ⟨ho.toInStore, ho.memtable⟩ hr
    | failed d t => exact ho
    | crashed d => exact ho
  · exact applyRows_inReplayed h hr

theorem walReplay_inReplayed (cps : List Part) (ends : ℕ → FlushEnd) (rs : List Record) (s : Replay)
    (h : InTable P s.store s.table) (hr : ∀ x ∈ walRows rs, P x) :
    InReplayed P (walReplay sc cps ends rs s) := by
  induction rs generalizing s with
  | nil => exact h
  | cons r rs ih =>
    have hrow : ∀ x ∈ r.rows, P x := fun x hx => hr x (mem_flatMap.mpr ⟨r, mem_cons_self, hx⟩)
    have hrest : ∀ x ∈ walRows rs, P x := fun x hx => hr x (mem_append_right _ hx)
    have ha : InReplayed P (replayApply sc cps (ends r.seq) r s) :=
      replayApply_inReplayed cps _ h hrow
    rw [walReplay]
    generalize replayApply sc cps (ends r.seq) r s = a at ha
    cases a with
    | complete s' => exact ih s' ha hrest
    | aborted seq s' => exact ha
    | crashed d => exact ha

theorem recover_inDb (ends : ℕ → FlushEnd) (h : InStore P d) :
    InStore P (redoRecover sc ends d).1 ∧ ∀ t ∈ (redoRecover sc ends d).2, ∀ x ∈ t.memtable, P x := by
  have hw : InReplayed P (walReplay sc d.parts ends d.wal
      ⟨d, ⟨[], 0, 0, false⟩, maxSeq (d.parts.map Part.maxSeq), 0⟩) :=
    walReplay_inReplayed _ _ _ _ ⟨h, forall_mem_nil _⟩ h.wal
  rw [redoRecover]
  dsimp only
  generalize walReplay sc d.parts ends d.wal
    ⟨d, ⟨[], 0, 0, false⟩, maxSeq (d.parts.map Part.maxSeq), 0⟩ = w at hw
  cases w with
  | complete s =>
    refine ⟨hw.toInStore, ?_⟩
    intro t ht
    cases ht
    exact hw.memtable
  | aborted seq s =>
    refine ⟨hw.toInStore, ?_⟩
    intro t ht
    cases ht
    exact hw.memtable
  | crashed d => exact ⟨hw, fun t ht => by cases ht⟩

theorem after_inDb (h : InOutcome P o) : InDb P (db.after o) := by
  cases o with
  | ok d t =>
    refine ⟨h.toInStore, ?_⟩
    intro u hu
    cases hu
    exact h.memtable
  | failed d t =>
    refine ⟨h.toInStore, ?_⟩
    intro u hu
    cases hu
    exact h.memtable
  | crashed d => exact ⟨h, fun t ht => by cases ht⟩

theorem inTable_of (h : InDb P db) (ht : db.table = some t) : InTable P db.store t :=
  ⟨h.1, h.2 t ht⟩

theorem addRow_inDb (ts : ℤ) (e : FlushEnd) (h : InTable P db.store t)
    (hn : db.nextId < (addRow sc ts e db t).nextId → P ⟨db.nextId, ts⟩) : InDb P (addRow sc ts e db t) := by
  have ho : InOutcome P (if sc.blockPoints ≤ t.memtable.length then flushAndClear sc false e db.store t
      else .ok db.store t) := by
    split_ifs
    · exact flush_inOutcome _ e h
    · exact h
  rw [addRow] at hn ⊢
  dsimp only at hn ⊢
  generalize (if sc.blockPoints ≤ t.memtable.length then flushAndClear sc false e db.store t
    else .ok db.store t) = o at ho hn
  cases o with
  | ok d u =>
    dsimp only at hn ⊢
    split_ifs at hn ⊢
    · exact after_inDb (o := .failed d u) ho
    refine ⟨ho.toInStore, ?_⟩
    intro v hv
    cases hv
    intro x hx
    rcases mem_append.mp hx with hx | hx
    · exact ho.memtable x hx
    · rw [mem_singleton.mp hx]
      exact hn (Nat.lt_succ_self _)
  | failed d u => exact after_inDb (o := .failed d u) ho
  | crashed d => exact after_inDb (o := .crashed d) ho

theorem step_inDb {db' : Db} {ev : Event} (h : InDb P db)
    (hn : ∀ ts e, ev = .row ts e → db.nextId < db'.nextId → P ⟨db.nextId, ts⟩)
    (hs : step sc db ev = some db') : InDb P db' := by
  cases ev with
  | row ts e =>
    obtain ⟨t, ht, rfl⟩ := map_eq_some_iff.mp hs
    exact addRow_inDb ts e (inTable_of h ht) (hn ts e rfl)
  | commit =>
    obtain ⟨t, ht, rfl⟩ := map_eq_some_iff.mp hs
    cases hl : redoLog db.store t with
    | none => exact h
    | some du =>
      have hd := redoLog_inTable (inTable_of h ht) hl
      refine ⟨hd.toInStore, ?_⟩
      intro v hv
      cases hv
      exact hd.memtable
  | commitCrash =>
    obtain ⟨t, ht, rfl⟩ := map_eq_some_iff.mp hs
    refine ⟨?_, fun t ht => by cases ht⟩
    cases hl : redoLog db.store t with
    | none => exact h.1
    | some du => exact (redoLog_inTable (inTable_of h ht) hl).toInStore
  | flush e =>
    obtain ⟨t, ht, rfl⟩ := map_eq_some_iff.mp hs
    exact after_inDb (flush_inOutcome _ e (inTable_of h ht))
  | crash =>
    cases hs
    exact ⟨h.1, fun t ht => by cases ht⟩
  | reopen ends =>
    simp only [step] at hs
    cases ht : db.table with
    | some t => simp [ht] at hs
    | none =>
      rw [ht] at hs
      cases hs
      exact recover_inDb _ h.1

theorem inDb_mono (h : InDb P db) (hpq : ∀ x, P x → Q x) : InDb Q db :=
  ⟨⟨fun x hx => hpq x (h.1.parts x hx), fun x hx => hpq x (h.1.wal x hx)⟩,
    fun t ht x hx => hpq x (h.2 t ht x hx)⟩

theorem inOutcome_and (hp : InOutcome P o) (hq : InOutcome Q o) :
    InOutcome (fun x => P x ∧ Q x) o := by
  cases o with
  | ok d t =>
    exact ⟨⟨fun x hx => ⟨hp.parts x hx, hq.parts x hx⟩, fun x hx => ⟨hp.wal x hx, hq.wal x hx⟩⟩,
      fun x hx => ⟨hp.memtable x hx, hq.memtable x hx⟩⟩
  | failed d t =>
    exact ⟨⟨fun x hx => ⟨hp.parts x hx, hq.parts x hx⟩, fun x hx => ⟨hp.wal x hx, hq.wal x hx⟩⟩,
      fun x hx => ⟨hp.memtable x hx, hq.memtable x hx⟩⟩
  | crashed d => exact ⟨fun x hx => ⟨hp.parts x hx, hq.parts x hx⟩, fun x hx => ⟨hp.wal x hx, hq.wal x hx⟩⟩

theorem inOutcome_all (h : ∀ x, P x) : InOutcome P o := by
  cases o with
  | crashed d => exact ⟨fun x _ => h x, fun x _ => h x⟩
  | _ d t => exact ⟨⟨fun x _ => h x, fun x _ => h x⟩, fun x _ => h x⟩

theorem after_nextId (db : Db) : (db.after o).nextId = db.nextId := by
  cases o with
  | _ => rfl

theorem step_nextId {db' : Db} {ev : Event} (hs : step sc db ev = some db') : db.nextId ≤ db'.nextId := by
  cases ev with
  | row ts e =>
    obtain ⟨t, -, rfl⟩ := map_eq_some_iff.mp hs
    rw [addRow]
    dsimp only
    split
    · split_ifs
      · exact le_of_eq (after_nextId db).symm
      · exact Nat.le_succ _
    · exact le_of_eq (after_nextId db).symm
  | commit =>
    obtain ⟨t, -, rfl⟩ := map_eq_some_iff.mp hs
    cases hl : redoLog db.store t with
    | _ => exact le_refl _
  | commitCrash =>
    obtain ⟨t, -, rfl⟩ := map_eq_some_iff.mp hs
    exact le_refl _
  | flush e =>
    obtain ⟨t, -, rfl⟩ := map_eq_some_iff.mp hs
    exact le_of_eq (after_nextId db).symm
  | crash =>
    rw [← some.inj hs]
  | reopen ends =>
    simp only [step] at hs
    cases ht : db.table with
    | some t => simp [ht] at hs
    | none =>
      rw [ht] at hs
      rw [← some.inj hs]

end QEngine.RowOrigins

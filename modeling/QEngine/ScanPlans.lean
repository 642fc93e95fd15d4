import QEngine.RedoRecovery

/-!
# A scan plan and the flushes it overlaps

A query lists the partition directories, opens them one by one and copies the
memtable last; nothing holds the lock from the listing to the copy. A row that a
flush moves to a directory already opened, or made after the listing, is in no
source of the plan.
-/

namespace QEngine.ScanPlans
open Option List RedoLog StepRuns
open RedoRecovery (byTime)

def rowsAt : List Part → ℤ → List Row
  | [], _ => []
  | p::ps, name => if p.name = name then p.rows else rowsAt ps name

def listPartitions (parts : List Part) : List ℤ := (parts.map Part.name).insertionSort (· ≤ ·)

inductive Query where
  | starting
  | opening (dirs : List ℤ) (srcs : List Row)
  | planned (srcs : List Row)
  deriving DecidableEq

inductive Write where
  | row (ts : ℤ)
  | commit
  | flush
  deriving DecidableEq

def Write.event : Write → RedoLog.Event
  | .row ts => .row ts .done
  | .commit => .commit
  | .flush => .flush .done

inductive Event where
  | write (w : Write)
  | list
  | openNext
  | snapshot
  deriving DecidableEq

structure State where
  db : Db
  query : Query
  before : List Row
  deriving DecidableEq

def scanStep (db : Db) : Query → Event → Option Query
  | .starting, .list => some (.opening (listPartitions db.store.parts) [])
  | .opening (n::ns) srcs, .openNext => some (.opening ns (srcs++rowsAt db.store.parts n))
  | .opening [] srcs, .snapshot => db.table.map fun t => .planned (srcs++t.memtable)
  | _, _ => none

def step (sc : Schema) (s : State) : Event → Option State
  | .write w => (RedoLog.step sc s.db w.event).map fun db => { s with db := db }
  | e => (scanStep s.db s.query e).map fun q => { s with query := q }

/-- A table as a query finds it: one directory a name, every row stored once,
and every committed row stored. -/
structure Content where
  store : Store
  table : Table
  nextId : ℕ
  batch : List Row
  acked : List Row
  names : (store.parts.map Part.name).Nodup
  once : (partRows store.parts++table.memtable).Nodup
  fresh : ∀ r ∈ partRows store.parts++table.memtable, r.id < nextId
  stored : ∀ r ∈ acked, r ∈ partRows store.parts++table.memtable

def begun (c : Content) : State := ⟨⟨c.store, some c.table, c.nextId, c.batch, c.acked⟩, .starting, c.acked⟩

def Write.Flushes (sc : Schema) (t : Table) : Write → Prop
  | .row _ => t.walIncomplete = false ∧ sc.blockPoints ≤ t.memtable.length
  | .commit => False
  | .flush => t.walIncomplete = false

instance (sc : Schema) (t : Table) : ∀ w : Write, Decidable (w.Flushes sc t)
  | .row _ => inferInstanceAs (Decidable (t.walIncomplete = false ∧ sc.blockPoints ≤ t.memtable.length))
  | .commit => isFalse id
  | .flush => inferInstanceAs (Decidable (t.walIncomplete = false))

def directory (sc : Schema) (rows : List Row) (r : Row) : Option ℤ :=
  ((dayRows sc rows (partIndex sc.unit r.ts)).head?).map fun q => partName sc.unit q.ts

/-- A flush between the listing and the copy puts each row the query must see
into a directory that is still to be opened. -/
def StillAhead (sc : Schema) (before : List Row) (w : Write) : Query → Option Table → Prop
  | .opening dirs _, some t => w.Flushes sc t →
    ∀ r ∈ before, r ∈ t.memtable → ∃ n ∈ dirs, directory sc t.memtable r = some n
  | _, _ => True

instance (sc : Schema) (before : List Row) (w : Write) :
    ∀ (q : Query) (o : Option Table), Decidable (StillAhead sc before w q o)
  | .opening dirs _, some t => inferInstanceAs (Decidable (w.Flushes sc t →
    ∀ r ∈ before, r ∈ t.memtable → ∃ n ∈ dirs, directory sc t.memtable r = some n))
  | .opening _ _, none | .starting, _ | .planned _, _ => isTrue trivial

def Ahead (sc : Schema) (s : State) : Event → Prop
  | .write w => StillAhead sc s.before w s.query s.db.table
  | _ => True

instance (sc : Schema) (s : State) : ∀ e : Event, Decidable (Ahead sc s e)
  | .write w => inferInstanceAs (Decidable (StillAhead sc s.before w s.query s.db.table))
  | .list | .openNext | .snapshot => isTrue trivial

def gathered (parts : List Part) (mem : List Row) : Query → List Row
  | .starting => partRows parts++mem
  | .opening dirs srcs => srcs++dirs.flatMap (rowsAt parts)++mem
  | .planned srcs => srcs

theorem rowsAt_publish (hwm : ℕ) (name : ℤ) (rows : List Row) (parts : List Part) (n : ℤ) :
    rowsAt (publish hwm name rows parts) n =
      if n = name then rowsAt parts n++rows else rowsAt parts n := by
  induction parts with
  | nil =>
    by_cases h : n = name
    · simp [publish, rowsAt, h]
    · simp [publish, rowsAt, h, Ne.symm h]
  | cons p ps ih =>
    by_cases hp : p.name = name
    · by_cases h : n = name
      · simp [publish, hp, rowsAt, h]
      · simp only [publish, if_pos hp, rowsAt, if_neg h, if_neg (Ne.symm h)]
        rw [if_neg (by rw [hp]; exact Ne.symm h)]
    rw [publish, if_neg hp, rowsAt, rowsAt, ih]
    by_cases h : n = name
    · rw [if_pos h, if_pos h, if_neg (by rw [h]; exact hp), if_neg (by rw [h]; exact hp)]
    · simp only [if_neg h]

variable {t : Table} {parts : List Part} {rows : List Row}

theorem names_publish (hwm : ℕ) {name : ℤ}
    (h : (parts.map Part.name).Nodup) : ((publish hwm name rows parts).map Part.name).Nodup ∧
      ∀ n, n ∈ (publish hwm name rows parts).map Part.name → n = name ∨ n ∈ parts.map Part.name := by
  induction parts with
  | nil => simp [publish]
  | cons p ps ih =>
    obtain ⟨hnot, hps⟩ := nodup_cons.mp h
    obtain ⟨hu, hm⟩ := ih hps
    by_cases hp : p.name = name
    · rw [publish, if_pos hp]
      rw [hp] at hnot
      constructor
      · exact nodup_cons.mpr ⟨hnot, hps⟩
      · intro n hn
        exact (mem_cons.mp hn).imp id fun h => mem_cons_of_mem _ h
    rw [publish, if_neg hp, map_cons]
    constructor
    · refine nodup_cons.mpr ⟨fun hin => ?_, hu⟩
      exact (hm _ hin).elim hp hnot
    intro n hn
    rcases mem_cons.mp hn with rfl | hn
    · exact .inr mem_cons_self
    · exact (hm n hn).imp id fun h => mem_cons_of_mem _ h

variable (sc : Schema)

theorem names_publishDays {hwm : ℕ} {ds : List ℤ}
    (h : (parts.map Part.name).Nodup) : ((publishDays sc hwm rows ds parts).map Part.name).Nodup := by
  induction ds generalizing parts with
  | nil => exact h
  | cons d ds ih =>
    apply ih
    rw [publishDay]
    cases dayRows sc rows d with
    | nil => exact h
    | cons r rs => exact (names_publish hwm h).1

theorem count_dayRows (rows : List Row) (d : ℤ) (r : Row) :
    (dayRows sc rows d).count r = if partIndex sc.unit r.ts = d then rows.count r else 0 := by
  rw [(dayRows_perm sc _ d).count_eq]
  split_ifs with h
  · exact count_filter (decide_eq_true h)
  · refine count_eq_zero.mpr fun hm => h ?_
    simpa using (mem_filter.mp hm).2

theorem count_rowsAt_publishDay (hwm : ℕ) (rows : List Row) (parts : List Part) (d n : ℤ)
    (r : Row) : (rowsAt (publishDay sc hwm rows parts d) n).count r = (rowsAt parts n).count r +
      if partIndex sc.unit r.ts = d ∧ directory sc rows r = some n then rows.count r else 0 := by
  have hc := count_dayRows sc rows d r
  rw [publishDay]
  cases hd : dayRows sc rows d with
  | nil =>
    rw [hd, count_nil] at hc
    by_cases h : partIndex sc.unit r.ts = d
    · rw [if_pos h] at hc
      rw [← hc, ite_self, Nat.add_zero]
    · rw [if_neg (fun hh => h hh.1), Nat.add_zero]
  | cons q qs =>
    rw [hd] at hc
    rw [rowsAt_publish]
    by_cases h : partIndex sc.unit r.ts = d
    · have hdir : directory sc rows r = some (partName sc.unit q.ts) := by
        rw [directory, h, hd]
        rfl
      rw [if_pos h] at hc
      by_cases hn : n = partName sc.unit q.ts
      · rw [if_pos hn, if_pos ⟨h, by rw [hdir, hn]⟩, count_append, hc]
      · rw [if_neg hn, if_neg (fun hh => hn (some.inj (hh.2.symm.trans hdir))), Nat.add_zero]
    · have hno : ¬(partIndex sc.unit r.ts = d ∧ directory sc rows r = some n) := fun hh => h hh.1
      rw [if_neg h] at hc
      rw [if_neg hno]
      split_ifs
      · rw [count_append, hc]
      · rfl

theorem count_rowsAt_publishDays (hwm : ℕ) (rows : List Row) (ds : List ℤ)
    (parts : List Part) (n : ℤ) (r : Row) (hu : ds.Nodup) :
    (rowsAt (publishDays sc hwm rows ds parts) n).count r = (rowsAt parts n).count r +
      if partIndex sc.unit r.ts ∈ ds ∧ directory sc rows r = some n then rows.count r else 0 := by
  induction ds generalizing parts with
  | nil => simp [publishDays]
  | cons d ds ih =>
    obtain ⟨hnot, hu'⟩ := nodup_cons.mp hu
    have h := ih (publishDay sc hwm rows parts d) hu'
    rw [count_rowsAt_publishDay] at h
    rw [show publishDays sc hwm rows (d::ds) parts =
      publishDays sc hwm rows ds (publishDay sc hwm rows parts d) from rfl, h]
    by_cases hr : partIndex sc.unit r.ts = d
    · have hno : partIndex sc.unit r.ts ∉ ds := by rw [hr]; exact hnot
      simp [hr, hnot]
    · simp [hr]

theorem count_rowsAt_flush (hwm : ℕ) (rows : List Row) (parts : List Part) (n : ℤ)
    (r : Row) : (rowsAt (publishDays sc hwm rows (days sc rows) parts) n).count r =
      (rowsAt parts n).count r + if directory sc rows r = some n then rows.count r else 0 := by
  rw [count_rowsAt_publishDays sc hwm _ _ _ n r (days_nodup sc _)]
  by_cases hr : r ∈ rows
  · have hd : partIndex sc.unit r.ts ∈ days sc rows := (mem_days sc _ _).mpr ⟨r, hr, rfl⟩
    simp [hd]
  · simp [count_eq_zero.mpr hr]

theorem count_dirs_flush (hwm : ℕ) (rows : List Row) (parts : List Part)
    (dirs : List ℤ) (r : Row) (hu : dirs.Nodup) :
    (dirs.flatMap (rowsAt (publishDays sc hwm rows (days sc rows) parts))).count r =
      (dirs.flatMap (rowsAt parts)).count r +
        if ∃ n ∈ dirs, directory sc rows r = some n then rows.count r else 0 := by
  induction dirs with
  | nil => simp
  | cons n ns ih =>
    obtain ⟨hnot, hu'⟩ := nodup_cons.mp hu
    rw [flatMap_cons, flatMap_cons, count_append, count_append,
      count_rowsAt_flush, ih hu']
    by_cases hn : directory sc rows r = some n
    · have hno : ¬∃ m ∈ ns, directory sc rows r = some m := by
        rintro ⟨m, hm, he⟩
        exact hnot (some.inj (hn.symm.trans he) ▸ hm)
      rw [if_pos hn, if_neg hno, if_pos ⟨n, mem_cons_self, hn⟩]
      omega
    · have hiff : (∃ m ∈ n::ns, directory sc rows r = some m) ↔
          ∃ m ∈ ns, directory sc rows r = some m := by
        simp [hn]
      simp only [hiff, if_neg hn, Nat.add_zero, Nat.add_assoc]

theorem names_rows (parts : List Part) (h : (parts.map Part.name).Nodup) :
    (parts.map Part.name).flatMap (rowsAt parts) = partRows parts := by
  induction parts with
  | nil => rfl
  | cons p ps ih =>
    obtain ⟨hnot, hps⟩ := nodup_cons.mp h
    have hrest : (ps.map Part.name).flatMap (rowsAt (p::ps)) = (ps.map Part.name).flatMap (rowsAt ps) := by
      rw [flatMap_def, flatMap_def]
      refine congrArg List.flatten (map_congr_left fun n hn => ?_)
      rw [rowsAt, if_neg (fun he : p.name = n => hnot (he ▸ hn))]
    rw [map_cons, flatMap_cons, hrest, ih hps, rowsAt, if_pos rfl]
    rfl

theorem listPartitions_perm (parts : List Part) : (listPartitions parts).Perm (parts.map Part.name) :=
  perm_insertionSort _ _

theorem flushAndClear_done (d : Store) (t : Table) : (∃ d' t', flushAndClear sc false .done d t = .ok d' t' ∧
      ((d'.parts = d.parts ∧ t' = t ∧ t.memtable = []) ∨ (t.walIncomplete = false ∧ t'.memtable = [] ∧
        d'.parts = publishDays sc t.commitSeq t.memtable (days sc t.memtable) d.parts))) ∨
    flushAndClear sc false .done d t = .failed d t := by
  unfold flushAndClear
  by_cases hm : t.memtable = []
  · exact .inl ⟨d, t, if_pos hm, .inl ⟨rfl, rfl, hm⟩⟩
  rw [if_neg hm]
  by_cases hw : t.walIncomplete = true
  · exact .inr (if_pos hw)
  · rw [if_neg hw]
    exact .inl ⟨_, _, rfl, .inr ⟨by simpa using hw, rfl, rfl⟩⟩

theorem write_cases {sc : Schema} {db db' : Db} {w : Write} (ht : db.table = some t)
    (h : RedoLog.step sc db w.event = some db') :
    ∃ t' new, db'.table = some t' ∧ db.nextId ≤ db'.nextId ∧ (∀ r ∈ new, db.nextId ≤ r.id) ∧
      ((db'.store.parts = db.store.parts ∧ t'.memtable = t.memtable++new) ∨
        (w.Flushes sc t ∧ t'.memtable = new ∧ db'.store.parts =
          publishDays sc t.commitSeq t.memtable (days sc t.memtable) db.store.parts)) := by
  cases w with
  | row ts =>
    simp only [Write.event, RedoLog.step, ht, map_some, some.injEq] at h
    subst h
    rw [addRow]
    by_cases hfull : sc.blockPoints ≤ t.memtable.length
    · rw [if_pos hfull]
      obtain ⟨d', t', ho, hcase⟩ | ho := flushAndClear_done sc _ t
      · rw [ho]
        dsimp only
        by_cases hstill : sc.blockPoints ≤ t'.memtable.length
        · rw [if_pos hstill]
          refine ⟨t', [], rfl, le_refl _, by simp, ?_⟩
          rcases hcase with ⟨hp, rfl, _⟩ | ⟨hw, hmem, hp⟩
          · exact .inl ⟨hp, by simp⟩
          · exact .inr ⟨⟨hw, hfull⟩, hmem, hp⟩
        rw [if_neg hstill]
        refine ⟨_, [⟨db.nextId, ts⟩], rfl, Nat.le_succ _, by simp, ?_⟩
        rcases hcase with ⟨hp, rfl, _⟩ | ⟨hw, hmem, hp⟩
        · exact .inl ⟨hp, rfl⟩
        · exact .inr ⟨⟨hw, hfull⟩, by simp [hmem], hp⟩
      · rw [ho]
        exact ⟨t, [], rfl, le_refl _, by simp, .inl ⟨rfl, by simp⟩⟩
    · rw [if_neg hfull]
      dsimp only
      rw [if_neg hfull]
      exact ⟨_, [⟨db.nextId, ts⟩], rfl, Nat.le_succ _, by simp, .inl ⟨rfl, rfl⟩⟩
  | commit =>
    simp only [Write.event, RedoLog.step, ht, map_some, some.injEq] at h
    subst h
    rw [redoLog]
    split_ifs
    · exact ⟨t, [], ht, le_refl _, by simp, .inl ⟨rfl, by simp⟩⟩
    · exact ⟨t, [], rfl, le_refl _, by simp, .inl ⟨rfl, by simp⟩⟩
    · exact ⟨_, [], rfl, le_refl _, by simp, .inl ⟨rfl, by simp⟩⟩
  | flush =>
    simp only [Write.event, RedoLog.step, ht, map_some, some.injEq] at h
    subst h
    obtain ⟨d', t', ho, hcase⟩ | ho := flushAndClear_done sc _ t
    · rw [ho]
      refine ⟨t', [], rfl, le_refl _, by simp, ?_⟩
      rcases hcase with ⟨hp, rfl, _⟩ | ⟨hw, hmem, hp⟩
      · exact .inl ⟨hp, by simp⟩
      · exact .inr ⟨hw, hmem, hp⟩
    · rw [ho]
      exact ⟨t, [], rfl, le_refl _, by simp, .inl ⟨rfl, by simp⟩⟩

structure Sound (s : State) (t : Table) : Prop where
  table : s.db.table = some t
  names : (s.db.store.parts.map Part.name).Nodup
  dirs : ∀ ds srcs, s.query = .opening ds srcs → ds.Nodup
  known : ∀ r ∈ s.before, r.id < s.db.nextId

def State.gathered (s : State) (t : Table) : List Row :=
  ScanPlans.gathered s.db.store.parts t.memtable s.query

variable {q : Query}

/-- A flush never adds a row to what the query finds, and takes none away
whose directory is still ahead. -/
theorem flush_gathered (hwm : ℕ) (mem : List Row) (parts : List Part) (r : Row)
    (hq : ∀ ds srcs, q = .opening ds srcs → ds.Nodup) :
    (gathered (publishDays sc hwm mem (days sc mem) parts) [] q).count r ≤ (gathered parts mem q).count r ∧
    ((∀ ds srcs, q = .opening ds srcs → r ∈ mem → ∃ n ∈ ds, directory sc mem r = some n) →
      (gathered (publishDays sc hwm mem (days sc mem) parts) [] q).count r = (gathered parts mem q).count
      r) := by
  cases q with
  | starting =>
    have hp := (publishDays_rows sc hwm mem parts (days_nodup sc mem)).count_eq r
    have hf : mem.filter (fun r => partIndex sc.unit r.ts ∈ days sc mem) = mem :=
      filter_eq_self.mpr fun q hq => decide_eq_true ((mem_days sc mem _).mpr ⟨q, hq, rfl⟩)
    rw [hf] at hp
    rw [gathered, gathered, append_nil, hp]
    exact ⟨le_refl _, fun _ => rfl⟩
  | opening ds srcs =>
    simp only [gathered, append_nil, count_append,
      count_dirs_flush sc hwm mem _ ds r (hq ds srcs rfl)]
    constructor
    · split_ifs <;> omega
    intro h
    by_cases hr : r ∈ mem
    · rw [if_pos (h ds srcs rfl hr)]
      omega
    · rw [count_eq_zero.mpr hr, ite_self, Nat.add_zero]
      rfl
  | planned srcs => exact ⟨le_refl _, fun _ => rfl⟩

theorem gathered_grown {mem new : List Row} {r : Row} (hr : r ∉ new) :
    (gathered parts (mem++new) q).count r = (gathered parts mem q).count r := by
  cases q <;> simp [gathered, count_append, count_eq_zero.mpr hr]

theorem write_gathered {sc : Schema} {s s' : State} {w : Write} (hs : Sound s t)
    (h : step sc s (.write w) = some s') : ∃ t', Sound s' t' ∧ s'.before = s.before ∧
      ∀ r ∈ s.before, (s'.gathered t').count r ≤ (s.gathered t).count r ∧
        (Ahead sc s (.write w) → (s'.gathered t').count r = (s.gathered t).count r) := by
  obtain ⟨db', hdb, rfl⟩ := map_eq_some_iff.mp h
  obtain ⟨t', new, ht', hid, hnew, hcase⟩ := write_cases hs.table hdb
  have hfresh : ∀ r ∈ s.before, r ∉ new := fun r hr hn =>
    absurd (hnew r hn) (Nat.not_le.mpr (hs.known r hr))
  have hknown : ∀ r ∈ s.before, r.id < db'.nextId := fun r hr => Nat.lt_of_lt_of_le (hs.known r hr) hid
  refine ⟨t', ⟨ht', ?_, hs.dirs, hknown⟩, rfl, fun r hr => ?_⟩
  · rcases hcase with ⟨hp, _⟩ | ⟨_, _, hp⟩
    · exact hp ▸ hs.names
    · exact hp ▸ names_publishDays sc hs.names
  simp only [State.gathered]
  rcases hcase with ⟨hp, hmem⟩ | ⟨hfl, hmem, hp⟩
  · rw [hp, hmem, gathered_grown (hfresh r hr)]
    exact ⟨le_refl _, fun _ => rfl⟩
  have hg := flush_gathered sc t.commitSeq t.memtable s.db.store.parts r hs.dirs
  rw [hp, hmem, ← nil_append new, gathered_grown (hfresh r hr)]
  refine ⟨hg.1, fun ha => hg.2 fun ds srcs hq hin => ?_⟩
  rw [Ahead, hq, hs.table] at ha
  exact ha hfl r hr hin

variable {e : Event}

theorem scanStep_cases {db : Db} {q' : Query} (h : scanStep db q e = some q') :
    (q = .starting ∧ q' = .opening (listPartitions db.store.parts) []) ∨
    (∃ n ns srcs, q = .opening (n::ns) srcs ∧ q' = .opening ns (srcs++rowsAt db.store.parts n)) ∨
    (∃ srcs t, q = .opening [] srcs ∧ db.table = some t ∧ q' = .planned (srcs++t.memtable)) := by
  unfold scanStep at h
  split at h
  · exact .inl ⟨rfl, (some.inj h).symm⟩
  · exact .inr (.inl ⟨_, _, _, rfl, (some.inj h).symm⟩)
  · obtain ⟨t, ht, hq⟩ := map_eq_some_iff.mp h
    exact .inr (.inr ⟨_, t, rfl, ht, hq.symm⟩)
  · cases h

theorem scan_gathered {s : State} (hs : Sound s t)
    (h : scanStep s.db s.query e = some q) : Sound { s with query := q } t ∧
      ∀ r, (gathered s.db.store.parts t.memtable q).count r = (s.gathered t).count r := by
  rw [State.gathered]
  obtain ⟨hq, rfl⟩ | ⟨n, ns, srcs, hq, rfl⟩ | ⟨srcs, t', hq, ht, rfl⟩ := scanStep_cases h
  · have hl := listPartitions_perm s.db.store.parts
    refine ⟨⟨hs.table, hs.names, ?_, hs.known⟩, fun r => ?_⟩
    · intro ds srcs hd
      cases hd
      exact hl.nodup_iff.mpr hs.names
    · rw [hq, gathered, gathered, nil_append, count_append, count_append,
        (hl.flatMap_right _).count_eq r, names_rows _ hs.names]
  · refine ⟨⟨hs.table, hs.names, ?_, hs.known⟩, fun r => ?_⟩
    · intro ds srcs hd
      cases hd
      exact (nodup_cons.mp (hs.dirs _ _ hq)).2
    · simp [hq, gathered]
  · refine ⟨⟨hs.table, hs.names, fun _ _ hd => (by cases hd), hs.known⟩, fun r => ?_⟩
    rw [hs.table] at ht
    cases ht
    simp [hq, gathered]

theorem step_gathered {sc : Schema} {s s' : State} (hs : Sound s t)
    (h : step sc s e = some s') : ∃ t', Sound s' t' ∧ s'.before = s.before ∧
      ∀ r ∈ s.before, (s'.gathered t').count r ≤ (s.gathered t).count r ∧
        (Ahead sc s e → (s'.gathered t').count r = (s.gathered t).count r) := by
  have hscan : (scanStep s.db s.query e).map (fun q => { s with query := q }) = some s' →
      ∃ t', Sound s' t' ∧ s'.before = s.before ∧
        ∀ r ∈ s.before, (s'.gathered t').count r ≤ (s.gathered t).count r ∧
          (Ahead sc s e → (s'.gathered t').count r = (s.gathered t).count r) := by
    intro h
    obtain ⟨q, hq, rfl⟩ := map_eq_some_iff.mp h
    obtain ⟨hs', hc⟩ := scan_gathered hs hq
    exact ⟨t, hs', rfl, fun r _ => ⟨(hc r).le, fun _ => hc r⟩⟩
  cases e with
  | write w => exact write_gathered hs h
  | list | openNext | snapshot => exact hscan h

theorem begun_sound (c : Content) : Sound (begun c) c.table :=
  ⟨rfl, c.names, fun _ _ h => (by cases h), fun r hr => c.fresh r (c.stored r hr)⟩

theorem begun_gathered {c : Content} {r : Row} (hr : r ∈ c.acked) :
    ((begun c).gathered c.table).count r = 1 :=
  count_eq_one_of_mem c.once (c.stored r hr)

theorem run_gathered {sc : Schema} (es : List Event) (s s' : State) (t : Table) (hs : Sound s t)
    (h : run (step sc) s es = some s') : ∃ t', Sound s' t' ∧
      ∀ r ∈ s.before, (s'.gathered t').count r ≤ (s.gathered t).count r ∧
        (Along (step sc) (Ahead sc) s es → (s'.gathered t').count r = (s.gathered t).count r) := by
  induction es generalizing s t with
  | nil =>
    cases h
    exact ⟨t, hs, fun r _ => ⟨le_refl _, fun _ => rfl⟩⟩
  | cons e es ih =>
    obtain ⟨u, hu, h'⟩ := run_cons h
    obtain ⟨t1, hs1, hb, hc1⟩ := step_gathered hs hu
    obtain ⟨t2, hs2, hc2⟩ := ih u t1 hs1 h'
    rw [hb] at hc2
    refine ⟨t2, hs2, fun r hr => ⟨(hc2 r hr).1.trans (hc1 r hr).1, fun ha => ?_⟩⟩
    obtain ⟨hok, hrest⟩ := along_cons ha hu
    exact ((hc2 r hr).2 hrest).trans ((hc1 r hr).2 hok)

/-- A committed row is never twice in the plan, and is there once if no flush puts it into a
directory already passed. -/
theorem plan_holds_committed_rows (sc : Schema) (c : Content) (es : List Event) (s : State)
    (srcs : List Row) (hr : run (step sc) (begun c) es = some s) (hp : s.query = .planned srcs)
    (r : Row) (hb : r ∈ c.acked) :
    srcs.count r ≤ 1 ∧ (Along (step sc) (Ahead sc) (begun c) es → srcs.count r = 1) := by
  obtain ⟨t, -, hc⟩ := run_gathered es _ s _ (begun_sound c) hr
  have h := hc r hb
  rw [begun_gathered hb, State.gathered, hp] at h
  exact h

def twoRows : Content where
  store := ⟨[⟨0, [⟨0, 1⟩], 1⟩], [⟨2, [⟨1, 2⟩]⟩]⟩
  table := ⟨[⟨1, 2⟩], 1, 2, false⟩
  nextId := 2
  batch := []
  acked := [⟨0, 1⟩, ⟨1, 2⟩]
  names := by decide
  once := by decide
  fresh := by decide
  stored := by decide

theorem plan_holds_committed_rows_ahead :
    ∃ s, run (step (byTime 4)) (begun twoRows) [.list, .write .flush, .openNext, .snapshot] = some s ∧
      s.query = .planned [⟨0, 1⟩, ⟨1, 2⟩] ∧ [(⟨0, 1⟩ : Row), ⟨1, 2⟩].count ⟨1, 2⟩ = 1 := by
  obtain ⟨s, hr, hq⟩ := run_reaches (step (byTime 4)) (begun twoRows)
    [.list, .write .flush, .openNext, .snapshot] (fun s => s.query = .planned [⟨0, 1⟩, ⟨1, 2⟩]) (by decide)
  have hp := plan_holds_committed_rows (byTime 4) twoRows _ s _ hr hq ⟨1, 2⟩ (by decide)
  exact ⟨s, hr, hq, hp.2 (by decide)⟩

/-- The flush after the query opened its one directory moves the second row there, and the copy
finds the memtable empty. -/
theorem flush_behind_query_hides_row :
    run (RedoLog.step (byTime 4)) created [.row 1 .done, .commit, .flush .done, .row 2 .done, .commit] =
      some (begun twoRows).db ∧ (⟨1, 2⟩ : Row) ∈ twoRows.acked ∧
    ∃ s, run (step (byTime 4)) (begun twoRows) [.list, .openNext, .write .flush, .snapshot] = some s ∧
      s.query = .planned [⟨0, 1⟩] ∧ s.db.acked = [⟨0, 1⟩, ⟨1, 2⟩] ∧
      partRows s.db.store.parts = [⟨0, 1⟩, ⟨1, 2⟩] := by
  refine ⟨by decide, by decide, ?_⟩
  exact run_reaches (step (byTime 4)) (begun twoRows) [.list, .openNext, .write .flush, .snapshot]
    (fun s => s.query = .planned [⟨0, 1⟩] ∧ s.db.acked = [⟨0, 1⟩, ⟨1, 2⟩] ∧
      partRows s.db.store.parts = [⟨0, 1⟩, ⟨1, 2⟩]) (by decide)

end QEngine.ScanPlans

import QEngine.RedoRecovery
import QEngine.TableBatches

/-!
# Undoing a batch

A batch whose commit fails is discarded: the memtable is cut back to where the
batch began. A commit that has published a partition before it fails, or a flush
in the middle of the batch, puts rows where a discard does not reach.
-/

namespace QEngine.BatchUndo
open Option List RedoLog RedoRecovery TableBatches

inductive Append where
  | row (r : Row) (overBudget : Bool) (f : FlushRun)
  | bulk (rows : List Row) (f : FlushRun) (fs : ℕ → FlushRun)

def Append.rows : Append → List Row
  | .row r _ _ => [r]
  | .bulk rows _ _ => rows

def Append.Kept : Append → Prop
  | .row _ _ f => f.answer = .keep
  | .bulk _ f fs => f.answer = .keep ∧ ∀ n, (fs n).answer = .keep

structure Session where
  batch : Batch
  store : Store
  mem : Ingest
  deriving DecidableEq

def batched (localOnly : Bool) (d : Store) (t : Ingest) : Session := ⟨batchBegin localOnly t, d, t⟩

def append (cfg : Config) (s : Session) : Append → Option Session
  | .row r overBudget f =>
    let o := batchRow cfg s.batch overBudget f r s.store s.mem
    if o.ok then some { s with store := o.store, mem := o.mem } else none
  | .bulk rows f fs =>
    let o := batchAppendBulk cfg s.batch f fs rows s.store s.mem
    if o.1.ok then some ⟨o.2, o.1.store, o.1.mem⟩ else none

def appendAll (cfg : Config) : Session → List Append → Option Session
  | s, [] => some s
  | s, a::as => (append cfg s a).bind fun s' => appendAll cfg s' as

def allRows (calls : List Append) : List Row := calls.flatMap Append.rows

def commit (cfg : Config) (walFails : Bool) (f : FlushRun) (s : Session) : Done :=
  batchCommit cfg s.batch walFails f s.store s.mem

def visible (d : Store) (t : Ingest) : List Row := partRows d.parts++t.memtable

/-- Where a discard cuts the memtable. -/
def start (b : Batch) (t : Ingest) : ℕ := if t.flushGen ≠ b.beginFlushGen then 0 else b.baseNrows

/-- The flush a call begins with, if it needs one. -/
def Append.flush (cfg : Config) (t : Ingest) : Append → Option FlushRun
  | .row _ overBudget f =>
    if cfg.schema.blockPoints ≤ t.memtable.length ∨ (overBudget = true ∧ 2048 ≤ t.memtable.length) then some f
    else none
  | .bulk rows f _ =>
    if rows ≠ [] ∧ 0 < t.memtable.length ∧ cfg.schema.blockPoints < t.memtable.length+rows.length then some f
    else none

/-- A flush that publishes finds no row of the batch, and one whose rows stay with other owners
finds no row from before it. -/
def Harmless (cfg : Config) (s : Session) (f : FlushRun) : Prop :=
  if skipsLocal cfg s.batch.localOnly f then start s.batch s.mem = 0
  else s.mem.memtable.length ≤ start s.batch s.mem

def Whole (cfg : Config) : Session → List Append → Prop
  | _, [] => True
  | s, a::as => (∀ f ∈ a.flush cfg s.mem, Harmless cfg s f) ∧
    (append cfg s a).elim True fun s' => Whole cfg s' as

/-- The commit does not flush, or its flush finds nothing or is refused. -/
def Idle (cfg : Config) (s : Session) : Prop :=
  cfg.walOnly = true ∨ s.mem.memtable = [] ∨ s.mem.walIncomplete = true

/-- The flush of the commit stops before its first partition, or is harmless and complete and only
the sync after it fails. -/
def Spared (cfg : Config) (f : FlushRun) (s : Session) : Prop :=
  Idle cfg s ∨
  if skipsLocal cfg s.batch.localOnly f then Harmless cfg s f
  else f.stop = some 0 ∨ (Harmless cfg s f ∧ ∀ k ∈ f.stop, (days cfg.schema s.mem.memtable).length ≤ k)

section
variable {cfg : Config} {skip : Bool} {f : FlushRun} {d : Store} {t : Ingest} {o : Done} {b : Batch}

/-- A flush that returns TSDB_OK found nothing, or has drained the memtable
into the partitions. -/
theorem flushed_ok (h : Flushed cfg skip f d t o) (hf : f.answer = .keep) (ho : o.ok = true) :
    (t.memtable = [] ∧ o.store = d ∧ o.mem = t) ∨
    ((partRows o.store.parts).Perm (partRows d.parts++t.memtable) ∧
      o.mem = (t.offered cfg skip).drained) := by
  cases h with
  | empty he => exact .inl ⟨he, rfl, rfl⟩
  | frozen _ => cases ho
  | skipped hs => simp [skipsLocal, hf] at hs
  | published parts hm hs hp => exact .inr ⟨hp, rfl⟩
  | stopped _ _ _ _ => cases ho

theorem flushed_visible (h : Flushed cfg skip f d t o) (hf : f.answer = .keep) (ho : o.ok = true) :
    (visible o.store o.mem).Perm (visible d t) := by
  rcases flushed_ok h hf ho with ⟨-, hd, ht⟩ | ⟨hp, ht⟩
  · rw [hd, ht]
  · rw [visible, ht, drained_memtable, append_nil]
    exact hp

theorem visible_append (d : Store) (t : Ingest) (rows : List Row) :
    visible d { t with memtable := t.memtable++rows } = visible d t++rows := by
  rw [visible, visible, append_assoc]

theorem visible_marked (d : Store) (t : Ingest) (b : Batch) : visible d (t.marked b) = visible d t := by
  rw [visible, visible, marked_toTable]

theorem batchRow_ok {overBudget : Bool} {r : Row} (h : (batchRow cfg b overBudget f r d t).ok = true) :
    ∃ o, o.ok = true ∧ batchRow cfg b overBudget f r d t =
        ⟨true, o.store, Ingest.marked b { o.mem with memtable := o.mem.memtable++[r] }⟩ ∧
      ((o = ⟨true, d, t⟩ ∧ (Append.row r overBudget f).flush cfg t = none) ∨
        (Flushed cfg b.localOnly f d t o ∧ t.memtable ≠ [] ∧
          (Append.row r overBudget f).flush cfg t = some f)) := by
  have hcases : (maybeFlush cfg b.localOnly overBudget f d t = ⟨true, d, t⟩ ∧
        (Append.row r overBudget f).flush cfg t = none) ∨
      (Flushed cfg b.localOnly f d t (maybeFlush cfg b.localOnly overBudget f d t) ∧ t.memtable ≠ [] ∧
        (Append.row r overBudget f).flush cfg t = some f) := by
    rw [maybeFlush, Append.flush]
    have hpos := cfg.blockPoints_pos
    by_cases hfull : cfg.schema.blockPoints ≤ t.memtable.length
    · rw [if_pos hfull, if_pos (.inl hfull)]
      exact .inr ⟨flush_flushed cfg _ f d t, length_pos_iff.mp (by omega), rfl⟩
    rw [if_neg hfull]
    by_cases hbudget : overBudget = true ∧ 2048 ≤ t.memtable.length
    · rw [if_pos hbudget, if_pos (.inr hbudget)]
      exact .inr ⟨flush_flushed cfg _ f d t, length_pos_iff.mp (by omega), rfl⟩
    · rw [if_neg hbudget, if_neg (not_or.mpr ⟨hfull, hbudget⟩)]
      exact .inl ⟨rfl, rfl⟩
  rw [batchRow] at h ⊢
  refine ⟨maybeFlush cfg b.localOnly overBudget f d t, ?_, ?_, hcases⟩ <;>
    generalize maybeFlush cfg b.localOnly overBudget f d t = o at h
  all_goals
    obtain ⟨ok, d', t'⟩ := o
    cases ok with
    | false => simp at h
    | true =>
      by_cases hfull : cfg.schema.blockPoints ≤ t'.memtable.length
      · simp [hfull] at h
      · simp [hfull]

theorem appendChunks_fit (fs : ℕ → FlushRun) {rows : List Row} (hr : rows ≠ [])
    (hfit : t.memtable.length+rows.length ≤ cfg.schema.blockPoints) :
    appendChunks cfg b fs rows.length rows d t = ⟨true, d, { t with memtable := t.memtable++rows }⟩ := by
  have hpos : 0 < rows.length := length_pos_iff.mpr hr
  obtain ⟨n, hn⟩ := Nat.exists_eq_succ_of_ne_zero (Nat.pos_iff_ne_zero.mp hpos)
  have havail : ¬cfg.schema.blockPoints-t.memtable.length = 0 := by omega
  have htake : rows.take (cfg.schema.blockPoints-t.memtable.length) = rows :=
    take_of_length_le (by omega)
  have hdrop : rows.drop (cfg.schema.blockPoints-t.memtable.length) = [] :=
    drop_eq_nil_of_le (by omega)
  have hnot : ¬cfg.schema.blockPoints < t.memtable.length+rows.length := by omega
  rw [hn, appendChunks, if_neg hr]
  simp only [if_neg havail, htake, hdrop, appendBulkRaw, if_neg hnot]
  cases n with
  | zero => rfl
  | succ n => rfl

/-- A bulk append of at most one memtable is preceded by a flush or not; its
rows are then appended at once. -/
theorem batchAppendBulk_ok {fs : ℕ → FlushRun} {rows : List Row} (hr : rows ≠ [])
    (hsize : rows.length ≤ cfg.schema.blockPoints) (h : (batchAppendBulk cfg b f fs rows d t).1.ok = true) :
    (t.memtable.length+rows.length ≤ cfg.schema.blockPoints ∧ batchAppendBulk cfg b f fs rows d t =
      (⟨true, d, Ingest.marked b { t with memtable := t.memtable++rows }⟩, b)) ∨
    ∃ o, 0 < t.memtable.length ∧ cfg.schema.blockPoints < t.memtable.length+rows.length ∧
      Flushed cfg b.localOnly f d t o ∧ o.ok = true ∧ batchAppendBulk cfg b f fs rows d t =
      (⟨true, o.store, Ingest.marked ⟨0, o.mem.flushGen, b.localOnly⟩ { o.mem with memtable := rows }⟩,
        ⟨0, o.mem.flushGen, b.localOnly⟩) := by
  rw [batchAppendBulk, if_neg hr] at h ⊢
  by_cases hw : rows.length ≤ cfg.schema.blockPoints ∧ 0 < t.memtable.length ∧
    cfg.schema.blockPoints < t.memtable.length+rows.length
  · right
    simp only [if_pos hw] at h ⊢
    refine ⟨flushAndClearLocked cfg b.localOnly f d t, hw.2.1, hw.2.2, flush_flushed cfg _ f d t, ?_⟩
    have hempty := flushed_ok_empty (flush_flushed cfg b.localOnly f d t)
    generalize flushAndClearLocked cfg b.localOnly f d t = o at h hempty
    by_cases hk : o.ok = false
    · rw [if_pos hk, hk] at h
      cases h
    have hok : o.ok = true := by simpa using hk
    have hfit := appendChunks_fit (b := ⟨0, o.mem.flushGen, b.localOnly⟩) (d := o.store) (t := o.mem) fs hr
      (by rw [hempty hok]; simpa using hsize)
    rw [hempty hok, nil_append] at hfit
    refine ⟨hok, ?_⟩
    rw [if_neg hk, hfit, if_pos ⟨rfl, hr⟩]
  · left
    have hfit : t.memtable.length+rows.length ≤ cfg.schema.blockPoints := by omega
    simp only [if_neg hw]
    rw [appendChunks_fit fs hr hfit, if_neg (by simp), if_pos ⟨rfl, by simp [hr]⟩]
    exact ⟨hfit, rfl⟩

end

/-- The memtable is `pre`, from before the batch, and `own`, of the batch; `published` are rows of
the batch in partitions, and `lost` are rows from before it that no partition holds. -/
structure Tracked (before new : List Row) (s : Session) (pre own published lost : List Row) : Prop where
  memtable : s.mem.memtable = pre++own
  start : start s.batch s.mem = pre.length
  moved : (partRows s.store.parts++pre++lost).Perm (before++published)
  logged : s.mem.memLogged ≤ pre.length
  gen : s.batch.beginFlushGen ≤ s.mem.flushGen
  old : ∀ r ∈ pre++lost, r ∈ before
  fresh : ∀ r ∈ own++published, r ∈ new
  gone : lost = [] ∨ pre = []

section
variable {cfg : Config} {before new pre own published lost : List Row} {b : Batch} {d : Store} {t : Ingest}
  {f : FlushRun} {o : Done}

theorem tracked_begin (localOnly : Bool) (d : Store) (t : Ingest) (h : t.memLogged ≤ t.memtable.length) :
    Tracked (visible d t) new (batched localOnly d t) t.memtable [] [] [] where
  memtable := (append_nil _).symm
  start := by simp [batched, batchBegin, BatchUndo.start]
  moved := by simp [batched, visible]
  logged := h
  gen := le_refl _
  old := fun r hr => mem_append_right _ (by simpa using hr)
  fresh := fun r hr => by simp at hr
  gone := .inl rfl

theorem tracked_append (h : Tracked before new ⟨b, d, t⟩ pre own published lost) (rows : List Row)
    (hr : ∀ r ∈ rows, r ∈ new) (c : Batch) :
    Tracked before new ⟨b, d, Ingest.marked c { t with memtable := t.memtable++rows }⟩ pre (own++rows)
    published
      lost where
  memtable := by
    rw [marked_toTable]
    rw [h.memtable, append_assoc]
  start := by
    rw [BatchUndo.start, marked_flushGen]
    exact h.start
  moved := h.moved
  logged := by
    rw [marked_toTable]
    exact h.logged
  gen := by
    rw [marked_flushGen]
    exact h.gen
  old := h.old
  fresh := by
    intro r hm
    rcases mem_append.mp hm with hm | hm
    · rcases mem_append.mp hm with hm | hm
      · exact h.fresh r (mem_append_left _ hm)
      · exact hr r hm
    · exact h.fresh r (mem_append_right _ hm)
  gone := h.gone

theorem harmless_iff (h : Tracked before new ⟨b, d, t⟩ pre own published lost) :
    Harmless cfg ⟨b, d, t⟩ f ↔ if skipsLocal cfg b.localOnly f then pre = [] else own = [] := by
  have hs : BatchUndo.start b t = pre.length := h.start
  have hm : t.memtable = pre++own := h.memtable
  rw [Harmless]
  dsimp only
  rw [hs, hm, length_append]
  split_ifs
  · exact length_eq_zero_iff
  · rw [← length_eq_zero_iff]
    omega

/-- A flush that returns TSDB_OK empties the memtable. -/
theorem tracked_drained (h : Tracked before new ⟨b, d, t⟩ pre own published lost) {d' : Store}
    {published' lost' : List Row} (skip : Bool) (hp : (partRows d'.parts++lost').Perm (before++published'))
    (hl : ∀ r ∈ lost', r ∈ before) (hf : ∀ r ∈ published', r ∈ new) :
    Tracked before new ⟨b, d', (t.offered cfg skip).drained⟩ [] [] published' lost' := by
  have hgen : b.beginFlushGen ≤ t.flushGen := h.gen
  refine ⟨rfl, ?_, ?_, le_refl 0, ?_, ?_, ?_, .inr rfl⟩
  · rw [BatchUndo.start]
    dsimp only
    rw [drained_flushGen, offered_flushGen, if_pos (by omega)]
    rfl
  · rw [append_nil]
    exact hp
  · dsimp only
    rw [drained_flushGen, offered_flushGen]
    omega
  · rwa [nil_append]
  · rwa [nil_append]

theorem skipped_moved (h : Tracked before new ⟨b, d, t⟩ pre own published lost) :
    (partRows d.parts++(lost++pre)).Perm (before++published) := by
  have hm : (partRows d.parts++pre++lost).Perm (before++published) := h.moved
  rw [append_assoc] at hm
  exact (List.Perm.append_left _ perm_append_comm).trans hm

theorem perm_moved {parts rows others all : List Row} (hp : parts.Perm (rows++all)) :
    (parts++others).Perm (rows++others++all) := by
  refine (hp.append_right others).trans ?_
  rw [append_assoc, append_assoc]
  exact List.Perm.append_left _ perm_append_comm

theorem published_moved (h : Tracked before new ⟨b, d, t⟩ pre own published lost) {parts : List Part}
    (hp : (partRows parts).Perm (partRows d.parts++t.memtable)) :
    (partRows parts++lost).Perm (before++(published++own)) := by
  have hm : t.memtable = pre++own := h.memtable
  rw [hm, ← append_assoc] at hp
  rw [← append_assoc]
  exact (perm_moved hp).trans (List.Perm.append_right own h.moved)

theorem tracked_flush (h : Tracked before new ⟨b, d, t⟩ pre own published lost)
    (hf : Flushed cfg b.localOnly f d t o) (ho : o.ok = true) (hm : t.memtable ≠ []) :
    ∃ published' lost', Tracked before new ⟨b, o.store, o.mem⟩ [] [] published' lost' ∧
      (published' = [] ∧ lost' = [] ↔ (published = [] ∧ lost = []) ∧ Harmless cfg ⟨b, d, t⟩ f) := by
  rw [harmless_iff h]
  cases hf with
  | empty he => exact absurd he hm
  | frozen _ => cases ho
  | skipped hs =>
    have hmoved := skipped_moved h
    refine ⟨published, lost++pre, tracked_drained h _ hmoved ?_ fun r hr =>
      h.fresh r (mem_append_right _ hr), ?_⟩
    · intro r hr
      exact h.old r (mem_append.mpr (mem_append.mp hr).symm)
    · rw [if_pos hs, append_eq_nil_iff, and_assoc]
  | published parts _ hs hp =>
    refine ⟨published++own, lost, tracked_drained h _ (published_moved h hp) (fun r hr =>
      h.old r (mem_append_right _ hr)) ?_, ?_⟩
    · intro r hr
      exact h.fresh r (mem_append.mpr (mem_append.mp hr).symm)
    · rw [if_neg (by simp [hs]), append_eq_nil_iff]
      tauto
  | stopped _ _ _ _ => cases ho

theorem tracked_anew (h : Tracked before new ⟨b, o.store, o.mem⟩ [] [] published lost) :
    Tracked before new ⟨⟨0, o.mem.flushGen, b.localOnly⟩, o.store, o.mem⟩ [] [] published lost :=
  ⟨h.memtable, by simp [BatchUndo.start], h.moved, h.logged, le_refl _, h.old, h.fresh, h.gone⟩

/-- One call: what is published or lost stays so, and a harmful flush adds to it. -/
theorem tracked_call {s s' : Session} {a : Append} (h : Tracked before new s pre own published lost)
    (hs : append cfg s a = some s') (hsize : a.rows.length ≤ cfg.schema.blockPoints)
    (hnew : ∀ r ∈ a.rows, r ∈ new) :
    ∃ pre' own' published' lost', Tracked before new s' pre' own' published' lost' ∧
      (published' = [] ∧ lost' = [] ↔
        (published = [] ∧ lost = []) ∧ ∀ f ∈ a.flush cfg s.mem, Harmless cfg s f) := by
  cases a with
  | row r overBudget f =>
    simp only [append] at hs
    split_ifs at hs with hok
    obtain ⟨o, ho, heq, hfl⟩ := batchRow_ok hok
    rw [heq] at hs
    rw [← some.inj hs]
    rcases hfl with ⟨rfl, hnone⟩ | ⟨hfl, hm, hsome⟩
    · exact ⟨pre, own++[r], published, lost, tracked_append h [r] hnew _, by simp [hnone]⟩
    · obtain ⟨published', lost', h', hiff⟩ := tracked_flush h hfl ho hm
      refine ⟨[], []++[r], published', lost', tracked_append h' [r] hnew _, ?_⟩
      rw [hiff, hsome]
      simp
  | bulk rows f fs =>
    simp only [append] at hs
    split_ifs at hs with hok
    by_cases hr : rows = []
    · rw [batchAppendBulk, if_pos hr] at hs
      rw [← some.inj hs]
      exact ⟨pre, own, published, lost, h, by simp [Append.flush, hr]⟩
    rcases batchAppendBulk_ok hr hsize hok with ⟨hfit, heq⟩ | ⟨o, hpos, hover, hfl, ho, heq⟩
    · rw [heq] at hs
      cases hs
      refine ⟨pre, own++rows, published, lost, tracked_append h rows hnew _, ?_⟩
      rw [Append.flush, if_neg (by omega)]
      simp
    rw [heq] at hs
    rw [← some.inj hs]
    have hempty := flushed_ok_empty hfl ho
    obtain ⟨published', lost', h', hiff⟩ := tracked_flush h hfl ho (length_pos_iff.mp hpos)
    have happ := tracked_append (tracked_anew h') rows hnew ⟨0, o.mem.flushGen, s.batch.localOnly⟩
    rw [hempty, nil_append] at happ
    refine ⟨[], []++rows, published', lost', happ, ?_⟩
    rw [hiff, Append.flush, if_pos ⟨hr, hpos, hover⟩]
    simp

theorem tracked_all {calls : List Append} {s s' : Session} (h : Tracked before new s pre own published lost)
    (hs : appendAll cfg s calls = some s') (hsize : (allRows calls).length ≤ cfg.schema.blockPoints)
    (hnew : ∀ r ∈ allRows calls, r ∈ new) :
    ∃ pre' own' published' lost', Tracked before new s' pre' own' published' lost' ∧
      (published' = [] ∧ lost' = [] ↔ (published = [] ∧ lost = []) ∧ Whole cfg s calls) := by
  induction calls generalizing s pre own published lost with
  | nil =>
    rw [← some.inj hs]
    exact ⟨pre, own, published, lost, h, by simp [Whole]⟩
  | cons a as ih =>
    obtain ⟨u, hu, hs⟩ := bind_eq_some_iff.mp hs
    have hsplit : allRows (a::as) = a.rows++allRows as := flatMap_cons
    rw [hsplit, length_append] at hsize
    rw [hsplit] at hnew
    obtain ⟨_, _, _, _, h', hiff⟩ := tracked_call h hu (by omega) fun r hr => hnew r (mem_append_left _ hr)
    obtain ⟨pre', own', published', lost', h'', hiff'⟩ := ih h' hs (by omega) fun r hr =>
      hnew r (mem_append_right _ hr)
    refine ⟨pre', own', published', lost', h'', ?_⟩
    rw [hiff', hiff, Whole, hu, and_assoc]
    rfl

/-- Rows of the batch cannot stand in for rows from before it. -/
theorem undone_iff {seen : List Row} (hm : (seen++lost).Perm (before++published))
    (hl : ∀ r ∈ lost, r ∈ before) (hp : ∀ r ∈ published, r ∉ before) :
    seen.Perm before ↔ published = [] ∧ lost = [] := by
  constructor
  · intro h
    have hsame : lost.Perm published :=
      (perm_append_left_iff before).mp ((h.append_right lost).symm.trans hm)
    have hnil : lost = [] := eq_nil_iff_forall_not_mem.mpr fun r hr => hp r (hsame.mem_iff.mp hr) (hl r hr)
    exact ⟨nil_perm.mp (hnil ▸ hsame), hnil⟩
  · rintro ⟨rfl, rfl⟩
    simpa using hm

theorem discard_kept (h : Tracked before new ⟨b, d, t⟩ pre own published lost) {u : Ingest}
    (ht : u.toTable = t.toTable) (hg : u.flushGen = t.flushGen) :
    (batchDiscard b u).memtable = pre ∧ (batchDiscard b u).memLogged = t.memLogged := by
  have hs : BatchUndo.start b t = pre.length := h.start
  have hm : t.memtable = pre++own := h.memtable
  rw [BatchUndo.start, ← hg] at hs
  rw [batchDiscard, hs, truncateTo, ht, hm, if_neg (by rw [length_append]; omega)]
  exact ⟨take_left' rfl, rfl⟩

theorem discard_drained (b : Batch) (t : Ingest) (skip : Bool) :
    (batchDiscard b (t.offered cfg skip).drained).memtable = [] ∧
    (batchDiscard b (t.offered cfg skip).drained).memLogged = 0 := by
  rw [batchDiscard, truncateTo]
  split_ifs <;> exact ⟨by simp, rfl⟩

theorem stopped_undone_iff {s : Session} (h : Tracked before new s pre own published lost)
    (hpub : ∀ r ∈ own++published, r ∉ before) {parts : List Part} {p : Row → Bool}
    (hp : (partRows parts).Perm (partRows s.store.parts++s.mem.memtable.filter p)) :
    (partRows parts++pre).Perm before ↔ (published = [] ∧ lost = []) ∧ s.mem.memtable.filter p = [] := by
  have hm : (partRows parts++pre++lost).Perm (before++(published++s.mem.memtable.filter p)) := by
    rw [append_assoc, ← append_assoc before]
    refine (perm_moved hp).trans (List.Perm.append_right _ ?_)
    rw [← append_assoc]
    exact h.moved
  constructor
  · intro hseen
    have hsame : lost.Perm (published++s.mem.memtable.filter p) :=
      (perm_append_left_iff before).mp ((hseen.append_right lost).symm.trans hm)
    have hnil : lost = [] := by
      rcases h.gone with hl | hpre
      · exact hl
      refine eq_nil_iff_forall_not_mem.mpr fun r hr => ?_
      have hold := h.old r (mem_append_right _ hr)
      rcases mem_append.mp (hsame.mem_iff.mp hr) with hin | hin
      · exact hpub r (mem_append_right _ hin) hold
      · have hin := mem_of_mem_filter hin
        rw [h.memtable, hpre, nil_append] at hin
        exact hpub r (mem_append_left _ hin) hold
    rw [hnil] at hsame
    obtain ⟨h1, h2⟩ := append_eq_nil_iff.mp (nil_perm.mp hsame)
    exact ⟨⟨h1, hnil⟩, h2⟩
  · rintro ⟨⟨h1, h2⟩, h3⟩
    rw [h1, h2, h3] at hm
    simpa using hm

theorem days_first {sc : Schema} {rows : List Row} (hm : rows ≠ []) (k : ℕ) :
    (rows.filter fun r => partIndex sc.unit r.ts ∈ (days sc rows).take k) = [] ↔ k = 0 := by
  constructor
  · intro h
    by_contra hk
    obtain ⟨r, hr⟩ := exists_mem_of_ne_nil rows hm
    have hday := (mem_days sc rows _).mpr ⟨r, hr, rfl⟩
    obtain ⟨day, ds, hds⟩ := exists_cons_of_ne_nil (ne_nil_of_mem hday)
    obtain ⟨r', hr', hd⟩ := (mem_days sc rows day).mp (by rw [hds]; exact mem_cons_self)
    obtain ⟨n, rfl⟩ := Nat.exists_eq_succ_of_ne_zero hk
    refine filter_eq_nil_iff.mp h r' hr' (decide_eq_true ?_)
    rw [hd, hds, take_succ_cons]
    exact mem_cons_self
  · rintro rfl
    simp

end

def discarded (cfg : Config) (walFails : Bool) (f : FlushRun) (s : Session) : Ingest :=
  batchDiscard s.batch (commit cfg walFails f s).mem

section
variable {cfg : Config} {before new pre own published lost : List Row} {s : Session} {f : FlushRun}
  {walFails : Bool}

theorem commit_idle (h : Idle cfg s) (hfail : (commit cfg walFails f s).ok = false) :
    (commit cfg walFails f s).store = s.store ∧ (commit cfg walFails f s).mem = s.mem := by
  by_cases hw : cfg.walOnly = true
  · rcases commit_logged hw s.batch walFails f s.store s.mem with ho | ⟨d, u, -, ho⟩
    · rw [commit, ho]
      exact ⟨rfl, rfl⟩
    · rw [commit, ho] at hfail
      cases hfail
  rw [commit, batchCommit, if_neg hw, flushAndClearLocked]
  by_cases hm : s.mem.memtable = []
  · rw [if_pos hm]
    cases walFails <;> exact ⟨rfl, rfl⟩
  · rw [if_neg hm, if_pos ((h.resolve_left hw).resolve_left hm)]
    cases walFails <;> exact ⟨rfl, rfl⟩

theorem commit_flush (h : ¬Idle cfg s) : ∃ ok, commit cfg walFails f s = { (flushAndClearLocked cfg
    s.batch.localOnly f s.store s.mem) with ok := ok } := by
  rw [commit, batchCommit, if_neg fun hw => h (.inl hw)]
  cases walFails with
  | true => exact ⟨false, rfl⟩
  | false => exact ⟨_, rfl⟩

theorem spared_idle (h : Idle cfg s) : Spared cfg f s := .inl h

/-- The outcomes of the flush of a commit that has something to flush. -/
theorem flush_busy (h : ¬Idle cfg s) : ∃ ok parts u wal,
    flushAndClearLocked cfg s.batch.localOnly f s.store s.mem =
    ⟨ok, ⟨parts, wal⟩, u⟩ ∧
    ((skipsLocal cfg s.batch.localOnly f = true ∧ parts = s.store.parts ∧
        u = (s.mem.offered cfg s.batch.localOnly).drained) ∨
      (skipsLocal cfg s.batch.localOnly f = false ∧
        (∀ k ∈ f.stop, (days cfg.schema s.mem.memtable).length ≤ k) ∧
        (partRows parts).Perm (partRows s.store.parts++s.mem.memtable) ∧
        u = (s.mem.offered cfg s.batch.localOnly).drained) ∨
      ∃ k, skipsLocal cfg s.batch.localOnly f = false ∧ f.stop = some k ∧
        k < (days cfg.schema s.mem.memtable).length ∧
        (partRows parts).Perm (partRows s.store.parts++s.mem.memtable.filter fun r =>
          partIndex cfg.schema.unit r.ts ∈ (days cfg.schema s.mem.memtable).take k) ∧
        u = s.mem.offered cfg s.batch.localOnly) := by
  rw [flushAndClearLocked, if_neg fun he => h (.inr (.inl he)), if_neg fun hw => h (.inr (.inr hw))]
  by_cases hs : skipsLocal cfg s.batch.localOnly f = true
  · rw [if_pos hs]
    exact ⟨_, _, _, _, rfl, .inl ⟨hs, rfl, rfl⟩⟩
  rw [if_neg hs]
  replace hs := Bool.eq_false_iff.mpr hs
  dsimp only
  cases hf : f.stop with
  | none =>
    rw [Option.getD_none, if_pos (le_refl _)]
    exact ⟨_, _, _, _, rfl, .inr (.inl ⟨hs, by simp, publishDays_all (le_refl _), rfl⟩)⟩
  | some k =>
    rw [Option.getD_some]
    by_cases hk : (days cfg.schema s.mem.memtable).length ≤ k
    · rw [if_pos hk]
      exact ⟨_, _, _, _, rfl, .inr (.inl ⟨hs, by simpa using hk, publishDays_all hk, rfl⟩)⟩
    · rw [if_neg hk]
      exact ⟨_, _, _, _, rfl,
        .inr (.inr ⟨k, hs, rfl, not_le.mp hk, publishDays_rows _ _ _ _ (take_days_nodup k), rfl⟩)⟩

theorem failed_logged (h : Tracked before new s pre own published lost)
    (hfail : (commit cfg walFails f s).ok = false) :
    (discarded cfg walFails f s).memLogged ≤ (discarded cfg walFails f s).memtable.length := by
  rw [discarded]
  by_cases hi : Idle cfg s
  · obtain ⟨hm, hl⟩ := discard_kept h rfl rfl
    rw [(commit_idle hi hfail).2, hm, hl]
    exact h.logged
  obtain ⟨ok, hc⟩ : ∃ ok, commit cfg walFails f s = _ := commit_flush hi
  obtain ⟨ok', parts, u, wal, hu, hcases⟩ := flush_busy (f := f) hi
  rw [hc, hu]
  rcases hcases with ⟨-, -, rfl⟩ | ⟨-, -, -, rfl⟩ | ⟨k, -, -, -, -, rfl⟩
  · rw [(discard_drained s.batch s.mem _).2]
    exact Nat.zero_le _
  · rw [(discard_drained s.batch s.mem _).2]
    exact Nat.zero_le _
  · obtain ⟨hm, hl⟩ := discard_kept h offered_toTable offered_flushGen
    dsimp only
    rw [hm, hl]
    exact h.logged

theorem failed_undone_iff (h : Tracked before new s pre own published lost) (hnew : ∀ r ∈ new, r ∉ before)
    (hfail : (commit cfg walFails f s).ok = false) :
    (visible (commit cfg walFails f s).store (discarded cfg walFails f s)).Perm before ↔
    (published = [] ∧ lost = []) ∧ Spared cfg f s := by
  have hlost : ∀ r ∈ lost, r ∈ before := fun r hr => h.old r (mem_append_right _ hr)
  have hpub : ∀ r ∈ own++published, r ∉ before := fun r hr => hnew r (h.fresh r hr)
  rw [discarded, visible]
  by_cases hi : Idle cfg s
  · obtain ⟨hd, hm⟩ := commit_idle hi hfail
    rw [hd, hm, (discard_kept h rfl rfl).1, undone_iff h.moved hlost fun r hr =>
      hpub r (mem_append_right _ hr)]
    exact (and_iff_left (spared_idle hi)).symm
  have hne : s.mem.memtable ≠ [] := fun he => hi (.inr (.inl he))
  have hharm : Harmless cfg s f ↔ _ := harmless_iff h
  rw [Spared, or_iff_right hi]
  obtain ⟨ok, hc⟩ : ∃ ok, commit cfg walFails f s = _ := commit_flush hi
  obtain ⟨ok', parts, u, wal, hu, hcases⟩ := flush_busy (f := f) hi
  rw [hc, hu]
  rcases hcases with ⟨hs, rfl, rfl⟩ | ⟨hs, hall, hp, rfl⟩ | ⟨k, hs, hk, hlt, hp, rfl⟩
  · -- the rows are dropped here, those from before the batch among them
    rw [if_pos hs] at hharm ⊢
    dsimp only
    rw [(discard_drained s.batch s.mem _).1, append_nil, hharm, undone_iff (skipped_moved h) (fun r hr =>
      h.old r (mem_append.mpr (mem_append.mp hr).symm)) (fun r hr => hpub r (mem_append_right _ hr)),
      append_eq_nil_iff, and_assoc]
  · rw [if_neg (by simp [hs])] at hharm ⊢
    have hstop : f.stop ≠ some 0 := fun h0 => by
      have hlen := hall 0 h0
      obtain ⟨r, hr⟩ := exists_mem_of_ne_nil _ hne
      exact absurd (length_eq_zero_iff.mp (Nat.le_zero.mp hlen))
        (ne_nil_of_mem ((mem_days cfg.schema _ _).mpr ⟨r, hr, rfl⟩))
    dsimp only
    rw [(discard_drained s.batch s.mem _).1, append_nil, hharm,
      undone_iff (published_moved h hp) hlost (fun r hr =>
      hpub r (mem_append.mpr (mem_append.mp hr).symm)), append_eq_nil_iff]
    tauto
  · -- the partitions that were reached hold rows that the memtable still has
    rw [if_neg (by simp [hs])]
    dsimp only
    rw [(discard_kept h offered_toTable offered_flushGen).1]
    have hstop : (f.stop = some 0 ∨ Harmless cfg s f ∧
        ∀ k ∈ f.stop, (days cfg.schema s.mem.memtable).length ≤ k) ↔ k = 0 := by
      rw [hk]
      constructor
      · rintro (h0 | ⟨-, hall⟩)
        · exact some.inj h0
        · exact absurd (hall k rfl) (by omega)
      · rintro rfl
        exact .inl rfl
    rw [hstop, ← days_first hne k]
    exact stopped_undone_iff h hpub hp

end
section
variable {cfg : Config} {s s' : Session}

theorem append_visible {a : Append} (hs : append cfg s a = some s') (ha : a.Kept)
    (hsize : a.rows.length ≤ cfg.schema.blockPoints) :
    (visible s'.store s'.mem).Perm (visible s.store s.mem++a.rows) := by
  cases a with
  | row r overBudget f =>
    simp only [append] at hs
    split_ifs at hs with hok
    obtain ⟨o, ho, heq, hfl⟩ := batchRow_ok hok
    rw [heq] at hs
    rw [← some.inj hs, visible_marked, visible_append]
    refine List.Perm.append_right [r] ?_
    rcases hfl with ⟨rfl, -⟩ | ⟨hfl, -⟩
    · exact List.Perm.refl _
    · exact flushed_visible hfl ha ho
  | bulk rows f fs =>
    simp only [append] at hs
    split_ifs at hs with hok
    by_cases hr : rows = []
    · rw [batchAppendBulk, if_pos hr] at hs
      rw [← some.inj hs, Append.rows, hr, append_nil]
    rcases batchAppendBulk_ok hr hsize hok with ⟨-, heq⟩ | ⟨o, -, -, hfl, ho, heq⟩
    · rw [heq] at hs
      rw [← some.inj hs, visible_marked, visible_append, Append.rows]
    rw [heq] at hs
    rw [← some.inj hs, visible_marked]
    have hv := flushed_visible hfl ha.1 ho
    rw [visible, flushed_ok_empty hfl ho, append_nil] at hv
    exact hv.append_right rows

theorem appendAll_visible {calls : List Append} (hs : appendAll cfg s calls = some s')
    (ha : ∀ a ∈ calls, a.Kept) (hsize : (allRows calls).length ≤ cfg.schema.blockPoints) :
    (visible s'.store s'.mem).Perm (visible s.store s.mem++allRows calls) := by
  induction calls generalizing s with
  | nil =>
    rw [← some.inj hs, allRows, flatMap_nil, append_nil]
  | cons a as ih =>
    obtain ⟨u, hu, hs⟩ := bind_eq_some_iff.mp hs
    rw [allRows, flatMap_cons, length_append] at hsize
    have hu := append_visible hu (ha a mem_cons_self) (by omega)
    have hs := ih hs (fun c hc => ha c (mem_cons_of_mem _ hc)) (by rw [allRows]; omega)
    have hsplit : allRows (a::as) = a.rows++allRows as := flatMap_cons
    rw [hsplit, ← append_assoc]
    exact hs.trans (hu.append_right _)

variable {walFails : Bool}

theorem commit_visible {f : FlushRun} (h : (commit cfg walFails f s).ok = true)
    (hf : f.answer = .keep) :
    (visible (commit cfg walFails f s).store (commit cfg walFails f s).mem).Perm (visible s.store s.mem) := by
  by_cases hw : cfg.walOnly = true
  · rcases commit_logged hw _ _ f _ _ with ho | ⟨d, u, hl, ho⟩
    · rw [commit, ho] at h
      cases h
    obtain ⟨hm, hp, -⟩ := redoLog_frame hl
    rw [commit, ho, visible, visible]
    rw [hm, hp]
  · rw [commit, batchCommit, if_neg hw] at h ⊢
    split_ifs at h ⊢
    exact flushed_visible (flush_flushed _ _ _ _ _) hf h

end

/-- A failed batch that is discarded leaves what was visible before it, and a retry makes its rows
visible once, exactly if no flush carried rows of the batch into partitions, dropped rows from
before it or stopped half way. -/
theorem failed_batch_undone (cfg : Config) (localOnly : Bool) (d : Store) (t : Ingest) (calls : List Append)
    (walFails : Bool) (f : FlushRun) (s : Session)
    (ht : t.memLogged ≤ t.memtable.length) (hsize : (allRows calls).length ≤ cfg.schema.blockPoints)
    (hnew : ∀ r ∈ allRows calls, r ∉ visible d t)
    (hs : appendAll cfg (batched localOnly d t) calls = some s)
    (hfail : (commit cfg walFails f s).ok = false) :
    ((visible (commit cfg walFails f s).store (discarded cfg walFails f s)).Perm (visible d t) ∧
      (discarded cfg walFails f s).memLogged ≤ (discarded cfg walFails f s).memtable.length ∧
      ∀ (retry : List Append) (walFails' : Bool) (f' : FlushRun) (s' : Session),
      allRows retry = allRows calls →
        appendAll cfg (batched localOnly (commit cfg walFails f s).store (discarded cfg walFails f s)) retry =
          some s' →
        (commit cfg walFails' f' s').ok = true → (∀ a ∈ retry, a.Kept) → f'.answer = .keep →
        (visible (commit cfg walFails' f' s').store (commit cfg walFails' f' s').mem).Perm
          (visible d t++allRows calls)) ↔
    Whole cfg (batched localOnly d t) calls ∧ Spared cfg f s := by
  obtain ⟨pre, own, published, lost, h, hiff⟩ :=
    tracked_all (tracked_begin localOnly d t ht) hs hsize fun r hr => hr
  have hwhole : published = [] ∧ lost = [] ↔ Whole cfg (batched localOnly d t) calls := by simpa using hiff
  rw [← hwhole, ← failed_undone_iff h hnew hfail]
  refine ⟨fun h => h.1, fun hseen => ⟨hseen, failed_logged h hfail, ?_⟩⟩
  intro retry walFails' f' s' hr hs' hok hk' hf'
  have hrows := appendAll_visible hs' hk' (hr ▸ hsize)
  rw [hr] at hrows
  exact (commit_visible hok hf').trans (hrows.trans (hseen.append_right _))

def daily (walOnly : Bool) : Config := ⟨byTime 4, byTime_four_pos, walOnly, false⟩

def keepAll : FlushRun := ⟨.keep, none⟩

def oneLogged : Ingest := ⟨⟨[⟨0, 0⟩], 1, 1, false⟩, 0, true, false, []⟩

def rowThenBulk : List Append := [.row ⟨1, 1⟩ false keepAll, .bulk [⟨2, 2⟩, ⟨3, 3⟩] keepAll fun _ => keepAll]

def rowThenBulkDone : Session :=
  ⟨⟨1, 0, false⟩, ⟨[], [⟨1, [⟨0, 0⟩]⟩]⟩,
    ⟨⟨[⟨0, 0⟩, ⟨1, 1⟩, ⟨2, 2⟩, ⟨3, 3⟩], 1, 1, false⟩, 0, true, false, []⟩⟩

/-- The append to the log fails. -/
theorem failed_batch_undone_log :
    (visible ⟨[], [⟨1, [⟨0, 0⟩]⟩]⟩ (discarded (daily true) true keepAll rowThenBulkDone)).Perm [⟨0, 0⟩] :=
  ((failed_batch_undone (daily true) false ⟨[], [⟨1, [⟨0, 0⟩]⟩]⟩ oneLogged rowThenBulk true keepAll
    rowThenBulkDone
    (by decide) (by decide) (by decide) (by decide) (by decide)).mpr
    ⟨⟨nofun, nofun, trivial⟩, .inl (.inl rfl)⟩).1

/-- Two rows of two days, and a commit that publishes the first day only. -/
def twoDays : List Append := [.row ⟨0, 0⟩ false keepAll, .row ⟨1, 86400000000000⟩ false keepAll]

def twoDaysDone : Session :=
  ⟨⟨0, 0, false⟩, ⟨[], []⟩, ⟨⟨[⟨0, 0⟩, ⟨1, 86400000000000⟩], 0, 0, false⟩, 0, true, false, []⟩⟩

/-- The row of the first day stays visible, and a retry makes it visible twice. -/
theorem discard_leaves_published_row :
    appendAll (daily false) (batched false ⟨[], []⟩ ⟨⟨[], 0, 0, false⟩, 0, false, false, []⟩) twoDays =
      some twoDaysDone ∧
    let o := commit (daily false) false ⟨.keep, some 1⟩ twoDaysDone
    let u := discarded (daily false) false ⟨.keep, some 1⟩ twoDaysDone
    o.ok = false ∧ visible o.store u = [⟨0, 0⟩] ∧
    ∃ s, appendAll (daily false) (batched false o.store u) twoDays = some s ∧
      (commit (daily false) false keepAll s).ok = true ∧
      visible (commit (daily false) false keepAll s).store (commit (daily false) false keepAll s).mem =
        [⟨0, 0⟩, ⟨0, 0⟩, ⟨1, 86400000000000⟩] := by
  refine ⟨by decide, by decide, by decide, ⟨⟨0, 0, false⟩, ⟨[⟨0, [⟨0, 0⟩], 0⟩], []⟩,
    ⟨⟨[⟨0, 0⟩, ⟨1, 86400000000000⟩], 0, 0, false⟩, 0, true, false, []⟩⟩, ?_⟩
  decide

end QEngine.BatchUndo

import QEngine.RangeDelete
import QEngine.TableBatches

/-!
# Rows handed to replication

In the mode where a commit only writes the log, the replication hook sees a row in the
flush that drains the memtable, or never. ALTER, DELETE, close and replay drain it
with the hook suppressed.
-/

namespace QEngine.ReplicationHandover
open Option List StepRuns RedoLog RedoRecovery RowOrigins TableBatches RangeDelete

def replicating (sc : Schema) (h : 0 < sc.blockPoints) : Config := ⟨sc, h, true, true⟩

inductive Handle where
  | opened (t : Ingest)
  | closed (calls : List (List Row))
  deriving DecidableEq

def Handle.calls : Handle → List (List Row)
  | .opened t => t.calls
  | .closed calls => calls

def Handle.rows : Handle → List Row
  | .opened t => t.memtable
  | .closed _ => []

structure Pending where
  batch : Batch
  start : ℕ
  rows : List Row
  deriving DecidableEq

structure Node where
  store : Store
  handle : Handle
  idlePrevRows : ℕ
  pending : Option Pending
  committed : List Row
  nextId : ℕ
  deriving DecidableEq

inductive Event where
  | begin
  | row (ts : ℤ) (overBudget : Bool) (f : FlushRun)
  | bulk (tss : List ℤ) (f : FlushRun) (fs : ℕ → FlushRun)
  | commit (walFails : Bool)
  | discard
  | retain
  | idleTick (f : FlushRun)
  | alter (f : FlushRun)
  | delete (c : Cut) (f : FlushRun)
  | close (f : FlushRun)
  | reopen (ends : ℕ → FlushEnd)

def Node.after (s : Node) (o : Done) : Node := { s with store := o.store, handle := .opened o.mem }

def idleDue (s : Node) (t : Ingest) : Bool :=
  0 < t.memtable.length && t.memtable.length == s.idlePrevRows && t.hasLocal && !t.hasReceived

def idleTick (cfg : Config) (f : FlushRun) (s : Node) (t : Ingest) : Node :=
  let o := if idleDue s t then flushAndClearLocked cfg false f s.store t else ⟨true, s.store, t⟩
  { s.after o with idlePrevRows := t.memtable.length }

def deleteParts (cfg : Config) (c : Cut) (f : FlushRun) (s : Node) (t : Ingest) : Node :=
  let o := if memtableHasCoveredRow cfg.schema.unit c t.memtable then
      flushAndClearLocked cfg true f s.store t
    else ⟨true, s.store, t⟩
  s.after { o with store := removeParts (covered cfg.schema.unit c) o.store }

def closeTable (cfg : Config) (f : FlushRun) (s : Node) (t : Ingest) : Node :=
  let o := flushAndClearLocked cfg true f s.store t
  { s with store := o.store, handle := .closed o.mem.calls, pending := none }

def reopenTable (cfg : Config) (ends : ℕ → FlushEnd) (s : Node) (calls : List (List Row)) : Node :=
  let r := redoRecover cfg.schema ends s.store
  match r.2 with
  | some t => { s with store := r.1, handle := .opened ⟨t, 0, false, false, calls⟩, idlePrevRows := 0 }
  | none => { s with store := r.1 }

def batchStep (cfg : Config) (s : Node) (t : Ingest) (p : Pending) : Event → Option Node
  | .row ts overBudget f =>
    let r : Row := ⟨s.nextId, ts⟩
    let o := batchRow cfg p.batch overBudget f r s.store t
    some { s.after o with
      pending := some { p with rows := if o.ok then p.rows++[r] else p.rows }
      nextId := s.nextId+1 }
  | .bulk tss f fs =>
    let rows := rowsFrom s.nextId tss
    let o := batchAppendBulk cfg p.batch f fs rows s.store t
    some { s.after o.1 with
      pending := some { p with batch := o.2, rows := if o.1.ok then p.rows++rows else p.rows }
      nextId := s.nextId+tss.length }
  | .commit walFails =>
    let o := batchCommit cfg p.batch walFails ⟨.keep, none⟩ s.store t
    if o.ok then some { s.after o with pending := none, committed := s.committed++p.rows }
    else some (s.after o)
  | .discard => some { s with handle := .opened (batchDiscard p.batch t), pending := none }
  | .retain => some { s with pending := none }
  | _ => none

def step (cfg : Config) (s : Node) (ev : Event) : Option Node :=
  match s.handle, ev with
  | .closed calls, .reopen ends => some (reopenTable cfg ends s calls)
  | .closed _, _ => none
  | .opened t, .begin =>
    match s.pending with
    | none => some { s with pending := some ⟨batchBegin false t, s.nextId, []⟩ }
    | some _ => none
  | .opened t, .idleTick f => some (idleTick cfg f s t)
  | .opened t, .alter f => some (s.after (flushAndClearLocked cfg true f s.store t))
  | .opened t, .delete c f => some (deleteParts cfg c f s t)
  | .opened t, .close f => some (closeTable cfg f s t)
  | .opened t, ev => s.pending.bind fun p => batchStep cfg s t p ev

def started : Node := ⟨⟨[], []⟩, .opened ⟨⟨[], 0, 0, false⟩, 0, false, false, []⟩, 0, none, [], 0⟩

def Handed (calls : List (List Row)) (x : Row) : Prop := ∃ m ∈ calls, x ∈ m

instance (calls : List (List Row)) (x : Row) : Decidable (Handed calls x) :=
  inferInstanceAs (Decidable (∃ m ∈ calls, x ∈ m))

/-- A committed row is still in the memtable, or was in one given to the hook. -/
def HandedOver (s : Node) : Prop :=
  ∀ x ∈ s.committed, Handed s.handle.calls x ∨ x ∈ s.handle.rows

instance (s : Node) : Decidable (HandedOver s) :=
  inferInstanceAs (Decidable (∀ x ∈ s.committed, Handed s.handle.calls x ∨ x ∈ s.handle.rows))

/-- A flush with the hook suppressed finds only rows the hook has seen. -/
def SeenBefore (cfg : Config) (s : Node) : Event → Prop
  | .alter _ | .close _ => ∀ x ∈ s.handle.rows, Handed s.handle.calls x
  | .delete c _ => memtableHasCoveredRow cfg.schema.unit c s.handle.rows = true →
    ∀ x ∈ s.handle.rows, Handed s.handle.calls x
  | _ => True

instance (cfg : Config) (s : Node) (ev : Event) : Decidable (SeenBefore cfg s ev) := by
  cases ev <;> unfold SeenBefore <;> infer_instance

structure Passed (d : Store) (t : Ingest) (rows : List Row) (o : Done) : Prop where
  parts : ∀ x ∈ partRows o.store.parts, x ∈ partRows d.parts ∨ Handed o.mem.calls x
  wal : ∀ x ∈ walRows o.store.wal, x ∈ walRows d.wal
  calls : ∀ m ∈ t.calls, m ∈ o.mem.calls
  given : ∀ x, Handed o.mem.calls x → Handed t.calls x ∨ x ∈ t.memtable ∨ x ∈ rows
  left : ∀ x ∈ t.memtable, Handed o.mem.calls x ∨ x ∈ o.mem.memtable
  held : ∀ x ∈ o.mem.memtable, x ∈ t.memtable ∨ x ∈ rows
  new : o.ok = true → ∀ x ∈ rows, Handed o.mem.calls x ∨ x ∈ o.mem.memtable
  tail : ∀ (b : Batch) (own : Row → Prop), OwnTail t b own → (∀ x ∈ rows, own x) → OwnTail o.mem b own

section
variable {cfg : Config} {d : Store} {t : Ingest} {rows : List Row} {o : Done}

theorem handed_mono {calls calls' : List (List Row)} (h : ∀ m ∈ calls, m ∈ calls') {x : Row}
    (hx : Handed calls x) : Handed calls' x := by
  obtain ⟨m, hm, hxm⟩ := hx
  exact ⟨m, h m hm, hxm⟩

theorem passed_refl (b : Bool) (d : Store) (t : Ingest) : Passed d t [] ⟨b, d, t⟩ :=
  ⟨fun _ hx => .inl hx, fun _ hx => hx, fun _ hm => hm, fun _ hx => .inl hx, fun _ hx => .inr hx,
    fun _ hx => .inl hx, fun _ => forall_mem_nil _, fun _ _ h _ => h⟩

theorem passed_append (d : Store) (t : Ingest) (rows : List Row) :
    Passed d t rows ⟨true, d, { t with memtable := t.memtable++rows }⟩ :=
  ⟨fun _ hx => .inl hx, fun _ hx => hx, fun _ hm => hm, fun _ hx => .inl hx,
    fun _ hx => .inr (mem_append_left _ hx), fun _ hx => mem_append.mp hx,
    fun _ _ hx => .inr (mem_append_right _ hx), fun _ _ h hr => ownTail_append h hr⟩

theorem passed_marked (h : Passed d t rows o) (b : Batch) :
    Passed d t rows { o with mem := o.mem.marked b } := by
  refine ⟨?_, h.wal, ?_, ?_, ?_, ?_, ?_, fun c own ht hr => ownTail_marked (h.tail c own ht hr)⟩
  · simpa using h.parts
  · simpa using h.calls
  · simpa using h.given
  · simpa using h.left
  · simpa using h.held
  · simpa using h.new

theorem passed_failed (h : Passed d t rows o) : Passed d t rows { o with ok := false } :=
  ⟨h.parts, h.wal, h.calls, h.given, h.left, h.held, nofun, h.tail⟩

variable {rows' : List Row}

theorem passed_trans {o' : Done} (h : Passed d t rows o) (hk : o.ok = true)
    (h' : Passed o.store o.mem rows' o') : Passed d t (rows++rows') o' := by
  have hup {x : Row} (hx : Handed o.mem.calls x) : Handed o'.mem.calls x := handed_mono h'.calls hx
  have hnext {x : Row} (hx : Handed o.mem.calls x ∨ x ∈ o.mem.memtable) :
      Handed o'.mem.calls x ∨ x ∈ o'.mem.memtable := by
    rcases hx with hx | hx
    · exact .inl (hup hx)
    · exact h'.left x hx
  refine ⟨?_, fun x hx => h.wal x (h'.wal x hx), fun m hm => h'.calls m (h.calls m hm), ?_,
    fun x hx => hnext (h.left x hx), ?_, ?_, ?_⟩
  · intro x hx
    rcases h'.parts x hx with hx | hx
    · exact (h.parts x hx).imp_right hup
    · exact .inr hx
  · intro x hx
    rcases h'.given x hx with hx | hx | hx
    · exact (h.given x hx).imp_right (Or.imp_right (mem_append_left _))
    · exact .inr ((h.held x hx).imp_right (mem_append_left _))
    · exact .inr (.inr (mem_append_right _ hx))
  · intro x hx
    rcases h'.held x hx with hx | hx
    · exact (h.held x hx).imp_right (mem_append_left _)
    · exact .inr (mem_append_right _ hx)
  · intro hk' x hx
    rcases mem_append.mp hx with hx | hx
    · exact hnext (h.new hk x hx)
    · exact h'.new hk' x hx
  · intro b own ht hr
    exact h'.tail b own (h.tail b own ht fun x hx => hr x (mem_append_left _ hx))
      fun x hx => hr x (mem_append_right _ hx)

theorem flushed_passed {skip : Bool} {f : FlushRun} (h : Flushed cfg skip f d t o)
    (hs : (skip = false ∧ cfg.rowHook = true) ∨ ∀ x ∈ t.memtable, Handed t.calls x) : Passed d t [] o := by
  have hcalls : ∀ m ∈ t.calls, m ∈ (t.offered cfg skip).calls := by
    intro m hm
    rw [Ingest.offered]
    split_ifs
    · exact mem_append_left _ hm
    · exact hm
  have hgiven : ∀ x ∈ t.memtable, Handed (t.offered cfg skip).calls x := by
    intro x hx
    rcases hs with hs | hs
    · rw [Ingest.offered, if_pos hs]
      exact ⟨t.memtable, mem_append_right _ (mem_singleton_self _), hx⟩
    · exact handed_mono hcalls (hs x hx)
  have hfrom : ∀ x, Handed (t.offered cfg skip).calls x →
      Handed t.calls x ∨ x ∈ t.memtable ∨ x ∈ ([] : List Row) := by
    rintro x ⟨m, hm, hx⟩
    rw [Ingest.offered] at hm
    split_ifs at hm
    · rcases mem_append.mp hm with hm | hm
      · exact .inl ⟨m, hm, hx⟩
      · rw [mem_singleton.mp hm] at hx
        exact .inr (.inl hx)
    · exact .inl ⟨m, hm, hx⟩
  have htail : ∀ (b : Batch) (own : Row → Prop), OwnTail t b own → (∀ x ∈ ([] : List Row), own x) →
    OwnTail o.mem b own := fun b own ht _ => ownTail_drains ht (flushed_drains h)
  cases h with
  | empty he | frozen hw => exact passed_refl _ d t
  | skipped hk =>
    exact ⟨fun _ hx => .inl hx, forall_mem_nil _, hcalls, hfrom, fun x hx => .inl (hgiven x hx),
      forall_mem_nil _, fun _ => forall_mem_nil _, htail⟩
  | published parts hm hk hp =>
    refine ⟨fun x hx => ?_, forall_mem_nil _, hcalls, hfrom, fun x hx => .inl (hgiven x hx),
      forall_mem_nil _, fun _ => forall_mem_nil _, htail⟩
    exact (mem_append.mp (hp.subset hx)).imp_right (hgiven x)
  | stopped parts k hk hp =>
    refine ⟨fun x hx => ?_, fun _ hx => hx, hcalls, hfrom, fun x hx => .inl (hgiven x hx), ?_,
      fun _ => forall_mem_nil _, htail⟩
    · exact (mem_append.mp (hp.subset hx)).imp_right
        fun hx => hgiven x (mem_filter.mp hx).1
    · intro x hx
      exact .inl (by simpa using hx)

theorem passed_refused (h : Passed d t rows o) (hk : o.ok = false)
    (hs : ∀ x ∈ rows, x ∈ rows') : Passed d t rows' o := by
  refine ⟨h.parts, h.wal, h.calls, fun x hx => (h.given x hx).imp_right (Or.imp_right (hs x)), h.left,
    fun x hx => (h.held x hx).imp_right (hs x), fun hk' => ?_,
    fun b own ht hr => h.tail b own ht fun x hx => hr x (hs x hx)⟩
  rw [hk] at hk'
  cases hk'

theorem appendBulkRaw_passed (cfg : Config) (rows : List Row) (d : Store) (t : Ingest) :
    Passed d t rows (appendBulkRaw cfg rows d t) := by
  rw [appendBulkRaw]
  split_ifs
  · exact passed_refused (passed_refl _ d t) rfl (forall_mem_nil _)
  · exact passed_append d t _

section
variable {b : Batch} (hh : cfg.rowHook = true) (hb : b.localOnly = false)
include hh hb

theorem hooked_flush (f : FlushRun) (d : Store) (t : Ingest) :
    Passed d t [] (flushAndClearLocked cfg b.localOnly f d t) :=
  flushed_passed (flush_flushed cfg _ f d t) (.inl ⟨hb, hh⟩)

theorem maybeFlush_passed (overBudget : Bool) (f : FlushRun) (d : Store) (t : Ingest) :
    Passed d t [] (maybeFlush cfg b.localOnly overBudget f d t) := by
  rw [maybeFlush]
  split_ifs
  · exact hooked_flush hh hb f d t
  · exact hooked_flush hh hb f d t
  · exact passed_refl _ d t

theorem batchRow_passed (overBudget : Bool) (f : FlushRun) (r : Row) (d : Store) (t : Ingest) :
    Passed d t [r] (batchRow cfg b overBudget f r d t) := by
  have hm := maybeFlush_passed hh hb overBudget f d t
  rw [batchRow]
  generalize maybeFlush cfg b.localOnly overBudget f d t = o at hm
  split_ifs with hk hf
  · exact passed_refused hm hk (forall_mem_nil _)
  · exact passed_refused (passed_failed hm) rfl (forall_mem_nil _)
  have hok : o.ok = true := by simpa using hk
  obtain ⟨ok, d', t'⟩ := o
  cases hok
  exact passed_marked (passed_trans hm rfl (passed_append d' t' [r])) b

/-- The chunks of a bulk append; every chunk takes at least one row, so the
bound on their number is not met before all rows are taken. -/
theorem appendChunks_passed (fs : ℕ → FlushRun) (fuel : ℕ) (rows : List Row) (d : Store) (t : Ingest)
    (hf : rows.length ≤ fuel) : Passed d t rows (appendChunks cfg b fs fuel rows d t) := by
  induction fuel generalizing rows d t with
  | zero =>
    rw [length_eq_zero_iff.mp (Nat.le_zero.mp hf)]
    exact passed_refl _ d t
  | succ fuel ih =>
    rw [appendChunks]
    split_ifs with hr
    · rw [hr]
      exact passed_refl _ d t
    dsimp only
    have ho : Passed d t [] (if cfg.schema.blockPoints-t.memtable.length = 0 then
        flushAndClearLocked cfg b.localOnly (fs rows.length) d t else ⟨true, d, t⟩) := by
      split_ifs
      · exact hooked_flush hh hb _ d t
      · exact passed_refl _ d t
    generalize (if cfg.schema.blockPoints-t.memtable.length = 0 then
      flushAndClearLocked cfg b.localOnly (fs rows.length) d t else ⟨true, d, t⟩) = o at ho
    have hc : 0 < (if cfg.schema.blockPoints-t.memtable.length = 0 then cfg.schema.blockPoints
        else cfg.schema.blockPoints-t.memtable.length) := by
      have := cfg.blockPoints_pos
      split_ifs <;> omega
    generalize (if cfg.schema.blockPoints-t.memtable.length = 0 then cfg.schema.blockPoints
      else cfg.schema.blockPoints-t.memtable.length) = chunk at hc
    split_ifs with hk ha
    · exact passed_refused ho hk (forall_mem_nil _)
    · have hp := passed_trans ho (by simpa using hk)
        (appendBulkRaw_passed cfg (rows.take chunk) o.store o.mem)
      exact passed_refused hp ha fun x hx => mem_of_mem_take hx
    have hp := passed_trans ho (by simpa using hk)
      (appendBulkRaw_passed cfg (rows.take chunk) o.store o.mem)
    have hlen : (rows.drop chunk).length ≤ fuel := by
      rw [length_drop]
      omega
    have hall := passed_trans hp (by simpa using ha) (ih (rows.drop chunk) _ _ hlen)
    rw [nil_append, take_append_drop] at hall
    exact hall

theorem batchAppendBulk_passed (f : FlushRun) (fs : ℕ → FlushRun) (rows : List Row) (d : Store) (t : Ingest) :
    Passed d t rows (batchAppendBulk cfg b f fs rows d t).1 ∧
    (batchAppendBulk cfg b f fs rows d t).2.localOnly = false ∧
    ∀ own : Row → Prop, OwnTail t b own → (∀ x ∈ rows, own x) →
      OwnTail (batchAppendBulk cfg b f fs rows d t).1.mem (batchAppendBulk cfg b f fs rows d t).2 own := by
  rw [batchAppendBulk]
  by_cases hr : rows = []
  · rw [if_pos hr, hr]
    exact ⟨passed_refl _ d t, hb, fun own ht _ => ht⟩
  rw [if_neg hr]
  by_cases hw : rows.length ≤ cfg.schema.blockPoints ∧ 0 < t.memtable.length ∧
    cfg.schema.blockPoints < t.memtable.length+rows.length
  · simp only [if_pos hw]
    have ho := hooked_flush hh hb f d t
    have hempty := flushed_ok_empty (flush_flushed cfg b.localOnly f d t)
    generalize flushAndClearLocked cfg b.localOnly f d t = o at ho hempty
    by_cases hk : o.ok = false
    · rw [if_pos hk]
      exact ⟨passed_refused ho hk (forall_mem_nil _), hb,
        fun own ht _ => ho.tail b own ht (forall_mem_nil _)⟩
    rw [if_neg hk]
    have ha := appendChunks_passed hh (b := ⟨0, o.mem.flushGen, b.localOnly⟩) hb fs rows.length rows
      o.store o.mem (le_refl _)
    have hp := passed_trans ho (by simpa using hk) ha
    have htail (own : Row → Prop) (hrows : ∀ x ∈ rows, own x) := ha.tail ⟨0, o.mem.flushGen, b.localOnly⟩ own
      ⟨le_refl _, by simp [hempty (by simpa using hk)]⟩ hrows
    split_ifs
    · exact ⟨passed_marked hp _, hb, fun own _ hrows => ownTail_marked (htail own hrows)⟩
    · exact ⟨hp, hb, fun own _ hrows => htail own hrows⟩
  · simp only [if_neg hw]
    have ha := appendChunks_passed hh hb fs rows.length rows d t (le_refl _)
    rw [if_neg (by simp)]
    split_ifs
    · exact ⟨passed_marked ha b, hb, fun own ht hrows => ownTail_marked (ha.tail b own ht hrows)⟩
    · exact ⟨ha, hb, fun own ht hrows => ha.tail b own ht hrows⟩

end

end

structure Sound (d : Store) (calls : List (List Row)) (rows committed : List Row) (bound nextId : ℕ) :
    Prop where
  parts : ∀ x ∈ partRows d.parts, Handed calls x
  wal : ∀ x ∈ walRows d.wal, (Handed calls x ∨ x ∈ rows) ∧ x.id < bound
  committed : ∀ x ∈ committed, (Handed calls x ∨ x ∈ rows) ∧ x.id < bound
  rows : ∀ x ∈ rows, x.id < nextId
  handed : ∀ x, Handed calls x → x.id < nextId
  bound_le : bound ≤ nextId

structure Batched (t : Ingest) (p : Pending) (nextId : ℕ) : Prop where
  hooked : p.batch.localOnly = false
  tail : OwnTail t p.batch fun x => p.start ≤ x.id
  rows : ∀ x ∈ p.rows, (Handed t.calls x ∨ x ∈ t.memtable) ∧ x.id < nextId

def Node.bound (s : Node) : ℕ := s.pending.elim s.nextId Pending.start

def Inv (s : Node) : Prop :=
  match s.handle with
  | .opened t => Sound s.store t.calls t.memtable s.committed s.bound s.nextId ∧
    ∀ p ∈ s.pending, Batched t p s.nextId
  | .closed calls => Sound s.store calls [] s.committed s.nextId s.nextId ∧ s.pending = none

section
variable {d : Store} {t : Ingest} {rows committed : List Row} {bound nextId n : ℕ} {o : Done}

theorem sound_passed (h : Sound d t.calls t.memtable committed bound nextId) (hp : Passed d t rows o)
    (hr : ∀ x ∈ rows, x.id < n) (hn : nextId ≤ n) :
    Sound o.store o.mem.calls o.mem.memtable committed bound n := by
  have hup {x : Row} (hx : Handed t.calls x ∨ x ∈ t.memtable) :
      Handed o.mem.calls x ∨ x ∈ o.mem.memtable := by
    rcases hx with hx | hx
    · exact .inl (handed_mono hp.calls hx)
    · exact hp.left x hx
  refine ⟨?_, fun x hx => ?_, fun x hx => ?_, ?_, ?_, le_trans h.bound_le hn⟩
  · intro x hx
    rcases hp.parts x hx with hx | hx
    · exact handed_mono hp.calls (h.parts x hx)
    · exact hx
  · obtain ⟨hk, hid⟩ := h.wal x (hp.wal x hx)
    exact ⟨hup hk, hid⟩
  · obtain ⟨hk, hid⟩ := h.committed x hx
    exact ⟨hup hk, hid⟩
  · intro x hx
    rcases hp.held x hx with hx | hx
    · exact lt_of_lt_of_le (h.rows x hx) hn
    · exact hr x hx
  · intro x hx
    rcases hp.given x hx with hx | hx | hx
    · exact lt_of_lt_of_le (h.handed x hx) hn
    · exact lt_of_lt_of_le (h.rows x hx) hn
    · exact hr x hx

theorem batched_passed {p : Pending} (h : Batched t p nextId) (hp : Passed d t rows o)
    (hr : ∀ x ∈ rows, p.start ≤ x.id) (hn : nextId ≤ n) : Batched o.mem p n := by
  refine ⟨h.hooked, hp.tail _ _ h.tail hr, fun x hx => ?_⟩
  obtain ⟨hk, hid⟩ := h.rows x hx
  refine ⟨?_, lt_of_lt_of_le hid hn⟩
  rcases hk with hk | hk
  · exact .inl (handed_mono hp.calls hk)
  · exact hp.left x hk

theorem sound_bound (h : Sound d t.calls t.memtable committed bound nextId) :
    Sound d t.calls t.memtable committed nextId nextId :=
  ⟨h.parts, fun x hx => ⟨(h.wal x hx).1, lt_of_lt_of_le (h.wal x hx).2 h.bound_le⟩,
    fun x hx => ⟨(h.committed x hx).1, lt_of_lt_of_le (h.committed x hx).2 h.bound_le⟩, h.rows, h.handed,
    le_refl _⟩

end

section
variable {cfg : Config} {s s' : Node} {t : Ingest}

theorem suppressed_flush (f : FlushRun) {d : Store} (hseen : ∀ x ∈ t.memtable, Handed t.calls x) :
    Passed d t [] (flushAndClearLocked cfg true f d t) :=
  flushed_passed (flush_flushed cfg _ f d t) (.inr hseen)

theorem removeParts_passed {d : Store} {o : Done} (hp : Passed d t [] o) (p : Part → Bool) :
    Passed d t [] { o with store := removeParts p o.store } := by
  refine ⟨?_, hp.wal, hp.calls, hp.given, hp.left, hp.held, hp.new, hp.tail⟩
  intro x hx
  obtain ⟨q, hq, hxq⟩ := mem_flatMap.mp hx
  exact hp.parts x (mem_flatMap.mpr ⟨q, (mem_filter.mp hq).1, hxq⟩)

theorem reopenTable_inv (ends : ℕ → FlushEnd) {calls : List (List Row)} (h : Inv s)
    (hc : s.handle = .closed calls) : Inv (reopenTable cfg ends s calls) := by
  rw [Inv, hc] at h
  obtain ⟨hs, hn⟩ := h
  have hhand {x : Row} (hx : Handed calls x ∨ x ∈ ([] : List Row)) : Handed calls x := by simpa using hx
  have hin : InStore (Handed calls) s.store := ⟨hs.parts, fun x hx => hhand (hs.wal x hx).1⟩
  obtain ⟨hd, hm⟩ : InStore (Handed calls) (redoRecover cfg.schema ends s.store).1 ∧
      ∀ t ∈ (redoRecover cfg.schema ends s.store).2, ∀ x ∈ t.memtable, Handed calls x :=
    recover_inDb _ hin
  have hids : ∀ x, Handed calls x → x.id < s.nextId := hs.handed
  rw [reopenTable]
  cases hr : (redoRecover cfg.schema ends s.store).2 with
  | none =>
    rw [Inv, hc]
    exact ⟨⟨hd.parts, fun x hx => ⟨.inl (hd.wal x hx), hids x (hd.wal x hx)⟩, hs.committed, hs.rows,
      hs.handed,
      le_refl _⟩, hn⟩
  | some u =>
    have hmu := hm u hr
    refine ⟨?_, fun p hp => ?_⟩
    · rw [Node.bound, hn]
      exact ⟨hd.parts, fun x hx => ⟨.inl (hd.wal x hx), hids x (hd.wal x hx)⟩,
        fun x hx => ⟨.inl (hhand (hs.committed x hx).1), (hs.committed x hx).2⟩,
        fun x hx => hids x (hmu x hx), hs.handed, le_refl _⟩
    · rw [hn] at hp
      cases hp

section
variable (h : Inv s) (ht : s.handle = .opened t)
include h ht

theorem inv_opened :
    Sound s.store t.calls t.memtable s.committed s.bound s.nextId ∧ ∀ p ∈ s.pending,
    Batched t p s.nextId := by
  rw [Inv, ht] at h
  exact h

theorem after_inv {o : Done} (hp : Passed s.store t [] o) : Inv (s.after o) := by
  obtain ⟨hs, hb⟩ := inv_opened h ht
  exact ⟨sound_passed hs hp (forall_mem_nil _) (le_refl _),
    fun p hm => batched_passed (hb p hm) hp (forall_mem_nil _) (le_refl _)⟩

theorem idleTick_inv (hh : cfg.rowHook = true) (f : FlushRun) : Inv (idleTick cfg f s t) := by
  have hp : Passed s.store t [] (if idleDue s t then flushAndClearLocked cfg false f s.store t
      else ⟨true, s.store, t⟩) := by
    split_ifs
    · exact flushed_passed (flush_flushed cfg _ f _ t) (.inl ⟨rfl, hh⟩)
    · exact passed_refl _ _ t
  exact after_inv h ht hp

theorem deleteParts_inv {c : Cut} {f : FlushRun} (hseen : SeenBefore cfg s (.delete c f)) :
    Inv (deleteParts cfg c f s t) := by
  refine after_inv h ht (removeParts_passed ?_ _)
  rw [SeenBefore, ht] at hseen
  split_ifs with hc
  · exact suppressed_flush f (hseen hc)
  · exact passed_refl _ _ t

theorem closeTable_inv (f : FlushRun) (hseen : ∀ x ∈ t.memtable, Handed t.calls x) :
    Inv (closeTable cfg f s t) := by
  obtain ⟨hs, -⟩ := inv_opened h ht
  have hp : Passed s.store t [] (flushAndClearLocked cfg true f s.store t) := suppressed_flush f hseen
  have hq := sound_passed (sound_bound hs) hp (forall_mem_nil _) (le_refl _)
  have hall {x : Row} (hx : Handed (flushAndClearLocked cfg true f s.store t).mem.calls x ∨
      x ∈ (flushAndClearLocked cfg true f s.store t).mem.memtable) :
      Handed (flushAndClearLocked cfg true f s.store t).mem.calls x := by
    rcases hx with hx | hx
    · exact hx
    rcases hp.held x hx with hx | hx
    · exact handed_mono hp.calls (hseen x hx)
    · cases hx
  exact ⟨⟨hq.parts, fun x hx => ⟨.inl (hall (hq.wal x hx).1), (hq.wal x hx).2⟩,
    fun x hx => ⟨.inl (hall (hq.committed x hx).1), (hq.committed x hx).2⟩, forall_mem_nil _,
    hq.handed, le_refl _⟩, rfl⟩

variable {p : Pending} (hp : s.pending = some p)
include hp

theorem append_inv {o : Done} {b : Batch} {rows : List Row} {k : ℕ}
    (ho : Passed s.store t rows o) (hb : b.localOnly = false)
    (htail : OwnTail o.mem b fun x => p.start ≤ x.id)
    (hr : ∀ x ∈ rows, s.nextId ≤ x.id ∧ x.id < s.nextId+k) :
    Inv { s.after o with
      pending := some { p with batch := b, rows := if o.ok then p.rows++rows else p.rows }
      nextId := s.nextId+k } := by
  obtain ⟨hs, hbatch⟩ := inv_opened h ht
  have hpb := hbatch p hp
  have hle : s.nextId ≤ s.nextId+k := by omega
  rw [Node.bound, hp] at hs
  refine ⟨sound_passed hs ho (fun x hx => (hr x hx).2) hle, ?_⟩
  intro q hq
  cases hq
  refine ⟨hb, htail, ?_⟩
  have hold : ∀ x ∈ p.rows, (Handed o.mem.calls x ∨ x ∈ o.mem.memtable) ∧ x.id < s.nextId+k :=
    (batched_passed hpb ho (fun x hx => le_trans hs.bound_le (hr x hx).1) hle).rows
  split_ifs with hk
  · intro x hx
    rcases mem_append.mp hx with hx | hx
    · exact hold x hx
    · exact ⟨ho.new hk x hx, (hr x hx).2⟩
  · exact hold

theorem start_le : p.start ≤ s.nextId := by
  have hs := (inv_opened h ht).1.bound_le
  rw [Node.bound, hp] at hs
  exact hs

theorem discard_inv : Inv { s with handle := .opened (batchDiscard p.batch t), pending := none } := by
  obtain ⟨hs, hbatch⟩ := inv_opened h ht
  have htail := (hbatch p hp).tail.2
  rw [Node.bound, hp] at hs
  rw [batchDiscard, truncateTo]
  generalize (if t.flushGen ≠ p.batch.beginFlushGen then 0 else p.batch.baseNrows) = n at htail
  refine ⟨?_, fun q hq => by cases hq⟩
  split_ifs with hn
  · exact sound_bound hs
  have hkeep {x : Row} (hx : (Handed t.calls x ∨ x ∈ t.memtable) ∧ x.id < p.start) :
      (Handed t.calls x ∨ x ∈ t.memtable.take n) ∧ x.id < s.nextId := by
    refine ⟨?_, lt_of_lt_of_le hx.2 hs.bound_le⟩
    rcases hx.1 with hm | hm
    · exact .inl hm
    rw [← take_append_drop n t.memtable] at hm
    rcases mem_append.mp hm with hm | hm
    · exact .inr hm
    · exact absurd (htail x hm) (not_le_of_gt hx.2)
  exact ⟨hs.parts, fun x hx => hkeep (hs.wal x hx), fun x hx => hkeep (hs.committed x hx),
    fun x hx => hs.rows x (mem_of_mem_take hx), hs.handed, le_refl _⟩

theorem commit_inv (hw : cfg.walOnly = true) {walFails : Bool}
    (hs' : batchStep cfg s t p (.commit walFails) = some s') : Inv s' := by
  obtain ⟨hs, hbatch⟩ := inv_opened h ht
  rw [batchStep] at hs'
  rcases commit_logged hw _ _ _ _ t with ho | ⟨d, u, hl, ho⟩
  · rw [ho, if_neg (by simp)] at hs'
    rw [← some.inj hs']
    exact after_inv h ht (passed_refl _ _ t)
  rw [ho, if_pos rfl] at hs'
  rw [← some.inj hs']
  obtain ⟨hm, hparts, hwal⟩ := redoLog_frame hl
  have hb := sound_bound hs
  refine ⟨?_, fun q hq => by cases hq⟩
  refine ⟨?_, ?_, ?_, ?_, hs.handed, le_refl _⟩ <;> simp only [Node.after, hm, hparts]
  · exact hs.parts
  · intro x hx
    rcases hwal x hx with hx | hx
    · exact hb.wal x hx
    · exact ⟨.inr hx, hs.rows x hx⟩
  · intro x hx
    rcases mem_append.mp hx with hx | hx
    · exact hb.committed x hx
    · exact (hbatch p hp).rows x hx
  · exact hs.rows

theorem batchStep_inv (hh : cfg.rowHook = true) (hw : cfg.walOnly = true) {ev : Event}
    (hs : batchStep cfg s t p ev = some s') : Inv s' := by
  have hb := (inv_opened h ht).2 p hp
  have hle := start_le h ht hp
  cases ev with
  | row ts overBudget f =>
    have hr := batchRow_passed hh hb.hooked overBudget f ⟨s.nextId, ts⟩ s.store t
    cases hs
    refine append_inv (k := 1) h ht hp hr hb.hooked ?_ (by simp)
    exact hr.tail _ _ hb.tail (by simpa using hle)
  | bulk tss f fs =>
    obtain ⟨hr, hl, htail⟩ := batchAppendBulk_passed hh hb.hooked f fs (rowsFrom s.nextId tss) s.store t
    cases hs
    refine append_inv h ht hp hr hl ?_ fun x hx => mem_rowsFrom hx
    exact htail _ hb.tail fun x hx => le_trans hle (mem_rowsFrom hx).1
  | commit walFails => exact commit_inv h ht hp hw hs
  | discard =>
    cases hs
    exact discard_inv h ht hp
  | retain =>
    rw [← some.inj hs, Inv, ht]
    exact ⟨sound_bound (inv_opened h ht).1, fun q hq => by cases hq⟩
  | _ => cases hs

end

theorem step_inv (hh : cfg.rowHook = true) (hw : cfg.walOnly = true) (s : Node) (ev : Event) (s' : Node)
    (h : Inv s) (hok : SeenBefore cfg s ev) (hs : step cfg s ev = some s') : Inv s' := by
  cases hd : s.handle with
  | closed calls =>
    cases ev with
    | reopen ends =>
      simp only [step, hd] at hs
      cases hs
      exact reopenTable_inv _ h hd
    | _ => simp [step, hd] at hs
  | opened t =>
    cases ev with
    | begin =>
      cases hp : s.pending with
      | some p => simp [step, hd, hp] at hs
      | none =>
        simp only [step, hd, hp] at hs
        cases hs
        obtain ⟨hsd, -⟩ := inv_opened h hd
        rw [Node.bound, hp] at hsd
        refine ⟨hsd, fun q hq => ?_⟩
        cases hq
        exact ⟨rfl, ⟨le_refl _, by simp [batchBegin]⟩, forall_mem_nil _⟩
    | idleTick f =>
      simp only [step, hd] at hs
      cases hs
      exact idleTick_inv h hd hh f
    | alter f =>
      simp only [step, hd] at hs
      rw [SeenBefore, hd] at hok
      cases hs
      exact after_inv h hd (suppressed_flush f hok)
    | delete c f =>
      simp only [step, hd] at hs
      cases hs
      exact deleteParts_inv h hd hok
    | close f =>
      simp only [step, hd] at hs
      rw [SeenBefore, hd] at hok
      cases hs
      exact closeTable_inv h hd f hok
    | _ =>
      simp only [step, hd] at hs
      obtain ⟨p, hp, hb⟩ := bind_eq_some_iff.mp hs
      exact batchStep_inv h hd hp hh hw hb

theorem inv_started : Inv started := by
  refine ⟨⟨forall_mem_nil _, forall_mem_nil _, forall_mem_nil _, forall_mem_nil _, ?_,
    le_refl _⟩, fun p hp => by cases hp⟩
  rintro x ⟨m, hm, -⟩
  cases hm

theorem inv_handedOver (h : Inv s) : HandedOver s := by
  intro x hx
  cases hd : s.handle with
  | opened t => exact ((inv_opened h hd).1.committed x hx).1
  | closed calls =>
    rw [Inv, hd] at h
    exact (h.1.committed x hx).1

end

/-- If a flush with the hook suppressed only meets rows the hook has seen, every committed row is
given to it before it leaves the memtable. -/
theorem committed_rows_handed_over (sc : Schema) (hb : 0 < sc.blockPoints) (evs : List Event) (s : Node)
    (hok : Along (step (replicating sc hb)) (SeenBefore (replicating sc hb)) started evs)
    (hs : run (step (replicating sc hb)) started evs = some s) : HandedOver s :=
  inv_handedOver (run_invariant Inv (step_inv rfl rfl) evs _ s inv_started hok hs)

def idleThenClose : List Event :=
  [.begin, .row 0 false ⟨.keep, none⟩, .commit false, .idleTick ⟨.keep, none⟩, .idleTick ⟨.keep, none⟩,
    .close ⟨.keep, none⟩]

theorem committed_rows_handed_over_idle :
    ∃ s, Along (step (replicating (byTime 4) (by decide))) (SeenBefore (replicating (byTime 4) (by decide)))
        started idleThenClose ∧ run (step (replicating (byTime 4) (by decide))) started idleThenClose =
        some s ∧
      s.committed = [⟨0, 0⟩] ∧ s.handle = .closed [[⟨0, 0⟩]] ∧ HandedOver s := by
  have ha : Along (step (replicating (byTime 4) (by decide)))
    (SeenBefore (replicating (byTime 4) (by decide))) started idleThenClose := by decide
  obtain ⟨s, hs, hc, hd⟩ := run_reaches (step (replicating (byTime 4) (by decide))) started idleThenClose
    (fun s => s.committed = [⟨0, 0⟩] ∧ s.handle = .closed [[⟨0, 0⟩]]) (by decide)
  exact ⟨s, ha, hs, hc, hd, committed_rows_handed_over (byTime 4) (by decide) idleThenClose s ha hs⟩

def closedFirst : List Event := [.begin, .row 0 false ⟨.keep, none⟩, .commit false, .close ⟨.keep, none⟩]

theorem close_drains_without_hook :
    ∃ s, run (step (replicating (byTime 4) (by decide))) started closedFirst = some s ∧
      s.committed = [⟨0, 0⟩] ∧ s.handle = .closed [] ∧ partRows s.store.parts = [⟨0, 0⟩] ∧
      s.store.wal = [] ∧ ¬HandedOver s := by
  exact run_reaches (step (replicating (byTime 4) (by decide))) started closedFirst
    (fun s => s.committed = [⟨0, 0⟩] ∧ s.handle = .closed [] ∧ partRows s.store.parts = [⟨0, 0⟩] ∧
      s.store.wal = [] ∧ ¬HandedOver s) (by decide)

end QEngine.ReplicationHandover

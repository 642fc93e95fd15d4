import QEngine.RedoRecovery
import QEngine.TableBatches

/-!
# A flush beside a batch

A flush takes the memtable lock only to count, to sort and to clear; a writer appends
under that lock alone. DELETE and close do not exclude the writer, so rows may enter
the memtable after it was counted, and the clear drops them.
-/

namespace QEngine.FlushRaces
open List StepRuns RedoLog RedoRecovery TableBatches

inductive Caller where
  | deleteRange
  | alter
  | idleFlush
  | close
  deriving DecidableEq

def Caller.skipReplicate : Caller → Bool
  | .idleFlush => false
  | _ => true

def Caller.takesBatchMu : Caller → Bool
  | .alter => true
  | .idleFlush => true
  | _ => false

/-- How far the other caller is in `flush_and_clear_locked`; it holds the
compaction lock from `entered` on. -/
inductive Flusher where
  | out
  | entered (k : Caller)
  | checked (k : Caller)
  | hooked (k : Caller)
  | counted (k : Caller) (nrows : ℕ)
  | sorted (k : Caller) (ds : List ℤ) (rows : List Row)
  | clearing (k : Caller)
  | cleared (k : Caller)
  deriving DecidableEq

def Flusher.holdsBatchMu : Flusher → Bool
  | .out => false
  | .entered k | .checked k | .hooked k | .counted k _ | .sorted k _ _ | .clearing k | .cleared k =>
    k.takesBatchMu

/-- The writer holds the memtable lock in `inRow`; `begun` and `flushed` lie between its two
reads. The rows of the batch are carried along. -/
inductive Writer where
  | idle
  | begun (base : ℕ) (localOnly : Bool)
  | ready (b : Batch) (own : List Row)
  | inRow (b : Batch) (own : List Row)
  | flushed (b : Batch) (own : List Row)
  | failed (b : Batch) (own : List Row)
  deriving DecidableEq

def Writer.isIdle : Writer → Bool
  | .idle => true
  | _ => false

def Writer.holdsMemtable : Writer → Bool
  | .inRow _ _ => true
  | _ => false

structure State where
  store : Store
  mem : Ingest
  writer : Writer
  flusher : Flusher
  nextId : ℕ
  entered : List Row
  undone : List Row
  deriving DecidableEq

inductive Event where
  | begin (localOnly : Bool)
  | anchor
  | rowBegin
  | rowEnd (ts : ℤ)
  | rowAbort
  | bulk (tss : List ℤ)
  | flush (anew : Bool) (f : FlushRun)
  | commit (walFails : Bool) (f : FlushRun)
  | discard
  | retain
  | resume
  | enter (k : Caller)
  | check
  | hook (a : HookAnswer)
  | count
  | sort
  | publish (stop : Option ℕ)
  | clear
  | leave
  deriving DecidableEq

def State.append (s : State) (b : Batch) (own rows : List Row) : State :=
  { s with
      mem := { s.mem with memtable := s.mem.memtable++rows }
      writer := .ready b (own++rows)
      nextId := s.nextId+rows.length
      entered := s.entered++rows }

def State.discarded (s : State) (b : Batch) (own : List Row) : State :=
  let t := batchDiscard b s.mem
  { s with
      mem := t
      writer := .idle
      undone := s.undone++(s.mem.memtable.drop t.memtable.length).filter fun r => r ∈ own }

/-- A step of the writer; its own flushes and commits exclude the other caller and are one step.
`locks` says that it holds the table's write lock from the start of a batch to its end. A failed
batch is discarded or retained. -/
def writerStep (cfg : Config) (locks : Bool) (s : State) : Event → Option State
  | .begin localOnly =>
    match s.writer with
    | .idle =>
      if locks = true ∧ s.flusher.holdsBatchMu = true then none
      else some { s with writer := .begun s.mem.memtable.length localOnly }
    | _ => none
  | .anchor =>
    match s.writer with
    | .begun base localOnly => some { s with writer := .ready ⟨base, s.mem.flushGen, localOnly⟩ [] }
    | .flushed b own => some { s with writer := .ready ⟨0, s.mem.flushGen, b.localOnly⟩ own }
    | _ => none
  | .rowBegin =>
    match s.writer with
    | .ready b own =>
      if cfg.schema.blockPoints ≤ s.mem.memtable.length then none
      else some { s with mem := s.mem.marked b, writer := .inRow b own }
    | _ => none
  | .rowEnd ts =>
    match s.writer with
    | .inRow b own => some (s.append b own (rowsFrom s.nextId [ts]))
    | _ => none
  | .rowAbort =>
    match s.writer with
    | .inRow b own => some { s with writer := .ready b own }
    | _ => none
  | .bulk tss =>
    match s.writer with
    | .ready b own =>
      if tss = [] ∨ cfg.schema.blockPoints < s.mem.memtable.length+tss.length then none
      else some ({ s with mem := s.mem.marked b }.append b own (rowsFrom s.nextId tss))
    | _ => none
  | .flush anew f =>
    match s.writer with
    | .ready b own =>
      if s.flusher ≠ .out then none
      else
        let o := flushAndClearLocked cfg b.localOnly f s.store s.mem
        some { s with
          store := o.store
          mem := o.mem
          writer := if anew = true ∧ o.ok = true then .flushed b own else .ready b own }
    | _ => none
  | .commit walFails f =>
    match s.writer with
    | .ready b own | .failed b own =>
      if s.flusher ≠ .out then none
      else
        let o := batchCommit cfg b walFails f s.store s.mem
        some { s with
          store := o.store
          mem := o.mem
          writer := if o.ok then .idle else .failed b own }
    | _ => none
  | .discard =>
    match s.writer with
    | .ready b own | .failed b own => if s.flusher ≠ .out then none else some (s.discarded b own)
    | _ => none
  | .retain =>
    match s.writer with
    | .failed _ _ => some { s with writer := .idle }
    | _ => none
  | .resume =>
    match s.writer with
    | .failed b own => some { s with writer := .ready b own }
    | _ => none
  | _ => none

def State.published (s : State) (cfg : Config) (k : Caller) (ds : List ℤ) (rows : List Row)
    (stop : Option ℕ) : State :=
  let reached := stop.getD ds.length
  let parts := publishBuckets cfg.schema.unit s.mem.commitSeq rows (ds.take reached) s.store.parts
  { s with
      store := { s.store with parts := parts }
      flusher := if ds.length ≤ reached then .clearing k else .out }

def State.left (s : State) : State :=
  { s with
      store := { s.store with wal := [] }
      mem := { s.mem with
        memLogged := 0
        flushGen := s.mem.flushGen+1
        hasLocal := false
        hasReceived := false }
      flusher := .out }

/-- A step of the other caller. Only as many rows are published as were counted. -/
def flusherStep (cfg : Config) (locks : Bool) (s : State) : Event → Option State
  | .enter k =>
    match s.flusher with
    | .out =>
      if locks = true ∧ k.takesBatchMu = true ∧ s.writer.isIdle = false then none
      else some { s with flusher := .entered k }
    | _ => none
  | .check =>
    match s.flusher with
    | .entered k =>
      if s.writer.holdsMemtable then none
      else if s.mem.memtable = [] ∨ s.mem.walIncomplete = true then some { s with flusher := .out }
      else some { s with flusher := .checked k }
    | _ => none
  | .hook a =>
    match s.flusher with
    | .checked k =>
      some { s with
        mem := s.mem.offered cfg k.skipReplicate
        flusher := if skipsLocal cfg k.skipReplicate ⟨a, none⟩ then .clearing k else .hooked k }
    | _ => none
  | .count =>
    match s.flusher with
    | .hooked k =>
      if s.writer.holdsMemtable then none
      else some { s with flusher := .counted k s.mem.memtable.length }
    | _ => none
  | .sort =>
    match s.flusher with
    | .counted k n =>
      if s.writer.holdsMemtable then none
      else
        let rows := (cfg.schema.order s.mem.memtable).take n
        some { s with flusher := .sorted k (days cfg.schema (s.mem.memtable.take n)) rows }
    | _ => none
  | .publish stop =>
    match s.flusher with
    | .sorted k ds rows => some (s.published cfg k ds rows stop)
    | _ => none
  | .clear =>
    match s.flusher with
    | .clearing k =>
      if s.writer.holdsMemtable then none
      else some { s with mem := { s.mem with memtable := [] }, flusher := .cleared k }
    | _ => none
  | .leave =>
    match s.flusher with
    | .cleared _ => some s.left
    | _ => none
  | _ => none

/-- The steps of the other caller, with nothing between them, are the flush of a batch. -/
theorem uninterrupted_flush (cfg : Config) (locks : Bool) (s : State) (k : Caller) (f : FlushRun)
    (hout : s.flusher = .out) (hfree : locks = true → k.takesBatchMu = true → s.writer.isIdle = true)
    (hmem : s.writer.holdsMemtable = false) (hne : s.mem.memtable ≠ []) (hw : s.mem.walIncomplete = false)
    (hs : skipsLocal cfg k.skipReplicate ⟨f.answer, none⟩ = false) (hstop : f.stop = none) :
    run (flusherStep cfg locks) s [.enter k, .check, .hook f.answer, .count, .sort, .publish none, .clear,
      .leave] =
      some { s with
        store := (flushAndClearLocked cfg k.skipReplicate f s.store s.mem).store
        mem := (flushAndClearLocked cfg k.skipReplicate f s.store s.mem).mem } := by
  have hskip : skipsLocal cfg k.skipReplicate f = false := hs
  have henter : ¬(locks = true ∧ k.takesBatchMu = true ∧ s.writer.isIdle = false) := by
    rintro ⟨h1, h2, h3⟩
    rw [hfree h1 h2] at h3
    cases h3
  obtain ⟨store, mem, writer, flusher, nextId, entered, undone⟩ := s
  dsimp only at hout hmem hne hw henter
  subst hout
  have hlen : (cfg.schema.order mem.memtable).length ≤ mem.memtable.length :=
    (cfg.schema.order_perm mem.memtable).length_eq.le
  have hpub : publishBuckets cfg.schema.unit mem.commitSeq (cfg.schema.order mem.memtable)
    (days cfg.schema mem.memtable) store.parts =
      publishDays cfg.schema mem.commitSeq mem.memtable (days cfg.schema mem.memtable) store.parts := rfl
  simp only [run, flusherStep, if_neg henter, hmem, hne, hw, hs, hskip, Option.bind_some, offered_toTable,
    State.published, State.left, flushAndClearLocked, hstop, Option.getD_none, take_length, le_refl,
    if_true, if_false, take_of_length_le hlen, hpub, Bool.false_eq_true, or_self, Ingest.drained]

def step (cfg : Config) (locks : Bool) (s : State) (ev : Event) : Option State :=
  (writerStep cfg locks s ev).or (flusherStep cfg locks s ev)

def opened (d : Store) (t : Ingest) (nextId : ℕ) : State := ⟨d, t, .idle, .out, nextId, t.memtable, []⟩

/-- Every row that entered is in the memtable, was published, or was rolled
back by its batch. -/
def NoneDropped (s : State) : Prop :=
  ∀ r ∈ s.entered, r ∈ s.mem.memtable ∨ r ∈ partRows s.store.parts ∨ r ∈ s.undone

instance (s : State) : Decidable (NoneDropped s) :=
  inferInstanceAs (Decidable (∀ r ∈ s.entered,
    r ∈ s.mem.memtable ∨ r ∈ partRows s.store.parts ∨ r ∈ s.undone))

def Flusher.counting : Flusher → Bool
  | .counted _ _ | .sorted _ _ _ | .clearing _ => true
  | _ => false

/-- No row enters between the count and the clear, and no hook has the rows
dropped. -/
def Quiet (s : State) : Event → Prop
  | .rowEnd _ | .bulk _ => s.flusher.counting = false
  | .hook a => a = .keep
  | .flush _ f | .commit _ f => f.answer = .keep
  | _ => True

instance (s : State) (ev : Event) : Decidable (Quiet s ev) := by
  cases ev <;> unfold Quiet <;> infer_instance

def Writer.since : Writer → List Row
  | .ready _ own | .inRow _ own => own
  | _ => []

def FlusherOk (cfg : Config) (s : State) : Prop :=
  match s.flusher with
  | .counted _ n => n = s.mem.memtable.length
  | .sorted _ ds rows => rows.Perm s.mem.memtable ∧ ds = days cfg.schema s.mem.memtable
  | .clearing _ => ∀ r ∈ s.mem.memtable, r ∈ partRows s.store.parts
  | .cleared _ => ∀ r ∈ s.mem.memtable, r ∈ s.writer.since
  | _ => True

def WriterOk (t : Ingest) : Writer → Prop
  | .idle => True
  | .begun base _ => t.memtable.length ≤ base
  | .ready b own | .inRow b own | .failed b own => OwnTail t b (· ∈ own)
  | .flushed _ _ => t.memtable = []

structure Inv (cfg : Config) (s : State) : Prop where
  kept : NoneDropped s
  flusher : FlusherOk cfg s
  writer : WriterOk s.mem s.writer

theorem noneDropped_of {s s' : State} (h : NoneDropped s) (he : s'.entered = s.entered)
    (hm : ∀ r ∈ s.mem.memtable, r ∈ s'.mem.memtable ∨ r ∈ partRows s'.store.parts ∨ r ∈ s'.undone)
    (hp : ∀ r ∈ partRows s.store.parts, r ∈ partRows s'.store.parts)
    (hu : ∀ r ∈ s.undone, r ∈ s'.undone) : NoneDropped s' := by
  intro r hr
  rw [he] at hr
  rcases h r hr with hr | hr | hr
  · exact hm r hr
  · exact .inr (.inl (hp r hr))
  · exact .inr (.inr (hu r hr))

theorem noneDropped_same {s s' : State} (h : NoneDropped s) (he : s'.entered = s.entered)
    (hm : s'.mem.memtable = s.mem.memtable) (hp : s'.store.parts = s.store.parts)
    (hu : s'.undone = s.undone) : NoneDropped s' := by
  intro r hr
  rw [he] at hr
  rw [hm, hp, hu]
  exact h r hr

theorem flusherOk_writer {cfg : Config} {s s' : State} (h : FlusherOk cfg s)
    (hf : s'.flusher = s.flusher) (hm : s'.mem.memtable = s.mem.memtable)
    (hp : s'.store.parts = s.store.parts) (hw : ∀ r ∈ s.writer.since, r ∈ s'.writer.since) :
    FlusherOk cfg s' := by
  unfold FlusherOk at h ⊢
  rw [hf, hm, hp]
  cases hs : s.flusher with
  | cleared k =>
    rw [hs] at h
    exact fun r hr => hw r (h r hr)
  | _ =>
    rw [hs] at h
    exact h

theorem flusherOk_out {cfg : Config} {s : State} (h : s.flusher = .out) : FlusherOk cfg s := by
  rw [FlusherOk, h]
  trivial

def Keeps (d : Store) (t : Ingest) (o : Done) : Prop :=
  (∀ r ∈ partRows d.parts, r ∈ partRows o.store.parts) ∧
  ∀ r ∈ t.memtable, r ∈ o.mem.memtable ∨ r ∈ partRows o.store.parts

section
variable {cfg : Config} {skip : Bool} {f : FlushRun} {d : Store} {t : Ingest} {o : Done}

theorem flushed_keeps (h : Flushed cfg skip f d t o) (hf : f.answer = .keep) : Keeps d t o := by
  cases h with
  | empty h | frozen h => exact ⟨fun r hr => hr, fun r hr => .inl hr⟩
  | skipped hs => simp [skipsLocal, hf] at hs
  | published parts hm hs hp =>
    exact ⟨fun r hr => hp.symm.subset (mem_append_left _ hr),
      fun r hr => .inr (hp.symm.subset (mem_append_right _ hr))⟩
  | stopped parts k hk hp =>
    exact ⟨fun r hr => hp.symm.subset (mem_append_left _ hr), fun r hr => .inl (by simpa using hr)⟩

theorem commit_keeps {b : Batch} {walFails : Bool} (hf : f.answer = .keep) :
    Drains t (batchCommit cfg b walFails f d t).mem ∧ Keeps d t (batchCommit cfg b walFails f d t) := by
  rw [batchCommit]
  split_ifs with hw hl
  · exact ⟨.inl ⟨rfl, rfl⟩, fun r hr => hr, fun r hr => .inl hr⟩
  · cases hr : redoLog d t.toTable with
    | none => exact ⟨.inl ⟨rfl, rfl⟩, fun r hr => hr, fun r hr => .inl hr⟩
    | some du =>
      obtain ⟨hm, hp, -⟩ := redoLog_frame hr
      refine ⟨.inl ⟨hm, rfl⟩, fun r hr => ?_, fun r hr => .inl ?_⟩
      · rw [hp]
        exact hr
      rw [hm]
      exact hr
  -- a failed sync comes after the flush
  · have hk := flushed_keeps (flush_flushed cfg b.localOnly f d t) hf
    have hd := flushed_drains (flush_flushed cfg b.localOnly f d t)
    exact ⟨hd, hk⟩
  · exact ⟨flushed_drains (flush_flushed cfg _ f d t),
      flushed_keeps (flush_flushed cfg _ f d t) hf⟩

end

section
variable {cfg : Config} {locks : Bool} {s s' : State}

variable {own : List Row}

variable {b : Batch} {rows : List Row}

variable (h : Inv cfg s)

include h

theorem append_inv (hb : OwnTail s.mem b (· ∈ own))
    (hw : ∀ r ∈ s.writer.since, r ∈ own) (hc : s.flusher.counting = false) :
    Inv cfg (s.append b own rows) := by
  refine ⟨?_, ?_, ?_⟩
  · intro r hr
    rcases mem_append.mp hr with hr | hr
    · exact (h.kept r hr).imp_left (mem_append_left _)
    · exact .inl (mem_append_right _ hr)
  · have hf := h.flusher
    unfold FlusherOk at hf ⊢
    simp only [State.append]
    cases hs : s.flusher with
    | cleared k =>
      rw [hs] at hf
      intro r hr
      rcases mem_append.mp hr with hr | hr
      · exact mem_append_left _ (hw r (hf r hr))
      · exact mem_append_right _ hr
    | counted k n | sorted k ds rows | clearing k => simp [hs, Flusher.counting] at hc
    | _ => trivial
  · exact ownTail_append ⟨hb.1, fun r hr => mem_append_left _ (hb.2 r hr)⟩
      (fun r hr => mem_append_right _ hr)

theorem discarded_inv (hb : OwnTail s.mem b (· ∈ own))
    (hf : s.flusher = .out) : Inv cfg (s.discarded b own) := by
  refine ⟨noneDropped_of h.kept rfl ?_ (fun r hr => hr) (fun r hr => mem_append_left _ hr),
    flusherOk_out hf, trivial⟩
  intro r hr
  rw [State.discarded]
  have hb2 := hb.2
  rw [batchDiscard, truncateTo]
  generalize (if s.mem.flushGen ≠ b.beginFlushGen then 0 else b.baseNrows) = n at hb2
  split_ifs with hn
  · exact .inl hr
  rw [length_take, min_eq_left (by omega)]
  rw [← take_append_drop n s.mem.memtable] at hr
  rcases mem_append.mp hr with hr | hr
  · exact .inl hr
  · exact .inr (.inr (mem_append_right _
      (mem_filter.mpr ⟨hr, decide_eq_true (hb2 r hr)⟩)))

theorem call_inv {o : Done} {w : Writer} (hk : Keeps s.store s.mem o)
    (hf : s.flusher = .out) (hw : WriterOk o.mem w) :
    Inv cfg { s with store := o.store, mem := o.mem, writer := w } :=
  ⟨noneDropped_of h.kept rfl (fun r hr => (hk.2 r hr).imp_right .inl) hk.1 (fun _ hr => hr),
    flusherOk_out hf, hw⟩

theorem move_inv {t : Ingest} {w : Writer} (ht : t.memtable = s.mem.memtable)
    (hs : ∀ r ∈ s.writer.since, r ∈ w.since) (hw : WriterOk t w) : Inv cfg { s with mem := t, writer := w } :=
  ⟨noneDropped_same h.kept rfl ht rfl rfl, flusherOk_writer h.flusher rfl ht rfl hs, hw⟩

variable (cfg locks s) in
inductive WriterMoves : Event → State → Prop
  | begun {localOnly : Bool} (hw : s.writer = .idle)
    (hl : locks = true → s.flusher.holdsBatchMu = false) :
    WriterMoves (.begin localOnly) { s with writer := .begun s.mem.memtable.length localOnly }
  | anchored {base : ℕ} {localOnly : Bool} (hw : s.writer = .begun base localOnly) :
    WriterMoves .anchor { s with writer := .ready ⟨base, s.mem.flushGen, localOnly⟩ [] }
  | anchoredAnew {b : Batch} {own : List Row} (hw : s.writer = .flushed b own) :
    WriterMoves .anchor { s with writer := .ready ⟨0, s.mem.flushGen, b.localOnly⟩ own }
  | rowBegun {b : Batch} {own : List Row} (hw : s.writer = .ready b own) :
    WriterMoves .rowBegin { s with mem := s.mem.marked b, writer := .inRow b own }
  | rowEnded {b : Batch} {own : List Row} {ts : ℤ} (hw : s.writer = .inRow b own) :
    WriterMoves (.rowEnd ts) (s.append b own (rowsFrom s.nextId [ts]))
  | rowAborted {b : Batch} {own : List Row} (hw : s.writer = .inRow b own) :
    WriterMoves .rowAbort { s with writer := .ready b own }
  | appended {b : Batch} {own : List Row} {tss : List ℤ} (hw : s.writer = .ready b own) :
    WriterMoves (.bulk tss) ({ s with mem := s.mem.marked b }.append b own (rowsFrom s.nextId tss))
  | flushed {b : Batch} {own : List Row} {anew : Bool} {f : FlushRun} {o : Done}
    (hw : s.writer = .ready b own) (hf : s.flusher = .out)
    (ho : Flushed cfg b.localOnly f s.store s.mem o) :
    WriterMoves (.flush anew f) { s with
      store := o.store
      mem := o.mem
      writer := if anew = true ∧ o.ok = true then .flushed b own else .ready b own }
  | committed {b : Batch} {own : List Row} {walFails : Bool} {f : FlushRun}
    (hw : s.writer = .ready b own ∨ s.writer = .failed b own) (hf : s.flusher = .out) :
    WriterMoves (.commit walFails f) { s with
      store := (batchCommit cfg b walFails f s.store s.mem).store
      mem := (batchCommit cfg b walFails f s.store s.mem).mem
      writer := if (batchCommit cfg b walFails f s.store s.mem).ok then .idle else .failed b own }
  | discarded {b : Batch} {own : List Row} (hw : s.writer = .ready b own ∨ s.writer = .failed b own)
    (hf : s.flusher = .out) : WriterMoves .discard (s.discarded b own)
  | retained {b : Batch} {own : List Row} (hw : s.writer = .failed b own) :
    WriterMoves .retain { s with writer := .idle }
  | resumed {b : Batch} {own : List Row} (hw : s.writer = .failed b own) :
    WriterMoves .resume { s with writer := .ready b own }

variable {ev : Event}

omit h in
theorem writer_moves (h : writerStep cfg locks s ev = some s') : WriterMoves cfg locks s ev s' := by
  unfold writerStep at h
  cases ev with
  | begin localOnly =>
    dsimp only at h
    split at h
    · split_ifs at h with hl
      cases h
      exact .begun ‹_› fun hk => by simpa [hk] using hl
    · cases h
  | anchor =>
    dsimp only at h
    split at h
    · cases h
      exact .anchored ‹_›
    · cases h
      exact .anchoredAnew ‹_›
    · cases h
  | rowBegin =>
    dsimp only at h
    split at h
    · split_ifs at h
      cases h
      exact .rowBegun ‹_›
    · cases h
  | rowEnd ts =>
    dsimp only at h
    split at h
    · cases h
      exact .rowEnded ‹_›
    · cases h
  | rowAbort =>
    dsimp only at h
    split at h
    · cases h
      exact .rowAborted ‹_›
    · cases h
  | bulk tss =>
    dsimp only at h
    split at h
    · split_ifs at h
      cases h
      exact .appended ‹_›
    · cases h
  | flush anew f =>
    dsimp only at h
    split at h
    · split at h
      · cases h
      cases h
      exact .flushed ‹_› (not_not.mp ‹_›) (flush_flushed _ _ _ _ _)
    · cases h
  | commit walFails f =>
    dsimp only at h
    split at h
    · split at h
      · cases h
      cases h
      exact .committed (.inl ‹_›) (not_not.mp ‹_›)
    · split at h
      · cases h
      cases h
      exact .committed (.inr ‹_›) (not_not.mp ‹_›)
    · cases h
  | discard =>
    dsimp only at h
    split at h
    · split_ifs at h with hf
      cases h
      exact .discarded (.inl ‹_›) (not_not.mp hf)
    · split_ifs at h with hf
      cases h
      exact .discarded (.inr ‹_›) (not_not.mp hf)
    · cases h
  | retain =>
    dsimp only at h
    split at h
    · cases h
      exact .retained ‹_›
    · cases h
  | resume =>
    dsimp only at h
    split at h
    · cases h
      exact .resumed ‹_›
    · cases h
  | _ => cases h

theorem ownTail_of (hw : s.writer = .ready b own ∨ s.writer = .failed b own) : OwnTail s.mem b (· ∈ own) := by
  have hi := h.writer
  rcases hw with hw | hw
  · rw [hw] at hi
    exact hi
  · rw [hw] at hi
    exact hi

theorem writer_inv (hq : Quiet s ev)
    (hs : writerStep cfg locks s ev = some s') : Inv cfg s' := by
  have hi := h.writer
  cases writer_moves hs with
  | begun hw _ => exact move_inv h rfl (by simp [hw, Writer.since]) (le_refl _)
  | anchored hw =>
    rw [hw] at hi
    refine move_inv h rfl (by simp [hw, Writer.since]) ⟨le_refl _, ?_⟩
    intro r hr
    rw [if_neg (by simp), drop_eq_nil_of_le hi] at hr
    cases hr
  | anchoredAnew hw =>
    rw [hw] at hi
    refine move_inv h rfl (by simp [hw, Writer.since]) ⟨le_refl _, ?_⟩
    intro r hr
    rw [show s.mem.memtable = [] from hi, drop_nil] at hr
    cases hr
  | rowBegun hw =>
    exact move_inv h (by simp) (by simp [hw, Writer.since]) (ownTail_marked (ownTail_of h (.inl hw)))
  | rowEnded hw =>
    rw [hw] at hi
    exact append_inv h hi (by simp [hw, Writer.since]) hq
  | rowAborted hw =>
    rw [hw] at hi
    exact move_inv h rfl (by simp [hw, Writer.since]) hi
  | appended hw =>
    rename_i b own tss
    have ho := ownTail_marked (ownTail_of h (.inl hw)) (c := b)
    have hm := move_inv h (t := s.mem.marked b) (by simp) (fun r hr => hr) (by rw [hw]; exact ho)
    exact append_inv hm ho (by simp [hw, Writer.since]) hq
  | flushed hw hf ho =>
    refine call_inv h (flushed_keeps ho hq) hf ?_
    split_ifs with hk
    · exact flushed_ok_empty ho hk.2
    · exact ownTail_drains (ownTail_of h (.inl hw)) (flushed_drains ho)
  | committed hw hf =>
    obtain ⟨hd, hk⟩ := commit_keeps hq
    refine call_inv h hk hf ?_
    split_ifs
    · trivial
    · exact ownTail_drains (ownTail_of h hw) hd
  | discarded hw hf => exact discarded_inv h (ownTail_of h hw) hf
  | retained hw => exact move_inv h rfl (by simp [hw, Writer.since]) trivial
  | resumed hw =>
    exact move_inv h rfl (by simp [hw, Writer.since]) (ownTail_of h (.inr hw))

theorem pass_inv {t : Ingest} {p : Flusher} (ht : t.toTable = s.mem.toTable)
    (hg : t.flushGen = s.mem.flushGen) (hp : FlusherOk cfg { s with mem := t, flusher := p }) :
    Inv cfg { s with mem := t, flusher := p } := by
  refine ⟨noneDropped_same h.kept rfl (congrArg Table.memtable ht) rfl rfl, hp, ?_⟩
  have hw := h.writer
  cases hs : s.writer with
  | idle => trivial
  | _ =>
    rw [hs] at hw
    simpa only [WriterOk, OwnTail, ht, hg] using hw

variable {k : Caller}

theorem sorted_all {n : ℕ} (hf : s.flusher = .counted k n) :
    ((cfg.schema.order s.mem.memtable).take n).Perm s.mem.memtable ∧
    days cfg.schema (s.mem.memtable.take n) = days cfg.schema s.mem.memtable := by
  have hn := h.flusher
  rw [FlusherOk, hf] at hn
  have hperm := cfg.schema.order_perm s.mem.memtable
  rw [take_of_length_le (le_of_eq (hperm.length_eq.trans hn.symm)),
    take_of_length_le (le_of_eq hn.symm)]
  exact ⟨hperm, rfl⟩

theorem publish_inv {ds : List ℤ} (stop : Option ℕ)
    (hf : s.flusher = .sorted k ds rows) : Inv cfg (s.published cfg k ds rows stop) := by
  have hr := h.flusher
  rw [FlusherOk, hf] at hr
  obtain ⟨hperm, rfl⟩ := hr
  have hrows := publishBuckets_rows cfg.schema.unit s.mem.commitSeq rows
    ((days cfg.schema s.mem.memtable).take (stop.getD (days cfg.schema s.mem.memtable).length))
    s.store.parts (take_days_nodup _)
  refine ⟨noneDropped_of h.kept rfl (fun r hr => .inl hr)
    (fun r hr => hrows.symm.subset (mem_append_left _ hr)) (fun _ hr => hr), ?_, h.writer⟩
  by_cases hall : (days cfg.schema s.mem.memtable).length ≤
    stop.getD (days cfg.schema s.mem.memtable).length
  · rw [FlusherOk, State.published, if_pos hall]
    intro r hr
    refine hrows.symm.subset (mem_append_right _ (mem_filter.mpr ⟨hperm.symm.subset hr, ?_⟩))
    rw [take_of_length_le hall]
    exact decide_eq_true ((mem_days _ _ _).mpr ⟨r, hr, rfl⟩)
  · exact flusherOk_out (if_neg hall)

theorem clear_inv (hf : s.flusher = .clearing k) :
    Inv cfg { s with mem := { s.mem with memtable := [] }, flusher := .cleared k } := by
  have hin := h.flusher
  rw [FlusherOk, hf] at hin
  refine ⟨noneDropped_of h.kept rfl (fun r hr => .inr (.inl (hin r hr))) (fun _ hr => hr)
    (fun _ hr => hr), forall_mem_nil _, ?_⟩
  have hw := h.writer
  cases hs : s.writer with
  | idle => trivial
  | begun base localOnly => exact Nat.zero_le base
  | flushed b own => rfl
  | ready b own | inRow b own | failed b own =>
    rw [hs] at hw
    exact ⟨hw.1, by simp⟩

omit h in
theorem ownTail_leave {t : Ingest} (h : OwnTail t b (· ∈ own))
    (ho : ∀ r ∈ t.memtable, r ∈ own) {u : Ingest} (hm : u.memtable = t.memtable)
    (hg : u.flushGen = t.flushGen+1) : OwnTail u b (· ∈ own) := by
  refine ⟨by have := h.1; omega, fun r hr => ho r ?_⟩
  rw [hm] at hr
  exact mem_of_mem_drop hr

theorem leave_inv (hf : s.flusher = .cleared k) : Inv cfg s.left := by
  have hin := h.flusher
  rw [FlusherOk, hf] at hin
  refine ⟨noneDropped_same h.kept rfl rfl rfl rfl, flusherOk_out rfl, ?_⟩
  have hw := h.writer
  rw [State.left]
  cases hs : s.writer with
  | idle => trivial
  | begun base localOnly | flushed b own =>
    rw [hs] at hw
    exact hw
  | ready b own | inRow b own =>
    rw [hs] at hw hin
    exact ownTail_leave hw hin rfl rfl
  | failed b own =>
    rw [hs] at hw hin
    exact ownTail_leave hw (fun r hr => by cases hin r hr) rfl rfl

variable (cfg locks s) in
inductive FlusherMoves : Event → State → Prop
  | entered {k : Caller} (hf : s.flusher = .out)
    (hl : locks = true → k.takesBatchMu = true → s.writer.isIdle = true) :
    FlusherMoves (.enter k) { s with flusher := .entered k }
  | returned {k : Caller} (hf : s.flusher = .entered k) : FlusherMoves .check { s with flusher := .out }
  | checked {k : Caller} (hf : s.flusher = .entered k) :
    FlusherMoves .check { s with flusher := .checked k }
  | hooked {k : Caller} {a : HookAnswer} (hf : s.flusher = .checked k) :
    FlusherMoves (.hook a) { s with
      mem := s.mem.offered cfg k.skipReplicate
      flusher := if skipsLocal cfg k.skipReplicate ⟨a, none⟩ then .clearing k else .hooked k }
  | counted {k : Caller} (hf : s.flusher = .hooked k) :
    FlusherMoves .count { s with flusher := .counted k s.mem.memtable.length }
  | sorted {k : Caller} {n : ℕ} (hf : s.flusher = .counted k n) :
    FlusherMoves .sort { s with
      flusher := .sorted k (days cfg.schema (s.mem.memtable.take n))
        ((cfg.schema.order s.mem.memtable).take n) }
  | published {k : Caller} {ds : List ℤ} {rows : List Row} {stop : Option ℕ}
    (hf : s.flusher = .sorted k ds rows) : FlusherMoves (.publish stop) (s.published cfg k ds rows stop)
  | cleared {k : Caller} (hf : s.flusher = .clearing k) :
    FlusherMoves .clear { s with mem := { s.mem with memtable := [] }, flusher := .cleared k }
  | left {k : Caller} (hf : s.flusher = .cleared k) : FlusherMoves .leave s.left

omit h in
theorem flusher_moves (h : flusherStep cfg locks s ev = some s') : FlusherMoves cfg locks s ev s' := by
  unfold flusherStep at h
  cases ev with
  | enter k =>
    dsimp only at h
    split at h
    · split_ifs at h with hl
      cases h
      exact .entered ‹_› fun hk ht => by simpa [hk, ht] using hl
    · cases h
  | check =>
    dsimp only at h
    split at h
    · split_ifs at h
      · cases h
        exact .returned ‹_›
      · cases h
        exact .checked ‹_›
    · cases h
  | hook a =>
    dsimp only at h
    split at h
    · cases h
      exact .hooked ‹_›
    · cases h
  | count =>
    dsimp only at h
    split at h
    · split_ifs at h
      cases h
      exact .counted ‹_›
    · cases h
  | sort =>
    dsimp only at h
    split at h
    · split_ifs at h
      cases h
      exact .sorted ‹_›
    · cases h
  | publish stop =>
    dsimp only at h
    split at h
    · cases h
      exact .published ‹_›
    · cases h
  | clear =>
    dsimp only at h
    split at h
    · split_ifs at h
      cases h
      exact .cleared ‹_›
    · cases h
  | leave =>
    dsimp only at h
    split at h
    · cases h
      exact .left ‹_›
    · cases h
  | _ => cases h

theorem flusher_inv (hq : Quiet s ev)
    (hs : flusherStep cfg locks s ev = some s') : Inv cfg s' := by
  cases flusher_moves hs with
  | entered hf hl | returned hf | checked hf => exact pass_inv h rfl rfl trivial
  | hooked hf =>
    refine pass_inv h (by simp) (by simp) ?_
    rw [show _ = HookAnswer.keep from hq]
    simp [FlusherOk, skipsLocal]
  | counted hf => exact pass_inv h rfl rfl rfl
  | sorted hf => exact pass_inv h rfl rfl (sorted_all h hf)
  | published hf => exact publish_inv h _ hf
  | cleared hf => exact clear_inv h hf
  | left hf => exact leave_inv h hf

omit h

theorem step_inv (s : State) (ev : Event) (s' : State) (h : Inv cfg s) (hq : Quiet s ev)
    (hs : step cfg locks s ev = some s') : Inv cfg s' := by
  rcases Option.or_eq_some_iff.mp hs with hs | ⟨-, hs⟩
  · exact writer_inv h hq hs
  · exact flusher_inv h hq hs

theorem inv_opened (cfg : Config) (d : Store) (t : Ingest) (nextId : ℕ) : Inv cfg (opened d t nextId) :=
  ⟨fun _ hr => .inl hr, flusherOk_out rfl, trivial⟩

end

/-- If no row enters between the count of another caller's flush and its clear, no row is dropped.
-/
theorem interleaved_flush_keeps_rows (cfg : Config) (locks : Bool) (d : Store) (t : Ingest) (nextId : ℕ)
    (evs : List Event) (s : State) (hq : Along (step cfg locks) Quiet (opened d t nextId) evs)
    (hs : run (step cfg locks) (opened d t nextId) evs = some s) : NoneDropped s :=
  (run_invariant _ step_inv evs _ s (inv_opened cfg d t _) hq hs).kept

def daily : Config := ⟨byTime 4, byTime_four_pos, true, false⟩

def emptyTable : Ingest := ⟨⟨[], 0, 0, false⟩, 0, false, false, []⟩

def deleteBetweenRows : List Event :=
  [.begin false, .anchor, .rowBegin, .rowEnd 0,
    .enter .deleteRange, .check, .hook .keep, .count, .sort, .publish none, .clear, .leave,
    .rowBegin, .rowEnd 1, .commit false ⟨.keep, none⟩]

theorem interleaved_flush_keeps_rows_delete :
    ∃ s, Along (step daily true) Quiet (opened ⟨[], []⟩ emptyTable 0) deleteBetweenRows ∧
      run (step daily true) (opened ⟨[], []⟩ emptyTable 0) deleteBetweenRows = some s ∧
      s.mem.memtable = [⟨1, 1⟩] ∧ partRows s.store.parts = [⟨0, 0⟩] ∧ NoneDropped s := by
  have ha : Along (step daily true) Quiet (opened ⟨[], []⟩ emptyTable 0) deleteBetweenRows := by decide
  obtain ⟨s, hs, hm, hp⟩ := run_reaches (step daily true) (opened ⟨[], []⟩ emptyTable 0) deleteBetweenRows
    (fun s => s.mem.memtable = [⟨1, 1⟩] ∧ partRows s.store.parts = [⟨0, 0⟩]) (by decide)
  exact ⟨s, ha, hs, hm, hp, interleaved_flush_keeps_rows daily true _ _ 0 _ s ha hs⟩

/-- The second row ends after the delete has counted one, and is cleared with it. -/
def rowAfterCount : List Event :=
  [.begin false, .anchor, .rowBegin, .rowEnd 0,
    .enter .deleteRange, .check, .hook .keep, .count, .sort, .publish none,
    .rowBegin, .rowEnd 1, .clear, .leave, .commit false ⟨.keep, none⟩]

theorem delete_drops_committed_row : ∃ s, run (step daily true)
    (opened ⟨[], []⟩ emptyTable 0) rowAfterCount = some s ∧
      s.entered = [⟨0, 0⟩, ⟨1, 1⟩] ∧ s.mem.memtable = [] ∧ partRows s.store.parts = [⟨0, 0⟩] ∧
      s.undone = [] ∧ s.writer = .idle ∧ ¬NoneDropped s := by
  exact run_reaches (step daily true) (opened ⟨[], []⟩ emptyTable 0) rowAfterCount
    (fun s => s.entered = [⟨0, 0⟩, ⟨1, 1⟩] ∧ s.mem.memtable = [] ∧ partRows s.store.parts = [⟨0, 0⟩] ∧
      s.undone = [] ∧ s.writer = .idle ∧ ¬NoneDropped s) (by decide)

end QEngine.FlushRaces

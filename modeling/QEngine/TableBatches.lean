import QEngine.RedoLog

/-!
# Batches of one table

A batch appends rows to the memtable, one by one or in bulk, and ends in a commit or a
discard. A batch remembers the row count and the number of drains at its start, and a
discard cuts the memtable back to that point.
-/

namespace QEngine.TableBatches
open List RedoLog

/-- `skipLocal` is the answer of a hook whose owners hold the rows; any other
answer lets the flush go on. -/
inductive HookAnswer where
  | keep
  | skipLocal
  deriving DecidableEq

/-- `rowHook` says that the row hook is installed and the raw-block hook is not. -/
structure Config where
  schema : Schema
  blockPoints_pos : 0 < schema.blockPoints
  walOnly : Bool
  rowHook : Bool

structure Ingest extends Table where
  flushGen : ℕ
  hasLocal : Bool
  hasReceived : Bool
  calls : List (List Row)
  deriving DecidableEq

structure Batch where
  baseNrows : ℕ
  beginFlushGen : ℕ
  localOnly : Bool
  deriving DecidableEq

/-- What a flush meets: the answer of the hook, and the number of partitions
it publishes before an I/O error, if there is one. -/
structure FlushRun where
  answer : HookAnswer
  stop : Option ℕ
  deriving DecidableEq

structure Done where
  ok : Bool
  store : Store
  mem : Ingest
  deriving DecidableEq

def Ingest.drained (t : Ingest) : Ingest :=
  { t with
      memtable := []
      memLogged := 0
      flushGen := t.flushGen+1
      hasLocal := false
      hasReceived := false }

def Ingest.offered (cfg : Config) (skipReplicate : Bool) (t : Ingest) : Ingest :=
  if skipReplicate = false ∧ cfg.rowHook = true then { t with calls := t.calls++[t.memtable] } else t

def skipsLocal (cfg : Config) (skipReplicate : Bool) (f : FlushRun) : Bool :=
  !skipReplicate && cfg.rowHook && f.answer == .skipLocal

def flushAndClearLocked (cfg : Config) (skipReplicate : Bool) (f : FlushRun) (d : Store) (t : Ingest) :
    Done :=
  if t.memtable = [] then ⟨true, d, t⟩
  else if t.walIncomplete then ⟨false, d, t⟩
  else if skipsLocal cfg skipReplicate f then
    ⟨true, { d with wal := [] }, (t.offered cfg skipReplicate).drained⟩
  else
    let ds := days cfg.schema t.memtable
    let reached := f.stop.getD ds.length
    let parts := publishDays cfg.schema t.commitSeq t.memtable (ds.take reached) d.parts
    if ds.length ≤ reached then ⟨true, ⟨parts, []⟩, (t.offered cfg skipReplicate).drained⟩
    else ⟨false, { d with parts := parts }, t.offered cfg skipReplicate⟩

/-- Before a row: a full memtable is flushed, and a large one when the tables
together are over their budget. -/
def maybeFlush (cfg : Config) (skipReplicate overBudget : Bool) (f : FlushRun) (d : Store) (t : Ingest) :
    Done :=
  if cfg.schema.blockPoints ≤ t.memtable.length then flushAndClearLocked cfg skipReplicate f d t
  else if overBudget = true ∧ 2048 ≤ t.memtable.length then flushAndClearLocked cfg skipReplicate f d t
  else ⟨true, d, t⟩

def batchBegin (localOnly : Bool) (t : Ingest) : Batch := ⟨t.memtable.length, t.flushGen, localOnly⟩

def Ingest.marked (b : Batch) (t : Ingest) : Ingest :=
  if b.localOnly then { t with hasReceived := true } else { t with hasLocal := true }

def batchRow (cfg : Config) (b : Batch) (overBudget : Bool) (f : FlushRun) (r : Row) (d : Store)
    (t : Ingest) : Done :=
  let o := maybeFlush cfg b.localOnly overBudget f d t
  if o.ok = false then o
  else if cfg.schema.blockPoints ≤ o.mem.memtable.length then { o with ok := false }
  else { o with mem := Ingest.marked b { o.mem with memtable := o.mem.memtable++[r] } }

def appendBulkRaw (cfg : Config) (rows : List Row) (d : Store) (t : Ingest) : Done :=
  if cfg.schema.blockPoints < t.memtable.length+rows.length then ⟨false, d, t⟩
  else ⟨true, d, { t with memtable := t.memtable++rows }⟩

/-- The loop over the chunks of a bulk append; `fuel` bounds their number, and
`fs` are the flushes by the number of rows left. -/
def appendChunks (cfg : Config) (b : Batch) (fs : ℕ → FlushRun) :
    ℕ → List Row → Store → Ingest → Done
  | 0, _, d, t => ⟨true, d, t⟩
  | fuel+1, rows, d, t =>
    if rows = [] then ⟨true, d, t⟩
    else
      let avail := cfg.schema.blockPoints-t.memtable.length
      let o := if avail = 0 then flushAndClearLocked cfg b.localOnly (fs rows.length) d t else ⟨true, d, t⟩
      if o.ok = false then o
      else
        let chunk := if avail = 0 then cfg.schema.blockPoints else avail
        let a := appendBulkRaw cfg (rows.take chunk) o.store o.mem
        if a.ok = false then a
        else appendChunks cfg b fs fuel (rows.drop chunk) a.store a.mem

/-- A batch that fits a memtable but not the space left is preceded by a
flush, after which the batch takes its start anew. -/
def batchAppendBulk (cfg : Config) (b : Batch) (f : FlushRun) (fs : ℕ → FlushRun) (rows : List Row)
    (d : Store) (t : Ingest) : Done × Batch :=
  if rows = [] then (⟨true, d, t⟩, b)
  else
    let whole := rows.length ≤ cfg.schema.blockPoints ∧ 0 < t.memtable.length ∧
      cfg.schema.blockPoints < t.memtable.length+rows.length
    let o := if whole then flushAndClearLocked cfg b.localOnly f d t else ⟨true, d, t⟩
    if o.ok = false then (o, b)
    else
      let b := if whole then { b with baseNrows := 0, beginFlushGen := o.mem.flushGen } else b
      let a := appendChunks cfg b fs rows.length rows o.store o.mem
      if a.ok = true ∧ a.mem.memtable ≠ [] then ({ a with mem := Ingest.marked b a.mem }, b)
      else (a, b)

/-- `walFails` is an error of the log, in one mode of its append and in the
other of its sync. -/
def batchCommit (cfg : Config) (b : Batch) (walFails : Bool) (f : FlushRun) (d : Store) (t : Ingest) :
    Done :=
  if cfg.walOnly then
    if walFails = true ∧ t.memLogged < t.memtable.length then ⟨false, d, t⟩
    else
      match redoLog d t.toTable with
      | none => ⟨false, d, t⟩
      | some (d, u) => ⟨true, d, { t with toTable := u }⟩
  else
    let o := flushAndClearLocked cfg b.localOnly f d t
    if walFails then { o with ok := false } else o

def truncateTo (n : ℕ) (t : Ingest) : Ingest :=
  if t.memtable.length < n then t else { t with memtable := t.memtable.take n }

def batchDiscard (b : Batch) (t : Ingest) : Ingest :=
  truncateTo (if t.flushGen ≠ b.beginFlushGen then 0 else b.baseNrows) t

def rowsFrom : ℕ → List ℤ → List Row
  | _, [] => []
  | id, ts::tss => ⟨id, ts⟩::rowsFrom (id+1) tss

def OwnTail (t : Ingest) (b : Batch) (own : Row → Prop) : Prop :=
  b.beginFlushGen ≤ t.flushGen ∧
  ∀ r ∈ t.memtable.drop (if t.flushGen ≠ b.beginFlushGen then 0 else b.baseNrows), own r

def Drains (t t' : Ingest) : Prop :=
  (t'.memtable = t.memtable ∧ t'.flushGen = t.flushGen) ∨
  (t'.memtable = [] ∧ t'.flushGen = t.flushGen+1)

inductive Flushed (cfg : Config) (skipReplicate : Bool) (f : FlushRun) (d : Store) (t : Ingest) :
    Done → Prop
  | empty (h : t.memtable = []) : Flushed cfg skipReplicate f d t ⟨true, d, t⟩
  | frozen (h : t.walIncomplete = true) : Flushed cfg skipReplicate f d t ⟨false, d, t⟩
  | skipped (hs : skipsLocal cfg skipReplicate f = true) :
    Flushed cfg skipReplicate f d t ⟨true, { d with wal := [] }, (t.offered cfg skipReplicate).drained⟩
  | published (parts : List Part) (hm : t.memtable ≠ []) (hs : skipsLocal cfg skipReplicate f = false)
    (hp : (partRows parts).Perm (partRows d.parts++t.memtable)) :
    Flushed cfg skipReplicate f d t ⟨true, ⟨parts, []⟩, (t.offered cfg skipReplicate).drained⟩
  | stopped (parts : List Part) (k : ℕ) (hk : f.stop = some k)
    (hp : (partRows parts).Perm (partRows d.parts++
      t.memtable.filter fun r => partIndex cfg.schema.unit r.ts ∈ (days cfg.schema t.memtable).take k)) :
    Flushed cfg skipReplicate f d t ⟨false, { d with parts := parts }, t.offered cfg skipReplicate⟩

variable {rows : List Row}

theorem take_days_nodup {sc : Schema} (k : ℕ) : ((days sc rows).take k).Nodup :=
  (days_nodup sc _).sublist (take_sublist k _)

theorem publishDays_all {sc : Schema} {hwm : ℕ} {parts : List Part} {k : ℕ}
    (hk : (days sc rows).length ≤ k) :
    (partRows (publishDays sc hwm rows ((days sc rows).take k) parts)).Perm (partRows parts++rows) := by
  rw [take_of_length_le hk]
  refine (publishDays_rows sc hwm rows parts (days_nodup sc rows)).trans ?_
  rw [filter_eq_self.mpr]
  intro r hr
  exact decide_eq_true ((mem_days sc rows _).mpr ⟨r, hr, rfl⟩)

theorem flush_flushed (cfg : Config) (skipReplicate : Bool) (f : FlushRun) (d : Store) (t : Ingest) :
    Flushed cfg skipReplicate f d t (flushAndClearLocked cfg skipReplicate f d t) := by
  rw [flushAndClearLocked]
  dsimp only
  split_ifs with he hw hs hk
  · exact .empty he
  · exact .frozen hw
  · exact .skipped hs
  · exact .published _ he (Bool.eq_false_iff.mpr hs) (publishDays_all hk)
  cases hf : f.stop with
  | none =>
    rw [hf] at hk
    exact absurd (le_refl _) hk
  | some k =>
    exact .stopped _ k hf (publishDays_rows _ _ _ _ (take_days_nodup k))

section
variable {cfg : Config} {skip : Bool} {t : Ingest}

@[simp] theorem drained_memtable : t.drained.memtable = [] := rfl

@[simp] theorem drained_flushGen : t.drained.flushGen = t.flushGen+1 := rfl

@[simp] theorem offered_toTable : (t.offered cfg skip).toTable = t.toTable := by
  rw [Ingest.offered]
  split_ifs <;> rfl

@[simp] theorem offered_flushGen : (t.offered cfg skip).flushGen = t.flushGen := by
  rw [Ingest.offered]
  split_ifs <;> rfl

@[simp] theorem marked_toTable (b : Batch) : (t.marked b).toTable = t.toTable := by
  rw [Ingest.marked]
  split_ifs <;> rfl

@[simp] theorem marked_flushGen (b : Batch) : (t.marked b).flushGen = t.flushGen := by
  rw [Ingest.marked]
  split_ifs <;> rfl

@[simp] theorem marked_calls (b : Batch) : (t.marked b).calls = t.calls := by
  rw [Ingest.marked]
  split_ifs <;> rfl

end

theorem commit_logged {cfg : Config} (hw : cfg.walOnly = true) (b : Batch) (walFails : Bool) (f : FlushRun)
    (d : Store) (t : Ingest) : batchCommit cfg b walFails f d t = ⟨false, d, t⟩ ∨
    ∃ d' u, redoLog d t.toTable = some (d', u) ∧
      batchCommit cfg b walFails f d t = ⟨true, d', { t with toTable := u }⟩ := by
  rw [batchCommit, if_pos hw]
  split_ifs with hf
  · exact .inl rfl
  cases hr : redoLog d t.toTable with
  | none => exact .inl rfl
  | some du => exact .inr ⟨du.1, du.2, rfl, rfl⟩

theorem mem_rowsFrom {id : ℕ} {tss : List ℤ} {r : Row} (h : r ∈ rowsFrom id tss) :
    id ≤ r.id ∧ r.id < id+tss.length := by
  induction tss generalizing id with
  | nil => cases h
  | cons ts tss ih =>
    rcases mem_cons.mp h with rfl | h
    · exact ⟨le_refl _, by simp⟩
    have := ih h
    rw [length_cons]
    omega

section
variable {cfg : Config} {skip : Bool} {f : FlushRun} {d : Store} {t t' : Ingest} {o : Done} {b : Batch}
  {own : Row → Prop}

theorem ownTail_drains (h : OwnTail t b own) (hd : Drains t t') : OwnTail t' b own := by
  rcases hd with ⟨hm, hg⟩ | ⟨hm, hg⟩
  · rw [OwnTail, hm, hg]
    exact h
  refine ⟨by have := h.1; omega, ?_⟩
  intro r hr
  rw [hm, drop_nil] at hr
  cases hr

theorem ownTail_append {rows : List Row} (h : OwnTail t b own) (hr : ∀ r ∈ rows, own r) :
    OwnTail { t with memtable := t.memtable++rows } b own := by
  refine ⟨h.1, ?_⟩
  intro r hm
  rw [drop_append] at hm
  rcases mem_append.mp hm with hm | hm
  · exact h.2 r hm
  · exact hr r (mem_of_mem_drop hm)

theorem ownTail_marked {c : Batch} (h : OwnTail t b own) : OwnTail (t.marked c) b own := by
  rw [OwnTail, marked_flushGen, marked_toTable]
  exact h

theorem flushed_drains (h : Flushed cfg skip f d t o) : Drains t o.mem := by
  cases h with
  | empty h | frozen h => exact .inl ⟨rfl, rfl⟩
  | skipped hs | published parts hm hs hp => exact .inr ⟨rfl, by simp⟩
  | stopped parts k hk hp => exact .inl ⟨by simp, by simp⟩

theorem flushed_ok_empty (h : Flushed cfg skip f d t o) (ho : o.ok = true) : o.mem.memtable = [] := by
  cases h with
  | empty he => exact he
  | frozen _ => cases ho
  | skipped _ => rfl
  | published _ _ _ _ => rfl
  | stopped _ _ _ _ => cases ho

/-- Where the flush of the log's model ends, for the partitions `ds` of the memtable. -/
def FlushRun.ending (f : FlushRun) (ds : List ℤ) : FlushEnd :=
  match f.stop with
  | none => .done
  | some k => if ds.length ≤ k then .done else .fails (ds.take k)

def Done.outcome (o : Done) : Outcome :=
  if o.ok then .ok o.store o.mem.toTable else .failed o.store o.mem.toTable

theorem filter_take {ds : List ℤ} (h : ds.Nodup) (k : ℕ) : ds.filter (· ∈ ds.take k) = ds.take k := by
  have hsplit : (ds.take k++ds.drop k).Nodup := by rwa [take_append_drop]
  have hdrop : (ds.drop k).filter (· ∈ ds.take k) = [] := by
    rw [filter_eq_nil_iff]
    intro d hd hin
    exact (nodup_append.mp hsplit).2.2 d (of_decide_eq_true hin) d hd rfl
  calc ds.filter (· ∈ ds.take k) = (ds.take k++ds.drop k).filter (· ∈ ds.take k) := by rw [take_append_drop]
    _ =
      ds.take k := by rw [filter_append, hdrop, append_nil, filter_eq_self.mpr fun d hd => decide_eq_true hd]

/-- Without a hook that keeps the rows away, this flush is the one of the log's model. -/
theorem flushAndClear_locked (hs : skipsLocal cfg skip f = false) :
    flushAndClear cfg.schema false (f.ending (days cfg.schema t.memtable)) d t.toTable =
      (flushAndClearLocked cfg skip f d t).outcome := by
  rw [flushAndClear, flushAndClearLocked]
  by_cases he : t.memtable = []
  · rw [if_pos he, if_pos he]
    rfl
  rw [if_neg he, if_neg he]
  by_cases hw : t.walIncomplete = true
  · rw [if_pos hw, if_pos hw]
    rfl
  rw [if_neg hw, if_neg hw, hs, if_neg Bool.false_ne_true, FlushRun.ending]
  dsimp only
  cases f.stop with
  | none =>
    rw [Option.getD_none, if_pos (le_refl _), take_length]
    simp [Done.outcome, Ingest.drained]
  | some k =>
    rw [Option.getD_some]
    dsimp only
    by_cases hk : (days cfg.schema t.memtable).length ≤ k
    · rw [if_pos hk, if_pos hk, take_of_length_le hk]
      simp [Done.outcome, Ingest.drained]
    · rw [if_neg hk, if_neg hk]
      simp [Done.outcome, filter_take (days_nodup cfg.schema t.memtable)]

end

end QEngine.TableBatches

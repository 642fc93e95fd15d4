import QEngine.StepRuns
import QEngine.RedoLog

/-!
# What recovery keeps

A stamp on a partition is right when it holds every row of that partition that was
logged up to the stamp. To keep this, the directory a row is looked up in must be the
one a flush puts it into, which fails just before a boundary in negative time.
-/

namespace QEngine.RedoRecovery
open Option List StepRuns RedoLog

variable (sc : Schema)

def Covered (parts : List Part) (r : Record) : Prop := r.seq ≤ recCutoff sc.unit parts r.rows

instance (parts : List Part) (r : Record) : Decidable (Covered sc parts r) :=
  inferInstanceAs (Decidable (r.seq ≤ recCutoff sc.unit parts r.rows))

def pending (parts : List Part) (wal : List Record) : List Row :=
  (wal.filter fun r => ¬Covered sc parts r).flatMap Record.rows

def walRows (wal : List Record) : List Row := wal.flatMap Record.rows

variable {sc}

theorem min?_le {xs : List ℕ} {x : ℕ} (h : x ∈ xs) : xs.min?.getD 0 ≤ x := by
  cases hm : xs.min? with
  | none =>
    rw [min?_eq_none_iff.mp hm] at h
    cases h
  | some m =>
    have hle := min?_eq_some_iff.mp hm
    exact hle.2 x h

variable {parts : List Part}

variable {db : Db} {r : Record} {x : Row} {parts' : List Part} {wal : List Record}
  {acked : List Row}

theorem covered_row (h : Covered sc parts r)
    (hx : x ∈ r.rows) : r.seq ≤ checkpoint parts (partName sc.unit x.ts) :=
  le_trans h (min?_le (mem_map_of_mem hx))

theorem covered_of_rows (hne : r.rows ≠ [])
    (h : ∀ x ∈ r.rows, r.seq ≤ checkpoint parts (partName sc.unit x.ts)) : Covered sc parts r := by
  unfold Covered recCutoff
  cases hm : (r.rows.map fun x => checkpoint parts (partName sc.unit x.ts)).min? with
  | none =>
    rw [min?_eq_none_iff, map_eq_nil_iff] at hm
    exact absurd hm hne
  | some m =>
    obtain ⟨hmem, -⟩ := min?_eq_some_iff.mp hm
    obtain ⟨x, hx, rfl⟩ := mem_map.mp hmem
    exact h x hx

theorem pending_row (hr : r ∈ wal) (hx : x ∈ r.rows) (h : checkpoint parts (partName sc.unit x.ts) < r.seq) :
    x ∈ pending sc parts wal := by
  refine mem_flatMap.mpr ⟨r, mem_filter.mpr ⟨hr, ?_⟩, hx⟩
  refine decide_eq_true fun hc => ?_
  have := covered_row hc hx
  omega

theorem pending_subset {parts : List Part} : ∀ x ∈ pending sc parts wal, x ∈ walRows wal := by
  intro x hx
  obtain ⟨r, hr, hxr⟩ := mem_flatMap.mp hx
  exact mem_flatMap.mpr ⟨r, (mem_filter.mp hr).1, hxr⟩

theorem covered_mono
    (hc : ∀ n, checkpoint parts n ≤ checkpoint parts' n) (h : Covered sc parts r) : Covered sc parts' r := by
  by_cases hne : r.rows = []
  · unfold Covered recCutoff at h ⊢
    rw [hne] at h ⊢
    exact h
  · exact covered_of_rows hne fun x hx => le_trans (covered_row h hx) (hc _)

theorem pending_mono (wal : List Record) (hc : ∀ n, checkpoint parts n ≤ checkpoint parts' n) :
    (pending sc parts' wal).Sublist (pending sc parts wal) := by
  refine List.Sublist.flatMap (monotone_filter_right wal ?_) _
  intro r hr
  have hr := of_decide_eq_true hr
  exact decide_eq_true fun h => hr (covered_mono hc h)

variable (sc) in
/-- The stamps of the partitions are right, and what remains of the log fits a memtable. -/
structure Sound (d : Store) : Prop where
  named : ∀ x ∈ walRows d.wal, Named sc.unit x.ts
  filled : ∀ r ∈ d.wal, r.rows ≠ []
  stamped : ∀ r ∈ d.wal, ∀ x ∈ r.rows,
    r.seq ≤ checkpoint d.parts (partName sc.unit x.ts) → x ∈ partRows d.parts
  fits : (pending sc d.parts d.wal).length ≤ sc.blockPoints

variable (sc) in
/-- An open table: what replay would put into the memtable is there already,
and what counts as logged is in the log. -/
structure Open (d : Store) (t : Table) (batch : List Row) : Prop where
  sound : Sound sc d
  complete : t.walIncomplete = false
  capacity : t.memtable.length ≤ sc.blockPoints
  named : ∀ x ∈ t.memtable, Named sc.unit x.ts
  front : t.memLogged ≤ t.memtable.length
  logged : (pending sc d.parts d.wal).Sublist (t.memtable.take t.memLogged)
  written : ∀ x ∈ t.memtable.take t.memLogged, x ∈ walRows d.wal
  stamps : ∀ n, checkpoint d.parts n ≤ t.commitSeq
  seqs : ∀ r ∈ d.wal, r.seq ≤ t.commitSeq
  unacked : ∀ x ∈ batch, x ∈ partRows d.parts ∨ x ∈ t.memtable

variable {d : Store} {t : Table} {batch : List Row}

variable (h : Open sc d t batch)

include h

theorem open_row (hx : x ∈ walRows d.wal) : x ∈ partRows d.parts ∨ x ∈ t.memtable := by
  obtain ⟨r, hr, hxr⟩ := mem_flatMap.mp hx
  by_cases hs : r.seq ≤ checkpoint d.parts (partName sc.unit x.ts)
  · exact .inl (h.sound.stamped r hr x hxr hs)
  · exact .inr (mem_of_mem_take (h.logged.subset (pending_row hr hxr (by omega))))

def published (sc : Schema) (d : Store) (t : Table) (p : ℤ → Bool) : List Part :=
  publishDays sc t.commitSeq t.memtable ((days sc t.memtable).filter p) d.parts

theorem publish_some (p : ℤ → Bool) :
    (∀ n, checkpoint (published sc d t p) n = if n ∈ (days sc t.memtable).filter p then
      max (checkpoint d.parts n) t.commitSeq else checkpoint d.parts n) ∧
    (partRows (published sc d t p)).Perm
    (partRows d.parts++t.memtable.filter fun r => p (partIndex sc.unit r.ts)) := by
  obtain ⟨hc, hp⟩ := publishDays_spec sc _ _
    h.named (fun e he => (mem_filter.mp he).1) ((days_nodup sc _).filter p)
  refine ⟨hc, hp.trans ?_⟩
  have hfilter : (t.memtable.filter fun r => partIndex sc.unit r.ts ∈ (days sc t.memtable).filter p) =
      t.memtable.filter fun r => p (partIndex sc.unit r.ts) := by
    apply filter_congr
    intro r hr
    have hday : partIndex sc.unit r.ts ∈ days sc t.memtable := (mem_days sc _ _).mpr ⟨r, hr, rfl⟩
    simp [mem_filter, hday]
  rw [hfilter]

theorem publish_mono (p : ℤ → Bool) (n : ℤ) : checkpoint d.parts n ≤ checkpoint (published sc d t p) n := by
  rw [(publish_some h p).1]
  split_ifs <;> omega

/-- Whatever buckets a flush publishes before it ends, the table stays as it should be. -/
theorem open_publish (p : ℤ → Bool) : Open sc { d with parts := published sc d t p } t batch := by
  obtain ⟨hc, hp⟩ := publish_some h p
  have hmono := publish_mono h p
  generalize published sc d t p = parts at hc hp hmono
  have hkeep : ∀ x ∈ partRows d.parts, x ∈ partRows parts :=
    fun x hx => hp.symm.subset (mem_append_left _ hx)
  have hpend : (pending sc parts d.wal).Sublist (pending sc d.parts d.wal) := pending_mono _ hmono
  refine ⟨⟨h.sound.named, h.sound.filled, ?_, ?_⟩, h.complete, h.capacity, h.named, h.front,
    hpend.trans h.logged, h.written, ?_, h.seqs, ?_⟩
  · intro r hr x hx hs
    by_cases hold : r.seq ≤ checkpoint d.parts (partName sc.unit x.ts)
    · exact hkeep x (h.sound.stamped r hr x hx hold)
    · -- the stamp was raised by this flush, so the row was in the memtable and in a published bucket
      have hmem := mem_of_mem_take (h.logged.subset (pending_row hr hx (by omega)))
      have hday : partName sc.unit x.ts ∈ (days sc t.memtable).filter p := by
        by_contra hnot
        rw [hc, if_neg hnot] at hs
        exact hold hs
      rw [← h.named x hmem] at hday
      exact hp.symm.subset (mem_append_right _ (mem_filter.mpr ⟨hmem, (mem_filter.mp hday).2⟩))
  · exact le_trans hpend.length_le h.sound.fits
  · intro n
    have hn := h.stamps n
    rw [hc]
    split_ifs <;> omega
  · intro x hx
    exact (h.unacked x hx).imp (hkeep x) id

def Kept (d : Store) (acked : List Row) : Prop :=
  ∀ x ∈ acked, x ∈ partRows d.parts ∨ x ∈ walRows d.wal

theorem kept_publish (hk : Kept d acked) {p : ℤ → Bool} :
    Kept { d with parts := published sc d t p } acked := by
  intro x hx
  exact (hk x hx).imp (fun hp => (publish_some h p).2.symm.subset (mem_append_left _ hp)) id

theorem publish_all : (partRows (publishDays sc t.commitSeq t.memtable (days sc t.memtable) d.parts)).Perm
      (partRows d.parts++t.memtable) ∧
    ∀ n, checkpoint (publishDays sc t.commitSeq t.memtable (days sc t.memtable) d.parts) n ≤ t.commitSeq := by
  have hs := publish_some h fun _ => true
  have ho := (open_publish h (fun _ => true)).stamps
  rw [published, filter_eq_self.mpr fun _ _ => rfl] at hs ho
  rw [filter_eq_self.mpr fun _ _ => rfl] at hs
  exact ⟨hs.2, ho⟩

theorem open_done (hk : Kept d acked) :
    Open sc ⟨publishDays sc t.commitSeq t.memtable (days sc t.memtable) d.parts, []⟩
      { t with memtable := [], memLogged := 0 } batch ∧
    Kept ⟨publishDays sc t.commitSeq t.memtable (days sc t.memtable) d.parts, []⟩ acked := by
  obtain ⟨hp, hc⟩ := publish_all h
  have hin : ∀ x, x ∈ partRows d.parts ∨ x ∈ t.memtable →
      x ∈ partRows (publishDays sc t.commitSeq t.memtable (days sc t.memtable) d.parts) :=
    fun x hx => hp.symm.subset (mem_append.mpr hx)
  have hsound : Sound sc ⟨publishDays sc t.commitSeq t.memtable (days sc t.memtable) d.parts, []⟩ :=
    ⟨by simp [walRows], by simp, by simp, by simp [pending]⟩
  refine ⟨⟨hsound, h.complete,
    Nat.zero_le _, by simp, le_refl _, by simp [pending], by simp, hc, by simp, ?_⟩, ?_⟩
  · intro x hx
    exact .inl (hin x (h.unacked x hx))
  intro x hx
  left
  obtain hpart | hwal := hk x hx
  · exact hin x (.inl hpart)
  · exact hin x (open_row h hwal)

variable (sc) in
def Good (batch acked : List Row) : Outcome → Prop
  | .ok d t => Open sc d t batch ∧ Kept d acked
  | .failed d t => Open sc d t batch ∧ Kept d acked
  | .crashed d => Sound sc d ∧ Kept d acked

theorem flush_good (hk : Kept d acked) (e : FlushEnd) :
    Good sc batch acked (flushAndClear sc false e d t) := by
  rw [flushAndClear]
  by_cases hm : t.memtable = []
  · rw [if_pos hm]
    exact ⟨h, hk⟩
  rw [if_neg hm, if_neg (by simp [h.complete])]
  cases e with
  | done => exact open_done h hk
  | fails gone => exact ⟨open_publish h _, kept_publish h hk⟩
  | crashes gone => exact ⟨(open_publish h _).sound, kept_publish h hk⟩

theorem checkpoint_new {rows : List Row} (hne : rows ≠ []) : ¬Covered sc d.parts ⟨t.commitSeq+1, rows⟩ := by
  obtain ⟨x, hx⟩ := exists_mem_of_ne_nil rows hne
  intro hc
  have h1 := covered_row hc hx
  have h2 := h.stamps (partName sc.unit x.ts)
  dsimp only at h1
  omega

omit h in
theorem pending_append {parts : List Part} (wal : List Record)
    (hr : ¬Covered sc parts r) : pending sc parts (wal++[r]) = pending sc parts wal++r.rows := by
  simp [pending, hr]

theorem redoLog_open : ∃ d' t', redoLog d t = some (d', t') ∧ Open sc d' t' [] ∧ d'.parts = d.parts ∧
      t'.memtable = t.memtable ∧ (∀ x ∈ walRows d.wal, x ∈ walRows d'.wal) ∧
      ∀ x ∈ t.memtable, x ∈ walRows d'.wal := by
  rw [redoLog, if_neg (by simp [h.complete])]
  by_cases hle : t.memtable.length ≤ t.memLogged
  · rw [if_pos hle]
    refine ⟨d, t, rfl,
      ⟨h.sound, h.complete, h.capacity, h.named, h.front, h.logged, h.written, h.stamps, h.seqs, ?_⟩,
      rfl, rfl, fun _ hx => hx, ?_⟩
    · intro x hx
      cases hx
    intro x hx
    apply h.written
    rwa [take_of_length_le hle]
  rw [if_neg hle]
  have hne : t.memtable.drop t.memLogged ≠ [] := by
    intro he
    rw [drop_eq_nil_iff] at he
    omega
  have hnew := checkpoint_new h hne
  have hpend := pending_append d.wal hnew
  have hsub : (pending sc d.parts (d.wal++[⟨t.commitSeq+1, t.memtable.drop t.memLogged⟩])).Sublist
    t.memtable := by
    have hs := h.logged.append_right (t.memtable.drop t.memLogged)
    rw [take_append_drop] at hs
    rw [hpend]
    exact hs
  have hwal : ∀ x, x ∈ walRows (d.wal++[⟨t.commitSeq+1, t.memtable.drop t.memLogged⟩]) ↔
      x ∈ walRows d.wal ∨ x ∈ t.memtable.drop t.memLogged := by
    intro x
    simp [walRows]
  have hall : ∀ x ∈ t.memtable, x ∈ walRows (d.wal++[⟨t.commitSeq+1, t.memtable.drop t.memLogged⟩]) := by
    intro x hx
    rw [← take_append_drop t.memLogged t.memtable] at hx
    exact (hwal x).mpr ((mem_append.mp hx).imp (h.written x) id)
  refine ⟨_, _, rfl,
    ⟨⟨?_, ?_, ?_, le_trans hsub.length_le h.capacity⟩, h.complete, h.capacity, h.named, le_refl _, ?_, ?_,
    ?_, ?_, ?_⟩,
    rfl, rfl, fun x hx => (hwal x).mpr (.inl hx), hall⟩
  · intro x hx
    exact ((hwal x).mp hx).elim (h.sound.named x) fun hm => h.named x (mem_of_mem_drop hm)
  · intro r hr
    obtain hr | hr := mem_append.mp hr
    · exact h.sound.filled r hr
    · rw [mem_singleton.mp hr]
      exact hne
  · intro r hr x hx hs
    obtain hr | hr := mem_append.mp hr
    · exact h.sound.stamped r hr x hx hs
    rw [mem_singleton.mp hr] at hs
    have := h.stamps (partName sc.unit x.ts)
    dsimp only at hs
    omega
  · rw [take_length]
    exact hsub
  · intro x hx
    exact hall x (mem_of_mem_take hx)
  · intro n
    exact le_trans (h.stamps n) (Nat.le_succ _)
  · intro r hr
    obtain hr | hr := mem_append.mp hr
    · exact le_trans (h.seqs r hr) (Nat.le_succ _)
    · rw [mem_singleton.mp hr]
  · intro x hx
    cases hx

omit h

theorem redoLog_frame {d' : Store} {t' : Table} (h : redoLog d t = some (d', t')) :
    t'.memtable = t.memtable ∧ d'.parts = d.parts ∧ ∀ x ∈ walRows d'.wal, x ∈ walRows d.wal ∨
    x ∈ t.memtable := by
  rw [redoLog] at h
  split_ifs at h
  · obtain ⟨rfl, rfl⟩ := Prod.mk.inj (Option.some.inj h)
    exact ⟨rfl, rfl, fun x hx => .inl hx⟩
  obtain ⟨rfl, rfl⟩ := Prod.mk.inj (Option.some.inj h)
  refine ⟨rfl, rfl, fun x hx => ?_⟩
  rw [walRows, flatMap_append] at hx
  rcases mem_append.mp hx with hx | hx
  · exact .inl hx
  · exact .inr (mem_of_mem_drop (by simpa using hx))

theorem pending_cons (cps : List Part) (r : Record) (rs : List Record) :
    pending sc cps (r::rs) =
      if Covered sc cps r then pending sc cps rs else r.rows++pending sc cps rs := by
  by_cases h : Covered sc cps r
  · simp [pending, h]
  · simp [pending, h]

theorem replayApply_fits {cps : List Part} (e : FlushEnd) {s : Replay}
    (h : ¬Covered sc cps r → s.table.memtable.length+r.rows.length ≤ sc.blockPoints) :
    ∃ last, replayApply sc cps e r s = .complete ⟨s.store, { s.table with
      memtable := if Covered sc cps r then s.table.memtable else s.table.memtable++r.rows },
      last, max s.maxSeq r.seq⟩ := by
  rw [replayApply]
  by_cases hc : Covered sc cps r
  · have hseq : r.seq ≤ recCutoff sc.unit cps r.rows := hc
    exact ⟨s.lastComplete, by simp only [if_pos hc, if_pos hseq]⟩
  have hseq : ¬r.seq ≤ recCutoff sc.unit cps r.rows := hc
  have hfit := h hc
  refine ⟨r.seq, ?_⟩
  simp only [if_neg hc, if_neg hseq]
  rw [if_neg (by omega), applyRows]
  dsimp only
  rw [if_pos (by omega), take_of_length_le (by omega)]

theorem walReplay_fits (cps : List Part) (ends : ℕ → FlushEnd) (rs : List Record) (s : Replay)
    (h : s.table.memtable.length+(pending sc cps rs).length ≤ sc.blockPoints) :
    ∃ last high, walReplay sc cps ends rs s = .complete ⟨s.store, { s.table with
        memtable := s.table.memtable++pending sc cps rs }, last, high⟩ ∧
      s.maxSeq ≤ high ∧ ∀ r ∈ rs, r.seq ≤ high := by
  induction rs generalizing s with
  | nil => exact ⟨s.lastComplete, s.maxSeq, by simp [walReplay, pending], le_refl _, by simp⟩
  | cons r rs ih =>
    rw [pending_cons] at h ⊢
    have hfit : ¬Covered sc cps r → s.table.memtable.length+r.rows.length ≤ sc.blockPoints := by
      intro hc
      rw [if_neg hc, length_append] at h
      omega
    obtain ⟨last, hr⟩ := replayApply_fits _ hfit
    rw [walReplay, hr]
    by_cases hc : Covered sc cps r
    · rw [if_pos hc] at h
      simp only [if_pos hc]
      obtain ⟨last2, high, hrun, hle, hall⟩ := ih ⟨s.store, s.table, last, max s.maxSeq r.seq⟩ h
      refine ⟨last2, high, hrun, by dsimp only at hle; omega, ?_⟩
      intro q hq
      obtain rfl | hq := mem_cons.mp hq
      · dsimp only at hle
        omega
      · exact hall q hq
    rw [if_neg hc, length_append] at h
    simp only [if_neg hc]
    obtain ⟨last2, high, hrun, hle, hall⟩ :=
      ih ⟨s.store, { s.table with memtable := s.table.memtable++r.rows },
      last, max s.maxSeq r.seq⟩ (by rw [length_append]; omega)
    dsimp only at hrun hle
    rw [append_assoc] at hrun
    refine ⟨last2, high, hrun, by omega, ?_⟩
    intro q hq
    obtain rfl | hq := mem_cons.mp hq
    · omega
    · exact hall q hq

theorem checkpoint_le (parts : List Part) (n : ℤ) : checkpoint parts n ≤ maxSeq (parts.map Part.maxSeq) := by
  induction parts with
  | nil => exact le_refl _
  | cons p ps ih =>
    rw [checkpoint, map_cons, maxSeq, foldr_cons]
    rw [maxSeq] at ih
    split_ifs <;> omega

theorem recover_open (ends : ℕ → FlushEnd) {d : Store} (h : Sound sc d) :
    ∃ t, redoRecover sc ends d = (d, some t) ∧ Open sc d t [] ∧ t.memtable = pending sc d.parts d.wal := by
  obtain ⟨last, high, hrun, -, hall⟩ := walReplay_fits _ ends d.wal
    ⟨d, ⟨[], 0, 0, false⟩, maxSeq (d.parts.map Part.maxSeq), 0⟩ (by simpa using h.fits)
  simp only [nil_append] at hrun
  refine ⟨⟨pending sc d.parts d.wal, (pending sc d.parts d.wal).length,
    max 0 (max high (maxSeq (d.parts.map Part.maxSeq))), false⟩, ?_, ?_, rfl⟩
  · simp only [redoRecover, hrun]
  refine ⟨h, rfl, h.fits, ?_, le_refl _, ?_, ?_, ?_, ?_, by simp⟩
  · intro x hx
    exact h.named x (pending_subset x hx)
  · rw [take_length]
  · intro x hx
    exact pending_subset x (mem_of_mem_take hx)
  · intro n
    have := checkpoint_le d.parts n
    dsimp only
    omega
  · intro r hr
    have := hall r hr
    dsimp only
    omega

variable (sc) in
def Held (db : Db) : Prop :=
  Kept db.store db.acked ∧
    match db.table with
    | none => Sound sc db.store ∧ db.batch = []
    | some t => Open sc db.store t db.batch

theorem held_after {o : Outcome} (h : Good sc db.batch db.acked o) : Held sc (db.after o) := by
  cases o with
  | ok d t | failed d t => exact ⟨h.2, h.1⟩
  | crashed d => exact ⟨h.2, h.1, rfl⟩

theorem open_append (h : Open sc d t batch) (x : Row)
    (hx : Named sc.unit x.ts) (hroom : t.memtable.length < sc.blockPoints) :
    Open sc d { t with memtable := t.memtable++[x] } (batch++[x]) := by
  have htake : (t.memtable++[x]).take t.memLogged = t.memtable.take t.memLogged :=
    take_append_of_le_length h.front
  have hf := h.front
  refine ⟨h.sound, h.complete, ?_, ?_, ?_, ?_, ?_, h.stamps, h.seqs, ?_⟩
  · simpa using hroom
  · intro y hy
    obtain hy | hy := mem_append.mp hy
    · exact h.named y hy
    · rw [mem_singleton.mp hy]
      exact hx
  · simp only [length_append]
    omega
  · rw [htake]
    exact h.logged
  · rw [htake]
    exact h.written
  · intro y hy
    obtain hy | hy := mem_append.mp hy
    · exact (h.unacked y hy).imp id fun hm => mem_append_left _ hm
    · exact .inr (mem_append_right _ hy)

variable (sc) in
/-- The condition on a step: the bucket of a new row has the name the row is looked up by. -/
def RowNamed (_ : Db) : Event → Prop
  | .row ts _ => Named sc.unit ts
  | _ => True

theorem addRow_held (ts : ℤ) (e : FlushEnd) (ho : Open sc db.store t db.batch)
    (hk : Kept db.store db.acked) (hn : Named sc.unit ts) : Held sc (addRow sc ts e db t) := by
  rw [addRow]
  have hgood : Good sc db.batch db.acked (if sc.blockPoints ≤ t.memtable.length then
      flushAndClear sc false e db.store t else .ok db.store t) := by
    split_ifs
    · exact flush_good ho hk e
    · exact ⟨ho, hk⟩
  generalize (if sc.blockPoints ≤ t.memtable.length then
    flushAndClear sc false e db.store t else .ok db.store t) = o at hgood
  cases o with
  | failed d t | crashed d => exact held_after hgood
  | ok d t =>
    dsimp only
    split_ifs with hfull
    · exact held_after (o := .failed d t) hgood
    · exact ⟨hgood.2, open_append hgood.1 _ hn (by omega)⟩

theorem step_held {db' : Db} {ev : Event} (h : Held sc db) (hok : RowNamed sc db ev)
    (hs : step sc db ev = some db') : Held sc db' := by
  obtain ⟨hk, hstate⟩ := h
  cases ht : db.table with
  | none =>
    rw [ht] at hstate
    obtain ⟨hsound, hbatch⟩ := hstate
    cases ev with
    | crash =>
      cases hs
      exact ⟨hk, hsound, rfl⟩
    | reopen ends =>
      obtain ⟨t, hrec, hopen, -⟩ := recover_open ends hsound
      simp only [step, ht, hrec] at hs
      cases hs
      refine ⟨hk, ?_⟩
      rw [hbatch]
      exact hopen
    | row ts e | commit | commitCrash | flush e => simp [step, ht] at hs
  | some t =>
    rw [ht] at hstate
    cases ev with
    | crash =>
      cases hs
      exact ⟨hk, hstate.sound, rfl⟩
    | reopen ends => simp [step, ht] at hs
    | row ts e =>
      simp only [step, ht, map_some] at hs
      cases hs
      exact addRow_held ts e hstate hk hok
    | flush e =>
      simp only [step, ht, map_some] at hs
      cases hs
      exact held_after (flush_good hstate hk e)
    | commit =>
      obtain ⟨d, t', hlog, hopen, hparts, -, hwal, hmem⟩ := redoLog_open hstate
      simp only [step, ht, map_some, hlog] at hs
      cases hs
      refine ⟨?_, hopen⟩
      intro x hx
      rw [hparts]
      obtain hx | hx := mem_append.mp hx
      · exact (hk x hx).imp id (hwal x)
      · exact (hstate.unacked x hx).imp id (hmem x)
    | commitCrash =>
      obtain ⟨d, t', hlog, hopen, hparts, -, hwal, -⟩ := redoLog_open hstate
      simp only [step, ht, map_some, hlog, getD_some] at hs
      cases hs
      refine ⟨?_, hopen.sound, rfl⟩
      intro x hx
      rw [hparts]
      exact (hk x hx).imp id (hwal x)

def NoLoss (db : Db) : Prop :=
  ∀ t, db.table = some t → ∀ x ∈ db.acked, x ∈ partRows db.store.parts ∨ x ∈ t.memtable

theorem held_noLoss (h : Held sc db) : NoLoss db := by
  intro t ht x hx
  obtain ⟨hk, hstate⟩ := h
  rw [ht] at hstate
  obtain hp | hw := hk x hx
  · exact .inl hp
  · exact open_row hstate hw

theorem held_created : Held sc created := by
  have hempty : ∀ x : Row, x ∉ created.acked := fun x hx => by cases hx
  refine ⟨fun x hx => absurd hx (hempty x), ?_⟩
  refine ⟨⟨by simp [walRows, created], by simp [created], by simp [created], by simp [pending, created]⟩,
    rfl,
      Nat.zero_le
      _, by simp, le_refl _, by simp [pending, created], by simp, ?_, by simp [created], by simp [created]⟩
  intro n
  exact le_refl _

instance (db : Db) (ev : Event) : Decidable (RowNamed sc db ev) :=
  match ev with
  | .row ts _ => inferInstanceAs (Decidable (Named sc.unit ts))
  | .commit | .commitCrash | .flush _ | .crash | .reopen _ => isTrue trivial

theorem run_held {evs : List Event} (hn : Along (step sc) (RowNamed sc) created evs)
    (hr : run (step sc) created evs = some db) : Held sc db :=
  run_invariant _ (fun _ _ _ h hok hs => step_held h hok hs) evs _ db
    held_created hn hr

/-- If every row has a time whose bucket and directory agree, no acknowledged
row is lost, and no reopen fails. -/
theorem acked_rows_survive (sc : Schema) (evs : List Event) (db : Db)
    (hn : Along (step sc) (RowNamed sc) created evs)
    (hr : run (step sc) created evs = some db) : NoLoss db ∧ ∀ ends, db.table = none →
      ∃ db', step sc db (.reopen ends) = some db' ∧ db'.table.isSome ∧ NoLoss db' := by
  have hheld := run_held hn hr
  refine ⟨held_noLoss hheld, ?_⟩
  intro ends ht
  obtain ⟨hk, hstate⟩ := hheld
  rw [ht] at hstate
  obtain ⟨t, hrec, hopen, -⟩ := recover_open ends hstate.1
  refine ⟨{ db with store := db.store, table := some t }, by simp only [step, ht, hrec], rfl, ?_⟩
  have hheld : Held sc { db with store := db.store, table := some t } := by
    refine ⟨hk, ?_⟩
    rw [hstate.2]
    exact hopen
  exact held_noLoss hheld

def byTime (blockPoints : ℕ) : Schema :=
  ⟨.day, blockPoints, List.insertionSort fun a b => a.ts ≤ b.ts, perm_insertionSort _⟩

theorem byTime_four_pos : 0 < (byTime 4).blockPoints := by decide

def tornFlush : List Event :=
  [.row 0 .done, .row 86400000000000 .done, .commit, .flush (.crashes [0])]

theorem acked_rows_survive_torn_flush : ∃ db, Along (step (byTime 4))
    (RowNamed (byTime 4)) created tornFlush ∧
      run (step (byTime 4)) created tornFlush = some db ∧ db.acked.length = 2 ∧ NoLoss db ∧ ∀ ends,
      db.table = none →
        ∃ db', step (byTime 4) db (.reopen ends) = some db' ∧ db'.table.isSome ∧ NoLoss db' := by
  have ha : Along (step (byTime 4)) (RowNamed (byTime 4)) created tornFlush := by decide
  obtain ⟨db, hr, hlen⟩ := run_reaches (step (byTime 4)) created tornFlush
    (fun db => db.acked.length = 2) (by decide)
  exact ⟨db, ha, hr, hlen, acked_rows_survive (byTime 4) tornFlush db ha hr⟩

/-- Half a second before the epoch has the bucket of the day before and the directory of the
epoch. -/
def lostRow : List Event :=
  [.row (-500000000) .done, .commit, .row 1000000000 .done, .commit, .flush (.crashes [-1]),
    .reopen fun _ => .done]

theorem shared_directory_loses_row : ∃ db, run (step (byTime 4)) created lostRow = some db ∧
      db.acked = [⟨0, -500000000⟩, ⟨1, 1000000000⟩] ∧ db.table = some ⟨[], 0, 2, false⟩ ∧
      partRows db.store.parts = [⟨0, -500000000⟩] ∧ ¬NoLoss db := by
  obtain ⟨db, hr, ha, ht, hp⟩ := run_reaches (step (byTime 4)) created lostRow
    (fun db => db.acked = [⟨0, -500000000⟩, ⟨1, 1000000000⟩] ∧ db.table = some ⟨[], 0, 2, false⟩ ∧
      partRows db.store.parts = [⟨0, -500000000⟩]) (by decide)
  refine ⟨db, hr, ha, ht, hp, ?_⟩
  intro h
  have hx := h _ ht ⟨1, 1000000000⟩ (by rw [ha]; decide)
  rw [hp] at hx
  exact absurd hx (by decide)

end QEngine.RedoRecovery

import QEngine.RedoRecovery

/-!
# Replays that are cut short

A record may have a layout that the schema no longer has, an allocation or the flush
before a record may fail. The replay then ends, and a second pass counts the records
with larger numbers that no checkpoint covers.
-/

namespace QEngine.RedoAborts
open List RedoLog RedoRecovery

/-- What goes wrong: records that cannot be walked, and the row of a record for
which there is no memory or whose setter refuses a column. -/
structure Faults where
  walks : Record → Bool
  nomem : ℕ → Option ℕ
  ends : ℕ → FlushEnd

def cutoff (f : Faults) (u : PartitionUnit) (parts : List Part) (r : Record) : ℕ :=
  if f.walks r then recCutoff u parts r.rows
  else (r.rows.head?.map fun x => checkpoint parts (partName u x.ts)).getD 0

def makeRoom (sc : Schema) (e : FlushEnd) (r : Record) (s : Replay) : Replayed :=
  if sc.blockPoints < s.table.memtable.length+r.rows.length ∧ 0 < s.table.memtable.length then
    match flushAndClear sc true e s.store { s.table with commitSeq := max s.lastComplete s.table.commitSeq } with
    | .ok d t => .complete { s with store := d, table := { t with memLogged := 0 } }
    | .failed d t => .aborted r.seq { s with store := d, table := t }
    | .crashed d => .crashed d
  else .complete s

def applyRecord (sc : Schema) (cps : List Part) (f : Faults) (r : Record) (s : Replay) : Replayed :=
  let s := { s with maxSeq := max s.maxSeq r.seq }
  if r.seq ≤ cutoff f sc.unit cps r then .complete s
  else if f.walks r = false then .aborted r.seq s
  else
    match makeRoom sc (f.ends r.seq) r s, f.nomem r.seq with
    | .complete s, none => applyRows sc r s
    | .complete s, some k =>
      .aborted r.seq { s with table := { s.table with
        memtable := s.table.memtable++r.rows.take (min k (sc.blockPoints-s.table.memtable.length)) } }
    | o, _ => o

def replayAll (sc : Schema) (cps : List Part) (f : Faults) : List Record → Replay → Replayed
  | [], s => .complete s
  | r::rs, s =>
    match applyRecord sc cps f r s with
    | .complete s => replayAll sc cps f rs s
    | o => o

def unread (sc : Schema) (f : Faults) (d : Store) (seq : ℕ) : List Record :=
  d.wal.filter fun r => seq+1 ≤ r.seq ∧ cutoff f sc.unit d.parts r < r.seq

def recoverAborted (sc : Schema) (f : Faults) (d : Store) : Option (Store × Table × ℕ) :=
  let top := maxSeq (d.parts.map Part.maxSeq)
  match replayAll sc d.parts f d.wal ⟨d, ⟨[], 0, 0, false⟩, top, 0⟩ with
  | .aborted seq s => some (s.store, { s.table with
    commitSeq := max s.table.commitSeq (max (max s.maxSeq top) (maxSeq (d.wal.map Record.seq)))
    memLogged := s.table.memtable.length
    walIncomplete := unread sc f d seq ≠ [] }, seq)
  | _ => none

/-- Without faults a record is applied as in the replay that runs to its end. -/
theorem applyRecord_plain (sc : Schema) (cps : List Part) (ends : ℕ → FlushEnd) (r : Record) (s : Replay) :
    applyRecord sc cps ⟨fun _ => true, fun _ => none, ends⟩ r s = replayApply sc cps (ends r.seq) r s := by
  rw [applyRecord, replayApply, cutoff]
  dsimp only
  rw [if_pos rfl, if_neg (show ¬ true = false by decide), makeRoom]
  by_cases hc : r.seq ≤ recCutoff sc.unit cps r.rows
  · rw [if_pos hc, if_pos hc]
  rw [if_neg hc, if_neg hc]
  split_ifs
  · dsimp only
    cases flushAndClear sc true (ends r.seq) s.store
      { s.table with commitSeq := max s.lastComplete s.table.commitSeq } <;> rfl
  · rfl

def Present (d : Store) (t : Table) (x : Row) : Prop := x ∈ t.memtable ∨ x ∈ partRows d.parts

variable (sc : Schema) (f : Faults)

/-! ### The record that aborts -/

def Adds (s : Replay) (xs : List Row) (t : Replay) : Prop :=
  ∀ x, Present t.store t.table x → Present s.store s.table x ∨ x ∈ xs

def FlushFrom (d : Store) (m : Table) : Outcome → Prop
  | .ok d' m' => ∀ x, Present d' m' x → Present d m x
  | .failed d' m' => ∀ x, Present d' m' x → Present d m x
  | .crashed _ => True

theorem flush_from (e : FlushEnd) (d : Store) (m : Table) : FlushFrom d m (flushAndClear sc true e d m) := by
  have hpub {ds : List ℤ} (hu : ds.Nodup) {x : Row}
      (h : x ∈ partRows (publishDays sc m.commitSeq m.memtable ds d.parts)) : Present d m x := by
    rw [(publishDays_rows sc _ _ _ hu).mem_iff, mem_append, mem_filter] at h
    exact h.symm.imp_left And.left
  rw [flushAndClear]
  by_cases h1 : m.memtable = []
  · rw [if_pos h1]
    exact fun x hx => hx
  by_cases h2 : m.walIncomplete
  · rw [if_neg h1, if_pos h2]
    exact fun x hx => hx
  rw [if_neg h1, if_neg h2]
  cases e with
  | crashes gone => trivial
  | fails gone => exact fun x hx => hx.elim .inl (hpub ((days_nodup sc _).filter _))
  | done => exact fun x hx => hx.elim (absurd · not_mem_nil) (hpub (days_nodup sc _))

theorem makeRoom_from (e : FlushEnd) (r : Record) (s : Replay) : match makeRoom sc e r s with
    | .complete t => Adds s [] t
    | .aborted q t => q = r.seq ∧ Adds s [] t
    | .crashed _ => True := by
  rw [makeRoom]
  split_ifs
  · have h := flush_from sc e s.store { s.table with commitSeq := max s.lastComplete s.table.commitSeq }
    generalize flushAndClear sc true e s.store _ = o at h
    cases o with
    | ok d m => exact fun x hx => .inl (h x hx)
    | failed d m => exact ⟨rfl, fun x hx => .inl (h x hx)⟩
    | crashed d => trivial
  · exact fun x hx => .inl hx

/-- A record that completes adds its rows, one that aborts not all of them. -/
def Applied (cut : ℕ) (r : Record) (s : Replay) : Replayed → Prop
  | .complete t => Adds s r.rows t
  | .aborted q t => q = r.seq ∧ cut < r.seq ∧ ∃ k < r.rows.length, Adds s (r.rows.take k) t
  | .crashed _ => True

theorem taken_from {s t : Replay} {xs : List Row} (h : Adds s [] t) :
    Adds s xs { t with table := { t.table with memtable := t.table.memtable++xs } } := by
  rintro x (hx | hx)
  · obtain hx | hx := mem_append.mp hx
    · exact (h x (.inl hx)).imp_right (fun h => by cases h)
    · exact .inr hx
  · exact (h x (.inr hx)).imp_right (fun h => by cases h)

theorem applyRecord_applied (cps : List Part) (r : Record) (s : Replay) (hne : r.rows ≠ [])
    (hk : ∀ k, f.nomem r.seq = some k → k < r.rows.length) :
    Applied (cutoff f sc.unit cps r) r s (applyRecord sc cps f r s) := by
  have hpos := length_pos_iff.mpr hne
  rw [applyRecord]
  by_cases hc : r.seq ≤ cutoff f sc.unit cps r
  · rw [if_pos hc]
    exact fun x hx => .inl hx
  have hlt := Nat.not_le.mp hc
  by_cases hw : f.walks r = false
  · rw [if_neg hc, if_pos hw]
    exact ⟨rfl, hlt, 0, hpos, fun x hx => .inl hx⟩
  rw [if_neg hc, if_neg hw]
  have h := makeRoom_from sc (f.ends r.seq) r { s with maxSeq := max s.maxSeq r.seq }
  generalize makeRoom sc (f.ends r.seq) r _ = o at h
  cases o with
  | crashed d => trivial
  | aborted q t => exact ⟨h.1, hlt, 0, hpos, h.2⟩
  | complete t =>
    cases hm : f.nomem r.seq with
    | some k => exact ⟨rfl, hlt, _, (min_le_left _ _).trans_lt (hk k hm), taken_from h⟩
    | none =>
      change Applied _ r s (applyRows sc r t)
      rw [applyRows]
      split_ifs with hroom
      · have hall := @taken_from _ t (r.rows.take (sc.blockPoints-t.table.memtable.length)) h
        rw [take_of_length_le hroom] at hall ⊢
        exact hall
      · exact ⟨rfl, hlt, _, Nat.not_le.mp hroom, taken_from h⟩

theorem replayAll_applied (cps : List Part)
    {rs : List Record} {s t : Replay} {q : ℕ} (hne : ∀ r ∈ rs, r.rows ≠ [])
    (hk : ∀ r ∈ rs, ∀ k, f.nomem r.seq = some k → k < r.rows.length)
    (h : replayAll sc cps f rs s = .aborted q t) :
    ∃ pre r post, rs = pre++r::post ∧ r.seq = q ∧ cutoff f sc.unit cps r < r.seq ∧
      ∃ k < r.rows.length, Adds s (pre.flatMap Record.rows++r.rows.take k) t := by
  induction rs generalizing s with
  | nil => cases h
  | cons r rs ih =>
    obtain ⟨hner, hners⟩ := forall_mem_cons.mp hne
    obtain ⟨hkr, hkrs⟩ := forall_mem_cons.mp hk
    have ha := applyRecord_applied sc f cps r s hner hkr
    rw [replayAll] at h
    generalize applyRecord sc cps f r s = o at h ha
    cases o with
    | crashed d => cases h
    | aborted q' t' =>
      cases h
      exact ⟨[], r, rs, rfl, ha.1.symm, ha.2⟩
    | complete t' =>
      obtain ⟨pre, r', post, rfl, hq, hc, k, hkl, hadds⟩ := ih hners hkrs h
      refine ⟨r::pre, r', post, rfl, hq, hc, k, hkl, fun x hx => ?_⟩
      rw [flatMap_cons, append_assoc, mem_append]
      rcases hadds x hx with hx | hx
      · exact (ha x hx).imp_right .inl
      · exact .inr (.inr hx)

def altered : Faults := ⟨fun r => r.seq ≠ 2, fun _ => none, fun _ => .done⟩

def twoRecords : Store := ⟨[], [⟨1, [⟨0, 5⟩]⟩, ⟨2, [⟨1, 6⟩]⟩]⟩

end QEngine.RedoAborts

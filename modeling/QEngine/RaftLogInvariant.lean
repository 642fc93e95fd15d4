import QEngine.RaftLogSegment
import QEngine.StepRuns

/-!
# The representation invariant of the Raft log

Appends, truncations and compactions are run from an empty log, and every
successful append is remembered. A truncation that removes the first record above
a snapshot restarts the indices at one and is the only operation after which the
log reports other entries.
-/

namespace QEngine.RaftLogInvariant
open List RaftLogRecord RaftLogSegment StepRuns

inductive LogOp where
  | append (d : Draft)
  | truncate (index : UInt64)
  | compact (snapIdx snapTerm : UInt64)
  deriving DecidableEq

structure History where
  log : RaftLog
  appended : List Entry

def History.start : History := ⟨RaftLog.empty, []⟩

def History.step (h : History) : LogOp → Option History
  | .append d =>
    match h.log.append d with
    | some (rl, idx) => some ⟨rl, h.appended++[d.entry idx]⟩
    | none => some h
  | .truncate index => some { h with log := h.log.truncate index.toNat }
  | .compact snapIdx snapTerm =>
    match h.log.compact snapIdx snapTerm with
    | some rl => some { h with log := rl }
    | none => some h

def mostRecent (es : List Entry) (index : ℕ) : Option Entry :=
  es.reverse.find? (fun e => e.index = index)

structure Sound (h : History) : Prop where
  snap_le : h.log.snapIndex ≤ h.log.lastIndex
  above : ∀ d rl idx, h.log.append d = some (rl, idx) → h.log.snapIndex < idx
  first_le : h.log.firstIndex ≤ h.log.lastIndex+1
  last_snap : h.log.lastIndex = h.log.snapIndex → h.log.lastTerm = h.log.snapTerm
  last_entry : ∀ e, h.log.snapIndex < h.log.lastIndex → h.log.read h.log.lastIndex = some e →
    h.log.lastTerm = e.term
  latest : ∀ index, h.log.snapIndex < index → index ≤ h.log.lastIndex →
    ∃ e, mostRecent h.appended index = some e ∧ h.log.read index = some e ∧
      h.log.termAt index = e.term

def InRange (h : History) : LogOp → Prop
  | .append _ => h.log.lastIndex+1 < 2^64
  | .truncate _ => True
  | .compact snapIdx _ => snapIdx.toNat+1 < 2^64

/-- The operation does not truncate the first record kept above a snapshot. -/
def KeepsFirst (h : History) : LogOp → Prop
  | .truncate index => ¬(0 < h.log.snapIndex ∧ index.toNat = h.log.firstIndex ∧
    index.toNat ≤ h.log.lastIndex)
  | _ => True

instance (h : History) (op : LogOp) : Decidable (InRange h op) := by
  cases op <;> unfold InRange <;> infer_instance

instance (h : History) (op : LogOp) : Decidable (KeepsFirst h op) := by
  cases op <;> unfold KeepsFirst <;> infer_instance

theorem mostRecent_concat (es : List Entry) (e : Entry) (index : ℕ) :
    mostRecent (es++[e]) index = if e.index = index then some e else mostRecent es index := by
  unfold mostRecent
  rw [reverse_append, reverse_singleton, singleton_append, find?_cons]
  by_cases h : e.index = index <;> simp [h]

structure Tracks (h : History) (l : Log) : Prop where
  repr : Repr h.log l
  wf : l.Wf
  latest : ∀ e ∈ l.entries, mostRecent h.appended e.index = some e

theorem start_tracks : Tracks History.start Log.empty := by
  refine ⟨⟨rfl, ?_, ?_, rfl, rfl, rfl, rfl, rfl, rfl⟩, wf_empty, ?_⟩
  · simp [Log.empty]
  · simp [Log.empty]
  · simp [Log.empty]

variable (h : History)

theorem append_tracks {l : Log} (ht : Tracks h l) {d : Draft} (hi : h.log.lastIndex+1 < 2^64)
    {rl : RaftLog} {idx : ℕ}
    (ha : h.log.append d = some (rl, idx)) : ∃ l', Tracks ⟨rl, h.appended++[d.entry idx]⟩ l' := by
  have hal := ht.wf.toAligned
  rw [ht.repr.lastIndex] at hi
  obtain ⟨l', hl', hr⟩ := append_repr _ l ht.repr hal hi ha
  refine ⟨l', hr, append_wf l ht.wf hl', ?_⟩
  obtain ⟨_, hidx, rfl⟩ := append_some l hl'
  intro e he
  rw [mostRecent_concat]
  rcases mem_append.mp he with hm | hm
  · obtain ⟨i, hi'⟩ := mem_iff_getElem?.mp hm
    have hlt := (List.getElem?_eq_some_iff.mp hi').1
    have hx := hal.index i e hi'
    have hs := hal.span
    rw [if_neg (by simp only [Draft.entry]; omega)]
    exact ht.latest e hm
  · rw [mem_singleton.mp hm, hidx]
    simp [Draft.entry]

theorem truncate_tracks {l : Log} (ht : Tracks h l) {index : UInt64} (hk : KeepsFirst h (.truncate index)) :
    Tracks { h with log := h.log.truncate index.toNat } (l.truncate index.toNat) := by
  refine ⟨truncate_repr _ l ht.repr ht.wf.toAligned, truncate_wf l _ ht.wf ?_, ?_⟩
  · simpa only [KeepsFirst, ht.repr.snapIndex, ht.repr.firstIndex, ht.repr.lastIndex] using hk
  intro e he
  refine ht.latest e ?_
  rcases truncate_cases l _ with ⟨hc, _⟩ | ⟨_, _, _, hc⟩ | ⟨_, _, hc⟩
  · rwa [hc] at he
  · rw [hc] at he
    simp at he
  · rw [hc] at he
    exact mem_of_mem_take he

theorem compact_tracks (l : Log) (ht : Tracks h l) (si st : UInt64) : ∃ rl, h.log.compact si st = some rl ∧
      Tracks { h with log := rl } (l.compact si.toNat st.toNat) := by
  obtain ⟨rl, hc, hr⟩ := compact_repr _ l ht.repr ht.wf.toAligned si st
  refine ⟨rl, hc, hr, ?_, ?_⟩
  · by_cases hle : si.toNat ≤ l.snapIndex
    · rw [compact_stale l _ hle]
      exact ht.wf
    · exact compact_wf l _ _ ht.wf.toAligned (by omega)
  intro e he
  refine ht.latest e ?_
  by_cases hle : si.toNat ≤ l.snapIndex
  · rwa [compact_stale l _ hle] at he
  · rw [compact_entries l _ _ (by omega)] at he
    exact mem_of_mem_drop he

theorem step_tracks (op : LogOp) (h' : History) (hi : ∃ l, Tracks h l)
    (hr : InRange h op) (hk : KeepsFirst h op) (hs : h.step op = some h') : ∃ l, Tracks h' l := by
  obtain ⟨l, ht⟩ := hi
  cases op with
  | append d =>
    simp only [History.step] at hs
    cases ha : h.log.append d with
    | none =>
      rw [ha] at hs
      cases hs
      exact ⟨l, ht⟩
    | some p =>
      rw [ha] at hs
      cases hs
      exact append_tracks h ht hr ha
  | truncate index =>
    cases hs
    exact ⟨_, truncate_tracks h ht hk⟩
  | compact si st =>
    obtain ⟨rl, hc, ht'⟩ := compact_tracks h l ht si st
    simp only [History.step, hc] at hs
    cases hs
    exact ⟨_, ht'⟩

theorem tracks_sound (l : Log) (ht : Tracks h l) : Sound h := by
  have hr := ht.repr
  have ha := ht.wf.toAligned
  have hs := ha.span
  have hf := ht.wf.first_eq
  constructor
  · rw [hr.snapIndex, hr.lastIndex]
    omega
  · intro d rl idx hd
    obtain ⟨_, _, hidx, _⟩ := segment_append_some _ d rl idx hd
    rw [hidx, hr.snapIndex, hr.lastIndex]
    omega
  · rw [hr.firstIndex, hr.lastIndex]
    omega
  · rw [hr.lastIndex, hr.snapIndex, hr.lastTerm, hr.snapTerm]
    intro he
    have hn : l.entries = [] := length_eq_zero_iff.mp (by omega)
    rcases ha.empty hn with ⟨_, h1⟩ | ⟨h1, h2⟩
    · exact h1
    · rw [h2, ha.fresh (by omega)]
  · intro e hlt he
    rw [read_repr _ l hr ha, hr.lastIndex, Log.read, if_neg (by rw [hr.lastIndex] at hlt; omega),
      if_neg (by rw [hr.lastIndex, hr.snapIndex] at hlt; omega)] at he
    rw [hr.lastTerm]
    refine ha.last e ?_
    rw [getLast?_eq_getElem?, ← he]
    congr 1
    omega
  · intro index h1 h2
    rw [hr.snapIndex] at h1
    rw [hr.lastIndex] at h2
    obtain ⟨e, he, _, hx, _⟩ := repr_position _ l hr ha _ (by omega) h2
    refine ⟨e, ?_, ?_, ?_⟩
    · rw [← hx]
      exact ht.latest e (mem_of_getElem? he)
    · rw [read_repr _ l hr ha, Log.read, if_neg (by omega), if_neg (by omega), he]
    rw [termAt_repr _ l hr ha, Log.termAt, if_neg (by omega), if_neg (by omega),
      if_pos ⟨by omega, h2⟩, he]
    rfl

theorem reset_unsound (op : LogOp) (hi : ∃ l, Tracks h l)
    (hk : ¬KeepsFirst h op) : ∃ h', h.step op = some h' ∧ ¬Sound h' := by
  obtain ⟨l, ht⟩ := hi
  cases op with
  | append d | compact si st => exact absurd trivial hk
  | truncate index =>
    refine ⟨_, rfl, ?_⟩
    obtain ⟨hp, he, hl⟩ := not_not.mp hk
    have hf := ht.wf.first_pos
    rw [← ht.repr.firstIndex] at hf
    intro hs
    have hle := hs.snap_le
    simp only [RaftLog.truncate, if_neg (show ¬(index.toNat = 0 ∨ h.log.lastIndex < index.toNat) by
      omega), if_neg (show ¬index.toNat < h.log.firstIndex by omega),
      if_pos (show index.toNat-1 < h.log.firstIndex by omega)] at hle
    omega

/-- The log keeps its representation invariant exactly when no truncation removes the first record
above a snapshot. -/
theorem log_sound_throughout_iff (ops : List LogOp) (hr : Along History.step InRange History.start ops) :
    Throughout History.step Sound History.start ops ↔ Along History.step KeepsFirst History.start ops :=
  throughout_iff (fun h => ∃ l, Tracks h l) _ (fun h ⟨l, ht⟩ => tracks_sound h l ht)
    step_tracks (fun h op hi _ hk => reset_unsound h op hi hk) ops _
    ⟨Log.empty, start_tracks⟩ hr

def twoEntries : List LogOp := [.append ⟨1, 1, [7]⟩, .append ⟨1, 1, [8]⟩, .compact 1 1]

theorem log_sound_two_entries :
    Throughout History.step Sound History.start (twoEntries++[.append ⟨2, 1, [9]⟩, .truncate 3]) :=
  (log_sound_throughout_iff _
    (by decide +kernel)).mpr (by decide +kernel)

theorem truncated_last_below_snapshot :
    ∃ h, run History.step History.start (twoEntries++[.truncate 2]) = some h ∧ ¬Sound h := by
  obtain ⟨h, hr, hlt⟩ := run_reaches History.step History.start (twoEntries++[.truncate 2])
    (fun h : History => h.log.lastIndex < h.log.snapIndex) (by decide +kernel)
  exact ⟨h, hr, fun hs => absurd hs.snap_le (Nat.not_le.mpr hlt)⟩

end QEngine.RaftLogInvariant

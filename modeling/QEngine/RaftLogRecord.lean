import QEngine.ByteFields

/-!
# The Raft log as a list of records

The fields follow `struct tsdb_raft_log`. The segment file is seen here as the list of
its records, so the record at position `i` carries the Raft index `firstIndex + i`;
byte offsets and recovery belong to the segment modules.
-/

namespace QEngine.RaftLogRecord
open List ByteFields

def maxEntryPayload : ℕ := 2^20

inductive EntryType where
  | noop
  | catalogQtl
  | config
  deriving DecidableEq

def EntryType.code : EntryType → ℕ
  | .noop => 0
  | .catalogQtl => 1
  | .config => 2

structure Entry where
  index : ℕ
  term : ℕ
  type : ℕ
  payload : Bytes
  deriving DecidableEq

structure Log where
  snapIndex : ℕ
  snapTerm : ℕ
  firstIndex : ℕ
  lastIndex : ℕ
  lastTerm : ℕ
  entries : List Entry
  deriving DecidableEq

def Log.empty : Log :=
  { snapIndex := 0, snapTerm := 0, firstIndex := 1, lastIndex := 0, lastTerm := 0, entries := [] }

def Log.termAt (l : Log) (index : ℕ) : ℕ :=
  if index = 0 then 0
  else if index = l.snapIndex then l.snapTerm
  else if l.firstIndex ≤ index ∧ index ≤ l.lastIndex then
    ((l.entries[index-l.firstIndex]?).map Entry.term).getD 0
  else 0

def Log.read (l : Log) (index : ℕ) : Option Entry :=
  if index = 0 then none
  else if index < l.firstIndex ∨ l.lastIndex < index then none
  else l.entries[index-l.firstIndex]?

def Log.append (l : Log) (term type : ℕ) (payload : Bytes) : Option (Log × ℕ) :=
  if maxEntryPayload < payload.length then none
  else
    let idx := l.lastIndex+1
    some ({ l with
      firstIndex := if l.lastIndex = 0 then idx else l.firstIndex
      lastIndex := idx
      lastTerm := term
      entries := l.entries++[⟨idx, term, type, payload⟩] }, idx)

def Log.truncate (l : Log) (index : ℕ) : Log :=
  if index = 0 ∨ l.lastIndex < index then l
  else if index < l.firstIndex then l
  else
    let kept := l.entries.take (index-l.firstIndex)
    if index-1 < l.firstIndex then
      -- "Log became empty": the indices restart even when a snapshot covers them
      { l with firstIndex := 1, lastIndex := 0, lastTerm := 0, entries := kept }
    else
      { l with
          lastIndex := index-1
          lastTerm := ((kept[index-1-l.firstIndex]?).map Entry.term).getD l.lastTerm
          entries := kept }

def Log.compact (l : Log) (snapIdx snapTerm : ℕ) : Log :=
  if snapIdx ≤ l.snapIndex then l
  else
    let kept := l.entries.drop (snapIdx+1-l.firstIndex)
    { snapIndex := snapIdx
      snapTerm := snapTerm
      firstIndex := snapIdx+1
      lastIndex := if kept.length = 0 then snapIdx else snapIdx+kept.length
      lastTerm := if kept.length = 0 then snapTerm else ((kept.getLast?).map Entry.term).getD 0
      entries := kept }

/-- What every operation keeps: positions and indices run in step, and the first index never
passes the one after the snapshot. -/
structure Log.Aligned (l : Log) : Prop where
  first_pos : 1 ≤ l.firstIndex
  first_le : l.firstIndex ≤ l.snapIndex+1
  span : l.lastIndex+1 = l.firstIndex+l.entries.length
  index : ∀ i e, l.entries[i]? = some e → e.index = l.firstIndex+i
  last : ∀ e, l.entries.getLast? = some e → l.lastTerm = e.term
  empty : l.entries = [] →
    (l.firstIndex = l.snapIndex+1 ∧ l.lastTerm = l.snapTerm) ∨ (l.firstIndex = 1 ∧ l.lastTerm = 0)
  fresh : l.snapIndex = 0 → l.snapTerm = 0

/-- The representation invariant the rest of the code relies on: the kept
records are exactly the indices above the snapshot. -/
structure Log.Wf (l : Log) : Prop extends l.Aligned where
  first_eq : l.firstIndex = l.snapIndex+1

theorem aligned_empty : Log.empty.Aligned where
  first_pos := by decide
  first_le := by decide
  span := rfl
  index := by simp [Log.empty]
  last := by simp [Log.empty]
  empty := by simp [Log.empty]
  fresh := by simp [Log.empty]

theorem wf_empty : Log.empty.Wf := ⟨aligned_empty, rfl⟩

variable (l : Log)

variable {idx : ℕ} {payload : Bytes} {l' : Log}

theorem append_some {term type : ℕ}
    (h : l.append term type payload = some (l', idx)) :
    payload.length ≤ maxEntryPayload ∧ idx = l.lastIndex+1 ∧
    l' = { l with
      firstIndex := if l.lastIndex = 0 then l.lastIndex+1 else l.firstIndex
      lastIndex := l.lastIndex+1
      lastTerm := term
      entries := l.entries++[⟨l.lastIndex+1, term, type, payload⟩] } := by
  unfold Log.append at h
  split at h
  · simp at h
  rename_i hp
  simp only [Option.some.injEq, Prod.mk.injEq] at h
  exact ⟨by omega, h.2.symm, h.1.symm⟩

theorem append_first (h : l.Aligned) :
    (if l.lastIndex = 0 then l.lastIndex+1 else l.firstIndex) = l.firstIndex := by
  have hs := h.span
  have hp := h.first_pos
  split <;> omega

theorem append_aligned (term type : ℕ) (payload : Bytes) (l' : Log) (idx : ℕ)
    (ha : l.Aligned) (h : l.append term type payload = some (l', idx)) : l'.Aligned := by
  obtain ⟨_, _, rfl⟩ := append_some l h
  have hs := ha.span
  constructor
  · simpa [append_first l ha] using ha.first_pos
  · simpa [append_first l ha] using ha.first_le
  · simp only [append_first l ha, length_append, length_singleton]
    omega
  · intro i e hi
    simp only [append_first l ha]
    rw [getElem?_append] at hi
    split at hi
    · exact ha.index i e hi
    rename_i hn
    have h0 : i-l.entries.length = 0 := by
      by_contra hne
      rw [getElem?_eq_none (by simp; omega)] at hi
      simp at hi
    rw [h0] at hi
    have he : e = ⟨l.lastIndex+1, term, type, payload⟩ := by simpa using hi.symm
    subst he
    change l.lastIndex+1 = _
    omega
  · intro e he
    have he' : (⟨l.lastIndex+1, term, type, payload⟩ : Entry) = e := by simpa using he
    exact congrArg Entry.term he'
  · intro hn
    simp at hn
  · exact ha.fresh

theorem append_wf {term type : ℕ}
    (hw : l.Wf) (h : l.append term type payload = some (l', idx)) : l'.Wf := by
  refine ⟨append_aligned l _ _ _ l' idx hw.toAligned h, ?_⟩
  obtain ⟨_, _, rfl⟩ := append_some l h
  simpa [append_first l hw.toAligned] using hw.first_eq

variable (index : ℕ)

theorem truncate_cases : (l.truncate index = l ∧ (index = 0 ∨ l.lastIndex < index ∨ index < l.firstIndex)) ∨
    (index = l.firstIndex ∧ 0 < index ∧ index ≤ l.lastIndex ∧
      l.truncate index = { l with firstIndex := 1, lastIndex := 0, lastTerm := 0, entries := [] }) ∨
    (l.firstIndex < index ∧ index ≤ l.lastIndex ∧
      l.truncate index = { l with
        lastIndex := index-1
        lastTerm := (((l.entries.take (index-l.firstIndex))[index-1-l.firstIndex]?).map
          Entry.term).getD l.lastTerm
        entries := l.entries.take (index-l.firstIndex) }) := by
  unfold Log.truncate
  split_ifs with h1 h2 h3
  · exact .inl ⟨rfl, by omega⟩
  · exact .inl ⟨rfl, by omega⟩
  · have he : index = l.firstIndex := by omega
    refine .inr (.inl ⟨he, by omega, by omega, ?_⟩)
    simp [he]
  · exact .inr (.inr ⟨by omega, by omega, rfl⟩)

theorem truncate_aligned (ha : l.Aligned) : (l.truncate index).Aligned := by
  have hs := ha.span
  rcases truncate_cases l _ with ⟨he, _⟩ | ⟨_, _, _, he⟩ | ⟨hf, hl, he⟩
  · rw [he]
    exact ha
  · rw [he]
    exact ⟨le_refl 1, by simp, by simp, by simp, by simp, fun _ => .inr ⟨rfl, rfl⟩, ha.fresh⟩
  rw [he]
  have hlen : (l.entries.take (index-l.firstIndex)).length = index-l.firstIndex := by
    rw [length_take]
    omega
  constructor
  · exact ha.first_pos
  · exact ha.first_le
  · simp only [hlen]
    omega
  · intro i e hi
    refine ha.index i e ?_
    rw [getElem?_take] at hi
    split at hi
    · exact hi
    · simp at hi
  · intro e hlast
    rw [getLast?_eq_getElem?, hlen] at hlast
    have hi : index-1-l.firstIndex = index-l.firstIndex-1 := by omega
    simp [hi, hlast]
  · intro hn
    have h0 := congrArg List.length hn
    rw [hlen] at h0
    simp at h0
    omega
  · exact ha.fresh

theorem truncate_wf (hw : l.Wf) (hn : ¬(0 < l.snapIndex ∧ index = l.firstIndex ∧ index ≤ l.lastIndex)) :
    (l.truncate index).Wf := by
  refine ⟨truncate_aligned l _ hw.toAligned, ?_⟩
  have hf := hw.first_eq
  rcases truncate_cases l _ with ⟨he, _⟩ | ⟨hi, _, hl, he⟩ | ⟨_, _, he⟩
  · rw [he]
    exact hf
  · rw [he]
    have h0 : l.snapIndex = 0 := by
      by_contra h
      exact hn ⟨by omega, hi, hl⟩
    simp [h0]
  · rw [he]
    exact hf

theorem compact_stale {si : ℕ} (st : ℕ) (h : si ≤ l.snapIndex) : l.compact si st = l := by
  simp [Log.compact, h]

variable (si st : ℕ)

theorem compact_entries (h : l.snapIndex < si) :
    (l.compact si st).entries = l.entries.drop (si+1-l.firstIndex) := by
  simp [Log.compact, show ¬si ≤ l.snapIndex by omega]

theorem compact_marks (h : l.snapIndex < si) :
    (l.compact si st).snapIndex = si ∧ (l.compact si st).snapTerm = st ∧
    (l.compact si st).firstIndex = si+1 := by
  simp [Log.compact, show ¬si ≤ l.snapIndex by omega]

theorem compact_last (h : l.snapIndex < si) :
    (l.compact si st).lastIndex = si+(l.entries.drop (si+1-l.firstIndex)).length := by
  simp only [Log.compact, show ¬si ≤ l.snapIndex by omega, if_false]
  split <;> omega

theorem compact_lastTerm (h : l.snapIndex < si) :
    (l.compact si st).lastTerm =
      if (l.entries.drop (si+1-l.firstIndex)).length = 0 then st
      else (((l.entries.drop (si+1-l.firstIndex)).getLast?).map Entry.term).getD 0 := by
  simp [Log.compact, show ¬si ≤ l.snapIndex by omega]

theorem compact_wf (ha : l.Aligned) (h : l.snapIndex < si) : (l.compact si st).Wf := by
  have hf := ha.first_le
  obtain ⟨hsi, hst, hfi⟩ := compact_marks l si st h
  have he := compact_entries l si st h
  refine ⟨⟨?_, ?_, ?_, ?_, ?_, ?_, ?_⟩, by rw [hfi, hsi]⟩
  · rw [hfi]
    omega
  · rw [hfi, hsi]
  · rw [compact_last l si st h, hfi, he]
    omega
  · intro i e hi
    rw [he, getElem?_drop] at hi
    rw [ha.index _ e hi, hfi]
    omega
  · intro e hlast
    rw [he] at hlast
    have hne : ¬(l.entries.drop (si+1-l.firstIndex)).length = 0 := by
      intro h0
      rw [length_eq_zero_iff.mp h0] at hlast
      simp at hlast
    rw [compact_lastTerm l si st h, if_neg hne, hlast]
    rfl
  · intro hn
    rw [he] at hn
    refine .inl ⟨by rw [hfi, hsi], ?_⟩
    rw [compact_lastTerm l si st h, hst, hn]
    rfl
  · intro h0
    omega

theorem compact_aligned (ha : l.Aligned) : (l.compact si st).Aligned := by
  by_cases h : si ≤ l.snapIndex
  · rw [compact_stale l st h]
    exact ha
  · exact (compact_wf l si st ha (by omega)).toAligned

variable {e : Entry}

theorem read_position (ha : l.Aligned) (i : ℕ)
    (h : l.entries[i]? = some e) : l.read (l.firstIndex+i) = some e := by
  have hi : i < l.entries.length := by
    by_contra hn
    rw [getElem?_eq_none (by omega)] at h
    simp at h
  have hs := ha.span
  have hp := ha.first_pos
  rw [Log.read, if_neg (by omega), if_neg (by omega)]
  simpa using h

theorem read_index (ha : l.Aligned) {index : ℕ} (h : l.read index = some e) : e.index = index := by
  unfold Log.read at h
  split_ifs at h with h0 h1
  rw [ha.index _ e h]
  omega

theorem read_some (hw : l.Wf) {x : ℕ} (hf : l.firstIndex ≤ x) (hl : x ≤ l.lastIndex) :
    ∃ e, l.read x = some e ∧ l.termAt x = e.term := by
  have hs := hw.span
  have hp := hw.first_pos
  have hfe := hw.first_eq
  have hlt : x-l.firstIndex < l.entries.length := by omega
  refine ⟨l.entries[x-l.firstIndex], ?_, ?_⟩
  · rw [Log.read, if_neg (by omega), if_neg (by omega), getElem?_eq_getElem hlt]
  rw [Log.termAt, if_neg (by omega), if_neg (by omega), if_pos ⟨hf, hl⟩,
    getElem?_eq_getElem hlt]
  rfl

theorem read_range {x : ℕ} (h : l.read x = some e) : l.firstIndex ≤ x ∧ x ≤ l.lastIndex := by
  unfold Log.read at h
  split_ifs at h with h0 h1
  omega

theorem append_read {term type : ℕ}
    (ha : l.Aligned) (h : l.append term type payload = some (l', idx)) (x : ℕ) :
    l'.read x = if x = idx then some ⟨idx, term, type, payload⟩ else l.read x := by
  obtain ⟨_, hidx, rfl⟩ := append_some l h
  have hs := ha.span
  have hp := ha.first_pos
  subst hidx
  simp only [Log.read, append_first l ha]
  by_cases hx : x = l.lastIndex+1
  · rw [if_pos hx, if_neg (by omega), if_neg (by omega), getElem?_append_right (by omega),
      show x-l.firstIndex-l.entries.length = 0 by omega]
    rfl
  rw [if_neg hx]
  by_cases hout : x < l.firstIndex ∨ l.lastIndex < x
  · rw [if_pos hout, if_pos (show x < l.firstIndex ∨ l.lastIndex+1 < x by omega)]
  · rw [if_neg hout, if_neg (show ¬(x < l.firstIndex ∨ l.lastIndex+1 < x) by omega),
      getElem?_append_left (by omega)]

theorem truncate_read {index : ℕ} (hw : l.Wf) (hf : l.firstIndex ≤ index)
    (hl : index ≤ l.lastIndex) (hn : ¬(0 < l.snapIndex ∧ index = l.firstIndex)) (x : ℕ) :
    (l.truncate index).lastIndex = index-1 ∧
    (l.truncate index).read x = if x < index then l.read x else none := by
  have hs := hw.span
  have hp := hw.first_pos
  have hfe := hw.first_eq
  rcases truncate_cases l index with ⟨_, hno⟩ | ⟨hi, _, _, he⟩ | ⟨hlt, _, he⟩
  · omega
  · rw [he]
    have h0 : l.snapIndex = 0 := by
      by_contra hne
      exact hn ⟨by omega, hi⟩
    refine ⟨by change 0 = index-1; omega, ?_⟩
    by_cases hx : x < index
    · rw [if_pos hx, Log.read, if_pos (by omega), Log.read, if_pos (by omega)]
    · rw [if_neg hx, Log.read, if_neg (by omega), if_pos (by dsimp only; omega)]
  rw [he]
  refine ⟨rfl, ?_⟩
  simp only [Log.read]
  by_cases hx : x < index
  · rw [if_pos hx]
    by_cases hout : x = 0
    · rw [if_pos hout, if_pos hout]
    rw [if_neg hout, if_neg hout]
    by_cases hb : x < l.firstIndex
    · rw [if_pos (.inl hb), if_pos (.inl hb)]
    · rw [if_neg (by omega), if_neg (by omega), getElem?_take, if_pos (by omega)]
  · rw [if_neg hx, if_neg (by omega), if_pos (by omega)]

theorem compact_read {si st : ℕ} (ha : l.Aligned) (h : l.snapIndex < si) (x : ℕ) :
    (l.compact si st).read x = if x ≤ si then none else l.read x := by
  have hf := ha.first_le
  have hs := ha.span
  obtain ⟨_, _, hfi⟩ := compact_marks l si st h
  simp only [Log.read, hfi, compact_last l si st h, compact_entries l si st h, length_drop]
  by_cases hx : x ≤ si
  · rw [if_pos hx]
    split
    · rfl
    · rw [if_pos (by omega)]
  have h0 : ¬x = 0 := by omega
  simp only [if_neg hx, if_neg h0]
  by_cases hl : l.lastIndex < x
  · rw [if_pos (show x < l.firstIndex ∨ l.lastIndex < x by omega), if_pos (by omega)]
  rw [if_neg (show ¬(x < l.firstIndex ∨ l.lastIndex < x) by omega), if_neg (by omega),
    getElem?_drop]
  congr 1
  omega

theorem mapM_range' {α : Type} (es : List α) (f : ℕ → Option α) {n : ℕ} :
    ∀ a k, k+n = es.length → (∀ i < n, f (a+i) = es[k+i]?) → (List.range' a n).mapM f = some (es.drop k) := by
  induction n with
  | zero =>
    intro a k hk _
    simp [drop_of_length_le (show es.length ≤ k by omega)]
  | succ n ih =>
    intro a k hk hf
    have hlt : k < es.length := by omega
    have h0 := hf 0 (by omega)
    rw [add_zero, add_zero, getElem?_eq_getElem hlt] at h0
    have htail := ih (a+1) (k+1) (by omega) (by
      intro i hi
      have := hf (i+1) (by omega)
      rw [show a+(i+1) = a+1+i by omega, show k+(i+1) = k+1+i by omega] at this
      exact this)
    rw [range'_succ, mapM_cons, h0, htail, drop_eq_getElem_cons hlt]
    rfl

end QEngine.RaftLogRecord

import Mathlib.Tactic

/-!
# The receiver's ledger of applied batches

For each stream the ledger keeps a frontier, below which every sequence number counts
as applied, and the applied numbers above it. Both are bounded; a batch that does not
fit is not recorded.
-/

namespace QEngine.DedupLedger
open List

structure Limits where
  maxStreams : ℕ
  maxGap : ℕ
  deriving DecidableEq

def dedupGlobal : Limits := ⟨64, 4096⟩

structure Stream where
  stream : ℕ
  frontier : ℕ
  gaps : List ℕ
  deriving DecidableEq

abbrev Ledger := List Stream

inductive Code where
  | ok
  | inval
  | nomem
  | alreadyThere
  | full
  deriving DecidableEq

def find (l : Ledger) (stream : ℕ) : Option Stream := l.find? fun s => s.stream = stream

def findOrAdd (lim : Limits) (l : Ledger) (stream : ℕ) : Option (Stream × Ledger) :=
  match find l stream with
  | some s => some (s, l)
  | none => if l.length < lim.maxStreams then some (⟨stream, 0, []⟩, l++[⟨stream, 0, []⟩]) else none

/-- The numbers above the frontier are ascending, so a search for one is
membership. -/
def Stream.Has (s : Stream) (seq : ℕ) : Prop := seq ≤ s.frontier ∨ seq ∈ s.gaps

instance (s : Stream) (seq : ℕ) : Decidable (s.Has seq) :=
  inferInstanceAs (Decidable (seq ≤ s.frontier ∨ seq ∈ s.gaps))

def Seen (l : Ledger) (stream seq : ℕ) : Prop := seq ≠ 0 ∧ ∃ s, find l stream = some s ∧ s.Has seq

def seen (l : Ledger) (stream seq : ℕ) : Bool :=
  seq ≠ 0 && (find l stream).any fun s => s.Has seq

def replace (s : Stream) : Ledger → Ledger
  | [] => []
  | t::ts => if t.stream = s.stream then s::ts else t::replace s ts

def absorb (stream : ℕ) : ℕ → List ℕ → Stream
  | f, [] => ⟨stream, f, []⟩
  | f, g::gs => if g = f+1 then absorb stream (f+1) gs else ⟨stream, f, g::gs⟩

def record (lim : Limits) (l : Ledger) (stream seq : ℕ) : Code × Ledger :=
  if seq = 0 then (.inval, l)
  else
    match findOrAdd lim l stream with
    | none => (.nomem, l)
    | some (s, l) =>
      if s.Has seq then (.alreadyThere, l)
      else if seq = s.frontier+1 then (.ok, replace (absorb s.stream seq s.gaps) l)
      else if lim.maxGap ≤ s.gaps.length then (.full, l)
      else (.ok, replace { s with gaps := s.gaps.orderedInsert (· ≤ ·) seq } l)

def setFrontier (lim : Limits) (l : Ledger) (stream frontier : ℕ) : Code × Ledger :=
  match findOrAdd lim l stream with
  | none => (.nomem, l)
  | some (s, l) =>
    if s.frontier < frontier then
      (.ok, replace (absorb s.stream frontier (s.gaps.dropWhile (· ≤ frontier))) l)
    else (.ok, l)

/-- The sender promises that it sends nothing below `base` any more. -/
def advanceBase (lim : Limits) (l : Ledger) (stream base : ℕ) : Code × Ledger :=
  if base ≤ 1 then (.ok, l) else setFrontier lim l stream (base-1)

variable {stream : ℕ} {l : Ledger}

theorem seen_iff {seq : ℕ} : seen l stream seq = true ↔ Seen l stream seq := by
  simp [seen, Seen, Option.any_eq_true]

@[simp] theorem seen_nil (stream seq : ℕ) : ¬Seen [] stream seq := by
  simp [Seen, find]

theorem absorb_has (stream f : ℕ) (gs : List ℕ) (q : ℕ) : (absorb stream f gs).Has q ↔ q ≤ f ∨ q ∈ gs := by
  induction gs generalizing f with
  | nil => rfl
  | cons g gs ih =>
    rw [absorb]
    split_ifs with hg
    · rw [ih, hg, mem_cons, Nat.le_succ_iff, or_assoc]
    · rfl

@[simp] theorem absorb_stream (stream f : ℕ) (gs : List ℕ) : (absorb stream f gs).stream = stream := by
  induction gs generalizing f with
  | nil => rfl
  | cons g gs ih =>
    rw [absorb]
    split_ifs
    · exact ih _
    · rfl

variable {s : Stream}

theorem find_replace {t : Stream} (h : find l s.stream = some t)
    (stream : ℕ) : find (replace s l) stream = if stream = s.stream then some s else find l stream := by
  induction l with
  | nil => cases h
  | cons u us ih =>
    by_cases hu : u.stream = s.stream
    · rw [replace, if_pos hu]
      by_cases hs : stream = s.stream
      · simp [find, hs]
      · simp [find, hs, hu, Ne.symm hs]
    have hus : find us s.stream = some t := by simpa [find, hu] using h
    have ihs := ih hus
    rw [replace, if_neg hu]
    by_cases hu' : u.stream = stream
    · have hs : stream ≠ s.stream := fun he => hu (hu'.trans he)
      simp [find, hu', hs]
    · simp only [find, find?_cons, hu', decide_false] at ihs ⊢
      exact ihs

theorem findOrAdd_spec {lim : Limits} {l' : Ledger}
    (h : findOrAdd lim l stream = some (s, l')) : find l' stream = some s ∧ s.stream = stream ∧
      ∀ st q, Seen l' st q ↔ Seen l st q := by
  unfold findOrAdd at h
  split at h
  · rename_i t hf
    cases h
    exact ⟨hf, by simpa using find?_some hf, fun _ _ => Iff.rfl⟩
  rename_i hf
  obtain ⟨hroom, he⟩ := Option.ite_some_none_eq_some.mp h
  cases he
  have hfind : ∀ st, find (l++[⟨stream, 0, []⟩]) st =
      (find l st).or (if stream = st then some ⟨stream, 0, []⟩ else none) := by
    intro st
    rw [find, find?_append]
    by_cases hst : stream = st
    · simp [find, hst]
    · simp [find, hst]
  refine ⟨by rw [hfind, hf]; simp, rfl, fun st q => ?_⟩
  rw [Seen, Seen, hfind]
  by_cases hst : stream = st
  · subst hst
    rw [hf]
    simp only [if_true, Option.none_or, Option.some.injEq, exists_eq_left']
    constructor
    · rintro ⟨hq, h | h⟩
      · exact absurd (Nat.le_zero.mp h) hq
      · cases h
    · rintro ⟨-, t, ht, -⟩
      cases ht
  · simp [hst]

theorem seen_replace {t : Stream} (h : find l t.stream = some s) (P : ℕ → Prop)
    (hh : ∀ q, t.Has q ↔ s.Has q ∨ P q) (stream q : ℕ) : Seen (replace t l) stream q ↔
      Seen l stream q ∨ (stream = t.stream ∧ q ≠ 0 ∧ P q) := by
  rw [Seen, Seen, find_replace h]
  by_cases hs : stream = t.stream
  · subst hs
    simp only [if_true, Option.some.injEq, exists_eq_left', hh, h, true_and]
    tauto
  · simp [hs]

variable (lim : Limits)

theorem record_seen (l : Ledger) (stream seq : ℕ) (hq : seq ≠ 0) (st q : ℕ) :
    Seen (record lim l stream seq).2 st q ↔ Seen l st q ∨
      (((record lim l stream seq).1 = .ok ∨ (record lim l stream seq).1 = .alreadyThere) ∧
        st = stream ∧ q = seq) := by
  rw [record, if_neg hq]
  cases hf : findOrAdd lim l stream with
  | none => simp
  | some p =>
    obtain ⟨s, l'⟩ := p
    obtain ⟨hfind, hst, hsame⟩ := findOrAdd_spec hf
    subst hst
    dsimp only
    split_ifs with hhas hnext hfull
    · rw [hsame]
      constructor
      · exact .inl
      rintro (h | ⟨-, rfl, rfl⟩)
      · exact h
      · exact (hsame _ _).mp ⟨hq, s, hfind, hhas⟩
    · have hr := seen_replace (t := absorb s.stream seq s.gaps) (by simpa using hfind) (· = seq)
        (fun k => by rw [absorb_has, Stream.Has, hnext, Nat.le_succ_iff]; tauto) st q
      rw [hr, hsame, absorb_stream]
      constructor
      · rintro (h | ⟨hs, -, hk⟩)
        · exact .inl h
        · exact .inr ⟨.inl rfl, hs, hk⟩
      rintro (h | ⟨-, hs, hk⟩)
      · exact .inl h
      · exact .inr ⟨hs, by rw [hk]; exact hq, hk⟩
    · rw [hsame]
      simp
    · have hr := seen_replace (t := { s with gaps := s.gaps.orderedInsert (· ≤ ·) seq }) hfind (· = seq)
        (fun k => by simp only [Stream.Has, mem_orderedInsert]; tauto) st q
      rw [hr, hsame]
      constructor
      · rintro (h | ⟨hs, -, hk⟩)
        · exact .inl h
        · exact .inr ⟨.inl rfl, hs, hk⟩
      rintro (h | ⟨-, hs, hk⟩)
      · exact .inl h
      · exact .inr ⟨hs, by rw [hk]; exact hq, hk⟩

theorem record_adds {lim : Limits} {seq st q : ℕ}
    (h : Seen (record lim l stream seq).2 st q) : Seen l st q ∨ (st = stream ∧ q = seq) := by
  by_cases hq : seq = 0
  · rw [record, if_pos hq] at h
    exact .inl h
  · exact ((record_seen lim l _ seq hq st q).mp h).imp (fun h => h) fun h => h.2

theorem seen_record {seq : ℕ} {st q : ℕ} (h : Seen l st q) :
    Seen (record lim l stream seq).2 st q := by
  by_cases hq : seq = 0
  · rw [record, if_pos hq]
    exact h
  · exact (record_seen lim l _ seq hq st q).mpr (.inl h)

theorem setFrontier_seen (l : Ledger) (stream frontier st q : ℕ) :
    Seen (setFrontier lim l stream frontier).2 st q ↔ Seen l st q ∨
      ((setFrontier lim l stream frontier).1 = .ok ∧ st = stream ∧ q ≠ 0 ∧ q ≤ frontier) := by
  rw [setFrontier]
  cases hf : findOrAdd lim l stream with
  | none => simp
  | some p =>
    obtain ⟨s, l'⟩ := p
    obtain ⟨hfind, hst, hsame⟩ := findOrAdd_spec hf
    subst hst
    dsimp only
    split_ifs with hlt
    · have hdrop : ∀ k, (k ≤ frontier ∨ k ∈ s.gaps.dropWhile (· ≤ frontier)) ↔
          s.Has k ∨ k ≤ frontier := by
        intro k
        constructor
        · rintro (h | h)
          · exact .inr h
          · exact .inl (.inr ((dropWhile_sublist _).subset h))
        rintro ((h | h) | h)
        · exact .inl (h.trans hlt.le)
        · rw [← takeWhile_append_dropWhile (p := (· ≤ frontier)) (l := s.gaps)] at h
          rcases mem_append.mp h with h | h
          · exact .inl (of_decide_eq_true (all_eq_true.mp all_takeWhile k h))
          · exact .inr h
        · exact .inl h
      have hr := seen_replace (t := absorb s.stream frontier (s.gaps.dropWhile (· ≤ frontier)))
        (by simpa using hfind) (· ≤ frontier) (fun k => by rw [absorb_has, hdrop]) st q
      rw [hr, hsame, absorb_stream]
      simp
    · rw [hsame]
      constructor
      · exact .inl
      rintro (h | ⟨-, rfl, hq, hle⟩)
      · exact h
      · exact (hsame _ _).mp ⟨hq, s, hfind, .inl (hle.trans (Nat.not_lt.mp hlt))⟩

theorem advanceBase_seen {base st q : ℕ}
    (h : Seen (advanceBase lim l stream base).2 st q) : Seen l st q ∨ (st = stream ∧ q < base) := by
  rw [advanceBase] at h
  split_ifs at h with hb
  · exact .inl h
  rcases (setFrontier_seen lim l _ _ st q).mp h with h | ⟨-, hs, hq, hle⟩
  · exact .inl h
  · exact .inr ⟨hs, by omega⟩

theorem seen_advanceBase {base st q : ℕ} (h : Seen l st q) :
    Seen (advanceBase lim l stream base).2 st q := by
  rw [advanceBase]
  split_ifs
  · exact h
  · exact (setFrontier_seen lim l _ _ st q).mpr (.inl h)

end QEngine.DedupLedger

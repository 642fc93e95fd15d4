import QEngine.DedupLedger
import QEngine.BinarySearch

/-!
# What the ledger has seen over a run

A number is seen exactly if some call marked it: a record that was accepted, a
frontier at or above it, or a base above it.
-/

namespace QEngine.DedupExactness
open List DedupLedger

def gapFind (gaps : List ℕ) (seq : ℕ) : Bool × ℕ := BinarySearch.search (compare · seq) gaps

inductive Request where
  | record (seq : ℕ)
  | setFrontier (frontier : ℕ)
  | advanceBase (base : ℕ)
  deriving DecidableEq

/-- Stream 0 marks a free slot. -/
structure Call where
  stream : ℕ
  request : Request
  used : stream ≠ 0
  deriving DecidableEq

def Call.exec (lim : Limits) (l : Ledger) (c : Call) : Code × Ledger :=
  match c.request with
  | .record seq => record lim l c.stream seq
  | .setFrontier f => setFrontier lim l c.stream f
  | .advanceBase b => advanceBase lim l c.stream b

def returns (lim : Limits) : Ledger → List Call → List (Call × Code)
  | _, [] => []
  | l, c::cs => (c, (c.exec lim l).1)::returns lim (c.exec lim l).2 cs

def after (lim : Limits) : Ledger → List Call → Ledger
  | l, [] => l
  | l, c::cs => after lim (c.exec lim l).2 cs

def Request.Covers : Request → ℕ → Prop
  | .record seq, q => q = seq
  | .setFrontier f, q => q ≤ f
  | .advanceBase b, q => q < b

def Marks (e : Call × Code) (stream q : ℕ) : Prop := e.2 = .ok ∧ e.1.stream = stream ∧ e.1.request.Covers q

def recorded (e : Call × Code) : Bool := e.2 = .ok && e.1.request matches .record _

def Finds (gaps : List ℕ) (q : ℕ) : Prop := (gapFind gaps q).1 = decide (q ∈ gaps) ∧
  gaps.take (gapFind gaps q).2++q::gaps.drop (gapFind gaps q).2 = gaps.orderedInsert (· ≤ ·) q

structure Exact (s : Stream) : Prop where
  ascending : s.gaps.Pairwise (· < ·)
  above : ∀ g ∈ s.gaps, s.frontier < g
  apart : s.frontier+1 ∉ s.gaps

section
variable {lim : Limits} {l : Ledger}

theorem record_answer {stream seq : ℕ} : ((record lim l stream seq).1 = .ok → ¬Seen l stream seq) ∧
    ((record lim l stream seq).1 = .alreadyThere → Seen l stream seq) := by
  rw [record]
  split_ifs with hq
  · exact ⟨by simp, by simp⟩
  cases hf : findOrAdd lim l stream with
  | none => exact ⟨by simp, by simp⟩
  | some p =>
    obtain ⟨s, l'⟩ := p
    obtain ⟨hfind, -, hsame⟩ := findOrAdd_spec hf
    have hs : Seen l stream seq ↔ s.Has seq := by
      rw [← hsame, Seen, hfind]
      simp [hq]
    dsimp only
    split_ifs with hhas
    · exact ⟨by simp, fun _ => hs.mpr hhas⟩
    · exact ⟨fun _ h => hhas (hs.mp h), by simp⟩
    · exact ⟨by simp, by simp⟩
    · exact ⟨fun _ h => hhas (hs.mp h), by simp⟩

theorem exec_seen (c : Call) (st q : ℕ) : Seen (c.exec lim l).2 st q ↔
    Seen l st q ∨ q ≠ 0 ∧ Marks (c, (c.exec lim l).1) st q := by
  obtain ⟨stream, request, hu⟩ := c
  cases request with
  | record seq =>
    by_cases hq : seq = 0
    · simp [Call.exec, record, hq, Marks]
    have ha := @record_answer lim l stream seq
    simp only [Call.exec, record_seen lim l stream seq hq, Marks, Request.Covers]
    constructor
    · rintro (h | ⟨hc | hc, rfl, rfl⟩)
      · exact .inl h
      · exact .inr ⟨hq, hc, rfl, rfl⟩
      · exact .inl (ha.2 hc)
    · rintro (h | ⟨-, hc, rfl, rfl⟩)
      · exact .inl h
      · exact .inr ⟨.inl hc, rfl, rfl⟩
  | setFrontier f =>
    simp only [Call.exec, setFrontier_seen, Marks, Request.Covers]
    tauto
  | advanceBase b =>
    simp only [Call.exec, advanceBase, Marks, Request.Covers]
    split_ifs with hb
    · exact ⟨.inl, fun h => h.resolve_right fun h => by omega⟩
    rw [setFrontier_seen]
    have hle : q ≤ b-1 ↔ q < b := by omega
    rw [hle]
    tauto

theorem after_seen (cs : List Call) (st q : ℕ) : Seen (after lim l cs) st q ↔
    Seen l st q ∨ q ≠ 0 ∧ ∃ e ∈ returns lim l cs, Marks e st q := by
  induction cs generalizing l with
  | nil => simp [after, returns]
  | cons c cs ih =>
    simp only [after, returns, ih, exec_seen, exists_mem_cons_iff]
    tauto

theorem not_recorded_again {cs : List Call} {e : Call × Code} {seq : ℕ} (hr : e.1.request = .record seq)
    (ho : e.2 = .ok) (hs : Seen l e.1.stream seq) : e ∉ returns lim l cs := by
  induction cs generalizing l with
  | nil => simp [returns]
  | cons c cs ih =>
    rw [returns, mem_cons, not_or]
    refine ⟨?_, ih ((exec_seen c _ _).mpr (.inl hs))⟩
    rintro rfl
    dsimp only at hr ho hs
    rw [Call.exec, hr] at ho
    exact record_answer.1 ho hs

theorem recorded_once (cs : List Call) : ((returns lim l cs).filter recorded).Nodup := by
  induction cs generalizing l with
  | nil => exact nodup_nil
  | cons c cs ih =>
    rw [returns, filter_cons]
    split_ifs with hr
    · refine nodup_cons.mpr ⟨fun h => ?_, ih⟩
      simp only [recorded, Bool.and_eq_true, decide_eq_true_eq] at hr
      obtain ⟨ho, hr⟩ := hr
      split at hr
      · rename_i seq hreq
        refine not_recorded_again hreq ho ?_ (mem_of_mem_filter h)
        refine (exec_seen c _ _).mpr (.inr ⟨?_, ho, rfl, by rw [hreq]; rfl⟩)
        rintro rfl
        simp [Call.exec, hreq, record] at ho
      · cases hr
    · exact ih

/-! ### The numbers above the frontier -/

theorem absorb_exact (stream : ℕ) {f : ℕ} {gs : List ℕ} (hp : gs.Pairwise (· < ·)) (ha : ∀ g ∈ gs, f < g) :
    Exact (absorb stream f gs) := by
  induction gs generalizing f with
  | nil => exact ⟨hp, ha, not_mem_nil⟩
  | cons g gs ih =>
    obtain ⟨hg, hp'⟩ := pairwise_cons.mp hp
    rw [absorb]
    split_ifs with he
    · exact ih hp' fun k hk => he ▸ hg k hk
    refine ⟨hp, ha, fun h => ?_⟩
    obtain h | h := mem_cons.mp h
    · exact he h.symm
    · exact absurd (hg _ h) (not_lt.mpr (ha g mem_cons_self))

theorem insert_exact {s : Stream} {seq : ℕ} (h : Exact s) (hn : ¬s.Has seq) (hs : seq ≠ s.frontier+1) :
    Exact { s with gaps := s.gaps.orderedInsert (· ≤ ·) seq } := by
  obtain ⟨hlt, hmem⟩ := not_or.mp hn
  have hnd : (s.gaps.orderedInsert (· ≤ ·) seq).Nodup :=
    (perm_orderedInsert _ _ _).nodup_iff.mpr (nodup_cons.mpr ⟨hmem, h.ascending.imp fun h => h.ne⟩)
  have hle : (s.gaps.orderedInsert (· ≤ ·) seq).Pairwise (· ≤ ·) :=
    (h.ascending.imp fun h => h.le).orderedInsert _ _
  refine ⟨(hle.and hnd).imp fun h => lt_of_le_of_ne h.1 h.2, fun g hg => ?_, fun hg => ?_⟩
  · obtain rfl | hg := mem_orderedInsert _ |>.mp hg
    · exact not_le.mp hlt
    · exact h.above g hg
  obtain he | hg := mem_orderedInsert _ |>.mp hg
  · exact hs he.symm
  · exact h.apart hg

def AllExact (l : Ledger) : Prop := ∀ s ∈ l, Exact s

theorem findOrAdd_exact {stream : ℕ} {p : Stream × Ledger} (h : AllExact l)
    (hf : findOrAdd lim l stream = some p) :
    Exact p.1 ∧ AllExact p.2 := by
  unfold findOrAdd at hf
  split at hf
  · rename_i s hs
    cases hf
    exact ⟨h s (mem_of_find?_eq_some hs), h⟩
  obtain ⟨-, rfl⟩ := Option.ite_some_none_eq_some.mp hf
  have hn : Exact ⟨stream, 0, []⟩ := ⟨.nil, nofun, nofun⟩
  exact ⟨hn, forall_mem_append.mpr ⟨h, forall_mem_singleton.mpr hn⟩⟩

theorem replace_exact {s : Stream} (hs : Exact s) (h : AllExact l) : AllExact (DedupLedger.replace s l) := by
  induction l with
  | nil => exact h
  | cons t ts ih =>
    obtain ⟨ht, hts⟩ := forall_mem_cons.mp h
    rw [DedupLedger.replace]
    split_ifs
    · exact forall_mem_cons.mpr ⟨hs, hts⟩
    · exact forall_mem_cons.mpr ⟨ht, ih hts⟩

theorem setFrontier_exact (h : AllExact l) (stream f : ℕ) : AllExact (setFrontier lim l stream f).2 := by
  rw [setFrontier]
  cases hf : findOrAdd lim l stream with
  | none => exact h
  | some p =>
    obtain ⟨hs, hl⟩ := findOrAdd_exact h hf
    dsimp only
    split_ifs
    · refine replace_exact (absorb_exact _ (hs.ascending.sublist (dropWhile_sublist _)) fun g hg => ?_) hl
      have := BinarySearch.dropWhile_false (hs.ascending.imp fun hab hb => by simp at hb ⊢; omega) g hg
      simpa using this
    · exact hl

theorem exec_exact (h : AllExact l) (c : Call) : AllExact (c.exec lim l).2 := by
  obtain ⟨stream, request, hu⟩ := c
  cases request with
  | record seq =>
    dsimp only [Call.exec]
    rw [record]
    split_ifs
    · exact h
    cases hf : findOrAdd lim l stream with
    | none => exact h
    | some p =>
      obtain ⟨hs, hl⟩ := findOrAdd_exact h hf
      dsimp only
      split_ifs with hhas hnext
      · exact hl
      · refine replace_exact (absorb_exact _ hs.ascending fun g hg => ?_) hl
        have := hs.above g hg
        have : g ≠ seq := fun he => hhas (.inr (he ▸ hg))
        omega
      · exact hl
      · exact replace_exact (insert_exact hs hhas hnext) hl
  | setFrontier f => exact setFrontier_exact h stream f
  | advanceBase b =>
    dsimp only [Call.exec]
    rw [advanceBase]
    split_ifs
    · exact h
    · exact setFrontier_exact h stream _

theorem after_exact (h : AllExact l) (cs : List Call) : AllExact (after lim l cs) := by
  induction cs generalizing l with
  | nil => exact h
  | cons c cs ih => exact ih (exec_exact h c)

theorem gapFind_exact {s : Stream} (h : Exact s) (q : ℕ) : Finds s.gaps q := by
  have ho : BinarySearch.Ordered (compare · q) s.gaps := h.ascending.imp fun {a b} hab => by
    obtain ha | ha := lt_or_ge a q
    · exact .inl (compare_lt_iff_lt.mpr ha)
    · exact .inr (compare_gt_iff_gt.mpr (ha.trans_lt hab))
  rw [Finds, gapFind, BinarySearch.search_spec ho]
  constructor
  · rw [Bool.eq_iff_iff]
    simp
  rw [orderedInsert_eq_take_drop, takeWhile_eq_take_findIdx_not, dropWhile_eq_drop_findIdx_not]
  have hp : (fun g : ℕ => decide (compare g q ≠ .lt)) = fun g => !decide ¬q ≤ g := by
    funext g
    rw [Bool.eq_iff_iff]
    simp [compare_lt_iff_lt]
  rw [hp]

/-- After any sequence of calls the ledger calls a number seen exactly when a call that returned
success has marked it, records no number twice, and keeps its gaps sorted and disjoint. -/
theorem ledger_exact (lim : Limits) (cs : List Call) :
    (∀ st q, seen (after lim [] cs) st q = true ↔ q ≠ 0 ∧ ∃ e ∈ returns lim [] cs, Marks e st q) ∧
    ((returns lim [] cs).filter recorded).Nodup ∧
    ∀ s ∈ after lim [] cs, Exact s ∧ ∀ q, Finds s.gaps q := by
  refine ⟨fun st q => ?_, recorded_once cs, fun s hs => ?_⟩
  · rw [seen_iff, after_seen]
    simp
  · have he := after_exact (forall_mem_nil _) cs s hs
    exact ⟨he, gapFind_exact he⟩

/-- The base itself is not settled. -/
theorem base_unseen : returns dedupGlobal [] [⟨7, .advanceBase 5, by decide⟩] =
  [(⟨7, .advanceBase 5, by decide⟩, .ok)] ∧
  seen (after dedupGlobal [] [⟨7, .advanceBase 5, by decide⟩]) 7 5 = false := by decide

end

end QEngine.DedupExactness

import QEngine.RaftApplyOrder

/-!
# What a successful proposal means

A proposer waits until `lastApplied` reaches the index of its entry and
never looks at the entry again. As long as nothing removes the entries that
proposers wait for, lets a snapshot pass them, or restarts the index space,
the entry applied at that index is the one the proposer appended.
-/

namespace QEngine.RaftProposal
open Option List RaftLogRecord RaftNode RaftService RaftEffects RaftElection RaftApplyOrder
    RaftSnapshotTransfer
open StepRuns

/-- Indices no truncation may reach: the committed ones, those up to an
entry a proposer waits for, and the first one above a snapshot. -/
def Claimed (n : Node) (x : ℕ) : Prop :=
  x ≤ n.commitIndex ∨ (∃ w ∈ n.waiters, x ≤ w.entry.index) ∨
  (0 < n.log.snapIndex ∧ x = n.log.firstIndex)

instance (n : Node) (x : ℕ) : Decidable (Claimed n x) := by
  unfold Claimed
  infer_instance

variable (n : Node)

theorem claimed_down {x y : ℕ} (hf : n.log.firstIndex ≤ x) (hxy : x ≤ y) (hy : Claimed n y) :
    Claimed n x := by
  rcases hy with h | ⟨w, hw, h⟩ | ⟨h, hy⟩
  · exact .inl (le_trans hxy h)
  · exact .inr (.inl ⟨w, hw, le_trans hxy h⟩)
  · exact .inr (.inr ⟨h, by omega⟩)

/-- A request as a leader builds it, whose entries lie above the follower's
snapshot and agree with its log at every claimed index. -/
def Agrees (n : Node) (req : AppendReq) : Prop :=
  req.entries.map Entry.index = List.range' (req.prevLogIndex+1) req.entries.length ∧
  (req.entries ≠ [] → n.log.snapIndex ≤ req.prevLogIndex) ∧
  (∀ e ∈ req.entries, Claimed n e.index → e.index ≤ n.log.lastIndex →
    n.log.termAt e.index = e.term) ∧
  (Claimed n req.prevLogIndex → req.prevLogIndex ≤ n.log.lastIndex →
    n.log.firstIndex ≤ req.prevLogIndex → n.log.termAt req.prevLogIndex = req.prevLogTerm)

instance (n : Node) (req : AppendReq) : Decidable (Agrees n req) := by
  unfold Agrees
  infer_instance

structure Keeps (K : ℕ → Prop) (l l' : Log) : Prop where
  wf : l'.Wf
  snap : l'.snapIndex = l.snapIndex
  read : ∀ x e, K x → l.read x = some e → l'.read x = some e

variable (K : ℕ → Prop) (l : Log)

theorem keeps_trans {m r : Log} (h : Keeps K l m) (h' : Keeps K m r) : Keeps K l r :=
  ⟨h'.wf, h'.snap.trans h.snap, fun x e hx he => h'.read x e hx (h.read x e hx he)⟩

variable {i self : ℕ} {req : AppendReq} {n' : Node} {payload : ByteFields.Bytes}
  {outs : List Output}

theorem keeps_append {term type : ℕ}
    {l' : Log} {idx : ℕ} (hw : l.Wf) (h : l.append term type payload = some (l', idx)) : Keeps K l l' := by
  refine ⟨append_wf l hw h, (append_step h).snap,
    ?_⟩
  intro x e _ he
  have hr := read_range l he
  have hidx := (append_some l h).2.1
  rw [append_read l hw.toAligned h x, if_neg (by omega), he]

theorem keeps_truncate (index : ℕ) (hw : l.Wf)
    (hk : l.firstIndex ≤ index → index ≤ l.lastIndex → ∀ y, index ≤ y → ¬K y)
    (hf : 0 < l.snapIndex → index = l.firstIndex → l.lastIndex < index) : Keeps K l (l.truncate index) := by
  have hn : ¬(0 < l.snapIndex ∧ index = l.firstIndex ∧ index ≤ l.lastIndex) := by
    rintro ⟨h1, h2, h3⟩
    omega
  refine ⟨truncate_wf l _ hw hn, (truncate_step l _).snap, ?_⟩
  intro x e hx he
  by_cases hin : l.firstIndex ≤ index ∧ index ≤ l.lastIndex
  · have hlt : x < index := by
      by_contra hge
      exact hk hin.1 hin.2 x (by omega) hx
    rw [(truncate_read l hw hin.1 hin.2 (fun h => hn ⟨h.1, h.2, hin.2⟩) x).2, if_pos hlt, he]
  rcases truncate_cases l _ with ⟨h, _⟩ | ⟨h1, _, h3, _⟩ | ⟨h1, h2, _⟩
  · rw [h]
    exact he
  · omega
  · omega

theorem keeps_refl (hw : l.Wf) : Keeps K l l :=
  ⟨hw, rfl, fun _ _ _ he => he⟩

theorem insert_keeps {es : List Entry} : ∀ (l : Log) (k : ℕ), l.Wf → l.snapIndex ≤ k → k ≤ l.lastIndex →
      es.map Entry.index = List.range' (k+1) es.length →
      (∀ x y, l.firstIndex ≤ x → x ≤ y → K y → K x) → (0 < l.snapIndex → K l.firstIndex) →
      (∀ e ∈ es, K e.index → e.index ≤ l.lastIndex → l.termAt e.index = e.term) →
      Keeps K l (insertEntries l es).1 := by
  induction es with
  | nil => exact fun l _ hw _ _ _ _ _ _ => keeps_refl K l hw
  | cons e es ih =>
    intro l k hw hs hk hmap hdown hfirst hterm
    rw [length_cons, range'_succ, map_cons, List.cons.injEq] at hmap
    obtain ⟨hidx, hmap⟩ := hmap
    have hfe := hw.first_eq
    rw [insertEntries]
    by_cases hhave : e.index ≤ l.lastIndex ∧ l.termAt e.index = e.term
    · rw [if_pos hhave]
      exact ih l (k+1) hw (by omega) (by omega) hmap hdown hfirst
        (fun f hf => hterm f (mem_cons_of_mem e hf))
    rw [if_neg hhave]
    dsimp only
    -- what is cut lies beyond every claimed index
    have hcut : Keeps K l (if e.index ≤ l.lastIndex then l.truncate e.index else l) ∧
        (if e.index ≤ l.lastIndex then l.truncate e.index else l).lastIndex = k := by
      by_cases hle : e.index ≤ l.lastIndex
      · rw [if_pos hle]
        have hnk : ¬K e.index := fun hke =>
          hhave ⟨hle, hterm e mem_cons_self hke hle⟩
        have hne : 0 < l.snapIndex → e.index ≠ l.firstIndex := by
          intro h0 heq
          rw [heq] at hnk
          exact hnk (hfirst h0)
        refine ⟨keeps_truncate K l _ hw (fun hf _ y hy hky => hnk (hdown _ y hf hy hky))
          (fun h0 heq => absurd heq (hne h0)), ?_⟩
        rw [(truncate_read l hw (by omega) hle (fun h => hne h.1 h.2) 0).1]
        omega
      · rw [if_neg hle]
        exact ⟨keeps_refl K l hw, by omega⟩
    generalize (if e.index ≤ l.lastIndex then l.truncate e.index else l) = cut at hcut
    obtain ⟨hkeep, hlast⟩ := hcut
    split
    · exact hkeep
    rename_i l' idx ha
    have happ := keeps_append K cut hkeep.wf ha
    have hl' : l'.lastIndex = k+1 := by
      obtain ⟨_, _, rfl⟩ := append_some cut ha
      change cut.lastIndex+1 = k+1
      omega
    have hboth := keeps_trans K l hkeep happ
    have hfi : l'.firstIndex = l.firstIndex := by
      rw [hboth.wf.first_eq, hfe, hboth.snap]
    have hsn := hboth.snap
    refine keeps_trans K l hboth (ih l' (k+1) hboth.wf (by omega) (by omega) hmap ?_ ?_ ?_)
    · rw [hfi]
      exact hdown
    · rw [hfi, hsn]
      exact hfirst
    intro f hf _ hle
    have hmem : f.index ∈ List.range' (k+1+1) es.length := by
      rw [← hmap]
      exact mem_map_of_mem hf
    rw [mem_range'_1] at hmem
    omega

theorem onAppend_keeps (hw : n.log.Wf) (hr : n.currentTerm ≤ req.term → Agrees n req) :
    Keeps (Claimed n) n.log (onAppendEntries n req).1.log ∧
    n.commitIndex ≤ (onAppendEntries n req).1.commitIndex ∧
    ((onAppendEntries n req).1.commitIndex = n.commitIndex ∨
      (onAppendEntries n req).1.commitIndex ≤ (onAppendEntries n req).1.log.lastIndex) := by
  have hfirst : 0 < n.log.snapIndex → Claimed n n.log.firstIndex := fun h => .inr (.inr ⟨h, rfl⟩)
  rcases onAppend_cases n req with ⟨_, h⟩ | ⟨ht, _, _, h⟩ | ⟨ht, hp, hle, hne, h⟩ | ⟨ht, hprev, l, ok, hins,
    _, h⟩
  · rw [h]
    exact ⟨keeps_refl _ _ hw, le_refl _, .inl rfl⟩
  · rw [h]
    obtain ⟨_, hlog, hcom, _⟩ := hearLeader_fields n _ _ ht
    rw [hlog, hcom]
    exact ⟨keeps_refl _ _ hw, le_refl _, .inl rfl⟩
  · rw [h]
    obtain ⟨_, _, hcom, _⟩ := hearLeader_fields n _ _ ht
    obtain ⟨_, _, _, hag⟩ := hr ht
    rw [hcom]
    refine ⟨keeps_truncate _ _ _ hw ?_ ?_, le_refl _, .inl rfl⟩
    · intro hf _ y hy hcl
      exact hne (hag (claimed_down n hf hy hcl) hle hf)
    · intro h0 heq
      exact absurd (hag (heq ▸ hfirst h0) hle (le_of_eq heq.symm)) hne
  rw [h]
  obtain ⟨hmap, hsnap, hent, _⟩ := hr ht
  have hkeep : Keeps (Claimed n) n.log l := by
    have hi : (insertEntries n.log req.entries).1 = l := by rw [hins]
    rw [← hi]
    by_cases hnil : req.entries = []
    · rw [hnil]
      exact keeps_refl _ _ hw
    refine insert_keeps _ _ _ hw (hsnap hnil) ?_ hmap
      (fun x y hx hxy hy => claimed_down n hx hxy hy) hfirst hent
    by_cases h0 : 0 < req.prevLogIndex
    · exact (hprev h0).1
    · omega
  refine ⟨hkeep, ?_, ?_⟩
  · split
    · exact le_max_left _ _
    · exact le_refl _
  split
  · rcases le_total _ n.commitIndex with hx | hx
    · exact .inl (max_eq_left hx)
    · rw [max_eq_right hx]
      exact .inr (min_le_right _ _)
  · exact .inl rfl

def pending (n : Node) : List Entry := n.waiters.map Waiter.entry

def Capped (a : Apply) (commit snap : ℕ) : Prop :=
  match a with
  | .idle => True
  | .loop _ c | .missed _ c | .recorded _ c _ => c ≤ commit
  | .skip s c => s ≤ snap ∧ c ≤ commit
  | .hold idx c _ | .ran idx c _ _ => idx ≤ commit ∧ c ≤ commit

structure Held (n : Node) (tr : List Output) (x : Entry) : Prop where
  last : x.index ≤ n.log.lastIndex
  own : ∀ e, n.log.read x.index = some e → e = x
  waiting : n.lastApplied < x.index → n.log.read x.index = some x
  same : ∀ e, Output.apply e ∈ tr → e.index = x.index → e = x
  done : x.index ≤ n.lastApplied → Output.apply x ∈ tr
  hold : ∀ idx c e, n.apply = .hold idx c e → x.index = idx → e = x

/-- A proposal reported successful was applied, and nothing else was applied
at its index. -/
def OkApplied (tr : List Output) : Prop :=
  ∀ x, Output.result x .ok ∈ tr → Output.apply x ∈ tr ∧
    ∀ e, Output.apply e ∈ tr → e.index = x.index → e = x

structure Tracked (s : Node × List Output) : Prop where
  wf : s.1.log.Wf
  applied : s.1.lastApplied ≤ s.1.commitIndex
  commit : s.1.commitIndex ≤ s.1.log.lastIndex
  snap : s.1.log.snapIndex ≤ s.1.commitIndex
  cap : Capped s.1.apply s.1.commitIndex s.1.log.snapIndex
  held : ∀ x ∈ pending s.1, Held s.1 s.2 x
  distinct : (pending s.1).Pairwise (fun a b => a.index < b.index)
  ran : ∀ idx c e rc, s.1.apply = .ran idx c e rc → Output.apply e ∈ s.2 ∧ e.index = idx
  ok : OkApplied s.2

theorem capped_mono {a : Apply} {commit commit' snap : ℕ} (snap' : ℕ) (hc : commit ≤ commit')
    (hs : snap ≤ snap') (h : Capped a commit snap) : Capped a commit' snap' := by
  cases a <;> simp only [Capped] at h ⊢ <;> omega

theorem wf_last (hw : l.Wf) : l.snapIndex ≤ l.lastIndex := by
  have h1 := hw.span
  have h2 := hw.first_eq
  omega

theorem wf_below (hw : l.Wf) (x : ℕ) (h : x ≤ l.snapIndex) : l.read x = none := by
  cases hr : l.read x with
  | none => rfl
  | some e =>
    have h1 := (read_range l hr).1
    have h2 := hw.first_eq
    omega

theorem tracked_keep (n' : Node) (tr outs : List Output) (ht : Tracked (n, tr))
    (hw : n'.log.Wf) (hs : n'.log.snapIndex = n.log.snapIndex)
    (hread : ∀ x ∈ pending n', ∀ e, n.log.read x.index = some e → n'.log.read x.index = some e)
    (hla : n'.lastApplied = n.lastApplied) (hap : n'.apply = n.apply)
    (hcom : n.commitIndex ≤ n'.commitIndex) (hlast : n'.commitIndex ≤ n'.log.lastIndex)
    (hsub : (pending n').Sublist (pending n)) (hno : ∀ e, Output.apply e ∉ outs)
    (hok : ∀ x, Output.result x .ok ∈ outs → x ∈ pending n ∧ x.index ≤ n.lastApplied) :
    Tracked (n', tr++outs) := by
  have happ : ∀ e, Output.apply e ∈ tr++outs → Output.apply e ∈ tr := by
    intro e he
    rcases mem_append.mp he with he | he
    · exact he
    · exact absurd he (hno e)
  refine ⟨hw, ?_, hlast, ?_, ?_, ?_, ht.distinct.sublist hsub, ?_, ?_⟩
  · rw [hla]
    exact le_trans ht.applied hcom
  · rw [hs]
    exact le_trans ht.snap hcom
  · rw [hap, hs]
    exact capped_mono _ hcom (le_refl _) ht.cap
  · intro x hx
    obtain ⟨h1, h2, h3, h4, h5, h6⟩ := ht.held x (hsub.subset hx)
    have hfe := hw.first_eq
    have hfe' := ht.wf.first_eq
    dsimp only at hfe'
    have hcase : x.index ≤ n.log.snapIndex ∨ n.log.read x.index = some x := by
      by_cases hx0 : x.index ≤ n.log.snapIndex
      · exact .inl hx0
      obtain ⟨e, he, _⟩ := read_some n.log ht.wf (by omega) h1
      rw [h2 e he] at he
      exact .inr he
    have hnew : x.index ≤ n.log.snapIndex ∨ n'.log.read x.index = some x :=
      hcase.imp_right (hread x hx x)
    refine ⟨?_, ?_, ?_, fun e he => h4 e (happ e he), ?_, ?_⟩
    · rcases hnew with h | h
      · have := wf_last _ hw
        dsimp only
        omega
      · exact (read_range _ h).2
    · intro e he
      rcases hnew with h | h
      · have := (read_range _ he).1
        dsimp only at this
        omega
      rw [h] at he
      exact (some.inj he).symm
    · intro hlt
      rw [hla] at hlt
      exact hread x hx x (h3 hlt)
    · intro hle
      rw [hla] at hle
      exact mem_append_left _ (h5 hle)
    · rw [hap]
      exact h6
  · intro idx c e rc hx
    rw [hap] at hx
    obtain ⟨h1, h2⟩ := ht.ran idx c e rc hx
    exact ⟨mem_append_left _ h1, h2⟩
  · intro x hx
    rcases mem_append.mp hx with hx | hx
    · obtain ⟨h1, h2⟩ := ht.ok x hx
      exact ⟨mem_append_left _ h1, fun e he => h2 e (happ e he)⟩
    obtain ⟨h1, h2⟩ := hok x hx
    have hh := ht.held x h1
    exact ⟨mem_append_left _ (hh.done h2), fun e he => hh.same e (happ e he)⟩

theorem tracked_still (n' : Node) (tr outs : List Output) (ht : Tracked (n, tr))
    (hs : Still n n' outs) : Tracked (n', tr++outs) := by
  refine tracked_keep n n' tr _ ht ?_ ?_ ?_ hs.lastApplied hs.apply
    (le_of_eq hs.commitIndex.symm) ?_ ?_ hs.applies (fun x hx => absurd hx (hs.results x .ok))
  · rw [hs.log]
    exact ht.wf
  · rw [hs.log]
  · rw [hs.log]
    exact fun _ _ _ he => he
  · rw [hs.log, hs.commitIndex]
    exact ht.commit
  · rw [pending, hs.waiters]
    exact List.Sublist.refl _

theorem advanceCommit_range (h : n.commitIndex ≤ n.log.lastIndex) :
    n.commitIndex ≤ n.advanceCommit.commitIndex ∧ n.advanceCommit.commitIndex ≤ n.log.lastIndex := by
  unfold Node.advanceCommit
  split
  · exact ⟨le_refl _, h⟩
  split
  · rename_i N hN
    have hm := mem_of_find?_eq_some hN
    rw [mem_reverse, mem_range'_1] at hm
    exact ⟨by dsimp only; omega, by dsimp only; omega⟩
  · exact ⟨le_refl _, h⟩

variable (tr : List Output)

theorem tracked_recvAppend (ht : Tracked (n, tr))
    (hr : n.currentTerm ≤ req.term → Agrees n req) (ho : ∀ o ∈ outs, ∃ p, o = Output.send p) :
    Tracked ((onAppendEntries n req).1, tr++outs) := by
  have hno : ∀ e, Output.apply e ∉ outs := fun e he => by simpa using ho _ he
  have hlo := onAppendEntries_logOnly n req hno
  have hwait := (onAppendEntries_kept n req).1
  obtain ⟨hk, hc1, hc2⟩ := onAppend_keeps n ht.wf hr
  have hcom := ht.commit
  refine tracked_keep n _ tr _ ht hk.wf hk.snap ?_ hlo.lastApplied hlo.apply hc1 ?_ ?_ hno
    (fun x hx => by simpa using ho _ hx)
  · intro x hx e he
    rw [pending, hwait] at hx
    obtain ⟨w, hw, rfl⟩ := mem_map.mp hx
    exact hk.read _ e (.inr (.inl ⟨w, hw, le_refl _⟩)) he
  · rcases hc2 with h | h
    · rw [h]
      -- a committed entry is claimed, so the log still reaches the commit index
      by_cases hs : n.commitIndex ≤ n.log.snapIndex
      · have := wf_last _ hk.wf
        rw [hk.snap] at this
        omega
      have hfe := ht.wf.first_eq
      dsimp only at hfe hcom
      obtain ⟨e, he, _⟩ := read_some n.log ht.wf (by omega) hcom
      exact (read_range _ (hk.read _ e (.inl (le_refl _)) he)).2
    · exact h
  · rw [pending, hwait]
    exact List.Sublist.refl _

theorem tracked_commit (ht : Tracked (n, tr)) : Tracked (n.advanceCommit, tr) := by
  obtain ⟨hc1, hc2⟩ := advanceCommit_range n ht.commit
  obtain ⟨N, hN⟩ := advanceCommit_eq n
  rw [hN] at hc1 hc2 ⊢
  have hk := tracked_keep n { n with commitIndex := N } tr [] ht ht.wf rfl (fun _ _ _ he => he) rfl
    rfl hc1 hc2 (List.Sublist.refl _) (by simp) (by simp)
  rwa [append_nil] at hk

theorem tracked_mergeReply (ht : Tracked (n, tr)) (peer : ℕ)
    (req : AppendReq) (resp : AppendResp) : Tracked (mergeReply n peer req resp, tr) := by
  have still : ∀ m : Node, m.log = n.log ∧ m.commitIndex = n.commitIndex ∧
      m.lastApplied = n.lastApplied ∧ m.apply = n.apply ∧ m.waiters = n.waiters →
      Tracked (m, tr) := by
    intro m hm
    have hk := tracked_still n m tr [] ht (still_sends [] hm (by simp))
    rwa [append_nil] at hk
  rcases mergeReply_cases n _ req _ with ⟨_, h⟩ | ⟨_, h⟩ | ⟨_, _, _, h⟩ | ⟨_, h⟩
  · rw [h]
    exact still _ ⟨rfl, rfl, rfl, rfl, rfl⟩
  · rw [h]
    exact ht
  · rw [h]
    exact tracked_commit _ tr (still _ ⟨rfl, rfl, rfl, rfl, rfl⟩)
  · rw [h]
    exact still _ ⟨rfl, rfl, rfl, rfl, rfl⟩

variable (cfg : Config)

theorem tracked_wake {n : Node} {tr : List Output} (ht : Tracked (n, tr))
      (h : Effect cfg self n (.wake i) n' outs) : Tracked (n', tr++outs) := by
  have herase : ((n.waiters.eraseIdx i).map Waiter.entry).Sublist (pending n) :=
    (eraseIdx_sublist _ _).map _
  cases h with
  | @wakeApplied _ w hw hle =>
    refine tracked_keep n _ tr _ ht ht.wf rfl (fun _ _ _ he => he) rfl rfl (le_refl _) ht.commit
      herase (by simp) ?_
    intro x hx
    simp only [mem_singleton, Output.result.injEq] at hx
    rw [hx.1]
    exact ⟨mem_map_of_mem (mem_of_getElem? hw), hle⟩
  | wakeDeposed =>
    exact tracked_keep n _ tr _ ht ht.wf rfl (fun _ _ _ he => he) rfl rfl (le_refl _) ht.commit
      herase (by simp) (by simp)
  | @park _ w hw =>
    refine tracked_keep n _ tr _ ht ht.wf rfl (fun _ _ _ he => he) rfl rfl (le_refl _) ht.commit
      ?_ (by simp) (by simp)
    have hsame : (n.waiters.set i { w with parked := true }).map Waiter.entry = pending n := by
      have hget : (pending n)[i]? = some w.entry := by rw [pending, getElem?_map, hw]; rfl
      obtain ⟨hi, he⟩ := List.getElem?_eq_some_iff.mp hget
      rw [map_set, ← pending, ← he]
      exact set_getElem_self hi
    rw [pending, hsame]

theorem behind_committed {s : Node × List Output} (ho : Ordered s) (ht : Tracked s) {e : Entry}
    (he : Output.apply e ∈ s.2) : e.index ≤ s.1.commitIndex := by
  have hb := ho.behind e he
  have hc := ht.cap
  have ha := ht.applied
  cases hp : s.1.apply <;> simp only [hp, Behind, Capped] at hb hc <;> omega

theorem tracked_propose {n : Node} {tr : List Output}
    (ho : Ordered (n, tr)) (ht : Tracked (n, tr)) {type : EntryType}
      (h : Effect cfg self n (.propose type payload) n' outs) :
    Tracked (n', tr++outs) := by
  cases h with
  | @propose _ _ l idx _ ha =>
    rw [append_nil]
    apply tracked_commit
    have hwf := ht.wf
    have hcom := ht.commit
    have happ := ht.applied
    dsimp only at hwf hcom happ
    obtain ⟨_, hidx, hl⟩ := append_some _ ha
    have hlast : l.lastIndex = n.log.lastIndex+1 := by rw [hl]
    have hread := append_read _ hwf.toAligned ha
    have hsnap := (append_step ha).snap
    have hpend : pending (proposed n l ⟨idx, n.currentTerm, type.code, payload⟩) =
        pending n++[⟨idx, n.currentTerm, type.code, payload⟩] := by
      simp [pending, proposed]
    refine ⟨append_wf _ hwf ha, happ, by change n.commitIndex ≤ l.lastIndex; omega, ?_,
      ?_, ?_, ?_, ht.ran, ht.ok⟩
    · change l.snapIndex ≤ n.commitIndex
      rw [hsnap]
      exact ht.snap
    · change Capped n.apply n.commitIndex l.snapIndex
      rw [hsnap]
      exact ht.cap
    · intro x hx
      rw [hpend, mem_append, mem_singleton] at hx
      rcases hx with hx | rfl
      · obtain ⟨h1, h2, h3, h4, h5, h6⟩ := ht.held x hx
        dsimp only at h1 h2 h3
        have hsame : l.read x.index = n.log.read x.index := by
          rw [hread, if_neg (by omega)]
        refine ⟨by change x.index ≤ l.lastIndex; omega, ?_, ?_, h4, h5, h6⟩
        · change ∀ e, l.read x.index = some e → e = x
          rw [hsame]
          exact h2
        change n.lastApplied < x.index → l.read x.index = some x
        rw [hsame]
        exact h3
      refine ⟨by change idx ≤ l.lastIndex; omega, ?_, ?_, ?_, ?_, ?_⟩
      · intro e he
        change l.read idx = some e at he
        rw [hread, if_pos rfl] at he
        exact (some.inj he).symm
      · intro _
        change l.read idx = _
        rw [hread, if_pos rfl]
      · intro e he hi
        have hx := behind_committed ho ht he
        dsimp only at hx hi
        omega
      · intro hle
        change idx ≤ n.lastApplied at hle
        omega
      · intro i c e hp hi
        change n.apply = .hold i c e at hp
        change idx = i at hi
        have hcap := ht.cap
        simp only [hp, Capped] at hcap
        omega
    · rw [hpend, pairwise_append]
      refine ⟨ht.distinct, pairwise_singleton _ _, ?_⟩
      intro a hx b hb
      rw [mem_singleton.mp hb]
      have h1 := (ht.held a hx).last
      dsimp only at h1 ⊢
      omega

theorem pending_other (ht : Tracked (n, tr)) {w : Waiter} (hw : n.waiters[i]? = some w) {x : Entry}
    (hx : x ∈ (n.waiters.eraseIdx i).map Waiter.entry) : x.index ≠ w.entry.index := by
  obtain ⟨v, hv, rfl⟩ := mem_map.mp hx
  obtain ⟨j, hj, hvj⟩ := mem_eraseIdx_iff_getElem?.mp hv
  obtain ⟨hi, rfl⟩ := List.getElem?_eq_some_iff.mp hw
  obtain ⟨hj', rfl⟩ := List.getElem?_eq_some_iff.mp hvj
  have hd := ht.distinct
  rw [pending, pairwise_map, pairwise_iff_getElem] at hd
  rcases Nat.lt_or_gt_of_ne hj with hlt | hgt
  · exact Nat.ne_of_lt (hd j i hj' hi hlt)
  · exact Nat.ne_of_gt (hd i j hi hj' hgt)

theorem tracked_timeout (ht : Tracked (n, tr))
    (hf : ∀ w, n.waiters[i]? = some w → w.parked = true → RollsBack n w.entry.index →
      ¬(0 < n.log.snapIndex ∧ w.entry.index = n.log.firstIndex))
    {cfg : Config} (h : Effect cfg self n (.timeout i) n' outs) : Tracked (n', tr++outs) := by
  have hcom := ht.commit
  have hwf := ht.wf
  dsimp only at hcom hwf
  have herase : ((n.waiters.eraseIdx i).map Waiter.entry).Sublist (pending n) :=
    (eraseIdx_sublist _ _).map _
  cases h with
  | @rollBack _ w hw hpark hroll =>
    have hfirst := hf w hw hpark hroll
    obtain ⟨_, hgt, hlast, _⟩ := hroll
    have hk := keeps_truncate (fun x => x < w.entry.index) _ _ hwf
      (fun _ _ y hy hlt => by omega) (fun h0 he => absurd ⟨h0, he⟩ hfirst)
    refine tracked_keep n _ tr _ ht hk.wf hk.snap ?_ rfl rfl (le_refl _) ?_ herase (by simp)
      (by simp)
    · intro x hx e he
      have h1 := pending_other n tr ht hw hx
      have h2 := (ht.held x (herase.subset hx)).last
      dsimp only at h2
      exact hk.read _ e (by omega) he
    change n.commitIndex ≤ (n.log.truncate w.entry.index).lastIndex
    by_cases hin : n.log.firstIndex ≤ w.entry.index
    · rw [(truncate_read _ hwf hin (by omega) hfirst 0).1]
      omega
    rcases truncate_cases _ _ with ⟨he, _⟩ | ⟨he, _⟩ | ⟨he, _⟩
    · rw [he]
      exact hcom
    · omega
    · omega
  | giveUp =>
    exact tracked_keep n _ tr _ ht hwf rfl (fun _ _ _ he => he) rfl rfl (le_refl _) hcom herase
      (by simp) (by simp)

theorem held_compact (n' : Node) {tr : List Output} (si st : ℕ) {x : Entry} (hw : n.log.Wf)
    (h : Held n tr x) (hl : n'.log = n.log.compact si st) (hap : n'.apply = n.apply ∨
      ∀ idx c e, n'.apply ≠ .hold idx c e) (hla : n.lastApplied ≤ n'.lastApplied)
      (hx : n.lastApplied < x.index →
      si < x.index ∧ n'.lastApplied < x.index) : Held n' tr x := by
  obtain ⟨h1, h2, h3, h4, h5, h6⟩ := h
  have hlast : n.log.lastIndex ≤ n'.log.lastIndex := by
    rw [hl]
    by_cases hsi : si ≤ n.log.snapIndex
    · rw [compact_stale _ _ hsi]
    rw [compact_last _ _ _ (by omega), length_drop]
    have := hw.span
    have := hw.first_le
    omega
  have hread : ∀ y e, n'.log.read y = some e → n.log.read y = some e := by
    intro y e he
    rw [hl] at he
    by_cases hsi : si ≤ n.log.snapIndex
    · rwa [compact_stale _ _ hsi] at he
    rw [compact_read _ hw.toAligned (by omega)] at he
    split at he
    · simp at he
    · exact he
  refine ⟨le_trans h1 hlast, fun e he => h2 e (hread _ e he), ?_, h4, ?_, ?_⟩
  · intro hlt
    have hlt' : n.lastApplied < x.index := by omega
    rw [hl]
    by_cases hsi : si ≤ n.log.snapIndex
    · rw [compact_stale _ _ hsi]
      exact h3 hlt'
    rw [compact_read _ hw.toAligned (by omega), if_neg (by omega)]
    exact h3 hlt'
  · intro hle
    by_cases hlt : n.lastApplied < x.index
    · omega
    · exact h5 (by omega)
  · intro idx c e he
    rcases hap with hap | hap
    · rw [hap] at he
      exact h6 idx c e he
    · exact absurd he (hap idx c e)

theorem compact_range (si st : ℕ) (hw : l.Wf) : (l.compact si st).Wf ∧
    l.lastIndex ≤ (l.compact si st).lastIndex ∧
    si ≤ (l.compact si st).lastIndex ∧ (l.compact si st).snapIndex = max l.snapIndex si := by
  have hs := hw.span
  have hf := hw.first_eq
  by_cases hsi : si ≤ l.snapIndex
  · rw [compact_stale _ _ hsi]
    exact ⟨hw, le_refl _, by omega, by omega⟩
  have hm := (compact_marks l si st (by omega)).1
  have hl := compact_last l si st (by omega)
  rw [length_drop] at hl
  exact ⟨compact_wf l si st hw.toAligned (by omega), by omega, by omega, by omega⟩

theorem tracked_install {tr : List Output} (ht : Tracked (n, tr)) {req : InstallReq}
    (hok : ∀ x ∈ pending n, n.lastApplied < x.index → req.lastIncludedIndex < x.index)
    (hl : n'.log = n.log.compact req.lastIncludedIndex req.lastIncludedTerm)
    (hla : n'.lastApplied = max n.lastApplied req.lastIncludedIndex)
    (hco : n'.commitIndex = max n.commitIndex req.lastIncludedIndex) (hap : n'.apply = n.apply)
    (hwt : n'.waiters = n.waiters) : Tracked (n', tr) := by
  have hwf := ht.wf
  have happ := ht.applied
  have hcom := ht.commit
  dsimp only at hwf happ hcom
  obtain ⟨h1, h2, h3, h4⟩ := compact_range _ _ _ hwf
  rw [← hl] at h1 h2 h3 h4
  have hpend : pending n' = pending n := by rw [pending, hwt, pending]
  have hsn := ht.snap
  dsimp only at hsn
  refine ⟨h1, ?_, ?_, ?_, ?_, ?_, ?_, ?_, ht.ok⟩
  · dsimp only
    omega
  · dsimp only
    omega
  · dsimp only
    omega
  · rw [hap, hco, h4]
    exact capped_mono _ (le_max_left _ _) (le_max_left _ _) ht.cap
  · intro x hx
    rw [hpend] at hx
    refine held_compact n n' _ _ hwf (ht.held x hx) hl (.inl hap) (by omega) ?_
    intro hlt
    have := hok x hx hlt
    exact ⟨this, by omega⟩
  · rw [hpend]
    exact ht.distinct
  · rw [hap]
    exact ht.ran

theorem tracked_applyStep {n : Node} {tr : List Output} {rc : ℤ}
      (ho : Ordered (n, tr)) (ht : Tracked (n, tr))
    (h : Effect cfg self n (.applyStep rc) n' outs) : Tracked (n', tr++outs) := by
  have hnear := ho.near
  have hbeh := ho.behind
  have hcap := ht.cap
  have happ := ht.applied
  have hcom := ht.commit
  have hwf := ht.wf
  have hsn := ht.snap
  dsimp only at hnear hbeh hcap happ hcom hwf hsn
  -- moving the place of the thread, nothing else
  have move : ∀ a : Apply, Capped a n.commitIndex n.log.snapIndex →
      (∀ idx c e, a = .hold idx c e → ∀ x ∈ pending n, x.index = idx → e = x) →
      (∀ idx c e r, a ≠ .ran idx c e r) → Tracked ({ n with apply := a }, tr++[]) := by
    intro a hc hh hr
    rw [append_nil]
    refine ⟨hwf, happ, hcom, hsn, hc, ?_, ht.distinct, fun idx c e r hx => absurd hx (hr idx c e r), ht.ok⟩
    intro x hx
    obtain ⟨h1, h2, h3, h4, h5, _⟩ := ht.held x hx
    exact ⟨h1, h2, h3, h4, h5, fun idx c e he => hh idx c e he x hx⟩
  cases h with
  | applyStart => exact move _ (le_refl n.commitIndex) (by simp) (by simp)
  | applyEnd | applyQuit => exact move _ trivial (by simp) (by simp)
  | applyRead hp hle hr =>
    simp only [hp, Capped] at hcap
    refine move _ ⟨by omega, hcap⟩ ?_ (by simp)
    intro i c f hf x hx hxi
    cases hf
    exact (ht.held x hx).own _ (by rw [hxi]; exact hr)
  | applyMiss hp =>
    rw [hp] at hcap
    exact move _ hcap (by simp) (by simp)
  | applyPass hp =>
    rw [hp] at hcap
    exact move _ ⟨le_refl _, hcap⟩ (by simp) (by simp)
  | @applySkip _ snap commit hp =>
    simp only [hp, Capped] at hcap
    rw [append_nil]
    refine ⟨hwf, by change max n.lastApplied snap ≤ n.commitIndex; omega, hcom, hsn, hcap.2, ?_,
      ht.distinct, by simp, ht.ok⟩
    intro x hx
    obtain ⟨h1, h2, h3, h4, h5, _⟩ := ht.held x hx
    dsimp only at h3 h5
    refine ⟨h1, h2, ?_, h4, ?_, by simp⟩
    · intro hlt
      change max n.lastApplied snap < x.index at hlt
      exact h3 (by omega)
    intro hle
    change x.index ≤ max n.lastApplied snap at hle
    by_cases hlt : n.lastApplied < x.index
    · -- an entry still waited for is in the log, so it is not below the snapshot
      have hnone := wf_below n.log hwf x.index (by omega)
      rw [h3 hlt] at hnone
      simp at hnone
    · exact h5 (by omega)
  | @applyRun _ idx commit e hp =>
    simp only [hp, Capped, Near] at hcap hnear
    refine ⟨hwf, happ, hcom, hsn, hcap, ?_, ht.distinct, ?_, ?_⟩
    · intro x hx
      obtain ⟨h1, h2, h3, h4, h5, h6⟩ := ht.held x hx
      refine ⟨h1, h2, h3, ?_, fun hle => mem_append_left _ (h5 hle), by simp⟩
      intro f hf hi
      rcases mem_append.mp hf with hf | hf
      · exact h4 f hf hi
      have hfe : f = e := by simpa using hf
      rw [hfe] at hi ⊢
      exact h6 idx commit e hp (by rw [← hi, hnear.2])
    · intro i c f r hf
      cases hf
      exact ⟨mem_append_right _ (mem_singleton_self _), hnear.2⟩
    intro x hx
    rcases mem_append.mp hx with hx | hx
    · obtain ⟨h1, h2⟩ := ht.ok x hx
      refine ⟨mem_append_left _ h1, ?_⟩
      intro f hf hi
      rcases mem_append.mp hf with hf | hf
      · exact h2 f hf hi
      have hfe : f = e := by simpa using hf
      have hx' := hbeh x h1
      simp only [hp, Behind] at hx'
      rw [hfe, hnear.2] at hi
      omega
    · simp at hx
  | @applyRecord _ r idx commit e hp =>
    simp only [hp, Capped, Near] at hcap hnear
    rw [append_nil]
    obtain ⟨hin, hie⟩ := ht.ran idx commit e r hp
    refine ⟨hwf, hcap.1, hcom, hsn, hcap.2, ?_, ht.distinct, by simp, ht.ok⟩
    intro x hx
    obtain ⟨h1, h2, h3, h4, h5, _⟩ := ht.held x hx
    dsimp only at h3 h4 h5
    refine ⟨h1, h2, ?_, h4, ?_, by simp⟩
    · intro hlt
      change idx < x.index at hlt
      by_cases hla : n.lastApplied < x.index
      · exact h3 hla
      have hx' := hbeh x (h5 (by omega))
      simp only [hp, Behind] at hx'
      omega
    intro hle
    change x.index ≤ idx at hle
    by_cases hla : n.lastApplied < x.index
    · have hxe := h4 e hin (by omega)
      rw [← hxe]
      exact hin
    · exact h5 (by omega)
  | @applyCompact _ idx commit term hp hst =>
    simp only [hp, Capped, Near] at hcap hnear
    rw [append_nil]
    obtain ⟨h1, h2, _, h4⟩ := compact_range _ idx _ hwf
    refine ⟨h1, happ, le_trans hcom h2, by dsimp only; omega, hcap, ?_, ht.distinct, by simp, ht.ok⟩
    intro x hx
    exact held_compact n _ idx _ hwf (ht.held x hx) rfl (.inr (by simp)) (le_refl _)
      (fun hlt => ⟨by omega, hlt⟩)
  | applyNext hp =>
    rw [hp] at hcap
    exact move _ hcap (by simp) (by simp)

/-- A request agrees with the log at the claimed indices, a rollback spares the first entry above
a snapshot, a snapshot stays below the entries waited for. -/
def undisturbed (s : Node × List Output) (ev : Event) : Prop :=
  match ev with
  | .recvAppend req => s.1.currentTerm ≤ req.term → Agrees s.1 req
  | .timeout i =>
    (s.1.waiters[i]?).elim True (fun w => w.parked = true ∧ RollsBack s.1 w.entry.index →
      ¬(0 < s.1.log.snapIndex ∧ w.entry.index = s.1.log.firstIndex))
  | .installStep i _ =>
    match s.1.installs[i]? with
    | some (.finish req true) =>
      ∀ x ∈ pending s.1, s.1.lastApplied < x.index → req.lastIncludedIndex < x.index
    | _ => True
  | _ => True

instance (s : Node × List Output) (ev : Event) : Decidable (undisturbed s ev) := by
  induction ev using Event.casesOn with
  | recvAppend req => exact inferInstanceAs (Decidable (_ → _))
  | timeout i => exact inferInstanceAs (Decidable ((s.1.waiters[i]?).elim _ _))
  | installStep i ok =>
    dsimp only [undisturbed]
    generalize s.1.installs[i]? = inst
    exact match inst with
      | none => isTrue trivial
      | some (.finish req true) => inferInstanceAs (Decidable (∀ x ∈ pending s.1,
        s.1.lastApplied < x.index → req.lastIncludedIndex < x.index))
      | some (.finish _ false) => isTrue trivial
      | some (.stage _) => isTrue trivial
      | some (.slurp _) => isTrue trivial
      | some (.restore _ _) => isTrue trivial
      | some (.unlink _ _) => isTrue trivial
  | _ => exact isTrue trivial

theorem tracked_step {s s' : Node × List Output} {ev : Event}
    (ho : Ordered s) (ht : Tracked s) (hok : undisturbed s ev) (h : serve cfg self s ev = some s') :
    Tracked s' := by
  obtain ⟨n, tr⟩ := s
  obtain ⟨⟨n', outs⟩, hs, rfl⟩ := map_eq_some_iff.mp h
  by_cases hst : Event.still ev = true
  · exact tracked_still n n' tr _ ht (step_still cfg _ hst hs)
  have he := step_effect hs
  cases ev with
  | recvAppend req =>
    cases he
    exact tracked_recvAppend n tr ht hok (by simp)
  | installStep i ok =>
    rcases installStep_cases cfg he with
      hq | ⟨req, hx, hl, hla, hco, hap, hwt, hno, hre⟩
    · exact tracked_still n n' tr _ ht hq
    simp only [undisturbed, hx] at hok
    have hk := tracked_install n ht hok hl hla hco hap hwt
    exact tracked_still n' n' tr _ hk ⟨rfl, rfl, rfl, rfl, rfl, hno, hre⟩
  | propose type payload => exact tracked_propose cfg ho ht he
  | wake i => exact tracked_wake cfg ht he
  | timeout i =>
    refine tracked_timeout n tr ht ?_ he
    intro w hw hp hr
    simp only [undisturbed, hw, elim_some] at hok
    exact hok ⟨hp, hr⟩
  | replicateReply peer req resp =>
    cases he
    rw [append_nil]
    apply tracked_mergeReply
    have hk := tracked_still n (returned n peer req) tr [] ht
      (still_sends _ ⟨rfl, rfl, rfl, rfl, rfl⟩ (by simp))
    rwa [append_nil] at hk
  | applyStep rc => exact tracked_applyStep cfg ho ht he
  | tickStart | tickAsk | tickReply _ | tickFail | tickNext | checkQuorum _ | recvPreVote _ _
  | recvVote _ | recvInstall _ | replicate _ | replicateFail _ _ | replicateDone
  | transferStart _ _ | transferSend _ | transferAck _ _ | transferAbort _ | transferDone _ =>
    exact absurd rfl hst

theorem tracked_boot (self term vote : ℕ) {log : Log} (hl : log.Wf) :
    Tracked (Node.boot cfg self term vote log, []) where
  wf := hl
  applied := le_refl _
  commit := wf_last log hl
  snap := le_refl _
  cap := trivial
  held _ hx := absurd hx (by simp [pending, Node.boot])
  distinct := List.Pairwise.nil
  ran _ _ _ _ hx := absurd hx (by simp [Node.boot])
  ok _ hx := absurd hx (by simp)

/-- In every run that does not disturb the entries proposers wait for, a
proposal reported successful is the entry applied at its index. -/
theorem successful_proposal_applied (cfg : Config) (self term vote : ℕ) (log : Log) (hl : log.Wf)
    (evs : List Event) (s : Node × List Output)
    (ha : Along (serve cfg self) undisturbed (Node.boot cfg self term vote log, []) evs)
    (hr : run (serve cfg self) (Node.boot cfg self term vote log, []) evs = some s) : OkApplied s.2 := by
  refine (run_invariant (fun s => Ordered s ∧ Tracked s) ?_ evs _ s ?_ ha hr).2.ok
  · intro s ev s' hs hok h
    exact ⟨ordered_step cfg _ s' ev hs.1 h, tracked_step cfg hs.1 hs.2 hok h⟩
  · exact ⟨ordered_boot cfg _ _ _ hl.toAligned, tracked_boot cfg _ _ _ hl⟩

def leadAndPropose : List Event :=
  [.tickStart, .tickAsk, .tickReply ⟨0, true⟩, .tickNext, .tickNext, .tickAsk, .tickReply ⟨1, true⟩,
    .tickNext, .propose .catalogQtl [7], .wake 0]

def proposalCommitted : List Event :=
  leadAndPropose++[.replicate 2, .replicateReply 2 ⟨1, 1, 0, 0, 0, [⟨1, 1, 1, [7]⟩]⟩ ⟨1, true, 1⟩,
    .applyStep 0, .applyStep 0, .applyStep 0, .applyStep 0, .wake 0]

theorem successful_proposal_committed :
    ∃ s, Along (serve twoNodes 1) undisturbed (Node.boot twoNodes 1 0 0 Log.empty, []) proposalCommitted ∧
      run (serve twoNodes 1) (Node.boot twoNodes 1 0 0 Log.empty, []) proposalCommitted = some s ∧
      Output.result ⟨1, 1, 1, [7]⟩ .ok ∈ s.2 ∧ OkApplied s.2 := by
  have ha : Along (serve twoNodes 1) undisturbed (Node.boot twoNodes 1 0 0 Log.empty, [])
    proposalCommitted := by decide +kernel
  obtain ⟨s, hr, hres⟩ := run_reaches (serve twoNodes 1) (Node.boot twoNodes 1 0 0 Log.empty, [])
    proposalCommitted (fun s => Output.result ⟨1, 1, 1, [7]⟩ .ok ∈ s.2) (by decide +kernel)
  exact ⟨s, ha, hr, hres, successful_proposal_applied twoNodes 1 0 0 Log.empty wf_empty
    proposalCommitted s ha hr⟩

/-- The leader of term 2 replaces the entry before the proposer looks again. -/
def proposalOverwritten : List Event :=
  leadAndPropose++[.recvAppend ⟨2, 2, 0, 0, 1, [⟨1, 2, 1, [8]⟩]⟩,
    .applyStep 0, .applyStep 0, .applyStep 0, .applyStep 0, .wake 0]

theorem overwritten_proposal_reported_ok :
    ∃ s, run (serve twoNodes 1) (Node.boot twoNodes 1 0 0 Log.empty, []) proposalOverwritten = some s ∧
      Output.result ⟨1, 1, 1, [7]⟩ .ok ∈ s.2 ∧ Output.apply ⟨1, 2, 1, [8]⟩ ∈ s.2 ∧
      Output.apply ⟨1, 1, 1, [7]⟩ ∉ s.2 ∧ ¬OkApplied s.2 := by
  obtain ⟨s, hr, h1, h2, h3⟩ := run_reaches (serve twoNodes 1)
    (Node.boot twoNodes 1 0 0 Log.empty, []) proposalOverwritten
    (fun s => Output.result ⟨1, 1, 1, [7]⟩ .ok ∈ s.2 ∧ Output.apply ⟨1, 2, 1, [8]⟩ ∈ s.2 ∧
      Output.apply ⟨1, 1, 1, [7]⟩ ∉ s.2) (by decide +kernel)
  exact ⟨s, hr, h1, h2, h3, fun h => h3 (h _ h1).1⟩

end QEngine.RaftProposal

import QEngine.RaftElection
import QEngine.RaftSnapshotTransfer

/-!
# The order of applied entries

The apply thread reads an entry, runs it and records it in separate steps,
and writes `lastApplied` without looking at it. The entries it runs have
increasing indices in every run of a node; what a snapshot installed in
between can break is that they stay above the snapshot and that
`lastApplied` does not go back.
-/

namespace QEngine.RaftApplyOrder
open List RaftLogRecord RaftNode RaftService RaftEffects RaftElection RaftSnapshotTransfer StepRuns

structure Still (n n' : Node) (outs : List Output) : Prop where
  log : n'.log = n.log
  commitIndex : n'.commitIndex = n.commitIndex
  lastApplied : n'.lastApplied = n.lastApplied
  apply : n'.apply = n.apply
  waiters : n'.waiters = n.waiters
  applies : ∀ e, Output.apply e ∉ outs
  results : ∀ e r, Output.result e r ∉ outs

def Event.still : Event → Bool
  | .recvAppend _ | .installStep _ _ | .propose _ _ | .wake _ | .timeout _
  | .replicateReply _ _ _ | .applyStep _ => false
  | _ => true

variable {n n' : Node} {outs tr : List Output}

theorem still_sends (outs : List Output)
    (h : n'.log = n.log ∧ n'.commitIndex = n.commitIndex ∧ n'.lastApplied = n.lastApplied ∧
      n'.apply = n.apply ∧ n'.waiters = n.waiters) (ho : ∀ o ∈ outs, ∃ p, o = Output.send p) :
      Still n n' outs := by
  refine ⟨h.1, h.2.1, h.2.2.1, h.2.2.2.1, h.2.2.2.2, ?_, ?_⟩
  · intro e he
    simpa using ho _ he
  · intro e r he
    simpa using ho _ he

variable (cfg : Config) (self : ℕ)

variable {ev : Event}

theorem step_still (he : Event.still ev = true)
    (h : step cfg self n ev = some (n', outs)) : Still n n' outs := by
  cases step_effect h with
  | tickStart | askPreVote | askVote | preVoteReply | voteOutbid | voteReply | preVoteFail
  | voteFail | stand | preVoteLost | poll | lead | voteLost | checkQuorum | quorumLost
  | recvPreVote | unreadable | replicate | replicateFail | replicateDone | transferStart
  | transferSend | transferOutbid | transferAck | transferAbort | transferDone =>
    exact still_sends _ ⟨rfl, rfl, rfl, rfl, rfl⟩ (by simp)
  | @recvVote req =>
    obtain ⟨t, v, r, l, hf⟩ := onRequestVote_frame cfg n req
    refine still_sends _ ?_ (by simp)
    rw [hf]
    exact ⟨rfl, rfl, rfl, rfl, rfl⟩
  | @installAnswer req m hb | @installAccept req m hb =>
    obtain ⟨t, v, r, l, hf⟩ := installBegin_frame n req
    rw [hb] at hf
    subst hf
    exact still_sends _ ⟨rfl, rfl, rfl, rfl, rfl⟩ (by simp)
  | _ => simp [Event.still] at he

structure LogStep (l l' : Log) : Prop where
  aligned : l.Aligned → l'.Aligned
  snap : l'.snapIndex = l.snapIndex

theorem logStep_refl (l : Log) : LogStep l l := ⟨id, rfl⟩

theorem logStep_trans {l m r : Log} (h : LogStep l m) (h' : LogStep m r) : LogStep l r :=
  ⟨fun ha => h'.aligned (h.aligned ha), h'.snap.trans h.snap⟩

theorem truncate_step (l : Log) (index : ℕ) : LogStep l (l.truncate index) := by
  refine ⟨truncate_aligned l _, ?_⟩
  rcases truncate_cases l _ with ⟨h, _⟩ | ⟨_, _, _, h⟩ | ⟨_, _, h⟩ <;> rw [h]

theorem append_step {l : Log} {term type : ℕ} {payload : ByteFields.Bytes} {l' : Log} {idx : ℕ}
    (h : l.append term type payload = some (l', idx)) : LogStep l l' := by
  refine ⟨fun ha => append_aligned l _ _ _ l' idx ha h, ?_⟩
  obtain ⟨_, _, rfl⟩ := append_some l h
  rfl

theorem insertEntries_step (es : List Entry) (l : Log) : LogStep l (insertEntries l es).1 := by
  induction es generalizing l with
  | nil => exact logStep_refl l
  | cons e es ih =>
    rw [insertEntries]
    split
    · exact ih l
    dsimp only
    have hcut : LogStep l (if e.index ≤ l.lastIndex then l.truncate e.index else l) := by
      split
      · exact truncate_step l _
      · exact logStep_refl l
    split
    · exact hcut
    · rename_i l' idx ha
      exact logStep_trans (logStep_trans hcut (append_step ha)) (ih l')

structure LogOnly (n n' : Node) (outs : List Output) : Prop where
  log : LogStep n.log n'.log
  lastApplied : n'.lastApplied = n.lastApplied
  apply : n'.apply = n.apply
  applies : ∀ e, Output.apply e ∉ outs

theorem logOnly_still (h : Still n n' outs) : LogOnly n n' outs := by
  refine ⟨?_, h.lastApplied, h.apply, h.applies⟩
  rw [h.log]
  exact logStep_refl _

theorem onAppendEntries_logOnly (n : Node) (req : AppendReq)
    (ho : ∀ e, Output.apply e ∉ outs) : LogOnly n (onAppendEntries n req).1 outs := by
  obtain ⟨t, v, r, hl⟩ := hearLeader_frame n _ _
  rcases onAppend_cases n req with ⟨_, h⟩ | ⟨_, _, _, h⟩ | ⟨_, _, _, _, h⟩ | ⟨_, _, l, ok, hi, _, h⟩
  · rw [h]
    exact ⟨logStep_refl _, rfl, rfl, ho⟩
  · rw [h, hl]
    exact ⟨logStep_refl _, rfl, rfl, ho⟩
  · rw [h, hl]
    exact ⟨truncate_step _ _, rfl, rfl, ho⟩
  · have hs := insertEntries_step req.entries n.log
    rw [hi] at hs
    rw [h, hl]
    exact ⟨hs, rfl, rfl, ho⟩

theorem mergeReply_logOnly (n : Node) (peer : ℕ) (req : AppendReq) (resp : AppendResp) :
    LogOnly n (mergeReply n peer req resp) [] := by
  rcases mergeReply_cases n _ req _ with ⟨_, h⟩ | ⟨_, h⟩ | ⟨_, _, _, h⟩ | ⟨_, h⟩
  · rw [h]
    exact ⟨logStep_refl _, rfl, rfl, by simp⟩
  · rw [h]
    exact ⟨logStep_refl _, rfl, rfl, by simp⟩
  · obtain ⟨N, hN⟩ := advanceCommit_eq _
    rw [h, hN]
    exact ⟨logStep_refl _, rfl, rfl, by simp⟩
  · rw [h]
    exact ⟨logStep_refl _, rfl, rfl, by simp⟩

theorem step_logOnly (ha : ∀ rc, ev ≠ .applyStep rc) (hi : ∀ i ok, ev ≠ .installStep i ok)
    (h : step cfg self n ev = some (n', outs)) : LogOnly n n' outs := by
  by_cases hs : Event.still ev = true
  · exact logOnly_still (step_still cfg _ hs h)
  cases step_effect h with
  | recvAppend => exact onAppendEntries_logOnly n _ (by simp)
  | @propose type payload l idx _ hap =>
    obtain ⟨N, hN⟩ := advanceCommit_eq _
    rw [hN]
    exact ⟨append_step hap, rfl, rfl, by simp⟩
  | wakeApplied | wakeDeposed | park | giveUp => exact ⟨logStep_refl _, rfl, rfl, by simp⟩
  | rollBack => exact ⟨truncate_step _ _, rfl, rfl, by simp⟩
  | @replicateReply peer req resp =>
    have hl := mergeReply_logOnly (returned n peer req) peer req resp
    exact ⟨hl.log, hl.lastApplied, hl.apply, hl.applies⟩
  | stageLast | stagePart | slurp | restore | unread | unlink | installFailed | installed =>
    exact absurd rfl (hi _ _)
  | applyStart | applyEnd | applyRead | applyMiss | applyPass | applyQuit | applySkip | applyRun
  | applyRecord | applyCompact | applyNext => exact absurd rfl (ha _)
  | _ => exact absurd rfl hs

theorem installStep_cases {self i : ℕ} {ok : Bool}
    (h : Effect cfg self n (.installStep i ok) n' outs) : Still n n' outs ∨
    ∃ req, n.installs[i]? = some (.finish req true) ∧
      n'.log = n.log.compact req.lastIncludedIndex req.lastIncludedTerm ∧
      n'.lastApplied = max n.lastApplied req.lastIncludedIndex ∧
      n'.commitIndex = max n.commitIndex req.lastIncludedIndex ∧ n'.apply = n.apply ∧
      n'.waiters = n.waiters ∧ (∀ e, Output.apply e ∉ outs) ∧ ∀ e r, Output.result e r ∉ outs := by
  cases h with
  | installed hx => exact .inr ⟨_, hx, rfl, rfl, rfl, rfl, rfl, by simp, by simp⟩
  | restore => exact .inl ⟨rfl, rfl, rfl, rfl, rfl, by simp, by simp⟩
  | _ => exact .inl (still_sends _ ⟨rfl, rfl, rfl, rfl, rfl⟩ (by simp))

def Behind (a : Apply) (last x : ℕ) : Prop :=
  match a with
  | .idle => x ≤ last
  | .loop idx _ | .missed idx _ | .hold idx _ _ => x < idx ∧ x ≤ last
  | .skip snap _ => x ≤ snap ∧ x ≤ last
  | .ran idx _ _ _ => x ≤ idx
  | .recorded idx _ _ => x ≤ idx ∧ x ≤ last

instance (a : Apply) (last x : ℕ) : Decidable (Behind a last x) :=
  match a with
  | .idle => inferInstanceAs (Decidable (x ≤ last))
  | .loop idx _ | .missed idx _ | .hold idx _ _ => inferInstanceAs (Decidable (x < idx ∧ x ≤ last))
  | .skip snap _ => inferInstanceAs (Decidable (x ≤ snap ∧ x ≤ last))
  | .ran idx _ _ _ => inferInstanceAs (Decidable (x ≤ idx))
  | .recorded idx _ _ => inferInstanceAs (Decidable (x ≤ idx ∧ x ≤ last))

def Near (a : Apply) (last : ℕ) : Prop :=
  match a with
  | .idle | .skip _ _ => True
  | .loop idx _ | .missed idx _ | .ran idx _ _ _ => idx ≤ last+1
  | .hold idx _ e => idx ≤ last+1 ∧ e.index = idx
  | .recorded idx _ _ => idx ≤ last

structure Ordered (s : Node × List Output) : Prop where
  aligned : s.1.log.Aligned
  near : Near s.1.apply s.1.lastApplied
  behind : ∀ e, Output.apply e ∈ s.2 → Behind s.1.apply s.1.lastApplied e.index

theorem behind_mono {a : Apply} {last last' x : ℕ} (h : last ≤ last') (hb : Behind a last x) :
    Behind a last' x := by
  cases a <;> simp only [Behind] at hb ⊢ <;> omega

theorem near_mono {a : Apply} {last last' : ℕ} (h : last ≤ last') (hn : Near a last) : Near a last' := by
  cases a <;> simp only [Near] at hn ⊢ <;> omega

theorem ordered_applyStep {rc : ℤ}
      (ho : Ordered (n, tr))
    (h : Effect cfg self n (.applyStep rc) n' outs) : Ordered (n', tr++outs) := by
  obtain ⟨ha, hn, hb⟩ := ho
  have quiet : ∀ n' : Node, n'.log.Aligned → Near n'.apply n'.lastApplied →
      (∀ x, Behind n.apply n.lastApplied x → Behind n'.apply n'.lastApplied x) →
      Ordered (n', tr++[]) := by
    intro n' h1 h2 h3
    rw [append_nil]
    exact ⟨h1, h2, fun e he => h3 _ (hb e he)⟩
  cases h with
  | applyStart hp =>
    rw [hp] at quiet
    refine quiet _ ha (le_refl _) fun x hx => ?_
    simp only [Behind] at hx ⊢
    omega
  | applyEnd hp | applyQuit hp =>
    rw [hp] at quiet
    exact quiet _ ha trivial fun x hx => hx.2
  | applyRead hp _ he =>
    rw [hp] at quiet hn
    exact quiet _ ha ⟨hn, read_index _ ha he⟩ fun x hx => hx
  | applyMiss hp =>
    rw [hp] at quiet hn
    exact quiet _ ha hn fun x hx => hx
  | applyPass hp hle =>
    rw [hp] at quiet
    exact quiet _ ha trivial fun x hx => ⟨le_trans (le_of_lt hx.1) hle, hx.2⟩
  | applySkip hp =>
    rw [hp] at quiet
    refine quiet _ ha ?_ fun x hx => ?_
    · simp only [Near]
      omega
    · simp only [Behind] at hx ⊢
      omega
  | @applyRun _ idx commit e hp =>
    rw [hp] at hn hb
    refine ⟨ha, hn.1, ?_⟩
    intro e' he'
    rcases mem_append.mp he' with he' | he'
    · exact le_of_lt (hb e' he').1
    · rw [Output.apply.inj (mem_singleton.mp he'), hn.2]
      exact le_refl idx
  | @applyRecord _ r idx commit e hp =>
    rw [hp] at quiet
    exact quiet _ ha (le_refl idx) fun x hx => ⟨hx, hx⟩
  | @applyCompact _ idx commit term hp =>
    rw [hp] at quiet hn
    exact quiet _ (compact_aligned _ idx _ ha) (Nat.succ_le_succ hn)
      (fun x hx => ⟨Nat.lt_succ_of_le hx.1, hx.2⟩)
  | applyNext hp =>
    rw [hp] at quiet hn
    exact quiet _ ha (Nat.succ_le_succ hn) fun x hx => ⟨Nat.lt_succ_of_le hx.1, hx.2⟩

theorem ordered_step {s : Node × List Output} (s' : Node × List Output) (ev : Event)
    (ho : Ordered s) (h : serve cfg self s ev = some s') : Ordered s' := by
  obtain ⟨n, tr⟩ := s
  obtain ⟨⟨n', outs⟩, hs, rfl⟩ := Option.map_eq_some_iff.mp h
  have keep : LogOnly n n' outs → Ordered (n', tr++outs) := by
    intro hl
    refine ⟨hl.log.aligned ho.aligned, ?_, ?_⟩
    · rw [hl.apply, hl.lastApplied]
      exact ho.near
    intro e he
    rw [hl.apply, hl.lastApplied]
    rcases mem_append.mp he with he | he
    · exact ho.behind e he
    · exact absurd he (hl.applies e)
  by_cases ha : ∃ rc, ev = .applyStep rc
  · obtain ⟨rc, rfl⟩ := ha
    exact ordered_applyStep cfg _ ho (step_effect hs)
  by_cases hi : ∃ i ok, ev = .installStep i ok
  · obtain ⟨i, ok, rfl⟩ := hi
    rcases installStep_cases cfg (step_effect hs) with hst | ⟨req, _, hl, hla, _, hap, _, hno, _⟩
    · exact keep (logOnly_still hst)
    refine ⟨?_, ?_, ?_⟩
    · rw [hl]
      exact compact_aligned _ _ _ ho.aligned
    · rw [hap, hla]
      exact near_mono (le_max_left _ _) ho.near
    intro e he
    rw [hap, hla]
    rcases mem_append.mp he with he | he
    · exact behind_mono (le_max_left _ _) (ho.behind e he)
    · exact absurd he (hno e)
  · exact keep (step_logOnly cfg _ (fun rc hx => ha ⟨rc, hx⟩)
      (fun i ok hx => hi ⟨i, ok, hx⟩) hs)

theorem ordered_boot (term vote : ℕ) {log : Log} (hl : log.Aligned) :
    Ordered (Node.boot cfg self term vote log, []) :=
  ⟨hl, trivial, fun e he => absurd he (by simp)⟩

/-- The place of the apply thread against `lastApplied` and the snapshot,
while no installation has overtaken an entry it holds. -/
def InStep (a : Apply) (last snap : ℕ) : Prop :=
  match a with
  | .idle => True
  | .loop idx _ | .missed idx _ => idx = last+1 ∨ (idx ≤ last ∧ last = snap)
  | .skip s _ => s ≤ last ∧ last = snap
  | .hold idx _ _ => idx = last+1
  | .ran idx _ _ _ => last ≤ idx
  | .recorded idx _ _ => idx = last ∨ (idx < last ∧ last = snap)

structure Above (n : Node) : Prop where
  snap : n.log.snapIndex ≤ n.lastApplied
  place : InStep n.apply n.lastApplied n.log.snapIndex

/-- A snapshot is not put in place over an entry the apply thread holds, and the log has nothing at
or below it. -/
def noOverlap (s : Node × List Output) (ev : Event) : Prop :=
  match ev with
  | .installStep i _ =>
    match s.1.installs[i]?, s.1.apply with
    | some (.finish req true), .hold idx _ _ => req.lastIncludedIndex < idx
    | some (.finish req true), .ran idx _ _ _ => req.lastIncludedIndex ≤ idx
    | _, _ => True
  | .applyStep _ =>
    match s.1.apply with
    | .loop idx _ => idx ≤ s.1.log.snapIndex → s.1.log.read idx = none
    | _ => True
  | _ => True

instance (s : Node × List Output) (ev : Event) : Decidable (noOverlap s ev) := by
  unfold noOverlap
  split
  · split <;> infer_instance
  · split <;> infer_instance
  · infer_instance

/-- `lastApplied` does not go back, and an entry is run only above the
snapshot and above everything run before. -/
def InOrder (s s' : Node × List Output) : Prop :=
  s.1.lastApplied ≤ s'.1.lastApplied ∧
  ∀ e, s'.2 = s.2++[.apply e] → s.1.log.snapIndex < e.index ∧
    ∀ e', Output.apply e' ∈ s.2 → e'.index < e.index

theorem compact_snap (l : Log) (index term : ℕ) :
    (l.compact index term).snapIndex = max l.snapIndex index := by
  by_cases hle : index ≤ l.snapIndex
  · rw [compact_stale _ _ hle]
    omega
  · rw [(compact_marks _ _ _ (by omega)).1]
    omega

theorem above_applyStep {rc : ℤ}
      (ho : Ordered (n, tr)) (hab : Above n)
    (hok : noOverlap (n, tr) (.applyStep rc)) (h : Effect cfg self n (.applyStep rc) n' outs) :
    Above n' ∧ n.lastApplied ≤ n'.lastApplied ∧ ∀ e, outs = [.apply e] → n.log.snapIndex < e.index ∧
      ∀ e', Output.apply e' ∈ tr → e'.index < e.index := by
  obtain ⟨hsnap, hplace⟩ := hab
  have hnear := ho.near
  have hbeh := ho.behind
  dsimp only [noOverlap] at hok hnear hbeh
  cases h with
  | applyStart => exact ⟨⟨hsnap, .inl rfl⟩, le_refl _, by simp⟩
  | applyEnd | applyQuit => exact ⟨⟨hsnap, trivial⟩, le_refl _, by simp⟩
  | @applyRead _ idx commit e hp _ hr =>
    simp only [hp, InStep] at hok hplace
    refine ⟨⟨hsnap, ?_⟩, le_refl _, by simp⟩
    -- an index at or below the snapshot would not have been read
    have hgt : n.log.snapIndex < idx := by
      by_contra hle
      rw [hok (by omega)] at hr
      simp at hr
    simp only [InStep]
    omega
  | applyMiss hp =>
    rw [hp] at hplace
    exact ⟨⟨hsnap, hplace⟩, le_refl _, by simp⟩
  | applyPass hp hle =>
    simp only [hp, InStep] at hplace
    refine ⟨⟨hsnap, ?_⟩, le_refl _, by simp⟩
    simp only [InStep]
    omega
  | applySkip hp =>
    simp only [hp, InStep] at hplace
    refine ⟨⟨le_trans hsnap (le_max_left _ _), ?_⟩, le_max_left _ _, by simp⟩
    simp only [InStep]
    omega
  | @applyRun _ idx commit e hp =>
    simp only [hp, InStep, Near] at hplace hnear
    refine ⟨⟨hsnap, ?_⟩, le_refl _, ?_⟩
    · simp only [InStep]
      omega
    intro e' he'
    have hee : e = e' := by simpa using he'
    subst hee
    refine ⟨by omega, fun f hf => ?_⟩
    have hx := hbeh f hf
    rw [hp] at hx
    rw [hnear.2]
    exact hx.1
  | applyRecord hp =>
    rw [hp] at hplace
    exact ⟨⟨le_trans hsnap hplace, .inl rfl⟩, hplace, by simp⟩
  | @applyCompact _ idx commit term hp hs =>
    simp only [hp, InStep] at hplace
    have hmark := compact_snap n.log idx term
    refine ⟨⟨?_, ?_⟩, le_refl _, by simp⟩
    · dsimp only
      omega
    · simp only [InStep]
      omega
  | applyNext hp =>
    simp only [hp, InStep] at hplace
    refine ⟨⟨hsnap, ?_⟩, le_refl _, by simp⟩
    simp only [InStep]
    omega

theorem above_install {req : InstallReq} (hab : Above n)
    (hl : n'.log = n.log.compact req.lastIncludedIndex req.lastIncludedTerm)
    (hla : n'.lastApplied = max n.lastApplied req.lastIncludedIndex) (hap : n'.apply = n.apply)
    (hhold : ∀ idx commit e, n.apply = .hold idx commit e → req.lastIncludedIndex < idx)
    (hran : ∀ idx commit e rc, n.apply = .ran idx commit e rc → req.lastIncludedIndex ≤ idx) : Above n' := by
  obtain ⟨hsnap, hplace⟩ := hab
  have hmark : n'.log.snapIndex = max n.log.snapIndex req.lastIncludedIndex := by
    rw [hl, compact_snap]
  refine ⟨by omega, ?_⟩
  rw [hap, hla, hmark]
  cases hp : n.apply with
  | idle => trivial
  | hold idx commit e =>
    have := hhold idx commit e hp
    simp only [hp, InStep] at hplace ⊢
    omega
  | ran idx commit e rc =>
    have := hran idx commit e rc hp
    simp only [hp, InStep] at hplace ⊢
    omega
  | loop idx commit | missed idx commit | skip s commit | recorded idx commit term =>
    simp only [hp, InStep] at hplace ⊢
    omega

theorem inOrder_step {s s' : Node × List Output}
    (ho : Ordered s) (hab : Above s.1) (hok : noOverlap s ev)
    (h : serve cfg self s ev = some s') : Above s'.1 ∧ InOrder s s' := by
  obtain ⟨n, tr⟩ := s
  obtain ⟨⟨n', outs⟩, hs, rfl⟩ := Option.map_eq_some_iff.mp h
  dsimp only at hs hab
  have none : (∀ e, Output.apply e ∉ outs) → n.lastApplied ≤ n'.lastApplied →
      InOrder (n, tr) (n', tr++outs) := by
    intro hno hle
    refine ⟨hle, fun e he => ?_⟩
    have := append_cancel_left he
    exact absurd (this ▸ mem_singleton_self _) (hno e)
  have keep : LogOnly n n' outs → Above n' ∧ InOrder (n, tr) (n', tr++outs) := by
    intro hl
    refine ⟨⟨?_, ?_⟩, none hl.applies (le_of_eq hl.lastApplied.symm)⟩
    · rw [hl.log.snap, hl.lastApplied]
      exact hab.snap
    · rw [hl.log.snap, hl.lastApplied, hl.apply]
      exact hab.place
  by_cases ha : ∃ rc, ev = .applyStep rc
  · obtain ⟨rc, rfl⟩ := ha
    obtain ⟨h1, h2, h3⟩ := above_applyStep cfg _ ho hab hok (step_effect hs)
    exact ⟨h1, h2, fun e he => h3 e (append_cancel_left he)⟩
  by_cases hi : ∃ i ok, ev = .installStep i ok
  · obtain ⟨i, ok, rfl⟩ := hi
    rcases installStep_cases cfg (step_effect hs) with hst | ⟨req, hx, hl, hla, _, hap, _, hno, _⟩
    · exact keep (logOnly_still hst)
    refine ⟨above_install hab hl hla hap ?_ ?_, none hno (by rw [hla]; exact le_max_left _ _)⟩
    · intro idx commit e hp
      simpa [noOverlap, hx, hp] using hok
    · intro idx commit e rc hp
      simpa [noOverlap, hx, hp] using hok
  · exact keep (step_logOnly cfg _ (fun rc hx => ha ⟨rc, hx⟩)
      (fun i ok hx => hi ⟨i, ok, hx⟩) hs)

/-- Every step of a run in which no snapshot overtakes an entry in flight is
in order. -/
theorem applies_in_order (cfg : Config) (self term vote : ℕ) (log : Log) (hl : log.Aligned)
    (evs : List Event) (ev : Event) (s s' : Node × List Output)
    (ha : Along (serve cfg self) noOverlap (Node.boot cfg self term vote log, []) evs)
    (hr : run (serve cfg self) (Node.boot cfg self term vote log, []) evs = some s)
    (hok : noOverlap s ev) (hs : serve cfg self s ev = some s') : InOrder s s' := by
  have hinv : Ordered s ∧ Above s.1 := by
    refine run_invariant (fun s => Ordered s ∧ Above s.1) ?_ evs _ s ?_ ha hr
    · intro s ev s' hs hok h
      exact ⟨ordered_step cfg _ s' ev hs.1 h, (inOrder_step cfg _ hs.1 hs.2 hok h).1⟩
    · exact ⟨ordered_boot cfg _ _ _ hl, ⟨le_refl _, trivial⟩⟩
  exact (inOrder_step cfg _ hinv.1 hinv.2 hok hs).2

def heartbeat (index : ℕ) : Event := .recvAppend ⟨1, 1, index, 1, index, []⟩

def installAt (index : ℕ) : List Event :=
  .recvInstall ⟨1, 1, index, 1, 0, true, [9]⟩::List.replicate 5 (.installStep 0 true)

def readAfterInstall : List Event := installAt 1++[heartbeat 2, .applyStep 0, .applyStep 0]

theorem applies_in_order_after_install :
    ∃ s s', Along (serve twoNodes 2) noOverlap (follower [1, 1], []) readAfterInstall ∧
      run (serve twoNodes 2) (follower [1, 1], []) readAfterInstall = some s ∧
      serve twoNodes 2 s (.applyStep 0) = some s' ∧ s'.2 = s.2++[.apply ⟨2, 1, 1, []⟩] ∧ InOrder s s' := by
  have ha : Along (serve twoNodes 2) noOverlap (follower [1, 1], []) readAfterInstall := by
    decide +kernel
  obtain ⟨s, s', hr, hs, hok, hout⟩ := run_reaches_step (serve twoNodes 2) (follower [1, 1], [])
    readAfterInstall (.applyStep 0)
    (fun s s' => noOverlap s (.applyStep 0) ∧ s'.2 = s.2++[.apply (⟨2, 1, 1, []⟩ : Entry)])
    (by decide +kernel)
  exact ⟨s, s', ha, hr, hs, hout, applies_in_order twoNodes 2 1 0 (followerLog [1, 1])
    (followerLog_aligned [1, 1]) _ _ s s' ha hr hok hs⟩

/-- Entry 1 is committed and read, and a snapshot at 5 is installed before
it is run. -/
def installOverRead : List Event := heartbeat 1::.applyStep 0::.applyStep 0::installAt 5

/-- Entry 1 is run below the snapshot, and `lastApplied` goes back to 1. -/
theorem install_overtakes_apply :
    (∃ s s', run (serve twoNodes 2) (follower [1], []) installOverRead = some s ∧
      serve twoNodes 2 s (.applyStep 0) = some s' ∧ s.1.log.snapIndex = 5 ∧
      s'.2 = s.2++[.apply ⟨1, 1, 1, []⟩] ∧ ¬InOrder s s') ∧
    ∃ s s', run (serve twoNodes 2) (follower [1], []) (installOverRead++[.applyStep 0]) = some s ∧
      serve twoNodes 2 s (.applyStep 0) = some s' ∧ s.1.lastApplied = 5 ∧ s'.1.lastApplied = 1 ∧
      ¬InOrder s s' := by
  constructor
  · obtain ⟨s, s', hr, hs, h1, h2⟩ := run_reaches_step (serve twoNodes 2) (follower [1], [])
      installOverRead (.applyStep 0)
      (fun s s' => s.1.log.snapIndex = 5 ∧ s'.2 = s.2++[.apply (⟨1, 1, 1, []⟩ : Entry)])
      (by decide +kernel)
    refine ⟨s, s', hr, hs, h1, h2, fun h => ?_⟩
    have := (h.2 _ h2).1
    simp [h1] at this
  · obtain ⟨s, s', hr, hs, h1, h2⟩ := run_reaches_step (serve twoNodes 2) (follower [1], [])
      (installOverRead++[.applyStep 0]) (.applyStep 0)
      (fun s s' => s.1.lastApplied = 5 ∧ s'.1.lastApplied = 1) (by decide +kernel)
    refine ⟨s, s', hr, hs, h1, h2, fun h => ?_⟩
    have := h.1
    omega

end QEngine.RaftApplyOrder

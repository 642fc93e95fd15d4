import QEngine.RaftMembership
import QEngine.RaftApplyOrder

/-!
# Changes made one at a time

If a change is proposed only when every node has passed every earlier one, the nodes
are never more than one change apart, and majorities over the members before and after
one change share a voter.
-/

namespace QEngine.RaftSerialChanges
open Option List Function ByteFields RaftLogRecord RaftNode RaftService RaftEffects RaftCluster RaftElection
open RaftApplyOrder RaftMembership QuorumSets StepRuns

structure KeepsVote (n n' : Node) : Prop where
  term : n.currentTerm ≤ n'.currentTerm
  vote : n'.currentTerm = n.currentTerm → n'.votedFor = n.votedFor ∨ n.votedFor = 0

variable {req : AppendReq} {payload : Bytes} {ev : Event} {g' : Group} {n n' : Node}
  {cs : List Call} {es : List Entry} {outs : List Output}

theorem keepsVote_down (h : StepsDown n n') : KeepsVote n n' := ⟨h.term, h.vote⟩

theorem keepsVote_same (ht : n'.currentTerm = n.currentTerm)
    (hv : n'.votedFor = n.votedFor) : KeepsVote n n' :=
  ⟨le_of_eq ht.symm, fun _ => .inl hv⟩

variable (cfg : Config)

theorem recvVote_votes (n : Node) (req : VoteReq) : KeepsVote n (onRequestVote cfg n req).1 ∧
    ((onRequestVote cfg n req).2.voteGranted = true → req.candidateId ∈ cfg.members ∧
      (onRequestVote cfg n req).1.currentTerm = req.term ∧
      (onRequestVote cfg n req).1.votedFor = req.candidateId) := by
  rcases onRequestVote_cases cfg n req with ⟨hg, hd⟩ | ⟨hg, hmem, hle, hv, _, hn⟩
  · exact ⟨keepsVote_down hd, fun h => absurd (hg.symm.trans h) (by simp)⟩
  have hterm : (onRequestVote cfg n req).1.currentTerm = req.term := by
    rw [hn]
    by_cases hlt : n.currentTerm < req.term
    · simp [hlt, Node.becomeFollower]
    · simp only [hlt, if_false]
      omega
  have hvote : (onRequestVote cfg n req).1.votedFor = req.candidateId := by rw [hn]
  refine ⟨⟨by rw [hterm]; exact hle, ?_⟩, fun _ => ⟨hmem, hterm, hvote⟩⟩
  intro hsame
  rw [hterm] at hsame
  rw [hvote]
  exact (hv hsame.symm).elim .inr fun h => .inl h.symm

def Grants (cfg : Config) (n' : Node) (outs : List Output) : Prop :=
  ∀ src req resp, Output.send (.voteResp src req resp) ∈ outs → resp.voteGranted = true →
    req.candidateId ∈ cfg.members ∧ n'.currentTerm = req.term ∧ n'.votedFor = req.candidateId

variable (self : ℕ)

theorem step_votes (h : RaftService.step cfg self n ev = some (n', outs)) :
    KeepsVote n n' ∧ Grants cfg n' outs := by
  by_cases he : Event.election ev = false
  · obtain ⟨hd, ho⟩ := step_down cfg _ he h
    exact ⟨keepsVote_down hd, fun src req resp hm => absurd hm (ho src req resp)⟩
  have hout : (∀ req, ev ≠ .recvVote req) → Grants cfg n' outs := fun hne src req resp hm =>
    absurd hm (effect_unvoted cfg _ hne (step_effect h) src req _)
  cases step_effect h with
  | tickStart | askPreVote | askVote | preVoteReply | voteReply | preVoteFail | voteFail | poll | lead
  | preVoteLost | voteLost => exact ⟨keepsVote_same rfl rfl, hout (by simp)⟩
  | @voteOutbid _ _ _ _ resp =>
    have hd := becomeFollower_down n resp.term 0
    exact ⟨⟨hd.term, hd.vote⟩, hout (by simp)⟩
  | stand => exact ⟨⟨Nat.le_succ _, fun he => absurd he (Nat.succ_ne_self _)⟩, hout (by simp)⟩
  | @recvVote req =>
    obtain ⟨hk, hg⟩ := recvVote_votes cfg n req
    refine ⟨hk, ?_⟩
    intro src req' resp hm hgr
    simp only [mem_singleton, Output.send.injEq, Packet.voteResp.injEq] at hm
    obtain ⟨-, rfl, rfl⟩ := hm
    exact hg hgr
  | _ => exact absurd rfl he

structure Ballots (c : Cluster) : Prop where
  cast : ∀ v src req resp, (v, Output.send (.voteResp src req resp)) ∈ c.trace →
    resp.voteGranted = true → req.candidateId ≠ 0 ∧ (req.term < (c.nodes v).currentTerm ∨
      (req.term = (c.nodes v).currentTerm ∧ (c.nodes v).votedFor = req.candidateId))
  once : ∀ v src src' req req' resp resp', (v, Output.send (.voteResp src req resp)) ∈ c.trace →
    (v, Output.send (.voteResp src' req' resp')) ∈ c.trace → resp.voteGranted = true →
    resp'.voteGranted = true → req.term = req'.term → req.candidateId = req'.candidateId

theorem trace_put {c : Cluster} {i v : ℕ} {o : Output}
    (h : (v, o) ∈ (c.put i n outs).trace) : (v, o) ∈ c.trace ∨ (v = i ∧ o ∈ outs) := by
  refine (mem_append.mp h).imp_right fun h => ?_
  obtain ⟨o', ho, he⟩ := mem_map.mp h
  cases he
  exact ⟨rfl, ho⟩

theorem ballots_put {c : Cluster} (i : ℕ) (outs : List Output)
    (hb : Ballots c) (hk : KeepsVote (c.nodes i) n') (hg : Grants cfg n' outs) :
    Ballots (c.put i n' outs) := by
  -- an older grant of the term the node is in now is the vote it has
  have hold : ∀ src req resp, (i, Output.send (.voteResp src req resp)) ∈ c.trace →
      resp.voteGranted = true → req.term = n'.currentTerm → n'.votedFor = req.candidateId := by
    intro src req resp hm hgr ht
    obtain ⟨hne, hlt | ⟨hsame, hv⟩⟩ := hb.cast i src req resp hm hgr
    · have := hk.term
      omega
    obtain hkeep | h0 := hk.vote (by omega)
    · rw [hkeep, hv]
    · exact absurd (hv.symm.trans h0) hne
  constructor
  · intro v src req resp hm hgr
    obtain hx | ⟨hv, hx⟩ := trace_put hm
    · obtain ⟨hne, hc⟩ := hb.cast v src req resp hx hgr
      refine ⟨hne, ?_⟩
      by_cases hv : v = i
      · rw [hv] at hx hc ⊢
        rw [put_self]
        by_cases ht : req.term = n'.currentTerm
        · exact .inr ⟨ht, hold src req resp hx hgr ht⟩
        have := hk.term
        left
        obtain hc | hc := hc <;> omega
      · rw [put_other c n' _ hv]
        exact hc
    · obtain ⟨hmem, ht, hvote⟩ := hg src req resp hx hgr
      rw [hv, put_self]
      exact ⟨fun h0 => cfg.nonzero (h0 ▸ hmem), .inr ⟨ht.symm, hvote⟩⟩
  · intro v src src' req req' resp resp' hm hm' hgr hgr' ht
    obtain hx | ⟨hv, hx⟩ := trace_put hm
    · obtain hx' | ⟨hv, hx'⟩ := trace_put hm'
      · exact hb.once v src src' req req' resp resp' hx hx' hgr hgr' ht
      obtain ⟨-, ht', hvote⟩ := hg src' req' resp' hx' hgr'
      rw [hv] at hx
      rw [← hvote, hold src req resp hx hgr (by omega)]
    obtain ⟨-, ht1, hvote⟩ := hg src req resp hx hgr
    obtain hx' | ⟨-, hx'⟩ := trace_put hm'
    · rw [hv] at hx'
      rw [← hvote, hold src' req' resp' hx' hgr' (by omega)]
    · obtain ⟨-, -, hvote'⟩ := hg src' req' resp' hx' hgr'
      rw [← hvote, hvote']

variable (l : Log)

theorem truncate_subset (index : ℕ) : (l.truncate index).entries ⊆ l.entries := by
  rcases truncate_cases l _ with ⟨h, _⟩ | ⟨_, _, _, h⟩ | ⟨_, _, h⟩
  · rw [h]
    exact List.Subset.refl _
  · rw [h]
    exact nil_subset _
  · rw [h]
    exact take_subset _ _

theorem truncate_first (ha : l.Aligned) (index : ℕ) : (l.truncate index).firstIndex ≤ l.firstIndex := by
  rcases truncate_cases l _ with ⟨h, _⟩ | ⟨_, _, _, h⟩ | ⟨_, _, h⟩
  · rw [h]
  · rw [h]
    exact ha.first_pos
  · rw [h]

theorem truncate_below (ha : l.Aligned) (index : ℕ) (hf : l.firstIndex ≤ index)
    (hl : index ≤ l.lastIndex) : (l.truncate index).lastIndex < index := by
  have hp := ha.first_pos
  rcases truncate_cases l index with ⟨_, h⟩ | ⟨_, _, _, h⟩ | ⟨_, _, h⟩
  · omega
  · rw [h]
    omega
  · rw [h]
    dsimp only
    omega

theorem compact_subset {si st : ℕ} : (l.compact si st).entries ⊆ l.entries := by
  by_cases h : si ≤ l.snapIndex
  · rw [compact_stale l st h]
    exact List.Subset.refl _
  · rw [compact_entries l si st (by omega)]
    exact drop_subset _ _

/-- The entry repeats one of `es`, at no higher an index unless that one lies
below the first index `first`. -/
def Repeats (first : ℕ) (es : List Entry) (e : Entry) : Prop :=
  ∃ f ∈ es, f.type = e.type ∧ f.payload = e.payload ∧ (first ≤ f.index → e.index ≤ f.index)

variable {e : Entry}

theorem repeats_cons {first : ℕ} {f : Entry} (h : Repeats first es e) :
    Repeats first (f::es) e := by
  obtain ⟨g, hg, h⟩ := h
  exact ⟨g, mem_cons_of_mem _ hg, h⟩

theorem repeats_first {first first' : ℕ} (hle : first' ≤ first)
    (h : Repeats first' es e) : Repeats first es e := by
  obtain ⟨g, hg, ht, hp, hi⟩ := h
  exact ⟨g, hg, ht, hp, fun hf => hi (le_trans hle hf)⟩

theorem insert_repeats (es : List Entry) (l : Log) (ha : l.Aligned) :
    ∀ e ∈ (insertEntries l es).1.entries, e ∈ l.entries ∨ Repeats l.firstIndex es e := by
  induction es generalizing l with
  | nil => exact fun e he => .inl he
  | cons f es ih =>
    rw [insertEntries]
    split
    · exact fun e he => (ih l ha e he).imp_right repeats_cons
    dsimp only
    have hcut : ∃ cut, cut = (if f.index ≤ l.lastIndex then l.truncate f.index else l) ∧ cut.Aligned ∧
        cut.entries ⊆ l.entries ∧ cut.firstIndex ≤ l.firstIndex ∧
        (l.firstIndex ≤ f.index → cut.lastIndex < f.index) := by
      refine ⟨_, rfl, ?_⟩
      split
      · exact ⟨truncate_aligned l _ ha, truncate_subset l _, truncate_first l ha _,
          fun hf => truncate_below l ha _ hf (by assumption)⟩
      · exact ⟨ha, List.Subset.refl _, le_refl _, fun _ => by omega⟩
    obtain ⟨cut, hceq, hca, hsub, hfirst, hlast⟩ := hcut
    rw [← hceq]
    split
    · exact fun e he => .inl (hsub he)
    rename_i l' idx happ
    have hl' := append_aligned cut _ _ _ l' idx hca happ
    obtain ⟨_, hidx, heq⟩ := append_some cut happ
    have hfirst' : l'.firstIndex = cut.firstIndex := by
      rw [heq]
      exact append_first cut hca
    intro e he
    obtain hin | hr := ih l' hl' e he
    · rw [heq] at hin
      obtain hin | hin := mem_append.mp hin
      · exact .inl (hsub hin)
      · rw [mem_singleton.mp hin]
        exact .inr ⟨f, mem_cons_self, rfl, rfl, hlast⟩
    · exact .inr (repeats_first (by omega) (repeats_cons hr))

def taken (n : Node) : Event → List Entry
  | .recvAppend req => req.entries
  | .propose type payload => [⟨n.log.lastIndex+1, n.currentTerm, type.code, payload⟩]
  | _ => []

theorem recvAppend_log (ha : n.log.Aligned) :
    ∀ e ∈ (onAppendEntries n req).1.log.entries, e ∈ n.log.entries ∨
    Repeats n.log.firstIndex req.entries e := by
  intro e he
  rcases onAppend_cases n req with ⟨_, h⟩ | ⟨hle, _, _, h⟩ | ⟨hle, _, _, _, h⟩ | ⟨hle, _, l, ok, hl, _, h⟩
  · rw [h] at he
    exact .inl he
  · rw [h, (hearLeader_fields n _ _ hle).2.1] at he
    exact .inl he
  · rw [h] at he
    exact .inl (truncate_subset _ _ he)
  · rw [h] at he
    have := insert_repeats req.entries n.log ha e
    rw [hl] at this
    exact this he

theorem mergeReply_log (n : Node) (peer : ℕ) (req : AppendReq) (resp : AppendResp) :
    (mergeReply n peer req resp).log = n.log := by
  rcases mergeReply_cases n _ req _ with ⟨_, h⟩ | ⟨_, h⟩ | ⟨_, _, _, h⟩ | ⟨_, h⟩
  · rw [h]
    rfl
  · rw [h]
  · rw [h]
    exact (advanceCommit_frame _).2.2.2.2.2
  · rw [h]
    rfl

theorem proposed_log {type : EntryType} {l : Log} {idx : ℕ}
    (ha : n.log.append n.currentTerm type.code payload = some (l, idx)) :
    (proposed n l ⟨idx, n.currentTerm, type.code, payload⟩).advanceCommit.log.entries =
      n.log.entries++[⟨n.log.lastIndex+1, n.currentTerm, type.code, payload⟩] := by
  obtain ⟨_, _, rfl⟩ := append_some _ ha
  rw [(advanceCommit_frame _).2.2.2.2.2]
  rfl

theorem step_log (ha : n.log.Aligned)
    (h : RaftService.step cfg self n ev = some (n', outs)) :
    ∀ e ∈ n'.log.entries, e ∈ n.log.entries ∨ Repeats n.log.firstIndex (taken n ev) e := by
  by_cases hs : Event.still ev = true
  · rw [(step_still cfg _ hs h).log]
    exact fun e he => .inl he
  cases step_effect h with
  | recvAppend => exact recvAppend_log ha
  | @propose type payload l idx _ happ =>
    rw [proposed_log happ]
    intro e he
    refine (mem_append.mp he).imp_right fun hm => ?_
    exact ⟨e, hm, rfl, rfl, fun _ => le_refl _⟩
  | rollBack => exact fun e he => .inl (truncate_subset _ _ he)
  | installed | applyCompact => exact fun e he => .inl (compact_subset _ he)
  | replicateReply =>
    rw [mergeReply_log]
    exact fun e he => .inl he
  | wakeApplied | wakeDeposed | park | giveUp | stageLast | stagePart | slurp | restore | unread
  | unlink | installFailed | applyStart | applyEnd | applyRead | applyMiss | applyPass | applyQuit
  | applySkip | applyRun | applyRecord | applyNext => exact fun e he => .inl he
  | _ => exact absurd rfl hs

theorem read_mem (idx : ℕ) (e : Entry) (h : l.read idx = some e) : e ∈ l.entries := by
  unfold Log.read at h
  split_ifs at h
  exact mem_of_getElem? h

theorem mapM_read (is : List ℕ) (es : List Entry) (h : is.mapM l.read = some es) : es ⊆ l.entries := by
  induction is generalizing es with
  | nil =>
    cases h
    exact nil_subset _
  | cons i is ih =>
    rw [mapM_cons] at h
    obtain ⟨e, he, h⟩ := bind_eq_some_iff.mp h
    obtain ⟨es', hes, h⟩ := bind_eq_some_iff.mp h
    cases h
    exact cons_subset.mpr ⟨read_mem l i e he, ih es' hes⟩

theorem step_sends (n : Node) (ev : Event) (n' : Node)
    (outs : List Output) (h : RaftService.step cfg self n ev = some (n', outs)) (dst : ℕ)
    (req : AppendReq) (hx : Output.send (.appendReq dst req) ∈ outs) : req.entries ⊆ n.log.entries := by
  obtain ⟨_, _, _, entries, rfl, hread⟩ := effect_requests (step_effect h) hx
  exact mapM_read _ _ _ hread

def held (n : Node) : List Entry :=
  match n.apply with
  | .hold _ _ e => [e]
  | _ => []

theorem applyStep_held {rc : ℤ}
    (h : Effect cfg self n (.applyStep rc) n' outs) :
    held n' ⊆ n.log.entries ∧ ∀ e, Output.apply e ∈ outs → e ∈ held n := by
  cases h with
  | applyRead _ _ hr => exact ⟨by simpa [held] using read_mem _ _ _ hr, by simp⟩
  | applyRun hp =>
    refine ⟨by simp [held], ?_⟩
    intro f hf
    rw [Output.apply.inj (mem_singleton.mp hf)]
    simp [held, hp]
  | _ => exact ⟨by simp [held], by simp⟩

theorem step_held (h : RaftService.step cfg self n ev = some (n', outs)) :
    (∀ e ∈ held n', e ∈ held n ∨ e ∈ n.log.entries) ∧ ∀ e, Output.apply e ∈ outs → e ∈ held n := by
  have keep : n'.apply = n.apply → (∀ e, Output.apply e ∉ outs) →
      (∀ e ∈ held n', e ∈ held n ∨ e ∈ n.log.entries) ∧ ∀ e, Output.apply e ∈ outs → e ∈ held n := by
    intro hap hno
    refine ⟨fun e he => .inl ?_, fun e he => absurd he (hno e)⟩
    rw [held, hap] at he
    exact he
  by_cases ha : ∃ rc, ev = .applyStep rc
  · obtain ⟨rc, rfl⟩ := ha
    obtain ⟨h1, h2⟩ := applyStep_held cfg _ (step_effect h)
    exact ⟨fun e he => .inr (h1 he), h2⟩
  by_cases hi : ∃ i ok, ev = .installStep i ok
  · obtain ⟨i, ok, rfl⟩ := hi
    rcases installStep_cases cfg (step_effect h) with hst | ⟨req, _, _, _, _, hap, _, hno, _⟩
    · exact keep hst.apply hst.applies
    · exact keep hap hno
  · have hl := step_logOnly cfg _ (fun rc hx => ha ⟨rc, hx⟩)
      (fun i ok hx => hi ⟨i, ok, hx⟩) h
    exact keep hl.apply hl.applies

theorem step_behind (ho : Ordered (n, [])) (h : RaftService.step cfg self n ev = some (n', outs)) :
    Ordered (n', []) ∧ ∀ x, Behind n.apply n.lastApplied x → Behind n'.apply n'.lastApplied x := by
  constructor
  · have hs : Ordered (n', []++outs) :=
      ordered_step cfg self (n', []++outs) ev ho (by simp [serve, h])
    exact ⟨hs.aligned, hs.near, fun e he => by cases he⟩
  intro x hx
  -- as if an entry of that index had been run before
  have hfront : Ordered (n, [.apply ⟨x, 0, 0, []⟩]) :=
    ⟨ho.aligned, ho.near, fun e he => by rw [Output.apply.inj (mem_singleton.mp he)]; exact hx⟩
  have hs : Ordered (n', [.apply ⟨x, 0, 0, []⟩]++outs) :=
    ordered_step cfg self (n', _) ev hfront (by simp [serve, h])
  exact hs.behind ⟨x, 0, 0, []⟩ (by simp)

theorem behind_le {a : Apply} {last x y : ℕ} (h : y ≤ x) (hb : Behind a last x) : Behind a last y := by
  cases a <;> simp only [Behind] at hb ⊢ <;> omega

theorem held_not_behind (ho : Ordered (n, [])) {e : Entry} (he : e ∈ held n) :
    ¬Behind n.apply n.lastApplied e.index := by
  have hn := ho.near
  unfold held at he
  split at he
  · rename_i idx commit f hp
    simp only [hp, Near] at hn
    rw [mem_singleton.mp he, hp, hn.2]
    exact fun hb => absurd hb.1 (lt_irrefl idx)
  · cases he

theorem setMembers_stride {ids : List ℕ} : (setMembers cfg ids).stride = cfg.stride := by
  unfold setMembers
  split <;> rfl

theorem apply_stride (op : CfgOp) : (op.apply cfg).stride = cfg.stride := by
  cases op with
  | add id =>
    rw [CfgOp.apply]
    split
    · rfl
    · exact setMembers_stride _
  | remove id | seed ids => exact setMembers_stride _

theorem remove_members (id : ℕ) : ((CfgOp.remove id).apply cfg).members = cfg.members.erase id := by
  have h : (cfg.members.erase id).Nodup ∧ 0 ∉ cfg.members.erase id :=
    ⟨cfg.nodup.erase id, fun h0 => cfg.nonzero (mem_of_mem_erase h0)⟩
  simp only [CfgOp.apply, setMembers, dif_pos h]

theorem add_members (id : ℕ) : (CfgOp.add id).apply cfg = cfg ∨
    (id ∉ cfg.members ∧ ((CfgOp.add id).apply cfg).members = cfg.members++[id]) := by
  rw [CfgOp.apply]
  split
  · exact .inl rfl
  rename_i hn
  unfold setMembers
  split
  · exact .inr ⟨fun h => hn (.inl h), rfl⟩
  · exact .inl rfl

theorem config_eq {cfg' : Config} (hm : cfg.members = cfg'.members) (hs : cfg.stride = cfg'.stride) :
    cfg = cfg' := by
  cases cfg
  cases cfg'
  simp only at hm hs
  subst hm hs
  rfl

theorem apply_twice (c : Change) (cfg : Config) : c.op.apply (c.op.apply cfg) = c.op.apply cfg := by
  cases c with
  | add id addr =>
    simp only [Change.op]
    rcases add_members cfg id with h | ⟨_, h⟩
    · rw [h, h]
    have hin : id ∈ ((CfgOp.add id).apply cfg).members := by
      rw [h]
      exact mem_append_right _ mem_cons_self
    generalize (CfgOp.add id).apply cfg = cfg' at hin
    simp [CfgOp.apply, hin]
  | remove id =>
    refine config_eq _ ?_ (apply_stride _ _)
    simp only [Change.op]
    rw [remove_members, remove_members]
    exact erase_of_not_mem (cfg.nodup.not_mem_erase)

def Adjacent (m m' : List ℕ) : Prop :=
  m = m' ∨ (∃ x, m'.Perm (x::m)) ∨ ∃ x, m.Perm (x::m')

theorem change_adjacent (c : Change) (cfg : Config) : Adjacent cfg.members (c.op.apply cfg).members := by
  cases c with
  | add id addr =>
    rcases add_members cfg id with h | ⟨_, h⟩
    · exact .inl (by simp only [Change.op, h])
    refine .inr (.inl ⟨id, ?_⟩)
    simp only [Change.op, h]
    exact perm_append_comm
  | remove id =>
    simp only [Change.op, remove_members]
    by_cases hm : id ∈ cfg.members
    · exact .inr (.inr ⟨id, perm_cons_erase hm⟩)
    · exact .inl (erase_of_not_mem hm).symm

theorem adjacent_symm {m m' : List ℕ} (h : Adjacent m m') : Adjacent m' m := by
  obtain h | h | h := h
  · exact .inl h.symm
  · exact .inr (.inr h)
  · exact .inr (.inl h)

theorem adjacent_meet {m m' : List ℕ} (h : Adjacent m m') {P Q : ℕ → Prop} [DecidablePred P]
    [DecidablePred Q] (hp : Majority m P) (hq : Majority m' Q) : ∃ y, P y ∧ Q y := by
  obtain rfl | ⟨x, hx⟩ | ⟨x, hx⟩ := h
  · obtain ⟨y, _, hy⟩ := majority_meet m hp hq
    exact ⟨y, hy⟩
  · exact majority_meet_grown m hx hp hq
  · obtain ⟨y, hq, hp⟩ := majority_meet_grown m' hx hq hp
    exact ⟨y, hp, hq⟩

theorem decode_encode (op : UInt8) (hop : op = 1 ∨ op = 2) {id : ℕ} (hid : id < 256^8) (addr : Bytes) :
    decodeCfg (encodeCfg op id addr) = some (if op = 1 then .add id else .remove id) := by
  have hread : fieldAt (leBytes 8 id++UInt8.ofNat (cfgAddr addr).length::cfgAddr addr) 0 8 = some id :=
    fieldAt_written [] _ 8 id hid
  rw [encodeCfg, decodeCfg.eq_def]
  dsimp only
  rw [if_pos hop, if_neg (by simp; omega), hread]
  split <;> rfl

theorem decode_payload (c : Change) (hc : c.Valid) : decodeCfg (encodeCfgPayload c) = some c.op := by
  cases c with
  | add id addr => exact decode_encode 1 (.inl rfl) hc.2 _
  | remove id => exact decode_encode 2 (.inr rfl) hc.2 []

def carried : Packet → List Entry
  | .appendReq _ req => req.entries
  | _ => []

def sources (sites : List ℕ) (g : Group) : List Entry :=
  sites.flatMap (fun j => (g.node j).log.entries++held (g.node j))++g.cluster.net.flatMap carried

def Past (g : Group) (j x : ℕ) : Prop := Behind (g.node j).apply (g.node j).lastApplied x

instance (g : Group) (j x : ℕ) : Decidable (Past g j x) :=
  inferInstanceAs (Decidable (Behind (g.node j).apply (g.node j).lastApplied x))

variable {sites : List ℕ}

def Traced (sites : List ℕ) (g : Group) (e : Entry) : Prop :=
  ∃ f ∈ sources sites g, f.type = e.type ∧ f.payload = e.payload ∧ e.index ≤ f.index

variable {g : Group} {i : ℕ}

theorem source_log (hi : i ∈ sites) (he : e ∈ (g.node i).log.entries) : e ∈ sources sites g :=
  mem_append_left _ (mem_flatMap.mpr ⟨i, hi, mem_append_left _ he⟩)

theorem source_held (hi : i ∈ sites) (he : e ∈ held (g.node i)) : e ∈ sources sites g :=
  mem_append_left _ (mem_flatMap.mpr ⟨i, hi, mem_append_right _ he⟩)

theorem source_sent {dst : ℕ} (hp : Packet.appendReq dst req ∈ g.cluster.net) (he : e ∈ req.entries) :
    e ∈ sources sites g :=
  mem_append_right _ (mem_flatMap.mpr ⟨_, hp, he⟩)

theorem traced_source (he : e ∈ sources sites g) : Traced sites g e :=
  ⟨e, he, rfl, rfl, le_refl _⟩

theorem sources_put
    (hg : g'.cluster = g.cluster.put i n' outs) (he : e ∈ sources sites g') : e ∈ n'.log.entries ∨
    e ∈ held n' ∨
    (∃ dst req, Output.send (.appendReq dst req) ∈ outs ∧ e ∈ req.entries) ∨ e ∈ sources sites g := by
  obtain he | he := mem_append.mp he
  · obtain ⟨j, hj, he⟩ := mem_flatMap.mp he
    by_cases hji : j = i
    · have hn : g'.node j = n' := by
        rw [Group.node, hg, hji, put_self]
      rw [hn] at he
      exact (mem_append.mp he).elim .inl fun h => .inr (.inl h)
    have hn : g'.node j = g.node j := by
      rw [Group.node, hg, put_other _ _ _ hji]
      rfl
    rw [hn] at he
    exact .inr (.inr (.inr (mem_append_left _ (mem_flatMap.mpr ⟨j, hj, he⟩))))
  · obtain ⟨p, hp, he⟩ := mem_flatMap.mp he
    rw [hg] at hp
    obtain hp | hp := reply_put _ hp
    · exact .inr (.inr (.inr (mem_append_right _ (mem_flatMap.mpr ⟨p, hp, he⟩))))
    cases p with
    | appendReq dst req => exact .inr (.inr (.inl ⟨dst, req, hp, he⟩))
    | _ => cases he

/-- At most one change `c` is under way: the others lie behind every node. -/
structure Serial (sites : List ℕ) (g : Group) (cfg : Config) (c : Change) : Prop where
  config : ∀ j ∈ sites, g.config j = cfg ∨ g.config j = c.op.apply cfg
  entry : ∀ e ∈ sources sites g, e.type = EntryType.config.code →
    (∀ j ∈ sites, Past g j e.index) ∨ decodeCfg e.payload = some c.op

theorem serial_put {cfg : Config} {c : Change}
    (h : Serial sites g cfg c) (hg : g'.cluster = g.cluster.put i n' outs) (hc : g'.config = g.config)
    (hb : ∀ f ∈ sources sites g, f.type = EntryType.config.code → ∀ x, x ≤ f.index → Past g i x →
      Behind n'.apply n'.lastApplied x)
    (hn : ∀ e, e ∈ n'.log.entries ∨ e ∈ held n' → e.type = EntryType.config.code → Traced sites g e)
    (hs : ∀ dst req, Output.send (.appendReq dst req) ∈ outs → ∀ e ∈ req.entries, Traced sites g e) :
    Serial sites g' cfg c := by
  refine ⟨by rw [hc]; exact h.config, ?_⟩
  intro e he ht
  have htr : Traced sites g e := by
    obtain he | he | ⟨dst, req, hm, he⟩ | he := sources_put hg he
    · exact hn e (.inl he) ht
    · exact hn e (.inr he) ht
    · exact hs dst req hm e he
    · exact traced_source he
  obtain ⟨f, hf, hft, hfp, hle⟩ := htr
  obtain hpast | hdec := h.entry f hf (hft.trans ht)
  · left
    intro j hj
    have hold := behind_le hle (hpast j hj)
    by_cases hji : j = i
    · rw [Past, Group.node, hg, hji, put_self]
      rw [hji] at hold
      exact hb f hf (hft.trans ht) _ hle hold
    · rw [Past, Group.node, hg, put_other _ _ _ hji]
      exact hold
  · exact .inr (hfp ▸ hdec)

theorem takeUp_cluster (g : Group) (i : ℕ) (e : Entry) : (g.takeUp i e).cluster = g.cluster := by
  unfold Group.takeUp
  split
  · split <;> rfl
  · rfl

theorem takeUp_calls (g : Group) (i : ℕ) (e : Entry) : (g.takeUp i e).calls = g.calls := by
  unfold Group.takeUp
  split
  · split <;> rfl
  · rfl

theorem serial_takeUp {cfg : Config} {c : Change} (h : Serial sites g cfg c)
    (he : e.type = EntryType.config.code → decodeCfg e.payload = some c.op) :
    Serial sites (g.takeUp i e) cfg c := by
  have hcl := takeUp_cluster g i e
  constructor
  · unfold Group.takeUp
    split
    · rename_i ht
      rw [he ht]
      dsimp only
      intro j hj
      by_cases hji : j = i
      · rw [hji, update_self]
        obtain hc | hc := h.config j hj
        · rw [← hji, hc]
          exact .inr rfl
        · rw [← hji, hc, apply_twice]
          exact .inr rfl
      · rw [update_of_ne hji]
        exact h.config j hj
    · exact h.config
  · have hn : ∀ j, (g.takeUp i e).node j = g.node j := fun j => by rw [Group.node, hcl]; rfl
    have hsrc : sources sites (g.takeUp i e) = sources sites g := by
      simp only [sources, hn, hcl]
    simp only [hsrc, Past, hn]
    exact h.entry

theorem takeUpAll_keeps (P : Group → Prop) (i : ℕ) (outs : List Output) (g : Group) (h : P g)
    (hk : ∀ g e, Output.apply e ∈ outs → P g → P (g.takeUp i e)) : P (g.takeUpAll i outs) := by
  unfold Group.takeUpAll
  induction outs generalizing g with
  | nil => exact h
  | cons o outs ih =>
    rw [foldl_cons]
    refine ih _ ?_ fun g e he => hk g e (mem_cons_of_mem _ he)
    cases o with
    | apply e => exact hk g e mem_cons_self h
    | _ => exact h

variable (sites) in
structure Sound (g : Group) : Prop where
  ballots : Ballots g.cluster
  ordered : ∀ j ∈ sites, Ordered (g.node j, [])
  calls : ∀ i, ∀ k ∈ g.calls i, k.change.Valid
  serial : ∃ cfg c, Serial sites g cfg c

variable (hs : Sound sites g)

include hs

theorem ordered_put
    (hg : g'.cluster = g.cluster.put i n' outs) (ho : Ordered (n', [])) : ∀ j ∈ sites,
    Ordered (g'.node j, []) := by
  intro j hj
  by_cases hji : j = i
  · rw [Group.node, hg, hji, put_self]
    exact ho
  · rw [Group.node, hg, put_other _ _ _ hji]
    exact hs.ordered j hj

theorem sound_frame (hi : i ∈ sites)
    (hg : g'.cluster = g.cluster.put i n' []) (hc : g'.config = g.config)
    (hcalls : ∀ i, ∀ k ∈ g'.calls i, k.change.Valid)
    (hf : n'.log = (g.node i).log ∧ n'.apply = (g.node i).apply ∧
      n'.lastApplied = (g.node i).lastApplied ∧ n'.currentTerm = (g.node i).currentTerm ∧
      n'.votedFor = (g.node i).votedFor) : Sound sites g' := by
  obtain ⟨hlog, hap, hla, ht, hv⟩ := hf
  obtain ⟨cfg, c, h⟩ := hs.serial
  have ho := hs.ordered i hi
  refine ⟨?_, ?_, hcalls, cfg, c, ?_⟩
  · rw [hg]
    exact ballots_put cfg i [] hs.ballots (keepsVote_same ht hv) fun _ _ _ hm => by cases hm
  · refine ordered_put hs hg ⟨?_, ?_, fun e he => by cases he⟩
    · rw [hlog]
      exact ho.aligned
    rw [hap, hla]
    exact ho.near
  · refine serial_put h hg hc ?_ ?_ (fun _ _ hm => by cases hm)
    · intro f _ _ x _ hx
      rw [hap, hla]
      exact hx
    intro e he _
    rw [hlog, held, hap] at he
    exact traced_source (he.elim (source_log hi) (source_held hi))

/-- A change is proposed when every node has passed every entry of an earlier one and all have the
same members; a node starts only from a snapshot above those, and no request brings one below a
snapshot. -/
def Serialised (sites : List ℕ) (g : Group) (a : ℕ × Move) : Prop :=
  match a.2 with
  | .submit _ =>
    (∀ e ∈ sources sites g, e.type = EntryType.config.code → ∀ j ∈ sites, Past g j e.index) ∧
    ∀ j ∈ sites, (g.config j).members = (g.config a.1).members
  | .base (.act (.recvAppend req)) =>
    ∀ e ∈ req.entries, e.type = EntryType.config.code → (g.node a.1).log.snapIndex < e.index
  | .base (.act _) => True
  | .base _ =>
    ∀ e ∈ sources sites g, e.type = EntryType.config.code → e.index ≤ (g.node a.1).log.snapIndex
  | _ => True

instance (sites : List ℕ) (g : Group) : ∀ a : ℕ × Move, Decidable (Serialised sites g a)
  | (i, .submit _) => inferInstanceAs (Decidable ((∀ e ∈ sources sites g,
    e.type = EntryType.config.code → ∀ j ∈ sites, Past g j e.index) ∧
    ∀ j ∈ sites, (g.config j).members = (g.config i).members))
  | (i, .base (.act ev)) => by
    induction ev using Event.casesOn with
    | recvAppend req => exact inferInstanceAs (Decidable (∀ e ∈ req.entries,
      e.type = EntryType.config.code → (g.node i).log.snapIndex < e.index))
    | _ => exact isTrue trivial
  | (i, .base (.crash _ _)) | (i, .base .restart) => inferInstanceAs (Decidable (∀ e ∈ sources sites g,
    e.type = EntryType.config.code → e.index ≤ (g.node i).log.snapIndex))
  | (_, .rebuild) | (_, .call _) | (_, .pendingAdd _ _) | (_, .check _) | (_, .stepDown) => isTrue trivial

omit hs in
theorem taken_traced (hal : g.allows i ev = true)
    (hd : g.cluster.delivers i ev) (hok : Serialised sites g (i, .base (.act ev)))
    (ha : (g.node i).log.Aligned) (ht : e.type = EntryType.config.code)
    (h : Repeats (g.node i).log.firstIndex (taken (g.node i) ev) e) : Traced sites g e := by
  obtain ⟨f, hf, hft, hfp, hle⟩ := h
  cases ev with
  | recvAppend req =>
    have habove := hok f hf (hft.trans ht)
    have hfirst := ha.first_le
    dsimp only at habove
    exact ⟨f, source_sent (hd _ rfl) hf, hft, hfp, hle (by omega)⟩
  | propose type payload =>
    rw [mem_singleton.mp hf] at hft
    cases type with
    | noop | catalogQtl => exact absurd (hft.trans ht) (by simp [EntryType.code])
    | config => simp [Group.allows] at hal
  | _ => cases hf

theorem sound_act (hi : i ∈ sites) (hal : g.allows i ev = true)
    (hd : g.cluster.delivers i ev) (hok : Serialised sites g (i, .base (.act ev)))
    (h : RaftService.step (g.config i) i (g.node i) ev = some (n', outs)) :
    Sound sites ((g.put i n' outs).takeUpAll i outs) := by
  obtain ⟨cfg, c, hser⟩ := hs.serial
  have ho := hs.ordered i hi
  obtain ⟨hk, hgr⟩ := step_votes _ i h
  obtain ⟨ho', hb⟩ := step_behind _ i ho h
  obtain ⟨hheld, happ⟩ := step_held _ i h
  have hput : Serial sites (g.put i n' outs) cfg c := by
    refine serial_put hser rfl rfl (fun f _ _ x _ hx => hb x hx) ?_ ?_
    · rintro e (he | he) ht
      · obtain he | hr := step_log _ i ho.aligned h e he
        · exact traced_source (source_log hi he)
        · exact taken_traced hal hd hok ho.aligned ht hr
      · exact traced_source ((hheld e he).elim (source_held hi) (source_log hi))
    · intro dst req hm e he
      exact traced_source (source_log hi (step_sends _ i _ ev n' _ h dst req hm he))
  -- an entry that is run was held, so the node had not passed it
  have hrun : ∀ e, Output.apply e ∈ outs → e.type = EntryType.config.code →
      decodeCfg e.payload = some c.op := by
    intro e he ht
    obtain hp | hdec := hser.entry e (source_held hi (happ e he)) ht
    · exact absurd (hp i hi) (held_not_behind ho (happ e he))
    · exact hdec
  have hbal : Ballots (g.put i n' outs).cluster := ballots_put _ i _ hs.ballots hk hgr
  obtain ⟨hcl, hcalls, hall⟩ := takeUpAll_keeps (fun g' => g'.cluster = (g.put i n' outs).cluster ∧
      g'.calls = g.calls ∧ Serial sites g' cfg c) i _ _ ⟨rfl, rfl, hput⟩
    (fun g' e he hg => ⟨(takeUp_cluster g' i e).trans hg.1, (takeUp_calls g' i e).trans hg.2.1,
      serial_takeUp hg.2.2 (hrun e he)⟩)
  refine ⟨?_, ordered_put hs hcl ho', ?_, cfg, c, hall⟩
  · rw [hcl]
    exact hbal
  · rw [hcalls]
    exact hs.calls

theorem sound_boot {disk : ℕ × ℕ} (hi : i ∈ sites) (hk : (g.node i).currentTerm ≤ disk.1 ∧
      (disk.1 = (g.node i).currentTerm → disk.2 = (g.node i).votedFor ∨ (g.node i).votedFor = 0))
    (hok : ∀ e ∈ sources sites g, e.type = EntryType.config.code → e.index ≤ (g.node i).log.snapIndex) :
    Sound sites (g.boot i disk) := by
  obtain ⟨cfg, c, h⟩ := hs.serial
  have hcl : (g.boot i disk).cluster =
    g.cluster.put i (Node.boot (g.config i) i disk.1 disk.2 (g.node i).log) [] := rfl
  refine ⟨?_, ?_, ?_, cfg, c, ?_⟩
  · exact ballots_put (g.config i) i [] hs.ballots ⟨hk.1, hk.2⟩ fun _ _ _ hm => by cases hm
  · exact ordered_put hs hcl (ordered_boot _ _ _ _ (hs.ordered i hi).aligned)
  · intro j k hmem
    by_cases hji : j = i
    · rw [hji] at hmem
      simp [Group.boot] at hmem
    · simp only [Group.boot, update_of_ne hji] at hmem
      exact hs.calls j k hmem
  · refine serial_put h hcl rfl ?_ ?_ (fun _ _ hm => by cases hm)
    · intro f hf ht x hle _
      exact le_trans hle (hok f hf ht)
    rintro e (he | he) _
    · exact traced_source (source_log hi he)
    · cases he

theorem calls_set (h : ∀ k ∈ cs, k.change.Valid) : ∀ j, ∀ k ∈ (g.setCalls i cs).calls j, k.change.Valid := by
  intro j k hk
  by_cases hji : j = i
  · rw [hji] at hk
    simp only [Group.setCalls, update_self] at hk
    exact h k hk
  · simp only [Group.setCalls, update_of_ne hji] at hk
    exact hs.calls j k hk

theorem sound_calls (h : ∀ k ∈ cs, k.change.Valid) : Sound sites (g.setCalls i cs) := by
  obtain ⟨cfg, c, hser⟩ := hs.serial
  exact ⟨hs.ballots, hs.ordered, calls_set hs h, cfg, c, hser.config, hser.entry⟩

theorem sound_submit {ch : Change}
    (hi : i ∈ sites) (hv : ch.Valid) (hcs : ∀ k ∈ cs, k.change.Valid)
    (hold : ∀ e ∈ sources sites g, e.type = EntryType.config.code → ∀ j ∈ sites, Past g j e.index)
    (hsame : ∀ j ∈ sites, (g.config j).members = (g.config i).members)
    (h : propose (g.node i) .config (encodeCfgPayload ch) = some n') :
    Sound sites ((g.setCalls i cs).put i n' []) := by
  obtain ⟨cfg, c, hser⟩ := hs.serial
  have ho := hs.ordered i hi
  have hstep : RaftService.step cfg i (g.node i) (.propose .config (encodeCfgPayload ch)) =
    some (n', []) := by rw [RaftService.step, h]; rfl
  have hl := step_logOnly cfg i (by simp) (by simp) hstep
  have hd := (step_down cfg i rfl hstep).1
  have hcl : ((g.setCalls i cs).put i n' []).cluster = g.cluster.put i n' [] := rfl
  have hstride : ∀ j ∈ sites, (g.config j).stride = cfg.stride := by
    intro j hj
    obtain hc | hc := hser.config j hj
    · rw [hc]
    · rw [hc, apply_stride]
  have hpast : ∀ j x, Past g j x → Past ((g.setCalls i cs).put i n' []) j x := by
    intro j x hx
    by_cases hji : j = i
    · rw [hji] at hx ⊢
      rw [Past, Group.node, Group.put, put_self, hl.apply, hl.lastApplied]
      exact hx
    · rw [Past, Group.node, Group.put, put_other _ _ _ hji]
      exact hx
  refine ⟨?_, ?_, calls_set hs hcs, g.config i, ch, ?_, ?_⟩
  · exact ballots_put cfg i [] hs.ballots (keepsVote_down hd) fun _ _ _ hm => by cases hm
  · refine ordered_put hs hcl ⟨hl.log.aligned ho.aligned, ?_, fun e he => by cases he⟩
    rw [hl.apply, hl.lastApplied]
    exact ho.near
  · intro j hj
    exact .inl (config_eq _ (hsame j hj) ((hstride j hj).trans (hstride i hi).symm))
  intro e he ht
  have hknown : e ∈ sources sites g →
      (∀ j ∈ sites, Past ((g.setCalls i cs).put i n' []) j e.index) ∨ decodeCfg e.payload = some ch.op :=
    fun hm => .inl fun j hj => hpast j _ (hold e hm ht j hj)
  obtain he | he | ⟨dst, req, hm, -⟩ | he := sources_put hcl he
  · cases step_effect hstep with
    | propose _ happ =>
      rw [proposed_log happ] at he
      obtain he | he := mem_append.mp he
      · exact hknown (source_log hi he)
      · rw [mem_singleton.mp he]
        exact .inr (decode_payload ch hv)
  · rw [held, hl.apply] at he
    exact hknown (source_held hi he)
  · cases hm
  · exact hknown he

omit hs

theorem sound_step {g : Group} {a : ℕ × Move} (hs : Sound sites g) (hok : Serialised sites g a)
    (h : g.step sites a = some g') : Sound sites g' := by
  obtain ⟨i, m⟩ := a
  unfold Group.step at h
  split at h
  swap
  · simp at h
  rename_i hi
  cases m with
  | base act =>
    cases act with
    | act ev =>
      simp only [Group.stepBase] at h
      split at h
      · rename_i hc
        obtain ⟨r, hr, rfl⟩ := map_eq_some_iff.mp h
        exact sound_act hs hi hc.1 hc.2 hok hr
      · simp at h
    | crash ev k =>
      simp only [Group.stepBase] at h
      split at h
      · cases h
        exact sound_boot hs hi (diskAfter_spec _ i _ ev k) hok
      · simp at h
    | restart =>
      cases h
      exact sound_boot hs hi ⟨le_refl _, fun _ => .inl rfl⟩ hok
  | rebuild =>
    simp only at h
    split at h
    · cases h
      exact sound_frame hs hi rfl rfl hs.calls ⟨rfl, rfl, rfl, rfl, rfl⟩
    · simp at h
  | call c =>
    simp only at h
    split at h
    · rename_i hv
      cases h
      exact sound_calls hs (forall_mem_append.mpr ⟨hs.calls i, forall_mem_singleton.mpr hv⟩)
    · simp at h
  | pendingAdd id addr =>
    simp only at h
    split at h
    · rename_i hv
      cases h
      exact sound_calls hs (forall_mem_append.mpr ⟨hs.calls i, forall_mem_singleton.mpr hv.2⟩)
    · simp at h
  | check k =>
    simp only [Group.check] at h
    split at h
    · rename_i c hc
      split at h
      · cases h
        exact sound_calls hs fun k' hk' => hs.calls i k' (mem_of_mem_eraseIdx hk')
      cases h
      refine sound_calls hs fun k' hk' => ?_
      obtain hk' | rfl := mem_or_eq_of_mem_set hk'
      · exact hs.calls i k' hk'
      · exact hs.calls i ⟨c, false⟩ (mem_of_getElem? hc)
    · simp at h
  | submit k =>
    simp only [Group.submit] at h
    split at h
    · rename_i c hc
      have hrest : ∀ k' ∈ (g.calls i).eraseIdx k, k'.change.Valid :=
        fun k' hk' => hs.calls i k' (mem_of_mem_eraseIdx hk')
      split at h
      · cases h
        exact sound_calls hs hrest
      rename_i n' hp
      cases h
      exact sound_submit hs hi (hs.calls i _ (mem_of_getElem? hc)) hrest hok.1 hok.2 hp
    · simp at h
  | stepDown =>
    simp only at h
    split at h
    · cases h
      refine sound_frame hs hi rfl rfl hs.calls ?_
      split <;> exact ⟨rfl, rfl, rfl, rfl, rfl⟩
    · simp at h

theorem granted_cases {term cand voter : ℕ} (h : granted g term cand voter = true) :
    (∃ src req resp, (voter, Output.send (.voteResp src req resp)) ∈ g.cluster.trace ∧ req.term = term ∧
      req.candidateId = cand ∧ resp.voteGranted = true) ∨
    (voter = cand ∧ (g.node cand).currentTerm = term ∧ (g.node cand).votedFor = cand) := by
  rw [granted, Bool.or_eq_true] at h
  refine h.imp (fun h => ?_) fun h => ?_
  · obtain ⟨⟨v, o⟩, hm, ho⟩ := any_eq_true.mp h
    split at ho
    · rename_i src req resp heq
      cases heq
      simp only [Bool.and_eq_true, beq_iff_eq] at ho
      obtain ⟨⟨⟨hv, ht⟩, hc⟩, hgr⟩ := ho
      exact ⟨src, req, resp, hv ▸ hm, ht, hc, hgr⟩
    · cases ho
  · simpa [and_assoc] using h

theorem granted_unique (hb : Ballots g.cluster) {term a b voter : ℕ}
    (ha : granted g term a voter = true) (hv : granted g term b voter = true) : a = b := by
  -- a grant on record of the voter's own term is the vote it has
  have mixed : ∀ a b src req resp, (voter, Output.send (.voteResp src req resp)) ∈ g.cluster.trace →
      req.term = term → req.candidateId = a → resp.voteGranted = true → voter = b →
      (g.node b).currentTerm = term → (g.node b).votedFor = b → a = b := by
    intro a b src req resp hm ht hc hgr hvb hterm hvote
    obtain ⟨-, hlt | ⟨-, he⟩⟩ := hb.cast voter src req resp hm hgr
    · rw [hvb] at hlt
      exact absurd hterm (by rw [Group.node]; omega)
    rw [hvb] at he
    rw [← hc, ← he]
    exact hvote
  obtain ⟨src, req, resp, hm, ht, hc, hgr⟩ | ⟨h1, h2, h3⟩ := granted_cases ha
  · obtain ⟨src', req', resp', hm', ht', hc', hgr'⟩ | ⟨h1, h2, h3⟩ := granted_cases hv
    · rw [← hc, ← hc']
      exact hb.once voter src src' req req' resp resp' hm hm' hgr hgr' (ht.trans ht'.symm)
    · exact mixed a b src req resp hm ht hc hgr h1 h2 h3
  · obtain ⟨src', req', resp', hm', ht', hc', hgr'⟩ | ⟨h1', -, -⟩ := granted_cases hv
    · exact (mixed b a src' req' resp' hm' ht' hc' hgr' h1 h2 h3).symm
    · exact h1.symm.trans h1'

theorem sound_quorumsMeet (hs : Sound sites g) : QuorumsMeet sites g := by
  intro term a ha b hb hea heb
  obtain ⟨cfg, c, h⟩ := hs.serial
  have hadj : Adjacent (g.config a).members (g.config b).members := by
    obtain hca | hca := h.config a ha
    · obtain hcb | hcb := h.config b hb
      · exact .inl (by rw [hca, hcb])
      · rw [hca, hcb]
        exact change_adjacent c cfg
    obtain hcb | hcb := h.config b hb
    · rw [hca, hcb]
      exact adjacent_symm (change_adjacent c cfg)
    · exact .inl (by rw [hca, hcb])
  obtain ⟨v, hva, hvb⟩ := adjacent_meet hadj hea.2.2 heb.2.2
  exact granted_unique hs.ballots hva hvb

/-- The nodes have the same members, and every configuration entry lies behind every apply thread.
-/
structure Seeded (sites : List ℕ) (g : Group) : Prop where
  members : ∃ cfg, ∀ j ∈ sites, g.config j = cfg
  passed : ∀ e ∈ sources sites g, e.type = EntryType.config.code → ∀ j ∈ sites, Past g j e.index
  ballots : Ballots g.cluster
  ordered : ∀ j ∈ sites, Ordered (g.node j, [])
  calls : ∀ i, g.calls i = []

theorem seeded_sound (h : Seeded sites g) : Sound sites g := by
  obtain ⟨cfg, hcfg⟩ := h.members
  refine ⟨h.ballots, h.ordered, fun i k hk => ?_, cfg, .remove 0, fun j hj => .inl (hcfg j hj), ?_⟩
  · rw [h.calls i] at hk
    cases hk
  · exact fun e he ht => .inl (h.passed e he ht)

theorem seeded_start (sites : List ℕ) (cfg : Config) (addr : ℕ → Bytes) :
    Seeded sites (Group.seeded cfg addr) := by
  have hempty : ∀ x, x ∉ (Group.seeded cfg addr).cluster.trace := fun x hx => by cases hx
  refine ⟨⟨cfg, fun _ _ => rfl⟩, ?_, ⟨fun _ _ _ _ hm => absurd hm (hempty _),
    fun _ _ _ _ _ _ _ hm => absurd hm (hempty _)⟩, ?_, fun _ => rfl⟩
  · intro e he _ j _
    have hone : e.index = 1 := by
      obtain he | he := mem_append.mp he
      · obtain ⟨k, _, he⟩ := mem_flatMap.mp he
        obtain he | he := mem_append.mp he
        · rw [mem_singleton.mp he]
        · cases he
      · obtain ⟨p, hp, _⟩ := mem_flatMap.mp he
        cases hp
    rw [hone]
    exact le_refl 1
  intro j _
  refine ⟨⟨le_refl 1, le_refl 1, rfl, ?_, ?_, ?_, fun _ => rfl⟩, trivial, fun e he => by cases he⟩
  · intro k e he
    obtain ⟨hk, rfl⟩ := List.getElem?_eq_some_iff.mp he
    obtain rfl : k = 0 := Nat.lt_one_iff.mp hk
    rfl
  · intro e he
    cases he
    rfl
  · intro he
    cases he

/-- If every change waits for all nodes, a term has at most one node with the votes of a majority of
its members. -/
theorem serial_changes_elect_one (sites : List ℕ) (start g : Group) (as : List (ℕ × Move))
    (hs : Seeded sites start) (ha : Along (Group.step sites) (Serialised sites) start as)
    (hr : run (Group.step sites) start as = some g) : QuorumsMeet sites g :=
  sound_quorumsMeet (run_invariant _ (fun _ _ _ h hok hst => sound_step h hok hst)
    as _ g (seeded_sound hs) ha hr)

/-- Node 1 removes node 3 and applies that alone; node 2, which has not, is
then elected by node 3. -/
def oneRemoval : List (ℕ × Move) :=
  moves (campaign 1 ⟨2, 1, 1, 1⟩ [(2, some 1), (3, none)])++
  change 1 (.remove 3)++replicated 1 2 ⟨2, 1, 1, 1, 1, [⟨2, 2, 2, encodeCfg 2 3 []⟩]⟩++
  moves (List.replicate 6 (1, .act (.applyStep 0)))++[(1, .rebuild)]++
  moves (campaign 2 ⟨3, 2, 2, 2⟩ [(1, none), (3, some 1)])

theorem serial_removal_elects_one :
    ∃ g, Along (Group.step [1, 2, 3]) (Serialised [1, 2, 3])
    (Group.seeded threeNodes fun _ => []) oneRemoval ∧
      run (Group.step [1, 2, 3]) (Group.seeded threeNodes fun _ => []) oneRemoval = some g ∧
      (g.config 1).members = [1, 2] ∧ (g.config 2).members = [1, 2, 3] ∧ Elected g 3 2 ∧
      QuorumsMeet [1, 2, 3] g := by
  have ha : Along (Group.step [1, 2, 3]) (Serialised [1, 2, 3]) (Group.seeded threeNodes fun _ => [])
    oneRemoval := by decide +kernel
  obtain ⟨g, hr, h1, h2, he⟩ := run_reaches (Group.step [1, 2, 3]) (Group.seeded threeNodes fun _ => [])
    oneRemoval (fun g => (g.config 1).members = [1, 2] ∧ (g.config 2).members = [1, 2, 3] ∧ Elected g 3 2)
    (by decide +kernel)
  exact ⟨g, ha, hr, h1, h2, he, serial_changes_elect_one [1, 2, 3] _ g oneRemoval
    (seeded_start [1, 2, 3] _ fun _ => []) ha hr⟩

/-- Calls of a leader, `drive_pending_add` among them, the seed of the tick thread, which looks
for no pending change, and the other events. -/
inductive Turn where
  | call (c : Change)
  | check (k : ℕ)
  | submit (k : ℕ)
  | seed (ids : List ℕ) (addr : ℕ → Bytes)
  | event (cfg : Config) (ev : Event)

def tenure : Event → Bool
  | .recvAppend _ | .propose .config _ => false
  | _ => true

def Turn.step (self : ℕ) (s : Node × List Call) : Turn → Option (Node × List Call)
  | .call c => some (s.1, s.2++[⟨c, false⟩])
  | .check k =>
    match s.2[k]? with
    | some ⟨c, false⟩ =>
      some (s.1, if hasPendingConfig s.1 then s.2.eraseIdx k else s.2.set k ⟨c, true⟩)
    | _ => none
  | .submit k =>
    match s.2[k]? with
    | some ⟨c, true⟩ => some ((propose s.1 .config (encodeCfgPayload c)).getD s.1, s.2.eraseIdx k)
    | _ => none
  | .seed ids addr => some ((propose s.1 .config (encodeCfgSeed ids addr)).getD s.1, s.2)
  | .event cfg ev =>
    if tenure ev then (RaftService.step cfg self s.1 ev).map fun r => (r.1, s.2) else none

def Pending (n : Node) (e : Entry) : Prop :=
  e ∈ n.log.entries ∧ e.type = EntryType.config.code ∧ n.lastApplied < e.index

def OnePending (n : Node) : Prop := ∀ e f, Pending n e → Pending n f → e = f

/-- A call looks only while no other call stands between its look and its append, the seed is
proposed only where such a look would let it pass, and no snapshot overtakes the apply thread. -/
def Unraced (s : Node × List Call) : Turn → Prop
  | .check _ => s.2.countP (·.checked) = 0
  | .seed _ _ => s.2.countP (·.checked) = 0 ∧ hasPendingConfig s.1 = false
  | .event _ ev => noOverlap (s.1, []) ev
  | _ => True

structure Leading (n : Node) : Prop where
  ordered : Ordered (n, [])
  above : Above n
  one : OnePending n

theorem not_pending (n : Node) (ha : n.log.Aligned) (h : hasPendingConfig n = false) (e : Entry) :
    ¬ Pending n e := by
  rintro ⟨he, ht, hlt⟩
  obtain ⟨i, hi⟩ := getElem?_of_mem he
  have hr := read_position _ ha i hi
  rw [← ha.index i e hi] at hr
  have hle := (read_range _ hr).2
  refine absurd h (Bool.not_eq_false _ ▸ any_eq_true.mpr ⟨e.index, ?_, ?_⟩)
  · rw [mem_range'_1]
    omega
  · rw [hr]
    exact beq_iff_eq.mpr ht

theorem leading_step (n n' : Node) (ev : Event) (outs : List Output) (hl : Leading n)
    (hok : noOverlap (n, []) ev) (h : RaftService.step cfg self n ev = some (n', outs)) :
    Ordered (n', []) ∧ Above n' ∧ n.lastApplied ≤ n'.lastApplied := by
  have hs : serve cfg self (n, []) ev = some (n', []++outs) := by rw [serve, h]; rfl
  have ho := ordered_step cfg _ _ ev hl.ordered hs
  obtain ⟨ha, hle, -⟩ := inOrder_step cfg _ hl.ordered hl.above hok hs
  exact ⟨⟨ho.aligned, ho.near, fun e he => by cases he⟩, ha, hle⟩

/-- What another event appends is not a configuration entry. -/
theorem event_pending (hl : Leading n) (hok : noOverlap (n, []) ev) (ht : tenure ev = true)
    (h : RaftService.step cfg self n ev = some (n', outs)) (e : Entry) (he : Pending n' e) : Pending n e := by
  obtain ⟨-, -, hle⟩ := leading_step cfg _ n n' ev _ hl hok h
  obtain ⟨he, hc, hlt⟩ := he
  obtain hin | ⟨f, hf, hft, -⟩ := step_log cfg _ hl.ordered.aligned h e he
  · exact ⟨hin, hc, by omega⟩
  cases ev with
  | recvAppend req => cases ht
  | propose type payload =>
    rw [mem_singleton.mp hf] at hft
    cases type with
    | config => cases ht
    | _ => cases hft.trans hc
  | _ => cases hf

theorem leading_event (hl : Leading n)
    (hok : noOverlap (n, []) ev) (ht : tenure ev = true)
    (h : RaftService.step cfg self n ev = some (n', outs)) : Leading n' := by
  obtain ⟨ho, ha, -⟩ := leading_step cfg _ n n' ev _ hl hok h
  have hold := event_pending cfg _ hl hok ht h
  exact ⟨ho, ha, fun e f he hf => hl.one e f (hold e he) (hold f hf)⟩

theorem leading_propose (hl : Leading n) (h : ∀ e, ¬ Pending n e) :
    Leading ((propose n .config payload).getD n) := by
  cases hp : propose n .config payload with
  | none => exact hl
  | some n' =>
    have hs : RaftService.step threeNodes 0 n (.propose .config payload) = some (n', []) := by
      rw [RaftService.step, hp]
      rfl
    obtain ⟨ho, ha, hle⟩ := leading_step threeNodes 0 n n' (.propose .config payload) [] hl trivial hs
    refine ⟨ho, ha, ?_⟩
    cases step_effect hs with
    | @propose _ _ l idx _ happ =>
      -- only the new entry is above what has been applied
      have hnew :
        ∀ e, Pending (proposed n l ⟨idx, n.currentTerm, EntryType.config.code, payload⟩).advanceCommit e →
          e = ⟨n.log.lastIndex+1, n.currentTerm, EntryType.config.code, payload⟩ := by
        rintro e ⟨he, hc, hlt⟩
        rw [proposed_log happ] at he
        obtain hin | hin := mem_append.mp he
        · exact absurd ⟨hin, hc, by omega⟩ (h e)
        · exact mem_singleton.mp hin
      exact fun e f he hf => (hnew e he).trans (hnew f hf).symm

/-- One call at most stands between its look and its append, and what it saw is still true. -/
structure InTurn (s : Node × List Call) : Prop where
  leading : Leading s.1
  alone : s.2.countP (·.checked) ≤ 1
  free : 0 < s.2.countP (·.checked) → ∀ e, ¬ Pending s.1 e

theorem inTurn_check {s : Node × List Call} (hs : InTurn s)
    {k : ℕ} {c : Change} (hk : s.2[k]? = some ⟨c, false⟩) (h0 : s.2.countP (·.checked) = 0) :
    InTurn (s.1, if hasPendingConfig s.1 then s.2.eraseIdx k else s.2.set k ⟨c, true⟩) := by
  obtain ⟨hlt, -⟩ := List.getElem?_eq_some_iff.mp hk
  have herase : (s.2.eraseIdx k).countP (·.checked) = 0 :=
    Nat.le_zero.mp (h0 ▸ (eraseIdx_sublist s.2 k).countP_le)
  split_ifs with hp
  · exact ⟨hs.leading, by simp [herase], fun h => absurd h (by simp [herase])⟩
  · refine ⟨hs.leading, ?_, fun _ => not_pending s.1 hs.leading.ordered.aligned (Bool.eq_false_iff.mpr hp)⟩
    rw [(set_perm_cons_eraseIdx hlt ⟨c, true⟩).countP_eq, countP_cons_of_pos rfl, herase]

theorem inTurn_submit {s : Node × List Call} (hs : InTurn s)
    {k : ℕ} {c : Change} (hk : s.2[k]? = some ⟨c, true⟩) :
    InTurn ((propose s.1 .config (encodeCfgPayload c)).getD s.1, s.2.eraseIdx k) := by
  obtain ⟨hlt, hget⟩ := List.getElem?_eq_some_iff.mp hk
  have hcount := (getElem_cons_eraseIdx_perm hlt).countP_eq (·.checked)
  rw [hget, countP_cons_of_pos rfl] at hcount
  have hone := hs.alone
  have hnone : (s.2.eraseIdx k).countP (·.checked) = 0 := by omega
  exact ⟨leading_propose hs.leading
    (hs.free (by omega)), by simp [hnone], fun h => absurd h (by simp [hnone])⟩

theorem inTurn_turn (self : ℕ) (s : Node × List Call) (t : Turn) (s' : Node × List Call) (hs : InTurn s)
    (hok : Unraced s t) (h : Turn.step self s t = some s') : InTurn s' := by
  cases t with
  | call c =>
    cases h
    have hcount : (s.2++[(⟨c, false⟩ : Call)]).countP (·.checked) = s.2.countP (·.checked) := by
      rw [countP_append, countP_singleton]
      rfl
    exact ⟨hs.leading, hcount.trans_le hs.alone, fun h => hs.free (hcount ▸ h)⟩
  | check k =>
    rw [Turn.step] at h
    split at h
    next c hk =>
      cases h
      exact inTurn_check hs hk hok
    next => cases h
  | submit k =>
    rw [Turn.step] at h
    split at h
    next c hk =>
      cases h
      exact inTurn_submit hs hk
    next => cases h
  | seed ids addr =>
    cases h
    have hfree := not_pending s.1 hs.leading.ordered.aligned hok.2
    exact ⟨leading_propose hs.leading hfree, hs.alone, fun h => absurd h (by simp [hok.1])⟩
  | event cfg ev =>
    rw [Turn.step] at h
    split_ifs at h with ht
    obtain ⟨⟨n', outs⟩, hst, rfl⟩ := map_eq_some_iff.mp h
    exact ⟨leading_event cfg _ hs.leading hok ht hst, hs.alone,
      fun hc e he => hs.free hc e (event_pending cfg _ hs.leading hok ht hst e he)⟩

/-- If no call looks for a pending change between another's look and its append, and the seed
looks too, the log never holds two changes that are not applied. -/
theorem one_change_pending (self : ℕ) (n : Node) (s' : Node × List Call) (ts : List Turn) (hs : Leading n)
    (ha : Along (Turn.step self) Unraced (n, []) ts) (hr : run (Turn.step self) (n, []) ts = some s') :
    OnePending s'.1 :=
  (run_invariant InTurn (inTurn_turn self) ts (n, []) s' ⟨hs, by simp, by simp⟩ ha hr).leading.one

def seededLeader : Node := { seededNode threeNodes (fun _ => []) 1 with role := .leader }

theorem seededLeader_leading : Leading seededLeader := by
  have h := (seeded_start [1] threeNodes fun _ => []).ordered 1 (by decide)
  exact ⟨⟨h.aligned, h.near, h.behind⟩, ⟨by decide, trivial⟩,
    fun e _ he => absurd he (not_pending _ h.aligned (by decide) e)⟩

theorem one_change_pending_removal :
    ∃ s, run (Turn.step 1) (seededLeader, []) [.call (.remove 3), .call (.remove 2), .check 0,
      .submit 0, .check 0] = some s ∧ s.2 = [] ∧ OnePending s.1 :=
  ⟨_, rfl, rfl,
    one_change_pending 1 seededLeader _ [.call (.remove 3), .call (.remove 2), .check 0, .submit 0, .check 0]
    seededLeader_leading ⟨trivial, trivial, rfl, trivial, rfl, trivial⟩ rfl⟩

/-- Both calls look before either of them appends. -/
theorem two_changes_pending : ∃ s, run (Turn.step 1) (seededLeader, [])
    [.call (.remove 3), .call (.remove 2), .check 0, .check 1, .submit 0, .submit 0] = some s ∧
    ¬ OnePending s.1 := by
  refine ⟨_, rfl, fun h => ?_⟩
  have hp := h ⟨2, 1, 2, encodeCfg 2 3 []⟩ ⟨3, 1, 2, encodeCfg 2 2 []⟩ ⟨by decide, rfl, by decide⟩
    ⟨by decide, rfl, by decide⟩
  exact absurd hp (by decide)

end QEngine.RaftSerialChanges

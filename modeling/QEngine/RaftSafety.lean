import QEngine.RaftApplyOrder
import QEngine.RaftCompleteness

/-!
# State-machine safety

An entry is decided once a majority has stored the log of some term up to an entry
of that term at or behind it. Two decided entries of one index are equal. Two
steps can break this: a leader that merges a success of an earlier term, and a
follower that commits up to its own last index.
-/

namespace QEngine.RaftSafety
open List RaftLogRecord RaftNode RaftService RaftEffects RaftCluster QuorumSets LeaderLogs StepRuns
open RaftElection RaftReplication RaftMatching RaftCompleteness RaftApplyOrder

/-- The history of a run: votes and leaders, the log of each term's leader,
and how much of it each member has stored. -/
structure History where
  votes : Votes
  llog : ℕ → List Entry
  acked : ℕ → ℕ → ℕ

instance : Preorder History where
  le g g' := g.votes ≤ g'.votes ∧ (∀ t, g.llog t <+: g'.llog t) ∧
    ∀ t q, g.acked t q ≤ g'.acked t q
  le_refl g := ⟨le_refl _, fun _ => prefix_rfl, fun _ _ => le_refl _⟩
  le_trans _ _ _ h1 h2 := ⟨le_trans h1.1 h2.1, fun t => (h1.2.1 t).trans (h2.2.1 t),
    fun t q => (h1.2.2 t q).trans (h2.2.2 t q)⟩

variable (cfg : Config)

def Backs (g : History) (T m : ℕ) (l : List Entry) : Prop :=
  m = 0 ∨ ∃ t j, Chosen Entry.term g.llog cfg.members g.acked t j ∧ t ≤ T ∧ m ≤ j+1 ∧
    (g.llog t).take m <+: l

def Decided (g : History) (e : Entry) : Prop :=
  ∃ t j x, Chosen Entry.term g.llog cfg.members g.acked t j ∧ x ≤ j ∧
    (g.llog t)[x]? = some e ∧ e.index = x+1

def target : Apply → ℕ
  | .idle => 0
  | .loop _ commit | .missed _ commit | .skip _ commit | .hold _ commit _ | .ran _ commit _ _
  | .recorded _ commit _ => commit

structure Settled (c : Cluster) (g : History) : Prop where
  commit : ∀ i, Backs cfg g (c.nodes i).currentTerm (c.nodes i).commitIndex
    (c.nodes i).log.entries
  sent : ∀ dst req, Packet.appendReq dst req ∈ c.net →
    Backs cfg g req.term req.leaderCommit (g.llog req.term)
  target : ∀ i, target (c.nodes i).apply ≤ (c.nodes i).commitIndex
  hold : ∀ i idx commit e, (c.nodes i).apply = .hold idx commit e → Decided cfg g e
  applied : ∀ i e, (i, Output.apply e) ∈ c.trace → Decided cfg g e

structure Safe (c : Cluster) (g : History) : Prop where
  inv : Inv cfg c g.votes
  matched : Matched cfg c g.votes g.llog
  stored : Stored cfg c g.votes g.llog g.acked
  settled : Settled cfg c g

theorem safe_init : Safe cfg (Cluster.init cfg) ⟨Votes.none, fun _ => [], fun _ _ => 0⟩ where
  inv := inv_init cfg
  matched := matched_init cfg
  stored := stored_init cfg
  settled :=
    { commit := fun _ => .inl rfl
      sent := fun _ _ hm => absurd hm (by simp [Cluster.init, Cluster.net])
      target := fun _ => Nat.zero_le _
      hold := fun _ _ _ _ ha => absurd ha (by simp [Cluster.init, Node.boot])
      applied := fun _ _ hm => absurd hm (by simp [Cluster.init]) }

variable {cfg}

variable {i : ℕ} {req : AppendReq} {c' : Cluster} {ev : Event} {g : History} {n' : Node}
  {l : List Entry} {outs : List Output} {llog : ℕ → List Entry}

theorem chosen_length {t j : ℕ}
    (h : Chosen Entry.term g.llog cfg.members g.acked t j) : j < (g.llog t).length := by
  obtain ⟨e, he, _⟩ := h.2
  exact (List.getElem?_eq_some_iff.mp he).1

variable {g' : History}

theorem backs_mono {T T' m m' : ℕ} {l' : List Entry} (hg : g ≤ g')
    (hT : T ≤ T') (hm : m' ≤ m) (hl : l <+: l') (h : Backs cfg g T m l) : Backs cfg g' T' m' l' := by
  rcases h with rfl | ⟨t, j, hc, ht, hj, hp⟩
  · exact .inl (Nat.le_zero.mp hm)
  refine .inr ⟨t, j, chosen_grown hg.2.1 hg.2.2 hc, by omega, by omega, ?_⟩
  have := chosen_length hc
  rw [← prefix_take_eq m' (hg.2.1 t) (by omega)]
  exact ((take_prefix_take_left hm).trans hp).trans hl

theorem decided_mono (hg : g ≤ g') {e : Entry} (h : Decided cfg g e) : Decided cfg g' e := by
  obtain ⟨t, j, x, hc, hx, he, hi⟩ := h
  refine ⟨t, j, x, chosen_grown hg.2.1 hg.2.2 hc, hx, ?_, hi⟩
  obtain ⟨r, hr⟩ := hg.2.1 t
  rw [← hr, getElem?_append_left (List.getElem?_eq_some_iff.mp he).1, he]

theorem backs_decided {T m : ℕ} (h : Backs cfg g T m l)
    (hl : Numbered l) {x : ℕ} (hx : x < m) {e : Entry} (he : l[x]? = some e) : Decided cfg g e := by
  rcases h with rfl | ⟨t, j, hc, _, hj, hp⟩
  · omega
  refine ⟨t, j, x, hc, by omega, ?_, hl x e he⟩
  have := chosen_length hc
  obtain ⟨r, hr⟩ := hp
  rw [← hr, getElem?_append_left (by rw [length_take]; omega), getElem?_take,
    if_pos hx] at he
  exact he

variable (c : Cluster)

theorem decided_unique (hs : Safe cfg c g) {e f : Entry}
    (he : Decided cfg g e) (hf : Decided cfg g f) (hi : e.index = f.index) : e = f := by
  -- the entry decided in the earlier term is in the log of the later one
  have carry : ∀ t j x e u k f, Chosen Entry.term g.llog cfg.members g.acked t j → x ≤ j →
      (g.llog t)[x]? = some e → Chosen Entry.term g.llog cfg.members g.acked u k →
      (g.llog u)[x]? = some f → t ≤ u → e = f := by
    intro t j x e u k f hc hx he hc' hf htu
    have hled : t < u → Led g.votes u := by
      intro _ hn
      rw [hs.matched.unled u hn] at hf
      simp at hf
    obtain ⟨r, hr⟩ := stored_complete cfg hs.stored u hc htu hled
    have hlen := chosen_length hc
    rw [← hr, getElem?_append_left (by rw [length_take]; omega), getElem?_take,
      if_pos (by omega), he] at hf
    exact Option.some.inj hf
  obtain ⟨t, j, x, hc, hx, he, hie⟩ := he
  obtain ⟨u, k, y, hc', hy, hf, hif⟩ := hf
  have hxy : y = x := by omega
  subst hxy
  rcases le_total t u with htu | hut
  · exact carry t j y e u k f hc hx he hc' hf htu
  · exact (carry u k y f t j e hc' hy hf hc he hut).symm

theorem backs_kept (hs : Safe cfg c g) (hg : g ≤ g') {h' : Votes}
      {k : ℕ} (ha : Advance cfg c g.votes h' g.llog g.acked i n' outs k) :
    Backs cfg g' n'.currentTerm (c.nodes i).commitIndex n'.log.entries := by
  have hterm := ha.term
  have hc := hs.settled.commit i
  rcases ha.log with hp | ⟨hl, hkeep⟩
  · exact backs_mono hg hterm (le_refl _) hp hc
  refine backs_mono hg (le_refl _) (le_refl _) prefix_rfl ?_
  rcases hc with h0 | ⟨t, j, hch, ht, hj, hp⟩
  · exact .inl h0
  refine .inr ⟨t, j, hch, by omega, hj, hkeep _ hp ?_⟩
  exact (take_prefix_take_left hj).trans
    (stored_complete cfg hs.stored _ hch (by omega) (fun _ => hl))

def Counts (n : Node) (j : ℕ) : Prop :=
  n.role = .leader ∧ j < n.log.lastIndex ∧ n.log.termAt (j+1) = n.currentTerm ∧
    n.quorumNeeded ≤ 1+n.peers.countP (fun p => j+1 ≤ p.matchIndex)

theorem quorum_chosen {h : Votes} {acked : ℕ → ℕ → ℕ}
    (hv : Inv cfg c h) (hm : Matched cfg c h llog) (hs : Stored cfg c h llog acked)
    (hi : i ∈ cfg.members) (j : ℕ) (hc : Counts (c.nodes i) j) :
    Chosen Entry.term llog cfg.members acked (c.nodes i).currentTerm j := by
  obtain ⟨hr, hj, ht, hq⟩ := hc
  have hlast := plain_last _ (hm.plain i)
  constructor
  · have hpeers : (c.nodes i).peers.countP (fun p => j+1 ≤ p.matchIndex) ≤
        (cfg.members.filter (fun x => x ≠ i)).countP
          (fun q => j < acked (c.nodes i).currentTerm q) := by
      rw [← hv.peers i, peerIds, countP_map]
      refine countP_mono_left fun p hp hx => ?_
      have := (hs.peers i hr p hp).2
      simp only [decide_eq_true_eq, Function.comp_apply] at hx ⊢
      omega
    have hself : j < acked (c.nodes i).currentTerm i := by
      have := hs.own i hr
      omega
    have hcount := count_others _ cfg.nodup hi
      (fun q => j < acked (c.nodes i).currentTerm q) hself
    have hlen := length_others _ cfg.nodup hi
    have hp := congrArg length (hv.peers i)
    simp only [peerIds, length_map] at hp
    unfold Node.quorumNeeded at hq
    rw [hp, hlen] at hq
    rw [Majority, ← hcount]
    exact hq.trans (Nat.add_le_add_left hpeers 1)
  · rw [plain_termAt _ (hm.plain i), getElem?_eq_getElem (by omega)] at ht
    refine ⟨(c.nodes i).log.entries.get ⟨j, by omega⟩, ?_, ht⟩
    rw [hm.leader i hr]
    exact getElem?_eq_getElem _

theorem advanceCommit_cases (n : Node) : n.advanceCommit.commitIndex = n.commitIndex ∨
    ∃ j, n.advanceCommit.commitIndex = j+1 ∧ n.commitIndex ≤ j ∧ Counts n.advanceCommit j := by
  obtain ⟨ht, _, hr, _, hp, hl⟩ := advanceCommit_frame n
  have hcounts : ∀ j, Counts n j → Counts n.advanceCommit j := by
    intro j hj
    unfold Counts Node.quorumNeeded
    rw [ht, hr, hp, hl]
    exact hj
  have hcase : n.advanceCommit.commitIndex = n.commitIndex ∨
      ∃ j, n.advanceCommit.commitIndex = j+1 ∧ n.commitIndex ≤ j ∧ Counts n j := by
    unfold Node.advanceCommit
    split
    · exact .inl rfl
    rename_i hrole
    split
    · rename_i N hN
      have hm := mem_of_find?_eq_some hN
      have hq := find?_some hN
      rw [mem_reverse, mem_range'_1] at hm
      simp only [decide_eq_true_eq] at hq
      obtain ⟨j, rfl⟩ : ∃ j, N = j+1 := ⟨N-1, by omega⟩
      exact .inr ⟨j, rfl, by omega, not_not.mp hrole, by omega, hq.1, hq.2⟩
    · exact .inl rfl
  exact hcase.imp_right fun ⟨j, h1, h2, h3⟩ => ⟨j, h1, h2, hcounts j h3⟩

def Commits (n : Node) (ev : Event) (n' : Node) : Prop :=
  n'.commitIndex = n.commitIndex ∨
  (∃ j, n'.commitIndex = j+1 ∧ n.commitIndex ≤ j ∧ Counts n' j) ∨
  ∃ req, ev = .recvAppend req ∧ n.currentTerm ≤ req.term ∧ n' = (onAppendEntries n req).1 ∧
    (onAppendEntries n req).2.success = true ∧
    n'.commitIndex = max n.commitIndex (min req.leaderCommit n'.log.lastIndex)

theorem recvAppend_commits (n : Node) (req : AppendReq) : Commits n (.recvAppend req)
    (onAppendEntries n req).1 := by
  rcases onAppend_cases n req with ⟨_, h⟩ | ⟨ht, _, _, h⟩ | ⟨ht, _, _, _, h⟩ | ⟨ht, _, l, ok, _, hresp, h⟩
  · exact .inl (by rw [h])
  · exact .inl (by rw [h]; exact (hearLeader_fields _ _ _ ht).2.2.1)
  · exact .inl (by rw [h]; exact (hearLeader_fields _ _ _ ht).2.2.1)
  cases ok with
  | false => exact .inl (by rw [h]; rfl)
  | true => exact .inr (.inr ⟨req, rfl, ht, rfl, by rw [hresp], by rw [h]; rfl⟩)

theorem mergeReply_commits (n m : Node) {peer : ℕ}
    {resp : AppendResp} (hm : m.commitIndex = n.commitIndex) : Commits n ev (mergeReply m peer req resp) := by
  rcases mergeReply_cases m _ req _ with ⟨_, h⟩ | ⟨_, h⟩ | ⟨_, _, _, h⟩ | ⟨_, h⟩
  · exact .inl (by rw [h]; exact hm)
  · exact .inl (by rw [h]; exact hm)
  · have hc := advanceCommit_cases (m.setPeer peer (fun p =>
      { p with
          matchIndex := max p.matchIndex (req.prevLogIndex+req.entries.length)
          nextIndex := req.prevLogIndex+req.entries.length+1 }))
    rw [show (m.setPeer peer _).commitIndex = n.commitIndex from hm] at hc
    rw [h]
    exact hc.imp_right .inl
  · exact .inl (by rw [h]; exact hm)

theorem step_commits (hc : uncompacted cfg c (i, .act ev) = true)
    (h : step cfg i (c.nodes i) ev = some (n', outs)) : Commits (c.nodes i) ev n' := by
  by_cases hs : Event.still ev = true
  · exact .inl (step_still cfg i hs h).commitIndex
  cases step_effect h with
  | recvAppend => exact recvAppend_commits _ _
  | propose => exact (advanceCommit_cases _).imp_right .inl
  | replicateReply => exact mergeReply_commits _ _ rfl
  | wakeApplied | wakeDeposed | park | rollBack | giveUp | applyStart | applyEnd | applyRead
  | applyMiss | applyPass | applyQuit | applySkip | applyRun | applyRecord | applyCompact
  | applyNext => exact .inl rfl
  | stageLast | stagePart | slurp | restore | unread | unlink | installFailed | installed =>
    simp [uncompacted] at hc
  | _ => exact absurd rfl hs

/-- The commit index of an accepted request is not behind its last entry, or the follower's log
ends there or is cut there. -/
def commitCovered (c : Cluster) (a : ℕ × Action) : Prop :=
  match a.2 with
  | .act (.recvAppend req) =>
    (c.nodes a.1).currentTerm ≤ req.term →
    (0 < req.prevLogIndex → req.prevLogIndex ≤ (c.nodes a.1).log.lastIndex ∧
      (c.nodes a.1).log.termAt req.prevLogIndex = req.prevLogTerm) →
    req.leaderCommit ≤ req.prevLogIndex+req.entries.length ∨
    (c.nodes a.1).log.lastIndex ≤ req.prevLogIndex+req.entries.length ∨
    ∃ e ∈ req.entries, e.index ≤ (c.nodes a.1).log.lastIndex ∧
      (c.nodes a.1).log.termAt e.index ≠ e.term
  | _ => True

instance (c : Cluster) (a : ℕ × Action) : Decidable (commitCovered c a) := by
  induction a using Prod.casesOn with
  | mk i act =>
    induction act using RaftCluster.Action.casesOn with
    | act ev =>
      induction ev using Event.casesOn with
      | recvAppend req => exact inferInstanceAs (Decidable (_ → _ → _ ∨ _ ∨ _))
      | _ => exact isTrue trivial
    | _ => exact isTrue trivial

theorem onAppend_covers {n : Node} {M : List Entry}
    (hl : Plain n.log) (hr : Rooted Entry.term llog n.log.entries)
    (hL : Rooted Entry.term llog (llog req.term)) (hs : Stands req M) (hM : M <+: llog req.term)
    (ht : n.currentTerm ≤ req.term) (hcov : (0 < req.prevLogIndex → req.prevLogIndex ≤ n.log.lastIndex ∧
        n.log.termAt req.prevLogIndex = req.prevLogTerm) →
        req.leaderCommit ≤ req.prevLogIndex+req.entries.length ∨
      n.log.lastIndex ≤ req.prevLogIndex+req.entries.length ∨
      ∃ e ∈ req.entries, e.index ≤ n.log.lastIndex ∧ n.log.termAt e.index ≠ e.term)
    (hok : (onAppendEntries n req).2.success = true) :
    min req.leaderCommit (onAppendEntries n req).1.log.lastIndex ≤ M.length := by
  rcases onAppend_cases n req with ⟨hx, _⟩ | ⟨_, _, _, hx⟩ | ⟨_, _, _, _, hx⟩ |
    ⟨_, hprev, l, ok, hins, hresp, hx⟩
  · omega
  · rw [hx] at hok
    simp at hok
  · rw [hx] at hok
    simp at hok
  obtain ⟨_, hplain, hcase⟩ := accept_spec hl hr hs
    (rootedFrom_of_rooted (rooted_front hM hL)) hprev
  rw [hins] at hcase hplain
  rw [hx]
  dsimp only at hcase hplain ⊢
  rcases hcase with ⟨rfl, hc⟩ | ⟨_, j, _, he, _⟩
  · rw [hs.length]
    rcases hcov hprev with h | h | ⟨e, hem, _, hne⟩
    · omega
    · omega
    · -- a log that holds all the request carries has no conflict with it
      exfalso
      rw [← hs.entries] at hem
      obtain ⟨x, hxe⟩ := mem_iff_getElem?.mp (mem_of_mem_drop hem)
      have hget : n.log.entries[x]? = some e := by
        obtain ⟨r, hr⟩ := hc
        rw [← hr, getElem?_append_left (List.getElem?_eq_some_iff.mp hxe).1, hxe]
      rw [hs.numbered x e hxe, plain_termAt _ hl, hget] at hne
      exact hne rfl
  · rw [plain_last l hplain, he, length_take]
    omega

theorem backs_recv (hs : Safe cfg c g) (hg : g ≤ g')
    (hnet : Packet.appendReq i req ∈ c.net) (ht : (c.nodes i).currentTerm ≤ req.term)
    (hcov : commitCovered c (i, .act (.recvAppend req)))
    (hok : (onAppendEntries (c.nodes i) req).2.success = true) :
    Backs cfg g' (onAppendEntries (c.nodes i) req).1.currentTerm
      (min req.leaderCommit (onAppendEntries (c.nodes i) req).1.log.lastIndex)
      (onAppendEntries (c.nodes i) req).1.log.entries := by
  obtain ⟨M, hst, hM⟩ := hs.stored.stands i req hnet
  have hL := hs.stored.rooted req.term
  have hlen := onAppend_covers (hs.matched.plain i) (hs.matched.rooted i)
    hL hst hM ht (hcov ht) hok
  have hkeep := (onAppend_follow (hs.matched.plain i)
    (hs.matched.rooted i) hL hst hM ht).2.2 hok
  rw [(recvAppend_follows cfg c _ hs.matched hs.inv hnet ht).1]
  refine backs_mono hg (le_refl _) (le_refl _) hkeep ?_
  rcases hs.settled.sent i req hnet with h0 | ⟨t, j, hc, htt, hj, hp⟩
  · exact .inl (by rw [h0, Nat.zero_min])
  refine .inr ⟨t, j, hc, htt, by omega, ?_⟩
  refine prefix_of_prefix_length_le ((take_prefix_take_left (min_le_left _ _)).trans hp)
    hM ?_
  rw [length_take]
  exact (min_le_left _ _).trans hlen

theorem applyStep_reads {self : ℕ} {n : Node} {rc : ℤ}
    (h : Effect cfg self n (.applyStep rc) n' outs) :
    (target n'.apply ≤ target n.apply ∨ target n'.apply = n.commitIndex) ∧
    (∀ idx commit e, n'.apply = .hold idx commit e → n.log.read idx = some e ∧ idx ≤ target n.apply) ∧
    ∀ e, Output.apply e ∈ outs → ∃ idx commit, n.apply = .hold idx commit e := by
  cases h with
  | applyStart => exact ⟨.inr rfl, by simp, by simp⟩
  | applyEnd | applyQuit => exact ⟨.inl (Nat.zero_le _), by simp, by simp⟩
  | applyRead hp hle hr =>
    rw [hp]
    refine ⟨.inl (le_refl _), ?_, by simp⟩
    intro idx' commit' e' hx
    cases hx
    exact ⟨hr, hle⟩
  | applyRun hp =>
    rw [hp]
    refine ⟨.inl (le_refl _), by simp, ?_⟩
    intro f hf
    rw [Output.apply.inj (mem_singleton.mp hf)]
    exact ⟨_, _, rfl⟩
  | applyMiss hp | applyPass hp | applySkip hp | applyRecord hp | applyCompact hp | applyNext hp =>
    rw [hp]
    exact ⟨.inl (le_refl _), by simp, by simp⟩

theorem settled_put (hs : Settled cfg c g) (hg : g ≤ g') (i : ℕ) (outs : List Output)
    (hcom : Backs cfg g' n'.currentTerm n'.commitIndex n'.log.entries)
    (hsent : ∀ dst req, Output.send (.appendReq dst req) ∈ outs →
      Backs cfg g' req.term req.leaderCommit (g'.llog req.term)) (htar : target n'.apply ≤ n'.commitIndex)
    (hhold : ∀ idx commit e, n'.apply = .hold idx commit e → Decided cfg g' e)
    (happ : ∀ e, Output.apply e ∈ outs → Decided cfg g' e) : Settled cfg (c.put i n' outs) g' := by
  constructor
  · exact put_forall (fun _ n => Backs cfg g' n.currentTerm n.commitIndex n.log.entries) c i n' _
      hcom (fun j _ => backs_mono hg (le_refl _) (le_refl _) prefix_rfl
        (hs.commit j))
  · intro dst req hp
    rcases reply_put c hp with hp | hp
    · exact backs_mono hg (le_refl _) (le_refl _) (hg.2.1 _) (hs.sent dst req hp)
    · exact hsent dst req hp
  · exact put_forall (fun _ n => target n.apply ≤ n.commitIndex) c i n' _ htar
      (fun j _ => hs.target j)
  · intro j idx commit e
    exact put_forall (fun _ n => n.apply = .hold idx commit e → Decided cfg g' e) c i n' _
      (hhold idx commit e) (fun j _ ha => decided_mono hg (hs.hold j idx commit e ha)) j
  · intro j e hm
    simp only [Cluster.put, mem_append, mem_map, Prod.mk.injEq] at hm
    rcases hm with hm | ⟨o, ho, _, rfl⟩
    · exact decided_mono hg (hs.applied j e hm)
    · exact happ e ho

theorem settled_event (hs : Safe cfg c g) (hg : g ≤ g')
    (hi : i ∈ cfg.members) {k : ℕ} (ha : Advance cfg c g.votes g'.votes g.llog g.acked i n' outs k)
    (hv' : Inv cfg (c.put i n' outs) g'.votes) (hm' : Matched cfg (c.put i n' outs) g'.votes g'.llog)
    (hs' : Stored cfg (c.put i n' outs) g'.votes g'.llog g'.acked)
    (hc : uncompacted cfg c (i, .act ev) = true) (hcov : commitCovered c (i, .act ev))
    (hdel : c.delivers i ev) (h : step cfg i (c.nodes i) ev = some (n', outs)) :
    Settled cfg (c.put i n' outs) g' := by
  have hkept := backs_kept c hs hg ha
  have hcases := step_commits c hc h
  have hgrows : (c.nodes i).commitIndex ≤ n'.commitIndex := by
    rcases hcases with he | ⟨j, he, hj, _⟩ | ⟨_, _, _, _, _, he⟩
    · exact le_of_eq he.symm
    · omega
    · rw [he]
      exact le_max_left _ _
  have hbacks : Backs cfg g' n'.currentTerm n'.commitIndex n'.log.entries := by
    rcases hcases with he | ⟨j, he, _, hcount⟩ | ⟨req, rfl, ht, rfl, hok, he⟩
    · rw [he]
      exact hkept
    · have hch := quorum_chosen _ hv' hm' hs' hi j
        (by rw [put_self]; exact hcount)
      have hlog := hm'.leader i (by rw [put_self]; exact hcount.1)
      rw [put_self] at hch hlog
      refine .inr ⟨_, j, hch, le_refl _, le_of_eq he, ?_⟩
      rw [hlog]
      exact take_prefix _ _
    · rw [he]
      rcases le_total (c.nodes i).commitIndex _ with hle | hle
      · rw [max_eq_right hle]
        exact backs_recv c hs hg (hdel _ rfl) ht hcov hok
      · rw [max_eq_left hle]
        exact hkept
  have hsent : ∀ dst req, Output.send (.appendReq dst req) ∈ outs →
      Backs cfg g' req.term req.leaderCommit (g'.llog req.term) := by
    intro dst req hx
    obtain ⟨hr, _, _, _, rfl, _⟩ := effect_requests (step_effect h) hx
    refine backs_mono hg (le_refl _) (le_refl _) ?_ (hs.settled.commit i)
    rw [← hs.matched.leader i hr]
    exact hg.2.1 _
  have htar := hs.settled.target i
  by_cases hap : ∃ rc, ev = .applyStep rc
  · obtain ⟨rc, rfl⟩ := hap
    obtain ⟨h1, h2, h3⟩ := applyStep_reads (step_effect h)
    refine settled_put c hs.settled hg i _ hbacks hsent (by omega) ?_ ?_
    · intro idx commit e hx
      obtain ⟨hr, hle⟩ := h2 idx commit e hx
      -- what the loop reads lies below the commit index
      cases idx with
      | zero => simp [Log.read] at hr
      | succ x =>
        rw [plain_read _ (hs.matched.plain i)] at hr
        exact decided_mono hg (backs_decided (hs.settled.commit i)
          (plain_numbered _ (hs.matched.plain i)) (by omega) hr)
    · intro e hx
      obtain ⟨idx, commit, hh⟩ := h3 e hx
      exact decided_mono hg (hs.settled.hold i idx commit e hh)
  · have hlo := step_logOnly cfg i (fun rc he => hap ⟨rc, he⟩)
      (fun w ok he => by rw [he] at hc; exact absurd hc (by simp [uncompacted])) h
    refine settled_put c hs.settled hg i _ hbacks hsent ?_ ?_ ?_
    · rw [hlo.apply]
      exact htar.trans hgrows
    · intro idx commit e hx
      rw [hlo.apply] at hx
      exact decided_mono hg (hs.settled.hold i idx commit e hx)
    · exact fun e hx => absurd hx (hlo.applies e)

theorem settled_boot (g g' : History) (hs : Safe cfg c g) (hg : g ≤ g') (i term vote : ℕ) : Settled cfg
      (c.put i (Node.boot cfg i term vote (c.nodes i).log) []) g' := by
  refine settled_put c hs.settled hg i [] (.inl ?_) (by simp) (Nat.zero_le _) ?_ (by simp)
  · exact (hs.matched.plain i).snap
  · intro idx commit e hx
    simp [Node.boot] at hx

def Sound (cfg : Config) (c : Cluster) (a : ℕ × Action) : Prop :=
  uncompacted cfg c a = true ∧ noRollback c a ∧ currentReply c a ∧ commitCovered c a

instance (cfg : Config) (c : Cluster) (a : ℕ × Action) : Decidable (Sound cfg c a) := by
  unfold Sound
  infer_instance

theorem safe_step {a : ℕ × Action}
    (hs : Safe cfg c g) (hok : Sound cfg c a) (h : c.step cfg a = some c') : ∃ g', g ≤ g' ∧
    Safe cfg c' g' := by
  obtain ⟨hc, hroll, hcur, hcov⟩ := hok
  obtain ⟨hle, hv'⟩ := inv_step cfg c _ hs.inv h
  have hm' := matched_step cfg c _ hs.matched hs.inv hc
    (noRollback_unseen cfg hroll) h
  obtain ⟨i, act⟩ := a
  have hnext : ∀ n' outs k, c' = c.put i n' outs →
      Advance cfg c g.votes (record cfg c (i, act) g.votes) g.llog g.acked i n' outs k →
      (∀ g', g ≤ g' → g' = ⟨record cfg c (i, act) g.votes, publish n' g.llog,
          credit g.acked n'.currentTerm i k⟩ →
        Matched cfg c' g'.votes g'.llog → Stored cfg c' g'.votes g'.llog g'.acked →
        Settled cfg c' g') → ∃ g', g ≤ g' ∧ Safe cfg c' g' := by
    rintro n' outs k rfl ha hset
    rw [put_self] at hm'
    have hs' := stored_advance hs.inv hs.matched hs.stored ha hle hv' hm'
    have hg : g ≤ ⟨record cfg c (i, act) g.votes, publish n' g.llog,
        credit g.acked n'.currentTerm i k⟩ :=
      ⟨hle, (advance_grows hs.matched ha).1, credit_le _ _ _ _⟩
    exact ⟨_, hg, hv', hm', hs', hset _ hg rfl hm' hs'⟩
  obtain ⟨hi, ⟨ev, n', outs, hact, hdel, hstep, hput⟩ | ⟨ev, w, hno, hput⟩⟩ := step_cases h
  · dsimp only at hact hdel hstep hput
    subst hact
    obtain ⟨k, ha⟩ := advance_event hs.inv hs.matched hs.stored hi ev hc hroll hcur hdel hstep
    refine hnext n' outs k hput ha ?_
    rintro g' hg rfl hm hst
    rw [hput] at hv' hm hst ⊢
    exact settled_event c hs hg hi ha hv' hm hst hc hcov hdel hstep
  · obtain ⟨k, ha⟩ := advance_boot hs.inv ev w
    rw [record_boot cfg c _ hno] at hnext
    refine hnext _ _ k hput ha ?_
    rintro g' hg rfl _ _
    rw [hput]
    exact settled_boot c g _ hs hg i _ _

def Agreement (c : Cluster) : Prop :=
  ∀ i j e f, (i, Output.apply e) ∈ c.trace → (j, Output.apply f) ∈ c.trace →
    e.index = f.index → e = f

/-- What a commit index covers in `c` is in the log of every leader of `c'`
whose term is not earlier. -/
def Retained (c c' : Cluster) : Prop :=
  ∀ q l x e, x ≤ (c.nodes q).commitIndex → (c.nodes q).log.read x = some e →
    (c'.nodes l).role = .leader → (c.nodes q).currentTerm ≤ (c'.nodes l).currentTerm →
    (c'.nodes l).log.read x = some e

theorem safe_retained (hs : Safe cfg c g) (hs' : Safe cfg c' g')
    (hg : g ≤ g') : Retained c c' := by
  intro q l x e hx he hr ht
  cases x with
  | zero => simp [Log.read] at he
  | succ x =>
    rw [plain_read _ (hs.matched.plain q)] at he
    rw [plain_read _ (hs'.matched.plain l), ← hs'.matched.leader l hr]
    rcases hs.settled.commit q with h0 | ⟨t, j, hc, htt, hj, hp⟩
    · omega
    have hlen := chosen_length hc
    have hlead := hs'.inv.leader l hr
    have hcomp := stored_complete cfg hs'.stored (c'.nodes l).currentTerm
      (chosen_grown hg.2.1 hg.2.2 hc) (by omega) (fun _ => by unfold Led; rw [hlead]; simp)
    rw [← prefix_take_eq (j+1) (hg.2.1 t) hlen] at hcomp
    obtain ⟨r, hr⟩ := hp
    obtain ⟨s, hs⟩ := hcomp
    rw [← hr, getElem?_append_left (by rw [length_take]; omega), getElem?_take,
      if_pos (by omega)] at he
    rw [← hs, getElem?_append_left (by rw [length_take]; omega), getElem?_take,
      if_pos (by omega)]
    exact he

/-- Without compaction and rollback, with successes merged in their own term and commits within
the request, all nodes apply the same entries and later leaders hold the committed ones. -/
theorem state_machine_safety (cfg : Config) (as bs : List (ℕ × Action)) (c c' : Cluster)
    (ha : Along (Cluster.step cfg) (Sound cfg) (Cluster.init cfg) as)
    (hr : run (Cluster.step cfg) (Cluster.init cfg) as = some c)
    (hb : Along (Cluster.step cfg) (Sound cfg) c bs)
    (hr' : run (Cluster.step cfg) c bs = some c') : Agreement c' ∧ Retained c c' := by
  obtain ⟨g, _, hs⟩ := run_ghost _
    (fun s g a s' hs hok h => safe_step s hs hok h) as _ c _ (safe_init cfg) ha hr
  obtain ⟨g', hg, hs'⟩ := run_ghost _
    (fun s g a s' hs hok h => safe_step s hs hok h) bs c c' g hs hb hr'
  refine ⟨?_, safe_retained c hs hs' hg⟩
  intro i j e f he hf hi
  exact decided_unique c' hs' (hs'.settled.applied i e he) (hs'.settled.applied j f hf) hi

def committedFirst : List (ℕ × Action) :=
  firstDelivered++[(1, .act (.replicateReply 2 firstAppend ⟨1, true, 1⟩)), (1, .act (.applyStep 0)),
    (1, .act (.applyStep 0)), (1, .act (.applyStep 0))]

def secondLeader : List (ℕ × Action) := campaign 2 ⟨2, 2, 1, 1⟩ [(1, some 1), (3, none)]

theorem committed_entry_inherited :
    ∃ c c', Along (Cluster.step threeNodes) (Sound threeNodes) (Cluster.init threeNodes) committedFirst ∧
      run (Cluster.step threeNodes) (Cluster.init threeNodes) committedFirst = some c ∧
      Along (Cluster.step threeNodes) (Sound threeNodes) c secondLeader ∧
      run (Cluster.step threeNodes) c secondLeader = some c' ∧
      (1, Output.apply ⟨1, 1, 1, [7]⟩) ∈ c'.trace ∧ (c.nodes 1).commitIndex = 1 ∧
      IsLeader c' 2 2 ∧ Agreement c' ∧ Retained c c' := by
  have ha : Along (Cluster.step threeNodes) (Sound threeNodes) (Cluster.init threeNodes)
    committedFirst := by decide +kernel
  obtain ⟨c, hc, hb, hcom⟩ := run_reaches (Cluster.step threeNodes) (Cluster.init threeNodes)
    committedFirst (fun c => Along (Cluster.step threeNodes) (Sound threeNodes) c secondLeader ∧
      (c.nodes 1).commitIndex = 1) (by decide +kernel)
  obtain ⟨c', hc', hl, ht⟩ := run_reaches (Cluster.step threeNodes) (Cluster.init threeNodes)
    (committedFirst++secondLeader)
    (fun c => IsLeader c 2 2 ∧ (1, Output.apply ⟨1, 1, 1, [7]⟩) ∈ c.trace) (by decide +kernel)
  rw [run_append, hc, Option.bind_some] at hc'
  obtain ⟨h1, h2⟩ := state_machine_safety _ _ _ c c' ha hc hb hc'
  exact ⟨c, c', ha, hc, hb, hc', ht, hcom, hl, h1, h2⟩

def fiveNodes : Config := ⟨[1, 2, 3, 4, 5], 256, by decide, by decide⟩

/-- Node 1 stores three entries on node 2, whose reply is late; node 3 leads term 2 and overwrites
both logs. -/
def overwritten : List (ℕ × Action) :=
  campaign 1 ⟨1, 1, 0, 0⟩ [(2, some 0), (3, some 0), (4, none), (5, none)]++
  [(1, .act (.propose .catalogQtl [1])), (1, .act (.propose .catalogQtl [2])),
    (1, .act (.propose .catalogQtl [3])), (1, .act (.replicate 2)),
    (2, .act (.recvAppend ⟨1, 1, 0, 0, 0, [⟨1, 1, 1, [1]⟩, ⟨2, 1, 1, [2]⟩, ⟨3, 1, 1, [3]⟩]⟩))]++
  campaign 3 ⟨2, 3, 0, 0⟩ [(1, none), (2, none), (4, some 0), (5, some 0)]++
  [(3, .act (.propose .catalogQtl [4])), (3, .act (.replicate 1)), (3, .act (.replicate 2)),
    (1, .act (.recvAppend ⟨2, 3, 0, 0, 0, [⟨1, 2, 1, [4]⟩]⟩)),
    (2, .act (.recvAppend ⟨2, 3, 0, 0, 0, [⟨1, 2, 1, [4]⟩]⟩))]

/-- Node 1 leads term 3, counts the late reply of term 1 and commits its
second entry with node 4 alone. -/
def commitsOnLateReply : List (ℕ × Action) :=
  campaign 1 ⟨3, 1, 1, 2⟩ [(2, none), (3, some 2), (4, some 2), (5, none)]++
  [(1, .act (.propose .catalogQtl [5])),
    (1,
      .act
      (.replicateReply 2 ⟨1, 1, 0, 0, 0, [⟨1, 1, 1, [1]⟩, ⟨2, 1, 1, [2]⟩, ⟨3, 1, 1, [3]⟩]⟩ ⟨1, true, 3⟩)),
    (1, .act (.replicate 4)), (4, .act (.recvAppend ⟨3, 1, 1, 2, 0, [⟨2, 3, 1, [5]⟩]⟩)),
    (1, .act (.replicateReply 4 ⟨3, 1, 1, 2, 0, [⟨2, 3, 1, [5]⟩]⟩ ⟨3, false, 0⟩)), (1, .act (.replicate 4)),
    (4, .act (.recvAppend ⟨3, 1, 0, 0, 0, [⟨1, 2, 1, [4]⟩, ⟨2, 3, 1, [5]⟩]⟩)),
    (1, .act (.replicateReply 4 ⟨3, 1, 0, 0, 0, [⟨1, 2, 1, [4]⟩, ⟨2, 3, 1, [5]⟩]⟩ ⟨3, true, 2⟩))]++
  List.replicate 7 (1, .act (.applyStep 0))

/-- Node 3 leads term 4 without that entry and commits another one there. -/
def commitsAnother : List (ℕ × Action) :=
  campaign 3 ⟨4, 3, 1, 2⟩ [(1, none), (2, some 2), (4, none), (5, some 2)]++
  [(3, .act (.propose .catalogQtl [6])), (3, .act (.replicate 2)),
    (2, .act (.recvAppend ⟨4, 3, 1, 2, 0, [⟨2, 4, 1, [6]⟩]⟩)),
    (3, .act (.replicateReply 2 ⟨4, 3, 1, 2, 0, [⟨2, 4, 1, [6]⟩]⟩ ⟨4, true, 2⟩)), (3, .act (.replicate 5)),
    (5, .act (.recvAppend ⟨4, 3, 1, 2, 0, [⟨2, 4, 1, [6]⟩]⟩)),
    (3, .act (.replicateReply 5 ⟨4, 3, 1, 2, 0, [⟨2, 4, 1, [6]⟩]⟩ ⟨4, false, 0⟩)), (3, .act (.replicate 5)),
    (5, .act (.recvAppend ⟨4, 3, 0, 0, 0, [⟨1, 2, 1, [4]⟩, ⟨2, 4, 1, [6]⟩]⟩)),
    (3, .act (.replicateReply 5 ⟨4, 3, 0, 0, 0, [⟨1, 2, 1, [4]⟩, ⟨2, 4, 1, [6]⟩]⟩ ⟨4, true, 2⟩))]++
  List.replicate 7 (3, .act (.applyStep 0))

theorem late_reply_breaks_safety : ∃ c c', run (Cluster.step fiveNodes) (Cluster.init fiveNodes)
        (overwritten++commitsOnLateReply) = some c ∧ run (Cluster.step fiveNodes) c commitsAnother = some c' ∧
      (1, Output.apply ⟨2, 3, 1, [5]⟩) ∈ c'.trace ∧ (3, Output.apply ⟨2, 4, 1, [6]⟩) ∈ c'.trace ∧
      (c.nodes 1).commitIndex = 2 ∧ (c.nodes 1).log.read 2 = some ⟨2, 3, 1, [5]⟩ ∧
      IsLeader c' 3 4 ∧ (c'.nodes 3).log.read 2 = some ⟨2, 4, 1, [6]⟩ ∧ ¬Agreement c' ∧ ¬Retained c c' := by
  obtain ⟨c, hc, hcom, hterm, hread⟩ := run_reaches (Cluster.step fiveNodes) (Cluster.init fiveNodes)
    (overwritten++commitsOnLateReply)
    (fun c => (c.nodes 1).commitIndex = 2 ∧ (c.nodes 1).currentTerm = 3 ∧
      (c.nodes 1).log.read 2 = some ⟨2, 3, 1, [5]⟩) (by decide +kernel)
  obtain ⟨c', hc', h1, h3, hl, hread'⟩ := run_reaches (Cluster.step fiveNodes) (Cluster.init fiveNodes)
    ((overwritten++commitsOnLateReply)++commitsAnother)
    (fun c => (1, Output.apply ⟨2, 3, 1, [5]⟩) ∈ c.trace ∧ (3, Output.apply ⟨2, 4, 1, [6]⟩) ∈ c.trace ∧
      IsLeader c 3 4 ∧ (c.nodes 3).log.read 2 = some ⟨2, 4, 1, [6]⟩) (by decide +kernel)
  rw [run_append, hc, Option.bind_some] at hc'
  refine ⟨c, c', hc, hc', h1, h3, hcom, hread, hl, hread', ?_, ?_⟩
  · intro ha
    exact absurd (ha 1 3 _ _ h1 h3 rfl) (by decide)
  intro hr
  have := hr 1 3 2 _ (by omega) hread hl.1 (by rw [hterm, hl.2]; decide)
  rw [hread'] at this
  cases this

/-! ### Logs over a whole run -/

theorem safe_committed (hs : Safe cfg c g) (i x : ℕ) (hx : x < (c.nodes i).commitIndex) :
    ∃ e, (c.nodes i).log.read (x+1) = some e ∧ e.index = x+1 ∧ Decided cfg g e := by
  have hnum := plain_numbered _ (hs.matched.plain i)
  have hbacks := hs.settled.commit i
  obtain ⟨e, he⟩ : ∃ e, (c.nodes i).log.entries[x]? = some e := by
    rcases hbacks with h0 | ⟨t, j, hc, _, hj, hp⟩
    · omega
    have hlen := chosen_length hc
    have := hp.length_le
    rw [length_take] at this
    exact ⟨_, getElem?_eq_getElem (by omega)⟩
  exact ⟨e, (plain_read _ (hs.matched.plain i) x).trans he, hnum x e he, backs_decided hbacks hnum hx he⟩

section
variable {c} {as bs : List (ℕ × Action)} (ha : Along (Cluster.step cfg) (Sound cfg) (Cluster.init cfg) as)
  (hr : run (Cluster.step cfg) (Cluster.init cfg) as = some c)
    (hb : Along (Cluster.step cfg) (Sound cfg) c bs)
  (hr' : run (Cluster.step cfg) c bs = some c')
include ha hr hb hr'

theorem safe_runs : ∃ g g', g ≤ g' ∧ Safe cfg c g ∧ Safe cfg c' g' := by
  have hk : ∀ s g a s', Safe cfg s g → Sound cfg s a → s.step cfg a = some s' → ∃ g', g ≤ g' ∧
    Safe cfg s' g' :=
    fun s _ _ _ hs hok h => safe_step s hs hok h
  obtain ⟨g, _, hs⟩ := run_ghost _ hk as _ c _ (safe_init cfg) ha hr
  obtain ⟨g', hg, hs'⟩ := run_ghost _ hk bs c c' g hs hb hr'
  exact ⟨g, g', hg, hs, hs'⟩

/-- A leader only adds to its log as long as it leads its term. -/
theorem leader_append_only (i : ℕ) (hl : (c.nodes i).role = .leader) (hl' : (c'.nodes i).role = .leader)
    (ht : (c'.nodes i).currentTerm = (c.nodes i).currentTerm) :
    (c.nodes i).log.entries <+: (c'.nodes i).log.entries := by
  obtain ⟨g, g', hg, hs, hs'⟩ := safe_runs ha hr hb hr'
  rw [← hs.matched.leader i hl, ← hs'.matched.leader i hl', ht]
  exact hg.2.1 _

end

def secondEntry : List (ℕ × Action) :=
  [(1, .act (.propose .catalogQtl [8])), (1, .act (.replicate 2)),
    (2, .act (.recvAppend ⟨1, 1, 1, 1, 1, [⟨2, 1, 1, [8]⟩]⟩))]

theorem second_entry_run :
    ∃ c c', Along (Cluster.step threeNodes) (Sound threeNodes) (Cluster.init threeNodes) committedFirst ∧
      run (Cluster.step threeNodes) (Cluster.init threeNodes) committedFirst = some c ∧
      Along (Cluster.step threeNodes) (Sound threeNodes) c secondEntry ∧
      run (Cluster.step threeNodes) c secondEntry = some c' ∧
      (IsLeader c 1 1 ∧ 0 < (c.nodes 1).commitIndex) ∧ IsLeader c' 1 1 ∧ 0 < (c'.nodes 2).commitIndex := by
  obtain ⟨c, hc, hb, hl⟩ := run_reaches (Cluster.step threeNodes) (Cluster.init threeNodes) committedFirst
    (fun c => Along (Cluster.step threeNodes) (Sound threeNodes) c secondEntry ∧ IsLeader c 1 1 ∧
      0 < (c.nodes 1).commitIndex) (by decide +kernel)
  obtain ⟨c', hc', hl'⟩ := run_reaches (Cluster.step threeNodes) (Cluster.init threeNodes)
    (committedFirst++secondEntry) (fun c => IsLeader c 1 1 ∧ 0 < (c.nodes 2).commitIndex) (by decide +kernel)
  rw [run_append, hc, Option.bind_some] at hc'
  exact ⟨c, c', by decide +kernel, hc, hb, hc', hl, hl'⟩

theorem leader_append_only_second : ∃ c c' : Cluster, IsLeader c 1 1 ∧ IsLeader c' 1 1 ∧
    (c.nodes 1).log.entries <+: (c'.nodes 1).log.entries := by
  obtain ⟨c, c', ha, hr, hb, hr', hl, hl'⟩ := second_entry_run
  exact ⟨c, c', hl.1, hl'.1, leader_append_only ha hr hb hr' 1 hl.1.1 hl'.1.1 (hl'.1.2.trans hl.1.2.symm)⟩

end QEngine.RaftSafety

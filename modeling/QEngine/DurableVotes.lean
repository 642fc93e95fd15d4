import QEngine.RaftSerialChanges

/-!
# Votes and failing writes

A vote and a new term are changed in memory and then written, and the results of the
writes are not looked at. A node keeps to one candidate per term if, whenever it
starts again, the files hold what it had in memory.
-/

namespace QEngine.DurableVotes
open List RaftLogRecord RaftNode RaftService RaftEffects RaftCluster RaftElection RaftSerialChanges StepRuns

/-- The node, `meta.bin` and `vote.bin`, and the votes it has given with their terms. -/
structure Voter where
  node : Node
  disk : ℕ × ℕ
  cast : List (ℕ × ℕ)

/-- Each write of an event succeeds or fails; in a crash those without an outcome are not made. -/
inductive VoterStep where
  | act (ev : Event) (oks : List Bool)
  | crash (ev : Event) (oks : List Bool)

def kept (ws : List TermWrite) (oks : List Bool) : List TermWrite :=
  ((ws.zip oks).filter Prod.snd).map Prod.fst

def grantOf : Output → Option (ℕ × ℕ)
  | .send (.voteResp _ req resp) => if resp.voteGranted then some (req.term, req.candidateId) else none
  | _ => none

def casts (self : ℕ) (n n' : Node) (outs : List Output) : List (ℕ × ℕ) :=
  outs.filterMap grantOf++
    if n'.role = .candidate ∧ n'.currentTerm ≠ n.currentTerm then [(n'.currentTerm, self)] else []

def Voter.diskAfter (cfg : Config) (self : ℕ) (s : Voter) (ev : Event) (oks : List Bool) : ℕ × ℕ :=
  (kept (termWrites cfg self s.node ev) oks).foldl TermWrite.write s.disk

def Voter.step (cfg : Config) (self : ℕ) (s : Voter) : VoterStep → Option Voter
  | .act ev oks =>
    (RaftService.step cfg self s.node ev).map fun r =>
      ⟨r.1, s.diskAfter cfg self ev oks, s.cast++casts self s.node r.1 r.2⟩
  | .crash ev oks =>
    let disk := s.diskAfter cfg self ev oks
    some ⟨Node.boot cfg self disk.1 disk.2 s.node.log, disk, s.cast⟩

def OneVote (s : Voter) : Prop := ∀ t c c', (t, c) ∈ s.cast → (t, c') ∈ s.cast → c = c'

/-- At a crash the files hold the term and vote in memory, and no write of the event has failed. -/
def Settled (s : Voter) : VoterStep → Prop
  | .act _ _ => True
  | .crash _ oks => s.disk = (s.node.currentTerm, s.node.votedFor) ∧ ∀ b ∈ oks, b = true

structure Bound (s : Voter) : Prop where
  cast : ∀ t c, (t, c) ∈ s.cast → c ≠ 0 ∧
    (t < s.node.currentTerm ∨ (t = s.node.currentTerm ∧ s.node.votedFor = c))
  once : OneVote s

theorem bound_step {s s' : Voter} (hb : Bound s) (hk : KeepsVote s.node s'.node)
    (hc : ∀ t c, (t, c) ∈ s'.cast → (t, c) ∈ s.cast ∨
      (c ≠ 0 ∧ t = s'.node.currentTerm ∧ s'.node.votedFor = c)) : Bound s' := by
  have hterm := hk.term
  have hcast : ∀ t c, (t, c) ∈ s'.cast → c ≠ 0 ∧
      (t < s'.node.currentTerm ∨ (t = s'.node.currentTerm ∧ s'.node.votedFor = c)) := by
    intro t c hm
    obtain hold | ⟨h0, hnow⟩ := hc t c hm
    · obtain ⟨h0, hlt | ⟨heq, hv⟩⟩ := hb.cast t c hold
      · exact ⟨h0, .inl (by omega)⟩
      refine ⟨h0, ?_⟩
      by_cases hsame : s'.node.currentTerm = s.node.currentTerm
      · obtain hkeep | hfree := hk.vote hsame
        · exact .inr ⟨by omega, hkeep.trans hv⟩
        · exact absurd (hv.symm.trans hfree) h0
      · exact .inl (by omega)
    · exact ⟨h0, .inr hnow⟩
  refine ⟨hcast, fun t c c' h h' => ?_⟩
  -- two votes of the present term are both the vote the node has
  have hnow : ∀ x, (t, x) ∈ s'.cast → t = s'.node.currentTerm → s'.node.votedFor = x := fun x hx ht =>
    (hcast t x hx).2.elim (fun hlt => by omega) And.right
  obtain hold | ⟨-, ht, hv⟩ := hc t c h
  · obtain hold' | ⟨-, ht, hv⟩ := hc t c' h'
    · exact hb.once t c c' hold hold'
    · rw [← hv, hnow c h ht]
  · rw [← hv, hnow c' h' ht]

variable (cfg : Config) (self : ℕ)

variable {outs : List Output}

theorem candidate_vote {n : Node} {ev : Event} {n' : Node}
    (h : RaftService.step cfg self n ev = some (n', outs)) (hr : n'.role = .candidate)
    (ht : n'.currentTerm ≠ n.currentTerm) : n'.votedFor = self := by
  have hdown : StepsDown n n' → n'.votedFor = self := fun hd =>
    hd.role.elim (fun hx => absurd hx.2 ht) (fun hf => absurd (hr.symm.trans hf) (by decide))
  by_cases he : Event.election ev = false
  · exact hdown (step_down cfg _ he h).1
  cases step_effect h with
  | tickStart | askPreVote | askVote | preVoteReply | voteReply | preVoteFail | voteFail | poll | lead
  | preVoteLost | voteLost => exact absurd rfl ht
  | voteOutbid => cases hr
  | stand => rfl
  | @recvVote req =>
    rcases onRequestVote_cases cfg n req with ⟨_, hd⟩ | ⟨_, _, _, _, _, hn⟩
    · exact hdown hd
    rw [hn] at hr ht
    by_cases hlt : n.currentTerm < req.term
    · rw [if_pos hlt] at hr
      cases hr
    · rw [if_neg hlt] at ht
      exact absurd rfl ht
  | _ => exact absurd rfl he

theorem bound_act (hself : self ≠ 0) {s : Voter} (hb : Bound s) {ev : Event} {n' : Node}
    (disk : ℕ × ℕ) (h : RaftService.step cfg self s.node ev = some (n', outs)) :
    Bound ⟨n', disk, s.cast++casts self s.node n' outs⟩ := by
  obtain ⟨hk, hg⟩ := step_votes cfg _ h
  refine bound_step hb hk fun t c hm => (mem_append.mp hm).imp_right fun hm => ?_
  obtain hm | hm := mem_append.mp hm
  · obtain ⟨o, ho, hgo⟩ := mem_filterMap.mp hm
    unfold grantOf at hgo
    split at hgo
    · rename_i src req resp
      split_ifs at hgo with hgr
      obtain ⟨hmem, hterm, hvote⟩ := hg src req resp ho hgr
      cases hgo
      exact ⟨fun h0 => cfg.nonzero (h0 ▸ hmem), hterm.symm, hvote⟩
    · cases hgo
  · split_ifs at hm with hc
    · obtain ⟨rfl, rfl⟩ := Prod.mk.inj (mem_singleton.mp hm)
      exact ⟨hself, rfl, candidate_vote cfg c h hc.1 hc.2⟩
    · cases hm

theorem kept_all (ws : List TermWrite) (oks : List Bool) (h : ∀ b ∈ oks, b = true) :
    kept ws oks = ws.take oks.length := by
  induction ws generalizing oks with
  | nil => rw [kept, zip_nil_left, take_nil]; rfl
  | cons w ws ih =>
    cases oks with
    | nil => rfl
    | cons b oks =>
      obtain ⟨rfl, hrest⟩ := forall_mem_cons.mp h
      exact congrArg (w::·) (ih oks hrest)

/-- Over every run in which a crash finds term and vote on disk and no write of its event has failed,
a node votes for at most one candidate in a term. -/
theorem one_vote_per_term (hself : self ≠ 0) (s s' : Voter) (as : List VoterStep) (hs : Bound s)
    (ha : Along (Voter.step cfg self) Settled s as) (hr : run (Voter.step cfg self) s as = some s') :
    OneVote s' := by
  refine (run_invariant _ ?_ as s s' hs ha hr).once
  intro s a s' hb hok h
  cases a with
  | act ev oks =>
    obtain ⟨⟨n', outs⟩, hst, rfl⟩ := Option.map_eq_some_iff.mp h
    exact bound_act cfg _ hself hb _ hst
  | crash ev oks =>
    cases h
    have hdisk : s.diskAfter cfg self ev oks = diskAfter cfg self s.node ev oks.length := by
      rw [Voter.diskAfter, hok.1, kept_all _ oks hok.2]
      rfl
    rw [hdisk]
    exact bound_step hb ⟨(diskAfter_spec cfg _ _ ev _).1,
      (diskAfter_spec cfg _ _ ev _).2⟩ fun t c hm => .inl hm

/-- Node 1 in term 1, asked by nodes 2 and 3, with a restart in between. -/
def asked (ok : Bool) : List VoterStep :=
  [.act (.recvVote ⟨1, 2, 0, 0⟩) [ok], .crash .tickAsk [], .act (.recvVote ⟨1, 3, 0, 0⟩) [ok]]

def fresh : Voter := ⟨Node.boot threeNodes 1 1 0 Log.empty, (1, 0), []⟩

theorem one_vote_per_term_asked :
    ∃ s, run (Voter.step threeNodes 1) fresh (asked true) = some s ∧ s.cast = [(1, 2)] ∧ OneVote s :=
  ⟨_, rfl, by decide, one_vote_per_term threeNodes 1 (by decide) fresh _ (asked true)
    ⟨(fun _ _ h => by cases h), fun _ _ _ h => by cases h⟩
    ⟨trivial, ⟨by decide, fun _ h => by cases h⟩, trivial, trivial⟩ rfl⟩

theorem failed_write_votes_twice :
    ∃ s, run (Voter.step threeNodes 1) fresh (asked false) = some s ∧ s.cast = [(1, 2), (1, 3)] ∧
    ¬ OneVote s :=
  ⟨_, rfl, by decide, fun h => absurd (h 1 2 3 (by decide) (by decide)) (by decide)⟩

end QEngine.DurableVotes

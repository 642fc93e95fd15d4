import QEngine.RaftElection
import QEngine.LeaderLogs

/-!
# Replicating a log without snapshots

While no compaction has happened the log is just its entries, numbered from one. An
AppendEntries request then stands for the leader's log up to its last entry, and a
follower that accepts it ends with its own log or with that one.
-/

namespace QEngine.RaftReplication
open List RaftLogRecord RaftNode RaftService RaftEffects RaftCluster LeaderLogs RaftElection

structure Plain (l : Log) : Prop where
  wf : l.Wf
  snap : l.snapIndex = 0

def Numbered (es : List Entry) : Prop := ∀ i e, es[i]? = some e → e.index = i+1

theorem plain_empty : Plain Log.empty := ⟨wf_empty, rfl⟩

variable (l : Log)

variable (h : Plain l)

include h

theorem plain_first : l.firstIndex = 1 := by
  rw [h.wf.first_eq, h.snap]

theorem plain_last : l.lastIndex = l.entries.length := by
  have hs := h.wf.span
  rw [plain_first l h] at hs
  omega

theorem plain_numbered : Numbered l.entries := by
  intro i e he
  rw [h.wf.index i e he, plain_first l h]
  omega

theorem plain_termAt (i : ℕ) : l.termAt (i+1) = ((l.entries[i]?).map Entry.term).getD 0 := by
  rw [Log.termAt, if_neg (by omega), if_neg (by rw [h.snap]; omega), plain_first l h, plain_last l h]
  split
  · rw [Nat.add_sub_cancel]
  · rw [getElem?_eq_none (by omega)]
    rfl

theorem plain_read (i : ℕ) : l.read (i+1) = l.entries[i]? := by
  rw [Log.read, if_neg (by omega), plain_first l h, plain_last l h]
  split
  · rw [getElem?_eq_none (by omega)]
  · rw [Nat.add_sub_cancel]

theorem plain_lastTerm : l.lastTerm = ((l.entries.getLast?).map Entry.term).getD 0 := by
  cases hl : l.entries.getLast? with
  | some e => exact h.wf.last e hl
  | none =>
    rcases h.wf.empty (getLast?_eq_none_iff.mp hl) with ⟨_, h1⟩ | ⟨_, h1⟩
    · rw [h1, h.wf.fresh h.snap]
      rfl
    · exact h1

theorem plain_append {term type : ℕ} {payload : ByteFields.Bytes} {l' : Log}
    {idx : ℕ} (ha : l.append term type payload = some (l', idx)) : Plain l' ∧ idx = l.entries.length+1 ∧
      l'.entries = l.entries++[⟨l.entries.length+1, term, type, payload⟩] := by
  refine ⟨⟨append_wf l h.wf ha, ?_⟩, ?_, ?_⟩
  · obtain ⟨_, _, rfl⟩ := append_some l ha
    exact h.snap
  · obtain ⟨_, hi, _⟩ := append_some l ha
    rw [hi, plain_last l h]
  · obtain ⟨_, _, rfl⟩ := append_some l ha
    rw [← plain_last l h]

theorem plain_truncate (i : ℕ) :
    Plain (l.truncate (i+1)) ∧ (l.truncate (i+1)).entries = l.entries.take i := by
  have hwf := truncate_wf l (i+1) h.wf (by rw [h.snap]; omega)
  have hf := plain_first l h
  have hl := plain_last l h
  rcases truncate_cases l _ with ⟨he, hc⟩ | ⟨hi, _, _, he⟩ | ⟨_, _, he⟩
  · rw [he] at hwf ⊢
    exact ⟨h, (take_of_length_le (by omega)).symm⟩
  · rw [he] at hwf ⊢
    refine ⟨⟨hwf, h.snap⟩, ?_⟩
    rw [show i = 0 by omega, take_zero]
  · rw [he] at hwf ⊢
    refine ⟨⟨hwf, h.snap⟩, ?_⟩
    rw [hf, Nat.add_sub_cancel]

omit h

theorem insert_fresh (M : List Entry) (hM : Numbered M) (n : ℕ) :
    ∀ (l : Log) (k : ℕ), Plain l → l.entries = M.take k → M.length = k+n →
      ∃ j, k ≤ j ∧ Plain (insertEntries l (M.drop k)).1 ∧ (insertEntries l (M.drop k)).1.entries = M.take j ∧
        ((insertEntries l (M.drop k)).2 = true → M.length ≤ j) := by
  induction n with
  | zero =>
    intro l k hl he hn
    rw [drop_of_length_le (by omega)]
    exact ⟨k, le_refl k, hl, he, fun _ => by omega⟩
  | succ n ih =>
    intro l k hl he hn
    have hk : k < M.length := by omega
    have hlen : l.entries.length = k := by rw [he, length_take]; omega
    have hidx := hM k M[k] (getElem?_eq_getElem hk)
    have hlast := plain_last l hl
    rw [drop_eq_getElem_cons hk, insertEntries, if_neg (by omega), if_neg (by omega)]
    dsimp only
    cases ha : l.append M[k].term M[k].type M[k].payload with
    | none => exact ⟨k, le_refl k, hl, he, fun h => absurd h (by simp)⟩
    | some p =>
      obtain ⟨hp, _, hent⟩ := plain_append l hl ha
      have hone : p.1.entries = M.take (k+1) := by
        have heta : (⟨k+1, M[k].term, M[k].type, M[k].payload⟩ : Entry) = M[k] := by rw [← hidx]
        rw [hent, hlen, heta, he, take_add_one, getElem?_eq_getElem hk]
        rfl
      obtain ⟨j, hj, h1, h2, h3⟩ := ih p.1 (k+1) hp hone (by omega)
      exact ⟨j, by omega, h1, h2, h3⟩

/-- The entry loop leaves a log that covers the request, or turns it into the request's; the shared
front stays. -/
theorem insert_spec {M : List Entry} (hM : Numbered M) {l : Log} (hl : Plain l) {n : ℕ} :
    ∀ k, M.length = k+n → k ≤ l.entries.length → l.entries.take k = M.take k →
      (∀ i e f, k ≤ i → l.entries[i]? = some e → M[i]? = some f → e.term = f.term →
        l.entries.take (i+1) = M.take (i+1)) → Plain (insertEntries l (M.drop k)).1 ∧
      (((insertEntries l (M.drop k)).1 = l ∧ M <+: l.entries) ∨
        (¬M <+: l.entries ∧ ∃ j, (∀ p, p <+: l.entries → p <+: M → p.length ≤ j) ∧
          (insertEntries l (M.drop k)).1.entries = M.take j ∧
          ((insertEntries l (M.drop k)).2 = true → M.length ≤ j))) := by
  induction n with
  | zero =>
    intro k hn _ he _
    rw [drop_of_length_le (by omega)]
    refine ⟨hl, .inl ⟨rfl, ?_⟩⟩
    rw [take_of_length_le (show M.length ≤ k by omega)] at he
    rw [← he]
    exact take_prefix _ _
  | succ n ih =>
    intro k hn hkl he hag
    have hk : k < M.length := by omega
    have hidx := hM k M[k] (getElem?_eq_getElem hk)
    have hlast := plain_last l hl
    rw [drop_eq_getElem_cons hk, insertEntries, hidx, plain_termAt l hl k]
    by_cases hhave : k+1 ≤ l.lastIndex ∧ ((l.entries[k]?).map Entry.term).getD 0 = M[k].term
    · rw [if_pos hhave]
      have hkl' : k < l.entries.length := by omega
      have hterm : l.entries[k].term = M[k].term := by
        have := hhave.2
        rwa [getElem?_eq_getElem hkl'] at this
      have hnext := hag k _ _ (le_refl k) (getElem?_eq_getElem hkl')
        (getElem?_eq_getElem hk) hterm
      exact ih (k+1) (by omega) (by omega) hnext fun i e f hi => hag i e f (by omega)
    rw [if_neg hhave]
    -- the log is cut to the part it shares with the request
    have hcut : ∃ cut, cut = (if k+1 ≤ l.lastIndex then l.truncate (k+1) else l) ∧ Plain cut ∧
        cut.entries = M.take k := by
      refine ⟨_, rfl, ?_⟩
      split
      · obtain ⟨hp, hent⟩ := plain_truncate l hl k
        exact ⟨hp, by rw [hent, he]⟩
      · refine ⟨hl, ?_⟩
        rw [← he, take_of_length_le (by omega)]
    obtain ⟨cut, hceq, hcp, hce⟩ := hcut
    rw [← hceq]
    have hfront : ∀ p, p <+: l.entries → p <+: M → p.length ≤ k := by
      rintro p ⟨r, hr⟩ ⟨s, hs⟩
      by_contra hlt
      apply hhave
      have hget : l.entries[k]? = some M[k] := by
        rw [← getElem?_eq_getElem hk, ← hr, ← hs, getElem?_append_left (by omega),
          getElem?_append_left (by omega)]
      exact ⟨by rw [hlast]; exact (List.getElem?_eq_some_iff.mp hget).1, by rw [hget]; rfl⟩
    have hnp : ¬M <+: l.entries := fun hp => absurd (hfront M hp prefix_rfl) (by omega)
    have hfresh := insert_fresh M hM _ cut k hcp hce (by omega)
    rw [drop_eq_getElem_cons hk, insertEntries, if_neg (by
      rw [plain_last cut hcp, hce, length_take, hidx]
      omega), if_neg (by
      rw [plain_last cut hcp, hce, length_take, hidx]
      omega)] at hfresh
    obtain ⟨j, hj, h1, h2, h3⟩ := hfresh
    exact ⟨h1, .inr ⟨hnp, j, fun p hp hq => (hfront p hp hq).trans hj, h2, h3⟩⟩

structure Stands (req : AppendReq) (M : List Entry) : Prop where
  numbered : Numbered M
  length : M.length = req.prevLogIndex+req.entries.length
  entries : M.drop req.prevLogIndex = req.entries
  prev : ∀ j, req.prevLogIndex = j+1 → ∃ e, M[j]? = some e ∧ e.term = req.prevLogTerm

/-- A request built past the end of the leader's log: it carries nothing and
names no term. -/
def Beyond (req : AppendReq) : Prop :=
  req.entries = [] ∧ 0 < req.prevLogIndex ∧ req.prevLogTerm = 0

theorem request_stands (hl : Plain l) (prev count : ℕ) (hc : prev+count ≤ l.lastIndex)
    (req : AppendReq) (hp : req.prevLogIndex = prev)
    (ht : req.prevLogTerm = if 0 < prev then l.termAt prev else 0)
    (he : req.entries = (l.entries.take (prev+count)).drop prev) :
    Stands req (l.entries.take (prev+count)) := by
  rw [plain_last l hl] at hc
  have hlen : (l.entries.take (prev+count)).length = prev+count := by
    rw [length_take]
    omega
  refine ⟨?_, ?_, ?_, ?_⟩
  · intro i e hi
    exact plain_numbered l hl i e (get_take hi).2
  · rw [hp, he, length_drop, hlen]
    omega
  · rw [hp, he]
  intro j hj
  have hjl : j < l.entries.length := by omega
  refine ⟨l.entries[j], ?_, ?_⟩
  · rw [getElem?_take, if_pos (by omega)]
    exact getElem?_eq_getElem hjl
  rw [ht, if_pos (by omega), show prev = j+1 by omega, plain_termAt l hl,
    getElem?_eq_getElem hjl]
  rfl

theorem reads_plain (hl : Plain l) (prev : ℕ) :
    (List.range' (prev+1) (min (l.lastIndex-prev) maxEntriesPerAE)).mapM l.read =
      some ((l.entries.take (prev+min (l.lastIndex-prev) maxEntriesPerAE)).drop prev) := by
  have hlast := plain_last l hl
  by_cases hb : prev ≤ l.lastIndex
  · refine mapM_range' _ _ _ _ (by rw [length_take]; omega) ?_
    intro i hi
    rw [show prev+1+i = prev+i+1 by omega, plain_read l hl, getElem?_take, if_pos (by omega)]
  rw [show l.lastIndex-prev = 0 by omega, Nat.zero_min, add_zero,
    drop_of_length_le (by rw [length_take]; omega)]
  rfl

theorem appendFrom_stands (n : Node) (hl : Plain n.log) (self prev : ℕ) :
    (n.log.lastIndex < prev ∧ Beyond (appendFrom n self (prev+1) ((n.log.entries.take
      (prev+min (n.log.lastIndex-prev) maxEntriesPerAE)).drop prev))) ∨
    ∃ k, k ≤ n.log.lastIndex ∧ Stands (appendFrom n self (prev+1) ((n.log.entries.take
      (prev+min (n.log.lastIndex-prev) maxEntriesPerAE)).drop prev)) (n.log.entries.take k) := by
  have hlast := plain_last _ hl
  by_cases hb : prev ≤ n.log.lastIndex
  · refine .inr ⟨prev+min (n.log.lastIndex-prev) maxEntriesPerAE, by omega, ?_⟩
    exact request_stands _ hl _ _ (by omega) _ (by simp [appendFrom]) (by simp [appendFrom]) rfl
  refine .inl ⟨by omega, ?_, by simp [appendFrom]; omega, ?_⟩
  · exact drop_of_length_le (by rw [length_take]; omega)
  obtain ⟨j, rfl⟩ : ∃ j, prev = j+1 := ⟨prev-1, by omega⟩
  simp only [appendFrom, Nat.add_sub_cancel]
  rw [if_pos (by omega), plain_termAt _ hl, getElem?_eq_none (by omega)]
  rfl

variable {cfg : Config} {n n' : Node} {outs : List Output}

theorem nextSent_plain (hl : Plain n.log) {p : Peer} (hp : 1 ≤ p.nextIndex) :
    nextSent n p = p.nextIndex := by
  rw [nextSent, hl.snap, if_neg (by omega)]

theorem replicate_spec {self peer : ℕ}
    (hl : Plain n.log) (hn : ∀ p ∈ n.peers, 1 ≤ p.nextIndex)
    (h : Effect cfg self n (.replicate peer) n' outs) :
    n.role = .leader ∧ n'.log = n.log ∧ n'.commitIndex = n.commitIndex ∧
    n'.lastApplied = n.lastApplied ∧ n'.apply = n.apply ∧ n'.role = n.role ∧
    n'.currentTerm = n.currentTerm ∧ peer ∈ peerIds n ∧
    (∀ p' ∈ n'.peers, ∃ p ∈ n.peers, p'.id = p.id ∧ p'.matchIndex = p.matchIndex ∧
      ∃ q ∈ n.peers, p'.nextIndex = q.nextIndex) ∧ ∃ req p, outs = [.send (.appendReq peer req)] ∧
      p ∈ n.peers ∧
      req.prevLogIndex+1 = p.nextIndex ∧
      req.term = n.currentTerm ∧ req.leaderId = self ∧ req.leaderCommit = n.commitIndex ∧
      ((n.log.lastIndex < req.prevLogIndex ∧ Beyond req) ∨
        ∃ k, k ≤ n.log.lastIndex ∧ Stands req (n.log.entries.take k)) := by
  cases h with
  | @unreadable _ p hr hp he =>
    have hnp := hn p (mem_of_find?_eq_some hp)
    obtain ⟨prev, hprev⟩ : ∃ prev, p.nextIndex = prev+1 := ⟨p.nextIndex-1, by omega⟩
    rw [nextSent_plain hl hnp, hprev, Nat.add_sub_add_right, reads_plain _ hl _] at he
    simp at he
  | @replicate _ count p entries hr hp hc he =>
    have hpm := mem_of_find?_eq_some hp
    have hid : p.id = peer := by simpa using find?_some hp
    have hnp := hn p hpm
    obtain ⟨prev, hprev⟩ : ∃ prev, p.nextIndex = prev+1 := ⟨p.nextIndex-1, by omega⟩
    rw [nextSent_plain hl hnp, hprev] at hc he ⊢
    rw [Nat.add_sub_add_right] at hc
    rw [hc, reads_plain _ hl _] at he
    cases he
    refine ⟨hr, rfl, rfl, rfl, rfl, rfl, rfl, mem_map.mpr ⟨p, hpm, hid⟩, ?_, _, p, rfl, hpm, ?_, rfl, rfl,
      rfl, ?_⟩
    · intro p' hp'
      obtain ⟨r, hr, rfl⟩ := mem_map.mp hp'
      refine ⟨r, hr, ?_⟩
      split
      · exact ⟨rfl, rfl, p, hpm, hprev.symm⟩
      · exact ⟨rfl, rfl, r, hr, rfl⟩
    · simp [appendFrom, hprev]
    · exact appendFrom_stands n hl _ _

structure Quiet (n n' : Node) (outs : List Output) : Prop where
  term : n.currentTerm ≤ n'.currentTerm
  role : (n'.role = n.role ∧ n'.currentTerm = n.currentTerm) ∨ n'.role = .follower
  log : n'.log = n.log
  commitIndex : n'.commitIndex = n.commitIndex
  lastApplied : n'.lastApplied = n.lastApplied
  apply : n'.apply = n.apply
  peers : n'.peers = n.peers
  requests : ∀ dst req, Output.send (.appendReq dst req) ∉ outs
  replies : ∀ src req resp, Output.send (.appendResp src req resp) ∉ outs
  applies : ∀ e, Output.apply e ∉ outs

def Event.quiet : Event → Bool
  | .tickStart | .tickAsk | .tickReply _ | .tickFail | .checkQuorum _ | .recvPreVote _ _
  | .recvVote _ | .wake _ | .replicateFail _ _ | .replicateDone => true
  | _ => false

theorem quiet_frame (ht : n.currentTerm ≤ n'.currentTerm)
    (hr : (n'.role = n.role ∧ n'.currentTerm = n.currentTerm) ∨ n'.role = .follower)
    (hf : n'.log = n.log ∧ n'.commitIndex = n.commitIndex ∧ n'.lastApplied = n.lastApplied ∧
      n'.apply = n.apply ∧ n'.peers = n.peers)
    (ho : ∀ o ∈ outs, (∃ e r, o = .result e r) ∨ (∃ d r, o = .send (.preVoteReq d r)) ∨
      (∃ d r, o = .send (.voteReq d r)) ∨ (∃ d r x, o = .send (.preVoteResp d r x)) ∨
      (∃ d r x, o = .send (.voteResp d r x))) : Quiet n n' outs := by
  refine ⟨ht, hr, hf.1, hf.2.1, hf.2.2.1, hf.2.2.2.1, hf.2.2.2.2, ?_, ?_, ?_⟩
  · intro dst req hm
    simpa using ho _ hm
  · intro src req resp hm
    simpa using ho _ hm
  · intro e hm
    simpa using ho _ hm

theorem recvVote_quiet (cfg : Config) (self : ℕ) (n : Node) (req : VoteReq) :
    Quiet n (onRequestVote cfg n req).1
      [.send (.voteResp self req (onRequestVote cfg n req).2)] := by
  have hd : n.currentTerm ≤ (onRequestVote cfg n req).1.currentTerm ∧
      (((onRequestVote cfg n req).1.role = n.role ∧
        (onRequestVote cfg n req).1.currentTerm = n.currentTerm) ∨
        (onRequestVote cfg n req).1.role = .follower) := by
    rcases onRequestVote_cases cfg n req with ⟨_, hd⟩ | ⟨_, _, _, _, _, hn⟩
    · exact ⟨hd.term, hd.role⟩
    rw [hn]
    split
    · exact ⟨(becomeFollower_down n _ 0).term, .inr rfl⟩
    · exact ⟨le_refl _, .inl ⟨rfl, rfl⟩⟩
  obtain ⟨t, v, r, l, hf⟩ := onRequestVote_frame cfg n req
  refine quiet_frame hd.1 hd.2 ?_ (by simp)
  rw [hf]
  exact ⟨rfl, rfl, rfl, rfl, rfl⟩

theorem step_quiet {self : ℕ} {ev : Event}
    (he : Event.quiet ev = true)
    (h : step cfg self n ev = some (n', outs)) : Quiet n n' outs := by
  cases step_effect h with
  | tickStart | askPreVote | askVote | preVoteReply | voteReply | preVoteFail | voteFail
  | checkQuorum | recvPreVote | wakeApplied | wakeDeposed | park | replicateFail | replicateDone =>
    exact quiet_frame (le_refl _) (.inl ⟨rfl, rfl⟩) ⟨rfl, rfl, rfl, rfl, rfl⟩ (by simp)
  | @voteOutbid _ _ _ _ resp =>
    exact quiet_frame (becomeFollower_down n _ 0).term (.inr rfl)
      ⟨rfl, rfl, rfl, rfl, rfl⟩ (by simp)
  | quorumLost =>
    exact quiet_frame (becomeFollower_down n _ 0).term (.inr rfl)
      ⟨rfl, rfl, rfl, rfl, rfl⟩ (by simp)
  | recvVote => exact recvVote_quiet cfg _ n _
  | _ => simp [Event.quiet] at he

def uncompacted (cfg : Config) (c : Cluster) (a : ℕ × Action) : Bool :=
  match a.2 with
  | .act (.recvInstall _) | .act (.installStep _ _) | .act (.transferStart _ _)
  | .act (.transferSend _) | .act (.transferAck _ _) | .act (.transferAbort _)
  | .act (.transferDone _) => false
  | .act (.applyStep _) =>
    match (c.nodes a.1).apply with
    | .recorded idx _ _ => idx < (c.nodes a.1).log.snapIndex+cfg.stride
    | _ => true
  | _ => true

theorem applyStep_plain (cfg : Config) (self : ℕ) (n : Node) (rc : ℤ) (n' : Node) (outs : List Output)
    (hc : ∀ idx commit term, n.apply = .recorded idx commit term → idx < n.log.snapIndex+cfg.stride)
    (h : Effect cfg self n (.applyStep rc) n' outs) :
    n'.log = n.log ∧ n'.commitIndex = n.commitIndex ∧ n'.peers = n.peers ∧ n'.role = n.role ∧
    n'.currentTerm = n.currentTerm ∧ (∀ p, Output.send p ∉ outs) := by
  cases h with
  | applyCompact ha hs =>
    have := hc _ _ _ ha
    omega
  | _ => exact ⟨rfl, rfl, rfl, rfl, rfl, by simp⟩

theorem setPeer_next (peer : ℕ) {f : Peer → Peer} (hn : ∀ p ∈ n.peers, 1 ≤ p.nextIndex)
    (hf : ∀ p ∈ n.peers, 1 ≤ (f p).nextIndex) : ∀ p ∈ (n.setPeer peer f).peers, 1 ≤ p.nextIndex := by
  intro p hp
  obtain ⟨q, hq, rfl⟩ := mem_map.mp hp
  split
  · exact hf q hq
  · exact hn q hq

theorem mergeReply_plain (n : Node) (peer : ℕ) (req : AppendReq) (resp : AppendResp)
    (hn : ∀ p ∈ n.peers, 1 ≤ p.nextIndex) : (mergeReply n peer req resp).log = n.log ∧
    ∀ p ∈ (mergeReply n peer req resp).peers, 1 ≤ p.nextIndex := by
  rcases mergeReply_cases n _ req _ with ⟨_, h⟩ | ⟨_, h⟩ | ⟨_, _, _, h⟩ | ⟨_, h⟩
  · rw [h]
    exact ⟨rfl, hn⟩
  · rw [h]
    exact ⟨rfl, hn⟩
  · obtain ⟨N, hN⟩ := advanceCommit_eq _
    rw [h, hN]
    exact ⟨rfl, setPeer_next _ hn (fun _ _ => Nat.le_add_left 1 _)⟩
  rw [h]
  refine ⟨rfl, setPeer_next _ hn (fun p hp => ?_)⟩
  have := hn p hp
  split
  · exact Nat.le_add_left 1 _
  split
  · dsimp only
    omega
  · exact this

/-- The index each entry is stored at, for the entries the loop appends. -/
def stores : Log → List Entry → List (ℕ × Entry)
  | _, [] => []
  | l, e::es =>
    if e.index ≤ l.lastIndex ∧ l.termAt e.index = e.term then stores l es
    else
      match (if e.index ≤ l.lastIndex then l.truncate e.index else l).append e.term e.type e.payload with
      | none => []
      | some (l', idx) => (idx, e)::stores l' es

theorem cut_read (hw : l.Wf) (k : ℕ) (hs : l.snapIndex ≤ k) (hk : k ≤ l.lastIndex)
    (hf : 0 < l.snapIndex → k+1 ≤ l.lastIndex → k+1 ≠ l.firstIndex) :
    ∃ cut, cut = (if k+1 ≤ l.lastIndex then l.truncate (k+1) else l) ∧ cut.Wf ∧
      cut.snapIndex = l.snapIndex ∧ cut.lastIndex = k ∧ ∀ x, cut.read x = if x ≤ k then l.read x else
      none := by
  have hfe := hw.first_eq
  refine ⟨_, rfl, ?_⟩
  split
  · rename_i hle
    have hn : ¬(0 < l.snapIndex ∧ k+1 = l.firstIndex) := fun h => hf h.1 hle h.2
    have hsnap : (l.truncate (k+1)).snapIndex = l.snapIndex := by
      rcases truncate_cases l _ with ⟨h, _⟩ | ⟨_, _, _, h⟩ | ⟨_, _, h⟩ <;> rw [h]
    have hr := fun x => truncate_read l hw (by omega) hle hn x
    refine ⟨truncate_wf l _ hw (fun h => hn ⟨h.1, h.2.1⟩), hsnap, (hr 0).1, fun x => ?_⟩
    rw [(hr x).2]
    exact if_congr Nat.lt_succ_iff rfl rfl
  · refine ⟨hw, rfl, by omega, fun x => ?_⟩
    split
    · rfl
    · exact Option.eq_none_iff_forall_ne_some.mpr fun e he => by have := read_range l he; omega

/-- The entry loop above the snapshot: every entry ends at its own index, nothing else is new, and
what lies below stays. -/
theorem insert_places {es : List Entry} : ∀ (l : Log) (k : ℕ), l.Wf → l.snapIndex ≤ k → k ≤ l.lastIndex →
      es.map Entry.index = List.range' (k+1) es.length →
      (∀ e ∈ es, ∀ f, l.read e.index = some f → f.term = e.term → f = e) →
      (0 < l.snapIndex → ∀ e ∈ es, e.index = l.firstIndex → e.index ≤ l.lastIndex →
        l.termAt e.index = e.term) →
      (insertEntries l es).2 = true → (∀ e ∈ es, (insertEntries l es).1.read e.index = some e) ∧
      (∀ x f, (insertEntries l es).1.read x = some f → l.read x = some f ∨ f ∈ es) ∧
      (∀ x ≤ k, (insertEntries l es).1.read x = l.read x) ∧ ∀ x ∈ stores l es, x.1 = x.2.index := by
  induction es with
  | nil =>
    exact fun l k _ _ _ _ _ _ _ => ⟨forall_mem_nil _, fun _ _ h => .inl h, fun _ _ => rfl, forall_mem_nil _⟩
  | cons e es ih =>
    intro l k hw hs hk hmap hmatch hfirst hok
    rw [length_cons, range'_succ, map_cons, List.cons.injEq] at hmap
    obtain ⟨hidx, hmap⟩ := hmap
    have hfe := hw.first_eq
    rw [insertEntries] at hok ⊢
    rw [stores]
    by_cases hhave : e.index ≤ l.lastIndex ∧ l.termAt e.index = e.term
    · rw [if_pos hhave] at hok ⊢
      rw [if_pos hhave]
      obtain ⟨h1, h2, h3, h4⟩ := ih l (k+1) hw (by omega) (by omega) hmap
        (fun f hf => hmatch f (mem_cons_of_mem e hf))
        (fun h0 f hf => hfirst h0 f (mem_cons_of_mem e hf)) hok
      obtain ⟨f, hf, hft⟩ := read_some l hw (by omega) hhave.1
      obtain rfl := hmatch e mem_cons_self f hf (hft.symm.trans hhave.2)
      exact ⟨forall_mem_cons.mpr ⟨(h3 _ (by omega)).trans hf, h1⟩,
        fun x g hg => (h2 x g hg).imp_right (mem_cons_of_mem f), fun x hx => h3 x (by omega), h4⟩
    rw [if_neg hhave] at hok ⊢
    rw [if_neg hhave]
    rw [hidx] at hok hhave ⊢
    obtain ⟨cut, hceq, hcw, hcs, hcl, hcr⟩ := cut_read l hw k hs hk (fun h0 hle heq => hhave
      ⟨hle, hidx ▸ hfirst h0 e mem_cons_self (hidx.trans heq) (hidx ▸ hle)⟩)
    rw [← hceq] at hok ⊢
    dsimp only at hok ⊢
    cases ha : cut.append e.term e.type e.payload with
    | none =>
      rw [ha] at hok
      cases hok
    | some p =>
      rw [ha] at hok
      obtain ⟨l', idx⟩ := p
      obtain ⟨_, hi, hl'⟩ := append_some cut ha
      have hr := append_read cut hcw.toAligned ha
      have hlast : l'.lastIndex = k+1 := by rw [hl', ← hcl]
      have hsnap : l'.snapIndex = l.snapIndex := by rw [hl', ← hcs]
      have he : (⟨idx, e.term, e.type, e.payload⟩ : Entry) = e := by rw [hi, hcl, ← hidx]
      -- the rest lies beyond the end
      have hbeyond : ∀ f ∈ es, l'.lastIndex < f.index := by
        intro f hf
        have hm := hmap ▸ mem_map_of_mem hf
        rw [mem_range'_1] at hm
        omega
      obtain ⟨h1, h2, h3, h4⟩ := ih l' (k+1) (append_wf cut hcw ha) (by omega) (by omega) hmap
        (fun f hf g hg => absurd (read_range l' hg).2 (by have := hbeyond f hf; omega))
        (fun _ f hf _ hle => absurd hle (by have := hbeyond f hf; omega)) hok
      refine ⟨forall_mem_cons.mpr ⟨?_, h1⟩, ?_, ?_, forall_mem_cons.mpr ⟨by dsimp only; omega, h4⟩⟩
      · rw [hidx, h3 _ le_rfl, hr, if_pos (by omega), he]
      · intro x f hf
        obtain hx | hx := h2 x f hf
        · rw [hr, hcr, he] at hx
          split_ifs at hx
          · exact .inr (Option.some.inj hx ▸ mem_cons_self)
          · exact .inl hx
        · exact .inr (mem_cons_of_mem e hx)
      · intro x hx
        rw [h3 x (by omega), hr, if_neg (by omega), hcr, if_pos hx]

/-- Every entry above the snapshot is read at its index, everything read was there or came with the
request, and every entry stored was stored at its own index. -/
def Placed (l l' : Log) (stored : List (ℕ × Entry)) (es : List Entry) : Prop :=
  (∀ e ∈ es, e.index ≤ l.snapIndex ∨ l'.read e.index = some e) ∧
  (∀ x f, l'.read x = some f → l.read x = some f ∨ f ∈ es) ∧ ∀ x ∈ stored, x.1 = x.2.index

/-- Consecutive entries of real terms that agree with the log and with its snapshot. -/
structure Agreeing (l : Log) (req : AppendReq) : Prop where
  consecutive : req.entries.map Entry.index = List.range' (req.prevLogIndex+1) req.entries.length
  terms : ∀ e ∈ req.entries, 0 < e.term
  matching : ∀ e ∈ req.entries, ∀ f, l.read e.index = some f → f.term = e.term → f = e
  covered : ∀ e ∈ req.entries, e.index = l.snapIndex → e.term = l.snapTerm

/-- The entries begin at the snapshot's last index or above, and with a snapshot there is no conflict
at the first index kept. -/
structure Placeable (l : Log) (req : AppendReq) : Prop where
  above : req.entries = [] ∨ l.snapIndex ≤ req.prevLogIndex+1
  first : 0 < l.snapIndex → ∀ e ∈ req.entries, e.index = l.firstIndex → e.index ≤ l.lastIndex →
    l.termAt e.index = e.term

/-- A conflict that does not cut the log at the entry's own index stores the entry elsewhere. -/
theorem conflict_misplaced {e : Entry} {es : List Entry} (hw : l.Wf)
    (hne : ¬ (e.index ≤ l.lastIndex ∧ l.termAt e.index = e.term))
    (hle : e.index ≤ l.lastIndex) (hlow : e.index < l.firstIndex ∨ e.index = l.firstIndex ∧ 0 < l.snapIndex)
    (hok : (insertEntries l (e::es)).2 = true) : ∃ x ∈ stores l (e::es), x.1 ≠ x.2.index := by
  have hfe := hw.first_eq
  rw [insertEntries, if_neg hne, if_pos hle] at hok
  rw [stores, if_neg hne, if_pos hle]
  dsimp only at hok
  cases ha : (l.truncate e.index).append e.term e.type e.payload with
  | none =>
    rw [ha] at hok
    cases hok
  | some p =>
    obtain ⟨l', idx⟩ := p
    obtain ⟨-, hi, -⟩ := append_some _ ha
    refine ⟨(idx, e), mem_cons_self, ?_⟩
    dsimp only
    rcases truncate_cases l e.index with ⟨ht, -⟩ | ⟨hf, -, -, ht⟩ | ⟨hf, -, -⟩
    · rw [hi, ht]
      omega
    · rw [hi, ht]
      dsimp only
      omega
    · omega

theorem placeable_of_stores {req : AppendReq} (hw : l.Wf) (hr : Agreeing l req)
    (hp : l.snapIndex ≤ l.lastIndex)
    (hok : (insertEntries l req.entries).2 = true) (hs : ∀ x ∈ stores l req.entries, x.1 = x.2.index) :
    Placeable l req := by
  have hfe := hw.first_eq
  have hmap := hr.consecutive
  have hterms := hr.terms
  have hcov := hr.covered
  have hbad : ∀ e es, (insertEntries l (e::es)).2 = true → (∀ x ∈ stores l (e::es), x.1 = x.2.index) →
      ¬ (e.index ≤ l.lastIndex ∧ l.termAt e.index = e.term) → e.index ≤ l.lastIndex →
      ¬ (e.index < l.firstIndex ∨ e.index = l.firstIndex ∧ 0 < l.snapIndex) := by
    intro e es hok hs hne hle hlow
    obtain ⟨x, hx, hxe⟩ := conflict_misplaced l hw hne hle hlow hok
    exact hxe (hs x hx)
  cases hes : req.entries with
  | nil => exact ⟨.inl hes, fun _ e he => by rw [hes] at he; cases he⟩
  | cons e es =>
    rw [hes] at hmap hok hs hterms hcov
    rw [length_cons, range'_succ, map_cons, List.cons.injEq] at hmap
    obtain ⟨hidx, hmap⟩ := hmap
    -- below the snapshot the log answers term 0
    have habove : l.snapIndex ≤ req.prevLogIndex+1 := by
      by_contra hlt
      have ht : l.termAt e.index = 0 := by
        rw [Log.termAt, if_neg (by omega), if_neg (by omega), if_neg (by omega)]
      refine hbad e es hok hs (fun h => ?_) (by omega) (.inl (by omega))
      have := hterms e mem_cons_self
      omega
    refine ⟨.inr habove, fun h0 f hf hfi hle => ?_⟩
    by_contra hne
    rw [hes] at hf
    obtain rfl | hf := mem_cons.mp hf
    · exact hbad f es hok hs (fun h => hne h.2) hle (.inr ⟨hfi, h0⟩)
    -- the entry before it is the snapshot's last one
    have hm : f.index ∈ List.range' (req.prevLogIndex+1+1) es.length := hmap ▸ mem_map_of_mem hf
    rw [mem_range'_1] at hm
    have heq : e.index = l.snapIndex := by omega
    have hskip : e.index ≤ l.lastIndex ∧ l.termAt e.index = e.term := by
      refine ⟨by omega, ?_⟩
      rw [Log.termAt, if_neg (by omega), if_pos heq, hcov e mem_cons_self heq]
    rw [insertEntries, if_pos hskip] at hok
    rw [stores, if_pos hskip] at hs
    cases es with
    | nil => cases hf
    | cons g gs =>
      rw [length_cons, range'_succ, map_cons, List.cons.injEq] at hmap
      obtain rfl | hf := mem_cons.mp hf
      · exact hbad f gs hok hs (fun h => hne h.2) hle (.inr ⟨hfi, h0⟩)
      · have hm' : f.index ∈ List.range' (req.prevLogIndex+1+1+1) gs.length := hmap.2 ▸ mem_map_of_mem hf
        rw [mem_range'_1] at hm'
        omega

theorem placed_of_placeable {req : AppendReq} (hw : l.Wf) (hr : Agreeing l req) (hc : Placeable l req)
    (hlast : l.snapIndex ≤ l.lastIndex) (hprev : req.prevLogIndex ≤ l.lastIndex)
    (hok : (insertEntries l req.entries).2 = true) :
    Placed l (insertEntries l req.entries).1 (stores l req.entries) req.entries := by
  by_cases hs : l.snapIndex ≤ req.prevLogIndex
  · obtain ⟨h1, h2, -, h4⟩ := insert_places _ _ hw hs hprev hr.consecutive hr.matching hc.first hok
    exact ⟨fun e he => .inr (h1 e he), h2, h4⟩
  cases hes : req.entries with
  | nil => exact ⟨forall_mem_nil _, fun _ _ h => .inl h, forall_mem_nil _⟩
  | cons e es =>
    have hmap := hr.consecutive
    have hmatch := hr.matching
    have hfirst := hc.first
    have hcov := hr.covered e (hes ▸ mem_cons_self)
    have habove := hc.above.resolve_left (by simp [hes])
    rw [hes] at hmap hok hmatch hfirst
    rw [length_cons, range'_succ, map_cons, List.cons.injEq] at hmap
    obtain ⟨hidx, hmap⟩ := hmap
    have heq : e.index = l.snapIndex := by omega
    have hskip : e.index ≤ l.lastIndex ∧ l.termAt e.index = e.term := by
      refine ⟨by omega, ?_⟩
      rw [Log.termAt, if_neg (by omega), if_pos heq, hcov heq]
    rw [insertEntries, if_pos hskip] at hok ⊢
    rw [stores, if_pos hskip]
    obtain ⟨h1, h2, -, h4⟩ := insert_places l (req.prevLogIndex+1) hw (by omega) (by omega) hmap
      (fun f hf => hmatch f (mem_cons_of_mem e hf)) (fun h0 f hf => hfirst h0 f (mem_cons_of_mem e hf)) hok
    exact ⟨forall_mem_cons.mpr ⟨.inl heq.le, fun f hf => .inr (h1 f hf)⟩,
      fun x f hf => (h2 x f hf).imp_right (mem_cons_of_mem e), h4⟩

def compacted : Node := { Node.boot threeNodes 2 1 0 ⟨2, 1, 3, 3, 1, [⟨3, 1, 1, [9]⟩]⟩ with commitIndex := 3 }

def lastTwo : AppendReq := ⟨1, 1, 2, 1, 3, [⟨3, 1, 1, [9]⟩, ⟨4, 1, 1, [5]⟩]⟩

def fromStart : AppendReq := ⟨1, 1, 0, 0, 3, [⟨1, 1, 1, [7]⟩, ⟨2, 1, 1, [8]⟩, ⟨3, 1, 1, [9]⟩]⟩

end QEngine.RaftReplication

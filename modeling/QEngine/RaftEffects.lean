import QEngine.RaftService

/-!
# What a node can do

Every way an event can end, with the tests that led there and the node and the outputs
it leaves.
-/

namespace QEngine.RaftEffects
open Option ByteFields RaftLogRecord RaftNode RaftService

def returned (n : Node) (peer : ℕ) (req : AppendReq) : Node :=
  { n with
      calls := n.calls.erase (peer, req)
      finishing := if req.entries = [] then n.finishing else n.finishing+1 }

def proposed (n : Node) (l : Log) (e : Entry) : Node :=
  { n with
      log := l
      waiters := n.waiters++[⟨e, false⟩] }

def nextSent (n : Node) (p : Peer) : ℕ :=
  if p.nextIndex ≤ n.log.snapIndex then n.log.snapIndex+1 else p.nextIndex

def appendFrom (n : Node) (self next : ℕ) (entries : List Entry) : AppendReq :=
  { term := n.currentTerm
    leaderId := self
    prevLogIndex := next-1
    prevLogTerm := if 0 < next-1 then n.log.termAt (next-1) else 0
    leaderCommit := n.commitIndex
    entries := entries }

inductive Effect (cfg : Config) (self : ℕ) (n : Node) : Event → Node → List Output → Prop
  | tickStart (hr : n.role ≠ .leader) :
    Effect cfg self n .tickStart { n with
      tick := .prevote (voteReqNow n self (n.currentTerm+1)) n.quorumNeeded (peerIds n) 1 } []
  | askPreVote {req : VoteReq} {q dst : ℕ} {todo : List ℕ} {granted : ℕ}
    (ht : n.tick = .prevote req q (dst::todo) granted) :
    Effect cfg self n .tickAsk n [.send (.preVoteReq dst req)]
  | askVote {req : VoteReq} {dst : ℕ} {todo : List ℕ} {granted : ℕ}
    (ht : n.tick = .voting req (dst::todo) granted) :
    Effect cfg self n .tickAsk n [.send (.voteReq dst req)]
  | preVoteReply {req : VoteReq} {q dst : ℕ} {todo : List ℕ} {granted : ℕ} {resp : VoteResp}
    (ht : n.tick = .prevote req q (dst::todo) granted) :
    Effect cfg self n (.tickReply resp) { n with
      tick := .prevote req q todo (granted+if resp.voteGranted then 1 else 0) } []
  | voteOutbid {req : VoteReq} {dst : ℕ} {todo : List ℕ} {granted : ℕ} {resp : VoteResp}
    (ht : n.tick = .voting req (dst::todo) granted) (hlt : n.currentTerm < resp.term) :
    Effect cfg self n (.tickReply resp)
      { n.becomeFollower resp.term 0 with tick := .voting req todo granted } []
  | voteReply {req : VoteReq} {dst : ℕ} {todo : List ℕ} {granted : ℕ} {resp : VoteResp}
    (ht : n.tick = .voting req (dst::todo) granted) (hle : resp.term ≤ n.currentTerm) :
    Effect cfg self n (.tickReply resp) { n with
      tick := .voting req todo (granted+if resp.voteGranted then 1 else 0) } []
  | preVoteFail {req : VoteReq} {q dst : ℕ} {todo : List ℕ} {granted : ℕ}
    (ht : n.tick = .prevote req q (dst::todo) granted) :
    Effect cfg self n .tickFail { n with tick := .prevote req q todo granted } []
  | voteFail {req : VoteReq} {dst : ℕ} {todo : List ℕ} {granted : ℕ}
    (ht : n.tick = .voting req (dst::todo) granted) :
    Effect cfg self n .tickFail { n with tick := .voting req todo granted } []
  | stand {req : VoteReq} {q granted : ℕ} (ht : n.tick = .prevote req q [] granted)
    (hq : q ≤ granted) :
    Effect cfg self n .tickNext { n.becomeCandidate self with tick := .campaign } []
  | preVoteLost {req : VoteReq} {q granted : ℕ} (ht : n.tick = .prevote req q [] granted)
    (hq : ¬q ≤ granted) : Effect cfg self n .tickNext { n with tick := .idle } []
  | poll (ht : n.tick = .campaign) :
    Effect cfg self n .tickNext
      { n with tick := .voting (voteReqNow n self n.currentTerm) (peerIds n) 1 } []
  | lead {req : VoteReq} {granted : ℕ} (ht : n.tick = .voting req [] granted)
    (hq : n.role = .candidate ∧ n.currentTerm = req.term ∧ n.quorumNeeded ≤ granted) :
    Effect cfg self n .tickNext { n.becomeLeader self with tick := .idle } []
  | voteLost {req : VoteReq} {granted : ℕ} (ht : n.tick = .voting req [] granted)
    (hq : ¬(n.role = .candidate ∧ n.currentTerm = req.term ∧ n.quorumNeeded ≤ granted)) :
    Effect cfg self n .tickNext { n with tick := .idle } []
  | checkQuorum {alive : ℕ} (streak : ℕ) :
    Effect cfg self n (.checkQuorum alive) { n with quorumMissStreak := streak } []
  | quorumLost {alive : ℕ} :
    Effect cfg self n (.checkQuorum alive)
      ({ n with quorumMissStreak := 0 }.becomeFollower n.currentTerm 0) []
  | recvPreVote {req : VoteReq} {fresh : Bool} :
    Effect cfg self n (.recvPreVote req fresh) n
      [.send (.preVoteResp self req (onPreVote cfg n req fresh))]
  | recvVote {req : VoteReq} :
    Effect cfg self n (.recvVote req) (onRequestVote cfg n req).1
      [.send (.voteResp self req (onRequestVote cfg n req).2)]
  | recvAppend {req : AppendReq} :
    Effect cfg self n (.recvAppend req) (onAppendEntries n req).1
      [.send (.appendResp self req (onAppendEntries n req).2)]
  | installAnswer {req : InstallReq} {m : Node} (hb : installBegin n req = (m, false)) :
    Effect cfg self n (.recvInstall req) m [.send (.installResp self req m.currentTerm)]
  | installAccept {req : InstallReq} {m : Node} (hb : installBegin n req = (m, true)) :
    Effect cfg self n (.recvInstall req) { m with installs := m.installs++[.stage req] } []
  | stageLast {i : ℕ} {ok : Bool} {req : InstallReq} (hx : n.installs[i]? = some (.stage req))
    (hd : req.done = true) :
    Effect cfg self n (.installStep i ok) { n with
      stage := some (stageWrite n.stage req.offset req.data)
      installs := n.installs.set i (.slurp req) } []
  | stagePart {i : ℕ} {ok : Bool} {req : InstallReq} (hx : n.installs[i]? = some (.stage req))
    (hd : ¬req.done = true) :
    Effect cfg self n (.installStep i ok) { n with
      stage := some (stageWrite n.stage req.offset req.data)
      installs := n.installs.eraseIdx i } [.send (.installResp self req n.currentTerm)]
  | slurp {i : ℕ} {ok : Bool} {req : InstallReq} (hx : n.installs[i]? = some (.slurp req)) :
    Effect cfg self n (.installStep i ok)
      { n with installs :=
          n.installs.set i (.restore req (slurp n.stage (req.offset+req.data.length))) } []
  | restore {i : ℕ} {ok : Bool} {req : InstallReq} {body : Bytes}
    (hx : n.installs[i]? = some (.restore req (some body))) :
    Effect cfg self n (.installStep i ok)
      { n with installs := n.installs.set i (.unlink req ok) } [.restore req body]
  | unread {i : ℕ} {ok : Bool} {req : InstallReq}
    (hx : n.installs[i]? = some (.restore req none)) :
    Effect cfg self n (.installStep i ok)
      { n with installs := n.installs.set i (.unlink req false) } []
  | unlink {i : ℕ} {ok : Bool} {req : InstallReq} {restored : Bool}
    (hx : n.installs[i]? = some (.unlink req restored)) :
    Effect cfg self n (.installStep i ok) { n with
      stage := none
      installs := n.installs.set i (.finish req restored) } []
  | installFailed {i : ℕ} {ok : Bool} {req : InstallReq}
    (hx : n.installs[i]? = some (.finish req false)) :
    Effect cfg self n (.installStep i ok) { n with installs := n.installs.eraseIdx i }
      [.send (.installResp self req n.currentTerm)]
  | installed {i : ℕ} {ok : Bool} {req : InstallReq}
    (hx : n.installs[i]? = some (.finish req true)) :
    Effect cfg self n (.installStep i ok) { n with
      installs := n.installs.eraseIdx i
      log := n.log.compact req.lastIncludedIndex req.lastIncludedTerm
      lastApplied := max n.lastApplied req.lastIncludedIndex
      commitIndex := max n.commitIndex req.lastIncludedIndex }
      [.send (.installResp self req n.currentTerm)]
  | propose {type : EntryType} {payload : Bytes} {l : Log} {idx : ℕ} (hr : n.role = .leader)
    (ha : n.log.append n.currentTerm type.code payload = some (l, idx)) :
    Effect cfg self n (.propose type payload)
      (proposed n l ⟨idx, n.currentTerm, type.code, payload⟩).advanceCommit []
  | wakeApplied {i : ℕ} {w : Waiter} (hw : n.waiters[i]? = some w)
    (hle : w.entry.index ≤ n.lastApplied) :
    Effect cfg self n (.wake i) { n with waiters := n.waiters.eraseIdx i }
      [.result w.entry (outcome n w.entry.index)]
  | wakeDeposed {i : ℕ} {w : Waiter} (hw : n.waiters[i]? = some w) (hr : n.role ≠ .leader) :
    Effect cfg self n (.wake i) { n with waiters := n.waiters.eraseIdx i }
      [.result w.entry .permission]
  | park {i : ℕ} {w : Waiter} (hw : n.waiters[i]? = some w) :
    Effect cfg self n (.wake i)
      { n with waiters := n.waiters.set i { w with parked := true } } []
  | rollBack {i : ℕ} {w : Waiter} (hw : n.waiters[i]? = some w) (hp : w.parked = true)
    (hroll : RollsBack n w.entry.index) :
    Effect cfg self n (.timeout i) { n with
      waiters := n.waiters.eraseIdx i
      log := n.log.truncate w.entry.index } [.result w.entry .io]
  | giveUp {i : ℕ} {w : Waiter} (hw : n.waiters[i]? = some w) (hp : w.parked = true)
    (hroll : ¬RollsBack n w.entry.index) :
    Effect cfg self n (.timeout i) { n with waiters := n.waiters.eraseIdx i }
      [.result w.entry .indeterminate]
  | unreadable {peer : ℕ} {p : Peer} (hr : n.role = .leader)
    (hp : n.peers.find? (fun p => p.id = peer) = some p)
    (he : (List.range' (nextSent n p) (min (n.log.lastIndex+1-nextSent n p)
      maxEntriesPerAE)).mapM n.log.read = none) :
    Effect cfg self n (.replicate peer)
      (n.setPeer peer (fun q => { q with nextIndex := nextSent n p })) []
  | replicate {peer count : ℕ} {p : Peer} {entries : List Entry} (hr : n.role = .leader)
    (hp : n.peers.find? (fun p => p.id = peer) = some p)
    (hc : count = min (n.log.lastIndex+1-nextSent n p) maxEntriesPerAE)
    (he : (List.range' (nextSent n p) count).mapM n.log.read = some entries) :
    Effect cfg self n (.replicate peer)
      { n.setPeer peer (fun q => { q with nextIndex := nextSent n p }) with
          calls := n.calls++[(peer, appendFrom n self (nextSent n p) entries)]
          replicating := if 0 < count then n.replicating+1 else n.replicating }
      [.send (.appendReq peer (appendFrom n self (nextSent n p) entries))]
  | replicateReply {peer : ℕ} {req : AppendReq} {resp : AppendResp} (hc : (peer, req) ∈ n.calls) :
    Effect cfg self n (.replicateReply peer req resp)
      (mergeReply (returned n peer req) peer req resp) []
  | replicateFail {peer : ℕ} {req : AppendReq} (hc : (peer, req) ∈ n.calls) :
    Effect cfg self n (.replicateFail peer req) (returned n peer req) []
  | replicateDone :
    Effect cfg self n .replicateDone
      { n with finishing := n.finishing-1, replicating := n.replicating-1 } []
  | transferStart {peer : ℕ} {body : Bytes} (hr : n.role = .leader) :
    Effect cfg self n (.transferStart peer body) { n with transfers := n.transfers++
      [⟨peer, n.currentTerm, self, n.log.snapIndex, n.log.snapTerm, body, 0, 0⟩] } []
  | transferSend {i : ℕ} {t : Transfer} (hx : n.transfers[i]? = some t) :
    Effect cfg self n (.transferSend i) n [.send (.installReq t.peer (chunk t))]
  | transferOutbid {i term : ℕ} (hlt : n.currentTerm < term) :
    Effect cfg self n (.transferAck i term)
      { n.becomeFollower term 0 with transfers := n.transfers.eraseIdx i } []
  | transferAck {i term : ℕ} {t : Transfer} (hx : n.transfers[i]? = some t) :
    Effect cfg self n (.transferAck i term)
      { n with transfers := n.transfers.set i (acked t) } []
  | transferAbort {i : ℕ} :
    Effect cfg self n (.transferAbort i) { n with transfers := n.transfers.eraseIdx i } []
  | transferDone {i : ℕ} {t : Transfer} (hx : n.transfers[i]? = some t) :
    Effect cfg self n (.transferDone i)
      ({ n with transfers := n.transfers.eraseIdx i }.setPeer t.peer (fun p =>
        { p with nextIndex := t.snapIndex+1, matchIndex := max p.matchIndex t.snapIndex })) []
  | applyStart {rc : ℤ} (ha : n.apply = .idle) (hlt : n.lastApplied < n.commitIndex) :
    Effect cfg self n (.applyStep rc)
      { n with apply := .loop (n.lastApplied+1) n.commitIndex } []
  | applyEnd {rc : ℤ} {idx commit : ℕ} (ha : n.apply = .loop idx commit) (hlt : commit < idx) :
    Effect cfg self n (.applyStep rc) { n with apply := .idle } []
  | applyRead {rc : ℤ} {idx commit : ℕ} {e : Entry} (ha : n.apply = .loop idx commit)
    (hle : idx ≤ commit) (he : n.log.read idx = some e) :
    Effect cfg self n (.applyStep rc) { n with apply := .hold idx commit e } []
  | applyMiss {rc : ℤ} {idx commit : ℕ} (ha : n.apply = .loop idx commit) (hle : idx ≤ commit)
    (he : n.log.read idx = none) :
    Effect cfg self n (.applyStep rc) { n with apply := .missed idx commit } []
  | applyPass {rc : ℤ} {idx commit : ℕ} (ha : n.apply = .missed idx commit)
    (hle : idx ≤ n.log.snapIndex) :
    Effect cfg self n (.applyStep rc) { n with apply := .skip n.log.snapIndex commit } []
  | applyQuit {rc : ℤ} {idx commit : ℕ} (ha : n.apply = .missed idx commit)
    (hlt : n.log.snapIndex < idx) : Effect cfg self n (.applyStep rc) { n with apply := .idle } []
  | applySkip {rc : ℤ} {snap commit : ℕ} (ha : n.apply = .skip snap commit) :
    Effect cfg self n (.applyStep rc)
      { n with lastApplied := max n.lastApplied snap, apply := .loop (snap+1) commit } []
  | applyRun {rc : ℤ} {idx commit : ℕ} {e : Entry} (ha : n.apply = .hold idx commit e) :
    Effect cfg self n (.applyStep rc)
      { n with apply := .ran idx commit e (if e.type = EntryType.config.code then 0 else rc) }
      [.apply e]
  | applyRecord {rc r : ℤ} {idx commit : ℕ} {e : Entry} (ha : n.apply = .ran idx commit e r) :
    Effect cfg self n (.applyStep rc) { n with
      outcomes := Function.update n.outcomes (idx%outcomeRing) (idx, r)
      lastApplied := idx
      apply := .recorded idx commit e.term } []
  | applyCompact {rc : ℤ} {idx commit term : ℕ} (ha : n.apply = .recorded idx commit term)
    (hs : n.log.snapIndex+cfg.stride ≤ idx) :
    Effect cfg self n (.applyStep rc)
      { n with log := n.log.compact idx term, apply := .loop (idx+1) commit } []
  | applyNext {rc : ℤ} {idx commit term : ℕ} (ha : n.apply = .recorded idx commit term)
    (hs : ¬n.log.snapIndex+cfg.stride ≤ idx) :
    Effect cfg self n (.applyStep rc) { n with apply := .loop (idx+1) commit } []

theorem quiet_some {o : Option Node} {n' : Node} {outs : List Output}
    (h : quiet o = some (n', outs)) : o = some n' ∧ outs = [] := by
  cases o with
  | none => simp [quiet] at h
  | some m =>
    simp only [quiet, map_some, some.injEq, Prod.mk.injEq] at h
    exact ⟨by rw [h.1], h.2.symm⟩

theorem endCall_some {n : Node} {peer : ℕ} {req : AppendReq} {n' : Node}
    (h : endCall n peer req = some n') : (peer, req) ∈ n.calls ∧ n' = returned n peer req := by
  unfold endCall at h
  split at h
  · rename_i hm
    exact ⟨hm, (some.inj h).symm⟩
  · simp at h

section Sections
variable {cfg : Config} {self : ℕ} {n n' : Node} {outs : List Output}

theorem tickStart_effect (h : tickStart n self = some n') : Effect cfg self n .tickStart n' [] := by
  unfold tickStart at h
  split at h
  · split at h
    · simp at h
    · cases h
      exact .tickStart (by assumption)
  · simp at h

theorem tickAsk_effect {p : Packet} (h : tickAsk n = some p) : Effect cfg self n .tickAsk n [.send p] := by
  unfold tickAsk at h
  split at h
  · cases h
    exact .askPreVote (by assumption)
  · cases h
    exact .askVote (by assumption)
  · simp at h

theorem tickReply_effect {resp : VoteResp} (h : tickReply n resp = some n') :
    Effect cfg self n (.tickReply resp) n' [] := by
  unfold tickReply at h
  dsimp only at h
  split at h
  · cases h
    exact .preVoteReply (by assumption)
  · split at h
    · cases h
      exact .voteOutbid (by assumption) (by assumption)
    · cases h
      exact .voteReply (by assumption) (by omega)
  · simp at h

theorem tickFail_effect (h : tickFail n = some n') : Effect cfg self n .tickFail n' [] := by
  unfold tickFail at h
  split at h
  · cases h
    exact .preVoteFail (by assumption)
  · cases h
    exact .voteFail (by assumption)
  · simp at h

theorem tickNext_effect (h : tickNext n self = some n') : Effect cfg self n .tickNext n' [] := by
  unfold tickNext at h
  split at h
  · split at h
    · cases h
      exact .stand (by assumption) (by assumption)
    · cases h
      exact .preVoteLost (by assumption) (by assumption)
  · cases h
    exact .poll (by assumption)
  · split at h
    · cases h
      exact .lead (by assumption) (by assumption)
    · cases h
      exact .voteLost (by assumption) (by assumption)
  · simp at h

theorem checkQuorum_effect (alive : ℕ) : Effect cfg self n (.checkQuorum alive) (n.checkQuorum alive) [] := by
  unfold Node.checkQuorum
  split
  · exact .checkQuorum n.quorumMissStreak
  split
  · exact .checkQuorum 0
  split
  · exact .checkQuorum (n.quorumMissStreak+1)
  · exact .quorumLost

theorem recvInstall_effect (req : InstallReq) :
    Effect cfg self n (.recvInstall req) (recvInstall n self req).1 (recvInstall n self req).2 := by
  unfold recvInstall
  split
  · exact .installAnswer (by assumption)
  · exact .installAccept (by assumption)

variable {i : ℕ}

theorem installStep_effect {ok : Bool} (h : installStep n self i ok = some (n', outs)) :
    Effect cfg self n (.installStep i ok) n' outs := by
  unfold installStep at h
  split at h
  · simp at h
  · split at h
    · cases h
      exact .stageLast (by assumption) (by assumption)
    · cases h
      exact .stagePart (by assumption) (by assumption)
  · cases h
    exact .slurp (by assumption)
  · cases h
    exact .restore (by assumption)
  · cases h
    exact .unread (by assumption)
  · cases h
    exact .unlink (by assumption)
  · rename_i req restored hx
    cases h
    cases restored with
    | false => exact .installFailed hx
    | true => exact .installed hx

theorem propose_effect {type : EntryType} {payload : Bytes} (h : propose n type payload = some n') :
    Effect cfg self n (.propose type payload) n' [] := by
  unfold propose at h
  split at h
  · simp at h
  rename_i hr
  split at h
  · simp at h
  · cases h
    exact .propose (not_not.mp hr) (by assumption)

theorem wake_effect (h : wake n i = some (n', outs)) : Effect cfg self n (.wake i) n' outs := by
  unfold wake at h
  split at h
  · simp at h
  split at h
  · cases h
    exact .wakeApplied (by assumption) (by assumption)
  split at h
  · cases h
    exact .wakeDeposed (by assumption) (by assumption)
  · cases h
    exact .park (by assumption)

theorem timeout_effect (h : timeout n i = some (n', outs)) : Effect cfg self n (.timeout i) n' outs := by
  unfold timeout at h
  split at h
  · simp at h
  split at h
  · split at h
    · cases h
      exact .rollBack (by assumption) (by assumption) (by assumption)
    · cases h
      exact .giveUp (by assumption) (by assumption) (by assumption)
  · simp at h

theorem replicate_effect {peer : ℕ} {o : Option AppendReq} (h : replicate n self peer = some (n', o)) :
    Effect cfg self n (.replicate peer) n'
    ((o.map (fun req => [Output.send (.appendReq peer req)])).getD []) := by
  unfold replicate at h
  split at h
  · simp at h
  rename_i hr
  split at h
  · simp at h
  dsimp only at h
  split at h
  · cases h
    exact .unreadable (not_not.mp hr) (by assumption) (by assumption)
  · cases h
    exact .replicate (not_not.mp hr) (by assumption) rfl (by assumption)

theorem replicateDone_effect (h : replicateDone n = some n') : Effect cfg self n .replicateDone n' [] := by
  unfold replicateDone at h
  split at h
  · cases h
    exact .replicateDone
  · simp at h

theorem transferStart_effect {peer : ℕ} {body : Bytes} (h : transferStart n self peer body = some n') :
    Effect cfg self n (.transferStart peer body) n' [] := by
  unfold transferStart at h
  split at h
  · simp at h
  rename_i hr
  split at h
  · simp at h
  split at h
  · cases h
    exact .transferStart (not_not.mp hr)
  · simp at h

theorem transferSend_effect (h : transferSend n i = some (n', outs)) :
    Effect cfg self n (.transferSend i) n' outs := by
  unfold transferSend at h
  split at h
  · simp at h
  split at h
  · simp at h
  · cases h
    exact .transferSend (by assumption)

theorem transferAck_effect {term : ℕ} (h : transferAck n i term = some n') :
    Effect cfg self n (.transferAck i term) n' [] := by
  unfold transferAck at h
  split at h
  · simp at h
  split at h
  · cases h
    exact .transferOutbid (by assumption)
  · cases h
    exact .transferAck (by assumption)

theorem transferDone_effect (h : transferDone n i = some n') : Effect cfg self n (.transferDone i) n' [] := by
  unfold transferDone at h
  split at h
  · simp at h
  split at h
  · cases h
    exact .transferDone (by assumption)
  · simp at h

theorem applyStep_effect {rc : ℤ} (h : applyStep cfg n rc = some (n', outs)) :
    Effect cfg self n (.applyStep rc) n' outs := by
  unfold applyStep at h
  split at h
  · split at h
    · cases h
      exact .applyStart (by assumption) (by assumption)
    · simp at h
  · split at h
    · cases h
      exact .applyEnd (by assumption) (by assumption)
    split at h
    · cases h
      exact .applyRead (by assumption) (by omega) (by assumption)
    · cases h
      exact .applyMiss (by assumption) (by omega) (by assumption)
  · split at h
    · cases h
      exact .applyPass (by assumption) (by assumption)
    · cases h
      exact .applyQuit (by assumption) (by omega)
  · cases h
    exact .applySkip (by assumption)
  · cases h
    exact .applyRun (by assumption)
  · cases h
    exact .applyRecord (by assumption)
  · rename_i idx commit term ha
    split at h <;> cases h
    · exact .applyCompact ha ‹_›
    · exact .applyNext ha ‹_›

theorem step_effect {ev : Event} (h : step cfg self n ev = some (n', outs)) :
    Effect cfg self n ev n' outs := by
  cases ev with
  | tickStart =>
    obtain ⟨hq, rfl⟩ := quiet_some h
    exact tickStart_effect hq
  | tickAsk =>
    obtain ⟨p, hp, hq⟩ := map_eq_some_iff.mp h
    cases hq
    exact tickAsk_effect hp
  | tickReply resp =>
    obtain ⟨hq, rfl⟩ := quiet_some h
    exact tickReply_effect hq
  | tickFail =>
    obtain ⟨hq, rfl⟩ := quiet_some h
    exact tickFail_effect hq
  | tickNext =>
    obtain ⟨hq, rfl⟩ := quiet_some h
    exact tickNext_effect hq
  | checkQuorum alive =>
    simp only [step] at h
    split at h
    · cases h
      exact checkQuorum_effect _
    · simp at h
  | recvPreVote req fresh =>
    cases h
    exact .recvPreVote
  | recvVote req =>
    cases h
    exact .recvVote
  | recvAppend req =>
    cases h
    exact .recvAppend
  | recvInstall req =>
    have he : Effect cfg self n _ _ _ := recvInstall_effect req
    rwa [some.inj h] at he
  | installStep i ok => exact installStep_effect h
  | propose type payload =>
    obtain ⟨hq, rfl⟩ := quiet_some h
    exact propose_effect hq
  | wake i => exact wake_effect h
  | timeout i => exact timeout_effect h
  | replicate peer =>
    obtain ⟨⟨m, o⟩, hr, hq⟩ := map_eq_some_iff.mp h
    cases hq
    exact replicate_effect hr
  | replicateReply peer req resp =>
    obtain ⟨hq, rfl⟩ := quiet_some h
    obtain ⟨m, hm, rfl⟩ := map_eq_some_iff.mp hq
    obtain ⟨hc, rfl⟩ := endCall_some hm
    exact .replicateReply hc
  | replicateFail peer req =>
    obtain ⟨hq, rfl⟩ := quiet_some h
    obtain ⟨hc, rfl⟩ := endCall_some hq
    exact .replicateFail hc
  | replicateDone =>
    obtain ⟨hq, rfl⟩ := quiet_some h
    exact replicateDone_effect hq
  | transferStart peer body =>
    obtain ⟨hq, rfl⟩ := quiet_some h
    exact transferStart_effect hq
  | transferSend i => exact transferSend_effect h
  | transferAck i term =>
    obtain ⟨hq, rfl⟩ := quiet_some h
    exact transferAck_effect hq
  | transferAbort i =>
    obtain ⟨t, _, hq⟩ := map_eq_some_iff.mp h
    cases hq
    exact .transferAbort
  | transferDone i =>
    obtain ⟨hq, rfl⟩ := quiet_some h
    exact transferDone_effect hq
  | applyStep rc => exact applyStep_effect h

theorem effect_requests {ev : Event} (h : Effect cfg self n ev n' outs) {dst : ℕ} {req : AppendReq}
    (hx : Output.send (.appendReq dst req) ∈ outs) :
    n.role = .leader ∧ ∃ next count entries, req = appendFrom n self next entries ∧
      (List.range' next count).mapM n.log.read = some entries := by
  cases h with
  | replicate hr _ _ he =>
    simp only [List.mem_singleton, Output.send.injEq, Packet.appendReq.injEq] at hx
    exact ⟨hr, _, _, _, hx.2, he⟩
  | _ => simp at hx

end Sections

theorem hearLeader_frame (n : Node) (term leader : ℕ) : ∃ t v r, n.hearLeader term leader =
    { n with currentTerm := t, votedFor := v, role := r, leaderId := leader } := by
  unfold Node.hearLeader
  split
  · exact ⟨_, _, _, rfl⟩
  · exact ⟨_, _, _, rfl⟩

theorem onAppendEntries_kept (n : Node) (req : AppendReq) :
    (onAppendEntries n req).1.waiters = n.waiters ∧ (onAppendEntries n req).1.peers = n.peers := by
  obtain ⟨t, v, r, hl⟩ := hearLeader_frame n req.term req.leaderId
  rcases onAppend_cases n req with ⟨_, h⟩ | ⟨_, _, _, h⟩ | ⟨_, _, _, _, h⟩ | ⟨_, _, l, ok, _, _, h⟩
  · simp [h]
  · simp [h, hl]
  · simp [h, hl]
  · simp [h, hl]

theorem installBegin_frame (n : Node) (req : InstallReq) : ∃ t v r l, (installBegin n req).1 =
      { n with currentTerm := t, votedFor := v, role := r, leaderId := l } := by
  unfold installBegin
  split
  · exact ⟨_, _, _, _, rfl⟩
  · obtain ⟨t, v, r, h⟩ := hearLeader_frame n _ _
    exact ⟨t, v, r, _, h⟩

theorem onRequestVote_frame (cfg : Config) (n : Node) (req : VoteReq) : ∃ t v r l,
    (onRequestVote cfg n req).1 =
      { n with currentTerm := t, votedFor := v, role := r, leaderId := l } := by
  unfold onRequestVote
  split
  · exact ⟨_, _, _, _, rfl⟩
  by_cases hlt : n.currentTerm < req.term
  · simp only [if_pos hlt]
    split <;> exact ⟨_, _, _, _, rfl⟩
  · simp only [if_neg hlt]
    split <;> exact ⟨_, _, _, _, rfl⟩

theorem advanceCommit_eq (n : Node) : ∃ N, n.advanceCommit = { n with commitIndex := N } := by
  unfold Node.advanceCommit
  split
  · exact ⟨_, rfl⟩
  · split <;> exact ⟨_, rfl⟩

theorem mergeReply_cases (n : Node) (peer : ℕ) (req : AppendReq) (resp : AppendResp) :
    (n.currentTerm < resp.term ∧ mergeReply n peer req resp = n.becomeFollower resp.term 0) ∨
    (n.role ≠ .leader ∧ mergeReply n peer req resp = n) ∨
    (resp.term ≤ n.currentTerm ∧ n.role = .leader ∧ resp.success = true ∧
      mergeReply n peer req resp = (n.setPeer peer (fun p =>
        { p with
            matchIndex := max p.matchIndex (req.prevLogIndex+req.entries.length)
            nextIndex := req.prevLogIndex+req.entries.length+1 })).advanceCommit) ∨
    (n.role = .leader ∧ mergeReply n peer req resp = n.setPeer peer (fun p =>
      if resp.matchIndex+1 < p.nextIndex then { p with nextIndex := resp.matchIndex+1 }
      else if 1 < p.nextIndex then { p with nextIndex := p.nextIndex-1 }
      else p)) := by
  unfold mergeReply
  split
  · exact .inl ⟨by assumption, rfl⟩
  rename_i hge
  split
  · exact .inr (.inl ⟨by assumption, rfl⟩)
  rename_i hr
  split
  · exact .inr (.inr (.inl ⟨by omega, not_not.mp hr, by assumption, rfl⟩))
  · exact .inr (.inr (.inr ⟨not_not.mp hr, rfl⟩))

end QEngine.RaftEffects

import QEngine.RaftNode

/-!
# The threads of a node

A node runs a tick thread, an apply thread, proposers, replication calls, snapshot
transfers and RPC handlers. An event is one locked section of one of them, or work
done between two sections; a step yields the new node and what it puts outside.
-/

namespace QEngine.RaftService
open ByteFields RaftLogRecord RaftNode

def chunkMax : ℕ := 64*1024

inductive Packet where
  | preVoteReq (dst : ℕ) (req : VoteReq)
  | preVoteResp (src : ℕ) (req : VoteReq) (resp : VoteResp)
  | voteReq (dst : ℕ) (req : VoteReq)
  | voteResp (src : ℕ) (req : VoteReq) (resp : VoteResp)
  | appendReq (dst : ℕ) (req : AppendReq)
  | appendResp (src : ℕ) (req : AppendReq) (resp : AppendResp)
  | installReq (dst : ℕ) (req : InstallReq)
  | installResp (src : ℕ) (req : InstallReq) (term : ℕ)
  deriving DecidableEq

inductive ProposeResult where
  | ok
  | failed (rc : ℤ)
  | permission
  | io
  | indeterminate
  deriving DecidableEq

inductive Output where
  | send (p : Packet)
  | apply (e : Entry)
  | restore (req : InstallReq) (body : Bytes)
  | result (e : Entry) (r : ProposeResult)
  deriving DecidableEq

inductive Event where
  | tickStart
  | tickAsk
  | tickReply (resp : VoteResp)
  | tickFail
  | tickNext
  | checkQuorum (alive : ℕ)
  | recvPreVote (req : VoteReq) (leaseFresh : Bool)
  | recvVote (req : VoteReq)
  | recvAppend (req : AppendReq)
  | recvInstall (req : InstallReq)
  | installStep (i : ℕ) (ok : Bool)
  | propose (type : EntryType) (payload : Bytes)
  | wake (i : ℕ)
  | timeout (i : ℕ)
  | replicate (peer : ℕ)
  | replicateReply (peer : ℕ) (req : AppendReq) (resp : AppendResp)
  | replicateFail (peer : ℕ) (req : AppendReq)
  | replicateDone
  | transferStart (peer : ℕ) (body : Bytes)
  | transferSend (i : ℕ)
  | transferAck (i : ℕ) (term : ℕ)
  | transferAbort (i : ℕ)
  | transferDone (i : ℕ)
  | applyStep (rc : ℤ)
  deriving DecidableEq

def voteReqNow (n : Node) (self term : ℕ) : VoteReq :=
  ⟨term, self, n.log.lastIndex, n.log.lastTerm⟩

def peerIds (n : Node) : List ℕ := n.peers.map Peer.id

def tickStart (n : Node) (self : ℕ) : Option Node :=
  match n.tick with
  | .idle =>
    if n.role = .leader then none
    else some { n with
      tick := .prevote (voteReqNow n self (n.currentTerm+1)) n.quorumNeeded (peerIds n) 1 }
  | _ => none

def tickAsk (n : Node) : Option Packet :=
  match n.tick with
  | .prevote req _ (p::_) _ => some (.preVoteReq p req)
  | .voting req (p::_) _ => some (.voteReq p req)
  | _ => none

/-- The answer of the peer just asked. Only a real vote steps down on a
higher term. -/
def tickReply (n : Node) (resp : VoteResp) : Option Node :=
  let vote := if resp.voteGranted then 1 else 0
  match n.tick with
  | .prevote req q (_::todo) granted => some { n with tick := .prevote req q todo (granted+vote) }
  | .voting req (_::todo) granted =>
    if n.currentTerm < resp.term then
      some { n.becomeFollower resp.term 0 with tick := .voting req todo granted }
    else some { n with tick := .voting req todo (granted+vote) }
  | _ => none

def tickFail (n : Node) : Option Node :=
  match n.tick with
  | .prevote req q (_::todo) granted => some { n with tick := .prevote req q todo granted }
  | .voting req (_::todo) granted => some { n with tick := .voting req todo granted }
  | _ => none

/-- A round whose peers have all been asked is evaluated; a won pre-vote
leads to a candidacy and the election reads its request afterwards. -/
def tickNext (n : Node) (self : ℕ) : Option Node :=
  match n.tick with
  | .prevote _ q [] granted =>
    if q ≤ granted then some { n.becomeCandidate self with tick := .campaign }
    else some { n with tick := .idle }
  | .campaign => some { n with tick := .voting (voteReqNow n self n.currentTerm) (peerIds n) 1 }
  | .voting req [] granted =>
    if n.role = .candidate ∧ n.currentTerm = req.term ∧ n.quorumNeeded ≤ granted then
      some { n.becomeLeader self with tick := .idle }
    else some { n with tick := .idle }
  | _ => none

/-- The part of `replicate_to` under the lock. A peer below the snapshot is
moved past it when no snapshot can be sent. -/
def replicate (n : Node) (self peer : ℕ) : Option (Node × Option AppendReq) :=
  if n.role ≠ .leader then none
  else
    match n.peers.find? (fun p => p.id = peer) with
    | none => none
    | some p =>
      let next := if p.nextIndex ≤ n.log.snapIndex then n.log.snapIndex+1 else p.nextIndex
      let n := n.setPeer peer (fun p => { p with nextIndex := next })
      let count := min (n.log.lastIndex+1-next) maxEntriesPerAE
      match (List.range' next count).mapM n.log.read with
      | none => some (n, none)
      | some entries =>
        let req : AppendReq :=
          { term := n.currentTerm
            leaderId := self
            prevLogIndex := next-1
            prevLogTerm := if 0 < next-1 then n.log.termAt (next-1) else 0
            leaderCommit := n.commitIndex
            entries := entries }
        some ({ n with
          calls := n.calls++[(peer, req)]
          replicating := if 0 < count then n.replicating+1 else n.replicating }, some req)

def endCall (n : Node) (peer : ℕ) (req : AppendReq) : Option Node :=
  if (peer, req) ∈ n.calls then
    some { n with
      calls := n.calls.erase (peer, req)
      finishing := if req.entries = [] then n.finishing else n.finishing+1 }
  else none

/-- The reply is merged into whatever the node is by now: neither the term
nor the log is compared with those of the request. -/
def mergeReply (n : Node) (peer : ℕ) (req : AppendReq) (resp : AppendResp) : Node :=
  if n.currentTerm < resp.term then n.becomeFollower resp.term 0
  else if n.role ≠ .leader then n
  else if resp.success then
    let newMatch := req.prevLogIndex+req.entries.length
    (n.setPeer peer (fun p =>
      { p with matchIndex := max p.matchIndex newMatch, nextIndex := newMatch+1 })).advanceCommit
  else
    n.setPeer peer (fun p =>
      if resp.matchIndex+1 < p.nextIndex then { p with nextIndex := resp.matchIndex+1 }
      else if 1 < p.nextIndex then { p with nextIndex := p.nextIndex-1 }
      else p)

def replicateDone (n : Node) : Option Node :=
  if 0 < n.finishing then
    some { n with finishing := n.finishing-1, replicating := n.replicating-1 }
  else none

def propose (n : Node) (type : EntryType) (payload : Bytes) : Option Node :=
  if n.role ≠ .leader then none
  else
    match n.log.append n.currentTerm type.code payload with
    | none => none
    | some (l, idx) =>
      let m : Node := { n with
        log := l
        waiters := n.waiters++[⟨⟨idx, n.currentTerm, type.code, payload⟩, false⟩] }
      some m.advanceCommit

def outcome (n : Node) (index : ℕ) : ProposeResult :=
  let slot := n.outcomes (index%outcomeRing)
  if slot.1 = index ∧ slot.2 ≠ 0 then .failed slot.2 else .ok

def wake (n : Node) (i : ℕ) : Option (Node × List Output) :=
  match n.waiters[i]? with
  | none => none
  | some w =>
    if w.entry.index ≤ n.lastApplied then
      some ({ n with waiters := n.waiters.eraseIdx i }, [.result w.entry (outcome n w.entry.index)])
    else if n.role ≠ .leader then
      some ({ n with waiters := n.waiters.eraseIdx i }, [.result w.entry .permission])
    else some ({ n with waiters := n.waiters.set i { w with parked := true } }, [])

def RollsBack (n : Node) (index : ℕ) : Prop :=
  n.role = .leader ∧ n.commitIndex < index ∧ index = n.log.lastIndex ∧
  (∀ p ∈ n.peers, p.matchIndex < index) ∧ n.replicating = 0

instance (n : Node) (index : ℕ) : Decidable (RollsBack n index) := by
  unfold RollsBack
  infer_instance

def timeout (n : Node) (i : ℕ) : Option (Node × List Output) :=
  match n.waiters[i]? with
  | none => none
  | some w =>
    if w.parked then
      let m := { n with waiters := n.waiters.eraseIdx i }
      if RollsBack n w.entry.index then
        some ({ m with log := n.log.truncate w.entry.index }, [.result w.entry .io])
      else some (m, [.result w.entry .indeterminate])
    else none

/-- One step of `apply_thread_main`; `lastApplied` is set to the index just run whatever it has
become. -/
def applyStep (cfg : Config) (n : Node) (rc : ℤ) : Option (Node × List Output) :=
  match n.apply with
  | .idle =>
    if n.lastApplied < n.commitIndex then
      some ({ n with apply := .loop (n.lastApplied+1) n.commitIndex }, [])
    else none
  | .loop idx commit =>
    if commit < idx then some ({ n with apply := .idle }, [])
    else
      match n.log.read idx with
      | some e => some ({ n with apply := .hold idx commit e }, [])
      | none => some ({ n with apply := .missed idx commit }, [])
  | .missed idx commit =>
    if idx ≤ n.log.snapIndex then some ({ n with apply := .skip n.log.snapIndex commit }, [])
    else some ({ n with apply := .idle }, [])
  | .skip snap commit =>
    some ({ n with lastApplied := max n.lastApplied snap, apply := .loop (snap+1) commit }, [])
  | .hold idx commit e =>
    let rc := if e.type = EntryType.config.code then 0 else rc
    some ({ n with apply := .ran idx commit e rc }, [.apply e])
  | .ran idx commit e rc =>
    some ({ n with
      outcomes := Function.update n.outcomes (idx%outcomeRing) (idx, rc)
      lastApplied := idx
      apply := .recorded idx commit e.term }, [])
  | .recorded idx commit term =>
    some ({ n with
      log := if n.log.snapIndex+cfg.stride ≤ idx then n.log.compact idx term else n.log
      apply := .loop (idx+1) commit }, [])

/-- `snap_stage_write`: a chunk at offset zero starts the file over, any other is written in place.
-/
def stageWrite (file : Option Bytes) (offset : ℕ) (data : Bytes) : Bytes :=
  if offset = 0 then data
  else
    let old := file.getD []
    if data = [] then old
    else old.take offset++List.replicate (offset-old.length) 0++data++
      old.drop (offset+data.length)

def slurp (file : Option Bytes) (len : ℕ) : Option Bytes :=
  if len = 0 then some []
  else
    match file with
    | none => none
    | some bs => if len ≤ bs.length then some (bs.take len) else none

/-- The first locked section of `on_install_snapshot`: either an immediate
reply, or a handler that goes on to stage the chunk. -/
def installBegin (n : Node) (req : InstallReq) : Node × Bool :=
  if req.term < n.currentTerm then (n, false)
  else
    let m := n.hearLeader req.term req.leaderId
    (m, decide (m.log.snapIndex < req.lastIncludedIndex))

def installEnd (n : Node) (req : InstallReq) (ok : Bool) : Node :=
  if ok then
    { n with
        log := n.log.compact req.lastIncludedIndex req.lastIncludedTerm
        lastApplied := max n.lastApplied req.lastIncludedIndex
        commitIndex := max n.commitIndex req.lastIncludedIndex }
  else n

def recvInstall (n : Node) (self : ℕ) (req : InstallReq) : Node × List Output :=
  match installBegin n req with
  | (m, false) => (m, [.send (.installResp self req m.currentTerm)])
  | (m, true) => ({ m with installs := m.installs++[.stage req] }, [])

def installStep (n : Node) (self i : ℕ) (ok : Bool) : Option (Node × List Output) :=
  match n.installs[i]? with
  | none => none
  | some (.stage req) =>
    let m := { n with stage := some (stageWrite n.stage req.offset req.data) }
    if req.done then some ({ m with installs := m.installs.set i (.slurp req) }, [])
    else some ({ m with installs := m.installs.eraseIdx i },
      [.send (.installResp self req m.currentTerm)])
  | some (.slurp req) =>
    some ({ n with installs :=
      n.installs.set i (.restore req (slurp n.stage (req.offset+req.data.length))) }, [])
  | some (.restore req (some body)) =>
    some ({ n with installs := n.installs.set i (.unlink req ok) }, [.restore req body])
  | some (.restore req none) =>
    some ({ n with installs := n.installs.set i (.unlink req false) }, [])
  | some (.unlink req ok) =>
    some ({ n with stage := none, installs := n.installs.set i (.finish req ok) }, [])
  | some (.finish req ok) =>
    let m := installEnd { n with installs := n.installs.eraseIdx i } req ok
    some (m, [.send (.installResp self req m.currentTerm)])

def chunkTake (t : Transfer) : ℕ := min (t.body.length-t.off) chunkMax

def chunk (t : Transfer) : InstallReq :=
  { term := t.term
    leaderId := t.leaderId
    lastIncludedIndex := t.snapIndex
    lastIncludedTerm := t.snapTerm
    offset := t.off
    done := decide (chunkTake t = t.body.length-t.off)
    data := (t.body.drop t.off).take (chunkTake t) }

def transferStart (n : Node) (self peer : ℕ) (body : Bytes) : Option Node :=
  if n.role ≠ .leader then none
  else
    match n.peers.find? (fun p => p.id = peer) with
    | none => none
    | some p =>
      if p.nextIndex ≤ n.log.snapIndex then
        some { n with transfers := n.transfers++
          [⟨peer, n.currentTerm, self, n.log.snapIndex, n.log.snapTerm, body, 0, 0⟩] }
      else none

/-- The loop sends at least one chunk and stops at the end of the body. -/
def transferSend (n : Node) (i : ℕ) : Option (Node × List Output) :=
  match n.transfers[i]? with
  | none => none
  | some t =>
    if 0 < t.acks ∧ t.body.length ≤ t.off then none
    else some (n, [.send (.installReq t.peer (chunk t))])

def acked (t : Transfer) : Transfer := { t with off := t.off+chunkTake t, acks := t.acks+1 }

def transferAck (n : Node) (i term : ℕ) : Option Node :=
  match n.transfers[i]? with
  | none => none
  | some t =>
    if n.currentTerm < term then
      some { n.becomeFollower term 0 with transfers := n.transfers.eraseIdx i }
    else some { n with transfers := n.transfers.set i (acked t) }

def transferDone (n : Node) (i : ℕ) : Option Node :=
  match n.transfers[i]? with
  | none => none
  | some t =>
    if 0 < t.acks ∧ t.body.length ≤ t.off then
      let m := { n with transfers := n.transfers.eraseIdx i }
      some (m.setPeer t.peer (fun p =>
        { p with nextIndex := t.snapIndex+1, matchIndex := max p.matchIndex t.snapIndex }))
    else none

def quiet (n : Option Node) : Option (Node × List Output) := n.map (fun n => (n, []))

def step (cfg : Config) (self : ℕ) (n : Node) : Event → Option (Node × List Output)
  | .tickStart => quiet (tickStart n self)
  | .tickAsk => (tickAsk n).map (fun p => (n, [.send p]))
  | .tickReply resp => quiet (tickReply n resp)
  | .tickFail => quiet (tickFail n)
  | .tickNext => quiet (tickNext n self)
  | .checkQuorum alive => if n.tick = .idle then some (n.checkQuorum alive, []) else none
  | .recvPreVote req fresh => some (n, [.send (.preVoteResp self req (onPreVote cfg n req fresh))])
  | .recvVote req =>
    let r := onRequestVote cfg n req
    some (r.1, [.send (.voteResp self req r.2)])
  | .recvAppend req =>
    let r := onAppendEntries n req
    some (r.1, [.send (.appendResp self req r.2)])
  | .recvInstall req => some (recvInstall n self req)
  | .installStep i ok => installStep n self i ok
  | .propose type payload => quiet (propose n type payload)
  | .wake i => wake n i
  | .timeout i => timeout n i
  | .replicate peer =>
    (replicate n self peer).map (fun r =>
      (r.1, (r.2.map (fun req => [Output.send (.appendReq peer req)])).getD []))
  | .replicateReply peer req resp =>
    quiet ((endCall n peer req).map (fun m => mergeReply m peer req resp))
  | .replicateFail peer req => quiet (endCall n peer req)
  | .replicateDone => quiet (replicateDone n)
  | .transferStart peer body => quiet (transferStart n self peer body)
  | .transferSend i => transferSend n i
  | .transferAck i term => quiet (transferAck n i term)
  | .transferAbort i =>
    (n.transfers[i]?).map (fun _ => ({ n with transfers := n.transfers.eraseIdx i }, []))
  | .transferDone i => quiet (transferDone n i)
  | .applyStep rc => applyStep cfg n rc

def serve (cfg : Config) (self : ℕ) (s : Node × List Output) (ev : Event) :
    Option (Node × List Output) :=
  (step cfg self s.1 ev).map (fun r => (r.1, s.2++r.2))

inductive TermWrite where
  | metaBin (term : ℕ)
  | voteBin (node : ℕ)
  deriving DecidableEq

/-- `meta.bin` and `vote.bin` are two files, replaced one after the other. -/
def TermWrite.write (disk : ℕ × ℕ) : TermWrite → ℕ × ℕ
  | .metaBin term => (term, disk.2)
  | .voteBin node => (disk.1, node)

def bumpWrites (n : Node) (term : ℕ) : List TermWrite :=
  if n.currentTerm < term then [.metaBin term, .voteBin 0] else []

def termWrites (cfg : Config) (self : ℕ) (n : Node) : Event → List TermWrite
  | .tickReply resp =>
    match n.tick with
    | .voting _ (_::_) _ => bumpWrites n resp.term
    | _ => []
  | .tickNext =>
    match n.tick with
    | .prevote _ q [] granted =>
      if q ≤ granted then [.metaBin (n.currentTerm+1), .voteBin 0, .voteBin self] else []
    | _ => []
  | .recvVote req =>
    bumpWrites n req.term++
      (if (onRequestVote cfg n req).2.voteGranted then [.voteBin req.candidateId] else [])
  | .recvAppend req => bumpWrites n req.term
  | .recvInstall req => bumpWrites n req.term
  | .replicateReply _ _ resp => bumpWrites n resp.term
  | .transferAck _ term => bumpWrites n term
  | _ => []

end QEngine.RaftService

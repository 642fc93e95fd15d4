import QEngine.RaftLogRecord

/-!
# One Raft node

The fields follow `struct tsdb_raft` as far as the consensus logic reads them.
Each function is one section of `raft.c` that runs under the node lock. What the
code takes from the clock is an argument. The member set is fixed, so the peer
table keeps its ids.
-/

namespace QEngine.RaftNode
open ByteFields RaftLogRecord

def maxEntriesPerAE : ℕ := 64
def quorumMissStepdown : ℕ := 3
def outcomeRing : ℕ := 64

/-- The committed members and `SNAP_COMPACT_STRIDE`, 256 in the source. No node has id zero, which
means no vote. -/
structure Config where
  members : List ℕ
  stride : ℕ
  nodup : members.Nodup
  nonzero : 0 ∉ members

inductive Role where
  | follower
  | candidate
  | leader
  deriving DecidableEq

structure Peer where
  id : ℕ
  nextIndex : ℕ
  matchIndex : ℕ
  deriving DecidableEq

structure VoteReq where
  term : ℕ
  candidateId : ℕ
  lastLogIndex : ℕ
  lastLogTerm : ℕ
  deriving DecidableEq

structure VoteResp where
  term : ℕ
  voteGranted : Bool
  deriving DecidableEq

structure AppendReq where
  term : ℕ
  leaderId : ℕ
  prevLogIndex : ℕ
  prevLogTerm : ℕ
  leaderCommit : ℕ
  entries : List Entry
  deriving DecidableEq

structure AppendResp where
  term : ℕ
  success : Bool
  matchIndex : ℕ
  deriving DecidableEq

structure InstallReq where
  term : ℕ
  leaderId : ℕ
  lastIncludedIndex : ℕ
  lastIncludedTerm : ℕ
  offset : ℕ
  done : Bool
  data : Bytes
  deriving DecidableEq

/-- Where the tick thread stands in a pre-vote round or an election. The
peers still to be asked are kept with the votes counted so far. -/
inductive Tick where
  | idle
  | prevote (req : VoteReq) (quorum : ℕ) (todo : List ℕ) (granted : ℕ)
  | campaign
  | voting (req : VoteReq) (todo : List ℕ) (granted : ℕ)
  deriving DecidableEq

inductive Apply where
  | idle
  | loop (idx commit : ℕ)
  | missed (idx commit : ℕ)
  | skip (snap commit : ℕ)
  | hold (idx commit : ℕ) (e : Entry)
  | ran (idx commit : ℕ) (e : Entry) (rc : ℤ)
  | recorded (idx commit : ℕ) (term : ℕ)
  deriving DecidableEq

structure Waiter where
  entry : Entry
  parked : Bool
  deriving DecidableEq

structure Transfer where
  peer : ℕ
  term : ℕ
  leaderId : ℕ
  snapIndex : ℕ
  snapTerm : ℕ
  body : Bytes
  off : ℕ
  acks : ℕ
  deriving DecidableEq

inductive Install where
  | stage (req : InstallReq)
  | slurp (req : InstallReq)
  | restore (req : InstallReq) (body : Option Bytes)
  | unlink (req : InstallReq) (ok : Bool)
  | finish (req : InstallReq) (ok : Bool)
  deriving DecidableEq

structure Node where
  currentTerm : ℕ
  votedFor : ℕ
  log : Log
  role : Role
  leaderId : ℕ
  commitIndex : ℕ
  lastApplied : ℕ
  peers : List Peer
  replicating : ℕ
  quorumMissStreak : ℕ
  outcomes : ℕ → ℕ × ℤ
  tick : Tick
  calls : List (ℕ × AppendReq)
  finishing : ℕ
  transfers : List Transfer
  apply : Apply
  waiters : List Waiter
  installs : List Install
  stage : Option Bytes

def peerTable (cfg : Config) (self last : ℕ) : List Peer :=
  (cfg.members.filter (fun id => id ≠ self)).map (fun id => ⟨id, last+1, 0⟩)

/-- `tsdb_raft_open` on the stored term, vote and log, with the peer table
its first tick builds. -/
def Node.boot (cfg : Config) (self term vote : ℕ) (log : Log) : Node where
  currentTerm := term
  votedFor := vote
  log := log
  role := .follower
  leaderId := 0
  commitIndex := log.snapIndex
  lastApplied := log.snapIndex
  peers := peerTable cfg self log.lastIndex
  replicating := 0
  quorumMissStreak := 0
  outcomes := fun _ => (0, 0)
  tick := .idle
  calls := []
  finishing := 0
  transfers := []
  apply := .idle
  waiters := []
  installs := []
  stage := none

def Node.quorumNeeded (n : Node) : ℕ := (n.peers.length+1)/2+1

def Node.becomeFollower (n : Node) (newTerm leader : ℕ) : Node :=
  { n with
      currentTerm := if n.currentTerm < newTerm then newTerm else n.currentTerm
      votedFor := if n.currentTerm < newTerm then 0 else n.votedFor
      role := .follower
      leaderId := leader }

def Node.becomeCandidate (n : Node) (self : ℕ) : Node :=
  { n with
      currentTerm := n.currentTerm+1
      votedFor := self
      role := .candidate
      leaderId := 0 }

def Node.becomeLeader (n : Node) (self : ℕ) : Node :=
  { n with
      role := .leader
      leaderId := self
      peers := n.peers.map (fun p => { p with nextIndex := n.log.lastIndex+1, matchIndex := 0 })
      quorumMissStreak := 0 }

def logUpToDate (l : Log) (req : VoteReq) : Bool :=
  l.lastTerm < req.lastLogTerm || (req.lastLogTerm == l.lastTerm && l.lastIndex ≤ req.lastLogIndex)

def onPreVote (cfg : Config) (n : Node) (req : VoteReq) (leaseFresh : Bool) : VoteResp :=
  { term := n.currentTerm
    voteGranted := !leaseFresh && logUpToDate n.log req && decide (n.currentTerm < req.term) &&
      decide (req.candidateId ∈ cfg.members) }

def onRequestVote (cfg : Config) (n : Node) (req : VoteReq) : Node × VoteResp :=
  if req.term < n.currentTerm then (n, ⟨n.currentTerm, false⟩)
  else
    let m := if n.currentTerm < req.term then n.becomeFollower req.term 0 else n
    if logUpToDate m.log req && decide (req.candidateId ∈ cfg.members) &&
        (m.votedFor == 0 || m.votedFor == req.candidateId) then
      ({ m with votedFor := req.candidateId }, ⟨m.currentTerm, true⟩)
    else (m, ⟨m.currentTerm, false⟩)

/-- The part that AppendEntries and InstallSnapshot share once the sender's
term is not stale: follow it, and give up a candidacy of the same term. -/
def Node.hearLeader (n : Node) (term leader : ℕ) : Node :=
  if n.currentTerm < term then n.becomeFollower term leader
  else
    { n with
        role := if n.role = .candidate then .follower else n.role
        leaderId := leader }

/-- The entry loop of `on_append_entries`; `false` when an append fails. -/
def insertEntries : Log → List Entry → Log × Bool
  | l, [] => (l, true)
  | l, e::es =>
    if e.index ≤ l.lastIndex ∧ l.termAt e.index = e.term then insertEntries l es
    else
      let cut := if e.index ≤ l.lastIndex then l.truncate e.index else l
      match cut.append e.term e.type e.payload with
      | none => (cut, false)
      | some (l', _) => insertEntries l' es

def onAppendEntries (n : Node) (req : AppendReq) : Node × AppendResp :=
  if req.term < n.currentTerm then (n, ⟨n.currentTerm, false, 0⟩)
  else
    let m := n.hearLeader req.term req.leaderId
    if 0 < req.prevLogIndex ∧ m.log.lastIndex < req.prevLogIndex then
      (m, ⟨req.term, false, m.log.lastIndex⟩)
    else if 0 < req.prevLogIndex ∧ m.log.termAt req.prevLogIndex ≠ req.prevLogTerm then
      ({ m with log := m.log.truncate req.prevLogIndex }, ⟨req.term, false, req.prevLogIndex-1⟩)
    else
      match insertEntries m.log req.entries with
      | (l, false) => ({ m with log := l }, ⟨req.term, false, l.lastIndex⟩)
      | (l, true) =>
        -- capped at our own last index, not at the last entry the request carries
        ({ m with
          log := l
          commitIndex := max m.commitIndex (min req.leaderCommit l.lastIndex) },
          ⟨req.term, true, l.lastIndex⟩)

/-- `maybe_advance_commit_locked`: the largest index of the current term that
a majority is known to hold. -/
def Node.advanceCommit (n : Node) : Node :=
  if n.role ≠ .leader then n
  else
    match (List.range' (n.commitIndex+1) (n.log.lastIndex-n.commitIndex)).reverse.find?
      (fun N => n.log.termAt N = n.currentTerm ∧
        n.quorumNeeded ≤ 1+n.peers.countP (fun p => N ≤ p.matchIndex)) with
    | some N => { n with commitIndex := N }
    | none => n

/-- `check_quorum_locked` with `alive` peers heard from in the window, the
node itself included. -/
def Node.checkQuorum (n : Node) (alive : ℕ) : Node :=
  if n.role ≠ .leader then n
  else if n.quorumNeeded ≤ alive then { n with quorumMissStreak := 0 }
  else if n.quorumMissStreak+1 < quorumMissStepdown then
    { n with quorumMissStreak := n.quorumMissStreak+1 }
  else { n with quorumMissStreak := 0 }.becomeFollower n.currentTerm 0

def Node.setPeer (n : Node) (id : ℕ) (f : Peer → Peer) : Node :=
  { n with peers := n.peers.map (fun p => if p.id = id then f p else p) }

theorem hearLeader_fields (n : Node) (term leader : ℕ) (h : n.currentTerm ≤ term) :
    (n.hearLeader term leader).currentTerm = term ∧ (n.hearLeader term leader).log = n.log ∧
    (n.hearLeader term leader).commitIndex = n.commitIndex ∧
    (n.hearLeader term leader).lastApplied = n.lastApplied ∧
    (n.hearLeader term leader).apply = n.apply ∧ (n.hearLeader term leader).peers = n.peers := by
  unfold Node.hearLeader
  split
  · rename_i hlt
    refine ⟨?_, rfl, rfl, rfl, rfl, rfl⟩
    simp [Node.becomeFollower, hlt]
  · exact ⟨by change n.currentTerm = term; omega, rfl, rfl, rfl, rfl, rfl⟩

theorem onAppend_cases (n : Node) (req : AppendReq) :
    (req.term < n.currentTerm ∧ onAppendEntries n req = (n, ⟨n.currentTerm, false, 0⟩)) ∨
    (n.currentTerm ≤ req.term ∧ 0 < req.prevLogIndex ∧ n.log.lastIndex < req.prevLogIndex ∧
      onAppendEntries n req = (n.hearLeader req.term req.leaderId,
        ⟨req.term, false, n.log.lastIndex⟩)) ∨
    (n.currentTerm ≤ req.term ∧ 0 < req.prevLogIndex ∧ req.prevLogIndex ≤ n.log.lastIndex ∧
      n.log.termAt req.prevLogIndex ≠ req.prevLogTerm ∧
      onAppendEntries n req =
        ({ n.hearLeader req.term req.leaderId with log := n.log.truncate req.prevLogIndex },
          ⟨req.term, false, req.prevLogIndex-1⟩)) ∨
    (n.currentTerm ≤ req.term ∧ (0 < req.prevLogIndex → req.prevLogIndex ≤ n.log.lastIndex ∧
        n.log.termAt req.prevLogIndex = req.prevLogTerm) ∧
      ∃ l ok, insertEntries n.log req.entries = (l, ok) ∧
        (onAppendEntries n req).2 = ⟨req.term, ok, l.lastIndex⟩ ∧
        (onAppendEntries n req).1 = { n.hearLeader req.term req.leaderId with
          log := l
          commitIndex := if ok then max n.commitIndex (min req.leaderCommit l.lastIndex)
            else n.commitIndex }) := by
  unfold onAppendEntries
  by_cases hlt : req.term < n.currentTerm
  · exact .inl ⟨hlt, by rw [if_pos hlt]⟩
  right
  obtain ⟨ht, hlog, hcom, _⟩ := hearLeader_fields n req.term req.leaderId (by omega)
  rw [if_neg hlt]
  simp only [hlog]
  by_cases hs : 0 < req.prevLogIndex ∧ n.log.lastIndex < req.prevLogIndex
  · exact .inl ⟨by omega, hs.1, hs.2, by rw [if_pos hs]⟩
  right
  rw [if_neg hs]
  by_cases hc : 0 < req.prevLogIndex ∧ n.log.termAt req.prevLogIndex ≠ req.prevLogTerm
  · exact .inl ⟨by omega, hc.1, by omega, hc.2, by rw [if_pos hc]⟩
  right
  rw [if_neg hc]
  refine ⟨by omega, fun hp => ⟨by omega, ?_⟩, _, _, rfl, ?_⟩
  · by_contra hne
    exact hc ⟨hp, hne⟩
  rcases insertEntries n.log req.entries with ⟨l, ok⟩
  cases ok with
  | false | true => simp [hcom]

end QEngine.RaftNode

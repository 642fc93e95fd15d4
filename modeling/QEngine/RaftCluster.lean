import QEngine.RaftService
import QEngine.StepRuns

/-!
# A cluster of nodes

A packet stays available once sent, so it may be delivered late, repeatedly or never.
A node may also stop, between two events or between the file writes inside one, and
start again from what is on its disk.
-/

namespace QEngine.RaftCluster
open Option RaftLogRecord RaftNode RaftService

inductive Action where
  | act (ev : Event)
  | crash (ev : Event) (writes : ℕ)
  | restart
  deriving DecidableEq

structure Cluster where
  nodes : ℕ → Node
  trace : List (ℕ × Output)

def Cluster.init (cfg : Config) : Cluster :=
  ⟨fun i => Node.boot cfg i 0 0 Log.empty, []⟩

def Output.packet : Output → Option Packet
  | .send p => some p
  | _ => none

def Cluster.net (c : Cluster) : List Packet := c.trace.filterMap (fun x => Output.packet x.2)

def needs (self : ℕ) (n : Node) : Event → Option Packet
  | .tickReply resp =>
    match n.tick with
    | .prevote req _ (p::_) _ => some (.preVoteResp p req resp)
    | .voting req (p::_) _ => some (.voteResp p req resp)
    | _ => none
  | .recvPreVote req _ => some (.preVoteReq self req)
  | .recvVote req => some (.voteReq self req)
  | .recvAppend req => some (.appendReq self req)
  | .recvInstall req => some (.installReq self req)
  | .replicateReply peer req resp => some (.appendResp peer req resp)
  | .transferAck i term => (n.transfers[i]?).map (fun t => .installResp t.peer (chunk t) term)
  | _ => none

def Cluster.delivers (c : Cluster) (self : ℕ) (ev : Event) : Prop :=
  ∀ p, needs self (c.nodes self) ev = some p → p ∈ c.net

instance (c : Cluster) (self : ℕ) (ev : Event) : Decidable (c.delivers self ev) :=
  match h : needs self (c.nodes self) ev with
  | none => isTrue (fun p hp => absurd (h.symm.trans hp) (by simp))
  | some p => decidable_of_iff (p ∈ c.net)
    ⟨fun hp q hq => by rw [h] at hq; rw [← some.inj hq]; exact hp, fun hq => hq p h⟩

def Cluster.put (c : Cluster) (self : ℕ) (n : Node) (outs : List Output) : Cluster :=
  ⟨Function.update c.nodes self n, c.trace++outs.map (fun o => (self, o))⟩

def diskAfter (cfg : Config) (self : ℕ) (n : Node) (ev : Event) (k : ℕ) : ℕ × ℕ :=
  ((termWrites cfg self n ev).take k).foldl TermWrite.write (n.currentTerm, n.votedFor)

def Cluster.step (cfg : Config) (c : Cluster) (a : ℕ × Action) : Option Cluster :=
  if a.1 ∈ cfg.members then
    match a.2 with
    | .act ev =>
      if c.delivers a.1 ev then
        (RaftService.step cfg a.1 (c.nodes a.1) ev).map (fun r => c.put a.1 r.1 r.2)
      else none
    | .crash ev k =>
      if c.delivers a.1 ev then
        let disk := diskAfter cfg a.1 (c.nodes a.1) ev k
        some (c.put a.1 (Node.boot cfg a.1 disk.1 disk.2 (c.nodes a.1).log) [])
      else none
    | .restart =>
      let n := c.nodes a.1
      some (c.put a.1 (Node.boot cfg a.1 n.currentTerm n.votedFor n.log) [])
  else none

theorem step_cases {cfg : Config} {c c' : Cluster} {a : ℕ × Action} (h : c.step cfg a = some c') :
    a.1 ∈ cfg.members ∧
    ((∃ ev n' outs, a.2 = .act ev ∧ c.delivers a.1 ev ∧
        RaftService.step cfg a.1 (c.nodes a.1) ev = some (n', outs) ∧ c' = c.put a.1 n' outs) ∨
      (∃ ev k, (∀ ev', a.2 ≠ .act ev') ∧
        c' = c.put a.1 (Node.boot cfg a.1 (diskAfter cfg a.1 (c.nodes a.1) ev k).1
        (diskAfter cfg a.1 (c.nodes a.1) ev k).2 (c.nodes a.1).log) [])) := by
  obtain ⟨i, act⟩ := a
  unfold Cluster.step at h
  split_ifs at h with hm
  refine ⟨hm, ?_⟩
  cases act with
  | act ev =>
    simp only at h
    split_ifs at h with hd
    obtain ⟨r, hr, rfl⟩ := map_eq_some_iff.mp h
    exact .inl ⟨ev, r.1, r.2, rfl, hd, hr, rfl⟩
  | crash ev k =>
    simp only at h
    split_ifs at h with hd
    exact .inr ⟨ev, k, by simp, (some.inj h).symm⟩
  | restart =>
    simp only at h
    exact .inr ⟨.replicateDone, 0, by simp, (some.inj h).symm⟩

@[simp] theorem put_self (c : Cluster) (i : ℕ) (n : Node) (outs : List Output) :
    (c.put i n outs).nodes i = n := by
  simp [Cluster.put]

theorem put_other (c : Cluster) {i j : ℕ} (n : Node) (outs : List Output) (h : j ≠ i) :
    (c.put i n outs).nodes j = c.nodes j := by
  simp [Cluster.put, h]

theorem put_net (c : Cluster) (i : ℕ) (n : Node) (outs : List Output) :
    (c.put i n outs).net = c.net++outs.filterMap Output.packet := by
  simp only [Cluster.net, Cluster.put, List.filterMap_append, List.filterMap_map]
  rfl

end QEngine.RaftCluster

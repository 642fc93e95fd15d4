import QEngine.RaftElection

/-!
# Changing the members

A node takes up a change when its apply thread reaches it, and counts quorums over the
members it has applied so far. A change is refused while an earlier one lies between
the proposer's own `lastApplied` and the end of its log; where the other nodes stand
is not looked at.
-/

namespace QEngine.RaftMembership
open Function ByteFields RaftLogRecord RaftNode RaftService RaftCluster RaftElection QuorumSets StepRuns

def maxMasters : ℕ := 16
def removedRing : ℕ := 64

inductive CfgOp where
  | add (id : ℕ)
  | remove (id : ℕ)
  | seed (ids : List ℕ)
  deriving DecidableEq

def cfgAddr (addr : Bytes) : Bytes :=
  addr.take (if 79 < addr.length%256 then 79 else addr.length%256)

def encodeCfg (op : UInt8) (id : ℕ) (addr : Bytes) : Bytes :=
  op::(leBytes 8 id++UInt8.ofNat (cfgAddr addr).length::cfgAddr addr)

def encodeCfgSeed (ids : List ℕ) (addr : ℕ → Bytes) : Bytes :=
  3::UInt8.ofNat ids.length::ids.flatMap fun id =>
    leBytes 8 id++UInt8.ofNat (cfgAddr (addr id)).length::cfgAddr (addr id)

def readSeed : ℕ → Bytes → Option (List ℕ)
  | 0, _ => some []
  | k+1, bs =>
    match fieldAt bs 0 8, fieldAt bs 8 1 with
    | some id, some al =>
      if bs.length < 9+al then none else (readSeed k (bs.drop (9+al))).map (id::·)
    | _, _ => none

def decodeCfg : Bytes → Option CfgOp
  | [] => none
  | op::rest =>
    if op = 1 ∨ op = 2 then
      if rest.length < 9 then none
      else (fieldAt rest 0 8).map (if op = 1 then .add else .remove)
    else if op = 3 then
      match rest with
      | [] => none
      | count::body =>
        match readSeed (min count.toNat maxMasters) body with
        | some (id::ids) => some (.seed (id::ids))
        | _ => none
    else none

/-- Members are distinct and not zero: an add of a listed id is skipped, a seed
lists each node once, and no caller passes zero. -/
def setMembers (cfg : Config) (ids : List ℕ) : Config :=
  if h : ids.Nodup ∧ 0 ∉ ids then ⟨ids, cfg.stride, h.1, h.2⟩ else cfg

def CfgOp.apply (cfg : Config) : CfgOp → Config
  | .add id =>
    if id ∈ cfg.members ∨ maxMasters ≤ cfg.members.length then cfg
    else setMembers cfg (cfg.members++[id])
  | .remove id => setMembers cfg (cfg.members.erase id)
  | .seed ids => setMembers cfg ids

/-- The table is rebuilt in place: slot `k` is overwritten while later members
are still looked up among the first `n` slots. -/
def rebuildLoop (last n : ℕ) : List ℕ → ℕ → List Peer → List Peer
  | [], k, ps => ps.take k
  | id::ids, k, ps =>
    let p := ((ps.take n).find? fun p => p.id = id).getD ⟨id, last+1, 0⟩
    rebuildLoop last n ids (k+1) (if k < ps.length then ps.set k p else ps++[p])

def rebuildPeers (cfg : Config) (self : ℕ) (n : Node) : Node :=
  let others := cfg.members.filter fun id => id ≠ self
  { n with peers := rebuildLoop n.log.lastIndex n.peers.length others 0 n.peers }

def hasPendingConfig (n : Node) : Bool :=
  (List.range' (n.lastApplied+1) (n.log.lastIndex-n.lastApplied)).any fun idx =>
    (n.log.read idx).any fun e => e.type == EntryType.config.code

inductive Change where
  | add (id : ℕ) (addr : Bytes)
  | remove (id : ℕ)
  deriving DecidableEq

def Change.id : Change → ℕ
  | .add id _ => id
  | .remove id => id

def Change.op : Change → CfgOp
  | .add id _ => .add id
  | .remove id => .remove id

def encodeCfgPayload : Change → Bytes
  | .add id addr => encodeCfg 1 id addr
  | .remove id => encodeCfg 2 id []

/-- A running `tsdb_raft_add_master` or `tsdb_raft_remove_master`, before or
after its look for a pending change; the lock is given up in between. -/
structure Call where
  change : Change
  checked : Bool
  deriving DecidableEq

/-- What each node keeps about the members: those applied, the ids it saw removed, and whether it
is about to step down. -/
structure Group where
  cluster : Cluster
  config : ℕ → Config
  removed : ℕ → List ℕ
  leaving : ℕ → Bool
  calls : ℕ → List Call

inductive Move where
  | base (a : Action)
  | rebuild
  | call (c : Change)
  | pendingAdd (id : ℕ) (addr : Bytes)
  | check (k : ℕ)
  | submit (k : ℕ)
  | stepDown
  deriving DecidableEq

def Group.node (g : Group) (i : ℕ) : Node := g.cluster.nodes i

def Group.put (g : Group) (i : ℕ) (n : Node) (outs : List Output) : Group :=
  { g with cluster := g.cluster.put i n outs }

def Group.setCalls (g : Group) (i : ℕ) (cs : List Call) : Group :=
  { g with calls := update g.calls i cs }

def recordRemoved (ids : List ℕ) (id : ℕ) : List ℕ :=
  if id ∈ ids then ids else (ids++[id]).drop (ids.length+1-removedRing)

def Group.takeUp (g : Group) (i : ℕ) (e : Entry) : Group :=
  if e.type = EntryType.config.code then
    match decodeCfg e.payload with
    | none => g
    | some op =>
      { g with
          config := update g.config i (op.apply (g.config i))
          removed := match op with
            | .remove id => update g.removed i (recordRemoved (g.removed i) id)
            | _ => g.removed
          leaving := update g.leaving i (decide (op = .remove i)) }
  else g

def Group.takeUpAll (g : Group) (i : ℕ) (outs : List Output) : Group :=
  outs.foldl (fun g o => match o with
    | .apply e => g.takeUp i e
    | _ => g) g

def Group.allows (g : Group) (i : ℕ) : Event → Bool
  | .propose .config _ => false
  | .applyStep _ => !g.leaving i
  | _ => true

def Group.boot (g : Group) (i : ℕ) (disk : ℕ × ℕ) : Group :=
  { g.put i (Node.boot (g.config i) i disk.1 disk.2 (g.node i).log) [] with
      removed := update g.removed i []
      leaving := update g.leaving i false
      calls := update g.calls i [] }

def Group.mayAdd (g : Group) (i id : ℕ) : Prop :=
  (g.node i).role = .leader ∧ id ≠ i ∧ id ∉ (g.config i).members ∧ id ∉ g.removed i

instance (g : Group) (i id : ℕ) : Decidable (g.mayAdd i id) := by
  unfold Group.mayAdd
  infer_instance

def Change.Valid (c : Change) : Prop := c.id ≠ 0 ∧ c.id < 256^8

instance (c : Change) : Decidable c.Valid := by
  unfold Change.Valid
  infer_instance

def Group.stepBase (g : Group) (i : ℕ) : Action → Option Group
  | .act ev =>
    if g.allows i ev ∧ g.cluster.delivers i ev then
      (RaftService.step (g.config i) i (g.node i) ev).map fun r => (g.put i r.1 r.2).takeUpAll i r.2
    else none
  | .crash ev k =>
    if g.allows i ev ∧ g.cluster.delivers i ev then
      some (g.boot i (diskAfter (g.config i) i (g.node i) ev k))
    else none
  | .restart => some (g.boot i ((g.node i).currentTerm, (g.node i).votedFor))

def Group.check (g : Group) (i k : ℕ) : Option Group :=
  match (g.calls i)[k]? with
  | some ⟨c, false⟩ =>
    if hasPendingConfig (g.node i) then some (g.setCalls i ((g.calls i).eraseIdx k))
    else some (g.setCalls i ((g.calls i).set k ⟨c, true⟩))
  | _ => none

/-- The proposal of a call; its wait for the result changes no members. -/
def Group.submit (g : Group) (i k : ℕ) : Option Group :=
  match (g.calls i)[k]? with
  | some ⟨c, true⟩ =>
    let g' := g.setCalls i ((g.calls i).eraseIdx k)
    match propose (g.node i) .config (encodeCfgPayload c) with
    | none => some g'
    | some n => some (g'.put i n [])
  | _ => none

def Group.step (sites : List ℕ) (g : Group) (a : ℕ × Move) : Option Group :=
  if a.1 ∈ sites then
    match a.2 with
    | .base act => g.stepBase a.1 act
    | .rebuild =>
      if (g.node a.1).tick = .idle then
        some (g.put a.1 (rebuildPeers (g.config a.1) a.1 (g.node a.1)) [])
      else none
    | .call c => if c.Valid then some (g.setCalls a.1 (g.calls a.1++[⟨c, false⟩])) else none
    | .pendingAdd id addr =>
      if g.mayAdd a.1 id ∧ (Change.add id addr).Valid then
        some (g.setCalls a.1 (g.calls a.1++[⟨.add id addr, false⟩]))
      else none
    | .check k => g.check a.1 k
    | .submit k => g.submit a.1 k
    | .stepDown =>
      if g.leaving a.1 then
        let n := g.node a.1
        let m := if n.role = .leader then { n with role := .follower, leaderId := 0 } else n
        some { g.put a.1 m [] with leaving := update g.leaving a.1 false }
      else none
  else none

/-- `voter` has voted for `cand` in `term`: it granted a request, or it is the
candidate of that term itself. -/
def granted (g : Group) (term cand voter : ℕ) : Bool :=
  (g.cluster.trace.any fun o =>
    match o with
    | (v, .send (.voteResp _ req resp)) =>
      v == voter && req.term == term && req.candidateId == cand && resp.voteGranted
    | _ => false) ||
  (voter == cand && (g.node cand).currentTerm == term && (g.node cand).votedFor == cand)

def Elected (g : Group) (term cand : ℕ) : Prop :=
  (g.node cand).role ≠ .follower ∧ (g.node cand).currentTerm = term ∧
  Majority (g.config cand).members (fun v => granted g term cand v = true)

instance (g : Group) (term cand : ℕ) : Decidable (Elected g term cand) := by
  unfold Elected Majority
  infer_instance

def QuorumsMeet (sites : List ℕ) (g : Group) : Prop :=
  ∀ term, ∀ a ∈ sites, ∀ b ∈ sites, Elected g term a → Elected g term b → a = b

def seededNode (cfg : Config) (addr : ℕ → Bytes) (i : ℕ) : Node :=
  { Node.boot cfg i 1 0 ⟨0, 0, 1, 1, 1, [⟨1, 1, EntryType.config.code, encodeCfgSeed cfg.members addr⟩]⟩ with
      commitIndex := 1
      lastApplied := 1 }

def Group.seeded (cfg : Config) (addr : ℕ → Bytes) : Group :=
  ⟨⟨seededNode cfg addr, []⟩, fun _ => cfg, fun _ => [], fun _ => false, fun _ => []⟩

def moves (as : List (ℕ × Action)) : List (ℕ × Move) := as.map fun a => (a.1, .base a.2)

def change (i : ℕ) (c : Change) : List (ℕ × Move) := [(i, .call c), (i, .check 0), (i, .submit 0)]

def replicated (i peer : ℕ) (req : AppendReq) : List (ℕ × Move) :=
  moves [(i, .act (.replicate peer)), (peer, .act (.recvAppend req)),
    (i, .act (.replicateReply peer req ⟨req.term, true, req.prevLogIndex+req.entries.length⟩))]

/-- Node 1 removes nodes 3 and 2 with node 2 as the only witness, and loses its lease in between. -/
def twoRemovals : List (ℕ × Move) :=
  moves (campaign 1 ⟨2, 1, 1, 1⟩ [(2, some 1), (3, none)])++
  change 1 (.remove 3)++replicated 1 2 ⟨2, 1, 1, 1, 1, [⟨2, 2, 2, encodeCfg 2 3 []⟩]⟩++
  moves (List.replicate 6 (1, .act (.applyStep 0)))++[(1, .rebuild)]++
  change 1 (.remove 2)++replicated 1 2 ⟨2, 1, 2, 2, 2, [⟨3, 2, 2, encodeCfg 2 2 []⟩]⟩++
  moves (List.replicate 3 (1, .act (.checkQuorum 1)))++
  moves (List.replicate 6 (1, .act (.applyStep 0)))++[(1, .rebuild)]

/-- Node 1, alone by its own count, and node 2, which has applied neither
removal, both stand in term 3. -/
def twoWinners : List (ℕ × Move) :=
  moves (campaign 1 ⟨3, 1, 3, 2⟩ []++campaign 2 ⟨3, 2, 3, 2⟩ [(1, none), (3, some 1)])

theorem lagging_members_elect_two :
    ∃ g, run (Group.step [1, 2, 3]) (Group.seeded threeNodes fun _ => []) (twoRemovals++twoWinners) = some g ∧
      (g.config 1).members = [1] ∧ (g.config 2).members = [1, 2, 3] ∧
      IsLeader g.cluster 1 3 ∧ IsLeader g.cluster 2 3 ∧ ¬QuorumsMeet [1, 2, 3] g := by
  obtain ⟨g, hr, h1, h2, hl1, hl2, he1, he2⟩ := run_reaches (Group.step [1, 2, 3])
    (Group.seeded threeNodes fun _ => []) (twoRemovals++twoWinners)
    (fun g => (g.config 1).members = [1] ∧ (g.config 2).members = [1, 2, 3] ∧
      IsLeader g.cluster 1 3 ∧ IsLeader g.cluster 2 3 ∧ Elected g 3 1 ∧ Elected g 3 2) (by decide +kernel)
  refine ⟨g, hr, h1, h2, hl1, hl2, ?_⟩
  intro h
  exact absurd (h 3 1 (by decide) 2 (by decide) he1 he2) (by decide)

end QEngine.RaftMembership

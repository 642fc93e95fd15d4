import QEngine.RaftCluster
import QEngine.RaftEffects
import QEngine.QuorumSets

/-!
# One leader per term

A vote is cast at most once per node and term, also across restarts that find a new
term beside an old vote; a leader of a term holds the votes of a majority for it; so
two leaders of one term are the same node.
-/

namespace QEngine.RaftElection
open List RaftLogRecord RaftNode RaftService RaftEffects RaftCluster QuorumSets StepRuns

/-- A step that neither grants a vote nor runs an election leaves term, vote and role, or moves to
a later term or the follower role. -/
structure StepsDown (n n' : Node) : Prop where
  term : n.currentTerm ≤ n'.currentTerm
  vote : n'.currentTerm = n.currentTerm → n'.votedFor = n.votedFor ∨ n.votedFor = 0
  role : (n'.role = n.role ∧ n'.currentTerm = n.currentTerm) ∨ n'.role = .follower
  tick : ∀ req todo granted, n'.tick = .voting req todo granted →
    n.tick = .voting req todo granted
  peers : peerIds n' = peerIds n

variable (n : Node)

theorem stepsDown_refl : StepsDown n n :=
  ⟨le_refl _, fun _ => .inl rfl, .inl ⟨rfl, rfl⟩, fun _ _ _ h => h, rfl⟩

theorem stepsDown_frame {m : Node} {m' : Node} (h : StepsDown n m) (ht : m'.currentTerm = m.currentTerm)
    (hv : m'.votedFor = m.votedFor) (hr : m'.role = m.role) (hk : m'.tick = m.tick)
    (hp : peerIds m' = peerIds m) : StepsDown n m' := by
  constructor
  · rw [ht]
    exact h.term
  · rw [ht, hv]
    exact h.vote
  · rw [ht, hr]
    exact h.role
  · rw [hk]
    exact h.tick
  · rw [hp]
    exact h.peers

theorem becomeFollower_down (term leader : ℕ) : StepsDown n (n.becomeFollower term leader) := by
  refine ⟨?_, ?_, .inr rfl, fun _ _ _ h => h, rfl⟩
  · simp only [Node.becomeFollower]
    split <;> omega
  simp only [Node.becomeFollower]
  split
  · intro h
    omega
  · exact fun _ => .inl rfl

theorem hearLeader_down (term leader : ℕ) : StepsDown n (n.hearLeader term leader) := by
  unfold Node.hearLeader
  split
  · exact becomeFollower_down n _ _
  refine ⟨le_refl _, fun _ => .inl rfl, ?_, fun _ _ _ h => h, rfl⟩
  by_cases h : n.role = .candidate
  · exact .inr (by simp [h])
  · exact .inl ⟨by simp [h], rfl⟩

theorem setPeer_ids (id : ℕ) {f : Peer → Peer} (hf : ∀ p, (f p).id = p.id) :
    peerIds (n.setPeer id f) = peerIds n := by
  simp only [peerIds, Node.setPeer, map_map]
  refine map_congr_left fun p _ => ?_
  simp only [Function.comp]
  split
  · exact hf p
  · rfl

theorem advanceCommit_frame : n.advanceCommit.currentTerm = n.currentTerm ∧
    n.advanceCommit.votedFor = n.votedFor ∧
    n.advanceCommit.role = n.role ∧ n.advanceCommit.tick = n.tick ∧
    n.advanceCommit.peers = n.peers ∧ n.advanceCommit.log = n.log := by
  unfold Node.advanceCommit
  split
  · exact ⟨rfl, rfl, rfl, rfl, rfl, rfl⟩
  · split <;> exact ⟨rfl, rfl, rfl, rfl, rfl, rfl⟩

theorem advanceCommit_down {m : Node} (h : StepsDown n m) : StepsDown n m.advanceCommit := by
  obtain ⟨ht, hv, hr, hk, hp, _⟩ := advanceCommit_frame m
  exact stepsDown_frame n h ht hv hr hk (by rw [peerIds, hp, peerIds])

theorem onAppendEntries_down (req : AppendReq) : StepsDown n (onAppendEntries n req).1 := by
  have hl := hearLeader_down n req.term req.leaderId
  rcases onAppend_cases n req with ⟨_, h⟩ | ⟨_, _, _, h⟩ | ⟨_, _, _, _, h⟩ | ⟨_, _, l, ok, _, _, h⟩
  · rw [h]
    exact stepsDown_refl n
  · rw [h]
    exact hl
  · rw [h]
    exact stepsDown_frame n hl rfl rfl rfl rfl rfl
  · rw [h]
    exact stepsDown_frame n hl rfl rfl rfl rfl rfl

theorem installBegin_down (req : InstallReq) : StepsDown n (installBegin n req).1 := by
  unfold installBegin
  split
  · exact stepsDown_refl n
  · exact hearLeader_down n _ _

theorem mergeReply_down (peer : ℕ) (req : AppendReq) (resp : AppendResp) :
    StepsDown n (mergeReply n peer req resp) := by
  have hset : ∀ f : Peer → Peer, (∀ p, (f p).id = p.id) → StepsDown n (n.setPeer peer f) :=
    fun f hf => stepsDown_frame n (stepsDown_refl n) rfl rfl rfl rfl (setPeer_ids n _ hf)
  rcases mergeReply_cases n _ req _ with ⟨_, h⟩ | ⟨_, h⟩ | ⟨_, _, _, h⟩ | ⟨_, h⟩
  · rw [h]
    exact becomeFollower_down n _ 0
  · rw [h]
    exact stepsDown_refl n
  · rw [h]
    exact advanceCommit_down n (hset _ (fun _ => rfl))
  · rw [h]
    refine hset _ fun p => ?_
    split
    · rfl
    · split <;> rfl

def Event.election : Event → Bool
  | .tickStart | .tickAsk | .tickReply _ | .tickFail | .tickNext | .recvVote _ => true
  | _ => false

variable (cfg : Config) (self : ℕ)

variable {n : Node} {ev : Event} {n' : Node} {outs : List Output} {i : ℕ} {req : VoteReq}

theorem effect_down (he : Event.election ev = false) (h : Effect cfg self n ev n' outs) : StepsDown n n' := by
  have hr := stepsDown_refl n
  cases h with
  | tickStart | askPreVote | askVote | preVoteReply | voteOutbid | voteReply | preVoteFail
  | voteFail | stand | preVoteLost | poll | lead | voteLost | recvVote =>
    simp [Event.election] at he
  | quorumLost =>
    exact stepsDown_frame n (becomeFollower_down n _ 0) rfl rfl rfl rfl rfl
  | recvAppend => exact onAppendEntries_down n _
  | @installAnswer req m hb =>
    have hd := installBegin_down n req
    rwa [hb] at hd
  | @installAccept req m hb =>
    have hd := installBegin_down n req
    rw [hb] at hd
    exact stepsDown_frame n hd rfl rfl rfl rfl rfl
  | propose => exact advanceCommit_down n (stepsDown_frame n hr rfl rfl rfl rfl rfl)
  | unreadable | replicate =>
    exact stepsDown_frame n hr rfl rfl rfl rfl (setPeer_ids n _ (fun _ => rfl))
  | @replicateReply peer req resp =>
    have hd := mergeReply_down (returned n peer req) peer req resp
    exact ⟨hd.term, hd.vote, hd.role, hd.tick, hd.peers⟩
  | @transferOutbid i term =>
    exact stepsDown_frame n (becomeFollower_down n _ 0) rfl rfl rfl rfl rfl
  | @transferDone i =>
    refine stepsDown_frame n hr rfl rfl rfl rfl ?_
    exact setPeer_ids _ _ fun _ => rfl
  | _ => exact stepsDown_frame n hr rfl rfl rfl rfl rfl

theorem effect_unvoted (he : ∀ req, ev ≠ .recvVote req) (h : Effect cfg self n ev n' outs)
    (src : ℕ) (req : VoteReq) (resp : VoteResp) : Output.send (.voteResp src req resp) ∉ outs := by
  cases h with
  | recvVote => exact absurd rfl (he _)
  | _ => simp

theorem step_down (he : Event.election ev = false) (h : step cfg self n ev = some (n', outs)) :
    StepsDown n n' ∧ ∀ src req resp, Output.send (.voteResp src req resp) ∉ outs := by
  refine ⟨effect_down cfg _ he (step_effect h), ?_⟩
  refine effect_unvoted cfg _ ?_ (step_effect h)
  rintro req rfl
  simp [Event.election] at he

@[ext] structure Votes where
  voted : ℕ → ℕ → Option ℕ
  lead : ℕ → Option ℕ

def Votes.none : Votes := ⟨fun _ _ => Option.none, fun _ => Option.none⟩

instance : Preorder Votes where
  le h h' := (∀ t q x, h.voted t q = some x → h'.voted t q = some x) ∧
    ∀ t n, h.lead t = some n → h'.lead t = some n
  le_refl _ := ⟨fun _ _ _ hx => hx, fun _ _ hx => hx⟩
  le_trans _ _ _ h1 h2 := ⟨fun t q x hx => h2.1 t q x (h1.1 t q x hx),
    fun t n hx => h2.2 t n (h1.2 t n hx)⟩

def Votes.cast (h : Votes) (term voter cand : ℕ) : Votes :=
  { h with voted := fun t q => if t = term ∧ q = voter then some cand else h.voted t q }

def Votes.crown (h : Votes) (term n : ℕ) : Votes :=
  { h with lead := fun t => if t = term then some n else h.lead t }

def Counted (cfg : Config) (h : Votes) (i : ℕ) (req : VoteReq) (todo : List ℕ) (granted : ℕ) :
    Prop :=
  req.candidateId = i ∧ ∃ asked, cfg.members.filter (fun x => x ≠ i) = asked++todo ∧
    granted ≤ 1+asked.countP (fun p => h.voted req.term p = some i)

structure Inv (cfg : Config) (c : Cluster) (h : Votes) : Prop where
  peers : ∀ i, peerIds (c.nodes i) = cfg.members.filter (fun x => x ≠ i)
  future : ∀ t q, (c.nodes q).currentTerm < t → h.voted t q = none
  ballot : ∀ q x, h.voted (c.nodes q).currentTerm q = some x → (c.nodes q).votedFor = x
  member : ∀ t q x, h.voted t q = some x → x ∈ cfg.members
  reply : ∀ src req resp, Packet.voteResp src req resp ∈ c.net → resp.voteGranted = true →
    h.voted req.term src = some req.candidateId
  self : ∀ i, (c.nodes i).role = .candidate → h.voted (c.nodes i).currentTerm i = some i
  round : ∀ i req todo granted, (c.nodes i).tick = .voting req todo granted →
    Counted cfg h i req todo granted
  lead : ∀ t n, h.lead t = some n → Majority cfg.members (fun q => h.voted t q = some n)
  leader : ∀ i, (c.nodes i).role = .leader → h.lead (c.nodes i).currentTerm = some i
  spent : ∀ t n, h.lead t = some n → t < (c.nodes n).currentTerm ∨
    (t = (c.nodes n).currentTerm ∧ (c.nodes n).role ≠ .candidate)

theorem inv_init : Inv cfg (Cluster.init cfg) Votes.none where
  peers i := by simp [Cluster.init, peerIds, Node.boot, peerTable, Function.comp_def]
  future _ _ _ := rfl
  ballot _ _ h := absurd h (by simp [Votes.none])
  member _ _ _ h := absurd h (by simp [Votes.none])
  reply _ _ _ h := absurd h (by simp [Cluster.init, Cluster.net])
  self _ h := absurd h (by simp [Cluster.init, Node.boot])
  round _ _ _ _ h := absurd h (by simp [Cluster.init, Node.boot])
  lead _ _ h := absurd h (by simp [Votes.none])
  leader _ h := absurd h (by simp [Cluster.init, Node.boot])
  spent _ _ h := absurd h (by simp [Votes.none])

variable (c : Cluster)

theorem reply_put {p : Packet} (h : p ∈ (c.put i n outs).net) : p ∈ c.net ∨ Output.send p ∈ outs := by
  rw [put_net, mem_append] at h
  refine h.imp_right fun h => ?_
  obtain ⟨o, ho, hp⟩ := mem_filterMap.mp h
  cases o with
  | send q =>
    cases hp
    exact ho
  | apply e | restore req body | result e r => simp [Output.packet] at hp

theorem put_forall (P : ℕ → Node → Prop) (c : Cluster) (i : ℕ) (n' : Node) (outs : List Output)
    (hi : P i n') (ho : ∀ j, j ≠ i → P j (c.nodes j)) : ∀ j, P j ((c.put i n' outs).nodes j) := by
  intro j
  by_cases hj : j = i
  · subst hj
    rw [put_self]
    exact hi
  · rw [put_other c n' _ hj]
    exact ho j hj

variable (h : Votes)

structure NodeInv (cfg : Config) (h : Votes) (j : ℕ) (n : Node) : Prop where
  peers : peerIds n = cfg.members.filter (fun x => x ≠ j)
  future : ∀ t, n.currentTerm < t → h.voted t j = none
  ballot : ∀ x, h.voted n.currentTerm j = some x → n.votedFor = x
  self : n.role = .candidate → h.voted n.currentTerm j = some j
  round : ∀ req todo granted, n.tick = .voting req todo granted → Counted cfg h j req todo granted
  leader : n.role = .leader → h.lead n.currentTerm = some j
  spent : ∀ t, h.lead t = some j → t < n.currentTerm ∨ (t = n.currentTerm ∧ n.role ≠ .candidate)

theorem inv_node (hi : Inv cfg c h) (j : ℕ) : NodeInv cfg h j (c.nodes j) :=
  ⟨hi.peers j, fun t => hi.future t j, hi.ballot j, hi.self j, hi.round j, hi.leader j, fun t => hi.spent t j⟩

theorem inv_put (hn : NodeInv cfg h i n') (ho : ∀ j, j ≠ i → NodeInv cfg h j (c.nodes j))
    (hm : ∀ t q x, h.voted t q = some x → x ∈ cfg.members)
    (hr : ∀ src req resp, Packet.voteResp src req resp ∈ (c.put i n' outs).net → resp.voteGranted = true →
      h.voted req.term src = some req.candidateId)
    (hl : ∀ t n, h.lead t = some n → Majority cfg.members (fun q => h.voted t q = some n)) :
    Inv cfg (c.put i n' outs) h := by
  have hall := put_forall (NodeInv cfg h) c i n' outs hn ho
  exact ⟨fun j => (hall j).peers, fun t j => (hall j).future t, fun j => (hall j).ballot, hm, hr,
    fun j => (hall j).self,
    fun j => (hall j).round, hl, fun j => (hall j).leader, fun t j => (hall j).spent t⟩

theorem inv_down (hi : Inv cfg c h) (i : ℕ) (m : Node) (t : Tick) (outs : List Output)
    (hd : StepsDown (c.nodes i) m)
    (ht : ∀ req todo granted, t = .voting req todo granted → Counted cfg h i req todo granted)
    (ho : ∀ src req resp, Output.send (.voteResp src req resp) ∉ outs) :
    Inv cfg (c.put i { m with tick := t } outs) h := by
  refine inv_put cfg c h
    ⟨hd.peers.trans (hi.peers i), fun u hlt => hi.future u i (lt_of_le_of_lt hd.term hlt),
      fun x hx => ?_, fun hc => ?_, ht, fun hc => ?_,
        fun u hk => ?_⟩ (fun j _ => inv_node cfg c h hi j) hi.member
    (fun src req resp hp => ?_) hi.lead
  · by_cases he : m.currentTerm = (c.nodes i).currentTerm
    · change h.voted m.currentTerm i = some x at hx
      rw [he] at hx
      have hb := hi.ballot i x hx
      rcases hd.vote he with hv | hv
      · exact hv.trans hb
      · rw [← hb, hv] at hx
        exact absurd (hi.member _ _ _ hx) cfg.nonzero
    · have hlt := lt_of_le_of_ne hd.term (fun e => he e.symm)
      exact absurd (hx.symm.trans (hi.future _ i hlt)) (by simp)
  · rcases hd.role with ⟨hr, he⟩ | hr
    · change h.voted m.currentTerm i = some i
      rw [he]
      exact hi.self i (hr.symm.trans hc)
    · exact absurd (hr.symm.trans hc) (by simp)
  · rcases hd.role with ⟨hr, he⟩ | hr
    · change h.lead m.currentTerm = some i
      rw [he]
      exact hi.leader i (hr.symm.trans hc)
    · exact absurd (hr.symm.trans hc) (by simp)
  · have hle := hd.term
    change u < m.currentTerm ∨ u = m.currentTerm ∧ m.role ≠ .candidate
    rcases hi.spent u i hk with hs | ⟨hs, hr⟩
    · exact .inl (by omega)
    rcases hd.role with ⟨hr', he⟩ | hr'
    · exact .inr ⟨by omega, by rw [hr']; exact hr⟩
    by_cases hlt : u < m.currentTerm
    · exact .inl hlt
    · exact .inr ⟨by omega, by rw [hr']; simp⟩
  · rcases reply_put c hp with hp | hp
    · exact hi.reply src req resp hp
    · exact absurd hp (ho src req resp)

theorem cast_le {t : ℕ} (i x : ℕ) (hf : h.voted t i = none ∨ h.voted t i = some x) : h ≤ h.cast t i x := by
  refine ⟨fun u q y hy => ?_, fun _ _ hm => hm⟩
  simp only [Votes.cast]
  split
  · rename_i he
    obtain ⟨rfl, rfl⟩ := he
    rcases hf with hf | hf
    · rw [hf] at hy
      simp at hy
    · rw [← hf, hy]
  · exact hy

theorem cast_self {t i x : ℕ} : (h.cast t i x).voted t i = some x := by
  simp [Votes.cast]

theorem cast_other {t i x u q : ℕ} (hne : u ≠ t ∨ q ≠ i) : (h.cast t i x).voted u q = h.voted u q := by
  simp only [Votes.cast]
  rw [if_neg (by omega)]

theorem count_le (h' : Votes) (hle : h ≤ h') (l : List ℕ) (t x : ℕ) :
    l.countP (fun p => h.voted t p = some x) ≤ l.countP (fun p => h'.voted t p = some x) :=
  countP_mono_left (fun q _ hq => by
    simpa using hle.1 t q x (by simpa using hq))

variable {granted : ℕ} {todo : List ℕ} {a : ℕ × Action}

theorem counted_le {h' : Votes} (hle : h ≤ h')
    (hc : Counted cfg h i req todo granted) : Counted cfg h' i req todo granted := by
  obtain ⟨hcand, asked, hm, hg⟩ := hc
  have hcount := count_le h h' hle asked req.term i
  exact ⟨hcand, asked, hm, by omega⟩

variable (hi : Inv cfg c h)

include hi

theorem inv_cast (i : ℕ) (n' : Node) (outs : List Output) {x : ℕ} (hx : x ∈ cfg.members)
    (ht : (c.nodes i).currentTerm ≤ n'.currentTerm) (hv : n'.votedFor = x)
    (hf : h.voted n'.currentTerm i = none ∨ h.voted n'.currentTerm i = some x)
    (hr : (n'.role = (c.nodes i).role ∧ n'.currentTerm = (c.nodes i).currentTerm) ∨ n'.role = .follower ∨
      (n'.role = .candidate ∧ (c.nodes i).currentTerm < n'.currentTerm ∧ x = i))
    (hk : ∀ req todo granted, n'.tick = .voting req todo granted →
      (c.nodes i).tick = .voting req todo granted)
    (hp : peerIds n' = peerIds (c.nodes i))
    (ho : ∀ src req resp, Output.send (.voteResp src req resp) ∈ outs →
      src = i ∧ req.term = n'.currentTerm ∧ req.candidateId = x) :
    Inv cfg (c.put i n' outs) (h.cast n'.currentTerm i x) := by
  have hle := cast_le h i x hf
  refine inv_put cfg c _ ⟨hp.trans (hi.peers i), fun t hlt => ?_, fun y => ?_, fun hc => ?_,
      fun req todo granted hj => counted_le cfg h hle (hi.round i _ _ _ (hk req todo granted hj)),
        fun hl => ?_, fun t hl => ?_⟩
    (fun j hj => ⟨hi.peers j, fun t hlt => ?_, fun y => ?_, fun hc => hle.1 _ _ _ (hi.self j hc),
      fun _ _ _ hj => counted_le cfg h hle (hi.round j _ _ _ hj), hi.leader j, fun t => hi.spent t j⟩)
    (fun t q y hy => ?_) (fun src req resp hpk hg => ?_)
    fun t m hm => majority_mono _ (fun q _ hq => hle.1 _ _ _ hq) (hi.lead t m hm)
  · rw [cast_other h (.inl (by omega))]
    exact hi.future t i (by omega)
  · rw [cast_self, hv]
    exact Option.some.inj
  · rcases hr with ⟨hr, hte⟩ | hr | ⟨_, _, hxi⟩
    · have hs := hle.1 _ _ _ (hi.self i (hr ▸ hc))
      rwa [← hte] at hs
    · rw [hr] at hc
      simp at hc
    · rw [cast_self, hxi]
  · rcases hr with ⟨hr, hte⟩ | hr | ⟨hr, _⟩
    · rw [hte]
      exact hi.leader i (hr ▸ hl)
    · rw [hr] at hl
      simp at hl
    · rw [hr] at hl
      simp at hl
  · rcases hi.spent t i hl with hs | ⟨hs, hrc⟩
    · exact .inl (by omega)
    rcases hr with ⟨hr, hte⟩ | hr | ⟨_, hlt, _⟩
    · exact .inr ⟨by omega, by rw [hr]; exact hrc⟩
    · by_cases hlt : t < n'.currentTerm
      · exact .inl hlt
      · exact .inr ⟨by omega, by rw [hr]; simp⟩
    · exact .inl (by omega)
  · rw [cast_other h (.inr hj)]
    exact hi.future t j hlt
  · rw [cast_other h (.inr hj)]
    exact hi.ballot j y
  · simp only [Votes.cast] at hy
    split at hy
    · cases hy
      exact hx
    · exact hi.member t q y hy
  · rcases reply_put c hpk with hpk | hpk
    · exact hle.1 _ _ _ (hi.reply src req resp hpk hg)
    obtain ⟨rfl, hreq, hc⟩ := ho src req resp hpk
    rw [hreq, hc]
    exact cast_self h

theorem majority_of_round (hm : i ∈ cfg.members)
    (hc : Counted cfg h i req [] granted) (hr : (c.nodes i).role = .candidate)
    (ht : (c.nodes i).currentTerm = req.term) (hq : (c.nodes i).quorumNeeded ≤ granted) :
    Majority cfg.members (fun q => h.voted req.term q = some i) := by
  obtain ⟨_, asked, ha, hg⟩ := hc
  rw [append_nil] at ha
  have hself := hi.self i hr
  rw [ht] at hself
  have hcount := count_others _ cfg.nodup hm (fun q => h.voted req.term q = some i) hself
  have hlen := length_others _ cfg.nodup hm
  have hp := congrArg List.length (hi.peers i)
  simp only [peerIds, length_map] at hp
  unfold Majority
  unfold Node.quorumNeeded at hq
  rw [← hcount, ha]
  rw [hp, hlen] at hq
  omega

theorem inv_crown (hm : i ∈ cfg.members)
    (hc : Counted cfg h i req [] granted) (hr : (c.nodes i).role = .candidate)
    (ht : (c.nodes i).currentTerm = req.term) (hq : (c.nodes i).quorumNeeded ≤ granted) :
    h.lead (c.nodes i).currentTerm = none ∧
    Inv cfg (c.put i { (c.nodes i).becomeLeader i with tick := .idle } [])
      (h.crown (c.nodes i).currentTerm i) := by
  have hmaj := majority_of_round cfg c h hi hm hc hr ht hq
  rw [← ht] at hmaj
  have hnone : h.lead (c.nodes i).currentTerm = none := by
    cases hl : h.lead (c.nodes i).currentTerm with
    | none => rfl
    | some m =>
      obtain ⟨q, _, h1, h2⟩ := majority_meet _ (hi.lead _ m hl) hmaj
      rw [h1] at h2
      rw [Option.some.inj h2] at hl
      rcases hi.spent _ i hl with hs | ⟨_, hs⟩
      · exact absurd hs (lt_irrefl _)
      · exact absurd hr hs
  refine ⟨hnone,
    inv_put cfg c _
    ⟨?_, fun u => hi.future u i, hi.ballot i, fun hx => absurd hx (by simp [Node.becomeLeader]),
      fun _ _ _ hx => absurd hx (by simp), fun _ => by simp [Votes.crown, Node.becomeLeader], fun u hk => ?_⟩
    (fun j hj =>
      ⟨hi.peers j, fun u => hi.future u j, hi.ballot j, hi.self j, hi.round j, fun hl => ?_, fun u hk => ?_⟩)
    hi.member (fun src req resp hp => ?_) fun u k hk => ?_⟩
  · rw [← hi.peers i]
    simp [peerIds, Node.becomeLeader, Function.comp_def]
  · simp only [Votes.crown] at hk
    split at hk
    · rename_i hu
      exact .inr ⟨hu, by simp [Node.becomeLeader]⟩
    rcases hi.spent u i hk with hs | ⟨hs, _⟩
    · exact .inl hs
    · exact .inr ⟨hs, by simp [Node.becomeLeader]⟩
  · have hl := hi.leader j hl
    simp only [Votes.crown]
    split
    · rename_i he
      rw [he, hnone] at hl
      simp at hl
    · exact hl
  · simp only [Votes.crown] at hk
    split at hk
    · exact absurd (Option.some.inj hk).symm hj
    · exact hi.spent u j hk
  · rcases reply_put c hp with hp | hp
    · exact hi.reply src req resp hp
    · simp at hp
  · simp only [Votes.crown] at hk
    split at hk
    · rename_i hu
      rw [hu, ← Option.some.inj hk]
      exact hmaj
    · exact hi.lead u k hk

omit hi in
theorem crown_le (t i : ℕ) (hn : h.lead t = none) : h ≤ h.crown t i := by
  refine ⟨fun _ _ _ hx => hx, fun u m hm => ?_⟩
  simp only [Votes.crown]
  split
  · rename_i he
    rw [he, hn] at hm
    simp at hm
  · exact hm

omit hi in
theorem onRequestVote_cases (n : Node) (req : VoteReq) :
    ((onRequestVote cfg n req).2.voteGranted = false ∧ StepsDown n (onRequestVote cfg n req).1) ∨
    ((onRequestVote cfg n req).2.voteGranted = true ∧ req.candidateId ∈ cfg.members ∧
      n.currentTerm ≤ req.term ∧ (n.currentTerm = req.term →
        n.votedFor = 0 ∨ n.votedFor = req.candidateId) ∧
      logUpToDate n.log req = true ∧
      (onRequestVote cfg n req).1 =
        { (if n.currentTerm < req.term then n.becomeFollower req.term 0 else n) with
            votedFor := req.candidateId }) := by
  by_cases hlt : req.term < n.currentTerm
  · exact .inl ⟨by simp [onRequestVote, hlt], by simpa [onRequestVote, hlt] using stepsDown_refl n⟩
  have hm : StepsDown n (if n.currentTerm < req.term then n.becomeFollower req.term 0 else n) ∧
      (if n.currentTerm < req.term then n.becomeFollower req.term 0 else n).log = n.log ∧
      (n.currentTerm = req.term →
        (if n.currentTerm < req.term then n.becomeFollower req.term 0 else n) = n) := by
    split
    · exact ⟨becomeFollower_down n _ 0, rfl, fun he => by omega⟩
    · exact ⟨stepsDown_refl n, rfl, fun _ => rfl⟩
  unfold onRequestVote
  rw [if_neg hlt]
  generalize (if n.currentTerm < req.term then n.becomeFollower req.term 0 else n) = m at hm ⊢
  obtain ⟨hd, hlog, hsame⟩ := hm
  by_cases hg : (logUpToDate m.log req && decide (req.candidateId ∈ cfg.members) &&
    (m.votedFor == 0 || m.votedFor == req.candidateId)) = true
  · simp only [hg, if_true]
    simp only [Bool.and_eq_true, decide_eq_true_eq, Bool.or_eq_true, beq_iff_eq] at hg
    obtain ⟨⟨hup, hmem⟩, hv⟩ := hg
    exact .inr ⟨trivial, hmem, by omega, fun he => hsame he ▸ hv, hlog ▸ hup, trivial⟩
  · simp only [hg]
    exact .inl ⟨rfl, hd⟩

def record (cfg : Config) (c : Cluster) (a : ℕ × Action) (h : Votes) : Votes :=
  match a.2 with
  | .act (.recvVote req) =>
    if (onRequestVote cfg (c.nodes a.1) req).2.voteGranted then
      h.cast req.term a.1 req.candidateId
    else h
  | .act .tickNext =>
    match (c.nodes a.1).tick with
    | .prevote _ q [] granted =>
      if q ≤ granted then h.cast ((c.nodes a.1).currentTerm+1) a.1 a.1 else h
    | .voting req [] granted =>
      if (c.nodes a.1).role = .candidate ∧ (c.nodes a.1).currentTerm = req.term ∧
          (c.nodes a.1).quorumNeeded ≤ granted then
        h.crown (c.nodes a.1).currentTerm a.1
      else h
    | _ => h
  | _ => h

omit hi in
/-- An event writes nothing, a later term and then votes, or one vote that
the voter was free to cast. -/
theorem termWrites_cases (n : Node) (ev : Event) : termWrites cfg self n ev = [] ∨
    (∃ term rest, n.currentTerm < term ∧ termWrites cfg self n ev = .metaBin term::rest ∧
      ∀ w ∈ rest, ∃ v, w = TermWrite.voteBin v) ∨
    (∃ v, termWrites cfg self n ev = [.voteBin v] ∧ (n.votedFor = 0 ∨ n.votedFor = v)) := by
  have hbump : ∀ term, bumpWrites n term = [] ∨ (∃ t rest, n.currentTerm < t ∧
      bumpWrites n term = .metaBin t::rest ∧ ∀ w ∈ rest, ∃ v, w = TermWrite.voteBin v) := by
    intro term
    unfold bumpWrites
    split
    · rename_i hlt
      exact Or.inr ⟨term, _, hlt, rfl, by simp⟩
    · exact Or.inl rfl
  have hone := fun term => (hbump term).imp_right (Or.inl (b := ∃ v,
    bumpWrites n term = [.voteBin v] ∧ (n.votedFor = 0 ∨ n.votedFor = v)))
  cases ev with
  | tickReply resp =>
    simp only [termWrites]
    split
    · exact hone resp.term
    · exact Or.inl rfl
  | tickNext =>
    simp only [termWrites]
    split
    · split
      · exact Or.inr (Or.inl ⟨_, _, Nat.lt_succ_self _, rfl, by simp⟩)
      · exact Or.inl rfl
    · exact Or.inl rfl
  | recvVote req =>
    simp only [termWrites]
    rcases onRequestVote_cases cfg n req with ⟨hg, _⟩ | ⟨hg, _, hle, hv, _⟩
    · simp only [hg, Bool.false_eq_true, if_false, List.append_nil]
      exact hone req.term
    simp only [hg, if_true]
    unfold bumpWrites
    split
    · rename_i hlt
      exact Or.inr (Or.inl ⟨req.term, _, hlt, rfl, by simp⟩)
    · exact Or.inr (Or.inr ⟨req.candidateId, rfl, hv (by omega)⟩)
  | recvAppend req | recvInstall req => exact hone req.term
  | replicateReply peer req resp => exact hone resp.term
  | transferAck i term => exact hone term
  | _ => exact Or.inl rfl

omit hi in
theorem votes_keep_term (ws : List TermWrite) (d : ℕ × ℕ)
    (h : ∀ w ∈ ws, ∃ v, w = TermWrite.voteBin v) : (ws.foldl TermWrite.write d).1 = d.1 := by
  induction ws generalizing d with
  | nil => rfl
  | cons w ws ih =>
    obtain ⟨v, rfl⟩ := h w (mem_cons_self ..)
    exact ih _ fun x hx => h x (mem_cons_of_mem _ hx)

omit hi in
theorem diskAfter_spec (n : Node) (ev : Event) (k : ℕ) : n.currentTerm ≤ (diskAfter cfg self n ev k).1 ∧
    ((diskAfter cfg self n ev k).1 = n.currentTerm →
      (diskAfter cfg self n ev k).2 = n.votedFor ∨ n.votedFor = 0) := by
  unfold diskAfter
  rcases termWrites_cases cfg self n ev with hw | ⟨term, rest, hlt, hw, hv⟩ | ⟨v, hw, hv⟩
  · simp [hw]
  · rw [hw]
    cases k with
    | zero => simp
    | succ k =>
      have ht := votes_keep_term (rest.take k) (term, n.votedFor)
        (fun w hm => hv w (mem_of_mem_take hm))
      simp only [take_succ_cons, foldl_cons, TermWrite.write]
      rw [ht]
      exact ⟨le_of_lt hlt, fun he => absurd he (by omega)⟩
  · rw [hw]
    cases k with
    | zero => simp
    | succ k =>
      simp only [take_succ_cons, take_nil, foldl_cons, foldl_nil, TermWrite.write]
      exact ⟨le_refl _, fun _ => hv.elim .inr (fun h => .inl h.symm)⟩

theorem boot_down (i : ℕ) (ev : Event) (k : ℕ) (log : Log) :
    StepsDown (c.nodes i) (Node.boot cfg i (diskAfter cfg i (c.nodes i) ev k).1
      (diskAfter cfg i (c.nodes i) ev k).2 log) := by
  obtain ⟨h1, h2⟩ := diskAfter_spec cfg i _ ev k
  refine ⟨h1, h2, .inr rfl, fun _ _ _ hx => absurd hx (by simp [Node.boot]), ?_⟩
  rw [hi.peers i]
  simp [peerIds, Node.boot, peerTable, Function.comp_def]

theorem inv_keep (outs : List Output) (hd : StepsDown (c.nodes i) n')
    (ho : ∀ src req resp, Output.send (.voteResp src req resp) ∉ outs) : Inv cfg (c.put i n' outs) h :=
  inv_down cfg c h hi i n' _ _ hd
    (fun req todo granted ht => hi.round i req todo granted (hd.tick req todo granted ht)) ho

omit hi in
theorem counted_pop {p : ℕ} {g : ℕ} (hc : Counted cfg h i req (p::todo) granted)
    (hg : g ≤ granted+if h.voted req.term p = some i then 1 else 0) :
    Counted cfg h i req todo g := by
  obtain ⟨hcand, asked, hm, hle⟩ := hc
  refine ⟨hcand, asked++[p], by rw [hm]; simp, ?_⟩
  rw [countP_append, countP_singleton]
  simp only [decide_eq_true_eq]
  omega

theorem inv_tickReply {resp : VoteResp} (hd : c.delivers i (.tickReply resp))
    (hs : Effect cfg i (c.nodes i) (.tickReply resp) n' outs) : Inv cfg (c.put i n' outs) h := by
  cases hs with
  | preVoteReply => exact inv_down cfg c h hi i _ _ [] (stepsDown_refl _) (by simp) (by simp)
  | voteOutbid ht =>
    refine inv_down cfg c h hi i _ _ [] (becomeFollower_down _ _ 0) ?_ (by simp)
    intro req' todo' g' he
    cases he
    exact counted_pop cfg h (hi.round i _ _ _ ht) (Nat.le_add_right _ _)
  | @voteReply req p todo granted _ ht =>
    refine inv_down cfg c h hi i _ _ [] (stepsDown_refl _) ?_ (by simp)
    intro req' todo' g' he
    cases he
    have hc := hi.round i _ _ _ ht
    refine counted_pop cfg h hc (Nat.add_le_add_left ?_ _)
    -- a counted grant is a reply of this very request, so its vote is on record
    by_cases hgr : resp.voteGranted = true
    · have hp : Packet.voteResp p req resp ∈ c.net := hd _ (by simp [needs, ht])
      have hv := hi.reply p req resp hp hgr
      rw [hc.1] at hv
      simp [hgr, hv]
    · simp [hgr]

theorem inv_tickNext (hm : i ∈ cfg.members)
    (hs : Effect cfg i (c.nodes i) .tickNext n' outs) : h ≤ record cfg c (i, .act .tickNext) h ∧
    Inv cfg (c.put i n' outs) (record cfg c (i, .act .tickNext) h) := by
  have idle := inv_down cfg c h hi i _ .idle [] (stepsDown_refl _) (by simp) (by simp)
  unfold record
  cases hs with
  | poll ht =>
    simp only [ht]
    refine ⟨le_refl h, inv_down cfg c h hi i _ _ [] (stepsDown_refl _) ?_ (by simp)⟩
    intro req todo granted he
    cases he
    exact ⟨rfl, [], by rw [hi.peers i]; rfl, by simp⟩
  | stand ht hq =>
    simp only [ht, if_pos hq]
    have hf := hi.future ((c.nodes i).currentTerm+1) i (Nat.lt_succ_self _)
    refine ⟨cast_le h i i (.inl hf), ?_⟩
    exact inv_cast cfg c h hi i _ [] hm
      (Nat.le_succ _) rfl (.inl hf) (.inr (.inr ⟨rfl, Nat.lt_succ_self _, rfl⟩))
      (by simp) rfl (by simp)
  | preVoteLost ht hq =>
    simp only [ht, if_neg hq]
    exact ⟨le_refl h, idle⟩
  | @lead req granted ht hq =>
    simp only [ht, if_pos hq]
    obtain ⟨hn, hinv⟩ := inv_crown cfg c h hi hm (hi.round i _ _ _ ht) hq.1 hq.2.1 hq.2.2
    exact ⟨crown_le h _ i hn, hinv⟩
  | voteLost ht hq =>
    simp only [ht, if_neg hq]
    exact ⟨le_refl h, idle⟩

theorem inv_recvVote (i : ℕ) (req : VoteReq) : h ≤ record cfg c (i, .act (.recvVote req)) h ∧
    Inv cfg (c.put i (onRequestVote cfg (c.nodes i) req).1
      [.send (.voteResp i req (onRequestVote cfg (c.nodes i) req).2)])
      (record cfg c (i, .act (.recvVote req)) h) := by
  unfold record
  simp only
  rcases onRequestVote_cases cfg (c.nodes i) req with ⟨hg, hd⟩ | ⟨hg, hmem, hle, hv, _, hn⟩
  · simp only [hg, Bool.false_eq_true, if_false]
    refine ⟨le_refl h, ?_⟩
    have hk := inv_keep cfg c h hi [] hd (by simp)
    refine { hk with reply := ?_ }
    intro src req' resp hp hgr
    rcases reply_put c hp with hp | hp
    · exact hi.reply src req' resp hp hgr
    simp only [mem_singleton, Output.send.injEq, Packet.voteResp.injEq] at hp
    rw [hp.2.2, hg] at hgr
    simp at hgr
  simp only [hg, if_true]
  have hterm : (onRequestVote cfg (c.nodes i) req).1.currentTerm = req.term := by
    rw [hn]
    by_cases hlt : (c.nodes i).currentTerm < req.term
    · simp [hlt, Node.becomeFollower]
    · simp only [hlt, if_false]
      omega
  have hfree : h.voted req.term i = none ∨ h.voted req.term i = some req.candidateId := by
    by_cases hlt : (c.nodes i).currentTerm < req.term
    · exact .inl (hi.future _ _ hlt)
    have he : (c.nodes i).currentTerm = req.term := by omega
    cases hx : h.voted req.term i with
    | none => exact .inl rfl
    | some x =>
      have hb := hi.ballot i x (by rw [he]; exact hx)
      rcases hv he with h0 | h0
      · rw [← hb, h0] at hx
        exact absurd (hi.member _ _ _ hx) cfg.nonzero
      · rw [← hb, h0]
        exact .inr rfl
  refine ⟨cast_le h _ _ hfree, ?_⟩
  have hcast := inv_cast cfg c h hi i (onRequestVote cfg (c.nodes i) req).1
    [.send (.voteResp i req (onRequestVote cfg (c.nodes i) req).2)] hmem
    (by rw [hterm]; exact hle) (by rw [hn]) (by rw [hterm]; exact hfree) ?_ ?_ ?_ ?_
  · rwa [hterm] at hcast
  · rw [hn]
    by_cases hlt : (c.nodes i).currentTerm < req.term
    · exact .inr (.inl (by simp [hlt, Node.becomeFollower]))
    · exact .inl (by simp [hlt])
  · rw [hn]
    by_cases hlt : (c.nodes i).currentTerm < req.term <;> simp [hlt, Node.becomeFollower]
  · rw [hn]
    by_cases hlt : (c.nodes i).currentTerm < req.term <;> simp [hlt, Node.becomeFollower, peerIds]
  · intro src req' resp hp
    simp only [mem_singleton, Output.send.injEq, Packet.voteResp.injEq] at hp
    obtain ⟨rfl, rfl, _⟩ := hp
    exact ⟨rfl, hterm.symm, rfl⟩

theorem inv_event (hm : i ∈ cfg.members)
    (hd : c.delivers i ev) (hs : step cfg i (c.nodes i) ev = some (n', outs)) :
    h ≤ record cfg c (i, .act ev) h ∧ Inv cfg (c.put i n' outs) (record cfg c (i, .act ev) h) := by
  have he := step_effect hs
  cases ev with
  | tickStart =>
    cases he
    exact ⟨le_refl h, inv_down cfg c h hi i _ _ [] (stepsDown_refl _) (by simp) (by simp)⟩
  | tickAsk =>
    have ho := effect_unvoted cfg i (by simp) he
    cases he <;> exact ⟨le_refl h, inv_keep cfg c h hi _ (stepsDown_refl _) ho⟩
  | tickReply resp => exact ⟨le_refl h, inv_tickReply cfg c h hi hd he⟩
  | tickFail =>
    cases he with
    | preVoteFail =>
      exact ⟨le_refl h, inv_down cfg c h hi i _ _ [] (stepsDown_refl _) (by simp) (by simp)⟩
    | voteFail ht =>
      refine ⟨le_refl h, inv_down cfg c h hi i _ _ [] (stepsDown_refl _) ?_ (by simp)⟩
      intro req' todo' g' heq
      cases heq
      exact counted_pop cfg h (hi.round i _ _ _ ht) (Nat.le_add_right _ _)
  | tickNext => exact inv_tickNext cfg c h hi hm he
  | recvVote req =>
    cases he
    exact inv_recvVote cfg c h hi i req
  | _ =>
    obtain ⟨hdn, ho⟩ := step_down cfg i rfl hs
    exact ⟨le_refl h, inv_keep cfg c h hi _ hdn ho⟩

omit hi in
theorem record_boot (h : Votes) (ha : ∀ ev, a.2 ≠ .act ev) : record cfg c a h = h := by
  unfold record
  split
  · rename_i req hx
    exact absurd hx (ha _)
  · rename_i hx
    exact absurd hx (ha _)
  · rfl

theorem inv_step {c' : Cluster} (hs : c.step cfg a = some c') :
    h ≤ record cfg c a h ∧ Inv cfg c' (record cfg c a h) := by
  obtain ⟨hm, hc⟩ := step_cases hs
  rcases hc with ⟨ev, n', outs, ha, hd, hn, rfl⟩ | ⟨ev, k, ha, rfl⟩
  · obtain ⟨i, act⟩ := a
    cases ha
    exact inv_event cfg c h hi hm hd hn
  · rw [record_boot cfg c h ha]
    exact ⟨le_refl h, inv_keep cfg c h hi _ (boot_down cfg c h hi a.1 ev k _) (by simp)⟩

omit hi

theorem inv_run {as : List (ℕ × Action)} {c c' : Cluster} {h : Votes}
    (hi : Inv cfg c h) (hr : run (Cluster.step cfg) c as = some c') : ∃ h', h ≤ h' ∧ Inv cfg c' h' :=
  run_ghost _ (fun s g _ _ hg _ hs => ⟨_, inv_step cfg s g hg hs⟩)
    as c c' h hi (along_all (fun _ _ => trivial) c as) hr

def IsLeader (c : Cluster) (n term : ℕ) : Prop :=
  (c.nodes n).role = .leader ∧ (c.nodes n).currentTerm = term

instance (c : Cluster) (n term : ℕ) : Decidable (IsLeader c n term) := by
  unfold IsLeader
  infer_instance

/-- In every run, crashes between file writes included, a term has at most one leader. -/
theorem one_leader_per_term (cfg : Config) (as bs : List (ℕ × Action)) (c c' : Cluster)
    (a b term : ℕ) (hr : run (Cluster.step cfg) (Cluster.init cfg) as = some c)
    (hr' : run (Cluster.step cfg) c bs = some c') (ha : IsLeader c a term) (hb : IsLeader c' b term) :
    a = b := by
  obtain ⟨h, _, hi⟩ := inv_run cfg (inv_init cfg) hr
  obtain ⟨h', hle, hi'⟩ := inv_run cfg hi hr'
  have hla := hle.2 _ _ (hi.leader a ha.1)
  have hlb := hi'.leader b hb.1
  rw [ha.2] at hla
  rw [hb.2, hla] at hlb
  exact Option.some.inj hlb

def preVoteCall (self : ℕ) (req : VoteReq) : ℕ × Option ℕ → List (ℕ × Action)
  | (p, some t) => [(self, .act .tickAsk), (p, .act (.recvPreVote req false)),
    (self, .act (.tickReply ⟨t, true⟩))]
  | (_, none) => [(self, .act .tickFail)]

def voteCall (self : ℕ) (req : VoteReq) : ℕ × Option ℕ → List (ℕ × Action)
  | (p, some _) => [(self, .act .tickAsk), (p, .act (.recvVote req)),
    (self, .act (.tickReply ⟨req.term, true⟩))]
  | (_, none) => [(self, .act .tickFail)]

def campaign (self : ℕ) (req : VoteReq) (asks : List (ℕ × Option ℕ)) : List (ℕ × Action) :=
  (self, .act .tickStart)::(asks.flatMap (preVoteCall self req)++
    (self, .act .tickNext)::(self, .act .tickNext)::(asks.flatMap (voteCall self req)++
      [(self, .act .tickNext)]))

def threeNodes : Config := ⟨[1, 2, 3], 256, by decide, by decide⟩

theorem one_leader_three_nodes : ∃ c c', run (Cluster.step threeNodes) (Cluster.init threeNodes)
        (campaign 1 ⟨1, 1, 0, 0⟩ [(2, some 0), (3, none)]) = some c ∧
      run (Cluster.step threeNodes) c [(2, .restart), (1, .act (.propose .noop []))] = some c' ∧
      IsLeader c 1 1 ∧ IsLeader c' 1 1 ∧ ∀ b, IsLeader c' b 1 → 1 = b := by
  obtain ⟨c, hr, hl⟩ := run_reaches (Cluster.step threeNodes) (Cluster.init threeNodes)
    (campaign 1 ⟨1, 1, 0, 0⟩ [(2, some 0), (3, none)]) (fun c => IsLeader c 1 1) (by decide +kernel)
  obtain ⟨c', hr', hl'⟩ := run_reaches (Cluster.step threeNodes) (Cluster.init threeNodes)
    (campaign 1 ⟨1, 1, 0, 0⟩ [(2, some 0), (3, none)]++[(2, .restart), (1, .act (.propose .noop []))])
    (fun c => IsLeader c 1 1) (by decide +kernel)
  rw [run_append, hr, Option.bind_some] at hr'
  exact ⟨c, c', hr, hr', hl, hl', fun b hb => one_leader_per_term _ _ _ c c' 1 b 1 hr hr' hl hb⟩

end QEngine.RaftElection

import QEngine.RaftReplication

/-!
# Log matching

Every log in the cluster is rooted in those of the leaders, so entries of the same
index and term carry the same contents over the same beginning. The one step that can
break this is the rollback of a proposal that has timed out.
-/

namespace QEngine.RaftMatching
open List Function RaftLogRecord RaftNode RaftService RaftEffects RaftCluster LeaderLogs RaftElection
open RaftReplication StepRuns

def Carried (llog : ℕ → List Entry) (req : AppendReq) : Prop :=
  Beyond req ∨ ∃ M, Stands req M ∧ RootedFrom Entry.term llog req.prevLogIndex M ∧
    ∀ e ∈ M, 1 ≤ e.term

structure Matched (cfg : Config) (c : Cluster) (h : Votes) (llog : ℕ → List Entry) : Prop where
  outside : ∀ i, i ∉ cfg.members → (c.nodes i).log.entries = []
  plain : ∀ i, Plain (c.nodes i).log
  next : ∀ i, ∀ p ∈ (c.nodes i).peers, 1 ≤ p.nextIndex
  rooted : ∀ i, Rooted Entry.term llog (c.nodes i).log.entries
  pos : ∀ i, ∀ e ∈ (c.nodes i).log.entries, 1 ≤ e.term
  candidate : ∀ i, (c.nodes i).role = .candidate → 1 ≤ (c.nodes i).currentTerm
  leader : ∀ i, (c.nodes i).role = .leader →
    llog (c.nodes i).currentTerm = (c.nodes i).log.entries
  led : ∀ t n, h.lead t = some n → 1 ≤ t
  unled : ∀ t, h.lead t = none → llog t = []
  sent : ∀ dst req, Packet.appendReq dst req ∈ c.net →
    dst ≠ req.leaderId ∧ h.lead req.term = some req.leaderId
  carried : ∀ dst req, Packet.appendReq dst req ∈ c.net → Carried llog req

variable (cfg : Config)

theorem matched_init : Matched cfg (Cluster.init cfg) Votes.none (fun _ => []) where
  outside _ _ := rfl
  plain _ := plain_empty
  next i p hp := by
    obtain ⟨id, _, rfl⟩ := mem_map.mp hp
    exact Nat.le_add_left 1 _
  rooted _ := rooted_nil
  pos _ _ he := absurd he (by simp [Cluster.init, Node.boot, Log.empty])
  candidate _ hr := absurd hr (by simp [Cluster.init, Node.boot])
  leader _ hr := absurd hr (by simp [Cluster.init, Node.boot])
  led _ _ hl := absurd hl (by simp [Votes.none])
  unled _ _ := rfl
  sent _ _ hm := absurd hm (by simp [Cluster.init, Cluster.net])
  carried _ _ hm := absurd hm (by simp [Cluster.init, Cluster.net])

def publish (n : Node) (llog : ℕ → List Entry) : ℕ → List Entry :=
  if n.role = .leader then update llog n.currentTerm n.log.entries else llog

variable {i : ℕ} {req : AppendReq} {type : EntryType} {n n' : Node} {payload : ByteFields.Bytes}
  {outs : List Output} {llog : ℕ → List Entry}

theorem publish_leader (llog : ℕ → List Entry) (h : n.role = .leader) :
  publish n llog = update llog n.currentTerm n.log.entries := if_pos h

theorem publish_grows (h : n.role = .leader)
    (hg : llog n.currentTerm <+: n.log.entries) (t : ℕ) : llog t <+: publish n llog t := by
  rw [publish_leader _ h]
  by_cases ht : t = n.currentTerm
  · rw [ht, update_self]
    exact hg
  · rw [update_of_ne ht]

theorem carried_mono {llog' : ℕ → List Entry} (hg : ∀ t, llog t <+: llog' t)
    (h : Carried llog req) : Carried llog' req := by
  rcases h with h | ⟨M, hs, hr, hp⟩
  · exact .inl h
  · exact .inr ⟨M, hs, rootedFrom_mono hg hr, hp⟩

variable (c : Cluster) (h : Votes)

theorem matched_put {h' : Votes} {llog' : ℕ → List Entry}
    (hm : Matched cfg c h llog) (hi : i ∈ cfg.members) (outs : List Output)
    (hle : h ≤ h') (hroot : ∀ j, j ≠ i → Rooted Entry.term llog' (c.nodes j).log.entries)
    (hcar : ∀ dst req, Packet.appendReq dst req ∈ c.net → Carried llog' req) (hp : Plain n'.log)
    (hn : ∀ p ∈ n'.peers, 1 ≤ p.nextIndex) (hr : Rooted Entry.term llog' n'.log.entries)
    (hpos : ∀ e ∈ n'.log.entries, 1 ≤ e.term) (hc : n'.role = .candidate → 1 ≤ n'.currentTerm)
    (hl : n'.role = .leader → llog' n'.currentTerm = n'.log.entries)
    (ho : ∀ j, j ≠ i → (c.nodes j).role = .leader →
      llog' (c.nodes j).currentTerm = llog (c.nodes j).currentTerm)
    (hled : ∀ t n, h'.lead t = some n → 1 ≤ t) (hun : ∀ t, h'.lead t = none → llog' t = [])
    (hs : ∀ dst req, Output.send (.appendReq dst req) ∈ outs →
      (dst ≠ req.leaderId ∧ h'.lead req.term = some req.leaderId) ∧ Carried llog' req) :
    Matched cfg (c.put i n' outs) h' llog' := by
  have hout : ∀ dst req, Packet.appendReq dst req ∈ (c.put i n' outs).net →
      (dst ≠ req.leaderId ∧ h'.lead req.term = some req.leaderId) ∧ Carried llog' req := by
    intro dst req hq
    rcases reply_put c hq with hq | hq
    · obtain ⟨h1, h2⟩ := hm.sent dst req hq
      exact ⟨⟨h1, hle.2 _ _ h2⟩, hcar dst req hq⟩
    · exact hs dst req hq
  refine ⟨?_, ?_, ?_, ?_, ?_, ?_, ?_, hled, hun, fun d r hq => (hout d r hq).1, fun d r hq => (hout d r hq).2⟩
  · exact put_forall (fun j n => j ∉ cfg.members → n.log.entries = []) c i n' _
      (fun hx => absurd hi hx) (fun j _ => hm.outside j)
  · exact put_forall (fun _ n => Plain n.log) c i n' _ hp fun j _ => hm.plain j
  · exact put_forall (fun _ n => ∀ p ∈ n.peers, 1 ≤ p.nextIndex) c i n' _ hn
      (fun j _ => hm.next j)
  · exact put_forall (fun _ n => Rooted Entry.term llog' n.log.entries) c i n' _ hr hroot
  · exact put_forall (fun _ n => ∀ e ∈ n.log.entries, 1 ≤ e.term) c i n' _ hpos
      (fun j _ => hm.pos j)
  · exact put_forall (fun _ n => n.role = .candidate → 1 ≤ n.currentTerm) c i n' _ hc
      (fun j _ => hm.candidate j)
  · exact put_forall (fun _ n => n.role = .leader → llog' n.currentTerm = n.log.entries) c i n'
      _ hl (fun j hj hlead => (ho j hj hlead).trans (hm.leader j hlead))

theorem matched_keep (h' : Votes)
    (hm : Matched cfg c h llog) (hi : i ∈ cfg.members) (outs : List Output)
    (hle : h ≤ h') (hlead : h'.lead = h.lead) (hp : Plain n'.log)
    (hn : ∀ p ∈ n'.peers, 1 ≤ p.nextIndex) (hr : Rooted Entry.term llog n'.log.entries)
    (hpos : ∀ e ∈ n'.log.entries, 1 ≤ e.term)
    (hrole : (n'.role = (c.nodes i).role ∧ n'.currentTerm = (c.nodes i).currentTerm) ∨ n'.role = .follower)
    (hlog : n'.role = .leader → n'.log = (c.nodes i).log)
    (hs : ∀ dst req, Output.send (.appendReq dst req) ∈ outs →
      (dst ≠ req.leaderId ∧ h.lead req.term = some req.leaderId) ∧ Carried llog req) :
    Matched cfg (c.put i n' outs) h' (publish n' llog) := by
  have hl : n'.role = .leader → llog n'.currentTerm = n'.log.entries := by
    intro hx
    rcases hrole with ⟨h1, h2⟩ | h1
    · rw [h2, hlog hx]
      exact hm.leader i (h1 ▸ hx)
    · rw [h1] at hx
      simp at hx
  have hpub : publish n' llog = llog := by
    unfold publish
    split
    · rename_i hx
      rw [← hl hx, update_eq_self]
    · rfl
  rw [hpub]
  refine matched_put cfg c h hm hi _ hle (fun j _ => hm.rooted j) hm.carried hp hn hr
    hpos ?_ hl (fun _ _ _ => rfl) ?_ ?_ ?_
  · intro hx
    rcases hrole with ⟨h1, h2⟩ | h1
    · rw [h2]
      exact hm.candidate i (h1 ▸ hx)
    · rw [h1] at hx
      simp at hx
  · rw [hlead]
    exact hm.led
  · rw [hlead]
    exact hm.unled
  · rw [hlead]
    exact hs

theorem matched_lead (h' : Votes)
    (hm : Matched cfg c h llog) (hv : Inv cfg c h) (hi : i ∈ cfg.members)
    (outs : List Output) (hle : h ≤ h') (hrole : n'.role = .leader) (hlead : h'.lead n'.currentTerm = some i)
    (hother : ∀ t, t ≠ n'.currentTerm → h'.lead t = h.lead t) (hterm : 1 ≤ n'.currentTerm)
    (hgrow : llog n'.currentTerm <+: n'.log.entries) (hp : Plain n'.log)
    (hn : ∀ p ∈ n'.peers, 1 ≤ p.nextIndex)
    (hr : Rooted Entry.term (publish n' llog) n'.log.entries) (hpos : ∀ e ∈ n'.log.entries, 1 ≤ e.term)
    (hs : ∀ dst req, Output.send (.appendReq dst req) ∉ outs) :
    Matched cfg (c.put i n' outs) h' (publish n' llog) := by
  have hg := publish_grows hrole hgrow
  rw [publish_leader _ hrole] at hr hg ⊢
  refine matched_put cfg c h hm hi _ hle (fun j _ => rootedFrom_mono hg (hm.rooted j))
    (fun d q hq => carried_mono hg (hm.carried d q hq)) hp hn hr hpos ?_ ?_ ?_ ?_ ?_
    (fun d r hx => absurd hx (hs d r))
  · intro hc
    rw [hrole] at hc
    simp at hc
  · intro _
    rw [update_self]
  · intro j hj hjl
    have hne : (c.nodes j).currentTerm ≠ n'.currentTerm := by
      intro ht
      have h1 := hle.2 _ _ (hv.leader j hjl)
      rw [ht, hlead] at h1
      exact hj (Option.some.inj h1).symm
    rw [update_of_ne hne]
  · intro t n ht
    by_cases htc : t = n'.currentTerm
    · rw [htc]
      exact hterm
    · rw [hother t htc] at ht
      exact hm.led t n ht
  · intro t ht
    have htc : t ≠ n'.currentTerm := by
      rintro rfl
      rw [hlead] at ht
      simp at ht
    rw [update_of_ne htc]
    rw [hother t htc] at ht
    exact hm.unled t ht

theorem accept_spec {l : Log} {M : List Entry}
    (hl : Plain l) (hr : Rooted Entry.term llog l.entries) (hs : Stands req M)
    (hM : RootedFrom Entry.term llog req.prevLogIndex M)
    (hprev : 0 < req.prevLogIndex → req.prevLogIndex ≤ l.lastIndex ∧
      l.termAt req.prevLogIndex = req.prevLogTerm) :
    Rooted Entry.term llog M ∧ Plain (insertEntries l req.entries).1 ∧
    (((insertEntries l req.entries).1 = l ∧ M <+: l.entries) ∨
      (¬M <+: l.entries ∧ ∃ j, (∀ p, p <+: l.entries → p <+: M → p.length ≤ j) ∧
        (insertEntries l req.entries).1.entries = M.take j ∧
        ((insertEntries l req.entries).2 = true → M.length ≤ j))) := by
  have hlast := plain_last l hl
  have htake : req.prevLogIndex ≤ l.entries.length ∧
      l.entries.take req.prevLogIndex = M.take req.prevLogIndex := by
    cases hk : req.prevLogIndex with
    | zero => exact ⟨Nat.zero_le _, by rw [take_zero, take_zero]⟩
    | succ j =>
      obtain ⟨h1, h2⟩ := hprev (by omega)
      obtain ⟨f, hf, hft⟩ := hs.prev j hk
      have hj : j < l.entries.length := by omega
      rw [hk, plain_termAt l hl j, getElem?_eq_getElem hj] at h2
      exact ⟨by omega, rooted_agree hr hM (by omega)
        (getElem?_eq_getElem hj) hf (h2.trans hft.symm)⟩
  refine ⟨rooted_splice hr hM htake.2, ?_⟩
  have hspec := insert_spec hs.numbered hl _ hs.length
    htake.1 htake.2 (fun x e f hx he hf ht =>
      rooted_agree hr hM (by omega) he hf ht)
  rwa [hs.entries] at hspec

theorem recvAppend_rooted (hl : Plain n.log)
    (hr : Rooted Entry.term llog n.log.entries) (hpos : ∀ e ∈ n.log.entries, 1 ≤ e.term)
    (hc : Carried llog req) :
    Plain (onAppendEntries n req).1.log ∧ Rooted Entry.term llog (onAppendEntries n req).1.log.entries ∧
    ∀ e ∈ (onAppendEntries n req).1.log.entries, 1 ≤ e.term := by
  rcases onAppend_cases n req with ⟨_, h⟩ | ⟨ht, _, _, h⟩ | ⟨ht, hp, _, _, h⟩ | ⟨_, hprev, l, ok, hins, _, h⟩
  · rw [h]
    exact ⟨hl, hr, hpos⟩
  · rw [h]
    obtain ⟨_, hlog, _⟩ := hearLeader_fields n _ _ ht
    rw [hlog]
    exact ⟨hl, hr, hpos⟩
  · rw [h]
    obtain ⟨j, hj⟩ : ∃ j, req.prevLogIndex = j+1 := ⟨req.prevLogIndex-1, by omega⟩
    obtain ⟨h1, h2⟩ := plain_truncate _ hl j
    rw [hj, h2]
    exact ⟨h1, rooted_take j hr, fun e he => hpos e (mem_of_mem_take he)⟩
  rw [h]
  rcases hc with ⟨_, hp, h0⟩ | ⟨M, hs, hM, hMp⟩
  · -- a request built past the leader's log names term zero, which no entry has
    obtain ⟨h1, h2⟩ := hprev hp
    obtain ⟨j, hj⟩ : ∃ j, req.prevLogIndex = j+1 := ⟨req.prevLogIndex-1, by omega⟩
    have hjl : j < n.log.entries.length := by
      rw [plain_last _ hl] at h1
      omega
    rw [hj, plain_termAt _ hl j, getElem?_eq_getElem hjl, h0] at h2
    have := hpos _ (getElem_mem hjl)
    simp at h2
    omega
  obtain ⟨hroot, hplain, hcase⟩ := accept_spec hl hr hs hM hprev
  rw [hins] at hplain hcase
  refine ⟨hplain, ?_⟩
  rcases hcase with ⟨h1, _⟩ | ⟨_, j, _, h1, _⟩
  · dsimp only at h1
    rw [h1]
    exact ⟨hr, hpos⟩
  rw [h1]
  exact ⟨rooted_take j hroot, fun e he => hMp e (mem_of_mem_take he)⟩

theorem record_lead (i : ℕ) (ev : Event) (h : Votes)
    (he : ev ≠ .tickNext) : (record cfg c (i, .act ev) h).lead = h.lead := by
  unfold record
  cases ev with
  | tickNext => exact absurd rfl he
  | recvVote req =>
    dsimp only
    split <;> rfl
  | _ => rfl

variable (hm : Matched cfg c h llog)

include hm

theorem matched_quiet {h' : Votes}
    (hi : i ∈ cfg.members) (hle : h ≤ h') (hlead : h'.lead = h.lead) (hq : Quiet (c.nodes i) n' outs) :
    Matched cfg (c.put i n' outs) h' (publish n' llog) := by
  refine matched_keep cfg c h h' hm hi _ hle hlead ?_ ?_ ?_ ?_ hq.role
    (fun _ => hq.log) (fun d r hx => absurd hx (hq.requests d r))
  · rw [hq.log]
    exact hm.plain i
  · rw [hq.peers]
    exact hm.next i
  · rw [hq.log]
    exact hm.rooted i
  · rw [hq.log]
    exact hm.pos i

omit hm in
theorem matched_frame (llog : ℕ → List Entry)
    (hm : Matched cfg c h llog) (i : ℕ) (hi : i ∈ cfg.members) (n' : Node) (outs : List Output)
    (hd : StepsDown (c.nodes i) n') (hlog : n'.log = (c.nodes i).log) (hn : ∀ p ∈ n'.peers, 1 ≤ p.nextIndex)
    (hs : ∀ dst req, Output.send (.appendReq dst req) ∈ outs →
      (dst ≠ req.leaderId ∧ h.lead req.term = some req.leaderId) ∧ Carried llog req) :
    Matched cfg (c.put i n' outs) h (publish n' llog) := by
  refine matched_keep cfg c h h hm hi _ (le_refl h) rfl ?_ hn ?_ ?_ hd.role
    (fun _ => hlog) hs
  · rw [hlog]
    exact hm.plain i
  · rw [hlog]
    exact hm.rooted i
  · rw [hlog]
    exact hm.pos i

omit hm in
theorem becomeLeader_next (n : Node) (self : ℕ) : ∀ p ∈ (n.becomeLeader self).peers,
    p.nextIndex = n.log.lastIndex+1 ∧ p.matchIndex = 0 := by
  intro p hp
  obtain ⟨q, _, rfl⟩ := mem_map.mp hp
  exact ⟨rfl, rfl⟩

variable (hv : Inv cfg c h)

include hv

theorem matched_tickNext (hi : i ∈ cfg.members)
    (hs : Effect cfg i (c.nodes i) .tickNext n' outs) :
    Matched cfg (c.put i n' outs) (record cfg c (i, .act .tickNext) h) (publish n' llog) := by
  have hle := (inv_tickNext cfg c h hv hi hs).1
  have idle : ∀ t, Matched cfg (c.put i { c.nodes i with tick := t } []) h
      (publish { c.nodes i with tick := t } llog) := fun t =>
    matched_keep cfg c h h hm hi [] (le_refl h) rfl (hm.plain i) (hm.next i)
      (hm.rooted i) (hm.pos i) (.inl ⟨rfl, rfl⟩) (fun _ => rfl) (by simp)
  unfold record at hle ⊢
  cases hs with
  | poll ht =>
    simp only [ht]
    exact idle _
  | stand ht hq =>
    simp only [ht, if_pos hq] at hle ⊢
    refine matched_put cfg c h hm hi [] hle (fun j _ => hm.rooted j) hm.carried
      (hm.plain i) (hm.next i) (hm.rooted i) (hm.pos i) (fun _ => Nat.le_add_left 1 _) ?_
      (fun _ _ _ => rfl) hm.led hm.unled (by simp)
    intro hx
    simp [Node.becomeCandidate] at hx
  | preVoteLost ht hq =>
    simp only [ht, if_neg hq]
    exact idle _
  | @lead req granted ht hq =>
    simp only [ht, if_pos hq] at hle ⊢
    obtain ⟨hnone, _⟩ := inv_crown cfg c h hv hi (hv.round i _ _ _ ht) hq.1 hq.2.1 hq.2.2
    have hgrow : llog (c.nodes i).currentTerm <+: (c.nodes i).log.entries := by
      rw [hm.unled _ hnone]
      exact nil_prefix
    refine matched_lead cfg c h _ hm hv hi [] hle rfl ?_ ?_ (hm.candidate i hq.1)
      hgrow (hm.plain i) ?_ ?_ (hm.pos i) (by simp)
    · exact if_pos rfl
    · exact fun t hne => if_neg hne
    · intro p hp
      rw [(becomeLeader_next _ i p hp).1]
      exact Nat.le_add_left 1 _
    · exact rootedFrom_mono (publish_grows rfl hgrow) (hm.rooted i)
  | voteLost ht hq =>
    simp only [ht, if_neg hq]
    exact idle _

omit hm in
omit hv in
theorem propose_extends {self : ℕ}
      (hl : Plain n.log)
    (h : Effect cfg self n (.propose type payload) n' outs) :
    n.role = .leader ∧ n'.role = .leader ∧ n'.currentTerm = n.currentTerm ∧ Plain n'.log ∧
    n'.peers = n.peers ∧
    n'.log.entries = n.log.entries++[⟨n.log.entries.length+1, n.currentTerm, type.code, payload⟩] ∧
    n'.lastApplied = n.lastApplied ∧ n'.apply = n.apply ∧ outs = [] := by
  cases h with
  | @propose _ _ l idx hr ha =>
    obtain ⟨N, hN⟩ := advanceCommit_eq _
    obtain ⟨hp, _, he⟩ := plain_append _ hl ha
    rw [hN]
    exact ⟨hr, hr, rfl, hp, rfl, he, rfl, rfl, rfl⟩

theorem matched_propose (hi : i ∈ cfg.members)

    (hs : Effect cfg i (c.nodes i) (.propose type payload) n' outs) :
    Matched cfg (c.put i n' outs) h (publish n' llog) := by
  obtain ⟨hr, hr', ht, hp, hpeers, he, _, _, rfl⟩ := propose_extends cfg (hm.plain i) hs
  have hlead := hv.leader i hr
  have hterm := hm.led _ _ hlead
  have hll := hm.leader i hr
  have hgrow : llog n'.currentTerm <+: n'.log.entries := by
    rw [ht, hll, he]
    exact prefix_append _ _
  refine matched_lead cfg c h h hm hv hi [] (le_refl h) hr' (by rw [ht]; exact hlead)
    (fun _ _ => rfl) (by rw [ht]; exact hterm) hgrow hp (by rw [hpeers]; exact hm.next i) ?_ ?_
    (by simp)
  · rw [he]
    refine rooted_concat _ (rootedFrom_mono (publish_grows hr' hgrow) (hm.rooted i)) ?_
    rw [publish_leader _ hr', ht, update_self, he]
  intro e hx
  rw [he] at hx
  rcases mem_append.mp hx with hx | hx
  · exact hm.pos i e hx
  · rw [mem_singleton.mp hx]
    exact hterm

theorem recvAppend_follows 
    (hnet : Packet.appendReq i req ∈ c.net) (ht : (c.nodes i).currentTerm ≤ req.term) :
    (onAppendEntries (c.nodes i) req).1.currentTerm = req.term ∧
    (onAppendEntries (c.nodes i) req).1.role = .follower := by
  have hheard : (onAppendEntries (c.nodes i) req).1.currentTerm = req.term ∧
      (onAppendEntries (c.nodes i) req).1.role =
        ((c.nodes i).hearLeader req.term req.leaderId).role := by
    have hf := hearLeader_fields (c.nodes i) req.term req.leaderId ht
    rcases onAppend_cases (c.nodes i) req with ⟨hx, _⟩ | ⟨_, _, _, hx⟩ | ⟨_, _, _, _, hx⟩ |
      ⟨_, _, l, ok, _, _, hx⟩
    · omega
    all_goals
      rw [hx]
      exact ⟨hf.1, rfl⟩
  refine ⟨hheard.1, ?_⟩
  rw [hheard.2]
  unfold Node.hearLeader
  by_cases hlt : (c.nodes i).currentTerm < req.term
  · rw [if_pos hlt]
    rfl
  rw [if_neg hlt]
  cases hr : (c.nodes i).role with
  | follower => rfl
  | candidate => rfl
  | leader =>
    obtain ⟨hne, hlead⟩ := hm.sent i req hnet
    have hme := hv.leader i hr
    rw [show (c.nodes i).currentTerm = req.term by omega, hlead] at hme
    exact absurd (Option.some.inj hme).symm hne

theorem recvAppend_leader (hnet : Packet.appendReq i req ∈ c.net)
    (hr : (onAppendEntries (c.nodes i) req).1.role = .leader) :
    (onAppendEntries (c.nodes i) req).1 = c.nodes i := by
  by_cases hlt : req.term < (c.nodes i).currentTerm
  · rw [onAppendEntries, if_pos hlt]
  · rw [(recvAppend_follows cfg c h hm hv hnet (by omega)).2] at hr
    simp at hr

theorem matched_recvAppend (hi : i ∈ cfg.members)
    (hnet : Packet.appendReq i req ∈ c.net) (outs : List Output)
    (ho : ∀ dst req, Output.send (.appendReq dst req) ∉ outs) :
    Matched cfg (c.put i (onAppendEntries (c.nodes i) req).1 outs) h
      (publish (onAppendEntries (c.nodes i) req).1 llog) := by
  obtain ⟨h1, h2, h3⟩ := recvAppend_rooted (hm.plain i) (hm.rooted i) (hm.pos i)
    (hm.carried i req hnet)
  refine matched_keep cfg c h h hm hi _ (le_refl h) rfl h1 ?_ h2 h3
    (onAppendEntries_down _ req).role ?_ (fun d r hx => absurd hx (ho d r))
  · rw [(onAppendEntries_kept ..).2]
    exact hm.next i
  · intro hr
    rw [recvAppend_leader cfg c h hm hv hnet hr]

theorem matched_replicate (hi : i ∈ cfg.members) {peer : ℕ}
      (hs : Effect cfg i (c.nodes i) (.replicate peer) n' outs) :
    Matched cfg (c.put i n' outs) h (publish n' llog) := by
  have hd := effect_down cfg i rfl hs
  obtain ⟨hr, hlog, _, _, _, _, _, hpeer, hpeers, req, p, rfl, _, _, ht, hid, _, hreq⟩ :=
    replicate_spec (hm.plain i) (hm.next i) hs
  refine matched_frame cfg c h _ hm i hi n' _ hd hlog ?_ ?_
  · intro p' hp'
    obtain ⟨_, _, _, _, q, hq, he⟩ := hpeers p' hp'
    rw [he]
    exact hm.next i q hq
  intro dst req' hx
  simp only [mem_singleton, Output.send.injEq, Packet.appendReq.injEq] at hx
  obtain ⟨rfl, rfl⟩ := hx
  refine ⟨⟨?_, ?_⟩, ?_⟩
  · rw [hv.peers i, mem_filter] at hpeer
    rw [hid]
    simpa using hpeer.2
  · rw [ht, hid]
    exact hv.leader i hr
  · rcases hreq with ⟨_, hb⟩ | ⟨k, _, hst⟩
    · exact .inl hb
    · exact .inr ⟨_, hst, rootedFrom_of_rooted (rooted_take k (hm.rooted i)),
        fun e he => hm.pos i e (mem_of_mem_take he)⟩

def Packet.names (index term : ℕ) : Packet → Bool
  | .appendReq _ req => req.entries.any (fun e => e.index == index && e.term == term) ||
    (req.prevLogIndex == index && req.prevLogTerm == term)
  | _ => false

/-- No other node and no packet has the entry of this index in the node's
current term. -/
def Unseen (cfg : Config) (c : Cluster) (i index : ℕ) : Prop :=
  (∀ j ∈ cfg.members, j ≠ i → ∀ e ∈ (c.nodes j).log.entries,
    ¬(e.index = index ∧ e.term = (c.nodes i).currentTerm)) ∧
  ∀ p ∈ c.net, Packet.names index (c.nodes i).currentTerm p = false

instance (cfg : Config) (c : Cluster) (i index : ℕ) : Decidable (Unseen cfg c i index) := by
  unfold Unseen
  infer_instance

theorem matched_rollback (hi : i ∈ cfg.members) {k : ℕ}
    (hr : (c.nodes i).role = .leader) (hk : (c.nodes i).log.entries.length = k+1)
    (hu : Unseen cfg c i (k+1))
    (hrole : n'.role = (c.nodes i).role) (ht : n'.currentTerm = (c.nodes i).currentTerm)
    (hpeers : n'.peers = (c.nodes i).peers) (hlog : n'.log = (c.nodes i).log.truncate (k+1))
    (ho : ∀ p, Output.send p ∉ outs) : Matched cfg (c.put i n' outs) h (publish n' llog) := by
  obtain ⟨hp, he⟩ := plain_truncate _ (hm.plain i) k
  have hll := hm.leader i hr
  have hpub : publish n' llog = update llog (c.nodes i).currentTerm
      ((llog (c.nodes i).currentTerm).take k) := by
    rw [publish_leader _ (hrole.trans hr), ht, hlog, he, hll]
  -- an entry of the leader's term sits inside the leader's log, so below its last place
  have hin : ∀ m l x e, RootedFrom Entry.term llog m l → m ≤ x+1 → l[x]? = some e →
      e.term = (c.nodes i).currentTerm → x < k ∨ x = k := by
    intro m l x e hl hmx hx hxt
    have hpre := (hl x e hmx hx).length_le
    have hxl := (List.getElem?_eq_some_iff.mp hx).1
    rw [hxt, hll, hk, length_take, min_eq_left (by omega)] at hpre
    omega
  have hroot : ∀ j, Rooted Entry.term (publish n' llog) ((c.nodes j).log.entries.take
      (if j = i then k else (c.nodes j).log.entries.length)) := by
    intro j
    rw [hpub]
    refine rootedFrom_replace _ k (rooted_take _ (hm.rooted j)) ?_
    intro x e _ hx hxt
    obtain ⟨hxk, hx'⟩ := get_take hx
    rcases hin 0 _ x e (hm.rooted j) (Nat.zero_le _) hx' hxt with hlt | heq
    · exact hlt
    exfalso
    by_cases hj : j = i
    · rw [if_pos hj] at hxk
      omega
    have hmem : j ∈ cfg.members := by
      by_contra hno
      rw [hm.outside j hno] at hx'
      simp at hx'
    exact hu.1 j hmem hj e (mem_of_getElem? hx')
      ⟨by rw [plain_numbered _ (hm.plain j) x e hx', heq], hxt⟩
  refine matched_put cfg c h hm hi _ le_rfl ?_ ?_ (hlog ▸ hp) (hpeers ▸ hm.next i) ?_ ?_ ?_ ?_ ?_ hm.led ?_
    fun _ _ hq => absurd hq (ho _)
  · intro j hj
    have := hroot j
    rwa [if_neg hj, take_length] at this
  · intro dst req hq
    rcases hm.carried dst req hq with hb | ⟨M, hs, hM, hMp⟩
    · exact .inl hb
    refine .inr ⟨M, hs, ?_, hMp⟩
    rw [hpub]
    refine rootedFrom_replace _ k hM ?_
    intro x e hmx hx hxt
    rcases hin _ M x e hM hmx hx hxt with hlt | heq
    · exact hlt
    exfalso
    have hnames := hu.2 _ hq
    have hidx := hs.numbered x e hx
    simp only [Packet.names, Bool.or_eq_false_iff, any_eq_false] at hnames
    by_cases hpx : req.prevLogIndex = x+1
    · obtain ⟨f, hf, hft⟩ := hs.prev x hpx
      rw [hx] at hf
      cases hf
      simp [hpx, heq, ← hft, hxt] at hnames
    have hmem : e ∈ req.entries := by
      rw [← hs.entries]
      apply mem_of_getElem? (i := x-req.prevLogIndex)
      rw [getElem?_drop, show req.prevLogIndex+(x-req.prevLogIndex) = x by omega]
      exact hx
    exact hnames.1 e hmem (by simp [hidx, heq, hxt])
  · have := hroot i
    rw [if_pos rfl] at this
    rw [hlog, he]
    exact this
  · intro e hx
    rw [hlog, he] at hx
    exact hm.pos i e (mem_of_mem_take hx)
  · rw [hrole, ht]
    exact hm.candidate i
  · intro _
    rw [publish_leader _ (hrole.trans hr), update_self]
  · intro j hj hjl
    have hne : (c.nodes j).currentTerm ≠ (c.nodes i).currentTerm := by
      intro heq
      have h1 := hv.leader j hjl
      rw [heq, hv.leader i hr] at h1
      exact hj (Option.some.inj h1).symm
    rw [hpub, update_of_ne hne]
  · intro t hx
    have hne : t ≠ (c.nodes i).currentTerm := by
      rintro rfl
      rw [hv.leader i hr] at hx
      exact absurd hx (by simp)
    rw [hpub, update_of_ne hne]
    exact hm.unled t hx

/-- The condition under which a rollback is harmless: the proposer that gives
up removes an entry that has not left its node. -/
def rollbackUnseen (cfg : Config) (c : Cluster) (a : ℕ × Action) : Prop :=
  match a.2 with
  | .act (.timeout w) =>
    ((c.nodes a.1).waiters[w]?).elim True (fun x =>
      x.parked = true ∧ RollsBack (c.nodes a.1) x.entry.index → Unseen cfg c a.1 x.entry.index)
  | _ => True

instance (cfg : Config) (c : Cluster) (a : ℕ × Action) : Decidable (rollbackUnseen cfg c a) := by
  unfold rollbackUnseen
  split <;> infer_instance

theorem matched_timeout (hi : i ∈ cfg.members) {w : ℕ}
    (hu : rollbackUnseen cfg c (i, .act (.timeout w)))
    (hs : Effect cfg i (c.nodes i) (.timeout w) n' outs) :
    Matched cfg (c.put i n' outs) h (publish n' llog) := by
  have hd := effect_down cfg i rfl hs
  cases hs with
  | @rollBack _ x hx hpark hroll =>
    simp only [rollbackUnseen, hx] at hu
    have hu := hu ⟨hpark, hroll⟩
    obtain ⟨hr, hcom, hlast, _⟩ := hroll
    obtain ⟨k, hk⟩ : ∃ k, x.entry.index = k+1 := ⟨x.entry.index-1, by omega⟩
    rw [hk] at hu hlast
    refine matched_rollback cfg c h hm hv hi hr ?_ hu rfl rfl rfl (by rw [hk]) (by simp)
    rw [← plain_last _ (hm.plain i)]
    exact hlast.symm
  | giveUp => exact matched_frame cfg c h _ hm i hi _ _ hd rfl (hm.next i) (by simp)

theorem matched_event (hi : i ∈ cfg.members) {ev : Event}
    (hc : uncompacted cfg c (i, .act ev) = true) (hu : rollbackUnseen cfg c (i, .act ev))
      (hdel : c.delivers i ev) (hs : step cfg i (c.nodes i) ev = some (n', outs)) :
    Matched cfg (c.put i n' outs) (record cfg c (i, .act ev) h) (publish n' llog) := by
  by_cases hq : Event.quiet ev = true
  · exact matched_quiet cfg c h hm hi (inv_event cfg c h hv hi hdel hs).1
      (record_lead cfg c i ev h (by rintro rfl; simp [Event.quiet] at hq))
      (step_quiet hq hs)
  have he := step_effect hs
  cases ev with
  | tickNext => exact matched_tickNext cfg c h hm hv hi he
  | recvAppend req =>
    cases he
    exact matched_recvAppend cfg c h hm hv hi (hdel _ rfl) _ (by simp)
  | propose type payload => exact matched_propose cfg c h hm hv hi he
  | timeout w => exact matched_timeout cfg c h hm hv hi hu he
  | replicate peer => exact matched_replicate cfg c h hm hv hi he
  | replicateReply peer req resp =>
    have hd := effect_down cfg i rfl he
    cases he
    obtain ⟨h1, h2⟩ := mergeReply_plain (returned (c.nodes i) peer req) peer req resp (hm.next i)
    exact matched_frame cfg c h llog hm i hi _ _ hd h1 h2 (by simp)
  | applyStep rc =>
    obtain ⟨hlog, _, hpeers, _, _, ho⟩ := applyStep_plain cfg i _ rc n' _
      (fun idx commit term ha => by simpa [uncompacted, ha] using hc) he
    refine matched_frame cfg c h _ hm i hi n' _ (effect_down cfg i rfl he) hlog ?_
      (fun d r hx => absurd hx (ho _))
    rw [hpeers]
    exact hm.next i
  | tickStart | tickAsk | tickReply _ | tickFail | checkQuorum _ | recvPreVote _ _ | recvVote _
  | wake _ | replicateFail _ _ | replicateDone => exact absurd rfl hq
  | recvInstall _ | installStep _ _ | transferStart _ _ | transferSend _ | transferAck _ _
  | transferAbort _ | transferDone _ => simp [uncompacted] at hc

theorem matched_step {a : ℕ × Action}
    (hc : uncompacted cfg c a = true) (hu : rollbackUnseen cfg c a)
    {c' : Cluster} (hs : c.step cfg a = some c') :
    Matched cfg c' (record cfg c a h) (publish (c'.nodes a.1) llog) := by
  obtain ⟨i, act⟩ := a
  obtain ⟨hi, ⟨ev, n', outs, hact, hd, he, rfl⟩ | ⟨ev, k, hno, rfl⟩⟩ := step_cases hs
  · subst hact
    rw [put_self]
    exact matched_event cfg c h hm hv hi hc hu hd he
  rw [record_boot cfg c h hno, put_self]
  refine matched_frame cfg c h _ hm i hi _ [] (boot_down cfg c h hv i ev k _) rfl ?_ (by simp)
  intro p hp
  obtain ⟨id, _, rfl⟩ := mem_map.mp hp
  exact Nat.le_add_left 1 _

omit hv

/-- Two logs that hold an entry of the same index and term hold the same
entry there, and agree on every earlier index they both hold. -/
def LogsMatch (c : Cluster) : Prop :=
  ∀ i j x e f, (c.nodes i).log.read x = some e → (c.nodes j).log.read x = some f →
    e.term = f.term → e.type = f.type ∧ e.payload = f.payload ∧
      ∀ y a b, y < x → (c.nodes i).log.read y = some a → (c.nodes j).log.read y = some b → a = b

theorem matched_logs : LogsMatch c := by
  intro i j x e f he hf ht
  have hread : ∀ i y a, (c.nodes i).log.read y = some a →
      ∃ z, y = z+1 ∧ (c.nodes i).log.entries[z]? = some a := by
    intro i y a hy
    cases y with
    | zero => simp [Log.read] at hy
    | succ z => exact ⟨z, rfl, (plain_read _ (hm.plain i) z) ▸ hy⟩
  obtain ⟨k, rfl, he'⟩ := hread i x e he
  obtain ⟨k', hk, hf'⟩ := hread j _ f hf
  cases hk
  have hagree := rooted_agree (hm.rooted i) (hm.rooted j) (Nat.zero_le _) he' hf' ht
  have hsame : ∀ z, z ≤ k → (c.nodes i).log.entries[z]? = (c.nodes j).log.entries[z]? := by
    intro z hz
    have := congrArg (fun l => l[z]?) hagree
    simpa [getElem?_take, show z < k+1 by omega] using this
  have hef : e = f := by
    have := hsame k (le_refl k)
    rw [he', hf'] at this
    exact Option.some.inj this
  refine ⟨by rw [hef], by rw [hef], ?_⟩
  intro y a b hy ha hb
  obtain ⟨z, rfl, ha'⟩ := hread i y a ha
  obtain ⟨z', hz, hb'⟩ := hread j _ b hb
  cases hz
  have := hsame z (by omega)
  rw [ha', hb'] at this
  exact Option.some.inj this

omit hm

/-- Log matching holds in every state of a run in which a rolled back entry
has never left its node. -/
theorem logs_match_unseen_rollbacks (cfg : Config) (as : List (ℕ × Action)) (c : Cluster)
    (ha : Along (Cluster.step cfg)
      (fun c a => uncompacted cfg c a = true ∧ rollbackUnseen cfg c a) (Cluster.init cfg) as)
    (hr : run (Cluster.step cfg) (Cluster.init cfg) as = some c) : LogsMatch c := by
  obtain ⟨h, llog, _, hm⟩ := run_invariant
    (fun c => ∃ h llog, Inv cfg c h ∧ Matched cfg c h llog)
    (by
      rintro s a s' ⟨h, llog, hv, hm⟩ ⟨hc, hu⟩ hs
      exact ⟨_, _, (inv_step cfg s h hv hs).2, matched_step cfg s h hm hv hc hu hs⟩)
    as _ c ⟨_, _, inv_init cfg, matched_init cfg⟩ ha hr
  exact matched_logs cfg c h hm

def firstAppend : AppendReq := ⟨1, 1, 0, 0, 0, [⟨1, 1, 1, [7]⟩]⟩

def firstDelivered : List (ℕ × Action) :=
  campaign 1 ⟨1, 1, 0, 0⟩ [(2, some 0), (3, none)]++
    [(1, .act (.propose .catalogQtl [7])), (1, .act (.replicate 2)), (2, .act (.recvAppend firstAppend))]

def unsentProposal : List (ℕ × Action) :=
  firstDelivered++[(1, .act (.replicateReply 2 firstAppend ⟨1, true, 1⟩)), (1, .act .replicateDone),
    (1, .act (.propose .catalogQtl [8])), (1, .act (.wake 1)), (1, .act (.timeout 1))]

theorem logs_match_rollback_unsent : ∃ c, Along (Cluster.step threeNodes)
        (fun c a => uncompacted threeNodes c a = true ∧ rollbackUnseen threeNodes c a)
        (Cluster.init threeNodes) unsentProposal ∧
      run (Cluster.step threeNodes) (Cluster.init threeNodes) unsentProposal = some c ∧
      (c.nodes 2).log.read 1 = some ⟨1, 1, 1, [7]⟩ ∧ (c.nodes 1).log.read 2 = none ∧ LogsMatch c := by
  have ha : Along (Cluster.step threeNodes)
    (fun c a => uncompacted threeNodes c a = true ∧ rollbackUnseen threeNodes c a)
    (Cluster.init threeNodes) unsentProposal := by decide +kernel
  obtain ⟨c, hc, h2, h1⟩ := run_reaches (Cluster.step threeNodes) (Cluster.init threeNodes)
    unsentProposal
    (fun c => (c.nodes 2).log.read 1 = some ⟨1, 1, 1, [7]⟩ ∧ (c.nodes 1).log.read 2 = none)
    (by decide +kernel)
  exact ⟨c, ha, hc, h2, h1, logs_match_unseen_rollbacks threeNodes _ c ha hc⟩

/-- The reply is lost, the proposer rolls back, and the next proposal takes the same index in the
same term. -/
def lostReply : List (ℕ × Action) :=
  firstDelivered++[(1, .act (.replicateFail 2 firstAppend)), (1, .act .replicateDone),
    (1, .act (.wake 0)), (1, .act (.timeout 0)), (1, .act (.propose .catalogQtl [8]))]

theorem rollback_breaks_matching : ∃ c, run (Cluster.step threeNodes)
    (Cluster.init threeNodes) lostReply = some c ∧
      (c.nodes 1).log.read 1 = some ⟨1, 1, 1, [8]⟩ ∧ (c.nodes 2).log.read 1 = some ⟨1, 1, 1, [7]⟩ ∧
      ¬LogsMatch c := by
  obtain ⟨c, hc, h1, h2⟩ := run_reaches (Cluster.step threeNodes) (Cluster.init threeNodes) lostReply
    (fun c => (c.nodes 1).log.read 1 = some ⟨1, 1, 1, [8]⟩ ∧
      (c.nodes 2).log.read 1 = some ⟨1, 1, 1, [7]⟩) (by decide +kernel)
  refine ⟨c, hc, h1, h2, fun hm => ?_⟩
  exact absurd (hm 1 2 1 _ _ h1 h2 rfl).2.1 (by decide)

end QEngine.RaftMatching

import QEngine.RaftMatching

/-!
# Leader completeness

What a majority has stored of a term, up to an entry made in that term, is in the log
of every later leader, as long as no proposal is rolled back and a leader merges only
the replies to requests of its own term.
-/

namespace QEngine.RaftCompleteness
open Option List Function RaftLogRecord RaftNode RaftService RaftEffects RaftCluster QuorumSets LeaderLogs
open RaftElection RaftReplication RaftMatching

def Led (h : Votes) (t : ℕ) : Prop := h.lead t ≠ none

def Asked (c : Cluster) (req : VoteReq) : Prop :=
  req.term ≤ (c.nodes req.candidateId).currentTerm ∧
  (req.term = (c.nodes req.candidateId).currentTerm →
    (c.nodes req.candidateId).role = .candidate →
    req.lastLogIndex = (c.nodes req.candidateId).log.lastIndex ∧
    req.lastLogTerm = (c.nodes req.candidateId).log.lastTerm)

abbrev Lasts (h : Votes) (llog : ℕ → List Entry) (t j b : ℕ) (l : List Entry) : Prop :=
  Survives Entry.term llog (Led h) t j b l

structure Stored (cfg : Config) (c : Cluster) (h : Votes) (llog : ℕ → List Entry)
    (acked : ℕ → ℕ → ℕ) : Prop where
  rooted : ∀ t, Rooted Entry.term llog (llog t)
  low : ∀ t, ∀ e ∈ llog t, e.term ≤ t
  terms : ∀ i, ∀ e ∈ (c.nodes i).log.entries, e.term ≤ (c.nodes i).currentTerm
  fresh : ∀ i, (c.nodes i).role = .candidate →
    ∀ e ∈ (c.nodes i).log.entries, e.term < (c.nodes i).currentTerm
  asked : ∀ dst req, Packet.voteReq dst req ∈ c.net → Asked c req
  polling : ∀ i req todo granted, (c.nodes i).tick = .voting req todo granted → Asked c req
  cast : ∀ t q x, h.voted t q = some x → t ≤ (c.nodes x).currentTerm
  size : ∀ t q, acked t q ≤ (llog t).length
  past : ∀ t q, 0 < acked t q → t ≤ (c.nodes q).currentTerm
  own : ∀ i, (c.nodes i).role = .leader →
    (c.nodes i).log.entries.length ≤ acked (c.nodes i).currentTerm i
  kept : ∀ q t j, j < acked t q →
    Lasts h llog t j ((c.nodes q).currentTerm+1) (c.nodes q).log.entries
  backed : ∀ q x, h.voted (c.nodes x).currentTerm q = some x → (c.nodes x).role = .candidate →
    h.lead (c.nodes x).currentTerm = none → ∀ t j, t < (c.nodes x).currentTerm →
    j < acked t q → Lasts h llog t j (c.nodes x).currentTerm (c.nodes x).log.entries
  elected : ∀ T, Led h T → ∃ Q : ℕ → Bool, Majority cfg.members (fun q => Q q = true) ∧
    ∀ q, Q q = true → T ≤ (c.nodes q).currentTerm ∧
      ∀ t j, t < T → j < acked t q → Lasts h llog t j T (llog T)
  replied : ∀ src req resp, Packet.appendResp src req resp ∈ c.net → resp.success = true →
    req.prevLogIndex+req.entries.length ≤ acked req.term src
  stands : ∀ dst req, Packet.appendReq dst req ∈ c.net → ∃ M, Stands req M ∧ M <+: llog req.term
  peers : ∀ i, (c.nodes i).role = .leader → ∀ p ∈ (c.nodes i).peers,
    p.nextIndex ≤ (c.nodes i).log.lastIndex+1 ∧ p.matchIndex ≤ acked (c.nodes i).currentTerm p.id

variable (cfg : Config)

theorem stored_init : Stored cfg (Cluster.init cfg) Votes.none (fun _ => []) (fun _ _ => 0) where
  rooted _ := rooted_nil
  low _ _ he := absurd he (by simp)
  terms _ _ he := absurd he (by simp [Cluster.init, Node.boot, Log.empty])
  fresh _ hr := absurd hr (by simp [Cluster.init, Node.boot])
  asked _ _ hm := absurd hm (by simp [Cluster.init, Cluster.net])
  polling _ _ _ _ ht := absurd ht (by simp [Cluster.init, Node.boot])
  cast _ _ _ hv := absurd hv (by simp [Votes.none])
  size _ _ := Nat.zero_le _
  past _ _ hp := absurd hp (lt_irrefl 0)
  own _ hr := absurd hr (by simp [Cluster.init, Node.boot])
  kept _ _ _ hj := absurd hj (Nat.not_lt_zero _)
  backed _ _ _ hr := absurd hr (by simp [Cluster.init, Node.boot])
  elected _ hl := absurd rfl hl
  replied _ _ _ hm := absurd hm (by simp [Cluster.init, Cluster.net])
  stands _ _ hm := absurd hm (by simp [Cluster.init, Cluster.net])
  peers _ hr := absurd hr (by simp [Cluster.init, Node.boot])

def credit (acked : ℕ → ℕ → ℕ) (t q k : ℕ) : ℕ → ℕ → ℕ :=
  fun u p => if u = t ∧ p = q then max (acked u p) k else acked u p

variable (acked : ℕ → ℕ → ℕ)

theorem credit_le (t q k u p : ℕ) : acked u p ≤ credit acked t q k u p := by
  unfold credit
  split
  · exact le_max_left _ _
  · exact le_refl _

theorem credit_self (t q k : ℕ) : k ≤ credit acked t q k t q := by
  rw [credit, if_pos ⟨rfl, rfl⟩]
  exact le_max_right _ _

theorem credit_cases {t q k u p j : ℕ} (h : j < credit acked t q k u p) :
    j < acked u p ∨ (u = t ∧ p = q ∧ j < k) := by
  unfold credit at h
  split at h
  · rename_i he
    exact (lt_max_iff.mp h).imp_right fun hk => ⟨he.1, he.2, hk⟩
  · exact .inl h

/-- A step of node `i`: `n'` is the node afterwards, `outs` what it sends, `k` how much of its
term's log it stores. -/
structure Advance (cfg : Config) (c : Cluster) (h h' : Votes) (llog : ℕ → List Entry)
    (acked : ℕ → ℕ → ℕ) (i : ℕ) (n' : Node) (outs : List Output) (k : ℕ) : Prop where
  term : (c.nodes i).currentTerm ≤ n'.currentTerm
  candidate : n'.role = .candidate → n'.log = (c.nodes i).log ∧
    (((c.nodes i).role = .candidate ∧ n'.currentTerm = (c.nodes i).currentTerm) ∨
      (c.nodes i).currentTerm < n'.currentTerm)
  leader : n'.role = .leader → n'.currentTerm = (c.nodes i).currentTerm ∧
    (((c.nodes i).role = .leader ∧ (c.nodes i).log.entries <+: n'.log.entries ∧
        ∀ x e, (c.nodes i).log.entries.length ≤ x → n'.log.entries[x]? = some e →
          e.term = n'.currentTerm) ∨
      ((c.nodes i).role = .candidate ∧ n'.log = (c.nodes i).log ∧
        h.lead n'.currentTerm = none ∧
        Majority cfg.members (fun q => h.voted n'.currentTerm q = some i)))
  lead : ∀ T, Led h' T → Led h T ∨ (T = n'.currentTerm ∧ n'.role = .leader ∧
    (c.nodes i).role = .candidate)
  voted : ∀ T q x, h'.voted T q = some x → h.voted T q = some x ∨
    (q = i ∧ T = n'.currentTerm ∧ ((x = i ∧ (c.nodes i).currentTerm < T) ∨
      ∃ req, Packet.voteReq i req ∈ c.net ∧ req.term = T ∧ req.candidateId = x ∧
        logUpToDate (c.nodes i).log req = true))
  log : (c.nodes i).log.entries <+: n'.log.entries ∨ (Led h n'.currentTerm ∧
    ∀ p, p <+: (c.nodes i).log.entries → p <+: llog n'.currentTerm → p <+: n'.log.entries)
  terms : ∀ e ∈ n'.log.entries, e ∈ (c.nodes i).log.entries ∨ e ∈ llog n'.currentTerm ∨
    e.term = n'.currentTerm
  tick : ∀ req todo granted, n'.tick = .voting req todo granted →
    (∃ todo granted, (c.nodes i).tick = .voting req todo granted) ∨
      req = voteReqNow n' i n'.currentTerm
  asks : ∀ dst req, Output.send (.voteReq dst req) ∈ outs →
    ∃ todo granted, (c.nodes i).tick = .voting req todo granted
  size : k ≤ (publish n' llog n'.currentTerm).length
  holds : (publish n' llog n'.currentTerm).take k <+: n'.log.entries
  own : n'.role = .leader → n'.log.entries.length ≤ k
  replies : ∀ src req resp, Output.send (.appendResp src req resp) ∈ outs →
    resp.success = true → src = i ∧ req.term = n'.currentTerm ∧
      req.prevLogIndex+req.entries.length ≤ k
  requests : ∀ dst req, Output.send (.appendReq dst req) ∈ outs →
    ∃ M, Stands req M ∧ M <+: llog req.term
  peers : n'.role = .leader → ∀ p ∈ n'.peers, p.nextIndex ≤ n'.log.lastIndex+1 ∧
    p.matchIndex ≤ acked n'.currentTerm p.id

theorem led_le {h h' : Votes} (hle : h ≤ h') (t : ℕ) (hl : Led h t) : Led h' t := by
  obtain ⟨x, hx⟩ := ne_none_iff_exists'.mp hl
  unfold Led
  rw [hle.2 t x hx]
  simp

section Advance
variable {cfg : Config} {c : Cluster} {h h' : Votes} {llog : ℕ → List Entry} {acked : ℕ → ℕ → ℕ}
  {i : ℕ} {n' : Node} {outs : List Output} {k : ℕ}

theorem advance_grows (hm : Matched cfg c h llog) (ha : Advance cfg c h h' llog acked i n' outs k) :
    (∀ t, llog t <+: publish n' llog t) ∧
    ∀ w x e, Led h w → (llog w).length ≤ x → (publish n' llog w)[x]? = some e → e.term = w := by
  by_cases hr : n'.role = .leader
  · obtain ⟨ht, hlog⟩ := ha.leader hr
    have hbase : llog n'.currentTerm <+: n'.log.entries := by
      rcases hlog with ⟨hl, hp, _⟩ | ⟨_, _, hn, _⟩
      · rw [ht, hm.leader i hl]
        exact hp
      · rw [hm.unled _ hn]
        exact nil_prefix
    refine ⟨publish_grows hr hbase, ?_⟩
    intro w x e hw hx he
    rw [publish_leader _ hr] at he
    by_cases hwt : w = n'.currentTerm
    · rw [hwt] at he hw hx ⊢
      rw [update_self] at he
      rcases hlog with ⟨hl, _, hnew⟩ | ⟨_, _, hn, _⟩
      · rw [ht, hm.leader i hl] at hx
        exact hnew x e hx he
      · exact absurd hn hw
    · rw [update_of_ne hwt, getElem?_eq_none hx] at he
      simp at he
  · have hp : publish n' llog = llog := if_neg hr
    rw [hp]
    refine ⟨fun _ => prefix_rfl, ?_⟩
    intro w x e _ hx he
    rw [getElem?_eq_none hx] at he
    simp at he

theorem lasts_grown (hm : Matched cfg c h llog) (ha : Advance cfg c h h' llog acked i n' outs k)
    (hle : h ≤ h') (hs : Stored cfg c h llog acked) {t j : ℕ} {b : ℕ} {q : ℕ} {l : List Entry}
    (hj : j < acked t q) (hl : Lasts h llog t j b l) : Lasts h' (publish n' llog) t j b l := by
  obtain ⟨hg, hn⟩ := advance_grows hm ha
  exact survives_grown hg (led_le hle) hn (lt_of_lt_of_le hj (hs.size t q)) hl

variable (ha : Advance cfg c h h' llog acked i n' outs k)

include ha

theorem put_term (q : ℕ) :
    (c.nodes q).currentTerm ≤ ((c.put i n' outs).nodes q).currentTerm :=
  put_forall (fun q n => (c.nodes q).currentTerm ≤ n.currentTerm) c i n' _ ha.term
    (fun _ _ => le_refl _) q

theorem asked_advance (req : VoteReq)
    (hq : Asked c req) : Asked (c.put i n' outs) req := by
  obtain ⟨h1, h2⟩ := hq
  refine ⟨h1.trans (put_term ha _), ?_⟩
  by_cases hx : req.candidateId = i
  · rw [hx] at h1 h2 ⊢
    rw [put_self]
    intro ht hr
    obtain ⟨hlog, ⟨hc, he⟩ | hlt⟩ := ha.candidate hr
    · rw [hlog]
      exact h2 (ht.trans he) hc
    · omega
  · rw [put_other c n' _ hx]
    exact h2

variable (hs : Stored cfg c h llog acked)

include hs

theorem stored_asked (dst : ℕ) (req : VoteReq)
    (hq : Packet.voteReq dst req ∈ (c.put i n' outs).net) : Asked (c.put i n' outs) req := by
  refine asked_advance ha req ?_
  rcases reply_put c hq with hq | hq
  · exact hs.asked dst req hq
  · obtain ⟨todo, granted, ht⟩ := ha.asks dst req hq
    exact hs.polling i req todo granted ht

theorem stored_polling (j : ℕ) (req : VoteReq) (todo : List ℕ)
    (granted : ℕ) (ht : ((c.put i n' outs).nodes j).tick = .voting req todo granted) :
    Asked (c.put i n' outs) req := by
  by_cases hj : j = i
  · rw [hj, put_self] at ht
    rcases ha.tick req todo granted ht with ⟨todo', granted', ht'⟩ | rfl
    · exact asked_advance ha req (hs.polling i req todo' granted' ht')
    unfold Asked voteReqNow
    rw [put_self]
    exact ⟨le_refl _, fun _ _ => ⟨rfl, rfl⟩⟩
  · rw [put_other c n' _ hj] at ht
    exact asked_advance ha req (hs.polling j req todo granted ht)

theorem stored_terms : ∀ e ∈ n'.log.entries, e.term ≤ n'.currentTerm := by
  intro e he
  rcases ha.terms e he with he | he | he
  · exact (hs.terms i e he).trans ha.term
  · exact hs.low _ e he
  · exact le_of_eq he

theorem stored_fresh (hr : n'.role = .candidate) :
    ∀ e ∈ n'.log.entries, e.term < n'.currentTerm := by
  obtain ⟨hlog, ⟨hc, ht⟩ | hlt⟩ := ha.candidate hr
  · rw [hlog, ht]
    exact hs.fresh i hc
  · rw [hlog]
    exact fun e he => lt_of_le_of_lt (hs.terms i e he) hlt

theorem stored_cast (T q x : ℕ) (hx : h'.voted T q = some x) :
    T ≤ ((c.put i n' outs).nodes x).currentTerm := by
  rcases ha.voted T q x hx with hx | ⟨_, ht, ⟨rfl, _⟩ | ⟨req, hreq, hT, hc, _⟩⟩
  · exact (hs.cast T q x hx).trans (put_term ha x)
  · rw [put_self, ht]
  have := (hs.asked i req hreq).1
  rw [hT, hc] at this
  exact this.trans (put_term ha x)

omit ha

variable (hm : Matched cfg c h llog)

include hm

omit hs

theorem stored_kept (hs : Stored cfg c h llog acked)
    (ha : Advance cfg c h h' llog acked i n' outs k) (hle : h ≤ h') (t j : ℕ)
    (hj : j < credit acked n'.currentTerm i k t i) :
    Lasts h' (publish n' llog) t j (n'.currentTerm+1) n'.log.entries := by
  rcases credit_cases _ hj with hj | ⟨ht, _, hj⟩
  · refine lasts_grown hm ha hle hs hj ?_
    have hk := hs.kept i t j hj
    have ht := hs.past t i (by omega)
    have hle := ha.term
    rcases ha.log with hp | ⟨hl, hp⟩
    · exact survives_mono hp (fun w hw _ => by omega) hk
    · exact survives_follow (by omega) (by omega) hl hp hk
  · intro _
    refine .inl (List.IsPrefix.trans ?_ ha.holds)
    rw [ht]
    exact take_prefix_take_left hj

theorem rooted_led (l : List Entry) (hl : Rooted Entry.term llog l)
    (e : Entry) (he : e ∈ l) : Led h e.term := by
  intro hn
  obtain ⟨x, hx⟩ := mem_iff_getElem?.mp he
  have hp := hl x e (Nat.zero_le _) hx
  rw [hm.unled _ hn, prefix_nil, take_eq_nil_iff] at hp
  rcases hp with hp | rfl
  · omega
  · simp at he

theorem lasts_vote (hs : Stored cfg c h llog acked) {req : VoteReq}
    {q : ℕ} (hnet : Packet.voteReq q req ∈ c.net)
    (hup : logUpToDate (c.nodes q).log req = true) (hterm : (c.nodes q).currentTerm ≤ req.term)
    (hx : (c.nodes req.candidateId).role = .candidate)
    (hxt : (c.nodes req.candidateId).currentTerm = req.term) (hn : h.lead req.term = none)
    {t j : ℕ} (hj : j < acked t q) : Lasts h llog t j req.term (c.nodes req.candidateId).log.entries := by
  obtain ⟨h1, h2⟩ := (hs.asked q req hnet).2 hxt.symm hx
  have hfresh := hs.fresh _ hx
  rw [hxt] at hfresh
  refine survives_vote hs.low (fun u => rooted_led hm _ (hs.rooted u)) (hm.rooted q)
    (hm.rooted _) hfresh ?_ (survives_mono prefix_rfl ?_ (hs.kept q t j hj))
  · simp only [logUpToDate, Bool.or_eq_true, Bool.and_eq_true, decide_eq_true_eq, beq_iff_eq] at hup
    rw [h1, h2, plain_last _ (hm.plain q), plain_last _ (hm.plain _), plain_lastTerm _ (hm.plain q),
      plain_lastTerm _ (hm.plain _)] at hup
    exact hup.imp_right fun hu => ⟨hu.1.symm, hu.2⟩
  · -- the term of the election has no leader yet
    intro w hw hl
    have hne : w ≠ req.term := fun he => hl (he ▸ hn)
    omega

theorem stored_backed (hs : Stored cfg c h llog acked)
    (ha : Advance cfg c h h' llog acked i n' outs k) (hle : h ≤ h') (hv' : Inv cfg (c.put i n' outs) h')
    (q x : ℕ) (hvote : h'.voted ((c.put i n' outs).nodes x).currentTerm q = some x)
    (hrole : ((c.put i n' outs).nodes x).role = .candidate)
    (hlead : h'.lead ((c.put i n' outs).nodes x).currentTerm = none) (t j : ℕ)
    (ht : t < ((c.put i n' outs).nodes x).currentTerm) (hcr : j < credit acked n'.currentTerm i k t q) :
    Lasts h' (publish n' llog) t j ((c.put i n' outs).nodes x).currentTerm
      ((c.put i n' outs).nodes x).log.entries := by
  have hj : j < acked t q := by
    rcases credit_cases _ hcr with hj | ⟨he, hq, _⟩
    · exact hj
    · -- the voter is not in an earlier term than its vote
      by_contra
      have hf := hv'.future ((c.put i n' outs).nodes x).currentTerm i (by rw [put_self]; omega)
      rw [hq, hf] at hvote
      simp at hvote
  refine lasts_grown hm ha hle hs hj ?_
  have hnone : h.lead ((c.put i n' outs).nodes x).currentTerm = none := by
    by_contra hl
    exact led_le hle _ hl hlead
  -- the candidate's log is the one it had before the step
  have hback : ((c.put i n' outs).nodes x).log = (c.nodes x).log ∧
      (((c.nodes x).role = .candidate ∧
        ((c.put i n' outs).nodes x).currentTerm = (c.nodes x).currentTerm) ∨
      (x = i ∧ (c.nodes i).currentTerm < ((c.put i n' outs).nodes x).currentTerm)) := by
    by_cases hx : x = i
    · subst hx
      rw [put_self] at hrole ⊢
      obtain ⟨h1, h2⟩ := ha.candidate hrole
      exact ⟨h1, h2.imp_right (fun hlt => ⟨rfl, hlt⟩)⟩
    · rw [put_other c n' _ hx] at hrole ⊢
      exact ⟨rfl, .inl ⟨hrole, rfl⟩⟩
  obtain ⟨hlog, hcase⟩ := hback
  rw [hlog]
  generalize ((c.put i n' outs).nodes x).currentTerm = T at *
  rcases ha.voted T q x hvote with hold | ⟨rfl, hT, ⟨rfl, hlt⟩ | ⟨req, hnet, rfl, rfl, hup⟩⟩
  · rcases hcase with ⟨hr, rfl⟩ | ⟨rfl, hlt⟩
    · exact hs.backed q x hold hr hnone t j ht hj
    · have := hs.cast T q x hold
      omega
  · exact survives_mono prefix_rfl (fun w hw _ => by omega) (hs.kept x t j hj)
  have hask := (hs.asked q req hnet).1
  rcases hcase with ⟨hr, he⟩ | ⟨hx, hlt⟩
  · have hterm := ha.term
    exact lasts_vote hm hs hnet hup (by omega) hr (by omega) hnone hj
  · rw [hx] at hask
    omega

omit hm

theorem stored_elected (hv : Inv cfg c h) (hm : Matched cfg c h llog)
    (hs : Stored cfg c h llog acked) (ha : Advance cfg c h h' llog acked i n' outs k)
    (hle : h ≤ h') (T : ℕ) (hl : Led h' T) : ∃ Q : ℕ → Bool, Majority cfg.members (fun q => Q q = true) ∧
      ∀ q, Q q = true → T ≤ ((c.put i n' outs).nodes q).currentTerm ∧
        ∀ t j, t < T → j < credit acked n'.currentTerm i k t q →
          Lasts h' (publish n' llog) t j T (publish n' llog T) := by
  have hterm := ha.term
  have hold : ∀ t j q, T ≤ (c.nodes q).currentTerm → t < T →
      j < credit acked n'.currentTerm i k t q → j < acked t q := by
    intro t j q hT ht hj
    rcases credit_cases _ hj with hj | ⟨rfl, rfl, _⟩
    · exact hj
    · omega
  rcases ha.lead T hl with hl | ⟨rfl, hr, hc⟩
  · obtain ⟨Q, hQ, hq⟩ := hs.elected T hl
    refine ⟨Q, hQ, fun q hx => ⟨(hq q hx).1.trans (put_term ha q), ?_⟩⟩
    intro t j ht hj
    have hj := hold t j q (hq q hx).1 ht hj
    exact survives_mono ((advance_grows hm ha).1 T) (fun _ hw _ => hw)
      (lasts_grown hm ha hle hs hj ((hq q hx).2 t j ht hj))
  obtain ⟨ht, ⟨hlead, _⟩ | ⟨_, hlog, hn, hmaj⟩⟩ := ha.leader hr
  · rw [hc] at hlead
    simp at hlead
  refine ⟨fun q => decide (h.voted n'.currentTerm q = some i), ?_, ?_⟩
  · simpa using hmaj
  intro q hq
  have hq := of_decide_eq_true hq
  have hT : n'.currentTerm ≤ (c.nodes q).currentTerm := by
    by_contra hlt
    rw [hv.future _ q (by omega)] at hq
    simp at hq
  refine ⟨hT.trans (put_term ha q), fun t j htT hj => ?_⟩
  have hj := hold t j q hT htT hj
  refine lasts_grown hm ha hle hs hj ?_
  rw [publish_leader _ hr, update_self, hlog]
  rw [ht] at hq hn htT ⊢
  exact hs.backed q i hq hc hn t j htT hj

theorem stored_advance (hv : Inv cfg c h) (hm : Matched cfg c h llog)
    (hs : Stored cfg c h llog acked) (ha : Advance cfg c h h' llog acked i n' outs k)
    (hle : h ≤ h') (hv' : Inv cfg (c.put i n' outs) h')
    (hm' : Matched cfg (c.put i n' outs) h' (publish n' llog)) :
    Stored cfg (c.put i n' outs) h' (publish n' llog) (credit acked n'.currentTerm i k) := by
  obtain ⟨hg, _⟩ := advance_grows hm ha
  have hterms := stored_terms ha hs
  have hcredit := credit_le acked n'.currentTerm i k
  have hpub : ∀ t, publish n' llog t = llog t ∨
      (publish n' llog t = n'.log.entries ∧ t = n'.currentTerm) := by
    intro t
    unfold publish
    split
    · by_cases ht : t = n'.currentTerm
      · exact .inr ⟨by rw [ht, update_self], ht⟩
      · exact .inl (update_of_ne ht _ _)
    · exact .inl rfl
  refine ⟨?_, ?_, ?_, ?_, stored_asked ha hs, stored_polling ha hs, stored_cast ha hs, ?_, ?_, ?_, ?_,
    stored_backed hm hs ha hle hv', stored_elected hv hm hs ha hle, ?_, ?_, ?_⟩
  · intro t
    rcases hpub t with he | ⟨he, _⟩
    · rw [he]
      exact rootedFrom_mono hg (hs.rooted t)
    have hr := hm'.rooted i
    rw [put_self] at hr
    rw [he]
    exact hr
  · intro t e hx
    rcases hpub t with he | ⟨he, rfl⟩
    · exact hs.low t e (he ▸ hx)
    · exact hterms e (he ▸ hx)
  · exact put_forall (fun _ n => ∀ e ∈ n.log.entries, e.term ≤ n.currentTerm) c i n' outs hterms
      (fun j _ => hs.terms j)
  · exact put_forall (fun _ n => n.role = .candidate → ∀ e ∈ n.log.entries,
      e.term < n.currentTerm) c i n' outs (stored_fresh ha hs) (fun j _ => hs.fresh j)
  · intro t q
    by_contra hlt
    rcases credit_cases _ (not_le.mp hlt) with hx | ⟨rfl, _, hx⟩
    · exact absurd ((hs.size t q).trans (hg t).length_le) (by omega)
    · exact absurd ha.size (by omega)
  · intro t q hx
    rcases credit_cases _ hx with hx | ⟨rfl, rfl, _⟩
    · exact (hs.past t q hx).trans (put_term ha q)
    · rw [put_self]
  · exact put_forall (fun j n => n.role = .leader → n.log.entries.length ≤
      credit acked n'.currentTerm i k n.currentTerm j) c i n' outs
      (fun hr => (ha.own hr).trans (credit_self ..))
      (fun j _ hr => (hs.own j hr).trans (hcredit ..))
  · intro q t j
    refine put_forall (fun q n => j < credit acked n'.currentTerm i k t q →
      Lasts h' (publish n' llog) t j (n.currentTerm+1) n.log.entries) c i n' outs
      (stored_kept hm hs ha hle t j) ?_ q
    intro q hq hj
    rcases credit_cases _ hj with hj | ⟨_, he, _⟩
    · exact lasts_grown hm ha hle hs hj (hs.kept q t j hj)
    · exact absurd he hq
  · intro src req resp hp hok
    rcases reply_put c hp with hp | hp
    · exact (hs.replied src req resp hp hok).trans (hcredit ..)
    obtain ⟨rfl, ht, hk⟩ := ha.replies src req resp hp hok
    rw [ht]
    exact hk.trans (credit_self ..)
  · intro dst req hp
    rcases reply_put c hp with hp | hp
    · obtain ⟨M, h1, h2⟩ := hs.stands dst req hp
      exact ⟨M, h1, h2.trans (hg _)⟩
    · obtain ⟨M, h1, h2⟩ := ha.requests dst req hp
      exact ⟨M, h1, h2.trans (hg _)⟩
  · refine put_forall (fun _ n => n.role = .leader → ∀ p ∈ n.peers,
      p.nextIndex ≤ n.log.lastIndex+1 ∧
      p.matchIndex ≤ credit acked n'.currentTerm i k n.currentTerm p.id) c i n' outs ?_ ?_
    · exact fun hr p hp => (ha.peers hr p hp).imp_right fun hx => hx.trans (hcredit ..)
    · exact fun j _ hr p hp => (hs.peers j hr p hp).imp_right fun hx => hx.trans (hcredit ..)

end Advance

variable {n' : Node} {c : Cluster} {llog : ℕ → List Entry}

theorem advance_still (c : Cluster) (h h' : Votes) (llog : ℕ → List Entry)
    (acked : ℕ → ℕ → ℕ) (i : ℕ) (outs : List Output) (hlead : h'.lead = h.lead)
    (hvoted : ∀ T q x, h'.voted T q = some x → h.voted T q = some x ∨
      (q = i ∧ T = n'.currentTerm ∧ ((x = i ∧ (c.nodes i).currentTerm < T) ∨
        ∃ req, Packet.voteReq i req ∈ c.net ∧ req.term = T ∧ req.candidateId = x ∧
          logUpToDate (c.nodes i).log req = true))) (ht : (c.nodes i).currentTerm ≤ n'.currentTerm)
    (hr : (n'.role = (c.nodes i).role ∧ n'.currentTerm = (c.nodes i).currentTerm) ∨ n'.role = .follower ∨
      (n'.role = .candidate ∧ (c.nodes i).currentTerm < n'.currentTerm)) (hlog : n'.log = (c.nodes i).log)
    (htick : ∀ req todo granted, n'.tick = .voting req todo granted →
      (∃ todo granted, (c.nodes i).tick = .voting req todo granted) ∨ req = voteReqNow n' i n'.currentTerm)
    (hasks : ∀ dst req, Output.send (.voteReq dst req) ∈ outs →
      ∃ todo granted, (c.nodes i).tick = .voting req todo granted)
    (hreplies : ∀ src req resp, Output.send (.appendResp src req resp) ∈ outs → resp.success = false)
    (hrequests : ∀ dst req, Output.send (.appendReq dst req) ∈ outs → ∃ M, Stands req M ∧ M <+: llog req.term)
    (hpeers : n'.role = .leader → ∀ p ∈ n'.peers, p.nextIndex ≤ n'.log.lastIndex+1 ∧
      p.matchIndex ≤ acked n'.currentTerm p.id) : ∃ k, Advance cfg c h h' llog acked i n' outs k := by
  have hl : n'.role = .leader →
      (c.nodes i).role = .leader ∧ n'.currentTerm = (c.nodes i).currentTerm := by
    intro hx
    rcases hr with ⟨h1, h2⟩ | h1 | ⟨h1, _⟩
    · exact ⟨h1 ▸ hx, h2⟩
    · exact absurd (h1.symm.trans hx) (by simp)
    · exact absurd (h1.symm.trans hx) (by simp)
  refine ⟨if n'.role = .leader then n'.log.entries.length else 0, ht, ?_, ?_, ?_, hvoted, ?_, ?_, htick,
    hasks, ?_, ?_, ?_, ?_, hrequests, hpeers⟩
  · intro hx
    refine ⟨hlog, ?_⟩
    rcases hr with ⟨h1, h2⟩ | h1 | ⟨_, h1⟩
    · exact .inl ⟨h1 ▸ hx, h2⟩
    · exact absurd (h1.symm.trans hx) (by simp)
    · exact .inr h1
  · intro hx
    refine ⟨(hl hx).2, .inl ⟨(hl hx).1, by rw [hlog], ?_⟩⟩
    intro x e hlen he
    rw [hlog, getElem?_eq_none hlen] at he
    simp at he
  · intro T hT
    unfold Led at hT ⊢
    rw [hlead] at hT
    exact .inl hT
  · exact .inl (by rw [hlog])
  · intro e he
    rw [hlog] at he
    exact .inl he
  · by_cases hx : n'.role = .leader
    · rw [if_pos hx, publish_leader _ hx, update_self]
    · rw [if_neg hx]
      exact Nat.zero_le _
  · by_cases hx : n'.role = .leader
    · rw [if_pos hx, publish_leader _ hx, update_self, take_length]
    · rw [if_neg hx, take_zero]
      exact nil_prefix
  · intro hx
    rw [if_pos hx]
  · intro src req resp hx hok
    rw [hreplies src req resp hx] at hok
    simp at hok

variable {n : Node}

theorem step_polls {self : ℕ} {ev : Event} {outs : List Output} (hq : Event.quiet ev = true)
    (h : step cfg self n ev = some (n', outs)) : (∀ req todo granted, n'.tick = .voting req todo granted →
      ∃ todo granted, n.tick = .voting req todo granted) ∧ ∀ dst req, Output.send (.voteReq dst req) ∈ outs →
      ∃ todo granted, n.tick = .voting req todo granted := by
  cases step_effect h with
  | tickStart | preVoteReply | preVoteFail => exact ⟨by simp, by simp⟩
  | askPreVote => exact ⟨fun req todo granted ht => ⟨todo, granted, ht⟩, by simp⟩
  | askVote ht =>
    refine ⟨fun req todo granted ht => ⟨todo, granted, ht⟩, fun dst req hm => ?_⟩
    simp only [mem_singleton, Output.send.injEq, Packet.voteReq.injEq] at hm
    rw [hm.2]
    exact ⟨_, _, ht⟩
  | voteOutbid ht | voteReply ht | voteFail ht =>
    refine ⟨fun req todo granted ht' => ?_, by simp⟩
    cases ht'
    exact ⟨_, _, ht⟩
  | @recvVote req =>
    obtain ⟨t, v, r, l, hf⟩ := onRequestVote_frame cfg n req
    rw [hf]
    exact ⟨fun req' todo granted ht => ⟨todo, granted, ht⟩, by simp⟩
  | checkQuorum | quorumLost | recvPreVote | wakeApplied | wakeDeposed | park | replicateFail
  | replicateDone => exact ⟨fun req todo granted ht => ⟨todo, granted, ht⟩, by simp⟩
  | _ => simp [Event.quiet] at hq

theorem record_voted {i : ℕ} {ev : Event} (h : Votes) (hne : ev ≠ .tickNext) (hdel : c.delivers i ev)
    {outs : List Output} (hs : step cfg i (c.nodes i) ev = some (n', outs)) (T q x : ℕ)
    (hx : (record cfg c (i, .act ev) h).voted T q = some x) : h.voted T q = some x ∨
      (q = i ∧ T = n'.currentTerm ∧ ((x = i ∧ (c.nodes i).currentTerm < T) ∨
        ∃ req, Packet.voteReq i req ∈ c.net ∧ req.term = T ∧ req.candidateId = x ∧
          logUpToDate (c.nodes i).log req = true)) := by
  unfold record at hx
  cases ev with
  | tickNext => exact absurd rfl hne
  | recvVote req =>
    cases hs
    rcases onRequestVote_cases cfg (c.nodes i) req with ⟨hg, _⟩ | ⟨hg, _, hle, _, hup, he⟩
    · simp only [hg] at hx
      exact .inl hx
    simp only [hg, if_true, Votes.cast] at hx
    split at hx
    · rename_i heq
      refine .inr ⟨heq.2, ?_, .inr ⟨req, hdel _ rfl, heq.1.symm, some.inj hx, hup⟩⟩
      rw [he, heq.1]
      by_cases hlt : (c.nodes i).currentTerm < req.term
      · simp [hlt, Node.becomeFollower]
      · simp only [hlt, if_false]
        omega
    · exact .inl hx
  | _ => exact .inl hx

theorem onAppend_follow {req : AppendReq} {M : List Entry} (hl : Plain n.log)
    (hr : Rooted Entry.term llog n.log.entries)
    (hL : Rooted Entry.term llog (llog req.term)) (hs : Stands req M) (hM : M <+: llog req.term)
    (ht : n.currentTerm ≤ req.term) : (∀ p, p <+: n.log.entries → p <+: llog req.term →
      p <+: (onAppendEntries n req).1.log.entries) ∧
    (∀ e ∈ (onAppendEntries n req).1.log.entries, e ∈ n.log.entries ∨ e ∈ llog req.term) ∧
    ((onAppendEntries n req).2.success = true → M <+: (onAppendEntries n req).1.log.entries) := by
  rcases onAppend_cases n req with ⟨hx, _⟩ | ⟨_, _, _, hx⟩ | ⟨_, hp, hlast, hne, hx⟩ |
    ⟨_, hprev, l, ok, hins, hresp, hx⟩
  · omega
  · rw [hx, (hearLeader_fields n _ _ ht).2.1]
    exact ⟨fun p hp _ => hp, fun e he => .inl he, fun hok => absurd hok (by simp)⟩
  · obtain ⟨j, hj⟩ : ∃ j, req.prevLogIndex = j+1 := ⟨req.prevLogIndex-1, by omega⟩
    obtain ⟨_, hcut⟩ := plain_truncate _ hl j
    obtain ⟨f, hf, hft⟩ := hs.prev j hj
    rw [hx]
    rw [hj, hcut]
    refine ⟨?_, fun e he => .inl (mem_of_mem_take he), fun hok => absurd hok (by simp)⟩
    intro p hpn hpL
    by_cases hlen : p.length ≤ j
    · exact prefix_of_prefix_length_le hpn ( take_prefix j _)
        (by rw [length_take]; have := hpn.length_le; omega)
    · -- a shared front that reaches the predecessor would have matched it
      exfalso
      apply hne
      have h1 : n.log.entries[j]? = p[j]? := by
        obtain ⟨r, hr⟩ := hpn
        rw [← hr, getElem?_append_left (by omega)]
      have h2 : (llog req.term)[j]? = p[j]? := by
        obtain ⟨r, hr⟩ := hpL
        rw [← hr, getElem?_append_left (by omega)]
      have h3 : (llog req.term)[j]? = some f := by
        obtain ⟨r, hr⟩ := hM
        rw [← hr, List.getElem?_append_left (List.getElem?_eq_some_iff.mp hf).1, hf]
      rw [hj, plain_termAt _ hl, h1, ← h2, h3]
      exact hft
  · obtain ⟨_, _, hcase⟩ := accept_spec hl hr hs
      (rootedFrom_of_rooted (rooted_front hM hL)) hprev
    rw [hins] at hcase
    rw [hx, hresp]
    rcases hcase with ⟨rfl, hc⟩ | ⟨hno, j, hfront, he, hok⟩
    · exact ⟨fun p hp _ => hp, fun e he => .inl he, fun _ => hc⟩
    rw [he]
    refine ⟨?_, fun e he => .inr (hM.subset (mem_of_mem_take he)), ?_⟩
    · intro p hpn hpL
      rcases prefix_or_prefix_of_prefix hpL hM with hpM | hMp
      · exact prefix_of_prefix_length_le hpM ( take_prefix j M)
          (by rw [length_take]; have := hfront p hpn hpM; have := hpM.length_le; omega)
      · exact absurd (hMp.trans hpn) hno
    · intro hs
      rw [take_of_length_le (hok hs)]

def noRollback (c : Cluster) (a : ℕ × Action) : Prop :=
  match a.2 with
  | .act (.timeout w) =>
    ((c.nodes a.1).waiters[w]?).elim True (fun x =>
      ¬(x.parked = true ∧ RollsBack (c.nodes a.1) x.entry.index))
  | _ => True

instance (c : Cluster) : ∀ a : ℕ × Action, Decidable (noRollback c a)
  | (i, .act ev) => by
    induction ev using Event.casesOn with
    | timeout w => exact inferInstanceAs (Decidable (((c.nodes i).waiters[w]?).elim _ _))
    | _ => exact isTrue trivial
  | (_, .crash _ _) | (_, .restart) => isTrue trivial

theorem noRollback_unseen {a : ℕ × Action} (h : noRollback c a) : rollbackUnseen cfg c a := by
  unfold noRollback at h
  unfold rollbackUnseen
  split
  · rename_i w he
    simp only [he] at h
    cases hw : (c.nodes a.1).waiters[w]? with
    | none => trivial
    | some x =>
      rw [hw] at h
      exact fun hx => absurd hx h
  · trivial

/-- A success that a leader merges answers a request of its current term. -/
def currentReply (c : Cluster) (a : ℕ × Action) : Prop :=
  match a.2 with
  | .act (.replicateReply _ req resp) =>
    (c.nodes a.1).role = .leader → resp.term ≤ (c.nodes a.1).currentTerm →
      resp.success = true → req.term = (c.nodes a.1).currentTerm
  | _ => True

instance (c : Cluster) : ∀ a : ℕ × Action, Decidable (currentReply c a)
  | (i, .act ev) => by
    induction ev using Event.casesOn with
    | replicateReply peer req resp => exact inferInstanceAs (Decidable (_ → _ → _ → _))
    | _ => exact isTrue trivial
  | (_, .crash _ _) | (_, .restart) => isTrue trivial

theorem mergeReply_peers (peer : ℕ) (req : AppendReq) (resp : AppendResp) {last : ℕ}
    {acked : ℕ → ℕ} (hp : ∀ p ∈ n.peers, p.nextIndex ≤ last+1 ∧ p.matchIndex ≤ acked p.id)
    (hok : n.role = .leader → resp.term ≤ n.currentTerm → resp.success = true →
      req.prevLogIndex+req.entries.length ≤ last ∧ req.prevLogIndex+req.entries.length ≤ acked peer) :
    ∀ p ∈ (mergeReply n peer req resp).peers, p.nextIndex ≤ last+1 ∧ p.matchIndex ≤ acked p.id := by
  have hset : ∀ f : Peer → Peer, (∀ p ∈ n.peers, p.id = peer →
        (f p).nextIndex ≤ last+1 ∧ (f p).matchIndex ≤ acked (f p).id) →
      ∀ p ∈ (n.setPeer peer f).peers, p.nextIndex ≤ last+1 ∧ p.matchIndex ≤ acked p.id := by
    intro f hf p hx
    obtain ⟨q, hq, rfl⟩ := mem_map.mp hx
    split
    · rename_i hid
      exact hf q hq hid
    · exact hp q hq
  rcases mergeReply_cases n _ req _ with ⟨_, h⟩ | ⟨_, h⟩ | ⟨hterm, hrole, hsucc, h⟩ | ⟨_, h⟩
  · rw [h]
    exact hp
  · rw [h]
    exact hp
  · obtain ⟨h1, h2⟩ := hok hrole hterm hsucc
    rw [h, (advanceCommit_frame _).2.2.2.2.1]
    refine hset _ fun p hx hid => ⟨Nat.succ_le_succ h1, max_le (hp p hx).2 ?_⟩
    rw [hid]
    exact h2
  · rw [h]
    refine hset _ fun p hx _ => ?_
    obtain ⟨h1, h2⟩ := hp p hx
    split
    · exact ⟨by dsimp only; omega, h2⟩
    split
    · exact ⟨by dsimp only; omega, h2⟩
    · exact ⟨h1, h2⟩

section Kinds
variable {cfg : Config} {c : Cluster} {h : Votes} {llog : ℕ → List Entry} {acked : ℕ → ℕ → ℕ}
  {i : ℕ} {n' : Node} {outs : List Output}

variable (hs : Stored cfg c h llog acked)

include hs

theorem peers_kept (hlog : n'.log = (c.nodes i).log)
    (hp : n'.peers = (c.nodes i).peers)
    (hr : (n'.role = (c.nodes i).role ∧ n'.currentTerm = (c.nodes i).currentTerm) ∨
      n'.role = .follower) (hx : n'.role = .leader) : ∀ p ∈ n'.peers,
      p.nextIndex ≤ n'.log.lastIndex+1 ∧ p.matchIndex ≤ acked n'.currentTerm p.id := by
  rcases hr with ⟨h1, h2⟩ | h1
  · rw [hlog, hp, h2]
    exact hs.peers i (h1 ▸ hx)
  · exact absurd (h1.symm.trans hx) (by simp)

theorem advance_quiet (ev : Event)
    (hq : Event.quiet ev = true) (hdel : c.delivers i ev) (he : step cfg i (c.nodes i) ev = some (n', outs)) :
    ∃ k, Advance cfg c h (record cfg c (i, .act ev) h) llog acked i n' outs k := by
  have hquiet := step_quiet hq he
  have hne : ev ≠ .tickNext := by
    rintro rfl
    simp [Event.quiet] at hq
  obtain ⟨htick, hasks⟩ := step_polls cfg hq he
  exact advance_still cfg c h _ _ _ i _ (record_lead cfg c i ev h hne)
    (record_voted cfg h hne hdel he) hquiet.term
    (hquiet.role.imp_right .inl) hquiet.log (fun req todo g ht => .inl (htick req todo g ht))
    hasks (fun src req resp hx => absurd hx (hquiet.replies src req resp))
    (fun dst req hx => absurd hx (hquiet.requests dst req))
    (peers_kept hs hquiet.log hquiet.peers hquiet.role)

omit hs in
theorem advance_frame (hd : StepsDown (c.nodes i) n') (hlog : n'.log = (c.nodes i).log)
    (ho : ∀ p, Output.send p ∈ outs → ∃ dst req, p = .appendReq dst req ∧ ∃ M, Stands req M ∧
      M <+: llog req.term)
    (hpeers : n'.role = .leader → ∀ p ∈ n'.peers, p.nextIndex ≤ n'.log.lastIndex+1 ∧
      p.matchIndex ≤ acked n'.currentTerm p.id) : ∃ k, Advance cfg c h h llog acked i n' outs k := by
  refine advance_still cfg c h h _ _ i _ rfl (fun _ _ _ hx => .inl hx) hd.term
    (hd.role.imp_right .inl) hlog (fun req todo g ht => .inl ⟨todo, g, hd.tick _ _ _ ht⟩)
    ?_ ?_ ?_ hpeers
  · intro dst req hx
    obtain ⟨_, _, hp, _⟩ := ho _ hx
    simp at hp
  · intro src req resp hx
    obtain ⟨_, _, hp, _⟩ := ho _ hx
    simp at hp
  · intro dst req hx
    obtain ⟨_, _, hp, hM⟩ := ho _ hx
    cases hp
    exact hM

theorem advance_tickNext (hv : Inv cfg c h)
    (hi : i ∈ cfg.members) (he : Effect cfg i (c.nodes i) .tickNext n' outs) :
    ∃ k, Advance cfg c h (record cfg c (i, .act .tickNext) h) llog acked i n' outs k := by
  have idle : ∀ t, (∀ req todo granted, t = .voting req todo granted →
        req = voteReqNow (c.nodes i) i (c.nodes i).currentTerm) →
      ∃ k, Advance cfg c h h llog acked i { c.nodes i with tick := t } [] k := by
    intro t ht
    exact advance_still cfg c h h _ _ i [] rfl (fun _ _ _ hx => .inl hx) (le_refl _)
      (.inl ⟨rfl, rfl⟩) rfl (fun req todo g hx => .inr (ht req todo g hx)) (by simp) (by simp)
      (by simp) (hs.peers i)
  unfold record
  cases he with
  | poll ht =>
    simp only [ht]
    exact idle _ fun req todo g hx => by cases hx; rfl
  | stand ht hq =>
    simp only [ht, if_pos hq]
    refine advance_still cfg c h _ _ _ i [] rfl ?_ (Nat.le_succ _)
      (.inr (.inr ⟨rfl, Nat.lt_succ_self _⟩)) rfl (by simp) (by simp) (by simp) (by simp) ?_
    · intro T q x hx
      simp only [Votes.cast] at hx
      split at hx
      · rename_i heq
        refine .inr ⟨heq.2, heq.1, .inl ⟨(some.inj hx).symm, ?_⟩⟩
        omega
      · exact .inl hx
    · intro hx
      simp [Node.becomeCandidate] at hx
  | preVoteLost ht hq =>
    simp only [ht, if_neg hq]
    exact idle _ (by simp)
  | @lead req granted ht hq =>
    simp only [ht, if_pos hq]
    obtain ⟨hr, hterm, hquo⟩ := hq
    have hc := hv.round i _ _ _ ht
    obtain ⟨hnone, _⟩ := inv_crown cfg c h hv hi hc hr hterm hquo
    have hmaj := majority_of_round cfg c h hv hi hc hr hterm hquo
    rw [← hterm] at hmaj
    have hpub : publish { (c.nodes i).becomeLeader i with tick := .idle } llog
        (c.nodes i).currentTerm = (c.nodes i).log.entries := by
      rw [publish_leader _ rfl]
      exact update_self ..
    refine ⟨(c.nodes i).log.entries.length, le_refl _, by simp [Node.becomeLeader],
      fun _ => ⟨rfl, .inr ⟨hr, rfl, hnone, hmaj⟩⟩, ?_, fun _ _ _ hx => .inl hx,
      .inl prefix_rfl, fun e he => .inl he, by simp, by simp, ?_, ?_,
      fun _ => le_refl _, by simp, by simp, ?_⟩
    · intro T hT
      by_cases hTt : T = (c.nodes i).currentTerm
      · exact .inr ⟨hTt, rfl, hr⟩
      unfold Led at hT
      simp only [Votes.crown, if_neg hTt] at hT
      exact .inl hT
    · exact le_of_eq (congrArg List.length hpub).symm
    · change (publish { (c.nodes i).becomeLeader i with tick := .idle } llog
        (c.nodes i).currentTerm).take _ <+: (c.nodes i).log.entries
      rw [hpub, take_length]
    · intro _ p hp
      obtain ⟨h1, h2⟩ := becomeLeader_next _ i p hp
      rw [h1, h2]
      exact ⟨le_refl _, Nat.zero_le _⟩
  | voteLost ht hq =>
    simp only [ht, if_neg hq]
    exact idle _ (by simp)

variable (hm : Matched cfg c h llog)

include hm

theorem advance_propose
    {type : EntryType} {payload : ByteFields.Bytes}
    (he : Effect cfg i (c.nodes i) (.propose type payload) n' outs) :
    ∃ k, Advance cfg c h h llog acked i n' outs k := by
  have hd := effect_down cfg i rfl he
  obtain ⟨hr, hr', ht, hp, hpeers, hent, _, _, rfl⟩ := propose_extends cfg (hm.plain i) he
  have hpub : publish n' llog n'.currentTerm = n'.log.entries := by
    rw [publish_leader _ hr', update_self]
  have hpre : (c.nodes i).log.entries <+: n'.log.entries := by
    rw [hent]
    exact prefix_append _ _
  refine ⟨n'.log.entries.length, hd.term, ?_, ?_, fun _ hT => .inl hT, fun _ _ _ hx => .inl hx,
    .inl hpre, ?_, fun req todo g hx => .inl ⟨todo, g, hd.tick _ _ _ hx⟩, by simp, ?_, ?_,
    fun _ => le_refl _, by simp, by simp, ?_⟩
  · intro hx
    exact absurd (hr'.symm.trans hx) (by simp)
  · refine fun _ => ⟨ht, .inl ⟨hr, hpre, ?_⟩⟩
    intro x e hx hxe
    rw [hent, getElem?_append_right hx] at hxe
    rw [mem_singleton.mp (mem_of_getElem? hxe), ht]
  · intro e hx
    rw [hent] at hx
    rcases mem_append.mp hx with hx | hx
    · exact .inl hx
    · rw [mem_singleton.mp hx, ht]
      exact .inr (.inr rfl)
  · rw [hpub]
  · rw [hpub, take_length]
  · intro _ p hx
    rw [hpeers] at hx
    obtain ⟨h1, h2⟩ := hs.peers i hr p hx
    rw [plain_last _ (hm.plain i)] at h1
    rw [plain_last _ hp, ht]
    exact ⟨by have := hpre.length_le; omega, h2⟩

variable {req : AppendReq}

theorem advance_recvAppend (hv : Inv cfg c h)
    (hnet : Packet.appendReq i req ∈ c.net) :
    ∃ k, Advance cfg c h h llog acked i (onAppendEntries (c.nodes i) req).1
      [.send (.appendResp i req (onAppendEntries (c.nodes i) req).2)] k := by
  by_cases hlt : req.term < (c.nodes i).currentTerm
  · have he : onAppendEntries (c.nodes i) req =
        (c.nodes i, ⟨(c.nodes i).currentTerm, false, 0⟩) := by
      rw [onAppendEntries, if_pos hlt]
    rw [he]
    refine advance_still cfg c h h _ _ i _ rfl (fun _ _ _ hx => .inl hx) (le_refl _)
      (.inl ⟨rfl, rfl⟩) rfl (fun req todo g hx => .inl ⟨todo, g, hx⟩) (by simp) ?_ (by simp)
      (hs.peers i)
    intro src req' resp hx
    simp only [mem_singleton, Output.send.injEq, Packet.appendResp.injEq] at hx
    rw [hx.2.2]
  have hd := onAppendEntries_down (c.nodes i) req
  obtain ⟨ht, hr⟩ := recvAppend_follows cfg c h hm hv hnet (by omega)
  obtain ⟨M, hst, hM⟩ := hs.stands i req hnet
  obtain ⟨h1, h2, h3⟩ := onAppend_follow (hm.plain i) (hm.rooted i)
    (hs.rooted _) hst hM (by omega)
  have hpub : publish (onAppendEntries (c.nodes i) req).1 llog = llog :=
    if_neg (by rw [hr]; simp)
  refine ⟨if (onAppendEntries (c.nodes i) req).2.success then M.length else 0, hd.term, ?_, ?_,
    fun _ hT => .inl hT, fun _ _ _ hx => .inl hx, ?_, ?_,
    fun req todo g hx => .inl ⟨todo, g, hd.tick _ _ _ hx⟩, by simp, ?_, ?_, ?_, ?_, by simp, ?_⟩
  · exact fun hx => absurd (hr.symm.trans hx) (by simp)
  · exact fun hx => absurd (hr.symm.trans hx) (by simp)
  · rw [ht]
    refine .inr ⟨?_, h1⟩
    unfold Led
    rw [(hm.sent i req hnet).2]
    simp
  · rw [ht]
    exact fun e he => (h2 e he).imp_right .inl
  · rw [hpub, ht]
    split
    · exact hM.length_le
    · exact Nat.zero_le _
  · rw [hpub, ht]
    split
    · rename_i hok
      rw [← prefix_iff_eq_take.mp hM]
      exact h3 hok
    · exact nil_prefix
  · exact fun hx => absurd (hr.symm.trans hx) (by simp)
  · intro src req' resp hx hok
    simp only [mem_singleton, Output.send.injEq, Packet.appendResp.injEq] at hx
    obtain ⟨rfl, rfl, rfl⟩ := hx
    rw [if_pos hok, hst.length]
    exact ⟨rfl, ht.symm, le_refl _⟩
  · exact fun hx => absurd (hr.symm.trans hx) (by simp)

theorem advance_replicate {peer : ℕ}
    (he : Effect cfg i (c.nodes i) (.replicate peer) n' outs) :
    ∃ k, Advance cfg c h h llog acked i n' outs k := by
  have hd := effect_down cfg i rfl he
  obtain ⟨hr, hlog, _, _, _, _, ht, _, hpeers, req, p, rfl, hp, hprev, hterm, _, _, hreq⟩ :=
    replicate_spec (hm.plain i) (hm.next i) he
  refine advance_frame hd hlog ?_ ?_
  · intro pkt hx
    simp only [mem_singleton, Output.send.injEq] at hx
    refine ⟨_, _, hx, ?_⟩
    rcases hreq with ⟨hb, _⟩ | ⟨j, _, hst⟩
    · -- a leader's next indices never pass the end of its log
      have := (hs.peers i hr p hp).1
      omega
    refine ⟨_, hst, ?_⟩
    rw [hterm, hm.leader i hr]
    exact take_prefix _ _
  · intro _ p' hp'
    obtain ⟨q, hq, hid, hmatch, q', hq', hnext⟩ := hpeers p' hp'
    rw [hlog, ht, hid, hmatch, hnext]
    exact ⟨(hs.peers i hr q' hq').1, (hs.peers i hr q hq).2⟩

theorem advance_reply {peer : ℕ}
    {resp : AppendResp} (hc : currentReply c (i, .act (.replicateReply peer req resp)))
    (hnet : Packet.appendResp peer req resp ∈ c.net)
    (he : Effect cfg i (c.nodes i) (.replicateReply peer req resp) n' outs) :
    ∃ k, Advance cfg c h h llog acked i n' outs k := by
  have hd := effect_down cfg i rfl he
  cases he
  have hlog := (mergeReply_plain (returned (c.nodes i) peer req) peer req resp (hm.next i)).1
  refine advance_frame hd hlog (by simp) ?_
  intro hr
  rw [hlog]
  rcases hd.role with ⟨h1, h2⟩ | h1
  · have hlead := h1.symm.trans hr
    rw [h2]
    refine mergeReply_peers peer req resp (hs.peers i hlead) ?_
    intro _ hterm hok
    have hcur : req.term = (c.nodes i).currentTerm := hc hlead hterm hok
    have hack := hs.replied peer req resp hnet hok
    have hsize := hs.size req.term peer
    rw [hcur] at hack hsize
    rw [hm.leader i hlead, ← plain_last _ (hm.plain i)] at hsize
    exact ⟨hack.trans hsize, hack⟩
  · exact absurd (h1.symm.trans hr) (by simp)

omit hm

theorem advance_timeout (w : ℕ) (hroll : noRollback c (i, .act (.timeout w)))
    (he : Effect cfg i (c.nodes i) (.timeout w) n' outs) : ∃ k, Advance cfg c h h llog acked i n' outs k := by
  have hd := effect_down cfg i rfl he
  cases he with
  | rollBack hx hpark hr =>
    simp only [noRollback, hx, elim_some] at hroll
    exact absurd ⟨hpark, hr⟩ hroll
  | giveUp => exact advance_frame hd rfl (by simp) (peers_kept hs rfl rfl hd.role)

omit hs

theorem advance_event (hv : Inv cfg c h) (hm : Matched cfg c h llog)
    (hs : Stored cfg c h llog acked) (hi : i ∈ cfg.members) (ev : Event)
    (hc : uncompacted cfg c (i, .act ev) = true) (hroll : noRollback c (i, .act ev))
    (hcur : currentReply c (i, .act ev)) (hdel : c.delivers i ev)
    (he : step cfg i (c.nodes i) ev = some (n', outs)) :
    ∃ k, Advance cfg c h (record cfg c (i, .act ev) h) llog acked i n' outs k := by
  by_cases hq : Event.quiet ev = true
  · exact advance_quiet hs ev hq hdel he
  have heff := step_effect he
  cases ev with
  | tickNext => exact advance_tickNext hs hv hi heff
  | recvAppend req =>
    cases he
    exact advance_recvAppend hs hm hv (hdel _ rfl)
  | propose type payload => exact advance_propose hs hm heff
  | timeout w => exact advance_timeout hs w hroll heff
  | replicate peer => exact advance_replicate hs hm heff
  | replicateReply peer req resp => exact advance_reply hs hm hcur (hdel _ rfl) heff
  | applyStep rc =>
    obtain ⟨hlog, _, hp, _, _, ho⟩ := applyStep_plain cfg i _ rc n' _
      (fun idx commit term ha => by simpa [uncompacted, ha] using hc) heff
    have hd := effect_down cfg i rfl heff
    exact advance_frame hd hlog (fun p hx => absurd hx (ho p)) (peers_kept hs hlog hp hd.role)
  | tickStart | tickAsk | tickReply _ | tickFail | checkQuorum _ | recvPreVote _ _ | recvVote _
  | wake _ | replicateFail _ _ | replicateDone => exact absurd rfl hq
  | recvInstall _ | installStep _ _ | transferStart _ _ | transferSend _ | transferAck _ _
  | transferAbort _ | transferDone _ => simp [uncompacted] at hc

theorem advance_boot (hv : Inv cfg c h) (ev : Event) (k : ℕ) :
    ∃ k', Advance cfg c h h llog acked i (Node.boot cfg i (diskAfter cfg i (c.nodes i) ev k).1
      (diskAfter cfg i (c.nodes i) ev k).2 (c.nodes i).log) [] k' :=
  advance_frame (boot_down cfg c h hv i ev k _) rfl (by simp)
    (fun hr => absurd hr (by simp [Node.boot]))

end Kinds

theorem stored_complete {h : Votes} {acked : ℕ → ℕ → ℕ} (hs : Stored cfg c h llog acked) {t j : ℕ} (T : ℕ)
    (hc : Chosen Entry.term llog cfg.members acked t j) (ht : t ≤ T) (hl : t < T → Led h T) :
    (llog t).take (j+1) <+: llog T := by
  by_cases he : t = T
  · rw [he]
    exact take_prefix _ _
  have hel : ∀ T, Led h T → Elected Entry.term llog cfg.members (Led h) acked T := by
    intro T hT
    obtain ⟨Q, hQ, hq⟩ := hs.elected T hT
    exact ⟨Q, hQ, fun q hx => (hq q hx).2⟩
  exact chosen_complete hel hc (by omega) (hl (by omega))

end QEngine.RaftCompleteness

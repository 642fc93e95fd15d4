import QEngine.StepRuns
import QEngine.HashRing

/-!
# Cluster members and the hash ring

The node manager keeps the members' states and edits the ring with each change: a
node is meant to be on the ring while it is ALIVE or JOINING. The rebalancer,
which works from a snapshot, and a refutation of the local node change one without
the other.
-/

namespace QEngine.NodeManager
open List ByteFields HashRing StepRuns

/-- A state byte off the wire is not checked; those without a name are `other`. -/
inductive NodeState where
  | joining
  | alive
  | suspect
  | dead
  | other (code : ℕ)
  deriving DecidableEq

def NodeState.ofCode : ℕ → NodeState
  | 0 => .joining
  | 1 => .alive
  | 2 => .suspect
  | 3 => .dead
  | n => .other n

def NodeState.inRing : NodeState → Bool
  | .joining => true
  | .alive => true
  | _ => false

/-- Addresses, role and times of a member are stored with it and read by none
of the functions here. -/
structure NodeInfo where
  id : NodeId
  state : NodeState
  version : ℕ
  suspectCount : ℤ
  deriving DecidableEq

def clusterMaxNodes : ℕ := 64

/-- The manager, and the nodes the rebalancer has still to give a weight to. -/
structure Manager where
  localId : NodeId
  nodes : List NodeInfo
  ring : Ring
  plan : List NodeId
  deriving DecidableEq

def managerNew (localId : NodeId) : Manager :=
  ⟨localId, [⟨localId, .alive, 1, 0⟩], empty.add localId, []⟩

def Manager.findNode (m : Manager) (id : NodeId) : Option NodeInfo :=
  m.nodes.find? fun n => n.id = id

def put (n : NodeInfo) : List NodeInfo → List NodeInfo
  | [] => []
  | k::ks => if k.id = n.id then n::ks else k::put n ks

def Manager.set (m : Manager) (n : NodeInfo) (ring : Ring) : Manager :=
  { m with nodes := put n m.nodes, ring := ring }

def resurrects (old info : NodeInfo) : Bool :=
  info.state = .alive && (old.state = .dead || old.state = .suspect) && old.version ≤ info.version

def merged (old info : NodeInfo) : NodeInfo :=
  if resurrects old info then { info with suspectCount := 0 } else info

def Manager.upsert (m : Manager) (info : NodeInfo) : Manager :=
  match m.findNode info.id with
  | none =>
    if clusterMaxNodes ≤ m.nodes.length then m
    else { m with
      nodes := m.nodes++[info]
      ring := if info.state.inRing then m.ring.add info.id else m.ring }
  | some old =>
    if old.version < info.version ∨ resurrects old info then
      m.set (merged old info) (
        if !old.state.inRing && info.state.inRing then m.ring.add info.id
        else if old.state.inRing && !info.state.inRing then m.ring.remove info.id
        else m.ring)
    else m

def bump (version : ℕ) : ℕ := (version+1)%2^64

def Manager.suspect (m : Manager) (id : NodeId) : Manager :=
  match m.findNode id with
  | none => m
  | some n =>
    if n.state = .alive then
      m.set { n with state := .suspect, suspectCount := n.suspectCount+1, version := bump n.version }
        (m.ring.remove id)
    else m

def Manager.dead (m : Manager) (id : NodeId) : Manager :=
  match m.findNode id with
  | none => m
  | some n => m.set { n with state := .dead, version := bump n.version } (m.ring.remove id)

def Manager.alive (m : Manager) (id : NodeId) (newVersion : ℕ) : Manager :=
  match m.findNode id with
  | none => m
  | some n =>
    m.set { n with state := .alive, suspectCount := 0, version := max n.version newVersion }
      (if n.state = .alive then m.ring else m.ring.add id)

def Manager.heartbeat (m : Manager) : Manager :=
  match m.findNode m.localId with
  | none => m
  | some n => m.set { n with version := bump n.version } m.ring

def Manager.refute (m : Manager) (peerVer : ℕ) : Manager :=
  match m.findNode m.localId with
  | none => m
  | some n =>
    m.set { n with
      state := .alive
      suspectCount := 0
      version := if n.version ≤ peerVer then bump peerVer else n.version } m.ring

def decodeRecord (p : Bytes) : NodeInfo :=
  ⟨leValue (p.take 8), .ofCode (leValue ((p.drop 56).take 1)), leValue ((p.drop 60).take 8),
    (BitVec.ofNat 32 (leValue ((p.drop 76).take 4))).toInt⟩

def Manager.receive (m : Manager) (info : NodeInfo) : Manager :=
  if info.id = m.localId then
    if info.state = .suspect ∨ info.state = .dead then m.refute info.version else m
  else m.upsert info

def Manager.snapshot (m : Manager) : List NodeId :=
  let active := (m.nodes.filter fun n => n.state = .alive).map NodeInfo.id
  if m.nodes.length ≤ 1 ∨ active.length ≤ 1 then [] else active

def balanceTarget (raw : ℤ) : ℤ := if raw < 32 then 32 else if 512 < raw then 512 else raw

def Manager.balance (m : Manager) (id : NodeId) (raw : ℤ) : Ring :=
  if (m.ring.getWeight id : ℤ) = balanceTarget raw then m.ring
  else m.ring.setWeight id (balanceTarget raw)

inductive Event where
  | upsert (info : NodeInfo)
  | record (p : Bytes)
  | suspect (id : NodeId)
  | dead (id : NodeId)
  | alive (id : NodeId) (version : ℕ)
  | heartbeat
  | refute (peerVer : ℕ)
  | snapshot
  | setWeight (raw : ℤ)
  deriving DecidableEq

def step (m : Manager) : Event → Option Manager
  | .upsert info => some (m.upsert info)
  | .record p => some (m.receive (decodeRecord p))
  | .suspect id => some (m.suspect id)
  | .dead id => some (m.dead id)
  | .alive id v => some (m.alive id v)
  | .heartbeat => some m.heartbeat
  | .refute v => some (m.refute v)
  | .snapshot => if m.plan = [] then some { m with plan := m.snapshot } else none
  | .setWeight raw =>
    match m.plan with
    | [] => none
    | id::rest => some { m with ring := m.balance id raw, plan := rest }

def Manager.Live (m : Manager) (id : NodeId) : Prop := ∃ n ∈ m.nodes, n.id = id ∧ n.state.inRing

instance (m : Manager) (id : NodeId) : Decidable (m.Live id) :=
  inferInstanceAs (Decidable (∃ n ∈ m.nodes, n.id = id ∧ n.state.inRing))

def Agrees (m : Manager) : Prop := ∀ id, id ∈ m.ring.ids ↔ m.Live id

def RefuteSettled (m : Manager) : Prop := ∀ n ∈ m.findNode m.localId, n.state.inRing

/-- A refutation finds the local node on the ring, and a change of weight its
node. -/
def Settled (m : Manager) : Event → Prop
  | .refute _ => RefuteSettled m
  | .record p =>
    (decodeRecord p).id = m.localId →
      (decodeRecord p).state = .suspect ∨ (decodeRecord p).state = .dead → RefuteSettled m
  | .setWeight raw => ∀ id ∈ m.plan.head?,
    (m.ring.getWeight id : ℤ) ≠ balanceTarget raw → m.Live id
  | _ => True

structure Inv (m : Manager) : Prop where
  ids : (m.nodes.map NodeInfo.id).Nodup
  size : m.nodes.length ≤ clusterMaxNodes
  ring : m.ring.Wf
  plan : ∀ id ∈ m.plan, id ∈ m.nodes.map NodeInfo.id
  agrees : Agrees m

variable {m : Manager} {id : NodeId} {n : NodeInfo}

theorem findNode_some (h : m.findNode id = some n) : n ∈ m.nodes ∧ n.id = id :=
  ⟨mem_of_find?_eq_some h, by simpa using find?_some h⟩

theorem findNode_none (h : m.findNode id = none) : id ∉ m.nodes.map NodeInfo.id := by
  intro hm
  obtain ⟨n, hn, he⟩ := mem_map.mp hm
  exact absurd (decide_eq_true he) (find?_eq_none.mp h n hn)

theorem put_ids (n : NodeInfo) (ns : List NodeInfo) : (put n ns).map NodeInfo.id = ns.map NodeInfo.id := by
  induction ns with
  | nil => rfl
  | cons k ks ih =>
    rw [put]
    split_ifs with h
    · rw [map_cons, map_cons, h]
    · rw [map_cons, map_cons, ih]

theorem mem_put {ns : List NodeInfo} (hu : (ns.map NodeInfo.id).Nodup)
    (hm : n.id ∈ ns.map NodeInfo.id) (k : NodeInfo) : k ∈ put n ns ↔ k = n ∨ (k ∈ ns ∧ k.id ≠ n.id) := by
  induction ns with
  | nil => cases hm
  | cons q qs ih =>
    obtain ⟨hnot, hu'⟩ := nodup_cons.mp hu
    rw [put]
    split_ifs with hq
    · rw [hq] at hnot
      have hrest : ∀ k ∈ qs, k.id ≠ n.id := fun k hk he => hnot (he ▸ mem_map_of_mem hk)
      constructor
      · intro hk
        exact (mem_cons.mp hk).imp (fun h => h) fun hk => ⟨mem_cons_of_mem _ hk, hrest k hk⟩
      rintro (rfl | ⟨hk, hne⟩)
      · exact mem_cons_self
      rcases mem_cons.mp hk with rfl | hk
      · exact absurd hq hne
      · exact mem_cons_of_mem _ hk
    have hin : n.id ∈ qs.map NodeInfo.id := (mem_cons.mp hm).resolve_left fun he => hq he.symm
    rw [mem_cons, ih hu' hin, mem_cons]
    constructor
    · rintro (rfl | rfl | ⟨hk, hne⟩)
      · exact .inr ⟨.inl rfl, hq⟩
      · exact .inl rfl
      · exact .inr ⟨.inr hk, hne⟩
    rintro (rfl | ⟨rfl | hk, hne⟩)
    · exact .inr (.inl rfl)
    · exact .inl rfl
    · exact .inr (.inr ⟨hk, hne⟩)

variable (hi : Inv m)

include hi

variable (hm : n.id ∈ m.nodes.map NodeInfo.id)

include hm

theorem live_set (ring : Ring) (j : NodeId) :
    (m.set n ring).Live j ↔ (j = n.id ∧ n.state.inRing) ∨ (j ≠ n.id ∧ m.Live j) := by
  have hput := mem_put hi.ids hm
  constructor
  · rintro ⟨k, hk, rfl, hs⟩
    rcases (hput k).mp hk with rfl | ⟨hk, hne⟩
    · exact .inl ⟨rfl, hs⟩
    · exact .inr ⟨hne, k, hk, rfl, hs⟩
  · rintro (⟨rfl, hs⟩ | ⟨hne, k, hk, rfl, hs⟩)
    · exact ⟨n, (hput n).mpr (.inl rfl), rfl, hs⟩
    · exact ⟨k, (hput k).mpr (.inr ⟨hk, hne⟩), rfl, hs⟩

omit hm in
theorem live_iff_find (hf : m.findNode id = some n) : m.Live id ↔ n.state.inRing := by
  obtain ⟨hn, rfl⟩ := findNode_some hf
  constructor
  · rintro ⟨k, hk, he, hs⟩
    rwa [inj_on_of_nodup_map hi.ids hk hn he] at hs
  · exact fun hs => ⟨n, hn, rfl, hs⟩

omit hm in
theorem ring_room (hm : id ∈ m.nodes.map NodeInfo.id) :
    id ∈ m.ring.ids ∨ m.ring.nodes.length < ringMaxNodes := by
  by_cases h : id ∈ m.ring.ids
  · exact .inl h
  refine .inr ?_
  have hsub : id::m.ring.ids ⊆ m.nodes.map NodeInfo.id := by
    intro j hj
    rcases mem_cons.mp hj with rfl | hj
    · exact hm
    · obtain ⟨n, hn, rfl, -⟩ := (hi.agrees j).mp hj
      exact mem_map_of_mem hn
  have hlen := (subperm_of_subset (nodup_cons.mpr ⟨h, hi.ring.ids⟩) hsub).length_le
  have hsize := hi.size
  simp only [length_cons, length_map, Ring.ids] at hlen
  rw [clusterMaxNodes] at hsize
  rw [ringMaxNodes]
  omega

theorem set_inv {ring : Ring} (hw : ring.Wf)
    (hr : ∀ j, j ∈ ring.ids ↔ (j = n.id ∧ n.state.inRing) ∨ (j ≠ n.id ∧ j ∈ m.ring.ids)) :
    Inv (m.set n ring) where
  ids := by
    rw [Manager.set, put_ids]
    exact hi.ids
  size := by
    have h := congrArg List.length (put_ids n m.nodes)
    rw [length_map, length_map] at h
    exact h.trans_le hi.size
  ring := hw
  plan := by
    intro id hid
    rw [Manager.set, put_ids]
    exact hi.plan id hid
  agrees := by
    intro j
    rw [live_set hi hm, ← hi.agrees j]
    exact hr j

theorem set_add_inv (hs : n.state.inRing = true) : Inv (m.set n (m.ring.add n.id)) := by
  refine set_inv hi hm (addWeighted_wf hi.ring _ _) fun j => ?_
  rw [Ring.add, addWeighted_ids _ _ j (ring_room hi hm)]
  by_cases hj : j = n.id <;> simp [hj, hs]

theorem set_remove_inv (hs : n.state.inRing = false) :
    Inv (m.set n (m.ring.remove n.id)) := by
  refine set_inv hi hm (remove_wf hi.ring _) fun j => ?_
  rw [remove_ids hi.ring _ j]
  simp [hs]

omit hm

theorem set_keep_inv {old : NodeInfo} (hf : m.findNode n.id = some old)
    (hs : n.state.inRing = old.state.inRing) : Inv (m.set n m.ring) := by
  have hin := findNode_some hf
  refine set_inv hi (hin.2 ▸ mem_map_of_mem hin.1) hi.ring fun j => ?_
  by_cases hj : j = n.id
  · have hlive := (hi.agrees n.id).trans (live_iff_find hi hf)
    simp [hj, hs, hlive]
  · simp [hj]

theorem join_inv {info : NodeInfo} (hnot : info.id ∉ m.nodes.map NodeInfo.id)
    (hroom : m.nodes.length < clusterMaxNodes) :
    Inv { m with
      nodes := m.nodes++[info]
      ring := if info.state.inRing then m.ring.add info.id else m.ring } := by
  have hlen : m.ring.nodes.length < ringMaxNodes := by
    have hsub : m.ring.ids ⊆ m.nodes.map NodeInfo.id := fun j hj => by
      obtain ⟨n, hn, rfl, -⟩ := (hi.agrees j).mp hj
      exact mem_map_of_mem hn
    have hle := (subperm_of_subset hi.ring.ids hsub).length_le
    simp only [length_map, Ring.ids] at hle
    exact hle.trans_lt hroom
  have hlive : ∀ j, (∃ n ∈ m.nodes++[info], n.id = j ∧ n.state.inRing) ↔
      m.Live j ∨ (j = info.id ∧ info.state.inRing) := by
    intro j
    simp only [Manager.Live, mem_append, mem_singleton, or_and_right, exists_or,
      exists_eq_left]
    rw [eq_comm (a := info.id)]
  constructor
  · rw [map_append]
    refine nodup_append.mpr ⟨hi.ids, nodup_singleton _, fun j hj k hk he => hnot ?_⟩
    have hk : k = info.id := mem_singleton.mp hk
    rw [← hk, ← he]
    exact hj
  · simp only [length_append, length_singleton]
    omega
  · dsimp only
    split_ifs
    · exact addWeighted_wf hi.ring _ _
    · exact hi.ring
  · intro id hid
    rw [map_append]
    exact mem_append_left _ (hi.plan id hid)
  · intro j
    refine Iff.trans ?_ (hlive j).symm
    rw [← hi.agrees j]
    split_ifs with hs
    · rw [Ring.add, addWeighted_ids _ _ j (.inr hlen)]
      simp [hs, or_comm]
    · simp [hs]

omit hi in
@[simp] theorem merged_id (old info : NodeInfo) : (merged old info).id = info.id := by
  rw [merged]
  split_ifs <;> rfl

omit hi in
@[simp] theorem merged_state (old info : NodeInfo) : (merged old info).state = info.state := by
  rw [merged]
  split_ifs <;> rfl

theorem upsert_inv (info : NodeInfo) : Inv (m.upsert info) := by
  rw [Manager.upsert]
  cases hf : m.findNode info.id with
  | none =>
    by_cases hfull : clusterMaxNodes ≤ m.nodes.length
    · rw [if_pos hfull]
      exact hi
    · rw [if_neg hfull]
      exact join_inv hi (findNode_none hf) (Nat.not_le.mp hfull)
  | some old =>
    obtain ⟨hold, hid⟩ := findNode_some hf
    have hm : (merged old info).id ∈ m.nodes.map NodeInfo.id := by
      rw [merged_id, ← hid]
      exact mem_map_of_mem hold
    dsimp only
    by_cases hv : old.version < info.version ∨ resurrects old info
    · rw [if_pos hv, ← merged_id old _]
      cases hw : old.state.inRing <;> cases hn : info.state.inRing
      · exact set_keep_inv hi (by rwa [merged_id]) (by simp [hw, hn])
      · exact set_add_inv hi hm (by simpa using hn)
      · exact set_remove_inv hi hm (by simpa using hn)
      · exact set_keep_inv hi (by rwa [merged_id]) (by simp [hw, hn])
    · rw [if_neg hv]
      exact hi

theorem find_set_inv {f : NodeInfo → Manager}
    (hf : ∀ n, m.findNode id = some n → n.id = id → id ∈ m.nodes.map NodeInfo.id → Inv (f n)) :
    Inv (match m.findNode id with
      | none => m
      | some n => f n) := by
  cases h : m.findNode id with
  | none => exact hi
  | some n =>
    obtain ⟨hn, rfl⟩ := findNode_some h
    exact hf n h rfl (mem_map_of_mem hn)

theorem suspect_inv (id : NodeId) : Inv (m.suspect id) := by
  refine find_set_inv hi fun n _ hid hm => ?_
  subst hid
  split_ifs
  · exact set_remove_inv hi hm rfl
  · exact hi

theorem dead_inv (id : NodeId) : Inv (m.dead id) := by
  refine find_set_inv hi fun n _ hid hm => ?_
  subst hid
  exact set_remove_inv hi hm rfl

theorem alive_inv (id : NodeId) (v : ℕ) : Inv (m.alive id v) := by
  refine find_set_inv hi fun n hf hid hm => ?_
  subst hid
  split_ifs with ha
  · exact set_keep_inv hi hf (by rw [ha])
  · exact set_add_inv hi hm rfl

theorem heartbeat_inv : Inv m.heartbeat := by
  refine find_set_inv hi fun n hf hid _ => ?_
  rw [← hid] at hf
  exact set_keep_inv hi hf rfl

theorem refute_inv (v : ℕ) (hs : RefuteSettled m) : Inv (m.refute v) := by
  refine find_set_inv hi fun n hf hid _ => ?_
  have hlive : n.state.inRing = true := hs n hf
  rw [← hid] at hf
  exact set_keep_inv hi hf hlive.symm

theorem refute_breaks (v : ℕ) (hs : ¬RefuteSettled m) : ¬Agrees (m.refute v) := by
  intro ha
  apply hs
  intro n hf
  obtain ⟨hn, hid⟩ := findNode_some hf
  have hl := (ha m.localId).mpr (by
    rw [Manager.refute, hf]
    exact (live_set hi (by rw [hid]; exact hid ▸ mem_map_of_mem hn) _ _).mpr (.inl ⟨hid.symm, rfl⟩))
  rw [Manager.refute, hf] at hl
  exact (live_iff_find hi hf).mp ((hi.agrees _).mp hl)

theorem receive_inv (info : NodeInfo)
    (hs : info.id = m.localId → info.state = .suspect ∨ info.state = .dead → RefuteSettled m) :
    Inv (m.receive info) := by
  rw [Manager.receive]
  split_ifs with hl hd
  · exact refute_inv hi _ (hs hl hd)
  · exact hi
  · exact upsert_inv hi _

omit hi in
theorem snapshot_members : ∀ id ∈ m.snapshot, id ∈ m.nodes.map NodeInfo.id := by
  intro id hid
  unfold Manager.snapshot at hid
  extract_lets active at hid
  split_ifs at hid
  · cases hid
  · obtain ⟨n, hn, rfl⟩ := mem_map.mp hid
    exact mem_map_of_mem (mem_of_mem_filter hn)

theorem balance_ids (hm : id ∈ m.nodes.map NodeInfo.id) (raw : ℤ)
    (j : NodeId) : j ∈ (m.balance id raw).ids ↔
      (j = id ∧ (m.ring.getWeight id : ℤ) ≠ balanceTarget raw) ∨ j ∈ m.ring.ids := by
  rw [Manager.balance]
  split_ifs with hw
  · simp [hw]
  · rw [setWeight_ids j (ring_room hi hm)]
    simp [hw]

variable {rest : List NodeId}

theorem balance_inv (hp : m.plan = id::rest) {raw : ℤ}
    (hs : (m.ring.getWeight id : ℤ) ≠ balanceTarget raw → m.Live id) :
    Inv { m with ring := m.balance id raw, plan := rest } where
  ids := hi.ids
  size := hi.size
  ring := by
    rw [Manager.balance]
    split_ifs
    · exact hi.ring
    · exact setWeight_wf hi.ring
  plan := fun j hj => hi.plan j (by rw [hp]; exact mem_cons_of_mem _ hj)
  agrees := by
    intro j
    have hm : id ∈ m.nodes.map NodeInfo.id := hi.plan id (by rw [hp]; exact mem_cons_self)
    rw [balance_ids hi hm raw j, hi.agrees j]
    constructor
    · rintro (⟨rfl, hw⟩ | hl)
      · exact hs hw
      · exact hl
    · exact .inr

theorem balance_breaks (hp : m.plan = id::rest) {raw : ℤ} (hw : (m.ring.getWeight id : ℤ) ≠ balanceTarget raw)
    (hs : ¬m.Live id) : ¬Agrees { m with ring := m.balance id raw, plan := rest } := by
  intro ha
  have hm : id ∈ m.nodes.map NodeInfo.id := hi.plan id (by rw [hp]; exact mem_cons_self)
  exact hs ((ha id).mp ((balance_ids hi hm raw id).mpr (.inl ⟨rfl, hw⟩)))

theorem step_inv {m' : Manager} {e : Event} (hs : Settled m e) (h : step m e = some m') : Inv m' := by
  cases e with
  | upsert info =>
    cases h
    exact upsert_inv hi _
  | record p =>
    cases h
    exact receive_inv hi _ hs
  | suspect id =>
    cases h
    exact suspect_inv hi id
  | dead id =>
    cases h
    exact dead_inv hi id
  | alive id v =>
    cases h
    exact alive_inv hi id v
  | heartbeat =>
    cases h
    exact heartbeat_inv hi
  | refute v =>
    cases h
    exact refute_inv hi v hs
  | snapshot =>
    rw [step, Option.ite_some_none_eq_some] at h
    rw [← h.2]
    exact ⟨hi.ids, hi.size, hi.ring, snapshot_members, hi.agrees⟩
  | setWeight raw =>
    cases hp : m.plan with
    | nil =>
      rw [step, hp] at h
      cases h
    | cons id rest =>
      rw [step, hp] at h
      cases h
      exact balance_inv hi hp (hs id (by rw [hp]; rfl))

theorem step_breaks {e : Event} (hs : ¬Settled m e) : ∃ m', step m e = some m' ∧ ¬Agrees m' := by
  cases e with
  | refute v => exact ⟨_, rfl, refute_breaks hi v hs⟩
  | record p =>
    rw [Settled, not_forall] at hs
    obtain ⟨hl, hs⟩ := hs
    rw [not_forall] at hs
    obtain ⟨hd, hs⟩ := hs
    refine ⟨_, rfl, ?_⟩
    rw [Manager.receive, if_pos hl, if_pos hd]
    exact refute_breaks hi _ hs
  | setWeight raw =>
    cases hp : m.plan with
    | nil => exact absurd (fun id hid => by rw [hp] at hid; cases hid) hs
    | cons id rest =>
      refine ⟨_, by rw [step, hp], ?_⟩
      have hn : ¬((m.ring.getWeight id : ℤ) ≠ balanceTarget raw → m.Live id) := fun hn =>
        hs fun j hj => by
          rw [hp] at hj
          cases hj
          exact hn
      rw [not_forall] at hn
      obtain ⟨hw, hl⟩ := hn
      exact balance_breaks hi hp hw hl
  | upsert info | suspect id | dead id | alive id v | heartbeat | snapshot => exact absurd trivial hs

omit hi

theorem managerNew_inv (localId : NodeId) : Inv (managerNew localId) where
  ids := by simp [managerNew]
  size := by simp [managerNew, clusterMaxNodes]
  ring := addWeighted_wf empty_wf _ _
  plan := fun _ h => by cases h
  agrees := by
    intro j
    rw [managerNew, Ring.add, addWeighted_ids _ _ j (.inr (by decide))]
    constructor
    · rintro (rfl | h)
      · exact ⟨_, mem_singleton.mpr rfl, rfl, rfl⟩
      · cases h
    rintro ⟨n, hn, rfl, -⟩
    rw [mem_singleton.mp hn]
    exact .inl rfl

/-- Ring and states agree exactly when every refutation finds the local node on the ring and no
weight is given to a node that has left it. -/
theorem ring_agrees_throughout_iff (localId : NodeId) (es : List Event) :
    Throughout step Agrees (managerNew localId) es ↔ Along step Settled (managerNew localId) es :=
  throughout_iff Inv _ (fun _ hi => hi.agrees)
    (fun _ _ _ hi _ hs h => step_inv hi hs h) (fun _ _ hi _ hs => step_breaks hi hs)
    es _ (managerNew_inv _) (along_all (fun _ _ => trivial) _ es)

/-- Node 2 is suspected before its weight is set, and a record that it is DEAD leaves it on the
ring. -/
def staleWeight : List Event :=
  [.upsert ⟨2, .alive, 1, 0⟩, .snapshot, .suspect 2, .setWeight 256, .setWeight 256, .upsert ⟨2, .dead, 5, 0⟩]

theorem stale_weight_keeps_dead_node :
    ∃ m, run step (managerNew 1) staleWeight = some m ∧ 2 ∈ m.ring.ids ∧ m.ring.getWeight 2 = 256 ∧
      m.findNode 2 = some ⟨2, .dead, 5, 0⟩ ∧ ¬m.Live 2 :=
  run_reaches step (managerNew 1) staleWeight
    (fun m => 2 ∈ m.ring.ids ∧ m.ring.getWeight 2 = 256 ∧ m.findNode 2 = some ⟨2, .dead, 5, 0⟩ ∧ ¬m.Live 2)
    (by decide +kernel)

end QEngine.NodeManager

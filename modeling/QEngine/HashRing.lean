import QEngine.ByteFields

/-!
# The hash ring

Each node of the ring has a number of virtual nodes, placed at the hashes of the
node's number and an index. A key belongs to the nodes met first when the ring is
walked from the key's hash.
-/

namespace QEngine.HashRing
open List ByteFields

abbrev NodeId := ℕ

def ringVn : ℤ := 256
def ringMaxNodes : ℕ := 64
def ringVnMax : ℕ := 512

def fnv1a64 (data : Bytes) : ℕ :=
  data.foldl (fun h b => (h ^^^ b.toNat)*1099511628211%2^64) 14695981039346656037

structure Vnode where
  hash : ℕ
  nodeId : NodeId
  deriving DecidableEq

structure Ring where
  nodes : List (NodeId × ℕ)
  vnodes : List Vnode
  deriving DecidableEq

def empty : Ring := ⟨[], []⟩

def Ring.ids (r : Ring) : List NodeId := r.nodes.map Prod.fst

def vnode (id : NodeId) (v : ℕ) : Vnode := ⟨fnv1a64 (leBytes 8 id++leBytes 4 v), id⟩

def placeVnodes (id : NodeId) (count : ℕ) (vs : List Vnode) : List Vnode :=
  (List.range count).foldl
    (fun vs v => if ringMaxNodes*ringVnMax ≤ vs.length then vs else vs++[vnode id v]) vs

def clampVn (n : ℤ) : ℕ := if n < 1 then 1 else if (ringVnMax : ℤ) < n then ringVnMax else n.toNat

/-- No caller looks at the return code, so a full ring is left as it is. -/
def Ring.addWeighted (r : Ring) (id : NodeId) (n : ℤ) : Ring :=
  if id ∈ r.ids then r
  else if ringMaxNodes ≤ r.nodes.length then r
  else ⟨r.nodes++[(id, clampVn n)], placeVnodes id (clampVn n) r.vnodes⟩

def Ring.add (r : Ring) (id : NodeId) : Ring := r.addWeighted id ringVn

def Ring.getWeight (r : Ring) (id : NodeId) : ℕ :=
  ((r.nodes.find? fun p => p.1 = id).map Prod.snd).getD 0

def reweigh (id : NodeId) (n : ℕ) : List (NodeId × ℕ) → List (NodeId × ℕ)
  | [] => []
  | p::ps => if p.1 = id then (id, n)::ps else p::reweigh id n ps

def Ring.setWeight (r : Ring) (id : NodeId) (n : ℤ) : Ring :=
  if id ∈ r.ids then
    if r.getWeight id = clampVn n then r
    else ⟨reweigh id (clampVn n) r.nodes,
      placeVnodes id (clampVn n) (r.vnodes.filter fun v => v.nodeId ≠ id)⟩
  else r.addWeighted id n

/-- The source moves the last node into the free place; nothing reads the order. -/
def Ring.remove (r : Ring) (id : NodeId) : Ring :=
  if id ∈ r.ids then
    ⟨r.nodes.eraseP fun p => p.1 = id, r.vnodes.filter fun v => v.nodeId ≠ id⟩
  else r

def collect (limit : ℕ) : List NodeId → List Vnode → List NodeId
  | found, [] => found
  | found, v::vs =>
    if limit ≤ found.length then found
    else collect limit (if v.nodeId ∈ found then found else found++[v.nodeId]) vs

def Ring.owner (r : Ring) (key : Bytes) (replicas : ℕ) : List NodeId :=
  let sorted := r.vnodes.insertionSort fun a b => a.hash ≤ b.hash
  let pos := sorted.findIdx fun v => decide (fnv1a64 key ≤ v.hash)
  let start := if sorted.length ≤ pos then 0 else pos
  collect (min replicas r.nodes.length) [] (sorted.drop start++sorted.take start)

/-- A listed node has as many virtual nodes as its weight says, and there are
no others. -/
structure Ring.Wf (r : Ring) : Prop where
  ids : r.ids.Nodup
  size : r.nodes.length ≤ ringMaxNodes
  weights : ∀ p ∈ r.nodes, 1 ≤ p.2 ∧ p.2 ≤ ringVnMax
  placed : ∀ p ∈ r.nodes, r.vnodes.countP (fun v => v.nodeId = p.1) = p.2
  total : r.vnodes.length = (r.nodes.map Prod.snd).sum
  known : ∀ v ∈ r.vnodes, v.nodeId ∈ r.ids

theorem empty_wf : empty.Wf := by
  constructor <;> simp [empty, Ring.ids]

theorem clampVn_bounds (n : ℤ) : 1 ≤ clampVn n ∧ clampVn n ≤ ringVnMax := by
  rw [clampVn, ringVnMax]
  split_ifs <;> omega

variable {vs : List Vnode}

theorem placeVnodes_eq (id : NodeId) {count : ℕ} (h : vs.length+count ≤ ringMaxNodes*ringVnMax) :
    placeVnodes id count vs = vs++(List.range count).map (vnode id) := by
  induction count with
  | zero => simp [placeVnodes]
  | succ n ih =>
    have hn := ih (by omega)
    rw [placeVnodes] at hn ⊢
    rw [range_succ, foldl_append, hn, foldl_cons, foldl_nil, if_neg]
    · simp
    · simp only [length_append, length_map, length_range]
      omega

theorem weights_sum_le (ns : List (NodeId × ℕ)) (h : ∀ p ∈ ns, p.2 ≤ ringVnMax) :
    (ns.map Prod.snd).sum ≤ ns.length*ringVnMax := by
  have hs := sum_le_card_nsmul _ ringVnMax (by
    intro w hw
    obtain ⟨p, hp, rfl⟩ := mem_map.mp hw
    exact h p hp)
  simpa using hs

variable {id : NodeId}

theorem split_at {ns : List (NodeId × ℕ)} (h : id ∈ ns.map Prod.fst) :
    ∃ a w b, ns = a++(id, w)::b ∧ (∀ n, reweigh id n ns = a++(id, n)::b) ∧
    ns.eraseP (fun p => p.1 = id) = a++b := by
  induction ns with
  | nil => cases h
  | cons q qs ih =>
    by_cases hq : q.1 = id
    · obtain ⟨i, w⟩ := q
      subst hq
      exact ⟨[], w, qs, rfl, fun n => by simp [reweigh], by simp⟩
    have hrest : id ∈ qs.map Prod.fst :=
      (mem_cons.mp h).resolve_left fun he => hq he.symm
    obtain ⟨a, w, b, hs, hr, he⟩ := ih hrest
    refine ⟨q::a, w, b, by rw [hs]; rfl, fun n => ?_, ?_⟩
    · rw [reweigh, if_neg hq, hr]
      rfl
    · rw [eraseP_cons_of_neg (by simpa using hq), he]
      rfl

theorem wf_perm {ns ms : List (NodeId × ℕ)} (hp : ns.Perm ms)
    (h : Ring.Wf ⟨ns, vs⟩) : Ring.Wf ⟨ms, vs⟩ where
  ids := ((hp.map Prod.fst).nodup_iff).mp h.ids
  size := hp.length_eq ▸ h.size
  weights := fun p hm => h.weights p (hp.mem_iff.mpr hm)
  placed := fun p hm => h.placed p (hp.mem_iff.mpr hm)
  total := h.total.trans (hp.map Prod.snd).sum_eq
  known := fun v hv => (hp.map Prod.fst).mem_iff.mp (h.known v hv)

theorem mem_fst_split {a b : List (NodeId × ℕ)} {j : NodeId} {w : ℕ} :
    j ∈ (a++(id, w)::b).map Prod.fst ↔ j = id ∨ j ∈ (a++b).map Prod.fst := by
  rw [(perm_middle.map Prod.fst).mem_iff, map_cons, mem_cons]

variable {r : Ring}

theorem remove_ids (h : r.Wf) (id j : NodeId) : j ∈ (r.remove id).ids ↔ j ≠ id ∧ j ∈ r.ids := by
  rw [Ring.remove]
  split_ifs with hm
  · obtain ⟨a, w, b, hs, -, he⟩ := split_at hm
    have hu := h.ids
    rw [he]
    rw [Ring.ids, hs, (perm_middle.map Prod.fst).nodup_iff, map_cons, nodup_cons] at hu
    have hj : j ∈ r.ids ↔ j = id ∨ j ∈ (a++b).map Prod.fst := by
      rw [Ring.ids, hs, mem_fst_split]
    rw [hj]
    constructor
    · intro hin
      exact ⟨fun he => hu.1 (he ▸ hin), .inr hin⟩
    · rintro ⟨hne, hor⟩
      exact hor.resolve_left hne
  · exact ⟨fun hj => ⟨fun he => hm (he ▸ hj), hj⟩, fun hj => hj.2⟩

theorem remove_wf (h : r.Wf) (id : NodeId) : (r.remove id).Wf := by
  have hids := remove_ids h id
  rw [Ring.remove] at hids ⊢
  split_ifs at hids ⊢ with hm
  · obtain ⟨a, w, b, hs, -, he⟩ := split_at hm
    have hsub : ∀ p ∈ a++b, p ∈ r.nodes := fun p hp => by
      rw [hs]
      exact (perm_middle.mem_iff).mpr (mem_cons_of_mem _ hp)
    have hlen : r.nodes.length = (a++b).length+1 := by simp [hs]; omega
    rw [he] at hids ⊢
    have hne : ∀ p ∈ a++b, p.1 ≠ id := fun p hp => ((hids p.1).mp (mem_map_of_mem hp)).1
    constructor
    · refine h.ids.sublist ?_
      rw [Ring.ids, Ring.ids, hs]
      exact (List.Sublist.append_left (sublist_cons_self _ _) a).map Prod.fst
    · have := h.size
      show (a++b).length ≤ _
      omega
    · exact fun p hp => h.weights p (hsub p hp)
    · intro p hp
      rw [countP_filter, ← h.placed p (hsub p hp)]
      refine countP_congr fun v _ => ?_
      have := hne p hp
      simp only [Bool.and_eq_true, decide_eq_true_eq]
      exact ⟨fun hv => hv.1, fun hv => ⟨hv, by rw [hv]; exact this⟩⟩
    · have hw := h.placed (id, w) (by rw [hs]; simp)
      have ht := h.total
      have hf : (r.vnodes.filter fun v => v.nodeId ≠ id).length+
          r.vnodes.countP (fun v => v.nodeId = id) = r.vnodes.length := by
        have hl := r.vnodes.length_eq_length_filter_add fun v => decide (v.nodeId = id)
        rw [countP_eq_length_filter, Nat.add_comm, hl]
        simp only [ne_eq, decide_not]
      rw [hs, (perm_middle.map Prod.snd).sum_eq, map_cons, sum_cons] at ht
      show (r.vnodes.filter fun v => v.nodeId ≠ id).length = ((a++b).map Prod.snd).sum
      dsimp only at hw
      omega
    · intro v hv
      obtain ⟨hv, hn⟩ := mem_filter.mp hv
      exact (hids v.nodeId).mpr ⟨by simpa using hn, h.known v hv⟩
  · exact h

theorem vnodes_room (h : r.Wf) (hr : r.nodes.length < ringMaxNodes) (n : ℤ) :
    r.vnodes.length+clampVn n ≤ ringMaxNodes*ringVnMax := by
  have hs := weights_sum_le _ fun p hp => (h.weights p hp).2
  have hl : (r.nodes.length+1)*ringVnMax ≤ ringMaxNodes*ringVnMax := Nat.mul_le_mul_right _ hr
  have hc := (clampVn_bounds n).2
  rw [h.total]
  rw [Nat.add_mul, Nat.one_mul] at hl
  omega

theorem addWeighted_wf (h : r.Wf) (id : NodeId) (n : ℤ) : (r.addWeighted id n).Wf := by
  rw [Ring.addWeighted]
  split_ifs with hm hfull
  · exact h
  · exact h
  obtain ⟨hlo, hhi⟩ := clampVn_bounds n
  have hnot : ∀ v ∈ r.vnodes, v.nodeId ≠ id := fun v hv he => hm (he ▸ h.known v hv)
  have hnew : ∀ j, ((List.range (clampVn n)).map (vnode id)).countP (fun v => v.nodeId = j) =
      if j = id then clampVn n else 0 := by
    intro j
    rw [countP_map]
    split_ifs with hj
    · rw [countP_eq_length.mpr (by simp [vnode, hj]), length_range]
    · exact countP_eq_zero.mpr (by simp [vnode, Ne.symm hj])
  rw [placeVnodes_eq id (vnodes_room h (not_le.mp hfull) n)]
  constructor
  · rw [Ring.ids, map_append]
    refine nodup_append.mpr ⟨h.ids, nodup_singleton _, fun j hj k hk he => hm ?_⟩
    have hk : k = id := mem_singleton.mp hk
    rw [← hk, ← he]
    exact hj
  · simp only [length_append, length_singleton]
    omega
  · intro p hp
    rcases mem_append.mp hp with hp | hp
    · exact h.weights p hp
    · rw [mem_singleton.mp hp]
      exact ⟨hlo, hhi⟩
  · intro p hp
    rw [countP_append, hnew]
    rcases mem_append.mp hp with hp | hp
    · have hne : p.1 ≠ id := fun he => hm (he ▸ mem_map_of_mem hp)
      rw [h.placed p hp, if_neg hne, Nat.add_zero]
    rw [mem_singleton.mp hp, if_pos rfl]
    have hz : r.vnodes.countP (fun v => v.nodeId = id) = 0 :=
      countP_eq_zero.mpr (by simpa using hnot)
    rw [hz, Nat.zero_add]
  · simp [h.total]
  · intro v hv
    rw [Ring.ids, map_append]
    rcases mem_append.mp hv with hv | hv
    · exact mem_append_left _ (h.known v hv)
    · obtain ⟨i, -, rfl⟩ := mem_map.mp hv
      exact mem_append_right _ (mem_singleton.mpr rfl)

theorem addWeighted_ids (id : NodeId) (n : ℤ) (j : NodeId)
    (hroom : id ∈ r.ids ∨ r.nodes.length < ringMaxNodes) :
    j ∈ (r.addWeighted id n).ids ↔ j = id ∨ j ∈ r.ids := by
  rw [Ring.addWeighted]
  split_ifs with hm hfull
  · exact ⟨.inr, fun h => h.elim (fun he => he ▸ hm) (fun h => h)⟩
  · exact absurd (hroom.resolve_left hm) (Nat.not_lt.mpr hfull)
  · simp only [Ring.ids, map_append, map_cons, map_nil, mem_append, mem_singleton]
    exact or_comm

theorem setWeight_cases (h : r.Wf) (id : NodeId) (n : ℤ) (hm : id ∈ r.ids) :
    r.setWeight id n = r ∨ ∃ ms, ms.Perm ((r.remove id).addWeighted id n).nodes ∧
      r.setWeight id n = ⟨ms, ((r.remove id).addWeighted id n).vnodes⟩ := by
  rw [Ring.setWeight, if_pos hm]
  split_ifs with hw
  · exact .inl rfl
  obtain ⟨a, w, b, hs, hr, he⟩ := split_at hm
  have hgone : id ∉ (r.remove id).ids := fun hin => ((remove_ids h id id).mp hin).1 rfl
  have hlen : (r.remove id).nodes.length < ringMaxNodes := by
    have := h.size
    rw [hs] at this
    rw [Ring.remove, if_pos hm, he]
    simp only [length_append, length_cons] at this ⊢
    omega
  refine .inr ⟨reweigh id (clampVn n) r.nodes, ?_, ?_⟩
  · rw [Ring.addWeighted, if_neg hgone, if_neg (Nat.not_le.mpr hlen), Ring.remove, if_pos hm, he, hr]
    exact perm_middle.trans (perm_append_singleton _ _).symm
  · rw [Ring.addWeighted, if_neg hgone, if_neg (Nat.not_le.mpr hlen), Ring.remove, if_pos hm]

theorem setWeight_wf (h : r.Wf) {n : ℤ} : (r.setWeight id n).Wf := by
  by_cases hm : id ∈ r.ids
  · obtain he | ⟨ms, hp, he⟩ := setWeight_cases h id n hm
    · rw [he]
      exact h
    · rw [he]
      exact wf_perm hp.symm (addWeighted_wf (remove_wf h id) id n)
  · rw [Ring.setWeight, if_neg hm]
    exact addWeighted_wf h id n

theorem setWeight_ids {n : ℤ} (j : NodeId) (hroom : id ∈ r.ids ∨ r.nodes.length < ringMaxNodes) :
    j ∈ (r.setWeight id n).ids ↔ j = id ∨ j ∈ r.ids := by
  by_cases hm : id ∈ r.ids
  · have hself : (j = id ∨ j ∈ r.ids) ↔ j ∈ r.ids :=
      ⟨fun hj => hj.elim (fun he => he ▸ hm) (fun hj => hj), .inr⟩
    rw [hself, Ring.setWeight, if_pos hm]
    split_ifs with hw
    · rfl
    obtain ⟨a, w, b, hs, hr, -⟩ := split_at hm
    have hj : j ∈ r.ids ↔ j = id ∨ j ∈ (a++b).map Prod.fst := by
      rw [Ring.ids, hs, mem_fst_split]
    rw [hj, hr]
    exact mem_fst_split
  · rw [Ring.setWeight, if_neg hm]
    exact addWeighted_ids id n j hroom

theorem vnode_iff_listed (h : r.Wf) (id : NodeId) : (∃ v ∈ r.vnodes, v.nodeId = id) ↔ id ∈ r.ids := by
  constructor
  · rintro ⟨v, hv, rfl⟩
    exact h.known v hv
  intro hm
  obtain ⟨p, hp, rfl⟩ := mem_map.mp hm
  have hpos : 0 < r.vnodes.countP fun v => v.nodeId = p.1 := by
    rw [h.placed p hp]
    exact (h.weights p hp).1
  obtain ⟨v, hv, he⟩ := countP_pos_iff.mp hpos
  exact ⟨v, hv, of_decide_eq_true he⟩

end QEngine.HashRing

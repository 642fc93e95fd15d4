import QEngine.HashRing
import QEngine.BinarySearch

/-!
# The owners of a key depend on the members alone

After any history the virtual nodes are those of the members with their
weights, in some order. With distinct hashes the sorted ring is then fixed by
the members, and a lookup walks it cyclically from the key's hash.
-/

namespace QEngine.RingOwners
open List ByteFields HashRing

inductive Edit where
  | add (id : NodeId)
  | addWeighted (id : NodeId) (n : ℤ)
  | setWeight (id : NodeId) (n : ℤ)
  | remove (id : NodeId)

def Edit.exec (r : Ring) : Edit → Ring
  | .add id => r.add id
  | .addWeighted id n => r.addWeighted id n
  | .setWeight id n => r.setWeight id n
  | .remove id => r.remove id

def history (es : List Edit) : Ring := es.foldl Edit.exec HashRing.empty

/-- The weights of the members, 0 for every other node, and the number of members. -/
structure Weights where
  weight : NodeId → ℕ
  size : ℕ

def Weights.join (m : Weights) (id : NodeId) (n : ℤ) : Weights :=
  if m.weight id ≠ 0 ∨ ringMaxNodes ≤ m.size then m
  else ⟨Function.update m.weight id (clampVn n), m.size+1⟩

def Edit.weigh (m : Weights) : Edit → Weights
  | .add id => m.join id ringVn
  | .addWeighted id n => m.join id n
  | .setWeight id n =>
    if m.weight id = 0 then m.join id n else { m with weight := Function.update m.weight id (clampVn n) }
  | .remove id => if m.weight id = 0 then m else ⟨Function.update m.weight id 0, m.size-1⟩

def weights (es : List Edit) : Weights := es.foldl Edit.weigh ⟨fun _ => 0, 0⟩

def ensureSorted (r : Ring) : List Vnode := r.vnodes.insertionSort fun a b => a.hash ≤ b.hash

def ringFindGte (vs : List Vnode) (h : ℕ) : ℕ :=
  (BinarySearch.search (fun v => if v.hash < h then .lt else .gt) vs).2

def placed (ns : List (NodeId × ℕ)) : List Vnode := ns.flatMap fun p => (List.range p.2).map (vnode p.1)

def ahead (h : ℕ) (v : Vnode) : ℕ := (v.hash+2^64-h)%2^64

def walk (ns : List (NodeId × ℕ)) (h : ℕ) : List Vnode :=
    (placed ns).insertionSort fun a b => ahead h a ≤ ahead h b

def firsts : List NodeId → List NodeId
  | [] => []
  | x::xs => x::(firsts xs).filter (· ≠ x)

/-! ### Every history -/

structure Placed (r : Ring) : Prop where
  wf : r.Wf
  perm : r.vnodes.Perm (placed r.nodes)

section
variable {r : Ring} (h : Placed r)
include h

theorem addWeighted_placed (id : NodeId) (n : ℤ) : Placed (r.addWeighted id n) := by
  refine ⟨addWeighted_wf h.wf id n, ?_⟩
  rw [Ring.addWeighted]
  split_ifs with hm hfull
  · exact h.perm
  · exact h.perm
  · rw [placeVnodes_eq id (vnodes_room h.wf (not_le.mp hfull) n), placed, flatMap_append, flatMap_singleton]
    exact h.perm.append_right _

theorem remove_placed (id : NodeId) : Placed (r.remove id) := by
  refine ⟨remove_wf h.wf id, ?_⟩
  have hids := remove_ids h.wf id
  rw [Ring.remove] at hids ⊢
  split_ifs at hids ⊢ with hm
  · obtain ⟨a, w, b, hs, -, he⟩ := split_at hm
    have hp := h.perm.filter fun v => v.nodeId ≠ id
    have hgone : ((List.range w).map (vnode id)).filter (fun v => v.nodeId ≠ id) = [] := by
      simp [filter_eq_nil_iff, vnode]
    have hkept : (placed (a++b)).filter (fun v => v.nodeId ≠ id) = placed (a++b) := by
      refine filter_eq_self.mpr fun v hv => ?_
      obtain ⟨p, hp, hv⟩ := mem_flatMap.mp hv
      obtain ⟨i, -, rfl⟩ := mem_map.mp hv
      rw [he] at hids
      exact decide_eq_true ((hids p.1).mp (mem_map_of_mem hp)).1
    rw [hs, placed, flatMap_append, flatMap_cons, filter_append, filter_append, hgone, nil_append,
      ← filter_append, ← flatMap_append, ← placed, hkept] at hp
    rw [he]
    exact hp
  · exact h.perm

theorem setWeight_placed (id : NodeId) (n : ℤ) : Placed (r.setWeight id n) := by
  by_cases hm : id ∈ r.ids
  · obtain he | ⟨ms, hp, he⟩ := setWeight_cases h.wf id n hm
    · rw [he]
      exact h
    refine ⟨setWeight_wf h.wf, ?_⟩
    rw [he]
    exact (addWeighted_placed (remove_placed h id) id n).perm.trans (hp.symm.flatMap_right _)
  · rw [Ring.setWeight, if_neg hm]
    exact addWeighted_placed h id n

theorem exec_placed (e : Edit) : Placed (e.exec r) := by
  cases e with
  | add id => exact addWeighted_placed h id _
  | addWeighted id n => exact addWeighted_placed h id n
  | setWeight id n => exact setWeight_placed h id n
  | remove id => exact remove_placed h id

end

theorem history_placed (es : List Edit) : Placed (history es) := by
  induction es using reverseRecOn with
  | nil => exact ⟨empty_wf, .nil⟩
  | append_singleton es e ih =>
    rw [history, foldl_append]
    exact exec_placed ih e

/-! ### The members of a history -/

theorem others_mem {r : Ring} {id i : NodeId} {w x : ℕ} {a b : List (NodeId × ℕ)} (hnd : r.ids.Nodup)
    (hns : r.nodes = a++(id, w)::b) : (i, x) ∈ a++b ↔ i ≠ id ∧ (i, x) ∈ r.nodes := by
  rw [Ring.ids, hns, map_append, map_cons, nodup_middle, nodup_cons, ← map_append] at hnd
  rw [hns]
  constructor
  · intro hin
    refine ⟨?_, by rw [mem_append, mem_cons]; rw [mem_append] at hin; tauto⟩
    rintro rfl
    exact hnd.1 (mem_map.mpr ⟨(i, x), hin, rfl⟩)
  · rintro ⟨hi, hin⟩
    rw [mem_append, mem_cons] at hin
    rw [mem_append]
    rcases hin with hin | hin | hin
    · exact .inl hin
    · exact absurd (congrArg Prod.fst hin) hi
    · exact .inr hin

structure Tied (r : Ring) (m : Weights) : Prop where
  nodes : ∀ id n, (id, n) ∈ r.nodes ↔ n ≠ 0 ∧ m.weight id = n
  size : r.nodes.length = m.size

section
variable {r : Ring} {m : Weights} (h : Tied r m)
include h

theorem tied_ids (id : NodeId) : id ∈ r.ids ↔ m.weight id ≠ 0 := by
  constructor
  · intro hid
    obtain ⟨⟨i, n⟩, hp, rfl⟩ := mem_map.mp hid
    obtain ⟨hn, hw⟩ := (h.nodes i n).mp hp
    rwa [hw]
  · intro hw
    exact mem_map.mpr ⟨(id, m.weight id), (h.nodes _ _).mpr ⟨hw, rfl⟩, rfl⟩

theorem tied_join (id : NodeId) (n : ℤ) : Tied (r.addWeighted id n) (m.join id n) := by
  rw [Ring.addWeighted, Weights.join]
  by_cases hid : id ∈ r.ids
  · rw [if_pos hid, if_pos (.inl ((tied_ids h id).mp hid))]
    exact h
  have hzero : m.weight id = 0 := by simpa using mt (tied_ids h id).mpr hid
  by_cases hfull : ringMaxNodes ≤ r.nodes.length
  · rw [if_neg hid, if_pos hfull, if_pos (.inr (h.size ▸ hfull))]
    exact h
  rw [if_neg hid, if_neg hfull, if_neg (by simpa [hzero, ← h.size] using hfull)]
  refine ⟨fun i x => ?_, by simp [h.size]⟩
  have hpos := (clampVn_bounds n).1
  show (i, x) ∈ r.nodes++[(id, clampVn n)] ↔ x ≠ 0 ∧ Function.update m.weight id (clampVn n) i = x
  rw [mem_append, h.nodes, mem_singleton, Prod.mk.injEq]
  by_cases hi : i = id
  · subst hi
    rw [Function.update_self, hzero]
    simp only [true_and]
    omega
  · simp [hi]

theorem tied_setWeight (hnd : r.ids.Nodup) (id : NodeId) (n : ℤ) :
    Tied (r.setWeight id n) (Edit.weigh m (.setWeight id n)) := by
  rw [Ring.setWeight, Edit.weigh]
  by_cases hid : id ∈ r.ids
  · have hpos := (clampVn_bounds n).1
    have hw := (tied_ids h id).mp hid
    have hmem : (id, m.weight id) ∈ r.nodes := (h.nodes _ _).mpr ⟨hw, rfl⟩
    rw [if_pos hid, if_neg hw]
    split_ifs with hsame
    · have hget : r.getWeight id = m.weight id := by
        rw [Ring.getWeight]
        cases hf : r.nodes.find? fun p => p.1 = id with
        | none => exact absurd (find?_eq_none.mp hf _ hmem) (by simp)
        | some p =>
          have hpi : p.1 = id := by simpa using find?_some hf
          exact ((h.nodes p.1 p.2).mp (mem_of_find?_eq_some hf)).2.symm.trans (by rw [hpi])
      rw [← hsame, hget, Function.update_eq_self]
      exact h
    · obtain ⟨a, w, b, hns, hre, -⟩ := split_at hid
      have hothers : ∀ i x, (i, x) ∈ a++b ↔ i ≠ id ∧ (i, x) ∈ r.nodes := fun i x => others_mem hnd hns
      refine ⟨fun i x => ?_, ?_⟩
      · show (i, x) ∈ reweigh id (clampVn n) r.nodes ↔ x ≠ 0 ∧ Function.update m.weight id (clampVn n) i = x
        have hsplit : (i, x) ∈ a++(id, clampVn n)::b ↔ (i, x) = (id, clampVn n) ∨ (i, x) ∈ a++b := by
          simp only [mem_append, mem_cons]
          tauto
        rw [hre, hsplit, hothers, h.nodes, Prod.mk.injEq]
        by_cases hi : i = id
        · subst hi
          rw [Function.update_self]
          simp only [true_and, ne_eq, not_true_eq_false, false_and, or_false]
          omega
        · simp [hi]
      · show (reweigh id (clampVn n) r.nodes).length = m.size
        rw [hre, ← h.size, hns]
        simp
  · have hzero : m.weight id = 0 := by simpa using mt (tied_ids h id).mpr hid
    rw [if_neg hid, if_pos hzero]
    exact tied_join h id n

theorem tied_remove (hnd : r.ids.Nodup) (id : NodeId) : Tied (r.remove id) (Edit.weigh m (.remove id)) := by
  rw [Ring.remove, Edit.weigh]
  by_cases hid : id ∈ r.ids
  · have hw := (tied_ids h id).mp hid
    obtain ⟨a, w, b, hns, -, her⟩ := split_at hid
    rw [if_pos hid, if_neg hw, her]
    refine ⟨fun i x => ?_, ?_⟩
    · show (i, x) ∈ a++b ↔ x ≠ 0 ∧ Function.update m.weight id 0 i = x
      rw [others_mem hnd hns, h.nodes]
      by_cases hi : i = id
      · subst hi
        rw [Function.update_self]
        simp [eq_comm]
      · simp [hi]
    · show (a++b).length = m.size-1
      rw [← h.size, hns]
      simp
  · have hzero : m.weight id = 0 := by simpa using mt (tied_ids h id).mpr hid
    rw [if_neg hid, if_pos hzero]
    exact h

end

theorem history_tied (es : List Edit) : Tied (history es) (weights es) := by
  induction es using reverseRecOn with
  | nil => exact ⟨fun id n => by simp [history, weights, HashRing.empty]; omega, rfl⟩
  | append_singleton es e ih =>
    have hnd := (history_placed es).wf.ids
    rw [history, weights, foldl_append, foldl_append]
    cases e with
    | add id => exact tied_join ih id ringVn
    | addWeighted id n => exact tied_join ih id n
    | setWeight id n => exact tied_setWeight ih hnd id n
    | remove id => exact tied_remove ih hnd id

theorem nodes_perm {es es' : List Edit} (h : (weights es').weight = (weights es).weight) :
    (history es').nodes.Perm (history es).nodes := by
  have hnd : ∀ es, (history es).nodes.Nodup := fun es => (history_placed es).wf.ids.of_map _
  refine (perm_ext_iff_of_nodup (hnd es') (hnd es)).mpr fun p => ?_
  rw [(history_tied es').nodes p.1 p.2, (history_tied es).nodes p.1 p.2, h]

/-! ### One lookup -/

theorem mem_firsts {x : NodeId} {xs : List NodeId} : x ∈ firsts xs ↔ x ∈ xs := by
  induction xs with
  | nil => rfl
  | cons y ys ih =>
    by_cases hx : x = y
    · simp [firsts, hx]
    · simp [firsts, hx, ih]

theorem firsts_nodup (xs : List NodeId) : (firsts xs).Nodup := by
  induction xs with
  | nil => exact nodup_nil
  | cons y ys ih => exact nodup_cons.mpr ⟨by simp, ih.filter _⟩

theorem collect_firsts {limit : ℕ} (vs : List Vnode) {found : List NodeId} (h : found.length ≤ limit) :
    collect limit found vs = (found++(firsts (vs.map Vnode.nodeId)).filter (· ∉ found)).take limit := by
  induction vs generalizing found with
  | nil => simp [collect, firsts, take_of_length_le h]
  | cons v vs ih =>
    rw [collect]
    split_ifs with hl hm
    · rw [take_left' (le_antisymm h hl)]
    · rw [ih h, map_cons, firsts, filter_cons_of_neg (by simpa using hm), filter_filter]
      refine congrArg (fun l => (found++l).take limit) (filter_congr fun x _ => ?_)
      have : x ∉ found → x ≠ v.nodeId := fun hx he => hx (he ▸ hm)
      simpa using this
    · rw [ih (by simp; omega), map_cons, firsts, filter_cons_of_pos (by simpa using hm), filter_filter,
        append_assoc]
      refine congrArg (fun l => (found++v.nodeId::l).take limit) (filter_congr fun x _ => ?_)
      simp [not_or]

theorem fnv1a64_lt (data : Bytes) : fnv1a64 data < 2^64 := by
  induction data using reverseRecOn with
  | nil => norm_num [fnv1a64]
  | append_singleton bs b _ =>
    rw [fnv1a64, foldl_append, foldl_cons, foldl_nil]
    exact Nat.mod_lt _ (Nat.two_pow_pos 64)

theorem ahead_ge {h : ℕ} {v : Vnode} (hv : v.hash < 2^64) (hh : h ≤ v.hash) : ahead h v = v.hash-h := by
  rw [ahead]
  omega

theorem ahead_lt {h : ℕ} {v : Vnode} (hh : h < 2^64) (hv : v.hash < h) : ahead h v = v.hash+2^64-h := by
  rw [ahead]
  omega

section
variable {vs : List Vnode} {h : ℕ}

/-- Rotated to its first hash not below `h`, a sorted ring is in cyclic order. -/
theorem rotated_ahead (hs : vs.Pairwise fun a b => a.hash ≤ b.hash) (hv : ∀ v ∈ vs, v.hash < 2^64)
    (hh : h < 2^64) :
    (vs.dropWhile (·.hash < h)++vs.takeWhile (·.hash < h)).Pairwise fun a b => ahead h a ≤ ahead h b := by
  have hd : ∀ v ∈ vs.dropWhile (·.hash < h), v.hash < 2^64 ∧ h ≤ v.hash := by
    intro v hm
    have := BinarySearch.dropWhile_false (hs.imp fun hab hb => by simp at hb ⊢; omega) v hm
    exact ⟨hv v ((dropWhile_sublist _).subset hm), by simpa using this⟩
  have ht : ∀ v ∈ vs.takeWhile (·.hash < h), v.hash < h := fun v hm => by
    simpa using all_eq_true.mp all_takeWhile v hm
  refine pairwise_append.mpr ⟨?_, ?_, ?_⟩
  · refine (hs.sublist (dropWhile_sublist _)).imp_of_mem fun ha hb hab => ?_
    rw [ahead_ge (hd _ ha).1 (hd _ ha).2, ahead_ge (hd _ hb).1 (hd _ hb).2]
    omega
  · refine (hs.sublist (takeWhile_sublist _)).imp_of_mem fun ha hb hab => ?_
    rw [ahead_lt hh (ht _ ha), ahead_lt hh (ht _ hb)]
    omega
  · intro a ha b hb
    have := (hd a ha).1
    rw [ahead_ge (hd a ha).1 (hd a ha).2, ahead_lt hh (ht b hb)]
    omega

theorem ringFindGte_eq (hs : vs.Pairwise fun a b => a.hash ≤ b.hash) :
    ringFindGte vs h = vs.findIdx fun v => decide (h ≤ v.hash) := by
  rw [ringFindGte, BinarySearch.search_spec]
  · refine congrArg (findIdx · vs) (funext fun v => ?_)
    rw [Bool.eq_iff_iff]
    simp
  refine hs.imp fun {a b} hab => ?_
  by_cases ha : a.hash < h
  · simp [ha]
  · simp [ha, show ¬b.hash < h by omega]

theorem sorted_by (f : Vnode → ℕ) (vs : List Vnode) :
    (vs.insertionSort fun a b => f a ≤ f b).Pairwise fun a b => f a ≤ f b :=
  haveI : Std.Total fun a b : Vnode => f a ≤ f b := ⟨fun a b => le_total (f a) (f b)⟩
  haveI : IsTrans Vnode fun a b => f a ≤ f b := ⟨fun _ _ _ => le_trans⟩
  pairwise_insertionSort _ vs

theorem cyclic_unique {ws : List Vnode} (hd : (vs.map Vnode.hash).Nodup) (hv : ∀ v ∈ vs, v.hash < 2^64)
    (hh : h < 2^64) (hp : ws.Perm vs) (hw : ws.Pairwise fun a b => ahead h a ≤ ahead h b) :
    ws = vs.insertionSort fun a b => ahead h a ≤ ahead h b := by
  refine Perm.eq_of_pairwise (fun a b ha hb hab hba => ?_) hw (sorted_by (ahead h) vs)
    (hp.trans (perm_insertionSort _ _).symm)
  have ha := hp.mem_iff.mp ha
  have hb := (perm_insertionSort _ _).mem_iff.mp hb
  have hva := hv a ha
  have hvb := hv b hb
  refine inj_on_of_nodup_map hd ha hb ?_
  rw [ahead, ahead] at hab hba
  omega

end

theorem placed_lt {ns : List (NodeId × ℕ)} : ∀ v ∈ placed ns, v.hash < 2^64 := by
  intro v hv
  obtain ⟨p, -, hv⟩ := mem_flatMap.mp hv
  obtain ⟨i, -, rfl⟩ := mem_map.mp hv
  exact fnv1a64_lt _

section
variable {r : Ring} (h : Placed r)
include h

theorem owner_walk (hd : ((placed r.nodes).map Vnode.hash).Nodup) (key : Bytes) (k : ℕ) :
    r.owner key k = (firsts ((walk r.nodes (fnv1a64 key)).map Vnode.nodeId)).take (min k r.nodes.length) := by
  have hs := sorted_by Vnode.hash r.vnodes
  have hp := (perm_insertionSort (fun a b : Vnode => a.hash ≤ b.hash) r.vnodes).trans h.perm
  have hw := rotated_ahead hs (fun v hv => placed_lt v (hp.mem_iff.mp hv)) (fnv1a64_lt key)
  have he := cyclic_unique hd placed_lt (fnv1a64_lt key)
    (perm_append_comm.trans ((takeWhile_append_dropWhile ..).symm ▸ hp)) hw
  have hn : (fun v : Vnode => !decide (v.hash < fnv1a64 key)) = fun v => decide (fnv1a64 key ≤ v.hash) := by
    funext v
    rw [← decide_not, decide_eq_decide, not_lt]
  rw [takeWhile_eq_take_findIdx_not, dropWhile_eq_drop_findIdx_not, hn] at he
  rw [Ring.owner, collect_firsts _ (Nat.zero_le _), walk, ← he]
  -- past the last hash the walk begins at the first
  split_ifs with hend
  · simp [drop_of_length_le hend, take_of_length_le hend]
  · simp

theorem walk_members (hash : ℕ) :
    (firsts ((walk r.nodes hash).map Vnode.nodeId)).length = r.nodes.length := by
  have hm : ∀ x, x ∈ firsts ((walk r.nodes hash).map Vnode.nodeId) ↔ x ∈ r.ids := fun x => by
    rw [mem_firsts, ← vnode_iff_listed h.wf, mem_map]
    simp only [walk, (perm_insertionSort _ _).mem_iff, h.perm.mem_iff]
  rw [((perm_ext_iff_of_nodup (firsts_nodup _) h.wf.ids).mpr hm).length_eq, Ring.ids, length_map]

end

/-- The owners of a key are the first distinct nodes on a cyclic walk over the members' virtual nodes,
and depend on the weights alone that the history leaves. -/
theorem owner_membership (es : List Edit) (hd : ((placed (history es).nodes).map Vnode.hash).Nodup)
    (key : Bytes) (k : ℕ) :
    (history es).owner key k = (firsts ((walk (history es).nodes (fnv1a64 key)).map Vnode.nodeId)).take
      (min k (history es).nodes.length) ∧
    ((history es).owner key k).length = min k (history es).nodes.length ∧ ((history es).owner key k).Nodup ∧
    ringFindGte (ensureSorted (history es)) (fnv1a64 key) =
      (ensureSorted (history es)).findIdx (fun v => decide (fnv1a64 key ≤ v.hash)) ∧
    (∀ es', (history es').nodes.Perm (history es).nodes →
      (history es').owner key k = (history es).owner key k) ∧
    (∀ id n, (id, n) ∈ (history es).nodes ↔ n ≠ 0 ∧ (weights es).weight id = n) ∧
    ∀ es', (weights es').weight = (weights es).weight →
    (history es').owner key k = (history es).owner key k := by
  have h := history_placed es
  have ho := owner_walk h hd key k
  have hsame : ∀ es', (history es').nodes.Perm (history es).nodes →
      (history es').owner key k = (history es).owner key k := fun es' hp => ?_
  refine ⟨ho, ?_, ?_, ringFindGte_eq (sorted_by Vnode.hash _), hsame, (history_tied es).nodes,
    fun es' hw => hsame es' (nodes_perm hw)⟩
  · rw [ho, length_take, walk_members h]
    omega
  · rw [ho]
    exact (firsts_nodup _).sublist (take_sublist _ _)
  · have hp' : (placed (history es').nodes).Perm (placed (history es).nodes) := hp.flatMap_right _
    have hw := cyclic_unique hd placed_lt (fnv1a64_lt key) ((perm_insertionSort _ _).trans hp')
      (sorted_by _ _)
    rw [ho, owner_walk (history_placed es') ((hp'.map Vnode.hash).nodup_iff.mpr hd), hp.length_eq, walk,
      walk, hw]

theorem owner_membership_two : (history [.addWeighted 1 1, .addWeighted 2 1]).owner [107] 1 =
    (history [.addWeighted 2 3, .addWeighted 1 1, .setWeight 2 1]).owner [107] 1 :=
  (owner_membership [.addWeighted 2 3, .addWeighted 1 1, .setWeight 2 1] (by decide +kernel) [107]
    1).2.2.2.2.1
    [.addWeighted 1 1, .addWeighted 2 1] (by decide +kernel)

/-! ### A member leaves -/

theorem firsts_filter (p : NodeId → Bool) (xs : List NodeId) :
    firsts (xs.filter p) = (firsts xs).filter p := by
  induction xs with
  | nil => rfl
  | cons x xs ih =>
    cases hx : p x with
    | true => simp only [filter_cons, hx, if_true, firsts, ih, filter_filter, Bool.and_comm]
    | false =>
      rw [filter_cons_of_neg (by simp [hx]), ih, firsts, filter_cons_of_neg (by simp [hx]), filter_filter]
      refine filter_congr fun y _ => ?_
      by_cases hy : y = x
      · simp [hy, hx]
      · simp [hy]

theorem take_filter_ne {xs : List NodeId} (h : xs.Nodup) (id : NodeId) (k : ℕ) :
    ((xs.take (k+1)).filter (· ≠ id)).take k = (xs.filter (· ≠ id)).take k := by
  induction xs generalizing k with
  | nil => rfl
  | cons x xs ih =>
    obtain ⟨hx, hxs⟩ := nodup_cons.mp h
    by_cases he : x = id
    · have hall : ∀ y ∈ xs, decide (y ≠ id) = true := fun y hy => decide_eq_true fun hyi => hx (he ▸ hyi ▸ hy)
      rw [take_succ_cons, filter_cons_of_neg (by simpa using he), filter_cons_of_neg (by simpa using he),
        filter_eq_self.mpr hall, filter_eq_self.mpr fun y hy => hall y (mem_of_mem_take hy), take_take,
          Nat.min_self]
    cases k with
    | zero => rfl
    | succ k =>
      rw [take_succ_cons, filter_cons_of_pos (by simpa using he), filter_cons_of_pos (by simpa using he),
        take_succ_cons, take_succ_cons, ih hxs]

section
variable {r : Ring} (h : Placed r) (hd : ((placed r.nodes).map Vnode.hash).Nodup) (id : NodeId)
include h

theorem remove_perm : (placed (r.remove id).nodes).Perm ((placed r.nodes).filter (·.nodeId ≠ id)) := by
  refine (remove_placed h id).perm.symm.trans (Perm.trans (Perm.of_eq ?_) (h.perm.filter _))
  rw [Ring.remove]
  split_ifs with hm
  · rfl
  · refine (filter_eq_self.mpr fun v hv => ?_).symm
    simpa using fun he : v.nodeId = id => hm (he ▸ h.wf.known v hv)

include hd

theorem owner_firsts (key : Bytes) (k : ℕ) :
    r.owner key k = (firsts ((walk r.nodes (fnv1a64 key)).map Vnode.nodeId)).take k := by
  rw [owner_walk h hd, ← walk_members h (fnv1a64 key), ← take_eq_take_min]

theorem remove_distinct : ((placed (r.remove id).nodes).map Vnode.hash).Nodup :=
  ((remove_perm h id).map Vnode.hash).nodup_iff.mpr (hd.sublist (filter_sublist.map Vnode.hash))

theorem walk_remove {hash : ℕ} (hh : hash < 2^64) : walk (r.remove id).nodes hash =
    (walk r.nodes hash).filter (·.nodeId ≠ id) :=
  (cyclic_unique (remove_distinct h hd id) placed_lt hh
    (((perm_insertionSort _ _).filter _).trans (remove_perm h id).symm) ((sorted_by _ _).filter _)).symm

end

/-- When a member leaves, the other owners of a key keep their order and one more node follows. -/
theorem removed_owner_replaced (es : List Edit) (hd : ((placed (history es).nodes).map Vnode.hash).Nodup)
    (id : NodeId) (key : Bytes) (k : ℕ) : (history (es++[.remove id])).owner key k =
      (((history es).owner key (k+1)).filter (· ≠ id)).take k := by
  have h := history_placed es
  have hs : history (es++[.remove id]) = (history es).remove id := by
    rw [history, foldl_append]
    rfl
  rw [hs, owner_firsts (remove_placed h id) (remove_distinct h hd id), walk_remove h hd id (fnv1a64_lt key),
    owner_firsts h hd, take_filter_ne (firsts_nodup _), ← firsts_filter, filter_map]
  rfl

theorem removed_owner_replaced_two : (history [.addWeighted 1 1, .addWeighted 2 1, .remove 1]).owner [107] 1 =
    (((history [.addWeighted 1 1, .addWeighted 2 1]).owner [107] 2).filter (· ≠ 1)).take 1 :=
  removed_owner_replaced [.addWeighted 1 1, .addWeighted 2 1] (by decide +kernel) 1 [107] 1

end QEngine.RingOwners

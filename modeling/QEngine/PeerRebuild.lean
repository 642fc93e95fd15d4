import QEngine.RaftMembership

/-!
# The peer table across a rebuild

`rebuild_peers_locked` writes slot `k` while later members are still to be found
in the table. A member found at or behind its new slot keeps its progress; one that
stands before it has been overwritten and starts anew.
-/

namespace QEngine.PeerRebuild
open List RaftNode

structure Slot where
  peer : Peer
  lastAckNs : ℤ
  deriving DecidableEq

def Slot.id (p : Slot) : ℕ := p.peer.id

def maxPeers : ℕ := 31

def newSlot (last id : ℕ) : Slot := ⟨⟨id, last+1, 0⟩, 0⟩

def rebuildSlots (last n : ℕ) : List ℕ → List Slot → List Slot → List Slot
  | [], front, _ => front
  | id::ids, front, rest =>
    if front.length < maxPeers then
      let p := (((front++rest).take n).find? fun p => p.id = id).getD (newSlot last id)
      rebuildSlots last n ids (front++[p]) (rest.drop 1)
    else front

def remotes (self : ℕ) (members : List ℕ) : List ℕ := members.filter fun id => id ≠ self

def rebuildPeersLocked (self last : ℕ) (members : List ℕ) (ps : List Slot) : List Slot :=
  rebuildSlots last ps.length (remotes self members) [] ps

variable {last : ℕ} {old front : List Slot} {ids : List ℕ} {id : ℕ}

def keptSlot (last : ℕ) (old : List Slot) (id : ℕ) : Slot :=
    (old.find? fun p => p.id = id).getD (newSlot last id)

theorem keptSlot_id : (keptSlot last old id).id = id := by
  unfold keptSlot
  cases h : old.find? fun p => p.id = id with
  | none => rfl
  | some p => simpa using find?_some h

theorem keptSlot_absent (h : ∀ p ∈ old, p.id ≠ id) : keptSlot last old id = newSlot last id := by
  rw [keptSlot, find?_eq_none.mpr (by simpa using h)]
  rfl

theorem find_rest (hf : ∀ p ∈ front, p.id ≠ id) :
    ((front++old.drop front.length).take old.length).find? (fun p => p.id = id) =
      (old.drop front.length).find? fun p => p.id = id := by
  have hnone : (front.take old.length).find? (fun p => p.id = id) = none := by
    simpa [find?_eq_none] using fun p hp => hf p (mem_of_mem_take hp)
  rw [take_append, find?_append, hnone, take_of_length_le (by simp)]
  rfl

/-- Slot `i` is found among the old slots from `i` on: those before it are written over. -/
theorem rebuild_slots (hn : ids.Nodup) (hk : front.length+ids.length ≤ maxPeers)
    (hf : ∀ p ∈ front, p.id ∉ ids) :
    rebuildSlots last old.length ids front (old.drop front.length) =
      front++(ids.zipIdx front.length).map fun x => keptSlot last (old.drop x.2) x.1 := by
  induction ids generalizing front with
  | nil => simp [rebuildSlots]
  | cons id ids ih =>
    obtain ⟨hid, hn⟩ := nodup_cons.mp hn
    rw [length_cons] at hk
    have hfind := @find_rest old front id fun p hp he => hf p hp (he ▸ mem_cons_self)
    have hlen : (front++[keptSlot last (old.drop front.length) id]).length = front.length+1 := length_append
    have hstep := @ih (front++[keptSlot last (old.drop front.length) id]) hn (by omega)
      (fun p hp => by
        obtain hp | hp := mem_append.mp hp
        · exact fun hm => hf p hp (mem_cons_of_mem _ hm)
        · rwa [mem_singleton.mp hp, keptSlot_id])
    rw [hlen] at hstep
    rw [rebuildSlots, if_pos (by omega), hfind, drop_drop]
    exact hstep.trans (append_assoc ..)

theorem rebuild_ids (n : ℕ) (rest : List Slot) :
    (rebuildSlots last n ids front rest).map Slot.id = front.map Slot.id++ids.take
    (maxPeers-front.length) := by
  induction ids generalizing front rest with
  | nil => simp [rebuildSlots]
  | cons id ids ih =>
    rw [rebuildSlots]
    by_cases h : front.length < maxPeers
    · rw [if_pos h]
      change (rebuildSlots last n ids (front++[keptSlot last ((front++rest).take n) id]) (rest.drop 1)).map
        Slot.id = _
      rw [ih, map_append, map_singleton, length_append, append_assoc]
      obtain ⟨k, hk⟩ : ∃ k, maxPeers-front.length = k+1 := ⟨_, (Nat.succ_pred_eq_of_pos (by omega)).symm⟩
      rw [hk, take_succ_cons,
        show maxPeers-(front.length+[keptSlot last ((front++rest).take n) id].length) = k by
        rw [length_singleton]; omega]
      exact congrArg (fun x => front.map Slot.id++(x::ids.take k)) keptSlot_id
    · rw [if_neg h, show maxPeers-front.length = 0 by omega, take_zero, append_nil]

/-- Without the acknowledgement times the slots are the table of the membership model. -/
theorem rebuildLoop_slots (n : ℕ) (rest : List Slot) (hk : front.length+ids.length ≤ maxPeers) :
    RaftMembership.rebuildLoop last n ids front.length ((front++rest).map Slot.peer) =
      (rebuildSlots last n ids front rest).map Slot.peer := by
  induction ids generalizing front rest with
  | nil => simp [RaftMembership.rebuildLoop, rebuildSlots]
  | cons id ids ih =>
    rw [length_cons] at hk
    have hstep := @ih (front++[keptSlot last ((front++rest).take n) id]) (rest.drop 1)
      (by rw [length_append, length_singleton]; omega)
    have hpeer : ((((front++rest).map Slot.peer).take n).find? fun p => p.id = id).getD ⟨id, last+1, 0⟩ =
        (keptSlot last ((front++rest).take n) id).peer := by
      rw [← map_take, find?_map, keptSlot]
      exact Option.getD_map Slot.peer (newSlot last id) _
    have hroom : front.length < maxPeers := by omega
    rw [RaftMembership.rebuildLoop, rebuildSlots, if_pos hroom, hpeer]
    refine Eq.trans ?_ hstep
    rw [length_append, length_singleton]
    congr 1
    cases rest with
    | nil => simp
    | cons p rest => simp [set_append_right]

theorem rebuildPeers_slots {cfg : Config} {self : ℕ} {node : Node} (hp : node.peers = old.map Slot.peer)
    (hk : (remotes self cfg.members).length ≤ maxPeers) :
    (RaftMembership.rebuildPeers cfg self node).peers =
      (rebuildPeersLocked self node.log.lastIndex cfg.members old).map Slot.peer := by
  have h := @rebuildLoop_slots node.log.lastIndex [] (remotes self cfg.members) old.length old
    (by simpa using hk)
  rw [rebuildPeersLocked, ← h]
  simp [RaftMembership.rebuildPeers, remotes, hp]

theorem find_slot {ps : List Slot} {p : Slot} (hd : (ps.map Slot.id).Nodup) (hp : p ∈ ps) :
    keptSlot last ps p.id = p := by
  obtain ⟨x, hx⟩ :=
    Option.isSome_iff_exists.mp ((find?_isSome (p := fun x => decide (x.id = p.id))).mpr ⟨p, hp, by simp⟩)
  rw [keptSlot, hx]
  exact inj_on_of_nodup_map hd (mem_of_find?_eq_some hx) hp (by simpa using find?_some hx)

/-- The table has each remote member once and a peer that stays a member stays as it is exactly
when the members fit the slots and every peer before its new slot is as fresh as a new one. -/
theorem rebuilt_peers_kept {self : ℕ} {members : List ℕ} {ps : List Slot} (hd : (ps.map Slot.id).Nodup)
    (hm : members.Nodup) :
    ((rebuildPeersLocked self last members ps).map Slot.id ~ remotes self members ∧
      ∀ p ∈ ps, p.id ∈ remotes self members → p ∈ rebuildPeersLocked self last members ps) ↔
    (remotes self members).length ≤ maxPeers ∧
      ∀ i id, (remotes self members)[i]? = some id → ∀ p ∈ ps.take i, p.id = id → p = newSlot last id := by
  have hn : (remotes self members).Nodup := hm.filter _
  have hids : (rebuildPeersLocked self last members ps).map Slot.id = (remotes self members).take maxPeers :=
    @rebuild_ids last [] _ ps.length ps
  have hrun (hk : (remotes self members).length ≤ maxPeers) : rebuildPeersLocked self last members ps =
      (remotes self members).zipIdx.map fun x => keptSlot last (ps.drop x.2) x.1 :=
    @rebuild_slots last ps [] _ hn (by simpa using hk) (by simp)
  have hover (i : ℕ) (p : Slot) (hp : p ∈ ps.take i) :
    keptSlot last (ps.drop i) p.id = newSlot last p.id := by
    rw [← take_append_drop i ps, map_append] at hd
    exact keptSlot_absent fun q hq he =>
      disjoint_of_nodup_append hd (mem_map_of_mem hp) (he ▸ mem_map_of_mem hq)
  constructor
  · rintro ⟨hperm, hkeep⟩
    have hk : (remotes self members).length ≤ maxPeers := by
      rw [hids] at hperm
      rw [← hperm.length_eq, length_take]
      exact min_le_left ..
    refine ⟨hk, fun i id hi p hp he => ?_⟩
    have hmem := hkeep p (mem_of_mem_take hp) (he ▸ mem_of_getElem? hi)
    rw [hrun hk] at hmem
    obtain ⟨⟨id', j⟩, hx, hxp⟩ := mem_map.mp hmem
    have hid' : id' = id := by rw [← he, ← hxp, keptSlot_id]
    have hij : j = i := ((getElem?_inj (List.getElem?_eq_some_iff.mp hi).1 hn).mp
      (by rw [hi, mem_zipIdx_iff_getElem?.mp hx, hid'])).symm
    rw [← hxp, hid', hij, ← he]
    exact hover i p hp
  · rintro ⟨hk, ho⟩
    refine ⟨by rw [hids, take_of_length_le hk], fun p hp hid => ?_⟩
    obtain ⟨i, hi⟩ := getElem?_of_mem hid
    rw [hrun hk]
    refine mem_map.mpr ⟨(p.id, i), mem_zipIdx_iff_getElem?.mpr hi, ?_⟩
    rw [← take_append_drop i ps] at hp
    obtain hp | hp := mem_append.mp hp
    · rw [hover i p hp, ← ho i _ hi p hp rfl]
    · exact find_slot (hd.sublist ((drop_sublist i ps).map Slot.id)) hp

/-- Node 1 is removed. -/
theorem rebuilt_peers_kept_removed :
    (rebuildPeersLocked 9 4 [9, 2] [⟨⟨1, 5, 4⟩, 6⟩, ⟨⟨2, 5, 3⟩, 7⟩]).map Slot.id ~ [2] ∧
    (⟨⟨2, 5, 3⟩, 7⟩ : Slot) ∈ rebuildPeersLocked 9 4 [9, 2] [⟨⟨1, 5, 4⟩, 6⟩, ⟨⟨2, 5, 3⟩, 7⟩] := by
  have h := (@rebuilt_peers_kept 4 9 [9, 2] [⟨⟨1, 5, 4⟩, 6⟩, ⟨⟨2, 5, 3⟩, 7⟩] (by decide) (by decide)).mpr
    ⟨by decide, fun i _ h =>
    match i with
    | 0 => by simp
    | i+1 => by simp [remotes] at h⟩
  exact ⟨h.1, h.2 _ (by decide) (by decide)⟩

/-- The list names node 2 first: its slot is written over that of node 1, whose progress is lost. -/
theorem swapped_peer_forgotten : rebuildPeersLocked 9 4 [2, 1, 9] [⟨⟨1, 5, 4⟩, 6⟩, ⟨⟨2, 5, 3⟩, 7⟩] =
    [⟨⟨2, 5, 3⟩, 7⟩, ⟨⟨1, 5, 0⟩, 0⟩] := rfl

end QEngine.PeerRebuild

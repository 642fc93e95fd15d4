import QEngine.NodeManager

/-!
# Two nodes exchange their tables

A table travels as records of 80 bytes, in which an address has room for 23 bytes and a NUL. Each
node merges the records the other one sent. A record that both nodes end with is the one that wins
over the other node's, and the other node holds it as it came over the wire.
-/

namespace QEngine.GossipExchange
open List ByteFields NodeManager HashRing

/-- A role byte off the wire is not checked either. -/
inductive Role where
  | master
  | data
  | other (code : ℕ)
  deriving DecidableEq

def Role.ofCode : ℕ → Role
  | 0 => .master
  | 1 => .data
  | n => .other n

def Role.code : Role → ℕ
  | .master => 0
  | .data => 1
  | .other n => n

def stateCode : NodeState → ℕ
  | .joining => 0
  | .alive => 1
  | .suspect => 2
  | .dead => 3
  | .other n => n

/-- A member without its heartbeat time and its suspicion count, which each node keeps for
itself. -/
@[ext]
structure Info where
  addr : Bytes
  gossipAddr : Bytes
  role : Role
  state : NodeState
  version : ℕ
  deriving DecidableEq

structure Member where
  id : NodeId
  info : Info
  heartbeat : ℕ
  suspects : ℕ
  deriving DecidableEq

/-- The fields have their widths, the bytes of state and role are what they say, and addresses are
C strings. -/
structure Member.Wired (m : Member) : Prop where
  id : m.id < 2^64
  version : m.info.version < 2^64
  state : stateCode m.info.state < 256 ∧ NodeState.ofCode (stateCode m.info.state) = m.info.state
  role : m.info.role.code < 256 ∧ Role.ofCode m.info.role.code = m.info.role
  addr : 0 ∉ m.info.addr
  gossipAddr : 0 ∉ m.info.gossipAddr

abbrev Table := NodeId → Option Info

def addrField (a : Bytes) : Bytes := a.take 23++replicate (24-(a.take 23).length) 0

def encodeRecord (m : Member) : Bytes :=
  leBytes 8 m.id++(addrField m.info.addr++(addrField m.info.gossipAddr++
    ((leBytes 1 (stateCode m.info.state)++(leBytes 1 m.info.role.code++[0, 0]))++
      (leBytes 8 m.info.version++(leBytes 8 m.heartbeat++leBytes 4 m.suspects)))))

def encode (ms : List Member) : Bytes := ms.flatMap encodeRecord

def addrAt (p : Bytes) (off : ℕ) : Bytes := ((p.drop off).take 23).takeWhile (· ≠ 0)

def readRecord (p : Bytes) : NodeId × Info :=
  ((decodeRecord p).id, ⟨addrAt p 8, addrAt p 32, .ofCode (leValue ((p.drop 57).take 1)),
    (decodeRecord p).state, (decodeRecord p).version⟩)

def readRecords : ℕ → Bytes → List (NodeId × Info)
  | 0, _ => []
  | n+1, p => readRecord p::readRecords n (p.drop 80)

def Doubted (n : Info) : Prop := n.state = .dead ∨ n.state = .suspect

instance (n : Info) : Decidable (Doubted n) := inferInstanceAs (Decidable (_ ∨ _))

/-- A record that is taken over the one a node holds. -/
def Beats (info held : Info) : Prop :=
  held.version < info.version ∨ (info.state = .alive ∧ Doubted held ∧ held.version ≤ info.version)

instance (info held : Info) : Decidable (Beats info held) := inferInstanceAs (Decidable (_ ∨ _))

def upsert (old : Option Info) (info : Info) : Info :=
  match old with
  | none => info
  | some n => if Beats info n then info else n

def refute (peerVer : ℕ) (n : Info) : Info :=
  { n with version := if n.version ≤ peerVer then bump peerVer else n.version, state := .alive }

def receive (self : NodeId) (t : Table) (r : NodeId × Info) : Table := fun k =>
  if k ≠ r.1 then t k
  else if r.1 = self then if Doubted r.2 then (t k).map (refute r.2.version) else t k
  else some (upsert (t k) r.2)

def decode (self : NodeId) (t : Table) (buf : Bytes) : Table :=
  (readRecords (buf.length/80) buf).foldl (receive self) t

def lookup (rs : List (NodeId × Info)) (k : NodeId) : Option Info :=
  (rs.find? fun r => r.1 = k).map Prod.snd

/-- The node manager's array for a table. -/
structure Lists (ms : List Member) (t : Table) : Prop where
  ids : (ms.map Member.id).Nodup
  wired : ∀ m ∈ ms, m.Wired
  info : ∀ k, t k = lookup (ms.map fun m => (m.id, m.info)) k

/-- Deliveries in any order, each of a table that the other node may have had by then. -/
inductive Exchange (A B : NodeId) (ta tb : Table) : Table → Table → Bool → Bool → Prop where
  | start : Exchange A B ta tb ta tb false false
  | toA {x y x' y' : Table} {p q p' q' : Bool} {ms : List Member} : Exchange A B ta tb x y p q →
    Exchange A B ta tb x' y' p' q' → Lists ms y' → Exchange A B ta tb (decode A x (encode ms)) y true q
  | toB {x y x' y' : Table} {p q p' q' : Bool} {ms : List Member} : Exchange A B ta tb x y p q →
    Exchange A B ta tb x' y' p' q' → Lists ms x' → Exchange A B ta tb x (decode B y (encode ms)) p true

/-- An address takes 23 bytes and a NUL on the wire. -/
def Info.wire (n : Info) : Info := { n with addr := n.addr.take 23, gossipAddr := n.gossipAddr.take 23 }

def Short (n : Info) : Prop := n.addr.length ≤ 23 ∧ n.gossipAddr.length ≤ 23

instance (n : Info) : Decidable (Short n) := inferInstanceAs (Decidable (_ ∧ _))

def Mergeable : Option Info → Option Info → Prop
  | none, none => True
  | some m, none => Short m
  | none, some n => Short n
  | some m, some n => if Beats m n then Short m else if Beats n m then Short n else m = n

section Codec

theorem addrField_length (a : Bytes) : (addrField a).length = 24 := by
  rw [addrField, length_append, length_replicate, length_take]
  omega

theorem addrField_read (a : Bytes) (h : 0 ∉ a) (rest : Bytes) :
    ((addrField a++rest).take 23).takeWhile (· ≠ 0) = a.take 23 := by
  have hcut : (addrField a++rest).take 23 = a.take 23++replicate (23-(a.take 23).length) 0 := by
    rw [take_append_of_le_length (by rw [addrField_length]; omega), addrField, take_append,
      take_of_length_le (by rw [length_take]; omega), take_replicate]
    congr 2
    omega
  rw [hcut, takeWhile_append_of_pos]
  · cases 23-(a.take 23).length with
    | zero => simp
    | succ n => simp [replicate_succ]
  · intro b hb
    exact decide_eq_true fun h0 => h (h0 ▸ mem_of_mem_take hb)

theorem leValue_head (w n : ℕ) (h : n < 256^w) (rest : Bytes) :
    leValue ((leBytes w n++rest).take w) = n := by
  rw [take_left' (leBytes_length w n), leValue_leBytes w n h]

theorem drop_add {a p rest : Bytes} {i j : ℕ} (hp : p.drop i = a++rest) (ha : a.length = j) :
    p.drop (i+j) = rest := by
  rw [← drop_drop, hp, drop_left' ha]

theorem record_read (m : Member) (h : m.Wired) (rest : Bytes) :
    readRecord (encodeRecord m++rest) = (m.id, m.info.wire) ∧
      (encodeRecord m++rest).drop 80 = rest := by
  generalize hp : encodeRecord m++rest = p
  -- the fields stand one behind the other, so each offset is the sum of the widths before it
  have h0 : p.drop 0 = _ := hp.symm
  simp only [encodeRecord, append_assoc] at h0
  have h8 := drop_add h0 (leBytes_length 8 m.id)
  have h32 := drop_add h8 (addrField_length m.info.addr)
  have h56 := drop_add h32 (addrField_length m.info.gossipAddr)
  have h57 := drop_add h56 (leBytes_length 1 (stateCode m.info.state))
  have h58 := drop_add h57 (leBytes_length 1 m.info.role.code)
  have h60 := drop_add h58 (show [0, 0].length = 2 from rfl)
  have h68 := drop_add h60 (leBytes_length 8 m.info.version)
  have h76 := drop_add h68 (leBytes_length 8 m.heartbeat)
  have h80 := drop_add h76 (leBytes_length 4 m.suspects)
  norm_num only at h8 h32 h56 h57 h60 h80
  refine ⟨?_, h80⟩
  rw [drop_zero] at h0
  have hid : (decodeRecord p).id = m.id := by
    rw [decodeRecord, h0]
    exact leValue_head 8 _ h.id _
  have hstate : (decodeRecord p).state = m.info.state := by
    rw [decodeRecord, h56]
    exact (congrArg NodeState.ofCode (leValue_head 1 _ h.state.1 _)).trans h.state.2
  have hversion : (decodeRecord p).version = m.info.version := by
    rw [decodeRecord, h60]
    exact leValue_head 8 _ h.version _
  rw [readRecord, hid, hstate, hversion, addrAt, addrAt, h8, h32, h57, addrField_read _ h.addr,
    addrField_read _ h.gossipAddr, leValue_head 1 _ h.role.1, h.role.2]
  rfl

theorem encode_length (ms : List Member) : (encode ms).length = 80*ms.length := by
  induction ms with
  | nil => rfl
  | cons m ms ih =>
    rw [encode, flatMap_cons, length_append, length_cons, mul_add, ← ih, encode, add_comm]
    simp [encodeRecord, addrField_length]

/-- What is read from an encoded table are its records, with the addresses cut. -/
theorem records_read (ms : List Member) (h : ∀ m ∈ ms, m.Wired) :
    readRecords ((encode ms).length/80) (encode ms) = ms.map fun m => (m.id, m.info.wire) := by
  rw [encode_length, Nat.mul_div_cancel_left _ (by decide)]
  induction ms with
  | nil => rfl
  | cons m ms ih =>
    obtain ⟨hread, hrest⟩ := record_read m (h m mem_cons_self) (encode ms)
    rw [length_cons, readRecords, encode, flatMap_cons, ← encode, hread, hrest,
      ih fun m hm => h m (mem_cons_of_mem _ hm), map_cons]

end Codec

section Merge

def merge (old msg : Option Info) : Option Info := (msg.map (upsert old)).or old

theorem receive_other {self k : NodeId} (hk : k ≠ self) (t : Table) (r : NodeId × Info) :
    receive self t r k = if r.1 = k then some (upsert (t k) r.2) else t k := by
  by_cases hr : r.1 = k
  · rw [receive, if_neg (by simp [hr]), if_neg (by rwa [hr]), if_pos hr]
  · rw [receive, if_pos (Ne.symm hr), if_neg hr]

/-- Of a list of records with distinct ids, one at most is about a given node. -/
theorem fold_receive {self k : NodeId} (hk : k ≠ self) (rs : List (NodeId × Info))
    (h : (rs.map Prod.fst).Nodup) (t : Table) :
    rs.foldl (receive self) t k = merge (t k) (lookup rs k) := by
  induction rs generalizing t with
  | nil => rfl
  | cons r rs ih =>
    obtain ⟨hr, hrs⟩ := nodup_cons.mp h
    rw [foldl_cons, ih hrs, receive_other hk, lookup, lookup, find?_cons]
    by_cases hrk : r.1 = k
    · have hnone : rs.find? (fun r => r.1 = k) = none := by
        rw [find?_eq_none]
        intro x hx hxk
        exact hr (mem_map.mpr ⟨x, hx, (of_decide_eq_true hxk).trans hrk.symm⟩)
      rw [if_pos hrk, hnone, decide_eq_true hrk]
      rfl
    · rw [if_neg hrk, decide_eq_false hrk]

theorem lookup_wire (ms : List Member) (k : NodeId) :
    lookup (ms.map fun m => (m.id, m.info.wire)) k =
      (lookup (ms.map fun m => (m.id, m.info)) k).map Info.wire := by
  induction ms with
  | nil => rfl
  | cons m ms ih =>
    rw [lookup, lookup, map_cons, map_cons, find?_cons, find?_cons]
    dsimp only
    cases decide (m.id = k) with
    | true => rfl
    | false => exact ih

theorem decode_other {self k : NodeId} (hk : k ≠ self) (t : Table) {ms : List Member} {u : Table}
    (h : Lists ms u) : decode self t (encode ms) k = merge (t k) ((u k).map Info.wire) := by
  have hids : ((ms.map fun m => (m.id, m.info.wire)).map Prod.fst).Nodup := by
    rw [map_map]
    exact h.ids
  rw [decode, records_read ms h.wired, fold_receive hk _ hids, lookup_wire, h.info]

theorem wire_wire (n : Info) : n.wire.wire = n.wire := by
  simp [Info.wire]

theorem beats_wire (m n : Info) : (Beats m.wire n ↔ Beats m n) ∧ (Beats m n.wire ↔ Beats m n) :=
  ⟨Iff.rfl, Iff.rfl⟩

theorem not_beats_self (n : Info) : ¬Beats n n := by
  rintro (h | ⟨ha, hd, -⟩)
  · exact lt_irrefl _ h
  · rcases hd with hd | hd <;> rw [ha] at hd <;> cases hd

theorem beats_asymm {m n : Info} (h : Beats m n) : ¬Beats n m := by
  rintro (h' | ⟨ha', hd', hv'⟩)
  · rcases h with h | ⟨-, -, hv⟩ <;> omega
  · rcases h with h | ⟨ha, -, -⟩
    · omega
    · rcases hd' with hd' | hd' <;> rw [ha] at hd' <;> cases hd'

/-- What a node with `a` has after the other one, with `b`, has sent its record. -/
def settled (a b : Option Info) : Option Info := merge a (b.map Info.wire)

theorem settled_cases (a b : Option Info) : settled a b = a ∨ (settled a b = b.map Info.wire ∧
    settled b a = b) := by
  cases b with
  | none => exact .inl rfl
  | some n =>
    cases a with
    | none => exact .inr ⟨rfl, rfl⟩
    | some m =>
      by_cases h : Beats n m
      · have h' := beats_asymm h
        right
        simp [settled, merge, upsert, (beats_wire n m).1.mpr h, mt (beats_wire m n).1.mp h']
      · left
        simp [settled, merge, upsert, mt (beats_wire n m).1.mp h]

theorem merge_wire (a : Option Info) : merge a (a.map Info.wire) = a ∧
    merge (a.map Info.wire) (a.map Info.wire) = a.map Info.wire := by
  cases a with
  | none => exact ⟨rfl, rfl⟩
  | some n =>
    have h := not_beats_self n
    constructor
    · simp [merge, upsert, mt (beats_wire n n).1.mp h]
    · simp [merge, upsert, not_beats_self n.wire]

/-- Further deliveries change nothing. -/
theorem merge_settled {a b x y : Option Info} (hx : x = a ∨ x = settled a b)
    (hy : y = b ∨ y = settled b a) : merge x (y.map Info.wire) = settled a b := by
  have hwire : ∀ z : Option Info, (z.map Info.wire).map Info.wire = z.map Info.wire := by
    intro z
    cases z with
    | none => rfl
    | some n => simp [wire_wire]
  rcases settled_cases b a with hb | ⟨hb, ha⟩
  · rw [hb, or_self] at hy
    rw [hy]
    rcases hx with rfl | rfl
    · rfl
    rcases settled_cases a b with ha | ⟨ha, -⟩
    · rw [ha]
      exact ha
    · rw [ha]
      exact (merge_wire b).2
  · rw [ha, or_self] at hx
    rw [hx, ha]
    rcases hy with rfl | rfl
    · exact ha
    · rw [hb, hwire]
      exact (merge_wire a).1

theorem wire_eq_iff (n : Info) : n = n.wire ↔ Short n := by
  rw [Info.wire, Short, Info.ext_iff]
  simp

theorem settled_iff (a b : Option Info) : settled a b = settled b a ↔ Mergeable a b := by
  cases a with
  | none =>
    cases b with
    | none => exact iff_of_true rfl trivial
    | some n => simpa [settled, merge, upsert, Mergeable, eq_comm] using wire_eq_iff n
  | some m =>
    cases b with
    | none => simpa [settled, merge, upsert, Mergeable] using wire_eq_iff m
    | some n =>
      have hm := (beats_wire m n).1
      have hn := (beats_wire n m).1
      by_cases h : Beats m n
      · have h' := beats_asymm h
        simpa [settled, merge, upsert, Mergeable, hm, hn, h, h'] using wire_eq_iff m
      · by_cases h' : Beats n m
        · simpa [settled, merge, upsert, Mergeable, hm, hn, h, h', eq_comm] using wire_eq_iff n
        · simp [settled, merge, upsert, Mergeable, hm, hn, h, h']

end Merge

/-- Before its first delivery a node has its own record, and afterwards the settled one. -/
theorem exchange_held {A B k : NodeId} {ta tb x y : Table} {p q : Bool} (hA : k ≠ A) (hB : k ≠ B)
    (he : Exchange A B ta tb x y p q) :
    (x k = settled (ta k) (tb k) ∨ (p = false ∧ x k = ta k)) ∧
      (y k = settled (tb k) (ta k) ∨ (q = false ∧ y k = tb k)) := by
  induction he with
  | start => exact ⟨.inr ⟨rfl, rfl⟩, .inr ⟨rfl, rfl⟩⟩
  | toA _ _ hl ih ih' =>
    refine ⟨.inl ?_, ih.2⟩
    rw [decode_other hA _ hl]
    exact merge_settled (ih.1.symm.imp_left And.right) (ih'.2.symm.imp_left And.right)
  | toB _ _ hl ih ih' =>
    refine ⟨ih.1, .inl ?_⟩
    rw [decode_other hB _ hl]
    exact merge_settled (ih.2.symm.imp_left And.right) (ih'.1.symm.imp_left And.right)

/-- After a delivery in each direction, and any others, the two nodes agree on every third node
exactly if of its two records the one that wins fits the wire, or neither wins and they are equal. -/
theorem exchange_converges {A B : NodeId} {ta tb x y : Table}
    (he : Exchange A B ta tb x y true true) :
    (∀ k, k ≠ A → k ≠ B → x k = y k) ↔ ∀ k, k ≠ A → k ≠ B → Mergeable (ta k) (tb k) := by
  refine forall_congr' fun k => forall_congr' fun hA => forall_congr' fun hB => ?_
  obtain ⟨hx, hy⟩ := exchange_held hA hB he
  rw [hx.resolve_right (by simp), hy.resolve_right (by simp), settled_iff]

def third (state : NodeState) : List Member := [⟨3, ⟨[97], [98], .data, state, 5⟩, 0, 0⟩]

def table (ms : List Member) : Table := lookup (ms.map fun m => (m.id, m.info))

theorem exchange_converges_alive :
    decode 1 (table (third .alive)) (encode (third .dead)) 3 =
      decode 2 (table (third .dead)) (encode (third .alive)) 3 := by
  have hdead : Lists (third .dead) (table (third .dead)) :=
    ⟨by decide, by simp [third]; exact ⟨by decide, by decide, by decide, by decide, by decide, by decide⟩,
      fun _ => rfl⟩
  have halive : Lists (third .alive) (table (third .alive)) :=
    ⟨by decide, by simp [third]; exact ⟨by decide, by decide, by decide, by decide, by decide, by decide⟩,
      fun _ => rfl⟩
  refine (exchange_converges (.toB (.toA .start .start hdead) .start halive)).mpr
    (fun k _ _ => ?_) 3 (by decide) (by decide)
  by_cases hk : k = 3
  · subst hk
    exact (by decide : Short ⟨[97], [98], .data, .alive, 5⟩)
  · have hnone : ∀ s, table (third s) k = none := by
      intro s
      simp [table, third, lookup, Ne.symm hk]
    rw [hnone, hnone]
    trivial

theorem suspect_stays_apart :
    (decode 1 (table (third .suspect)) (encode (third .dead)) 3).map Info.state = some .suspect ∧
      (decode 2 (table (third .dead)) (encode (third .suspect)) 3).map Info.state = some .dead := by
  decide

end QEngine.GossipExchange

import QEngine.RaftService
import QEngine.StepRuns

/-!
# Installing a snapshot

The leader cuts a body into chunks; the follower writes each chunk at its offset
into one staging file and hands the file over when the last one arrives. Nothing
in the file says which transfer a byte came from, or whether it came at all.
-/

namespace QEngine.RaftSnapshotTransfer
open Option List Function ByteFields RaftLogRecord RaftNode RaftService StepRuns

def onInstallSnapshot (n : Node) (self : ℕ) (req : InstallReq) (ok : Bool) :
    Node × List Output :=
  match installBegin n req with
  | (m, false) => (m, [.send (.installResp self req m.currentTerm)])
  | (m, true) =>
    let file := stageWrite m.stage req.offset req.data
    if req.done then
      match slurp (some file) (req.offset+req.data.length) with
      | some body =>
        let m := installEnd { m with stage := none } req ok
        (m, [.restore req body, .send (.installResp self req m.currentTerm)])
      | none => ({ m with stage := none }, [.send (.installResp self req m.currentTerm)])
    else ({ m with stage := some file }, [.send (.installResp self req m.currentTerm)])

theorem installBegin_fields (n : Node) (req : InstallReq) :
    (installBegin n req).1.log = n.log ∧ (installBegin n req).1.stage = n.stage ∧
    ((installBegin n req).2 = true → n.log.snapIndex < req.lastIncludedIndex) := by
  unfold installBegin Node.hearLeader
  split
  · exact ⟨rfl, rfl, by simp⟩
  · split <;> exact ⟨rfl, rfl, fun h => of_decide_eq_true h⟩

def Completes (n : Node) (req : InstallReq) : Prop :=
  (installBegin n req).2 = true ∧ req.done = true ∧
  (slurp (some (stageWrite n.stage req.offset req.data)) (req.offset+req.data.length)).isSome = true

instance (n : Node) (req : InstallReq) : Decidable (Completes n req) := by
  unfold Completes
  infer_instance

theorem completes_log {n : Node} (self : ℕ) {req : InstallReq} (hc : Completes n req) :
    n.log.snapIndex < req.lastIncludedIndex ∧ (onInstallSnapshot n self req true).1.log =
      n.log.compact req.lastIncludedIndex req.lastIncludedTerm := by
  obtain ⟨hgo, hd, hs⟩ := hc
  obtain ⟨hlog, hst, hlt⟩ := installBegin_fields n req
  refine ⟨hlt hgo, ?_⟩
  obtain ⟨body, hbody⟩ := isSome_iff_exists.mp hs
  unfold onInstallSnapshot
  generalize installBegin n req = r at hgo hlog hst
  obtain ⟨m, go⟩ := r
  subst hgo
  dsimp only
  rw [hst, if_pos hd, hbody]
  dsimp only [installEnd]
  rw [if_pos rfl, hlog]

def ConflictCleared (l l' : Log) (req : InstallReq) : Prop :=
  (∀ e, l.read req.lastIncludedIndex = some e → e.term ≠ req.lastIncludedTerm) →
    ∀ x, req.lastIncludedIndex < x → l'.read x = none

/-- Entries above the snapshot are kept whatever entry the log held at the
snapshot index, so a conflict is cleared only where there are none. -/
theorem install_clears_conflict_iff (n : Node) (self : ℕ) (req : InstallReq) (ha : n.log.Aligned)
    (hc : Completes n req) : ConflictCleared n.log (onInstallSnapshot n self req true).1.log req ↔
      (∃ e, n.log.read req.lastIncludedIndex = some e ∧ e.term = req.lastIncludedTerm) ∨
      n.log.lastIndex ≤ req.lastIncludedIndex := by
  obtain ⟨hlt, hlog⟩ := completes_log self hc
  have hw := compact_wf n.log req.lastIncludedIndex req.lastIncludedTerm ha hlt
  have hspan := ha.span
  have hlast := compact_last n.log req.lastIncludedIndex req.lastIncludedTerm hlt
  have hfirst := hw.first_eq
  rw [(compact_marks n.log _ req.lastIncludedTerm hlt).1] at hfirst
  rw [length_drop] at hlast
  rw [hlog]
  constructor
  · intro h
    by_contra hno
    rw [not_or] at hno
    obtain ⟨hne, hgt⟩ := hno
    have hkept : 0 < (n.log.compact req.lastIncludedIndex req.lastIncludedTerm).entries.length := by
      rw [compact_entries n.log _ _ hlt, length_drop]
      have := ha.first_le
      omega
    have hread := read_position _ hw.toAligned 0 (getElem?_eq_getElem hkept)
    rw [hfirst, add_zero, h (fun e he ht => hne ⟨e, he, ht⟩) _ (Nat.lt_succ_self _)] at hread
    simp at hread
  · rintro (⟨e, he, ht⟩ | hle) hx x hlx
    · exact absurd ht (hx e he)
    · rw [Log.read, if_neg (by omega), if_pos (by omega)]

def followerLog (terms : List ℕ) : Log :=
  terms.foldl (fun l t => ((l.append t 1 []).map Prod.fst).getD l) Log.empty

def twoNodes : Config := ⟨[1, 2], 256, by decide, by decide⟩

def follower (terms : List ℕ) : Node := Node.boot twoNodes 2 1 0 (followerLog terms)

theorem followerLog_aligned (terms : List ℕ) : (followerLog terms).Aligned := by
  have h : ∀ l : Log, l.Aligned →
      (terms.foldl (fun l t => ((l.append t 1 []).map Prod.fst).getD l) l).Aligned := by
    induction terms with
    | nil => exact fun _ hl => hl
    | cons t ts ih =>
      intro l hl
      exact ih _ (append_aligned l t 1 [] _ _ hl rfl)
  exact h _ aligned_empty

/-- A log that ends at the snapshot index with an entry of another term. -/
theorem install_clears_last_entry : Completes (follower [1, 1]) ⟨2, 1, 2, 2, 0, true, [9]⟩ ∧
      ConflictCleared (follower [1, 1]).log
      (onInstallSnapshot (follower [1, 1]) 2 ⟨2, 1, 2, 2, 0, true, [9]⟩ true).1.log
        ⟨2, 1, 2, 2, 0, true, [9]⟩ := by
  have hc : Completes (follower [1, 1]) ⟨2, 1, 2, 2, 0, true, [9]⟩ := by decide +kernel
  exact ⟨hc, (install_clears_conflict_iff _ 2 _
    (followerLog_aligned [1, 1]) hc).mpr (.inr (by decide +kernel))⟩

/-- The follower holds entries of term 1 at 1, 2 and 3; the snapshot ends at
index 2 in term 2. The entry at 3 stays. -/
theorem install_keeps_conflicting_suffix : Completes (follower [1, 1, 1]) ⟨2, 1, 2, 2, 0, true, [9]⟩ ∧
    (follower [1, 1, 1]).log.read 2 = some ⟨2, 1, 1, []⟩ ∧
    (onInstallSnapshot (follower [1, 1, 1]) 2 ⟨2, 1, 2, 2, 0, true, [9]⟩ true).1.log.read 3 =
    some ⟨3, 1, 1, []⟩ ∧
    ¬ConflictCleared (follower [1, 1, 1]).log
    (onInstallSnapshot (follower [1, 1, 1]) 2 ⟨2, 1, 2, 2, 0, true, [9]⟩ true).1.log
      ⟨2, 1, 2, 2, 0, true, [9]⟩ := by
  have h2 : (follower [1, 1, 1]).log.read 2 = some ⟨2, 1, 1, []⟩ := by decide +kernel
  have h3 : (onInstallSnapshot (follower [1, 1, 1]) 2 ⟨2, 1, 2, 2, 0, true, [9]⟩ true).1.log.read 3 =
    some ⟨3, 1, 1, []⟩ := by decide +kernel
  refine ⟨by decide +kernel, h2, h3, fun h => ?_⟩
  have hx := h (fun e he => by rw [h2] at he; cases he; decide) 3 (by decide)
  rw [h3] at hx
  simp at hx

structure Delivery where
  transfer : Transfer
  k : ℕ
  ok : Bool
  sent : k = 0 ∨ k*chunkMax < transfer.body.length

def Delivery.req (d : Delivery) : InstallReq := chunk { d.transfer with off := d.k*chunkMax }

variable {data : Bytes} {file : Option Bytes}

theorem stageWrite_inside (file : Option Bytes) {off : ℕ} {i : ℕ} (h : off ≤ i)
    (hi : i < off+data.length) : (stageWrite file off data)[i]? = data[i-off]? := by
  unfold stageWrite
  split
  · rename_i h0
    rw [h0, Nat.sub_zero]
  rw [if_neg (by rintro rfl; simp at hi; omega)]
  have hlen : ((file.getD []).take off++List.replicate (off-(file.getD []).length) 0).length =
      off := by
    simp
    omega
  rw [append_assoc _ data, getElem?_append_right (by omega), hlen,
    getElem?_append_left (by omega)]

theorem stageWrite_outside (file : Option Bytes) {off : ℕ} (i : ℕ) (h0 : off ≠ 0)
    (h : (i < off ∧ i < (file.getD []).length) ∨ off+data.length ≤ i) :
    (stageWrite file off data)[i]? = (file.getD [])[i]? := by
  unfold stageWrite
  rw [if_neg h0]
  split
  · rfl
  rcases h with ⟨h1, h2⟩ | h1
  · rw [append_assoc, append_assoc, getElem?_append_left (by simp; omega),
      getElem?_take, if_pos h1]
  have hlen : ((file.getD []).take off++List.replicate (off-(file.getD []).length) 0++
      data).length = off+data.length := by
    simp
    omega
  rw [getElem?_append_right (by omega), hlen, getElem?_drop]
  congr 1
  omega

/-- A follower that only receives chunks. For each chunk number the transfer
that wrote it last is kept, from the chunk that started the file on. -/
structure Receiver where
  node : Node
  staged : ℕ → Option Transfer
  trace : List Output
  arrived : List Delivery

def Receiver.start (n : Node) : Receiver := ⟨n, fun _ => none, [], []⟩

def receive (self : ℕ) (s : Receiver) (d : Delivery) : Option Receiver :=
  let r := onInstallSnapshot s.node self d.req d.ok
  some {
    node := r.1
    staged :=
      if (installBegin s.node d.req).2 then
        if d.req.done then fun _ => none
        else update (if d.k = 0 then fun _ => none else s.staged) d.k (some d.transfer)
      else s.staged
    trace := s.trace++r.2
    arrived := s.arrived++[d] }

/-- A last chunk that is taken in finds every earlier chunk of its own
transfer in the file. -/
def lastFindsOwn (s : Receiver) (d : Delivery) : Prop :=
  (installBegin s.node d.req).2 = true → d.req.done = true →
    ∀ j < d.k, s.staged j = some d.transfer

def WholeBodies (s : Receiver) : Prop :=
  ∀ req body, Output.restore req body ∈ s.trace → ∃ d ∈ s.arrived, body = d.transfer.body

def Staged (s : Receiver) : Prop :=
  ∀ j t, s.staged j = some t → ∀ i, j*chunkMax ≤ i → i < (j+1)*chunkMax →
    i < t.body.length ∧ (s.node.stage.getD [])[i]? = t.body[i]?

theorem delivery_data (d : Delivery) : d.req.offset = d.k*chunkMax ∧ d.k*chunkMax ≤ d.transfer.body.length ∧
    (∀ i, i < d.req.data.length → d.req.data[i]? = d.transfer.body[d.k*chunkMax+i]?) ∧
    (d.req.done = true → d.k*chunkMax+d.req.data.length = d.transfer.body.length) ∧
    (d.req.done = false → d.req.data.length = chunkMax ∧ (d.k+1)*chunkMax < d.transfer.body.length) := by
  have hle : d.k*chunkMax ≤ d.transfer.body.length := by
    rcases d.sent with h | h
    · rw [h, Nat.zero_mul]
      exact Nat.zero_le _
    · exact le_of_lt h
  have hlen : d.req.data.length = min (d.transfer.body.length-d.k*chunkMax) chunkMax := by
    simp [Delivery.req, chunk, chunkTake]
  have hdone : d.req.done = decide (min (d.transfer.body.length-d.k*chunkMax) chunkMax =
    d.transfer.body.length-d.k*chunkMax) := rfl
  refine ⟨rfl, hle, ?_, ?_, ?_⟩
  · intro i hi
    change ((d.transfer.body.drop (d.k*chunkMax)).take _)[i]? = _
    rw [getElem?_take, if_pos (by rw [hlen] at hi; exact hi), getElem?_drop]
  · intro h
    rw [hdone, decide_eq_true_eq] at h
    omega
  · intro h
    rw [hdone, decide_eq_false_iff_not] at h
    rw [hlen, Nat.succ_mul]
    omega

theorem write_own (d : Delivery) (i : ℕ) (h : d.k*chunkMax ≤ i)
    (hi : i < d.k*chunkMax+d.req.data.length) :
    (stageWrite file d.req.offset d.req.data)[i]? = d.transfer.body[i]? := by
  obtain ⟨hoff, _, hdata, _⟩ := delivery_data d
  rw [hoff, stageWrite_inside _ h hi, hdata _ (by omega), Nat.add_sub_of_le h]

variable {d : Delivery}

theorem write_other {i : ℕ} {b : UInt8} (hk : d.k ≠ 0)
    (hb : (file.getD [])[i]? = some b) (hi : i < d.k*chunkMax ∨ d.k*chunkMax+d.req.data.length ≤ i) :
    (stageWrite file d.req.offset d.req.data)[i]? = some b := by
  obtain ⟨hoff, _⟩ := delivery_data d
  have hpos : d.k*chunkMax ≠ 0 := Nat.mul_ne_zero hk (by decide)
  rw [hoff, stageWrite_outside _ i hpos ?_, hb]
  rcases hi with hi | hi
  · exact Or.inl ⟨hi, (List.getElem?_eq_some_iff.mp hb).1⟩
  · exact .inr hi

variable {s : Receiver}

theorem slurp_whole (hs : Staged s) (hd : d.req.done = true)
    (hw : ∀ j < d.k, s.staged j = some d.transfer) :
    slurp (some (stageWrite s.node.stage d.req.offset d.req.data))
      (d.req.offset+d.req.data.length) = some d.transfer.body := by
  obtain ⟨hoff, _, _, hlen, _⟩ := delivery_data d
  have hget : ∀ i < d.transfer.body.length,
      (stageWrite s.node.stage d.req.offset d.req.data)[i]? = d.transfer.body[i]? := by
    intro i hi
    by_cases hlt : i < d.k*chunkMax
    · have hj : i/chunkMax < d.k := Nat.div_lt_of_lt_mul (by rw [Nat.mul_comm]; exact hlt)
      obtain ⟨_, h2⟩ := hs _ _ (hw _ hj) i (Nat.div_mul_le_self i chunkMax)
        (by rw [Nat.mul_comm]; exact Nat.lt_mul_div_succ i (by decide))
      rw [getElem?_eq_getElem hi] at h2 ⊢
      exact write_other (Nat.ne_zero_of_lt hj) h2 (.inl hlt)
    · exact write_own d i (by omega) (by rw [hlen hd]; exact hi)
  rw [hoff, hlen hd, ← hoff]
  generalize stageWrite s.node.stage d.req.offset d.req.data = file at hget
  by_cases h0 : d.transfer.body.length = 0
  · rw [slurp, if_pos h0, length_eq_zero_iff.mp h0]
  have hlong : d.transfer.body.length ≤ file.length := by
    have hlast := hget (d.transfer.body.length-1) (by omega)
    rw [getElem?_eq_getElem (show d.transfer.body.length-1 < d.transfer.body.length by
      omega)] at hlast
    have := (List.getElem?_eq_some_iff.mp hlast).1
    omega
  rw [slurp, if_neg h0, if_pos hlong]
  congr 1
  apply ext_getElem?
  intro i
  rw [getElem?_take]
  split
  · exact hget i (by assumption)
  · rw [getElem?_eq_none (by omega)]

theorem onInstall_cases (n : Node) (self : ℕ) (req : InstallReq) (ok : Bool) :
    ((installBegin n req).2 = false ∧ (onInstallSnapshot n self req ok).1.stage = n.stage ∧
      ∀ r body, Output.restore r body ∉ (onInstallSnapshot n self req ok).2) ∨
    ((installBegin n req).2 = true ∧ req.done = false ∧ (onInstallSnapshot n self req ok).1.stage =
        some (stageWrite n.stage req.offset req.data) ∧
      ∀ r body, Output.restore r body ∉ (onInstallSnapshot n self req ok).2) ∨
    ((installBegin n req).2 = true ∧ req.done = true ∧
      ∀ r body, Output.restore r body ∈ (onInstallSnapshot n self req ok).2 →
        slurp (some (stageWrite n.stage req.offset req.data)) (req.offset+req.data.length) = some body) := by
  obtain ⟨_, hst, _⟩ := installBegin_fields n req
  unfold onInstallSnapshot
  generalize installBegin n req = p at hst
  obtain ⟨m, go⟩ := p
  cases go with
  | false => exact .inl ⟨rfl, hst, by simp⟩
  | true =>
    dsimp only
    rw [hst]
    cases hd : req.done with
    | false => exact .inr (.inl ⟨rfl, rfl, rfl, by simp⟩)
    | true =>
      refine .inr (.inr ⟨rfl, rfl, ?_⟩)
      rw [if_pos rfl]
      cases slurp (some (stageWrite n.stage req.offset req.data)) (req.offset+req.data.length) with
      | none => simp
      | some body =>
        intro r b hb
        simp only [mem_cons, Output.restore.injEq, not_mem_nil, or_false] at hb
        rcases hb with ⟨_, rfl⟩ | hb
        · rfl
        · simp at hb

theorem staged_step {self : ℕ} {s' : Receiver} (hs : Staged s)
    (hw : WholeBodies s) (hok : lastFindsOwn s d) (h : receive self s d = some s') : Staged s' ∧
    WholeBodies s' := by
  cases h
  obtain ⟨_, _, _, _, hmore⟩ := delivery_data d
  have hold : ∀ req body, Output.restore req body ∈ s.trace →
      ∃ d' ∈ s.arrived++[d], body = d'.transfer.body := by
    intro req body hb
    obtain ⟨d', hd', he⟩ := hw req body hb
    exact ⟨d', mem_append_left _ hd', he⟩
  rcases onInstall_cases _ _ _ _ with ⟨hgo, hst, hno⟩ | ⟨hgo, hd, hst, hno⟩ |
    ⟨hgo, hd, hbody⟩
  · refine ⟨?_, ?_⟩
    · intro j t hj i h1 h2
      rw [hgo] at hj
      rw [hst]
      exact hs j t hj i h1 h2
    · intro req body hb
      rcases mem_append.mp hb with hb | hb
      · exact hold req body hb
      · exact absurd hb (hno req body)
  · obtain ⟨hlen, hlt⟩ := hmore hd
    refine ⟨?_, ?_⟩
    · intro j t hj i h1 h2
      dsimp only at hj ⊢
      rw [hgo, if_pos rfl, hd, if_neg (by simp)] at hj
      rw [hst, getD_some]
      by_cases hjk : j = d.k
      · subst hjk
        rw [update_self] at hj
        cases hj
        rw [Nat.succ_mul] at h2 hlt
        exact ⟨by omega, write_own d i h1 (by omega)⟩
      rw [update_of_ne hjk] at hj
      split at hj
      · simp at hj
      rename_i hk
      obtain ⟨h3, h4⟩ := hs j t hj i h1 h2
      refine ⟨h3, ?_⟩
      rw [getElem?_eq_getElem h3] at h4 ⊢
      refine write_other hk h4 ?_
      -- chunks of different numbers do not overlap
      rcases Nat.lt_or_gt_of_ne hjk with hlt' | hgt
      · exact .inl (lt_of_lt_of_le h2 (Nat.mul_le_mul_right _ hlt'))
      · rw [hlen, ← Nat.succ_mul]
        exact .inr (le_trans (Nat.mul_le_mul_right _ hgt) h1)
    · intro req body hb
      rcases mem_append.mp hb with hb | hb
      · exact hold req body hb
      · exact absurd hb (hno req body)
  · refine ⟨?_, ?_⟩
    · intro j t hj
      rw [hgo, if_pos rfl, hd, if_pos rfl] at hj
      simp at hj
    intro req body hb
    rcases mem_append.mp hb with hb | hb
    · exact hold req body hb
    have h1 := hbody req body hb
    rw [slurp_whole hs hd (hok hgo hd)] at h1
    exact ⟨d, mem_append_right _ (mem_singleton_self d), (some.inj h1).symm⟩

/-- As long as each last chunk finds the others of its transfer in the file, only whole bodies are
restored. -/
theorem restored_bodies_whole (self : ℕ) (n : Node) (ds : List Delivery) (s : Receiver)
    (ha : Along (receive self) lastFindsOwn (Receiver.start n) ds)
    (hr : run (receive self) (Receiver.start n) ds = some s) : WholeBodies s := by
  refine (run_invariant (fun s => Staged s ∧ WholeBodies s) ?_ ds _ s ?_ ha hr).2
  · intro s d s' hs hok h
    exact staged_step hs.1 hs.2 hok h
  · exact ⟨fun j t hj => absurd hj (by simp [Receiver.start]),
      fun req body hb => absurd hb (by simp [Receiver.start])⟩

def shipment (index : ℕ) (a b : UInt8) : Transfer :=
  ⟨2, 1, 1, index, 1, List.replicate chunkMax a++[b], 0, 0⟩

def firstPart (index : ℕ) (a b : UInt8) : Delivery := ⟨shipment index a b, 0, true, .inl rfl⟩

def lastPart (index : ℕ) (a b : UInt8) : Delivery :=
  ⟨shipment index a b, 1, true, .inr (by simp [shipment])⟩

theorem firstPart_req (index : ℕ) (a b : UInt8) :
    (firstPart index a b).req = ⟨1, 1, index, 1, 0, false, List.replicate chunkMax a⟩ := by
  have hlen : (shipment index a b).body.length = chunkMax+1 := by simp [shipment]
  have htake : min (chunkMax+1-0) chunkMax = chunkMax := by omega
  simp only [Delivery.req, chunk, chunkTake, firstPart, Nat.zero_mul, hlen, htake, InstallReq.mk.injEq]
  refine ⟨rfl, rfl, rfl, rfl, trivial, by simp, ?_⟩
  simp [shipment]

theorem lastPart_req (index : ℕ) (a b : UInt8) :
    (lastPart index a b).req = ⟨1, 1, index, 1, chunkMax, true, [b]⟩ := by
  have hlen : (shipment index a b).body.length = chunkMax+1 := by simp [shipment]
  have htake : min (chunkMax+1-chunkMax) chunkMax = 1 := by
    rw [Nat.add_sub_cancel_left]
    rfl
  simp only [Delivery.req, chunk, chunkTake, lastPart, Nat.one_mul, hlen, htake, InstallReq.mk.injEq]
  refine ⟨rfl, rfl, rfl, rfl, trivial, by simp, ?_⟩
  simp [shipment]

def Waiting (n : Node) : Prop := n.currentTerm = 1 ∧ n.log.snapIndex = 0

theorem waiting_takes {n : Node} (hn : Waiting n) (req : InstallReq) (ht : req.term = 1)
    (hi : 0 < req.lastIncludedIndex) : (installBegin n req).2 = true ∧ Waiting (installBegin n req).1 := by
  obtain ⟨h1, h2⟩ := hn
  unfold installBegin Node.hearLeader
  rw [ht, h1, if_neg (by simp), if_neg (by simp)]
  exact ⟨decide_eq_true (by change n.log.snapIndex < _; omega), rfl, h2⟩

theorem receive_first (self : ℕ) (s : Receiver) (hn : Waiting s.node) (index : ℕ) (hi : 0 < index)
    (a b : UInt8) :
    ∃ s', receive self s (firstPart index a b) = some s' ∧ Waiting s'.node ∧
      s'.node.stage = some (List.replicate chunkMax a) ∧ s'.staged 0 = some (shipment index a b) ∧
      s'.arrived = s.arrived++[firstPart index a b] := by
  obtain ⟨hgo, hw⟩ := waiting_takes hn (firstPart index a b).req (by rw [firstPart_req])
    (by rw [firstPart_req]; exact hi)
  refine ⟨_, rfl, ?_, ?_, ?_, rfl⟩
  · unfold onInstallSnapshot
    generalize installBegin s.node (firstPart index a b).req = p at hgo hw
    obtain ⟨m, go⟩ := p
    subst hgo
    rw [firstPart_req]
    exact hw
  · rcases onInstall_cases _ _ _ _ with
      ⟨h, _⟩ | ⟨_, _, h, _⟩ | ⟨_, h, _⟩
    · rw [hgo] at h
      simp at h
    · rw [firstPart_req] at h ⊢
      exact h
    · rw [firstPart_req] at h
      simp at h
  · rw [if_pos hgo, if_neg (by rw [firstPart_req]; simp)]
    rfl

theorem receive_last (self : ℕ) (s : Receiver) (hn : Waiting s.node) (index : ℕ) (hi : 0 < index)
    (a b c : UInt8) (hst : s.node.stage = some (List.replicate chunkMax c)) :
    ∃ s', receive self s (lastPart index a b) = some s' ∧
      Output.restore (lastPart index a b).req (List.replicate chunkMax c++[b]) ∈ s'.trace ∧
      s'.arrived = s.arrived++[lastPart index a b] := by
  obtain ⟨hgo, _⟩ := waiting_takes hn (lastPart index a b).req (by rw [lastPart_req])
    (by rw [lastPart_req]; exact hi)
  obtain ⟨_, hstage, _⟩ := installBegin_fields s.node (lastPart index a b).req
  refine ⟨_, rfl, mem_append_right _ ?_, rfl⟩
  unfold onInstallSnapshot
  generalize installBegin s.node (lastPart index a b).req = p at hgo hstage
  obtain ⟨m, go⟩ := p
  subst hgo
  rw [hst] at hstage
  have hpos : chunkMax ≠ 0 := by decide
  have hslurp : slurp (some (stageWrite m.stage chunkMax [b])) (chunkMax+1) =
      some (List.replicate chunkMax c++[b]) := by
    rw [hstage]
    simp [stageWrite, slurp, hpos]
  rw [lastPart_req]
  dsimp only
  rw [if_pos rfl, length_singleton, hslurp]
  exact mem_cons_self

/-- Both chunks of one transfer, in order. -/
theorem restored_two_chunks : ∃ s, Along (receive 2) lastFindsOwn (Receiver.start (follower []))
        [firstPart 5 1 1, lastPart 5 1 1] ∧
      run (receive 2) (Receiver.start (follower [])) [firstPart 5 1 1, lastPart 5 1 1] = some s ∧
      Output.restore (lastPart 5 1 1).req (List.replicate chunkMax 1++[1]) ∈ s.trace ∧ WholeBodies s := by
  obtain ⟨s1, h1, hw, hst, hown, _⟩ := receive_first 2 (Receiver.start (follower [])) ⟨rfl, rfl⟩ 5
    (by decide) 1 1
  obtain ⟨s2, h2, hres, _⟩ := receive_last 2 s1 hw 5 (by decide) 1 1 1 hst
  have ha : Along (receive 2) lastFindsOwn (Receiver.start (follower []))
      [firstPart 5 1 1, lastPart 5 1 1] := by
    refine ⟨fun _ hd => ?_, ?_⟩
    · rw [firstPart_req] at hd
      simp at hd
    rw [h1]
    refine ⟨fun _ _ j hj => ?_, ?_⟩
    · have h0 : j = 0 := Nat.lt_one_iff.mp hj
      rw [h0]
      exact hown
    · rw [h2]
      trivial
  have hr : run (receive 2) (Receiver.start (follower [])) [firstPart 5 1 1, lastPart 5 1 1] =
      some s2 := by
    rw [run, h1, bind_some, run, h2]
    rfl
  exact ⟨s2, ha, hr, hres, restored_bodies_whole 2 _ _ s2 ha hr⟩

/-- The last chunk of an aborted transfer arrives late: the body restored is half of each. -/
theorem restored_mixed_body : ∃ s, run (receive 2) (Receiver.start (follower []))
        [firstPart 5 1 1, firstPart 6 2 2, lastPart 5 1 1] = some s ∧
      Output.restore (lastPart 5 1 1).req (List.replicate chunkMax 2++[1]) ∈ s.trace ∧ ¬WholeBodies s := by
  obtain ⟨s1, h1, hw1, _, _, ha1⟩ := receive_first 2 (Receiver.start (follower [])) ⟨rfl, rfl⟩ 5
    (by decide) 1 1
  obtain ⟨s2, h2, hw2, hst, _, ha2⟩ := receive_first 2 s1 hw1 6 (by decide) 2 2
  obtain ⟨s3, h3, hres, ha3⟩ := receive_last 2 s2 hw2 5 (by decide) 1 1 2 hst
  have hr : run (receive 2) (Receiver.start (follower []))
      [firstPart 5 1 1, firstPart 6 2 2, lastPart 5 1 1] = some s3 := by
    rw [run, h1, bind_some, run, h2, bind_some, run, h3]
    rfl
  refine ⟨s3, hr, hres, fun hw => ?_⟩
  obtain ⟨d, hd, he⟩ := hw _ _ hres
  have hhead : ∀ x y u v : UInt8,
      List.replicate chunkMax x++[u] = List.replicate chunkMax y++[v] → x = y ∧ u = v := by
    intro x y u v h
    obtain ⟨h4, h5⟩ := append_inj h (by simp)
    exact ⟨(replicate_inj.mp h4).2.resolve_left (by decide), by simpa using h5⟩
  rw [ha3, ha2, ha1] at hd
  simp only [Receiver.start, nil_append, mem_append, mem_singleton] at hd
  rcases hd with (rfl | rfl) | rfl
  · exact absurd (hhead 2 1 1 1 he).1 (by decide)
  · exact absurd (hhead 2 2 1 2 he).2 (by decide)
  · exact absurd (hhead 2 1 1 1 he).1 (by decide)

end QEngine.RaftSnapshotTransfer

import QEngine.RawBlocks
import QEngine.HashRing

/-!
# Convergence of replication by raw blocks

The records of some senders are delivered to a receiver in any order, some of them
many times; a record that is refused is delivered again. The applier writes to the
first data directory of the receiver, the reader opens the table in the directory its
name is hashed to.
-/

namespace QEngine.ReplicaConvergence
open List Function ByteFields AdaptiveCodec IndexFiles ColumnAlignment PartitionOpen PublishGate BlockFiles
open PartitionRead RawBlocks StepRuns
open IndexManifests (sameBlock scanEntries placement Whole)
open BlockOrdinals (OrdKey OrdEntry OrdMap ordmapNext entriesOf Room foldl_higher ordTranslate_cases
  toNat_succ)

def stripeOf (ndirs : ℕ) (table : Bytes) : ℕ := if ndirs ≤ 1 then 0 else HashRing.fnv1a64 table%ndirs

structure Group where
  key : OrdKey
  push : ℕ → Push
  block : ℕ → Column

structure Group.Sent (mc : Machine) (types : List ColumnType) (g : Group) (ci : ℕ) : Prop where
  col : (g.push ci).colIdx.toNat = ci
  ord : (g.push ci).ord = some g.key.remote
  key : (g.push ci).key g.key.remote = g.key
  carries : Carries mc (g.push ci) (g.block ci)
  type : types[ci]? = some (g.block ci).type

structure Delivery where
  group : ℕ
  col : ℕ
  run : ApplyRun
  deriving DecidableEq

structure Receiver where
  dirs : ℕ → Replica
  stripe : ℕ
  accepted : List (ℕ × ℕ)

def step (mc : Machine) (tsIdx : ℕ) (gs : List Group) (s : Receiver) (d : Delivery) : Option Receiver :=
  match gs[d.group]? with
  | none => none
  | some g =>
    match (s.dirs 0).apply mc.crcStep true tsIdx d.run (g.push d.col) with
    | (r, rc) => some ⟨update s.dirs 0 r, s.stripe,
      if rc = .ok then (d.group, d.col) :: s.accepted else s.accepted⟩

def start (ndirs : ℕ) (table : Bytes) (ncols : ℕ) : Receiver :=
  ⟨fun _ => ⟨List.replicate ncols ⟨none, []⟩, none⟩, stripeOf ndirs table, []⟩

def Receiver.partition (s : Receiver) (tsIdx : ℕ) : Partition := (s.dirs s.stripe).partition tsIdx

/-- A record of the table; blocks can be read for comparison, numbers and files have room. -/
def Allowed (ncols : ℕ) (s : Receiver) (d : Delivery) : Prop :=
  d.col < ncols ∧ d.run.unopened = false ∧ Room (s.dirs 0).next 1 ∧
    ((s.dirs 0).col d.col).data.length+2^33 < 2^64

instance (ncols : ℕ) (s : Receiver) (d : Delivery) : Decidable (Allowed ncols s d) :=
  inferInstanceAs (Decidable (_ ∧ _ ∧ _ ∧ _))

/-! ### The place of a block -/

def number (e : Meta) : ℕ := e.ord.elim 0 UInt32.toNat

structure Ascending (es : List Meta) : Prop where
  marked : ∀ e ∈ es, e.ord.isSome = true
  ascends : es.Pairwise fun a b => number a < number b

variable {es : List Meta}

variable {c : ColumnFile} {e : Meta} {same : Meta → Bool} {m : Option OrdMap} {ord : Option UInt32}

theorem ascending_tail (h : Ascending (e :: es)) : Ascending es :=
  ⟨fun a ha => h.marked a (mem_cons_of_mem _ ha), (pairwise_cons.mp h.ascends).2⟩

variable {v : UInt32}

theorem number_some (h : e.ord = some v) : number e = v.toNat := by
  rw [number, h]
  rfl

theorem scan_ascending {b pos q : ℕ} {u u' : Bool}
    (ha : Ascending es) (hs : ∀ e ∈ es, e.ord = some v → same e = true)
    (h : scanEntries same v es b pos u = some (q, u')) :
    u' = u ∧ ∃ k ≤ es.length, q = (if k = 0 then pos else b+k) ∧
      (∀ e ∈ es.take k, number e < v.toNat) ∧ ∀ e ∈ es.drop k, v.toNat < number e := by
  induction es generalizing b pos with
  | nil =>
    rw [scanEntries] at h
    obtain ⟨rfl, rfl⟩ := Prod.mk.inj (Option.some.inj h)
    exact ⟨rfl, 0, le_rfl, rfl, fun e he => (by cases he), fun e he => (by cases he)⟩
  | cons e es ih =>
    obtain ⟨eo, ho⟩ := Option.isSome_iff_exists.mp (ha.marked e mem_cons_self)
    have hnum := number_some ho
    have hbehind := (pairwise_cons.mp ha.ascends).1
    rw [scanEntries, ho] at h
    dsimp only at h
    by_cases hv : eo = v
    · rw [if_pos hv, if_pos (hs e mem_cons_self (by rw [ho, hv]))] at h
      cases h
    rw [if_neg hv] at h
    obtain ⟨hu, k, hk, hq, hlt, hgt⟩ := ih (ascending_tail ha)
      (fun a hm => hs a (mem_cons_of_mem _ hm)) h
    refine ⟨hu, ?_⟩
    by_cases hle : eo < v
    · -- A smaller number: the block goes behind it.
      rw [if_pos hle] at hq
      refine ⟨k+1, by simpa using hk, ?_, ?_, hgt⟩
      · rw [hq, if_neg (Nat.succ_ne_zero k)]
        split_ifs <;> omega
      intro a hm
      rcases mem_cons.mp hm with rfl | hm
      · rw [hnum]
        exact UInt32.lt_iff_toNat_lt.mp hle
      · exact hlt a hm
    · -- A larger number: so are all that follow.
      rw [if_neg hle] at hq
      have hlarge : v.toNat < number e := by
        rw [hnum]
        have h1 : ¬eo.toNat < v.toNat := fun hh => hle (UInt32.lt_iff_toNat_lt.mpr hh)
        have h2 : eo.toNat ≠ v.toNat := fun hh => hv (UInt32.toNat_inj.mp hh)
        omega
      have hk0 : k = 0 := by
        by_contra hne
        cases es with
        | nil => simp at hk; omega
        | cons a es =>
          obtain ⟨k, rfl⟩ := Nat.exists_eq_succ_of_ne_zero hne
          have h1 := hlt a (by simp)
          have h2 := hbehind a mem_cons_self
          omega
      subst hk0
      refine ⟨0, Nat.zero_le _, hq, fun a hm => (by cases hm), ?_⟩
      intro a hm
      rcases mem_cons.mp hm with rfl | hm
      · exact hlarge
      · exact hlarge.trans (hbehind a hm)

theorem placement_ascending (ha : Ascending es) (hs : ∀ e ∈ es, e.ord = some v → same e = true) :
    (placement same es (some v) = none ∧ ∃ e ∈ es, e.ord = some v) ∨
    ∃ pos, placement same es (some v) = some pos ∧ (∀ e ∈ es.take pos, number e < v.toNat) ∧
      ∀ e ∈ es.drop pos, v.toNat < number e := by
  rw [placement]
  cases h : scanEntries same v es 0 0 false with
  | none =>
    obtain ⟨e, he, ho, -⟩ := scanEntries_none h
    exact .inl ⟨rfl, e, he, ho⟩
  | some r =>
    obtain ⟨q, u⟩ := r
    obtain ⟨rfl, k, hk, hq, hlt, hgt⟩ := scan_ascending ha hs h
    have hqk : q = k := by
      rw [hq]
      split_ifs <;> omega
    right
    refine ⟨k, ?_, hlt, hgt⟩
    dsimp only
    rw [hqk, if_neg (by simp)]

theorem ascending_insert {m : Meta} {pos : ℕ} (ha : Ascending es)
    (hm : m.ord = some v) (hlt : ∀ e ∈ es.take pos, number e < v.toNat)
    (hgt : ∀ e ∈ es.drop pos, v.toNat < number e) : Ascending (es.take pos++m :: es.drop pos) := by
  have hnum := number_some hm
  constructor
  · intro e he
    rcases mem_append.mp he with he | he
    · exact ha.marked e (mem_of_mem_take he)
    rcases mem_cons.mp he with rfl | he
    · rw [hm]
      rfl
    · exact ha.marked e (mem_of_mem_drop he)
  rw [pairwise_append, pairwise_cons]
  refine ⟨ha.ascends.sublist (take_sublist _ _), ⟨fun e he => hnum ▸ hgt e he,
    ha.ascends.sublist (drop_sublist _ _)⟩, ?_⟩
  intro a hta b hb
  have h1 := hlt a hta
  rcases mem_cons.mp hb with rfl | hb
  · omega
  · have h2 := hgt b hb
    omega

theorem ascending_length {n : ℕ} (ha : Ascending es) (hn : ∀ e ∈ es, number e < n) : es.length ≤ n := by
  have hnd : (es.map number).Nodup := by
    rw [nodup_iff_pairwise_ne, pairwise_map]
    exact ha.ascends.imp fun h => ne_of_lt h
  have hsub : es.map number ⊆ List.range n := by
    intro x hx
    obtain ⟨e, he, rfl⟩ := mem_map.mp hx
    exact mem_range.mpr (hn e he)
  simpa using (hnd.subperm hsub).length_le

/-! ### What the receiver has -/

structure Mapped (m : Option OrdMap) : Prop where
  keys : ((entriesOf m).map OrdEntry.key).Nodup
  ords : ((entriesOf m).map OrdEntry.ord).Nodup
  below : ∀ e ∈ entriesOf m, e.ord.toNat < (ordmapNext m).toNat

theorem mapped_key (h : Mapped m) {k : OrdKey} {w : UInt32}
    (hv : ⟨k, v⟩ ∈ entriesOf m) (hw : ⟨k, w⟩ ∈ entriesOf m) : v = w :=
  congrArg OrdEntry.ord (inj_on_of_nodup_map h.keys hv hw rfl)

theorem mapped_ord (h : Mapped m) {k l : OrdKey}
    (hk : ⟨k, v⟩ ∈ entriesOf m) (hl : ⟨l, v⟩ ∈ entriesOf m) : k = l :=
  congrArg OrdEntry.key (inj_on_of_nodup_map h.ords hk hl rfl)

structure Stored (mc : Machine) (file : Bytes) (g : Group) (ci : ℕ) (e : Meta) : Prop where
  size : e.size.toNat = (g.push ci).data.length
  count : e.count = g.key.count
  tsMin : e.tsMin = g.key.tsMin
  tsMax : e.tsMax = g.key.tsMax
  data : (file.drop (e.offset.toNat+32)).take (g.push ci).data.length = (g.push ci).data
  holds : Holds mc file e (g.block ci)

structure ColumnOk (mc : Machine) (gs : List Group) (m : Option OrdMap) (ci : ℕ) (c : ColumnFile) : Prop where
  whole : Whole c.idx
  size : c.data.length < 2^64
  ascending : Ascending c.entries
  blocks : ∀ e ∈ c.entries, ∃ g ∈ gs, ∃ v, e.ord = some v ∧ ⟨g.key, v⟩ ∈ entriesOf m ∧ Stored mc c.data g ci e

structure Received (mc : Machine) (ncols : ℕ) (gs : List Group) (r : Replica) (acc : List (ℕ × ℕ)) :
    Prop where
  width : r.cols.length = ncols
  mapped : Mapped r.map
  cols : ∀ ci < ncols, ColumnOk mc gs r.map ci (r.col ci)
  accepted : ∀ i ci, (i, ci) ∈ acc → ∃ g v, gs[i]? = some g ∧ ⟨g.key, v⟩ ∈ entriesOf r.map ∧
    ∃ e ∈ (r.col ci).entries, e.ord = some v

variable {mc : Machine}

variable {ci : ℕ} {g : Group} {types : List ColumnType}

theorem columnOk_mono {gs : List Group} {m' : Option OrdMap}
    (h : ColumnOk mc gs m ci c) (hm : ∀ e ∈ entriesOf m, e ∈ entriesOf m') : ColumnOk mc gs m' ci c := by
  refine ⟨h.whole, h.size, h.ascending, fun e he => ?_⟩
  obtain ⟨g, hg, v, ho, hv, hs⟩ := h.blocks e he
  exact ⟨g, hg, v, ho, hm _ hv, hs⟩

theorem ordmapNext_le_next (r : Replica) : (ordmapNext r.map).toNat ≤ r.next.toNat :=
  (foldl_higher (fun c : ColumnFile => PartitionFlush.idxNextOrd c.idx) _ _).1

theorem translate_mapped {r : Replica} {p : Push} {a : ApplyRun} {x : UInt32} (hm : Mapped r.map)
    (hroom : Room r.next 1) (hp : p.ord = some x) : Mapped (r.translate a p).1.map ∧
    (∀ e ∈ entriesOf r.map, e ∈ entriesOf (r.translate a p).1.map) ∧ ∀ ord, (r.translate a p).2 = some ord →
      ∃ v, ord = some v ∧ ⟨p.key x, v⟩ ∈ entriesOf (r.translate a p).1.map := by
  have hle := ordmapNext_le_next r
  have hup := toNat_succ hroom
  unfold Replica.translate
  rw [hp]
  dsimp only
  cases ht : BlockOrdinals.ordTranslate r.next r.map (p.key x) a.translation with
  | mk m o =>
    rcases ordTranslate_cases hle ht with ⟨v, rfl, rfl, he⟩ | ⟨rfl, he, hn⟩ | ⟨hnew, rfl, hn, he⟩
    · refine ⟨hm, fun e h => h, fun ord h => ⟨v, (Option.some.inj h).symm, he⟩⟩
    · refine ⟨⟨by rw [he]; exact hm.keys, by rw [he]; exact hm.ords, fun e h => ?_⟩,
        fun e h => by rw [he]; exact h, fun ord h => by cases h⟩
      rw [he] at h
      have hb := hm.below e h
      rcases hn with hn | hn <;> dsimp only <;> rw [hn] <;> omega
    have hmem : ∀ e, e ∈ entriesOf m ↔ e ∈ entriesOf r.map ∨ e = ⟨p.key x, r.next⟩ := by
      intro e
      rw [he, mem_append, mem_singleton]
    refine ⟨⟨?_, ?_, ?_⟩, fun e h => (hmem e).mpr (.inl h),
      fun ord h => ⟨r.next, (Option.some.inj h).symm, (hmem _).mpr (.inr rfl)⟩⟩
    · dsimp only
      rw [he, map_append, nodup_append]
      refine ⟨hm.keys, nodup_singleton _, ?_⟩
      intro k hk l hl hkl
      obtain ⟨e, hmem, rfl⟩ := mem_map.mp hk
      rw [map_singleton, mem_singleton] at hl
      exact hnew e hmem (hkl.trans hl)
    · dsimp only
      rw [he, map_append, nodup_append]
      refine ⟨hm.ords, nodup_singleton _, ?_⟩
      intro k hk l hl hkl
      obtain ⟨e, hmem, rfl⟩ := mem_map.mp hk
      rw [map_singleton, mem_singleton] at hl
      have hb := hm.below e hmem
      rw [hkl, hl] at hb
      dsimp only at hb
      omega
    · intro e h
      rw [hn, hup]
      rcases (hmem e).mp h with h | rfl
      · have hb := hm.below e h
        omega
      · exact Nat.lt_succ_self _

theorem stored_append {file : Bytes}
    (h : Stored mc file g ci e) (hl : file.length < 2^64) (more : Bytes) : Stored mc (file++more) g ci e := by
  refine ⟨h.size, h.count, h.tsMin, h.tsMax, ?_, holds_append h.holds _⟩
  obtain ⟨-, -, -, hbound⟩ := holds_within h.holds hl
  have hsize := h.size
  rw [drop_append_of_le_length (by omega), take_append_of_le_length (by rw [length_drop]; omega)]
  exact h.data

theorem stored_new (hg : g.Sent mc types ci) (hl : c.data.length < 2^64) :
    Stored mc (c.data++(g.push ci).bytes mc.crcStep) g ci ((g.push ci).entry c.data.length ord) := by
  have hkey := hg.key
  refine ⟨?_, congrArg OrdKey.count hkey, congrArg OrdKey.tsMin hkey, congrArg OrdKey.tsMax hkey, ?_,
    stored_holds hg.carries hl⟩
  · show (UInt32.ofNat (g.push ci).data.length).toNat = _
    rw [UInt32.toNat_ofNat', Nat.mod_eq_of_lt (g.push ci).dataLen]
  have hoff : ((g.push ci).entry c.data.length ord).offset.toNat = c.data.length := by
    show (UInt64.ofNat c.data.length).toNat = _
    rw [UInt64.toNat_ofNat', Nat.mod_eq_of_lt hl]
  rw [hoff, ← drop_drop, drop_left, Push.bytes,
    drop_left' (writeBlockHeader_length _), take_left]

theorem stored_same {a : ApplyRun} (hg : g.Sent mc types ci) (ha : a.unopened = false)
    (h : Stored mc c.data g ci e) :
    sameBlock ((g.push ci).sameData a c.data) ((g.push ci).entry c.data.length ord) e = true := by
  have hkey := hg.key
  have hsize : e.size = UInt32.ofNat (g.push ci).data.length := by
    rw [← h.size, UInt32.ofNat_toNat]
  have hcount : e.count = (g.push ci).count := h.count.trans (congrArg OrdKey.count hkey).symm
  have hmin : e.tsMin = (g.push ci).tsMin := h.tsMin.trans (congrArg OrdKey.tsMin hkey).symm
  have hmax : e.tsMax = (g.push ci).tsMax := h.tsMax.trans (congrArg OrdKey.tsMax hkey).symm
  rw [sameBlock, Bool.and_eq_true]
  refine ⟨decide_eq_true ⟨hsize, hcount, hmin, hmax⟩, ?_⟩
  rw [Bool.or_eq_true]
  right
  rw [Push.sameData, ha]
  exact decide_eq_true h.data

section Step
variable {mc : Machine} {types : List ColumnType} {gs : List Group} {r r' : Replica} {acc : List (ℕ × ℕ)}
  {i ci tsIdx : ℕ} {g : Group} {a : ApplyRun} {rc : Ready}

variable {c : ColumnFile} {m : Option OrdMap}

theorem received_map {n : ℕ} (h : Received mc n gs r acc) (hm : Mapped m)
    (hsub : ∀ e ∈ entriesOf r.map, e ∈ entriesOf m) : Received mc n gs ⟨r.cols, m⟩ acc := by
  refine ⟨h.width, hm, fun j hj => columnOk_mono (h.cols j hj) hsub, ?_⟩
  intro j cj hj
  obtain ⟨g, v, hg, hv, he⟩ := h.accepted j cj hj
  exact ⟨g, v, hg, hsub _ hv, he⟩

theorem same_group (hk : (gs.map Group.key).Nodup) {v : UInt32} {e : Meta}
    (hm : Mapped m) (hc : ColumnOk mc gs m ci c) (hg : g ∈ gs) (hv : ⟨g.key, v⟩ ∈ entriesOf m)
    (he : e ∈ c.entries) (ho : e.ord = some v) : Stored mc c.data g ci e := by
  obtain ⟨g', hg', w, hw, hmem, hs⟩ := hc.blocks e he
  obtain rfl : v = w := Option.some.inj (ho.symm.trans hw)
  obtain rfl : g' = g := inj_on_of_nodup_map hk hg' hg (mapped_ord hm hmem hv)
  exact hs

theorem received_put {n : ℕ} (h : Received mc n gs r acc) (hci : ci < n)
    (hc : ColumnOk mc gs r.map ci c) (hsub : ∀ e ∈ (r.col ci).entries, e ∈ c.entries) :
    Received mc n gs ⟨r.cols.set ci c, r.map⟩ acc := by
  have hw := h.width
  have hcol : ∀ j, (Replica.mk (r.cols.set ci c) r.map).col j = if j = ci then c else r.col j := by
    intro j
    rw [Replica.col]
    by_cases hj : j = ci
    · subst hj
      rw [getElem?_set_self (by omega), if_pos rfl]
      rfl
    · rw [getElem?_set_ne (Ne.symm hj), if_neg hj, Replica.col]
  refine ⟨by rw [length_set]; exact hw, h.mapped, ?_, ?_⟩
  · intro j hj
    rw [hcol]
    split_ifs with hjc
    · rw [hjc]
      exact hc
    · exact h.cols j hj
  intro j cj hj
  obtain ⟨g, v, hg, hv, e, he, ho⟩ := h.accepted j cj hj
  refine ⟨g, v, hg, hv, e, ?_, ho⟩
  rw [hcol]
  split_ifs with hjc
  · exact hsub e (hjc ▸ he)
  · exact he

theorem columnOk_stored {v : UInt32} {pos : ℕ} (hc : ColumnOk mc gs m ci c)
    (hg : g ∈ gs) (hs : g.Sent mc types ci) (hv : ⟨g.key, v⟩ ∈ entriesOf m) (hlen : c.entries.length+1 < 2^32)
    (hfile : c.data.length+2^33 < 2^64) (hpos : (g.push ci).place a c (some v) = some pos)
    (hlt : ∀ e ∈ c.entries.take pos, number e < v.toNat)
    (hgt : ∀ e ∈ c.entries.drop pos, v.toNat < number e) :
    ColumnOk mc gs m ci ((g.push ci).stored mc.crcStep a c (some v)) := by
  obtain ⟨hwhole, hes⟩ := stored_entries _ hc.whole hlen hpos
  have hbytes := (g.push ci).bytes_length_le mc.crcStep
  refine ⟨hwhole, ?_, ?_, ?_⟩
  · rw [Push.stored, length_append]
    omega
  · rw [hes]
    exact ascending_insert hc.ascending rfl hlt hgt
  intro e he
  have hold : e ∈ c.entries → ∃ g' ∈ gs, ∃ w, e.ord = some w ∧ ⟨g'.key, w⟩ ∈ entriesOf m ∧
      Stored mc (c.data++(g.push ci).bytes mc.crcStep) g' ci e := by
    intro he
    obtain ⟨g', hg', w, hw, hmem, hst⟩ := hc.blocks e he
    exact ⟨g', hg', w, hw, hmem, stored_append hst hc.size _⟩
  rw [hes] at he
  rcases mem_append.mp he with he | he
  · exact hold (mem_of_mem_take he)
  rcases mem_cons.mp he with rfl | he
  · exact ⟨g, hg, v, rfl, hv, stored_new hs hc.size⟩
  · exact hold (mem_of_mem_drop he)

theorem received_step {verify : Bool} (hk : (gs.map Group.key).Nodup) (h : Received mc types.length gs r acc)
    (hg : gs[i]? = some g) (hs : g.Sent mc types ci) (hci : ci < types.length) (ha : a.unopened = false)
    (hroom : Room r.next 1) (hfile : (r.col ci).data.length+2^33 < 2^64)
    (happly : r.apply mc.crcStep verify tsIdx a (g.push ci) = (r', rc)) :
    Received mc types.length gs r' (if rc = .ok then (i, ci) :: acc else acc) := by
  obtain ⟨hm, hsub, hans⟩ := translate_mapped (a := a) h.mapped hroom hs.ord
  have hcols := translate_cols a r (g.push ci)
  have hmap := received_map h hm hsub
  have hcol := hs.col
  rcases apply_cases happly with ⟨hne, hr⟩ | ⟨rfl, -, ord, hord, hr⟩
  · rw [if_neg hne]
    rcases hr with rfl | rfl
    · exact h
    · rw [← hcols] at hmap
      exact hmap
  rw [if_pos rfl]
  obtain ⟨v, rfl, hv⟩ := hans ord hord
  rw [hs.key] at hv
  rw [hcol] at hr
  have hmem := mem_of_getElem? hg
  have hc : ColumnOk mc gs (r.translate a (g.push ci)).1.map ci (r.col ci) := hmap.cols ci hci
  have hsame : ∀ e ∈ (r.col ci).entries, e.ord = some v →
      sameBlock ((g.push ci).sameData a (r.col ci).data)
        ((g.push ci).entry (r.col ci).data.length (some v)) e =
        true :=
    fun e he ho => stored_same hs ha (same_group hk hm hc hmem hv he ho)
  have hplace := placement_ascending hc.ascending hsame
  -- The record is now among the accepted ones, with the entry under its number.
  have hadd : ∀ t : Replica, Received mc types.length gs t acc → ⟨g.key, v⟩ ∈ entriesOf t.map →
      (∃ e ∈ (t.col ci).entries, e.ord = some v) → Received mc types.length gs t ((i, ci) :: acc) := by
    intro t ht hmem' he
    refine ⟨ht.width, ht.mapped, ht.cols, fun j cj hj => ?_⟩
    rcases mem_cons.mp hj with hj | hj
    · cases hj
      exact ⟨g, v, hg, hmem', he⟩
    · exact ht.accepted j cj hj
  rcases hr with ⟨rfl, hnone⟩ | ⟨pos, hpos, rfl⟩
  · rcases hplace with ⟨-, he⟩ | ⟨pos, hpos, -⟩
    · rw [← hcols] at hmap
      refine hadd _ hmap hv ?_
      rw [Replica.col, hcols]
      exact he
    · exact absurd (hnone.symm.trans hpos) (by simp)
  rcases hplace with ⟨hnone, -⟩ | ⟨pos', hpos', hlt, hgt⟩
  · exact absurd (hnone.symm.trans hpos) (by simp)
  obtain rfl : pos = pos' := Option.some.inj (hpos.symm.trans hpos')
  have hlen : (r.col ci).entries.length+1 < 2^32 := by
    have hn : ∀ e ∈ (r.col ci).entries, number e < r.next.toNat := by
      intro e he
      obtain ⟨g', -, w, hw, hmem', -⟩ := (h.cols ci hci).blocks e he
      rw [number_some hw]
      exact (h.mapped.below _ hmem').trans_le (ordmapNext_le_next r)
    have hle := ascending_length hc.ascending hn
    unfold Room at hroom
    omega
  have hnew := columnOk_stored hc hmem hs hv hlen hfile hpos hlt hgt
  obtain ⟨-, hes⟩ := stored_entries mc.crcStep hc.whole hlen hpos
  refine hadd _ (received_put hmap hci hnew ?_) hv ?_
  · intro e (he : e ∈ (r.col ci).entries)
    rw [hes]
    rw [← take_append_drop pos (r.col ci).entries] at he
    rcases mem_append.mp he with he | he
    · exact mem_append_left _ he
    · exact mem_append_right _ (mem_cons_of_mem _ he)
  refine ⟨(g.push ci).entry (r.col ci).data.length (some v), ?_, rfl⟩
  have hset : (Replica.mk (r.cols.set ci ((g.push ci).stored mc.crcStep a (r.col ci) (some v)))
      (r.translate a (g.push ci)).1.map).col ci = (g.push ci).stored mc.crcStep a (r.col ci) (some v) := by
    rw [Replica.col, getElem?_set_self (by rw [h.width]; exact hci)]
    rfl
  rw [hset, hes]
  exact mem_append_right _ mem_cons_self

end Step

/-! ### All records accepted -/

theorem received_start (mc : Machine) (gs : List Group) (ncols : ℕ) :
    Received mc ncols gs ⟨List.replicate ncols ⟨none, []⟩, none⟩ [] := by
  refine ⟨length_replicate, ⟨nodup_nil, nodup_nil, fun e he => (by cases he)⟩, ?_,
    fun i ci h => (by cases h)⟩
  intro ci hci
  have hcol : (Replica.mk (List.replicate ncols ⟨none, []⟩) none).col ci = ⟨none, []⟩ := by
    rw [Replica.col, getElem?_replicate, if_pos hci]
    rfl
  rw [hcol]
  exact ⟨⟨fun bs h => (by cases h), fun bs h => (by cases h)⟩, by decide,
    ⟨fun e h => (by cases h), List.Pairwise.nil⟩, fun e h => (by cases h)⟩

theorem received_run {tsIdx ndirs : ℕ} {table : Bytes} {gs : List Group}
    (hk : (gs.map Group.key).Nodup) (hs : ∀ g ∈ gs, ∀ ci < types.length, g.Sent mc types ci)
    {ds : List Delivery} {s : Receiver}
    (ha : Along (step mc tsIdx gs) (Allowed types.length) (start ndirs table types.length) ds)
    (hr : run (step mc tsIdx gs) (start ndirs table types.length) ds = some s) :
    s.stripe = stripeOf ndirs table ∧ Received mc types.length gs (s.dirs 0) s.accepted := by
  refine run_invariant
    (fun s => s.stripe = stripeOf ndirs table ∧ Received mc types.length gs (s.dirs 0) s.accepted)
    ?_ ds _ s ⟨rfl, received_start mc gs _⟩ ha hr
  rintro s d s' ⟨hst, hrec⟩ ⟨hci, hopen, hroom, hfile⟩ hstep
  unfold step at hstep
  split at hstep
  · cases hstep
  rename_i g hg
  split at hstep
  rename_i r rc happly
  cases hstep
  refine ⟨hst, ?_⟩
  dsimp only
  rw [update_self]
  exact received_step hk hrec hg (hs g (mem_of_getElem? hg) d.col hci) hci hopen hroom hfile happly

section Final
variable {mc : Machine} {types : List ColumnType} {gs : List Group} {r : Replica} {acc : List (ℕ × ℕ)}

variable {v : ℕ → UInt32}

variable {n ci : ℕ}

theorem numbers_perm (h : Received mc n gs r acc) (hci : ci < n) (hk : (gs.map Group.key).Nodup)
    (hv : ∀ i g, gs[i]? = some g → ⟨g.key, v i⟩ ∈ entriesOf r.map)
    (hall : ∀ i < gs.length, (i, ci) ∈ acc) :
    ((List.range gs.length).map fun i => (v i).toNat).Perm ((r.col ci).entries.map number) := by
  have hc := h.cols ci hci
  have hnd : ((r.col ci).entries.map number).Nodup := by
    rw [nodup_iff_pairwise_ne, pairwise_map]
    exact hc.ascending.ascends.imp fun hlt => ne_of_lt hlt
  have hnv : ((List.range gs.length).map fun i => (v i).toNat).Nodup := by
    refine List.Nodup.map_on ?_ nodup_range
    intro i hi j hj hij
    have hi := mem_range.mp hi
    have hj := mem_range.mp hj
    have h1 := hv i _ (getElem?_eq_getElem hi)
    have h2 := hv j _ (getElem?_eq_getElem hj)
    rw [UInt32.toNat_inj.mp hij] at h1
    have hkey := mapped_ord h.mapped h1 h2
    refine (getElem?_inj (by rw [length_map]; exact hi) hk).mp ?_
    rw [getElem?_map, getElem?_map, getElem?_eq_getElem hi, getElem?_eq_getElem hj,
      Option.map_some, Option.map_some, hkey]
  rw [perm_ext_iff_of_nodup hnv hnd]
  intro x
  constructor
  · intro hx
    obtain ⟨i, hi, rfl⟩ := mem_map.mp hx
    obtain ⟨g, w, hg, hw, e, he, ho⟩ := h.accepted i ci (hall i (mem_range.mp hi))
    refine mem_map.mpr ⟨e, he, ?_⟩
    rw [number_some ho, mapped_key h.mapped hw (hv i g hg)]
  intro hx
  obtain ⟨e, he, rfl⟩ := mem_map.mp hx
  obtain ⟨g, hg, w, hw, hmem, -⟩ := hc.blocks e he
  obtain ⟨i, hi, rfl⟩ := mem_iff_getElem.mp hg
  refine mem_map.mpr ⟨i, mem_range.mpr hi, ?_⟩
  rw [number_some hw, mapped_key h.mapped hmem (hv i _ (getElem?_eq_getElem hi))]

def orderBy (v : ℕ → UInt32) (n : ℕ) : List ℕ :=
  (List.range n).insertionSort fun i j => (v i).toNat ≤ (v j).toNat

theorem orderBy_perm (v : ℕ → UInt32) (n : ℕ) : (orderBy v n).Perm (List.range n) :=
  perm_insertionSort _ _

theorem numbers_ordered (h : Received mc n gs r acc) (hci : ci < n) (hk : (gs.map Group.key).Nodup)
    (hv : ∀ i g, gs[i]? = some g → ⟨g.key, v i⟩ ∈ entriesOf r.map)
    (hall : ∀ i < gs.length, (i, ci) ∈ acc) :
    (orderBy v gs.length).map (fun i => (v i).toNat) = (r.col ci).entries.map number := by
  have hperm := ((orderBy_perm v _).map fun i => (v i).toNat).trans (numbers_perm h hci hk hv hall)
  have hleft : ((orderBy v gs.length).map fun i => (v i).toNat).Pairwise (· ≤ ·) := by
    rw [pairwise_map]
    exact pairwise_insertionSort _ _
  have hright : ((r.col ci).entries.map number).Pairwise (· ≤ ·) := by
    rw [pairwise_map]
    exact (h.cols ci hci).ascending.ascends.imp fun hlt => le_of_lt hlt
  exact List.Perm.eq_of_pairwise' hleft hright hperm

theorem getElem?_filterMap {α β : Type*} {f : α → Option β} {xs : List α} (h : ∀ x ∈ xs, (f x).isSome = true)
    (j : ℕ) : (xs.filterMap f)[j]? = xs[j]?.bind f := by
  induction xs generalizing j with
  | nil => rfl
  | cons x xs ih =>
    obtain ⟨y, hy⟩ := Option.isSome_iff_exists.mp (h x mem_cons_self)
    rw [filterMap_cons_some hy]
    cases j with
    | zero => exact hy.symm
    | succ j => exact ih (fun a ha => h a (mem_cons_of_mem _ ha)) j

def groupsBy (gs : List Group) (v : ℕ → UInt32) : List Group :=
  (orderBy v gs.length).filterMap fun i => gs[i]?

theorem groupsBy_get (gs : List Group) (v : ℕ → UInt32) (j : ℕ) :
    (groupsBy gs v)[j]? = (orderBy v gs.length)[j]?.bind fun i => gs[i]? := by
  refine getElem?_filterMap ?_ j
  intro i hi
  have hlt := mem_range.mp ((orderBy_perm v _).mem_iff.mp hi)
  rw [getElem?_eq_getElem hlt]
  rfl

theorem filterMap_range {α : Type*} (xs : List α) :
    (List.range xs.length).filterMap (fun i => xs[i]?) = xs := by
  refine ext_getElem? fun j => ?_
  rw [getElem?_filterMap]
  · by_cases hj : j < xs.length
    · rw [getElem?_range hj]
      rfl
    · rw [getElem?_eq_none (by simpa using hj), getElem?_eq_none (by simpa using hj)]
      rfl
  · intro i hi
    rw [getElem?_eq_getElem (mem_range.mp hi)]
    rfl

theorem groupsBy_perm (gs : List Group) (v : ℕ → UInt32) : (groupsBy gs v).Perm gs :=
  ((orderBy_perm v gs.length).filterMap fun i => gs[i]?).trans (List.Perm.of_eq (filterMap_range gs))

theorem block_at (h : Received mc n gs r acc) (hci : ci < n) (hk : (gs.map Group.key).Nodup)
    (hv : ∀ i g, gs[i]? = some g → ⟨g.key, v i⟩ ∈ entriesOf r.map)
    (hall : ∀ i < gs.length, (i, ci) ∈ acc) {j : ℕ} {e : Meta} (he : (r.col ci).entries[j]? = some e) :
    ∃ i g, (orderBy v gs.length)[j]? = some i ∧ gs[i]? = some g ∧ e.ord = some (v i) ∧
      Stored mc (r.col ci).data g ci e := by
  have hnum := numbers_ordered h hci hk hv hall
  have hj : ((orderBy v gs.length).map fun i => (v i).toNat)[j]? = some (number e) := by
    rw [hnum, getElem?_map, he]
    rfl
  rw [getElem?_map] at hj
  obtain ⟨i, hi, hval⟩ := Option.map_eq_some_iff.mp hj
  have hlt : i < gs.length :=
    mem_range.mp ((orderBy_perm v _).mem_iff.mp (mem_of_getElem? hi))
  have hg := getElem?_eq_getElem hlt
  obtain ⟨w, hw⟩ := Option.isSome_iff_exists.mp
    ((h.cols ci hci).ascending.marked e (mem_of_getElem? he))
  rw [number_some hw] at hval
  rw [← UInt32.toNat_inj.mp hval] at hw
  exact ⟨i, _, hi, hg, hw, same_group hk h.mapped (h.cols ci hci) (mem_of_getElem? hg) (hv i _ hg)
    (mem_of_getElem? he) hw⟩

/-- The partition that is read has the blocks of all groups, in one order for all columns. -/
theorem received_complete {tsIdx : ℕ} (h : Received mc types.length gs r acc) (hts : tsIdx < types.length)
    (hk : (gs.map Group.key).Nodup) (hv : ∀ i g, gs[i]? = some g → ⟨g.key, v i⟩ ∈ entriesOf r.map)
    (hall : ∀ i < gs.length, ∀ ci < types.length, (i, ci) ∈ acc) :
    Complete mc (r.partition tsIdx) fun ci => (groupsBy gs v).map fun g => g.block ci := by
  have hwidth := h.width
  have hcol : ∀ ci c, r.cols[ci]? = some c → ci < types.length ∧ r.col ci = c := by
    intro ci c hc
    refine ⟨by rw [← hwidth]; exact (List.getElem?_eq_some_iff.mp hc).1, ?_⟩
    rw [Replica.col, hc]
    rfl
  have hlen : ∀ ci < types.length, (r.col ci).entries.length = gs.length := by
    intro ci hci
    have hnum := congrArg List.length (numbers_ordered h hci hk hv fun i hi => hall i hi ci hci)
    rw [length_map, length_map, (orderBy_perm v _).length_eq, length_range] at hnum
    exact hnum.symm
  have htscol : (r.partition tsIdx).ts = r.col tsIdx := rfl
  refine ⟨by rw [Replica.partition, hwidth]; exact hts, ?_, ?_⟩
  · intro ci c hc
    obtain ⟨hci, rfl⟩ := hcol ci c hc
    refine ⟨(h.cols ci hci).size, by rw [length_map, hlen ci hci, (groupsBy_perm gs v).length_eq], ?_⟩
    intro j e b he hb
    obtain ⟨i, g, hi, hg, -, hs⟩ := block_at h hci hk hv (fun i hi => hall i hi ci hci) he
    rw [getElem?_map, groupsBy_get, hi, Option.bind_some, hg, Option.map_some] at hb
    cases hb
    exact hs.holds
  intro ci c hc
  obtain ⟨hci, rfl⟩ := hcol ci c hc
  rw [htscol]
  refine ⟨by rw [hlen ci hci, hlen tsIdx hts], ?_⟩
  intro j e t he ht
  obtain ⟨i, g, hi, hg, ho, hs⟩ := block_at h hci hk hv (fun i hi => hall i hi ci hci) he
  obtain ⟨i', g', hi', hg', ho', hs'⟩ := block_at h hts hk hv (fun i hi => hall i hi tsIdx hts) ht
  obtain rfl : i = i' := Option.some.inj (hi.symm.trans hi')
  obtain rfl : g = g' := Option.some.inj (hg.symm.trans hg')
  exact ⟨hs.count.trans hs'.count.symm, hs.tsMin.trans hs'.tsMin.symm, hs.tsMax.trans hs'.tsMax.symm,
    ho.trans ho'.symm, by rw [ho']; rfl⟩

theorem received_reads {tsIdx : ℕ} (h : Received mc types.length gs r acc) (hts : tsIdx < types.length)
    (hk : (gs.map Group.key).Nodup) (hs : ∀ g ∈ gs, ∀ ci < types.length, g.Sent mc types ci)
    (hall : ∀ i < gs.length, ∀ ci < types.length, (i, ci) ∈ acc) :
    ∃ order : List Group, order.Perm gs ∧ ∀ ci type, types[ci]? = some type →
      columnSlots (r.partition tsIdx) ci = (List.range gs.length).map .block ∧
      readColumn mc type (r.partition tsIdx) ci = .ok (order.map fun g => (g.block ci).values) := by
  -- The number of each group here, from the record of its timestamps.
  have hnum : ∀ i : ℕ, ∃ v : UInt32, ∀ g : Group, gs[i]? = some g → ⟨g.key, v⟩ ∈ entriesOf r.map := by
    intro i
    by_cases hi : i < gs.length
    · obtain ⟨g, v, hg, hv, -⟩ := h.accepted i tsIdx (hall i hi tsIdx hts)
      exact ⟨v, fun g' hg' => by rw [Option.some.inj (hg'.symm.trans hg)]; exact hv⟩
    · exact ⟨0, fun g hg => absurd (List.getElem?_eq_some_iff.mp hg).1 hi⟩
  choose v hv using hnum
  have hcomplete := received_complete h hts hk hv hall
  refine ⟨groupsBy gs v, groupsBy_perm gs v, ?_⟩
  intro ci type htype
  have hci : ci < (r.partition tsIdx).cols.length := by
    rw [Replica.partition, h.width]
    exact (List.getElem?_eq_some_iff.mp htype).1
  have hstores := hcomplete.stores _ _ (col_get hcomplete.ts)
  constructor
  · rw [complete_slots hcomplete hci, Partition.ts, hstores.count, length_map, (groupsBy_perm gs v).length_eq]
  rw [complete_read hcomplete hci, map_map]
  · rfl
  intro b hb
  obtain ⟨g, hg, rfl⟩ := mem_map.mp hb
  have hsent := hs g ((groupsBy_perm gs v).mem_iff.mp hg) ci (List.getElem?_eq_some_iff.mp htype).1
  exact Option.some.inj (hsent.type.symm.trans htype)

end Final

/-- When all records are accepted by a receiver that reads its first data directory, every column
has the blocks of all groups once, in one order. -/
theorem raw_replication_converges (mc : Machine) (types : List ColumnType) (tsIdx ndirs : ℕ) (table : Bytes)
    (gs : List Group) (ds : List Delivery) (s : Receiver) (hts : tsIdx < types.length)
    (hk : (gs.map Group.key).Nodup) (hs : ∀ g ∈ gs, ∀ ci < types.length, g.Sent mc types ci)
    (hdir : stripeOf ndirs table = 0)
    (ha : Along (step mc tsIdx gs) (Allowed types.length) (start ndirs table types.length) ds)
    (hr : run (step mc tsIdx gs) (start ndirs table types.length) ds = some s)
    (hall : ∀ i < gs.length, ∀ ci < types.length, (i, ci) ∈ s.accepted) :
    ∃ order : List Group, order.Perm gs ∧ ∀ ci type, types[ci]? = some type →
      columnSlots (s.partition tsIdx) ci = (List.range gs.length).map .block ∧
      readColumn mc type (s.partition tsIdx) ci = .ok (order.map fun g => (g.block ci).values) := by
  obtain ⟨hst, hrec⟩ := received_run hk hs ha hr
  have hpart : s.partition tsIdx = (s.dirs 0).partition tsIdx := by rw [Receiver.partition, hst, hdir]
  rw [hpart]
  exact received_reads hrec hts hk hs hall

/-! ### A receiver with two data directories -/

def timePush : Push :=
  ⟨[116], 19700101, 0, .dod, 8, 1, 5, 5, Stats.absent, some 0, [5, 0, 0, 0, 0, 0, 0, 0],
    7, by decide, by decide⟩

def valuePush : Push :=
  ⟨[116], 19700101, 1, .dod, 8, 1, 5, 5, Stats.absent, some 0, [9, 0, 0, 0, 0, 0, 0, 0],
    7, by decide, by decide⟩

def oneRow : Group where
  key := ⟨7, 0, 1, 5, 5⟩
  push := fun ci => if ci = 0 then timePush else valuePush
  block := fun ci => if ci = 0 then .timestamp [5] else .int64 [9]

theorem timePush_flushed :
    rawPush PartitionFlush.plainMachine ⟨none, false, plenty⟩ [116] 19700101 0 7 0 (.timestamp [5]) 5 5 =
      some timePush := by
  decide +kernel

theorem valuePush_flushed : rawPush PartitionFlush.plainMachine ⟨none, false, plenty⟩ [116] 19700101 1 7 0
    (.int64 [9]) 5 5 =
      some valuePush := by
  decide +kernel

theorem oneRow_sent : ∀ g ∈ [oneRow], ∀ ci < [ColumnType.timestamp, .int64].length,
    g.Sent PartitionFlush.plainMachine [.timestamp, .int64] ci := by
  intro g hg ci hci
  obtain rfl := mem_singleton.mp hg
  match ci, hci with
  | 0, _ => exact ⟨rfl, rfl, rfl, rawPush_carries (by decide) timePush_flushed, rfl⟩
  | 1, _ => exact ⟨rfl, rfl, rfl, rawPush_carries (by decide) valuePush_flushed, rfl⟩

def deliveries : List Delivery := [⟨0, 0, noFault⟩, ⟨0, 1, noFault⟩, ⟨0, 0, noFault⟩, ⟨0, 1, noFault⟩]

def delivered (ndirs : ℕ) : Option Receiver :=
  run (step PartitionFlush.plainMachine 0 [oneRow]) (start ndirs [116] 2) deliveries

theorem raw_replication_converges_retried : ∃ s, delivered 1 = some s ∧
    s.accepted = [(0, 1), (0, 0), (0, 1)] ∧
      ∃ order : List Group, order.Perm [oneRow] ∧ ∀ ci type, [ColumnType.timestamp, .int64][ci]? = some type →
        columnSlots (s.partition 0) ci = [.block 0] ∧
        readColumn PartitionFlush.plainMachine type (s.partition 0) ci =
          .ok (order.map fun g => (g.block ci).values) := by
  obtain ⟨s, hs, hacc⟩ := run_reaches (step PartitionFlush.plainMachine 0 [oneRow])
    (start 1 [116] 2) deliveries
    (fun s : Receiver => s.accepted = [(0, 1), (0, 0), (0, 1)]) (by decide +kernel)
  refine ⟨s, hs, hacc, ?_⟩
  refine raw_replication_converges _ _ 0 1 [116] _ _ s
    (by decide) (by simp) oneRow_sent rfl (by decide +kernel) hs ?_
  rw [hacc]
  decide

/-- With two data directories the table is read from the second: both records are accepted, and
the partition has no row. -/
theorem striped_receiver_reads_nothing : ∃ s, delivered 2 = some s ∧ s.accepted = [(0, 1), (0, 0), (0, 1)] ∧
    s.stripe = 1 ∧
      columnSlots (s.partition 0) 1 = [] ∧
      readColumn PartitionFlush.plainMachine .timestamp (s.partition 0) 0 = .ok [] ∧
      readColumn PartitionFlush.plainMachine .timestamp ((s.dirs 0).partition 0) 0 = .ok [.words [5]] :=
  run_reaches _ _ _
    (fun s : Receiver => s.accepted = [(0, 1), (0, 0), (0, 1)] ∧ s.stripe = 1 ∧
      columnSlots (s.partition 0) 1 = [] ∧
      readColumn PartitionFlush.plainMachine .timestamp (s.partition 0) 0 = .ok [] ∧
      readColumn PartitionFlush.plainMachine .timestamp ((s.dirs 0).partition 0) 0 = .ok [.words [5]])
    (by decide +kernel)

end QEngine.ReplicaConvergence

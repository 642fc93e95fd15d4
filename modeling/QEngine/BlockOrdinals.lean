import QEngine.StepRuns

/-!
# Block ordinals

Every block of a partition has an ordinal, shared by the blocks of its row group in
all columns. The ordinal of a block that a peer has flushed is translated by a file of
the partition, with a mark above all local ordinals in it.
-/

namespace QEngine.BlockOrdinals
open Option List StepRuns

structure OrdKey where
  issuer : UInt64
  remote : UInt32
  count : UInt32
  tsMin : Int64
  tsMax : Int64
  deriving DecidableEq

structure OrdEntry where
  key : OrdKey
  ord : UInt32
  deriving DecidableEq

/-- The translation file. A last entry that is not whole is read by no one. -/
structure OrdMap where
  next : UInt32
  entries : List OrdEntry
  deriving DecidableEq

def ordmapNext (m : Option OrdMap) : UInt32 :=
  match m with
  | some m => m.next
  | none => 0

def OrdMap.find (m : OrdMap) (k : OrdKey) : Option UInt32 :=
  (m.entries.find? fun e => decide (e.key = k)).map OrdEntry.ord

def ordmapFind (m : Option OrdMap) (k : OrdKey) : Option UInt32 := m.bind fun m => m.find k

/-- How far the writes of a translation come: nothing of it is kept, the mark only, or all. -/
inductive Written
  | nothing
  | mark
  | entry
  deriving DecidableEq

/-- The translation of a group, given the next ordinal of the partition. A new file appears with
its first entry or not at all. -/
def ordTranslate (next : UInt32) (m : Option OrdMap) (k : OrdKey) (w : Written) :
    Option OrdMap × Option UInt32 :=
  match ordmapFind m k with
  | some v => (m, some v)
  | none =>
    let v := if next < ordmapNext m then ordmapNext m else next
    match w with
    | .nothing => (m, none)
    | .mark => (m.map fun m => { m with next := v+1 }, none)
    | .entry =>
      match m with
      | some m => (some ⟨v+1, m.entries++[⟨k, v⟩]⟩, some v)
      | none => (some ⟨v+1, [⟨k, v⟩]⟩, some v)

def raise (next v : UInt32) : UInt32 := if next < v+1 then v+1 else next

/-- The first ordinal above all entries of an index; entries are at least as many as ordinals
that were given by position. -/
def idxNextOrd (es : List UInt32) : UInt32 := es.foldl raise (UInt32.ofNat es.length)

def nextOrdinal (cols : List (List UInt32)) (m : Option OrdMap) : UInt32 :=
  cols.foldl (fun next es => if next < idxNextOrd es then idxNextOrd es else next) (ordmapNext m)

inductive Owner
  | flush (id j : ℕ)
  | merge (id j : ℕ)
  | group (k : OrdKey)
  deriving DecidableEq

structure Flush where
  id : ℕ
  base : UInt32
  n : ℕ
  left : List ℕ
  begun : Bool
  deriving DecidableEq

/-- A compaction with written files: `counts` are the blocks of the columns when they were read,
`left` the columns still to be renamed. -/
structure Draft where
  id : ℕ
  base : UInt32
  n : ℕ
  counts : List ℕ
  left : List ℕ
  marked : Bool
  begun : Bool
  deriving DecidableEq

/-- The ordinals in the index of every column, the translation file, what is under way, and the
ordinals given out with their owners. -/
structure State where
  cols : List (List UInt32)
  map : Option OrdMap
  flush : Option Flush
  draft : Option Draft
  ops : ℕ
  issued : List (UInt32 × Owner)
  deriving DecidableEq

/-- A received block: its translation may be cut short; then it is refused, or it lands in the
index of its column. -/
inductive Push
  | stops (w : Written)
  | refused
  | lands
  deriving DecidableEq

inductive Event
  | flushStart (n : ℕ)
  | publish
  | flushEnd
  | draft (n : ℕ)
  | mark
  | rename
  | unmark
  | push (k : OrdKey) (ci : ℕ) (p : Push)
  | crash
  | opened
  deriving DecidableEq

def ordinals (base : UInt32) (n : ℕ) : List UInt32 := (List.range n).map fun j => base+UInt32.ofNat j

def owned (base : UInt32) (n : ℕ) (o : ℕ → Owner) : List (UInt32 × Owner) :=
  (List.range n).map fun j => (base+UInt32.ofNat j, o j)

def State.next (s : State) : UInt32 := nextOrdinal s.cols s.map

def State.col (s : State) (ci : ℕ) : List UInt32 := (s.cols[ci]?).getD []

def columnOrder (ncols ts : ℕ) : List ℕ := (List.range ncols).filter (· ≠ ts) ++ [ts]

def State.ordBase (s : State) (ts : ℕ) : UInt32 :=
  let b := s.cols.flatten.foldl raise (UInt32.ofNat (s.col ts).length)
  if b < s.next then s.next else b

def State.swapIn (s : State) (d : Draft) (cis : List ℕ) : State :=
  { s with
      cols := s.cols.mapIdx fun ci es => if ci ∈ cis then ordinals d.base d.n else es
      issued := if cis = [] then s.issued else s.issued++owned d.base d.n (Owner.merge d.id) }

/-- A block with a known ordinal is taken for one that is there. -/
def State.land (s : State) (ci : ℕ) (v : UInt32) : State :=
  { s with cols := s.cols.modify ci fun es => if v ∈ es then es else es++[v] }

def Push.written : Push → Written
  | .stops w => w
  | .refused => .entry
  | .lands => .entry

def State.push (s : State) (k : OrdKey) (ci : ℕ) (p : Push) : State :=
  match ordTranslate s.next s.map k p.written with
  | (m, none) => { s with map := m }
  | (m, some v) =>
    let t := { s with map := m, issued := s.issued++[(v, .group k)] }
    match p with
    | .lands => t.land ci v
    | _ => t

def step (ts : ℕ) (s : State) : Event → Option State
  | .flushStart n =>
    if s.flush = none then
      some { s with flush := some ⟨s.ops, s.next, n, columnOrder s.cols.length ts, false⟩, ops := s.ops+1 }
    else none
  | .publish =>
    match s.flush with
    | some ⟨id, base, n, ci :: left, _⟩ =>
      some { s with
        cols := s.cols.modify ci fun es => es++ordinals base n
        flush := some ⟨id, base, n, left, true⟩
        issued := s.issued++owned base n (Owner.flush id) }
    | _ => none
  | .flushEnd => some { s with flush := none }
  | .draft n =>
    if 0 < n ∧ s.col ts ≠ [] then
      some { s with
        draft := some ⟨s.ops, s.ordBase ts, n, s.cols.map List.length,
          (List.range s.cols.length).filter fun ci => decide (s.col ci ≠ []),
          match s.draft with
          | some d => d.marked
          | none => false, false⟩
        ops := s.ops+1 }
    else none
  | .mark =>
    match s.draft with
    | some d =>
      -- A column that has grown since it was read: the merged files are dropped.
      if ∀ ci ∈ d.left, (s.col ci).length = d.counts.getD ci 0 then
        some { s with draft := some { d with marked := true } }
      else some { s with draft := none }
    | none => none
  | .rename =>
    match s.draft with
    | some d =>
      match d.marked, d.left with
      | true, ci :: left =>
        some { s.swapIn d [ci] with draft := some { d with left := left, begun := true } }
      | _, _ => none
    | none => none
  | .unmark =>
    match s.draft with
    | some d => if d.left = [] then some { s with draft := none } else none
    | none => none
  | .push k ci p => some (s.push k ci p)
  | .crash =>
    some { s with flush := none, draft := s.draft.filter Draft.marked }
  | .opened =>
    -- A marker that is still there names all columns; those renamed before stay.
    match s.draft with
    | some d =>
      if d.marked then some { s.swapIn d d.left with draft := none } else some s
    | none => some s

def start (ncols : ℕ) : State := ⟨List.replicate ncols [], none, none, none, 0, []⟩

def Room (base : UInt32) (n : ℕ) : Prop := base.toNat+n < 2^32

/-- No ordinal was given out since the compaction read its first one, unless some of its blocks
are in, and its indexes are those it has read. -/
def State.Unmoved (s : State) (d : Draft) (cis : List ℕ) : Prop :=
  (d.begun = false → s.next ≤ d.base) ∧ (∀ ci ∈ cis, ∀ v ∈ s.col ci, v < d.base) ∧ Room d.base d.n

def Allowed (s : State) : Event → Prop
  | .publish => ∀ f ∈ s.flush, (f.begun = false → s.next ≤ f.base) ∧ Room f.base f.n
  | .rename => ∀ d ∈ s.draft, s.Unmoved d (d.left.take 1)
  | .opened => ∀ d ∈ s.draft, d.marked = true → s.Unmoved d d.left
  | .push k _ _ =>
    (∀ m ∈ s.map, ∀ e ∈ m.entries, e.key.issuer = k.issuer → e.key.remote = k.remote → e.key = k) ∧
    Room s.next 1
  | _ => True

instance (base : UInt32) (n : ℕ) : Decidable (Room base n) := inferInstanceAs (Decidable (_ < _))

instance (s : State) (d : Draft) (cis : List ℕ) : Decidable (s.Unmoved d cis) :=
  haveI : ∀ ci, Decidable (∀ v ∈ s.col ci, v < d.base) := fun _ => List.decidableBAll _ _
  inferInstanceAs (Decidable (_ ∧ _ ∧ _))

instance decidableAllowed (s : State) : ∀ e, Decidable (Allowed s e)
  | .publish | .rename | .opened => Option.decidableForallMem _
  | .push k _ _ =>
    haveI : Decidable (∀ m ∈ s.map, ∀ e ∈ m.entries, e.key.issuer = k.issuer →
      e.key.remote = k.remote → e.key = k) := Option.decidableForallMem _
    inferInstanceAs (Decidable (_ ∧ _))
  | .flushStart _ | .flushEnd | .draft _ | .mark | .unmark | .crash => isTrue trivial

/-! ### The next ordinal is above all that is in the files -/

variable {v : UInt32}

theorem toNat_succ (h : Room v 1) : (v+1).toNat = v.toNat+1 := by
  unfold Room at h
  rw [UInt32.toNat_add, UInt32.toNat_one]
  omega

theorem le_higher (a b : UInt32) :
    a.toNat ≤ (if a < b then b else a).toNat ∧ b.toNat ≤ (if a < b then b else a).toNat := by
  split
  · rename_i h
    exact ⟨le_of_lt (UInt32.lt_iff_toNat_lt.mp h), le_refl _⟩
  · rename_i h
    exact ⟨le_refl _, not_lt.mp fun hn => h (UInt32.lt_iff_toNat_lt.mpr hn)⟩

theorem foldl_higher {α : Type*} (g : α → UInt32) (xs : List α) (next : UInt32) :
    next.toNat ≤ (xs.foldl (fun n x => if n < g x then g x else n) next).toNat ∧
    ∀ x ∈ xs, (g x).toNat ≤ (xs.foldl (fun n x => if n < g x then g x else n) next).toNat := by
  induction xs generalizing next with
  | nil => exact ⟨le_refl _, fun x hx => by cases hx⟩
  | cons y xs ih =>
    obtain ⟨h1, h2⟩ := ih (if next < g y then g y else next)
    obtain ⟨h3, h4⟩ := le_higher _ _
    refine ⟨h3.trans h1, fun x hx => ?_⟩
    rcases mem_cons.mp hx with rfl | hx
    · exact h4.trans h1
    · exact h2 x hx

theorem ordmapNext_le (cols : List (List UInt32)) (m : Option OrdMap) :
    (ordmapNext m).toNat ≤ (nextOrdinal cols m).toNat :=
  (foldl_higher _ _ _).1

variable {cols : List (List UInt32)}

variable {ci : ℕ} {left : List ℕ} {base : UInt32} {es : List UInt32} {r : Option UInt32}
  {f : List UInt32 → List UInt32}

theorem lt_nextOrdinal (m : Option OrdMap) (hes : es ∈ cols) (hv : v ∈ es) (h : Room v 1) :
    v.toNat < (nextOrdinal cols m).toNat := by
  have h1 := (foldl_higher (fun v : UInt32 => v+1) es (UInt32.ofNat es.length)).2 v hv
  have h2 := (foldl_higher idxNextOrd cols (ordmapNext m)).2 es hes
  rw [toNat_succ h] at h1
  exact lt_of_lt_of_le (Nat.lt_succ_self _) (h1.trans h2)

/-! ### What a translation does -/

variable {m : Option OrdMap} {k : OrdKey}

theorem ordmapFind_some (h : ordmapFind m k = some v) : ∃ t, m = some t ∧ ⟨k, v⟩ ∈ t.entries := by
  obtain ⟨t, rfl, h⟩ := bind_eq_some_iff.mp h
  obtain ⟨e, he, rfl⟩ := map_eq_some_iff.mp h
  have hk : e.key = k := of_decide_eq_true (find?_some he :)
  refine ⟨t, rfl, ?_⟩
  rw [← hk]
  exact mem_of_find?_eq_some he

theorem ordmapFind_none {m : OrdMap} (h : ordmapFind (some m) k = none) : ∀ e ∈ m.entries, e.key ≠ k := by
  intro e he hk
  have hf := find?_eq_none.mp (map_eq_none_iff.mp h) e he
  exact hf (decide_eq_true hk)

def entriesOf (m : Option OrdMap) : List OrdEntry :=
  match m with
  | some m => m.entries
  | none => []

theorem ordTranslate_cases {next : UInt32} {m' : Option OrdMap} {w : Written}
    (hn : (ordmapNext m).toNat ≤ next.toNat) (h : ordTranslate next m k w = (m', r)) :
    (∃ v, r = some v ∧ m' = m ∧ ⟨k, v⟩ ∈ entriesOf m) ∨
    (r = none ∧ entriesOf m' = entriesOf m ∧ (ordmapNext m' = ordmapNext m ∨ ordmapNext m' = next+1)) ∨
    ((∀ e ∈ entriesOf m, e.key ≠ k) ∧ r = some next ∧ ordmapNext m' = next+1 ∧
      entriesOf m' = entriesOf m++[⟨k, next⟩]) := by
  unfold ordTranslate at h
  cases hf : ordmapFind m k with
  | some v =>
    rw [hf] at h
    cases h
    obtain ⟨t, rfl, ht⟩ := ordmapFind_some hf
    exact .inl ⟨v, rfl, rfl, ht⟩
  | none =>
    have hv : (if next < ordmapNext m then ordmapNext m else next) = next :=
      if_neg fun hlt => absurd (UInt32.lt_iff_toNat_lt.mp hlt) (not_lt.mpr hn)
    rw [hf] at h
    simp only [hv] at h
    right
    cases w with
    | nothing =>
      cases h
      exact .inl ⟨rfl, rfl, .inl rfl⟩
    | mark =>
      cases h
      left
      cases m with
      | none => exact ⟨rfl, rfl, .inl rfl⟩
      | some t => exact ⟨rfl, rfl, .inr rfl⟩
    | entry =>
      right
      cases m with
      | none =>
        cases h
        exact ⟨fun e he => absurd he not_mem_nil, rfl, rfl, rfl⟩
      | some t =>
        cases h
        exact ⟨ordmapFind_none hf, rfl, rfl, rfl⟩

/-! ### What a run keeps -/

def Covered (cols : List (List UInt32)) (m : Option OrdMap) (v : UInt32) : Prop :=
  v.toNat < (ordmapNext m).toNat ∨ ∃ es ∈ cols, ∃ w ∈ es, v.toNat ≤ w.toNat

theorem covered_lt (hs : ∀ es ∈ cols, ∀ v ∈ es, Room v 1) (h : Covered cols m v) :
    v.toNat < (nextOrdinal cols m).toNat := by
  rcases h with h | ⟨es, hes, w, hw, hle⟩
  · exact h.trans_le (ordmapNext_le _ m)
  · exact hle.trans_lt (lt_nextOrdinal m hes hw (hs es hes w hw))

structure Sound (cols : List (List UInt32)) (m : Option OrdMap) (issued : List (UInt32 × Owner)) :
    Prop where
  covered : ∀ p ∈ issued, Covered cols m p.1
  small : ∀ es ∈ cols, ∀ v ∈ es, Room v 1
  unique : ∀ p ∈ issued, ∀ q ∈ issued, p.1 = q.1 → p.2 = q.2
  groups : ∀ v k, (v, Owner.group k) ∈ issued ↔ ⟨k, v⟩ ∈ entriesOf m
  keys : ((entriesOf m).map fun e => (e.key.issuer, e.key.remote)).Nodup

structure Inv (s : State) : Prop where
  sound : Sound s.cols s.map s.issued
  flush : ∀ f, s.flush = some f → (∀ ci ∈ f.left, ci < s.cols.length) ∧
    (f.begun = true → ∀ p ∈ owned f.base f.n (Owner.flush f.id), p ∈ s.issued)
  draft : ∀ d, s.draft = some d → 0 < d.n ∧ (∀ ci ∈ d.left, ci < s.cols.length) ∧
    (d.begun = true → ∀ p ∈ owned d.base d.n (Owner.merge d.id), p ∈ s.issued)

theorem toNat_offset {n j : ℕ} (h : Room base n) (hj : j < n) :
    (base+UInt32.ofNat j).toNat = base.toNat+j := by
  unfold Room at h
  rw [UInt32.toNat_add, UInt32.toNat_ofNat']
  omega

theorem mem_ordinals {n : ℕ} (h : Room base n) (hv : v ∈ ordinals base n) : Room v 1 := by
  obtain ⟨j, hj, rfl⟩ := mem_map.mp hv
  have hj := mem_range.mp hj
  unfold Room at h ⊢
  rw [toNat_offset h hj]
  omega

theorem sound_blocks {cols' : List (List UInt32)}
    {issued : List (UInt32 × Owner)} {n : ℕ} {o : ℕ → Owner}
    (hs : Sound cols m issued) (hr : Room base n) (ho : ∀ j k, o j ≠ Owner.group k)
    (hb : (∀ p ∈ owned base n o, p ∈ issued) ∨ (nextOrdinal cols m).toNat ≤ base.toNat)
    (hkeep : ∀ p ∈ issued, Covered cols' m p.1) (hnew : ∀ v ∈ ordinals base n, ∃ es ∈ cols', v ∈ es)
    (hsmall : ∀ es ∈ cols', ∀ v ∈ es, (∃ es ∈ cols, v ∈ es) ∨ v ∈ ordinals base n) :
    Sound cols' m (issued++owned base n o) := by
  have hown : ∀ p ∈ owned base n o, ∃ j < n, p = (base+UInt32.ofNat j, o j) := by
    intro p hp
    obtain ⟨j, hj, rfl⟩ := mem_map.mp hp
    exact ⟨j, mem_range.mp hj, rfl⟩
  -- Two owners of one number: the numbers of the new blocks differ, and the old ones are below.
  have hmix : ∀ p ∈ issued, ∀ q ∈ owned base n o, p.1 = q.1 → p.2 = q.2 := by
    intro p hp q hq he
    rcases hb with hb | hb
    · exact hs.unique p hp q (hb q hq) he
    obtain ⟨j, hj, rfl⟩ := hown q hq
    have h1 := (covered_lt hs.small (hs.covered p hp)).trans_le hb
    rw [he, toNat_offset hr hj] at h1
    omega
  refine ⟨?_, ?_, ?_, ?_, hs.keys⟩
  · intro p hp
    rcases mem_append.mp hp with hp | hp
    · exact hkeep p hp
    obtain ⟨j, hj, rfl⟩ := hown p hp
    obtain ⟨es, hes, hv⟩ := hnew _ (mem_map.mpr ⟨j, mem_range.mpr hj, rfl⟩)
    exact .inr ⟨es, hes, _, hv, le_refl _⟩
  · intro es hes v hv
    rcases hsmall es hes v hv with ⟨es', hes', hv'⟩ | hv'
    · exact hs.small es' hes' v hv'
    · exact mem_ordinals hr hv'
  · intro p hp q hq he
    rcases mem_append.mp hp with hp | hp <;> rcases mem_append.mp hq with hq | hq
    · exact hs.unique p hp q hq he
    · exact hmix p hp q hq he
    · exact (hmix q hq p hp he.symm).symm
    obtain ⟨j, hj, rfl⟩ := hown p hp
    obtain ⟨i, hi, rfl⟩ := hown q hq
    have h := congrArg UInt32.toNat he
    rw [toNat_offset hr hj, toNat_offset hr hi] at h
    rw [show j = i by omega]
  · intro v k
    rw [← hs.groups v k, mem_append, or_iff_left]
    intro hp
    obtain ⟨j, -, he⟩ := hown _ hp
    exact ho j k (Prod.mk.inj he).2.symm

theorem mem_modify (h : es ∈ cols.modify ci f) : es ∈ cols ∨ ∃ es' ∈ cols, es = f es' := by
  obtain ⟨i, hi, he⟩ := mem_iff_getElem.mp h
  rw [getElem_modify] at he
  have hi : i < cols.length := by simpa using hi
  split at he
  · exact .inr ⟨_, getElem_mem hi, he.symm⟩
  · exact .inl (he ▸ getElem_mem hi)

theorem covered_modify (ci : ℕ)
    (hf : ∀ es, ∀ w ∈ es, w ∈ f es) (h : Covered cols m v) :
    Covered (cols.modify ci f) m v := by
  rcases h with h | ⟨es, hes, w, hw, hle⟩
  · exact .inl h
  obtain ⟨i, hi, rfl⟩ := mem_iff_getElem.mp hes
  refine .inr ⟨_, getElem_mem (by simpa using hi : i < (cols.modify ci f).length), w, ?_, hle⟩
  rw [getElem_modify]
  split
  · exact hf _ w hw
  · exact hw

variable {s : State}

theorem inv_publish {id n : ℕ} {begun : Bool}
    (hi : Inv s) (hf : s.flush = some ⟨id, base, n, ci :: left, begun⟩)
    (ha : Allowed s .publish) :
    Inv { s with
      cols := s.cols.modify ci fun es => es++ordinals base n
      flush := some ⟨id, base, n, left, true⟩
      issued := s.issued++owned base n (Owner.flush id) } := by
  obtain ⟨hfresh, hr⟩ := ha _ hf
  obtain ⟨hleft, hbegun⟩ := hi.flush _ hf
  have hci : ci < s.cols.length := hleft ci mem_cons_self
  refine ⟨?_, ?_, ?_⟩
  · refine sound_blocks hi.sound hr (fun j k h => by cases h) ?_ ?_ ?_ ?_
    · cases begun with
      | true => exact .inl (hbegun rfl)
      | false => exact .inr (UInt32.le_iff_toNat_le.mp (hfresh rfl))
    · exact fun p hp => covered_modify ci (fun es w hw => mem_append_left _ hw)
        (hi.sound.covered p hp)
    · intro v hv
      refine ⟨_, getElem_mem (by simpa using hci : ci < _), ?_⟩
      rw [getElem_modify, if_pos rfl]
      exact mem_append_right _ hv
    · intro es hes v hv
      rcases mem_modify hes with h | ⟨es', h, rfl⟩
      · exact .inl ⟨es, h, hv⟩
      rcases mem_append.mp hv with hv | hv
      · exact .inl ⟨es', h, hv⟩
      · exact .inr hv
  · intro f h
    cases h
    refine ⟨fun i hi' => ?_, fun _ p hp => mem_append_right _ hp⟩
    simpa using hleft i (mem_cons_of_mem _ hi')
  · intro d hd
    obtain ⟨h1, h2, h3⟩ := hi.draft d hd
    refine ⟨h1, ?_, fun hb p hp => mem_append_left _ (h3 hb p hp)⟩
    intro i hi'
    simpa using h2 i hi'

theorem getElem_col {s : State} (h : ci < s.cols.length) : s.col ci = s.cols[ci] := by
  simp [State.col, h]

variable {d : Draft}

theorem sound_swapIn {cis : List ℕ} (hi : Inv s) (hd : s.draft = some d)
    (hsub : ∀ ci ∈ cis, ci ∈ d.left) (hu : s.Unmoved d cis) :
    Sound (s.swapIn d cis).cols s.map (s.swapIn d cis).issued := by
  obtain ⟨hn, hlt, hbegun⟩ := hi.draft d hd
  obtain ⟨hfresh, hold, hr⟩ := hu
  cases cis with
  | nil =>
    have hc : (s.swapIn d []).cols = s.cols := by
      simp only [State.swapIn, not_mem_nil, if_false]
      exact ext_getElem (by simp) (by simp)
    rw [hc]
    exact hi.sound
  | cons c cis =>
    have hc : c < s.cols.length := hlt c (hsub c mem_cons_self)
    have hget : ∀ i (h : i < s.cols.length), (if i ∈ c :: cis then ordinals d.base d.n else s.cols[i])
        ∈ (s.swapIn d (c :: cis)).cols := by
      intro i h
      refine mem_iff_getElem.mpr ⟨i, by simpa [State.swapIn] using h, ?_⟩
      simp [State.swapIn]
    have hin : ordinals d.base d.n ∈ (s.swapIn d (c :: cis)).cols := by
      simpa using hget c hc
    have hfirst : d.base ∈ ordinals d.base d.n :=
      mem_map.mpr ⟨0, mem_range.mpr hn, by simp⟩
    have hiss : (s.swapIn d (c :: cis)).issued = s.issued++owned d.base d.n (Owner.merge d.id) := by
      simp [State.swapIn]
    rw [hiss]
    refine sound_blocks hi.sound hr (fun j k h => by cases h) ?_ ?_ ?_ ?_
    · cases hb : d.begun with
      | true => exact .inl (hbegun hb)
      | false => exact .inr (UInt32.le_iff_toNat_le.mp (hfresh hb))
    · intro p hp
      rcases hi.sound.covered p hp with h | ⟨es, hes, w, hw, hle⟩
      · exact .inl h
      obtain ⟨i, hi', rfl⟩ := mem_iff_getElem.mp hes
      by_cases hmem : i ∈ c :: cis
      · refine .inr ⟨_, hin, _, hfirst, ?_⟩
        have hb := hold i hmem w (by rwa [getElem_col hi'])
        exact hle.trans (le_of_lt (UInt32.lt_iff_toNat_lt.mp hb))
      have hg := hget i hi'
      rw [if_neg hmem] at hg
      exact .inr ⟨_, hg, w, hw, hle⟩
    · exact fun v hv => ⟨_, hin, hv⟩
    · intro es hes v hv
      obtain ⟨i, hi', rfl⟩ := mem_iff_getElem.mp hes
      have hi'' : i < s.cols.length := by simpa [State.swapIn] using hi'
      simp only [State.swapIn, getElem_mapIdx] at hv
      split at hv
      · exact .inr hv
      · exact .inl ⟨_, getElem_mem hi'', hv⟩

theorem mem_swapIn_issued {p : UInt32 × Owner} (d : Draft) (cis : List ℕ)
    (h : p ∈ s.issued) : p ∈ (s.swapIn d cis).issued := by
  unfold State.swapIn
  split
  · exact h
  · exact mem_append_left _ h

theorem flush_swapIn (d : Draft) (cis : List ℕ) (hi : Inv s) :
    ∀ f, s.flush = some f → (∀ ci ∈ f.left, ci < (s.swapIn d cis).cols.length) ∧
      (f.begun = true → ∀ p ∈ owned f.base f.n (Owner.flush f.id), p ∈ (s.swapIn d cis).issued) := by
  intro f hf
  obtain ⟨h1, h2⟩ := hi.flush f hf
  refine ⟨fun i hi' => ?_, fun hb p hp => mem_swapIn_issued d cis (h2 hb p hp)⟩
  simpa [State.swapIn] using h1 i hi'

theorem inv_rename (hi : Inv s)
    (hd : s.draft = some d) (hl : d.left = ci :: left) (ha : Allowed s .rename) :
    Inv { s.swapIn d [ci] with draft := some { d with left := left, begun := true } } := by
  have hu := ha d hd
  rw [hl, take_succ_cons, take_zero] at hu
  refine ⟨sound_swapIn hi hd (by simp [hl]) hu, ?_, ?_⟩
  · exact flush_swapIn d [ci] hi
  intro d' hd'
  obtain rfl := some.inj hd'
  obtain ⟨h1, h2, -⟩ := hi.draft d hd
  refine ⟨h1, ?_, ?_⟩
  · intro i hi'
    simpa [State.swapIn] using h2 i (by rw [hl]; exact mem_cons_of_mem _ hi')
  · intro _ p hp
    simpa [State.swapIn] using .inr hp

theorem inv_opened (hi : Inv s) (hd : s.draft = some d)
    (hm : d.marked = true) (ha : Allowed s .opened) : Inv { s.swapIn d d.left with draft := none } := by
  refine ⟨sound_swapIn hi hd (fun _ h => h) (ha d hd hm), ?_, fun _ h => by cases h⟩
  exact flush_swapIn d _ hi

theorem sound_land (ci : ℕ) (hs : Sound s.cols s.map s.issued)
    (hv : Room v 1) : Sound (s.land ci v).cols s.map s.issued := by
  refine ⟨?_, ?_, hs.unique, hs.groups, hs.keys⟩
  · refine fun p hp => covered_modify ci (fun es w hw => ?_) (hs.covered p hp)
    split
    · exact hw
    · exact mem_append_left _ hw
  intro es hes w hw
  rcases mem_modify hes with h | ⟨es', h, rfl⟩
  · exact hs.small es h w hw
  split at hw
  · exact hs.small es' h w hw
  rcases mem_append.mp hw with hw | hw
  · exact hs.small es' h w hw
  · rw [mem_singleton.mp hw]
    exact hv

theorem sound_translate {w : Written} (hs : Sound s.cols s.map s.issued)
    (hk : ∀ m ∈ s.map, ∀ e ∈ m.entries, e.key.issuer = k.issuer → e.key.remote = k.remote → e.key = k)
    (hroom : Room s.next 1) (h : ordTranslate s.next s.map k w = (m, r)) :
    Sound s.cols m (s.issued++(r.toList.map fun v => (v, Owner.group k))) ∧ ∀ v ∈ r, Room v 1 := by
  have hle : (ordmapNext s.map).toNat ≤ s.next.toNat := ordmapNext_le _ _
  have hup : (s.next+1).toNat = s.next.toNat+1 := toNat_succ hroom
  have hcov : ∀ {m'}, ordmapNext m' = ordmapNext s.map ∨ ordmapNext m' = s.next+1 →
      ∀ p ∈ s.issued, Covered s.cols m' p.1 := by
    intro m' hm' p hp
    rcases hs.covered p hp with hc | hc
    · left
      rcases hm' with hm' | hm' <;> rw [hm']
      · exact hc
      · omega
    · exact .inr hc
  have hlt : ∀ p ∈ s.issued, p.1.toNat < s.next.toNat := fun p hp => covered_lt hs.small (hs.covered p hp)
  rcases ordTranslate_cases hle h with ⟨v, rfl, rfl, he⟩ | ⟨rfl, he, hm⟩ | ⟨hnew, rfl, hm, he⟩
  · -- The group is in the file: its number has been given out to it before.
    have hmem : (v, Owner.group k) ∈ s.issued := (hs.groups v k).mpr he
    have hsub : ∀ p, p ∈ s.issued++[(v, Owner.group k)] ↔ p ∈ s.issued := by
      intro p
      rw [mem_append, mem_singleton]
      exact ⟨fun hp => hp.elim id fun hp => hp ▸ hmem, .inl⟩
    refine ⟨⟨?_, hs.small, ?_, ?_, hs.keys⟩, ?_⟩
    · exact fun p hp => hs.covered p ((hsub p).mp hp)
    · exact fun p hp q hq => hs.unique p ((hsub p).mp hp) q ((hsub q).mp hq)
    · exact fun v' k' => (hsub _).trans (hs.groups v' k')
    intro v' hv'
    obtain rfl := mem_some_iff.mp hv'
    have hv : v.toNat < s.next.toNat := hlt _ hmem
    unfold Room at hroom ⊢
    omega
  · simp only [toList_none, map_nil, append_nil]
    refine ⟨⟨hcov hm, hs.small, hs.unique, ?_, ?_⟩, fun v hv => by cases hv⟩
    · rw [he]
      exact hs.groups
    · rw [he]
      exact hs.keys
  refine ⟨⟨?_, hs.small, ?_, ?_, ?_⟩, ?_⟩
  · intro p hp
    rcases mem_append.mp hp with hp | hp
    · exact hcov (.inr hm) p hp
    rw [mem_singleton.mp hp]
    left
    rw [hm, hup]
    exact Nat.lt_succ_self _
  · intro p hp q hq hpq
    rcases mem_append.mp hp with hp | hp <;> rcases mem_append.mp hq with hq | hq
    · exact hs.unique p hp q hq hpq
    · rw [mem_singleton.mp hq] at hpq ⊢
      exact absurd (congrArg UInt32.toNat hpq) (ne_of_lt (hlt p hp))
    · rw [mem_singleton.mp hp] at hpq ⊢
      exact absurd (congrArg UInt32.toNat hpq.symm) (ne_of_lt (hlt q hq))
    · rw [mem_singleton.mp hp, mem_singleton.mp hq]
  · intro v k'
    rw [he, mem_append, mem_append, hs.groups v k']
    simp only [toList_some, map_cons, map_nil, mem_singleton, Prod.mk.injEq,
      Owner.group.injEq, OrdEntry.mk.injEq]
    rw [and_comm (a := v = s.next)]
  · rw [he, map_append, nodup_append]
    refine ⟨hs.keys, nodup_singleton _, ?_⟩
    intro a ha b hb hab
    obtain ⟨e, hmem, rfl⟩ := mem_map.mp ha
    rw [map_singleton, mem_singleton] at hb
    rw [hb, Prod.mk.injEq] at hab
    cases hmap : s.map with
    | none =>
      rw [hmap] at hmem
      cases hmem
    | some t =>
      rw [hmap] at hmem
      exact hnew e (by rw [hmap]; exact hmem) (hk t hmap e hmem hab.1 hab.2)
  · intro v hv
    obtain rfl := mem_some_iff.mp hv
    exact hroom

theorem inv_push {p : Push} (hi : Inv s) (ha : Allowed s (.push k ci p)) : Inv (s.push k ci p) := by
  have hkeep : ∀ t : State, t.flush = s.flush → t.draft = s.draft → t.cols.length = s.cols.length →
      (∀ q ∈ s.issued, q ∈ t.issued) → Sound t.cols t.map t.issued → Inv t := by
    intro t hf hd hl hsub hs
    refine ⟨hs, ?_, ?_⟩
    · intro f h
      obtain ⟨h1, h2⟩ := hi.flush f (hf ▸ h)
      exact ⟨hl ▸ h1, fun hb q hq => hsub q (h2 hb q hq)⟩
    intro d h
    obtain ⟨h1, h2, h3⟩ := hi.draft d (hd ▸ h)
    exact ⟨h1, hl ▸ h2, fun hb q hq => hsub q (h3 hb q hq)⟩
  unfold State.push
  cases ht : ordTranslate s.next s.map k p.written with
  | mk m r =>
    obtain ⟨hs, hsmall⟩ := sound_translate hi.sound ha.1 ha.2 ht
    cases r with
    | none =>
      rw [toList_none, map_nil, append_nil] at hs
      exact hkeep { s with map := m } rfl rfl rfl (fun q hq => hq) hs
    | some v =>
      have hsub : ∀ q ∈ s.issued, q ∈ s.issued++[(v, Owner.group k)] :=
        fun q hq => mem_append_left _ hq
      cases p with
      | stops w' | refused => exact hkeep _ rfl rfl rfl hsub hs
      | lands =>
        refine hkeep _ rfl rfl (by simp [State.land]) hsub ?_
        exact sound_land (s := { s with map := m, issued := s.issued++[(v, Owner.group k)] }) ci hs
          (hsmall v rfl)

theorem inv_step {ts : ℕ} {s' : State} {e : Event} (hts : ts < s.cols.length) (hi : Inv s)
    (ha : Allowed s e) (h : step ts s e = some s') : Inv s' := by
  cases e with
  | flushStart n =>
    obtain ⟨-, rfl⟩ := ite_some_none_eq_some.mp h
    refine ⟨hi.sound, fun f hf => ?_, hi.draft⟩
    cases hf
    refine ⟨fun ci hci => ?_, fun hb => by cases hb⟩
    rcases mem_append.mp hci with hci | hci
    · exact mem_range.mp (mem_filter.mp hci).1
    · rw [mem_singleton.mp hci]
      exact hts
  | publish =>
    simp only [step] at h
    split at h
    · rename_i hf
      cases h
      exact inv_publish hi hf ha
    · cases h
  | flushEnd =>
    cases h
    exact ⟨hi.sound, fun f hf => (by cases hf), hi.draft⟩
  | draft n =>
    obtain ⟨⟨hn, -⟩, rfl⟩ := ite_some_none_eq_some.mp h
    refine ⟨hi.sound, hi.flush, fun d hd => ?_⟩
    cases hd
    refine ⟨hn, fun ci hci => ?_, fun hb => by cases hb⟩
    exact mem_range.mp (mem_filter.mp hci).1
  | mark =>
    simp only [step] at h
    split at h
    · rename_i d hd
      split at h <;> cases h
      · refine ⟨hi.sound, hi.flush, fun d' hd' => ?_⟩
        obtain rfl := some.inj hd'
        exact hi.draft d hd
      · exact ⟨hi.sound, hi.flush, fun d' hd' => by cases hd'⟩
    · cases h
  | rename =>
    simp only [step] at h
    split at h
    · rename_i d hd
      split at h
      · rename_i ci left _ hl
        cases h
        exact inv_rename hi hd hl ha
      · cases h
    · cases h
  | unmark =>
    simp only [step] at h
    split at h
    · obtain ⟨-, rfl⟩ := ite_some_none_eq_some.mp h
      exact ⟨hi.sound, hi.flush, fun d' hd' => by cases hd'⟩
    · cases h
  | push k ci p =>
    cases h
    exact inv_push hi ha
  | crash =>
    cases h
    refine ⟨hi.sound, fun f hf => (by cases hf), fun d hd => ?_⟩
    exact hi.draft d (filter_eq_some_iff.mp hd).1
  | opened =>
    simp only [step] at h
    split at h
    · rename_i d hd
      split at h <;> cases h
      · exact inv_opened hi hd ‹_› ha
      · exact hi
    · cases h
      exact hi

theorem step_length {ts : ℕ} {s' : State} {e : Event} (h : step ts s e = some s') :
    s'.cols.length = s.cols.length := by
  cases e with
  | push k ci p =>
    cases h
    unfold State.push
    split
    · rfl
    · cases p <;> simp [State.land]
  | _ =>
    simp only [step] at h
    repeat' split at h
    all_goals first
      | (obtain rfl := some.inj h; simp [State.swapIn])
      | cases h

theorem inv_start (ncols : ℕ) : Inv (start ncols) := by
  refine ⟨⟨?_, ?_, ?_, ?_, nodup_nil⟩, fun f hf => (by cases hf), fun d hd => by cases hd⟩
  · intro p hp
    cases hp
  · intro es hes v hv
    rw [eq_of_mem_replicate hes] at hv
    cases hv
  · intro p hp
    cases hp
  · intro v k
    exact ⟨fun hp => (by cases hp), fun hp => (by cases hp)⟩

theorem inv_run {ncols ts : ℕ} (hts : ts < ncols) {es : List Event} {s : State}
    (ha : Along (step ts) Allowed (start ncols) es) (hr : run (step ts) (start ncols) es = some s) :
    Inv s := by
  have h := run_invariant (fun s => s.cols.length = ncols ∧ Inv s)
    (fun s e s' hi hok hstep => ⟨(step_length hstep).trans hi.1,
      inv_step (by rw [hi.1]; exact hts) hi.2 hok hstep⟩)
    es _ s ⟨length_replicate, inv_start _⟩ ha hr
  exact h.2

/-- Along runs that respect the conditions a group keeps its number, and shares it with no other
group and no other block. -/
theorem ordinals_never_collide {ncols ts : ℕ} (hts : ts < ncols) (es : List Event) (s : State)
    (ha : Along (step ts) Allowed (start ncols) es) (hr : run (step ts) (start ncols) es = some s) :
    (∀ v v' k k', (v, Owner.group k) ∈ s.issued → (v', Owner.group k') ∈ s.issued →
      (v = v' ↔ k.issuer = k'.issuer ∧ k.remote = k'.remote)) ∧ (∀ v k id j, (v, Owner.group k) ∈ s.issued →
      (v, Owner.flush id j) ∉ s.issued ∧ (v, Owner.merge id j) ∉ s.issued) := by
  have hs := (inv_run hts ha hr).sound
  constructor
  · intro v v' k k' hv hv'
    constructor
    · rintro rfl
      obtain rfl := Owner.group.inj (hs.unique _ hv _ hv' rfl)
      exact ⟨rfl, rfl⟩
    intro hk
    have h1 := (hs.groups v k).mp hv
    have h2 := (hs.groups v' k').mp hv'
    have h := inj_on_of_nodup_map hs.keys h1 h2 (Prod.ext hk.1 hk.2)
    exact congrArg OrdEntry.ord h
  · intro v k id j hv
    constructor
    · intro hf
      cases hs.unique _ hv _ hf rfl
    · intro hm
      cases hs.unique _ hv _ hm rfl

def key (issuer : UInt64) (remote : UInt32) : OrdKey := ⟨issuer, remote, 3, 10, 20⟩

def twoFlushes : List Event :=
  [.flushStart 1, .publish, .publish, .flushEnd, .flushStart 1, .publish, .publish, .flushEnd]

def recovered : List Event :=
  twoFlushes++[.draft 1, .mark, .rename, .crash, .opened, .push (key 7 0) 1 .lands, .push (key 8 0) 1 .lands,
    .push (key 7 0) 0 .lands]

theorem ordinals_never_collide_recovered :
    ∃ s, run (step 0) (start 2) recovered = some s ∧ (3, Owner.group (key 7 0)) ∈ s.issued ∧
      (4, Owner.group (key 8 0)) ∈ s.issued ∧
      ((∀ v v' k k', (v, Owner.group k) ∈ s.issued → (v', Owner.group k') ∈ s.issued →
        (v = v' ↔ k.issuer = k'.issuer ∧ k.remote = k'.remote)) ∧ (∀ v k id j, (v, Owner.group k) ∈ s.issued →
        (v, Owner.flush id j) ∉ s.issued ∧ (v, Owner.merge id j) ∉ s.issued)) := by
  refine ⟨_, rfl, by decide, by decide, ?_⟩
  exact ordinals_never_collide (by decide : 0 < 2) recovered _ (by decide) rfl

/-- A compaction dies with a durable marker. The next received block gets the number of the first
merged block. -/
theorem pending_swap_shares_ordinal :
    ∃ s, run (step 0) (start 2) (twoFlushes++[.draft 1, .mark, .crash, .push (key 7 0) 1 .lands, .opened]) =
    some s ∧
      s.cols = [[2], [2]] ∧ (2, Owner.group (key 7 0)) ∈ s.issued ∧ (2, Owner.merge 2 0) ∈ s.issued := by
  exact ⟨_, rfl, by decide, by decide, by decide⟩

/-- Two columns of timestamps in one group of one issuer have two ranges, and so two numbers. -/
example : (run (step 0) (start 2) [.push ⟨7, 0, 1, 10, 10⟩ 1 .lands, .push ⟨7, 0, 1, 20, 20⟩ 0 .lands]).map
    State.cols = some [[1], [0]] := by
  decide

end QEngine.BlockOrdinals

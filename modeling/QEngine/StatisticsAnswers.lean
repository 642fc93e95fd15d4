import QEngine.SelectQueries
import QEngine.PartitionFlush

/-!
# Answers from statistics

Counts, sums and bounds of integers are the same from the statistics and from the
rows. The statistics keep the values of a block's first and last row; the rows give `first` and
`last` by their times, and of rows with one time the first in the block.
-/

namespace QEngine.StatisticsAnswers
open List QueryTables WhereFilters SourceScans ScanPaths WordSums Aggregates RowProjections
open BlockStatistics SelectQueries

/-! ### Blocks of a flush -/

section Flushes

variable {n : ℕ} (s : Schema n)

def times (mem : List (Row n)) : List ℤ := mem.map fun r => (s.time r).toInt

def rowAt (mem : List (Row n)) (i : ℕ) : Row n := mem.getD i fun _ => 0

def orderOf (tag : Option (Fin n)) (mem : List (Row n)) : List ℕ :=
  FlushOrder.flushOrder true true (FlushOrder.rowIndex (times s mem))
    (tag.map fun c i => ((rowAt mem i).code c).toNat)

def flushBlocks (points : ℕ) (tag : Option (Fin n)) (part : ℤ → ℤ) (mem : List (Row n)) (d : ℤ) :
    List (List (Row n)) :=
  (PartitionFlush.cut points mem.length
    ((orderOf s tag mem).filter fun i => part (FlushOrder.timeOf (times s mem) i) = d)).map
      (List.map (rowAt mem))

/-- A block as a flush leaves it. -/
structure FlushedBlock (tag : Option (Fin n)) (src : Source s) : Prop where
  ready : ∀ c, src.state c = .ready
  flushed : ∃ points part mem d, 0 < points ∧ src.rows ∈ flushBlocks s points tag part mem d
  tsMin : src.tsMin = (src.rows.map s.time).foldl tsLow Int64.maxValue
  tsMax : src.tsMax = (src.rows.map s.time).foldl tsHigh Int64.minValue

def FlushedTable (tag : Option (Fin n)) (t : Table s) : Prop :=
  ∀ part ∈ t.partitions, ∀ b ∈ part.blocks, FlushedBlock s tag b

/-- The first of the rows with the least time. -/
def earliest (r : Row n) : List (Row n) → Row n
  | [] => r
  | u::us => if s.time (earliest u us) < s.time r then earliest u us else r

/-- The first of the rows with the greatest time. -/
def latest (r : Row n) : List (Row n) → Row n
  | [] => r
  | u::us => if s.time r < s.time (latest u us) then latest u us else r

/-- The rows of a block give the value that its statistics keep for `first` or `last`. -/
def Agrees (src : Source s) : Agg n → Prop
  | ⟨.first, some c⟩ => ∀ r rs, src.rows = r::rs → earliest s r rs c = r c
  | ⟨.last, some c⟩ => ∀ r rs, src.rows = r::rs → latest s r rs c = rs.getLastD r c
  | _ => True

variable {s}

variable {mem : List (Row n)}

theorem flushBlocks_ne {tag : Option (Fin n)} {points : ℕ} (hp : 0 < points) {part : ℤ → ℤ} {d : ℤ}
    {rows : List (Row n)} (h : rows ∈ flushBlocks s points tag part mem d) : rows ≠ [] := by
  obtain ⟨c, hc, rfl⟩ := mem_map.mp h
  exact fun h0 => (PartitionFlush.cut_mem points _ hp _ c hc).1 (map_eq_nil_iff.mp h0)

end Flushes

/-! ### Folds of a block -/

section Folds

variable (v : Int64)

theorem tsLow_first : tsLow Int64.maxValue v = v := by
  rw [tsLow]
  split
  · rfl
  rename_i h
  rw [Int64.lt_iff_toInt_lt] at h
  have hv : v.toInt ≤ Int64.maxValue.toInt := Int64.toInt_le v
  exact Int64.toInt_inj.mp (by omega)

theorem tsHigh_first : tsHigh Int64.minValue v = v := by
  rw [tsHigh]
  split
  · rfl
  rename_i h
  rw [Int64.lt_iff_toInt_lt] at h
  have hv : Int64.minValue.toInt ≤ v.toInt := Int64.le_toInt v
  exact Int64.toInt_inj.mp (by omega)

variable (vs : List Int64)

theorem minI64_cons : minI64 (v::vs) = vs.foldl tsLow v := by
  rw [minI64, foldl_cons, tsLow_first]

theorem maxI64_cons : maxI64 (v::vs) = vs.foldl tsHigh v := by
  rw [maxI64, foldl_cons, tsHigh_first]

theorem sumStep_run (acc : ℤ) (a : Int64) (ha : Int64.ofInt acc = a) (z : ℤ)
    (h : vs.foldl sumStep (acc, true) = (z, true)) : Int64.ofInt z = vs.foldl (· + ·) a := by
  induction vs generalizing acc a with
  | nil =>
    cases h
    exact ha
  | cons v vs ih =>
    have hstuck : ∀ (us : List Int64) (y : ℤ), us.foldl sumStep (y, false) = (y, false) := by
      intro us y
      induction us with
      | nil => rfl
      | cons u us ih => exact ih
    rw [foldl_cons] at h ⊢
    have hs : sumStep (acc, true) v = (acc+v.toInt, decide (Fits (acc+v.toInt))) := rfl
    rw [hs] at h
    by_cases hf : Fits (acc+v.toInt)
    · rw [decide_eq_true hf] at h
      refine ih _ _ ?_ h
      rw [Int64.ofInt_add, ha, Int64.ofInt_toInt]
    · rw [decide_eq_false hf, hstuck] at h
      exact absurd (Prod.mk.inj h).2 (by decide)

theorem sumI64_cons {v : Int64} {vs : List Int64} (h : (vs.foldl sumStep (v.toInt, true)).2 = true) :
    Int64.ofInt (vs.foldl sumStep (v.toInt, true)).1 = sumI64 (v::vs) := by
  have h' : vs.foldl sumStep (v.toInt, true) = ((vs.foldl sumStep (v.toInt, true)).1, true) := Prod.ext rfl h
  rw [sumI64, foldl_cons, Int64.zero_add]
  exact sumStep_run vs _ v (Int64.ofInt_toInt v) _ h'

variable {k : Kernels}

def firstOf (st : AggState k) : Int64 × Int64 := (st.tsFirst, st.firstI)

def lastOf (st : AggState k) : Int64 × Int64 := (st.tsLast, st.lastI)

def firstStep (a : Int64 × Int64) (c : UInt64 × Int64) : Int64 × Int64 := if c.2 < a.1 then
    (c.2, c.1.toInt64) else a

def lastStep (a : Int64 × Int64) (c : UInt64 × Int64) : Int64 × Int64 := if a.1 < c.2 then
    (c.2, c.1.toInt64) else a

def isInt (t : ColType) : Prop := t = .int64 ∨ t = .timestamp

theorem timedStep_first {t : ColType} (ht : isInt t) {kind : AggKind} (hk : kind = .first ∨ kind = .last)
    (st : AggState k) (c : UInt64 × Int64) : firstOf (timedStep kind t st c) = firstStep (firstOf st) c ∧
      lastOf (timedStep kind t st c) = lastStep (lastOf st) c ∧ (timedStep kind t st c).ovf = st.ovf := by
  have hstep : timedStep kind t st c = keepLast t c.1 c.2 (keepFirst t c.1 c.2 st) := by
    rcases hk with rfl | rfl <;> rfl
  rw [hstep]
  by_cases h1 : c.2 < st.tsFirst <;> by_cases h2 : st.tsLast < c.2 <;> rcases ht with rfl | rfl <;>
    simp only [keepLast, keepFirst, firstOf, lastOf, firstStep, lastStep, h1, h2, if_true, if_false, and_self]

theorem timed_run {t : ColType} (ht : isInt t) {kind : AggKind} (hk : kind = .first ∨ kind = .last)
    (cells : List (UInt64 × Int64)) (st : AggState k) :
    firstOf (cells.foldl (timedStep kind t) st) = cells.foldl firstStep (firstOf st) ∧
      lastOf (cells.foldl (timedStep kind t) st) = cells.foldl lastStep (lastOf st) ∧
      (cells.foldl (timedStep kind t) st).ovf = st.ovf := by
  induction cells generalizing st with
  | nil => exact ⟨rfl, rfl, rfl⟩
  | cons c cells ih =>
    obtain ⟨h1, h2, h3⟩ := ih (timedStep kind t st c)
    obtain ⟨g1, g2, g3⟩ := timedStep_first ht hk st c
    rw [foldl_cons, h1, h2, h3, g1, g2, g3]
    exact ⟨rfl, rfl, rfl⟩

section Extremes
variable {n : ℕ} {s : Schema n} (c : Fin n)

theorem first_run (r : Row n) (rs : List (Row n)) (a : Int64 × Int64) :
    ((r::rs).map fun r => (r c, s.time r)).foldl firstStep a =
      firstStep a (earliest s r rs c, s.time (earliest s r rs)) := by
  induction rs generalizing r a with
  | nil => rfl
  | cons u us ih =>
    rw [map_cons, foldl_cons, ih u, earliest]
    generalize earliest s u us = x
    simp only [firstStep, Int64.lt_iff_toInt_lt]
    grind

theorem last_run (r : Row n) (rs : List (Row n)) (a : Int64 × Int64) :
    ((r::rs).map fun r => (r c, s.time r)).foldl lastStep a =
      lastStep a (latest s r rs c, s.time (latest s r rs)) := by
  induction rs generalizing r a with
  | nil => rfl
  | cons u us ih =>
    rw [map_cons, foldl_cons, ih u, latest]
    generalize latest s u us = x
    simp only [lastStep, Int64.lt_iff_toInt_lt]
    grind

theorem low_earliest (r : Row n) (rs : List (Row n)) :
    ((r::rs).map s.time).foldl tsLow Int64.maxValue = s.time (earliest s r rs) := by
  have hrun : ∀ (rs : List (Row n)) (r : Row n) (t : Int64),
      ((r::rs).map s.time).foldl tsLow t = tsLow t (s.time (earliest s r rs)) := by
    intro rs
    induction rs with
    | nil => exact fun _ _ => rfl
    | cons u us ih =>
      intro r t
      rw [map_cons, foldl_cons, ih u, earliest]
      generalize earliest s u us = x
      simp only [tsLow, Int64.lt_iff_toInt_lt]
      grind
  rw [hrun, tsLow_first]

theorem high_latest (r : Row n) (rs : List (Row n)) :
    ((r::rs).map s.time).foldl tsHigh Int64.minValue = s.time (latest s r rs) := by
  have hrun : ∀ (rs : List (Row n)) (r : Row n) (t : Int64),
      ((r::rs).map s.time).foldl tsHigh t = tsHigh t (s.time (latest s r rs)) := by
    intro rs
    induction rs with
    | nil => exact fun _ _ => rfl
    | cons u us ih =>
      intro r t
      rw [map_cons, foldl_cons, ih u, latest]
      generalize latest s u us = x
      simp only [tsHigh, Int64.lt_iff_toInt_lt]
      grind
  rw [hrun, tsHigh_first]

end Extremes

end Folds

/-! ### Statistics and rows -/

section Blocks

variable {n : ℕ} {s : Schema n} {k : Kernels} {tag : Option (Fin n)} {src : Source s}

def OverInts (s : Schema n) (a : Agg n) : Prop := a.kind = .count ∨ ∀ c, a.col = some c →
    isInt (s.cols c).type

def Alike (p : Proj n) (x y : AggState k) : Prop :=
  match p with
  | .agg ⟨.first, _⟩ => firstOf x = firstOf y ∧ x.ovf = y.ovf
  | .agg ⟨.last, _⟩ => lastOf x = lastOf y ∧ x.ovf = y.ovf
  | _ => x = y

theorem alike_refl (p : Proj n) (x : AggState k) : Alike p x x := by
  unfold Alike
  split
  · exact ⟨rfl, rfl⟩
  · exact ⟨rfl, rfl⟩
  · rfl

variable {t : ColType} {x y : AggState k}

theorem isInt_type (h : isInt t) : qcoltype t = t := by
  rcases h with rfl | rfl <;> rfl

theorem notFloat (h : isInt t) : t ≠ .float64 := by
  rcases h with rfl | rfl <;> decide

theorem block_nonempty (h : FlushedBlock s tag src) : src.rows ≠ [] := by
  obtain ⟨points, part, mem, d, hp, hr⟩ := h.flushed
  exact flushBlocks_ne hp hr

variable {kind : AggKind} {col : Option (Fin n)}

theorem served_some {bits : StatBits} (h : aggServed s src ⟨kind, col⟩ = true)
    (hk : aggStatsRequires kind = some bits) (hb : bits ≠ .nothing) :
    ∃ c, col = some c ∧ src.stats c = true ∧ (blockStats s src c).has bits = true := by
  unfold aggServed at h
  rw [hk] at h
  have h := ((Bool.and_eq_true ..).mp h).2
  rw [decide_eq_false hb, Bool.false_or] at h
  obtain ⟨c, hc, hhas⟩ := any_mem h
  refine ⟨c, hc, ?_, hhas⟩
  by_contra hs
  rw [blockStats, if_neg hs] at hhas
  cases bits with
  | nothing => exact hb rfl
  | _ => exact absurd hhas (by decide)

variable {c : Fin n}

theorem stats_ints (hc : isInt (s.cols c).type) (hs : src.stats c = true) {r : Row n} {rs : List (Row n)}
    (hr : src.rows = r::rs) :
    blockStats s src c = intStats (s.cols c).type (r c).toInt64 (rs.map fun r => (r c).toInt64) := by
  have hmap : (rs.map fun r => r c).map UInt64.toInt64 = rs.map fun r => (r c).toInt64 := map_map
  rw [blockStats, if_pos hs, hr, map_cons, ← hmap]
  rcases hc with hc | hc <;> rw [hc] <;> rfl

def bulk (kind : AggKind) : Prop := aggStatsRequires kind = some .minMax ∨ aggStatsRequires kind = some .sum

theorem aggUpdate_ints (hk : bulk kind) (hc : isInt (s.cols c).type) (r : Row n)
    (rs : List (Row n)) (st : AggState k) :
    aggUpdate s ⟨kind, some c⟩ (r::rs) st = updateInts kind ((r c).toInt64::rs.map fun r => (r c).toInt64)
    st := by
  have hmap : ((r::rs).map fun r => (r c, s.time r)).map (fun x => x.1.toInt64) =
    (r c).toInt64::rs.map fun r => (r c).toInt64 := map_map
  have htype : Agg.type s ⟨kind, some c⟩ = (s.cols c).type := isInt_type hc
  show aggUpdateVals kind (Agg.type s ⟨kind, some c⟩) ((r::rs).map fun r => (r c, s.time r)) st = _
  rw [htype, ← hmap]
  rcases hc with hc | hc <;> rw [hc] <;> cases kind <;> first
    | rfl
    | simp [bulk, aggStatsRequires] at hk

theorem aggApply_ints (hk : bulk kind) (ht : isInt t) {v : Int64} {vs : List Int64}
    (h : ∀ bits, aggStatsRequires kind = some bits → (intStats t v vs).has bits = true) {tsMin tsMax : Int64}
    (st : AggState k) :
    aggApplyStats kind t (intStats t v vs) tsMin tsMax (vs.length+1) st = updateInts kind (v::vs) st := by
  have hf := notFloat ht
  have hsum : aggStatsRequires kind = some .sum → (intStats t v vs).sum.toInt64 = sumI64 (v::vs) := by
    intro hb
    have hall := ((Bool.and_eq_true ..).mp (h .sum hb)).1
    rw [← sumI64_cons hall]
    show (if (vs.foldl sumStep (v.toInt, true)).2 = true then _ else (0 : UInt64)).toInt64 = _
    rw [if_pos hall]
    rfl
  cases kind with
  | sum =>
    rw [aggApplyStats, aggApplyStats.applySum, if_neg hf, hsum rfl]
    rfl
  | avg =>
    rw [aggApplyStats, aggApplyStats.applySum, if_neg hf, hsum rfl]
    rfl
  | min =>
    rw [aggApplyStats, if_neg hf, updateInts, minI64_cons]
    rfl
  | max =>
    rw [aggApplyStats, if_neg hf, updateInts, maxI64_cons]
    rfl
  | spread =>
    rw [aggApplyStats, if_neg hf, updateInts, minI64_cons, maxI64_cons]
    rfl
  | _ => simp [bulk, aggStatsRequires] at hk

theorem aggUpdate_timed (hk : kind = .first ∨ kind = .last) (hc : isInt (s.cols c).type)
    (rows : List (Row n)) (st : AggState k) :
    aggUpdate s ⟨kind, some c⟩ rows st = (rows.map fun r => (r c, s.time r)).foldl
    (timedStep kind (s.cols c).type) st := by
  have htype : Agg.type s ⟨kind, some c⟩ = (s.cols c).type := isInt_type hc
  show aggUpdateVals kind (Agg.type s ⟨kind, some c⟩) (rows.map fun r => (r c, s.time r)) st = _
  rw [htype]
  cases rows with
  | nil | cons r rs => rcases hk with rfl | rfl <;> rfl

theorem getLastD_map {α β : Type} (f : α → β) (l : List α) (a : α) :
    (l.map f).getLastD (f a) = f (l.getLastD a) := by
  rw [getLastD_eq_getLast?, getLastD_eq_getLast?, getLast?_map]
  cases l.getLast? <;> rfl

theorem applyStats_ints (hc : isInt (s.cols c).type) (st : AggState k) :
    applyStats s src (.agg ⟨kind, some c⟩) st =
      aggApplyStats kind (s.cols c).type (blockStats s src c) src.tsMin src.tsMax src.rows.length st :=
  congrArg (fun t => aggApplyStats kind t (blockStats s src c) src.tsMin src.tsMax src.rows.length st)
    (isInt_type hc)

theorem applied_bulk (hk : bulk kind)
    (hc : ∀ c, col = some c → isInt (s.cols c).type) (h : aggServed s src ⟨kind, col⟩ = true)
    (st : AggState k) :
    applyStats s src (.agg ⟨kind, col⟩) st = foldRows s src.rows (.agg ⟨kind, col⟩) st := by
  obtain ⟨bits, hbits, hne⟩ : ∃ bits, aggStatsRequires kind = some bits ∧ bits ≠ .nothing := by
    rcases hk with hk | hk
    · exact ⟨_, hk, by decide⟩
    · exact ⟨_, hk, by decide⟩
  obtain ⟨c, rfl, hs, hhas⟩ := served_some h hbits hne
  have hc := hc c rfl
  cases hr : src.rows with
  | nil =>
    rw [blockStats, if_pos hs, hr] at hhas
    cases bits with
    | nothing => exact absurd rfl hne
    | _ => exact absurd hhas Bool.false_ne_true
  | cons r rs =>
    rw [stats_ints hc hs hr] at hhas
    have hlen : rs.length = (rs.map fun r => (r c).toInt64).length := (length_map _).symm
    show _ = aggUpdate s ⟨kind, some c⟩ (r::rs) st
    rw [applyStats_ints hc, stats_ints hc hs hr, hr, aggUpdate_ints hk hc, length_cons, hlen]
    exact aggApply_ints hk hc (fun b hb => by cases hbits.symm.trans hb; exact hhas) st

theorem applied_count (st : AggState k) :
    applyStats s src (.agg ⟨.count, col⟩) st = foldRows s src.rows (.agg ⟨.count, col⟩) st := by
  cases col <;> simp [applyStats, aggApplyStats, foldRows, aggUpdate, aggUpdateVals]

theorem aggApply_first (ht : isInt t) (b : BlockStats) (tsMin tsMax : Int64) (rows : ℕ) (st : AggState k) :
    firstOf (aggApplyStats .first t b tsMin tsMax rows st) = firstStep (firstOf st) (b.first, tsMin) ∧
      (aggApplyStats .first t b tsMin tsMax rows st).ovf = st.ovf := by
  rw [aggApplyStats, if_neg (notFloat ht), firstStep, firstOf]
  by_cases h : tsMin < st.tsFirst
  · rw [if_pos h]
    exact ⟨(if_pos h).symm, rfl⟩
  · rw [if_neg h]
    exact ⟨(if_neg h).symm, rfl⟩

theorem aggApply_last (ht : isInt t) (b : BlockStats) (tsMin tsMax : Int64) (rows : ℕ) (st : AggState k) :
    lastOf (aggApplyStats .last t b tsMin tsMax rows st) = lastStep (lastOf st) (b.last, tsMax) ∧
      (aggApplyStats .last t b tsMin tsMax rows st).ovf = st.ovf := by
  rw [aggApplyStats, if_neg (notFloat ht), lastStep, lastOf]
  by_cases h : st.tsLast < tsMax
  · rw [if_pos h]
    exact ⟨(if_pos h).symm, rfl⟩
  · rw [if_neg h]
    exact ⟨(if_neg h).symm, rfl⟩

theorem applied_first (hb : FlushedBlock s tag src) (hagree : Agrees s src ⟨.first, col⟩)
    (hc : ∀ c, col = some c → isInt (s.cols c).type) (h : aggServed s src ⟨.first, col⟩ = true)
    (hxy : Alike (.agg ⟨.first, col⟩) x y) :
    Alike (.agg ⟨.first, col⟩) (applyStats s src (.agg ⟨.first, col⟩) x)
    (foldRows s src.rows (.agg ⟨.first, col⟩) y) := by
  obtain ⟨hfirst, hovf⟩ := hxy
  obtain ⟨r, rs, hr⟩ := exists_cons_of_ne_nil (block_nonempty hb)
  obtain ⟨c, rfl, hs, -⟩ := served_some h rfl (by decide)
  have hc := hc c rfl
  have hlo : src.tsMin = s.time (earliest s r rs) := by
    rw [hb.tsMin, hr]
    exact low_earliest r rs
  have hval : (intStats (s.cols c).type (r c).toInt64 (rs.map fun r => (r c).toInt64)).first = earliest s r
    rs c := by
    rw [hagree r rs hr]
    rfl
  have hrun := timed_run hc (.inl rfl) ((r::rs).map fun r => (r c, s.time r)) y
  have happ := aggApply_first hc (blockStats s src c) src.tsMin src.tsMax src.rows.length x
  show firstOf (applyStats s src (.agg ⟨.first, some c⟩) x) =
    firstOf (aggUpdate s ⟨.first, some c⟩ src.rows y) ∧
    (applyStats s src (.agg ⟨.first, some c⟩) x).ovf = (aggUpdate s ⟨.first, some c⟩ src.rows y).ovf
  rw [applyStats_ints hc, aggUpdate_timed (.inl rfl) hc, happ.1, happ.2, hlo, hr, hrun.1, hrun.2.2, hfirst,
    hovf, stats_ints hc hs hr, hval]
  exact ⟨(first_run c r rs (firstOf y)).symm, rfl⟩

theorem applied_last (hb : FlushedBlock s tag src) (hagree : Agrees s src ⟨.last, col⟩)
    (hc : ∀ c, col = some c → isInt (s.cols c).type) (h : aggServed s src ⟨.last, col⟩ = true)
    (hxy : Alike (.agg ⟨.last, col⟩) x y) :
    Alike (.agg ⟨.last, col⟩) (applyStats s src (.agg ⟨.last, col⟩) x)
    (foldRows s src.rows (.agg ⟨.last, col⟩) y) := by
  obtain ⟨hlast, hovf⟩ := hxy
  obtain ⟨r, rs, hr⟩ := exists_cons_of_ne_nil (block_nonempty hb)
  obtain ⟨c, rfl, hs, -⟩ := served_some h rfl (by decide)
  have hc := hc c rfl
  have hhi : src.tsMax = s.time (latest s r rs) := by
    rw [hb.tsMax, hr]
    exact high_latest r rs
  have hval : (intStats (s.cols c).type (r c).toInt64 (rs.map fun r => (r c).toInt64)).last = latest s r rs
    c := by
    rw [hagree r rs hr]
    exact congrArg Int64.toUInt64 (getLastD_map (fun r : Row n => (r c).toInt64) rs r)
  have hrun := timed_run hc (.inr rfl) ((r::rs).map fun r => (r c, s.time r)) y
  have happ := aggApply_last hc (blockStats s src c) src.tsMin src.tsMax src.rows.length x
  show lastOf (applyStats s src (.agg ⟨.last, some c⟩) x) = lastOf (aggUpdate s ⟨.last, some c⟩ src.rows y) ∧
    (applyStats s src (.agg ⟨.last, some c⟩) x).ovf = (aggUpdate s ⟨.last, some c⟩ src.rows y).ovf
  rw [applyStats_ints hc, aggUpdate_timed (.inr rfl) hc, happ.1, happ.2, hhi, hr, hrun.2.1, hrun.2.2, hlast,
    hovf, stats_ints hc hs hr, hval]
  exact ⟨(last_run c r rs (lastOf y)).symm, rfl⟩

theorem applied_alike (hb : FlushedBlock s tag src) {a : Agg n} (ha : OverInts s a) (hagree : Agrees s src a)
    (h : aggServed s src a = true) (hxy : Alike (.agg a) x y) :
    Alike (.agg a) (applyStats s src (.agg a) x) (foldRows s src.rows (.agg a) y) := by
  obtain ⟨kind, col⟩ := a
  have hints : kind ≠ .count → ∀ c, col = some c → isInt (s.cols c).type := fun hk =>
    ha.resolve_left hk
  have hbulk : bulk kind → x = y →
    applyStats s src (.agg ⟨kind, col⟩) x = foldRows s src.rows (.agg ⟨kind, col⟩) y := by
    intro hk hxy
    rw [hxy]
    refine applied_bulk hk (hints ?_) h y
    rintro rfl
    simp [bulk, aggStatsRequires] at hk
  cases kind with
  | count =>
    rw [hxy]
    exact applied_count y
  | first => exact applied_first hb hagree (hints (by simp)) h hxy
  | last => exact applied_last hb hagree (hints (by simp)) h hxy
  | sum | avg => exact hbulk (.inr rfl) hxy
  | min | max | spread => exact hbulk (.inl rfl) hxy
  | _ => exact absurd h Bool.false_ne_true

theorem folded_alike {p : Proj n} (hp : ∀ a, p = .agg a → OverInts s a) (rows : List (Row n))
    (hxy : Alike p x y) : Alike p (foldRows s rows p x) (foldRows s rows p y) := by
  have hsame : x = y → foldRows s rows p x = foldRows s rows p y := congrArg (foldRows s rows p)
  cases p with
  | agg a =>
    obtain ⟨kind, col⟩ := a
    cases kind with
    | first =>
      cases col with
      | none => exact hxy
      | some c =>
        have hc : isInt (s.cols c).type := ((hp _ rfl).resolve_left (by simp)) c rfl
        obtain ⟨h1, -, h3⟩ := timed_run hc (.inl rfl) _ x
        obtain ⟨g1, -, g3⟩ := timed_run hc (.inl rfl) _ y
        show firstOf (aggUpdate s ⟨.first, some c⟩ rows x) = firstOf (aggUpdate s ⟨.first, some c⟩ rows y) ∧
          (aggUpdate s ⟨.first, some c⟩ rows x).ovf = (aggUpdate s ⟨.first, some c⟩ rows y).ovf
        rw [aggUpdate_timed (.inl rfl) hc, aggUpdate_timed (.inl rfl) hc, h1, g1, h3, g3, hxy.1, hxy.2]
        exact ⟨rfl, rfl⟩
    | last =>
      cases col with
      | none => exact hxy
      | some c =>
        have hc : isInt (s.cols c).type := ((hp _ rfl).resolve_left (by simp)) c rfl
        obtain ⟨-, h1, h3⟩ := timed_run hc (.inr rfl) _ x
        obtain ⟨-, g1, g3⟩ := timed_run hc (.inr rfl) _ y
        show lastOf (aggUpdate s ⟨.last, some c⟩ rows x) = lastOf (aggUpdate s ⟨.last, some c⟩ rows y) ∧
          (aggUpdate s ⟨.last, some c⟩ rows x).ovf = (aggUpdate s ⟨.last, some c⟩ rows y).ovf
        rw [aggUpdate_timed (.inr rfl) hc, aggUpdate_timed (.inr rfl) hc, h1, g1, h3, g3, hxy.1, hxy.2]
        exact ⟨rfl, rfl⟩
    | _ => exact hsame hxy
  | _ => exact hsame hxy

theorem written_alike {p : Proj n} (hp : ∀ a, p = .agg a → OverInts s a) (hxy : Alike p x y)
    (u : UInt64) : x.ovf = y.ovf ∧ projGuard true p x = projGuard true p y ∧
    aggCell s u p x = aggCell s u p y := by
  have hsame : x = y → x.ovf = y.ovf ∧ projGuard true p x = projGuard true p y ∧
    aggCell s u p x = aggCell s u p y := by
    rintro rfl
    exact ⟨rfl, rfl, rfl⟩
  cases p with
  | agg a =>
    obtain ⟨kind, col⟩ := a
    have hf : Agg.type s ⟨kind, col⟩ ≠ .float64 ∧ Agg.type s ⟨kind, col⟩ ≠ .symbol ∨ kind = .count := by
      rcases hp _ rfl with hk | hc
      · exact .inr hk
      refine .inl ?_
      cases col with
      | none => exact ⟨by simp [Agg.type], by simp [Agg.type]⟩
      | some c =>
        show qcoltype (s.cols c).type ≠ _ ∧ qcoltype (s.cols c).type ≠ _
        rcases hc c rfl with hc | hc <;> rw [hc] <;> decide
    cases kind with
    | first =>
      obtain ⟨hf, hy⟩ := hf.resolve_right (by simp)
      obtain ⟨hv, ho⟩ := hxy
      refine ⟨ho, rfl, ?_⟩
      show aggWrite .first _ _ x = aggWrite .first _ _ y
      rw [aggWrite, aggWrite, if_neg hf, if_neg hf, if_neg hy, if_neg hy, (Prod.mk.inj hv).1,
        (Prod.mk.inj hv).2]
    | last =>
      obtain ⟨hf, hy⟩ := hf.resolve_right (by simp)
      obtain ⟨hv, ho⟩ := hxy
      refine ⟨ho, rfl, ?_⟩
      show aggWrite .last _ _ x = aggWrite .last _ _ y
      rw [aggWrite, aggWrite, if_neg hf, if_neg hf, if_neg hy, if_neg hy, (Prod.mk.inj hv).1,
        (Prod.mk.inj hv).2]
    | _ => exact hsame hxy
  | _ => exact hsame hxy

end Blocks

/-! ### Answers -/

section Answers

variable {n : ℕ} {s : Schema n} {e : Engine} {q : Query n} {t : Table s} {tag : Option (Fin n)}

/-- In a block that answers every projection from its statistics, these agree with the rows. -/
def AgreesFor (q : Query n) (src : Source s) : Prop :=
  (∀ p ∈ q.projs, served s src p = true) → ∀ a, Proj.agg a ∈ q.projs → Agrees s src a

def withStats (e : Engine) (b : Bool) : Engine := { e with fastpath := b }

def aggScan (s : Schema n) (e : Engine) (q : Query n) (b : Bool) : Scan s (AggStates e.kernels q.projs) :=
  ((scalarPath s (withStats e b) q).executor e.skips none).toScan

variable {x y : AggStates e.kernels q.projs}

variable (hq : ∀ a, Proj.agg a ∈ q.projs → OverInts s a)

include hq

theorem step_alike {src : Source s} (hsrc : src.mem = true ∨ (FlushedBlock s tag src ∧ AgreesFor q src))
    (h : ∀ i, Alike (q.projs.get i) (x i) (y i)) :
    ∃ x' y', scanSource e.junk (aggScan s e q true) x src = .ok x' ∧
      scanSource e.junk (aggScan s e q false) y src = .ok y' ∧ ∀ i, Alike (q.projs.get i) (x' i) (y' i) := by
  have hin : ∀ i a, q.projs.get i = .agg a → Proj.agg a ∈ q.projs := fun i a hi => hi ▸ get_mem q.projs i
  have hloads : ∀ need, loadCols need src = .ok () := by
    refine fun need => loadCols_ok.mpr fun c _ => ?_
    rcases hsrc with hm | hb
    · exact src.memReady hm c
    · exact hb.1.ready c
  have hskip : ∀ b, (aggScan s e q b).skip src = false := fun _ => e.skips.block_free src
  have hall : kept s e.junk none = .ok fun _ => true := rfl
  have htake : ∀ b (z : AggStates e.kernels q.projs),
      (aggScan s e q b).take z src.rows (src.rows.map fun _ => true) =
        .ok (takeAggs s q.projs z src.rows) := by
    intro b z
    show Except.ok (takeAggs s q.projs z (select src.rows (src.rows.map fun _ => true))) = _
    rw [select_map, filter_eq_self.mpr fun _ _ => rfl]
  cases hd : !within q.limit 0 with
  | true => exact ⟨x, y, scanSource_done hd, scanSource_done hd, h⟩
  | false =>
    have hslow : scanSource e.junk (aggScan s e q false) y src = .ok (takeAggs s q.projs y src.rows) := by
      rw [scanSource_taken (x := aggScan s e q false) hd (hskip _) rfl (hloads _) hall, htake]
    cases hs : tryStatsFastpath s q.projs x src with
    | none =>
      refine ⟨takeAggs s q.projs x src.rows, _, ?_, hslow, fun i => ?_⟩
      · rw [scanSource_taken (x := aggScan s e q true) hd (hskip _) hs (hloads _) hall, htake]
      · exact folded_alike (fun a ha => hq a (hin i a ha)) _ (h i)
    | some x' =>
      obtain ⟨hserved, rfl⟩ := tryStats_some hs
      refine ⟨_, _, scanSource_shortcut (x := aggScan s e q true) hd (hskip _) hs, hslow, fun i => ?_⟩
      have hi := hserved _ (get_mem q.projs i)
      cases hp : q.projs.get i with
      | agg a =>
        have hmem := hin i a hp
        have hblock : FlushedBlock s tag src ∧ AgreesFor q src := by
          refine hsrc.resolve_left fun hm => ?_
          rw [tryStatsFastpath, hm] at hs
          simp at hs
        have hxy := h i
        rw [hp] at hi hxy
        show Alike _ _ (foldRows s src.rows (q.projs.get i) (y i))
        rw [hp]
        exact applied_alike hblock.1 (hq a hmem) (hblock.2 hserved a hmem) hi hxy
      | _ => rw [hp] at hi; exact absurd hi Bool.false_ne_true

theorem run_alike {srcs : List (Source s)}
    (hsrc : ∀ src ∈ srcs, src.mem = true ∨ (FlushedBlock s tag src ∧ AgreesFor q src))
    (h : ∀ i, Alike (q.projs.get i) (x i) (y i)) :
    ∃ x' y', scanSources e.junk (aggScan s e q true) x srcs = .ok x' ∧
      scanSources e.junk (aggScan s e q false) y srcs = .ok y' ∧ ∀ i, Alike (q.projs.get i) (x' i)
      (y' i) := by
  induction srcs generalizing x y with
  | nil => exact ⟨x, y, rfl, rfl, h⟩
  | cons src srcs ih =>
    obtain ⟨x1, y1, hx, hy, h1⟩ := step_alike hq (hsrc src mem_cons_self) h
    obtain ⟨x2, y2, hx2, hy2, h2⟩ := ih (fun b hb => hsrc b (mem_cons_of_mem src hb)) h1
    refine ⟨x2, y2, ?_, ?_, h2⟩
    · rw [scanSources_cons, hx]
      exact hx2
    · rw [scanSources_cons, hy]
      exact hy2

theorem emit_alike (h : ∀ i, Alike (q.projs.get i) (x i) (y i)) :
    emitAggs s e.unwritten q.projs x = emitAggs s e.unwritten q.projs y := by
  have hw := fun i => written_alike (fun a ha => hq a (ha ▸ get_mem q.projs i)) (h i) e.unwritten
  have hovf : (List.ofFn x).any AggState.ovf = (List.ofFn y).any AggState.ovf := by
    rw [Bool.eq_iff_iff, any_eq_true, any_eq_true]
    simp only [mem_ofFn, exists_exists_eq_and, fun i => (hw i).1]
  have hguard : (fun i => projGuard true (q.projs.get i) (x i)) = fun i => projGuard true (q.projs.get i)
    (y i) :=
    funext fun i => (hw i).2.1
  have hcell : (fun i => aggCell s e.unwritten (q.projs.get i) (x i)) =
    fun i => aggCell s e.unwritten (q.projs.get i) (y i) := funext fun i => (hw i).2.2
  rw [emitAggs, emitAggs, hovf, hguard, hcell]

theorem scalar_alike (ht : FlushedTable s tag t)
    (ha : ∀ part ∈ t.partitions, ∀ b ∈ part.blocks, AgreesFor q b) :
    ((scalarPath s (withStats e true) q).executor e.skips q.cond).run e.junk t =
      ((scalarPath s (withStats e false) q).executor e.skips q.cond).run e.junk t := by
  cases q.cond with
  | some ex => rfl
  | none =>
    show (scanPlanBuild t (e.skips.prune s none) >>= fun srcs => scanSources e.junk (aggScan s e q true)
      (fun _ => aggInit e.kernels) srcs >>=
        emitAggs s e.unwritten q.projs) =
      scanPlanBuild t (e.skips.prune s none) >>= fun srcs => scanSources e.junk (aggScan s e q false)
        (fun _ => aggInit e.kernels) srcs >>=
        emitAggs s e.unwritten q.projs
    cases hp : scanPlanBuild t (e.skips.prune s none) with
    | error f => rfl
    | ok srcs =>
      have hsrc : ∀ src ∈ srcs, src.mem = true ∨ (FlushedBlock s tag src ∧ AgreesFor q src) := by
        intro src hs
        rcases scanPlan_mem hp hs with ⟨part, hpart, hb⟩ | hm
        · exact .inr ⟨ht part hpart src hb, ha part hpart src hb⟩
        · exact .inl hm
      obtain ⟨x, y, hx, hy, hxy⟩ := run_alike (e := e) hq hsrc fun i => alike_refl _ _
      show (scanSources e.junk (aggScan s e q true) (fun _ => aggInit e.kernels) srcs >>= _) =
        scanSources e.junk (aggScan s e q false) (fun _ => aggInit e.kernels) srcs >>= _
      rw [hx, hy]
      exact emit_alike hq hxy

omit hq

end Answers

def firstLast : Query 2 where
  projs := [.agg ⟨.first, some vCol⟩, .agg ⟨.last, some vCol⟩]
  cond := none
  limit := none
  sampleBy := none
  window := none
  groupBy := []
  having := none
  latestOn := none

theorem firstLast_ints : ∀ a, Proj.agg a ∈ firstLast.projs → OverInts twoCols a := by
  intro a ha
  refine .inr fun c hc => .inl ?_
  rcases mem_cons.mp ha with h | h
  · cases h
    cases hc
    rfl
  cases mem_singleton.mp h
  cases hc
  rfl

theorem twoTimes_covered : ∀ r ∈ ([![1, 10], ![2, 20]] : List (Row 2)), 1 ≤ twoCols.time r ∧
    twoCols.time r ≤ 2 :=
  forall_mem_cons.mpr ⟨by decide, forall_mem_singleton.mpr (by decide)⟩

theorem oneTime_covered : ∀ r ∈ ([![1, 10], ![1, 20]] : List (Row 2)), 1 ≤ twoCols.time r ∧
    twoCols.time r ≤ 1 :=
  forall_mem_cons.mpr ⟨by decide, forall_mem_singleton.mpr (by decide)⟩

def twoTimes : Source twoCols := diskBlock [![1, 10], ![2, 20]] 1 2 twoTimes_covered

def oneTime : Source twoCols := diskBlock [![1, 10], ![1, 20]] 1 1 oneTime_covered

variable {b : Source twoCols}

def oneBlock (b : Source twoCols) (h : b.mem = false) : Table twoCols :=
  ⟨true, [⟨[b], true, true, none, fun _ hc => mem_singleton.mp hc ▸ h, fun _ h => absurd h (by simp)⟩],
    .ok []⟩

theorem twoTimes_flushed : FlushedBlock twoCols none twoTimes where
  ready := fun _ => rfl
  flushed := ⟨2, fun _ => 0, [![1, 10], ![2, 20]], 0, by decide, by decide⟩
  tsMin := rfl
  tsMax := rfl

theorem oneTime_flushed : FlushedBlock twoCols none oneTime where
  ready := fun _ => rfl
  flushed := ⟨2, fun _ => 0, [![1, 10], ![1, 20]], 0, by decide, by decide⟩
  tsMin := rfl
  tsMax := rfl

theorem oneBlock_all {P : Source twoCols → Prop} (hb : P b) (h : b.mem = false) :
    ∀ part ∈ (oneBlock b h).partitions, ∀ c ∈ part.blocks, P c := by
  intro part hp c hc
  rw [mem_singleton.mp hp] at hc
  rw [mem_singleton.mp hc]
  exact hb

theorem twoTimes_agrees : AgreesFor firstLast twoTimes := by
  intro _ a ha
  rcases mem_cons.mp ha with h | h
  · cases h
    intro r rs hr
    cases hr
    decide
  cases mem_singleton.mp h
  intro r rs hr
  cases hr
  decide

end QEngine.StatisticsAnswers

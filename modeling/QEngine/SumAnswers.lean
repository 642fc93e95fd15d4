import QEngine.StatisticsAnswers
import QEngine.LocalStats

/-!
# Sums and spreads of integers

A block is added up with wrapping words, and only the totals over the blocks of a worker and over
the workers are checked. A spread is a wrapping difference.
-/

namespace QEngine.SumAnswers
open List QueryTables WordSums Aggregates BlockStatistics SelectQueries StatisticsAnswers

structure Block where
  stats : Bool
  value : UInt64
  values : List UInt64

variable {k : Kernels}

def takeBlock (kind : AggKind) (st : AggState k) (b : Block) : AggState k :=
  let stats := computeBlockStats .int64 (b.value::b.values)
  if b.stats && (aggStatsRequires kind).any stats.has then
    aggApplyStats kind .int64 stats 0 0 (b.values.length+1) st
  else aggUpdateVals kind .int64 ((b.value::b.values).map (·, 0)) st

def scanShare (kind : AggKind) (bs : List Block) : AggState k := bs.foldl (takeBlock kind) (aggInit k)

/-- A worker's state is merged into the one that is written; the kinds that several workers never
compute, and those of a digest, are left out. -/
def mergeState (kind : AggKind) (st part : AggState k) : AggState k :=
  match kind with
  | .count => { st with count := st.count+part.count }
  | .sum | .avg => { st with
      sumF := st.sumF+part.sumF
      sumI := (addOverflow st.sumI part.sumI).1
      ovf := (st.ovf || (addOverflow st.sumI part.sumI).2) || part.ovf
      count := st.count+part.count }
  | .min => { st with
      minF := if part.minF < st.minF then part.minF else st.minF
      minI := tsLow st.minI part.minI }
  | .max => { st with
      maxF := if st.maxF < part.maxF then part.maxF else st.maxF
      maxI := tsHigh st.maxI part.maxI }
  | .spread => { st with
      minF := if part.minF < st.minF then part.minF else st.minF
      minI := tsLow st.minI part.minI
      maxF := if st.maxF < part.maxF then part.maxF else st.maxF
      maxI := tsHigh st.maxI part.maxI
      count := st.count+part.count }
  | _ => st

/-- One share is scanned by the caller itself; with more sources and workers than one there are
several, each of the blocks of a slice of the sources. -/
def scanShares (kind : AggKind) : List (List Block) → AggState k
  | [bs] => scanShare kind bs
  | shares => (shares.map (scanShare kind)).foldl (mergeState kind) (aggInit k)

def answer (k : Kernels) (kind : AggKind) (shares : List (List Block)) : Except Failure Int64 :=
  let st : AggState k := scanShares kind shares
  if st.ovf then .error overflowed else .ok (aggWrite kind .int64 .int64 st).toInt64

def Block.ints (b : Block) : List Int64 := b.value.toInt64::b.values.map UInt64.toInt64

def column (shares : List (List Block)) : List Int64 := shares.flatMap (·.flatMap Block.ints)

def total (xs : List Int64) : ℤ := (xs.map Int64.toInt).sum

/-- The sum of a block as one word. -/
def Block.word (b : Block) : ℤ := (total b.ints).bmod (2^64)

def RunningFit (a : ℤ) : List ℤ → Prop
  | [] => True
  | w::ws => Fits (a+w) ∧ RunningFit (a+w) ws

/-- No total over the first blocks of a share, and none over the first shares, leaves the range. -/
def Unflagged (shares : List (List Block)) : Prop :=
  (∀ bs ∈ shares, RunningFit 0 (bs.map Block.word)) ∧
    RunningFit 0 (shares.map fun bs => (bs.map Block.word).sum)

section Words

/-- Checked additions of words. -/
def addWords (acc : Int64 × Bool) (ws : List (Int64 × Bool)) : Int64 × Bool :=
  ws.foldl (fun acc w => ((addOverflow acc.1 w.1).1, (acc.2 || (addOverflow acc.1 w.1).2) || w.2)) acc

theorem addWords_flagged (a : Int64) (ws : List (Int64 × Bool)) : (addWords (a, true) ws).2 = true := by
  induction ws generalizing a with
  | nil => rfl
  | cons w ws ih => exact ih _

theorem addWords_iff (a : Int64) (ws : List (Int64 × Bool)) : (addWords (a, false) ws).2 = false ↔
    (∀ w ∈ ws, w.2 = false) ∧ RunningFit a.toInt (ws.map fun w => w.1.toInt) := by
  induction ws generalizing a with
  | nil => simp [addWords, RunningFit]
  | cons w ws ih =>
    have hstep : addWords (a, false) (w::ws) =
        addWords (a+w.1, (!decide (Fits (a.toInt+w.1.toInt))) || w.2) ws := by
      rw [addWords, foldl_cons, ← addWords]
      congr 2
      by_cases hf : Fits (a.toInt+w.1.toInt)
      · simp [addOverflow, toInt_add_fits hf, hf]
      · have hne : (a+w.1).toInt ≠ a.toInt+w.1.toInt := fun h => hf (h ▸ fits_toInt _)
        rw [addOverflow, decide_eq_true hne, decide_eq_false hf]
        rfl
    rw [hstep, map_cons, RunningFit, forall_mem_cons]
    by_cases hf : Fits (a.toInt+w.1.toInt)
    · cases hw : w.2 with
      | true => simp [addWords_flagged]
      | false =>
        rw [decide_eq_true hf, Bool.not_true, Bool.or_false, ih, toInt_add_fits hf]
        tauto
    · rw [decide_eq_false hf, Bool.not_false, Bool.true_or]
      simp [addWords_flagged, hf]

theorem addWords_sum (acc : Int64 × Bool) (ws : List (Int64 × Bool)) :
    (addWords acc ws).1 = acc.1+(ws.map Prod.fst).foldr (· + ·) 0 := by
  induction ws generalizing acc with
  | nil => simp [addWords]
  | cons w ws ih =>
    rw [addWords, foldl_cons, ← addWords, ih, map_cons, foldr_cons, ← Int64.add_assoc]
    rfl

theorem total_word (xs : List Int64) : Int64.ofInt (total xs) = sumI64 xs := by
  have hrun : ∀ (xs : List Int64) (a : Int64), xs.foldl (· + ·) a = a+Int64.ofInt (total xs) := by
    intro xs
    induction xs with
    | nil => exact fun a => by simp [total]
    | cons x xs ih =>
      intro a
      have htotal : total (x::xs) = x.toInt+total xs := rfl
      rw [foldl_cons, ih, Int64.add_assoc, htotal, Int64.ofInt_add, Int64.ofInt_toInt]
  rw [sumI64, hrun, Int64.zero_add]

theorem sumI64_word (b : Block) : (sumI64 b.ints).toInt = b.word := by
  rw [← total_word, Int64.toInt_ofInt]
  rfl

theorem addWords_fit {a : Int64} {ws : List (Int64 × Bool)}
    (h : RunningFit a.toInt (ws.map fun w => w.1.toInt)) :
    (addWords (a, false) ws).1.toInt = a.toInt+(ws.map fun w => w.1.toInt).sum := by
  suffices h : ∀ o, (addWords (a, o) ws).1.toInt = a.toInt+(ws.map fun w => w.1.toInt).sum from h false
  induction ws generalizing a with
  | nil => exact fun _ => by simp [addWords]
  | cons w ws ih =>
    intro o
    obtain ⟨hf, hrest⟩ := h
    rw [← toInt_add_fits hf] at hrest
    rw [addWords, foldl_cons, ← addWords, map_cons, sum_cons, ← Int.add_assoc, ← toInt_add_fits hf]
    exact ih hrest _

theorem addWords_total {α : Type} {f : α → Int64 × Bool} {g : α → List Int64}
    (h : ∀ x, (f x).1 = Int64.ofInt (total (g x))) (l : List α) :
    (addWords (0, false) (l.map f)).1 = Int64.ofInt (total (l.flatMap g)) := by
  rw [addWords_sum, Int64.zero_add]
  induction l with
  | nil => rfl
  | cons x l ih =>
    rw [map_cons, map_cons, foldr_cons, ih, h, flatMap_cons, total, total, total, map_append,
      sum_append, Int64.ofInt_add]

end Words

section States

theorem takeBlock_ints {kind : AggKind} {st : AggState k} {b : Block} (hk : bulk kind) :
    takeBlock kind st b = updateInts kind b.ints st := by
  unfold takeBlock
  dsimp only
  split_ifs with hs
  · obtain ⟨bits, hb, hhas⟩ := (Option.any_eq_true ..).mp ((Bool.and_eq_true ..).mp hs).2
    have happly := @aggApply_ints k .int64 kind hk (.inl rfl) b.value.toInt64
      (b.values.map UInt64.toInt64) (fun b h => by cases hb.symm.trans h; exact hhas) 0 0 st
    rw [length_map] at happly
    exact happly
  · have hmap : ((b.value::b.values).map (·, (0 : Int64))).map (fun c => c.1.toInt64) = b.ints := map_map
    rw [← hmap]
    rcases hk with hk | hk <;> cases kind <;> first
      | rfl
      | simp [aggStatsRequires] at hk

def words (bs : List Block) : List (Int64 × Bool) := bs.map fun b => (sumI64 b.ints, false)

theorem share_sum (bs : List Block) (st : AggState k) :
    ((bs.foldl (takeBlock .sum) st).sumI, (bs.foldl (takeBlock .sum) st).ovf) =
      addWords (st.sumI, st.ovf) (words bs) := by
  induction bs generalizing st with
  | nil => rfl
  | cons b bs ih =>
    have hcons : addWords (st.sumI, st.ovf)
      (words (b::bs)) = addWords ((addOverflow st.sumI (sumI64 b.ints)).1,
        (st.ovf || (addOverflow st.sumI (sumI64 b.ints)).2) || false) (words bs) := rfl
    rw [foldl_cons, ih, takeBlock_ints (.inr rfl), hcons, Bool.or_false]
    rfl

theorem merged_sum (sts : List (AggState k)) (st : AggState k) :
    ((sts.foldl (mergeState .sum) st).sumI, (sts.foldl (mergeState .sum) st).ovf) =
      addWords (st.sumI, st.ovf) (sts.map fun st => (st.sumI, st.ovf)) := by
  induction sts generalizing st with
  | nil => rfl
  | cons s sts ih =>
    rw [foldl_cons, ih]
    rfl

theorem share_iff (bs : List Block) : (addWords (0, false) (words bs)).2 = false ↔
    RunningFit 0 (bs.map Block.word) := by
  rw [addWords_iff, words, map_map]
  simp [Function.comp_def, sumI64_word]

theorem share_word {bs : List Block} (h : RunningFit 0 (bs.map Block.word)) :
    (addWords (0, false) (words bs)).1.toInt = (bs.map Block.word).sum := by
  have hmap : (words bs).map (fun w => w.1.toInt) = bs.map Block.word := by
    rw [words, map_map]
    exact map_congr_left fun b _ => sumI64_word b
  rw [addWords_fit (by rw [hmap]; exact h), hmap]
  exact Int.zero_add _

theorem share_total (bs : List Block) :
    (addWords (0, false) (words bs)).1 = Int64.ofInt (total (bs.flatMap Block.ints)) :=
  addWords_total (fun b => (total_word b.ints).symm) bs

/-- A single share passes the check over the shares if it passes its own. -/
theorem runningFit_sum (a : ℤ) (ha : Fits a) (ws : List ℤ) (h : RunningFit a ws) : Fits (a+ws.sum) := by
  induction ws generalizing a with
  | nil => simpa using ha
  | cons w ws ih =>
    rw [sum_cons, ← Int.add_assoc]
    exact ih _ h.1 h.2

theorem shares_sum (shares : List (List Block)) :
    (((scanShares .sum shares : AggState k).ovf = false) ↔ Unflagged shares) ∧
      (scanShares .sum shares : AggState k).sumI = Int64.ofInt (total (column shares)) := by
  have hmany : ∀ st : AggState k, st = (shares.map (scanShare .sum)).foldl (mergeState .sum) (aggInit k) →
      (st.ovf = false ↔ Unflagged shares) ∧ st.sumI = Int64.ofInt (total (column shares)) := by
    rintro st rfl
    have hrun := merged_sum (shares.map (scanShare .sum)) (aggInit k)
    have hparts : (shares.map (scanShare .sum)).map (fun st : AggState k => (st.sumI, st.ovf)) =
        shares.map fun bs => addWords (0, false) (words bs) := by
      rw [map_map]
      exact map_congr_left fun bs _ => share_sum bs (aggInit k)
    rw [hparts] at hrun
    obtain ⟨hsum, hovf⟩ := Prod.mk.inj hrun
    rw [hsum, hovf]
    refine ⟨?_, addWords_total share_total shares⟩
    refine (addWords_iff 0 _).trans ?_
    rw [Unflagged, forall_mem_map, map_map]
    refine (and_congr_left' (forall₂_congr fun bs _ => share_iff bs)).trans (and_congr_right fun hfit => ?_)
    have hmap := map_congr_left fun bs hbs => share_word (hfit bs hbs)
    exact iff_of_eq (congrArg (RunningFit 0) hmap)
  match shares with
  | [] => exact hmany _ rfl
  | bs::bs'::rest => exact hmany _ rfl
  | [bs] =>
    obtain ⟨hsum, hovf⟩ := Prod.mk.inj (share_sum bs (aggInit k))
    refine ⟨?_, ?_⟩
    · refine (show _ = _ from congrArg (· = false) hovf) ▸ (share_iff bs).trans ?_
      rw [Unflagged, forall_mem_singleton, map_singleton, RunningFit, RunningFit]
      refine (and_iff_left_of_imp fun h => ⟨?_, trivial⟩).symm
      exact runningFit_sum 0 (by decide) _ h
    · refine Eq.trans hsum ((share_total bs).trans ?_)
      rw [column, flatMap_singleton]

instance tsLow_assoc : Std.Associative tsLow where
  assoc a b c := by
    simp only [tsLow, Int64.lt_iff_toInt_lt]
    grind

theorem tsLow_max (a : Int64) : tsLow a Int64.maxValue = a :=
  if_neg (Int64.not_lt.mpr (Int64.le_maxValue a))

theorem foldl_low (m : Int64) (xs : List Int64) : xs.foldl tsLow m = tsLow m (minI64 xs) := by
  rw [minI64, ← @foldl_assoc _ tsLow, tsLow_max]

/-- The bounds, the count and the flag of a spread over a column. -/
def Spans (st : AggState k) (start : AggState k) (xs : List Int64) : Prop :=
  st.minI = xs.foldl tsLow start.minI ∧ st.maxI = xs.foldl tsHigh start.maxI ∧
    st.count = start.count+xs.length ∧ st.ovf = start.ovf

theorem share_spread (bs : List Block) (st : AggState k) :
    Spans (bs.foldl (takeBlock .spread) st) st (bs.flatMap Block.ints) := by
  induction bs generalizing st with
  | nil => exact ⟨rfl, rfl, rfl, rfl⟩
  | cons b bs ih =>
    obtain ⟨hmin, hmax, hcount, hovf⟩ := ih (takeBlock .spread st b)
    rw [takeBlock_ints (.inl rfl)] at hmin hmax hcount hovf
    rw [Spans, foldl_cons, takeBlock_ints (.inl rfl), hmin, hmax, hcount, hovf, flatMap_cons,
      foldl_append, foldl_append, foldl_low st.minI, LocalStats.foldl_tsHigh st.maxI, length_append]
    exact ⟨rfl, rfl, by simp [updateInts]; omega, rfl⟩

theorem shares_spread (shares : List (List Block)) :
    Spans (scanShares .spread shares) (aggInit k) (column shares) := by
  have hrun : ∀ (shares : List (List Block)) (st : AggState k),
      Spans ((shares.map (scanShare .spread)).foldl (mergeState .spread) st) st (column shares) := by
    intro shares
    induction shares with
    | nil => exact fun _ => ⟨rfl, rfl, rfl, rfl⟩
    | cons bs shares ih =>
      intro st
      obtain ⟨hmin, hmax, hcount, hovf⟩ := ih (mergeState .spread st (scanShare .spread bs))
      obtain ⟨gmin, gmax, gcount, -⟩ := share_spread bs (aggInit k)
      have hcolumn : column (bs::shares) = bs.flatMap Block.ints++column shares := flatMap_cons
      rw [Spans, map_cons, foldl_cons, hmin, hmax, hcount, hovf, hcolumn, foldl_append,
        foldl_append, foldl_low st.minI, LocalStats.foldl_tsHigh st.maxI, length_append]
      refine ⟨?_, ?_, ?_, rfl⟩
      · exact congrArg (fun m => (column shares).foldl tsLow (tsLow st.minI m)) gmin
      · exact congrArg (fun m => (column shares).foldl tsHigh (tsHigh st.maxI m)) gmax
      · have hzero : (aggInit k).count = 0 := rfl
        rw [hzero, Nat.zero_add] at gcount
        rw [← Nat.add_assoc, ← gcount]
        rfl
  match shares with
  | [] => exact hrun [] _
  | bs::bs'::rest => exact hrun (bs::bs'::rest) _
  | [bs] =>
    rw [column, flatMap_singleton]
    exact share_spread bs (aggInit k)

end States

theorem answer_sum (k : Kernels) (shares : List (List Block)) : (Unflagged shares →
    answer k .sum shares = .ok (Int64.ofInt (total (column shares)))) ∧
      (¬Unflagged shares → answer k .sum shares = .error overflowed) := by
  obtain ⟨hovf, hsum⟩ := @shares_sum k shares
  rw [answer]
  constructor
  · intro h
    rw [hovf.mpr h, if_neg Bool.false_ne_true, ← hsum]
    rfl
  · intro h
    exact if_pos (by simpa using mt hovf.mp h)

section Bounds
variable {shares : List (List Block)} {lo hi : Int64} (hlo : lo ∈ column shares)
  (hhi : hi ∈ column shares) (hx : ∀ x ∈ column shares, lo ≤ x ∧ x ≤ hi)

theorem answer_spread_ok (k : Kernels) : ∃ x, answer k .spread shares = .ok x := by
  obtain ⟨-, -, -, hovf⟩ := @shares_spread k shares
  exact ⟨_, if_neg (by rw [hovf]; exact Bool.false_ne_true)⟩

include hlo hhi hx in
theorem answer_spread (k : Kernels) (hs : Fits (hi.toInt-lo.toInt)) :
    answer k .spread shares = .ok (Int64.ofInt (hi.toInt-lo.toInt)) := by
  obtain ⟨hmin, hmax, hcount, hovf⟩ := @shares_spread k shares
  have hl : (column shares).foldl tsLow Int64.maxValue = lo :=
    Int64.le_antisymm ((QueryTables.foldl_tsLow _ _).2 lo hlo) (foldlRecOn _ _ (Int64.le_maxValue lo)
      fun a ha x hm => by unfold tsLow; split_ifs; exacts [(hx x hm).1, ha])
  have hh : (column shares).foldl tsHigh Int64.minValue = hi :=
    Int64.le_antisymm (foldlRecOn (motive := (· ≤ hi)) _ _ (Int64.minValue_le hi)
      fun a ha x hm => by unfold tsHigh; split_ifs; exacts [(hx x hm).2, ha])
      ((QueryTables.foldl_tsHigh _ _).2 hi hhi)
  rw [answer, show _ = false from hovf, ← toInt_sub_fits hs, Int64.ofInt_toInt,
    if_neg Bool.false_ne_true]
  simp only [aggWrite, cell, hmin.trans hl, hmax.trans hh]
  rw [if_neg (by decide)]
  split_ifs with hz
  · have he : hi = lo := by
      obtain hz | rfl | rfl := hz
      · exact absurd (hcount.symm.trans hz) (by simp [aggInit, ne_nil_of_mem hlo])
      · exact Int64.le_antisymm (Int64.minValue_le lo) (hx _ hhi).1
      · exact Int64.le_antisymm (Int64.le_maxValue hi) (hx _ hhi).1
    rw [he, Int64.sub_self]
    rfl
  · rfl

end Bounds

end QEngine.SumAnswers

import QEngine.ScannedRows

/-!
# Matches of ASOF JOIN

The cursor into the right table has passed the right rows up to the latest left row
so far, and the last one passed with the key of a left row is its match unless it is too
late for it. A late left row loses its match to a newer right row of its key.
-/

namespace QEngine.AsofMatches
open List QueryTables SourceScans ScanPaths PointJoins SelectQueries ScannedRows

variable {n m : ℕ} {s : Schema n} {s' : Schema m} {t : Table s} {t' : Table s'} {on : List (Fin n × Fin m)}
  {projs : List (JoinCol n m)} {l : Row n}

/-- Symbols are the same by their strings. -/
def sameKey (s : Schema n) (s' : Schema m) (l : Row n) (r : Row m) (k : Fin n × Fin m) : Bool :=
  if isSymbol s k.1 then (s.cols k.1).symtab[(l.code k.1).toNat]? = (s'.cols k.2).symtab[(r.code k.2).toNat]?
  else l k.1 = r k.2

structure Comparable (t : Table s) (t' : Table s') (k : Fin n × Fin m) : Prop where
  type : (s.cols k.1).type = (s'.cols k.2).type
  left : ∀ l ∈ tableRows t, (s.cols k.1).type = .symbol → (l.code k.1).toNat < (s.cols k.1).symtab.length
  right : ∀ r ∈ tableRows t', (s'.cols k.2).type = .symbol → (r.code k.2).toNat < (s'.cols k.2).symtab.length
  nodup : (s'.cols k.2).symtab.Nodup
  size : (s'.cols k.2).symtab.length ≤ 2^32

def Newest (s : Schema n) (s' : Schema m) (on : List (Fin n × Fin m)) (rows : List (Row m)) (l : Row n) :
    Option (Row m) → Prop
  | none => ∀ r ∈ rows, on.all (sameKey s s' l r) → s.time l < s'.time r
  | some r => s'.time r ≤ s.time l ∧
      (∀ x ∈ rows, on.all (sameKey s s' l x) → s'.time x ≤ s.time l → s'.time x ≤ s'.time r) ∧
      (rows.filter fun x => on.all (sameKey s s' l x) && s'.time x = s'.time r).getLast? = some r

def emitRow (s' : Schema m) (projs : List (JoinCol n m)) (a : JoinAnswer) (x : Row n × Option (Row m)) :
    JoinAnswer :=
  let cells := zipWith (asofCell s' x.1 x.2) projs a.owned
  ⟨a.rows++[cells.map Prod.snd], cells.map Prod.fst⟩

/-- The right row that a left row is paired with. -/
def pairOf (s : Schema n) (s' : Schema m) (on : List (Fin n × Fin m)) (x : JoinState m) (l : Row n) :
    Option (Row m) :=
  let ahead := x.rest.takeWhile fun r => s'.time r ≤ s.time l
  let passed := (ahead.map fun r => (on.map (asofRkey s' r), r)).reverse++x.passed
  ((passed.find? fun y => y.1 = on.map (asofLkey s s' l)).map Prod.snd).filter fun r => s'.time r ≤ s.time l

def pairs (s : Schema n) (s' : Schema m) (on : List (Fin n × Fin m)) (projs : List (JoinCol n m)) :
    JoinState m → List (Row n) → List (Option (Row m))
  | _, [] => []
  | x, l::lefts => pairOf s s' on x l::pairs s s' on projs (asofRow s s' on projs none x l) lefts

/-- Of two left rows in scan order the first is before every right row that is late for the second, if
the second has a match in time and the right rows have its key. -/
def Apart (s : Schema n) (s' : Schema m) (on : List (Fin n × Fin m)) (rows : List (Row m)) (b l : Row n) :
    Prop :=
  ∀ r ∈ rows, ∀ r' ∈ rows, on.all (sameKey s s' l r) → on.all (sameKey s s' l r') →
    s'.time r ≤ s.time l → s.time l < s'.time r' → s.time b < s'.time r'

def byTime (s' : Schema m) (rows : List (Row m)) : List (Row m) :=
    rows.insertionSort fun a b => s'.time a ≤ s'.time b

theorem byTime_sorted (rows : List (Row m)) : (byTime s' rows).Pairwise fun a b => s'.time a ≤ s'.time b := by
  have : Std.Total fun a b : Row m => s'.time a ≤ s'.time b := ⟨fun _ _ => Int64.le_total _ _⟩
  have : IsTrans (Row m) fun a b => s'.time a ≤ s'.time b := ⟨fun _ _ _ => Int64.le_trans⟩
  exact pairwise_insertionSort _ rows

theorem byTime_filter (rows : List (Row m))
    {p : Row m → Bool} (h : ∀ a b, p a → p b → s'.time a ≤ s'.time b) :
    (byTime s' rows).filter p = rows.filter p := by
  have hs : rows.filter p <+ byTime s' rows :=
    sublist_insertionSort
      (pairwise_of_forall_mem_list fun a ha b hb => h a b (mem_filter.mp ha).2 (mem_filter.mp hb).2)
      filter_sublist
  have hf := hs.filter p
  rw [filter_filter] at hf
  simp only [Bool.and_self] at hf
  exact (hf.eq_of_length ((perm_insertionSort _ rows).filter p).length_eq.symm).symm

theorem late_rows {rows : List (Row m)} (h : rows.Pairwise fun a b => s'.time a ≤ s'.time b) (T : Int64) :
    ∀ r ∈ rows.drop (rows.takeWhile fun r => s'.time r ≤ T).length, T < s'.time r := by
  induction rows with
  | nil => simp
  | cons a rows ih =>
    by_cases ha : s'.time a ≤ T
    · simpa [takeWhile_cons, ha] using ih h.of_cons
    · have hlt := Int64.not_le.mp ha
      simpa [takeWhile_cons, ha] using ⟨hlt, fun r hr => Int64.lt_of_lt_of_le hlt (rel_of_pairwise_cons h hr)⟩

theorem code_eq_iff {tab : List String} (hn : tab.Nodup) (hz : tab.length ≤ 2^32) {x : String} {c : UInt32}
    (hc : c.toNat < tab.length) : c.toUInt64 = (match symtabLookup tab x with
      | none => UInt64.ofNat tab.length
      | some code => code.toUInt64) ↔ some x = tab[c.toNat]? := by
  rw [getElem?_eq_getElem hc, Option.some_inj, symtabLookup]
  cases hf : tab.findIdx? (· = x) with
  | none =>
    have hx := findIdx?_eq_none_iff.mp hf _ (getElem_mem hc)
    refine iff_of_false (fun (h : _ = UInt64.ofNat tab.length) => ?_) (by simpa [eq_comm] using hx)
    have h := congrArg UInt64.toNat h
    rw [UInt32.toNat_toUInt64, UInt64.toNat_ofNat_of_lt' (by simp [UInt64.size]; omega)] at h
    omega
  | some i =>
    obtain ⟨hi, hx, -⟩ := findIdx?_eq_some_iff_getElem.mp hf
    obtain rfl := of_decide_eq_true hx
    rw [hn.getElem_inj_iff, ← UInt64.toNat_inj]
    simp only [Option.map_some, UInt32.toNat_toUInt64]
    rw [UInt32.toNat_ofNat_of_lt' (by simp [UInt32.size]; omega), eq_comm]

theorem keys_iff (hk : ∀ k ∈ on, Comparable t t' k) (hl : l ∈ tableRows t)
    {r : Row m} (hr : r ∈ tableRows t') :
    on.map (asofRkey s' r) = on.map (asofLkey s s' l) ↔ on.all (sameKey s s' l r) := by
  rw [map_inj_left, all_eq_true]
  refine forall₂_congr fun k hm => ?_
  obtain ⟨hty, hll, hrr, hn, hz⟩ := hk k hm
  unfold asofRkey asofLkey sameKey isSymbol
  rw [← hty]
  by_cases hs : (s.cols k.1).type = .symbol
  · have hd := hrr r hr (hty ▸ hs)
    simp only [hs, decide_true, if_true, if_pos hd, getElem?_eq_getElem (hll l hl hs), decide_eq_true_eq]
    exact code_eq_iff hn hz hd
  · simp [hs, eq_comm]

section
variable {p rest : List (Row m)}

theorem mem_byTime {rows : List (Row m)} (h : byTime s' rows = p++rest) (r : Row m) : r ∈ rows ↔
    r ∈ p++rest := by
  rw [← h, byTime, mem_insertionSort]

/-- The last row passed with the keys of `l` is its newest match if it is not late. -/
theorem best_matches (hk : ∀ k ∈ on, Comparable t t' k) (hl : l ∈ tableRows t)
    (hright : byTime s' (tableRows t') = p++rest)
    (hrest : ∀ r ∈ rest, s.time l < s'.time r) {r : Row m} (hrl : s'.time r ≤ s.time l)
    (hf : p.reverse.find? (fun r => on.map (asofRkey s' r) = on.map (asofLkey s s' l)) = some r) :
    Newest s s' on (tableRows t') l (some r) := by
  have hmem := mem_byTime hright
  obtain ⟨hkey, later, before, hsplit, hlater⟩ := find?_eq_some_iff_append.mp hf
  have hp' : p = before.reverse++r::later.reverse := by
    rw [reverse_eq_iff.mp hsplit]
    simp
  rw [hp', append_assoc, cons_append] at hright
  have hsorted := pairwise_append.mp (hright ▸ byTime_sorted (tableRows t'))
  have hrp : r ∈ p := by simp [hp']
  have hrt := (hmem r).mpr (mem_append_left _ hrp)
  have hlate : ∀ x ∈ later.reverse++rest, on.all (sameKey s s' l x) → ¬ s'.time x ≤ s.time l := by
    intro x hx hxk hxt
    obtain h | h := mem_append.mp hx
    · have hxp : x ∈ p := by
        rw [hp']
        exact mem_append_right _ (mem_cons_of_mem _ h)
      have := (keys_iff hk hl ((hmem x).mpr (mem_append_left _ hxp))).mpr hxk
      simpa [this] using hlater x (mem_reverse.mp h)
    · exact Int64.not_le.mpr (hrest x h) hxt
  refine ⟨hrl, fun x hx hxk hxt => ?_, ?_⟩
  · rw [hmem, hp', append_assoc, cons_append] at hx
    obtain h | h := mem_append.mp hx
    · exact hsorted.2.2 x h r mem_cons_self
    obtain rfl | h := mem_cons.mp h
    · exact Int64.le_refl _
    · exact absurd hxt (hlate x h hxk)
  · have hnil : ((later.reverse++rest).filter fun x => on.all (sameKey s s' l x) && s'.time x = s'.time r) =
      [] := by
      refine filter_eq_nil_iff.mpr fun x hx hxk => ?_
      simp only [Bool.and_eq_true, decide_eq_true_eq] at hxk
      exact hlate x hx hxk.1 (hxk.2 ▸ hrl)
    rw [← @byTime_filter m s' (tableRows t') _ (by simp +contextual), hright, filter_append,
      filter_cons_of_pos, hnil, getLast?_concat]
    simpa using (keys_iff hk hl hrt).mp (of_decide_eq_true hkey)

/-- A row passed with the keys of `l` is not later than the last such row. -/
theorem passed_le (hk : ∀ k ∈ on, Comparable t t' k) (hl : l ∈ tableRows t)
    (hright : byTime s' (tableRows t') = p++rest)
    {x : Row m} (hx : x ∈ p) (hxk : on.all (sameKey s s' l x)) :
    ∃ r ∈ p, p.reverse.find? (fun r => on.map (asofRkey s' r) = on.map (asofLkey s s' l)) = some r ∧
      s'.time x ≤ s'.time r := by
  have hxkey := (keys_iff hk hl ((mem_byTime hright x).mpr (mem_append_left _ hx))).mpr hxk
  have hsorted := (pairwise_append.mp (hright ▸ byTime_sorted (tableRows t'))).1
  cases hf : p.reverse.find? fun r => on.map (asofRkey s' r) = on.map (asofLkey s s' l) with
  | none => exact absurd (decide_eq_true hxkey) (find?_eq_none.mp hf x (mem_reverse.mpr hx))
  | some r =>
    obtain ⟨-, later, before, hsplit, hlater⟩ := find?_eq_some_iff_append.mp hf
    refine ⟨r, mem_reverse.mp (mem_of_find?_eq_some hf), rfl, ?_⟩
    have hxr := mem_reverse.mpr hx
    rw [hsplit, mem_append, mem_cons] at hxr
    rcases hxr with h | rfl | h
    · exact absurd (hlater x h) (by simp [hxkey])
    · exact Int64.le_refl _
    · rw [reverse_eq_iff.mp hsplit] at hsorted
      rw [reverse_append, reverse_cons, append_assoc, pairwise_append] at hsorted
      exact hsorted.2.2 x (mem_reverse.mpr h) r (by simp)

/-- What the cursor has passed and what is ahead, after the left rows `before`. -/
structure Cursor (s : Schema n) (s' : Schema m) (rows p rest : List (Row m)) (before : List (Row n)) :
    Prop where
  split : byTime s' rows = p++rest
  passed : ∀ r ∈ p, ∃ b ∈ before, s'.time r ≤ s.time b
  ahead : ∀ r ∈ rest, ∀ b ∈ before, s.time b < s'.time r

theorem Cursor.advance {rows : List (Row m)} {before : List (Row n)} (h : Cursor s s' rows p rest before)
    (l : Row n) :
    Cursor s s' rows (p++rest.takeWhile fun r => s'.time r ≤ s.time l)
      (rest.drop (rest.takeWhile fun r => s'.time r ≤ s.time l).length) (before++[l]) := by
  refine ⟨?_, fun r hr => ?_, fun r hr b hb => ?_⟩
  · rw [h.split, append_assoc]
    conv_lhs => rw [← take_append_drop (rest.takeWhile fun r => s'.time r ≤ s.time l).length rest,
      ← prefix_iff_eq_take.mp ( takeWhile_prefix _)]
  · obtain hr | hr := mem_append.mp hr
    · obtain ⟨b, hb, hle⟩ := h.passed r hr
      exact ⟨b, mem_append_left _ hb, hle⟩
    · exact ⟨l, by simp, of_decide_eq_true (all_eq_true.mp all_takeWhile r hr)⟩
  · obtain hb | hb := mem_append.mp hb
    · exact h.ahead r (mem_of_mem_drop hr) b hb
    · rw [mem_singleton.mp hb]
      exact late_rows (pairwise_append.mp (h.split ▸ byTime_sorted rows)).2.1 (s.time l) r hr

/-- The row found for `l` is its newest match exactly when no left row before it has passed a right row of
its key that is late for it, if it has a match. -/
theorem newest_iff (hk : ∀ k ∈ on, Comparable t t' k) (hl : l ∈ tableRows t) {before : List (Row n)}
    (h : Cursor s s' (tableRows t') p rest (before++[l])) :
    Newest s s' on (tableRows t') l
    ((p.reverse.find? fun r => on.map (asofRkey s' r) = on.map (asofLkey s s' l)).filter
      fun r => s'.time r ≤ s.time l) ↔ ∀ b ∈ before, Apart s s' on (tableRows t') b l := by
  have hrest : ∀ r ∈ rest, s.time l < s'.time r := fun r hr => h.ahead r hr l (by simp)
  have hmem := mem_byTime h.split
  constructor
  · intro hnew b hb r hr r' hr' hrk hrk' hrl hlr
    by_contra hbr
    have hp' : r' ∈ p := ((mem_append.mp ((hmem r').mp hr')).resolve_right fun hx =>
      hbr (h.ahead r' hx b (mem_append_left _ hb)))
    obtain ⟨r0, -, hf, hle⟩ := passed_le hk hl h.split hp' hrk'
    have hlate : ¬ s'.time r0 ≤ s.time l := fun hx =>
      Int64.not_le.mpr hlr (Int64.le_trans hle hx)
    rw [hf, Option.filter_some, if_neg (by simpa using hlate)] at hnew
    exact Int64.not_le.mpr (hnew r hr hrk) hrl
  · intro hap
    cases hf : p.reverse.find? fun r => on.map (asofRkey s' r) = on.map (asofLkey s s' l) with
    | none =>
      intro r hr hrk
      obtain hp | hp := mem_append.mp ((hmem r).mp hr)
      · exact absurd ((keys_iff hk hl hr).mpr hrk)
          (of_decide_eq_false (by simpa using find?_eq_none.mp hf r (mem_reverse.mpr hp)))
      · exact hrest r hp
    | some r0 =>
      by_cases hle : s'.time r0 ≤ s.time l
      · rw [Option.filter_some, if_pos (decide_eq_true hle)]
        exact best_matches hk hl h.split hrest hle hf
      · rw [Option.filter_some, if_neg (by simpa using hle)]
        intro r hr hrk
        by_contra hrl
        have hp0 := mem_reverse.mp (mem_of_find?_eq_some hf)
        have hr0 := (hmem r0).mpr (mem_append_left _ hp0)
        have hk0 := (keys_iff hk hl hr0).mp (by simpa using find?_some hf)
        obtain ⟨b, hb, hb0⟩ := h.passed r0 hp0
        obtain hb | hb := mem_append.mp hb
        · exact Int64.not_le.mpr (hap b hb r hr r0 hr0 hrk hk0 (Int64.not_lt.mp hrl) (Int64.not_le.mp hle))
            hb0
        · exact hle (mem_singleton.mp hb ▸ hb0)

end

theorem pairOf_passed {x : JoinState m} {p : List (Row m)}
    (hpass : x.passed = (p.map fun r => (on.map (asofRkey s' r), r)).reverse) :
    pairOf s s' on x l = ((p++x.rest.takeWhile fun r => s'.time r ≤ s.time l).reverse.find? fun r =>
      on.map (asofRkey s' r) = on.map (asofLkey s s' l)).filter fun r => s'.time r ≤ s.time l := by
  rw [pairOf, hpass, ← reverse_append, ← map_append, ← map_reverse, find?_map, Option.map_map]
  exact congrArg (Option.filter _) Option.map_id'

/-- One match is right when no earlier left row spoils it; all are when no left row spoils a later one. -/
theorem pairs_iff (hk : ∀ k ∈ on, Comparable t t' k)
    {lefts before : List (Row n)} {x : JoinState m} {p : List (Row m)}
    (hsub : ∀ l ∈ lefts, l ∈ tableRows t)
    (hpass : x.passed = (p.map fun r => (on.map (asofRkey s' r), r)).reverse)
    (hx : Cursor s s' (tableRows t') p x.rest before) :
    Forall₂ (Newest s s' on (tableRows t')) lefts (pairs s s' on projs x lefts) ↔
      (∀ b ∈ before, ∀ l ∈ lefts, Apart s s' on (tableRows t') b l) ∧
      lefts.Pairwise (Apart s s' on (tableRows t')) := by
  induction lefts generalizing before x p with
  | nil => simp [pairs]
  | cons l lefts ih =>
    obtain ⟨hl, hls⟩ := forall_mem_cons.mp hsub
    have hx' := hx.advance l
    rw [pairs, forall₂_cons, pairOf_passed hpass, newest_iff hk hl hx',
      @ih (before++[l])
        (asofRow s s' on projs none x l) _ hls (by rw [map_append, reverse_append, ← hpass]; rfl) hx',
      pairwise_cons]
    simp only [forall_mem_append, forall_mem_singleton, forall_mem_cons]
    exact ⟨fun ⟨h1, ⟨h2, h3⟩, h4⟩ => ⟨fun b hb => ⟨h1 b hb, h2 b hb⟩, h3, h4⟩,
      fun ⟨h1, h3, h4⟩ => ⟨fun b hb => (h1 b hb).1, ⟨fun b hb => (h1 b hb).2, h3⟩, h4⟩⟩

theorem asof_answer {right : List (Row m)} {lefts : List (Row n)} {x : JoinState m} :
    (asofExecutor s s' on projs none right).finish (lefts.foldl (asofRow s s' on projs none) x) =
      .ok ((lefts.zip (pairs s s' on projs x lefts)).foldl (emitRow s' projs) ⟨x.out, x.owned⟩) := by
  induction lefts generalizing x with
  | nil => rfl
  | cons l lefts ih => exact ih

theorem asof_folds {right : List (Row m)} :
    Folds (asofExecutor s s' on projs none right).toScan false (asofRow s s' on projs none) where
  cond := rfl
  skip _ := rfl
  shortcut _ _ := rfl
  done _ _ h := if_pos h
  take _ _ := rfl

end QEngine.AsofMatches

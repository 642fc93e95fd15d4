import QEngine.SymbolTables
import Mathlib.Data.List.DropRight

/-!
# The swap that ends a compaction

Compaction writes each merged column beside the live files, under names that end
in `.tmp`. The swap names these columns in a marker file, renames the two files of
each, and removes the marker. When a partition is opened with a marker, the
renames of its columns are done again.
-/

namespace QEngine.CompactionSwap
open List ByteFields SymbolTables

structure Staged (α : Type*) where
  live : α
  tmp : Option α
  deriving DecidableEq

structure Column (α : Type*) where
  name : Bytes
  col : Staged α
  idx : Staged α
  deriving DecidableEq

structure Partition (α : Type*) where
  columns : List (Column α)
  marker : Option Bytes
  deriving DecidableEq

inductive File
  | col
  | idx
  deriving DecidableEq

inductive Step
  | create
  | put (b : UInt8)
  | rename (n : Bytes) (f : File)
  | unlink
  deriving DecidableEq

section Files

variable {α : Type*}

def Staged.rename (s : Staged α) : Staged α :=
  match s.tmp with
  | some a => ⟨a, none⟩
  | none => s

def Column.rename (c : Column α) (n : Bytes) (f : File) : Column α :=
  if c.name = n then
    match f with
    | .col => { c with col := c.col.rename }
    | .idx => { c with idx := c.idx.rename }
  else c

def Partition.rename (p : Partition α) (n : Bytes) (f : File) : Partition α :=
  { p with columns := p.columns.map fun c => c.rename n f }

def step (p : Partition α) : Step → Partition α
  | .create => { p with marker := some [] }
  | .put b => { p with marker := p.marker.map fun bs => bs++[b] }
  | .rename n f => p.rename n f
  | .unlink => { p with marker := none }

def newline : UInt8 := 10

def carriageReturn : UInt8 := 13

def markerBytes (names : List Bytes) : Bytes := names.flatMap fun n => n++[newline]

def renames (names : List Bytes) : List (Bytes × File) := names.flatMap fun n => [(n, .col), (n, .idx)]

/-- The steps of the swap for the columns that were merged. The marker is made durable before the
first file is renamed. -/
def swap (names : List Bytes) : List Step :=
  .create :: ((markerBytes names).map .put ++ ((renames names).map fun r => .rename r.1 r.2) ++
    [.unlink])

def crashed (p : Partition α) (names : List Bytes) (k : ℕ) : Partition α :=
  ((swap names).take k).foldl step p

def fgets : ℕ → Bytes → Bytes × Bytes
  | 0, bs => ([], bs)
  | _+1, [] => ([], [])
  | k+1, b :: bs =>
    if b = newline then ([b], bs) else (b :: (fgets k bs).1, (fgets k bs).2)

/-- The lines read until the file ends. Every line has at least one byte, so the length bounds
their number. -/
def fgetsLines : ℕ → Bytes → List Bytes
  | 0, _ => []
  | _+1, [] => []
  | k+1, b :: bs => (fgets 255 (b :: bs)).1 :: fgetsLines k (fgets 255 (b :: bs)).2

def lineName (line : Bytes) : Bytes :=
  (cString line).rdropWhile fun b => decide (b = newline ∨ b = carriageReturn)

def markerNames (bs : Bytes) : List Bytes :=
  ((fgetsLines bs.length bs).map lineName).filter fun n => decide (n ≠ [])

def swapRecover (p : Partition α) : Partition α :=
  match p.marker with
  | none => p
  | some bs =>
    { ((renames (markerNames bs)).foldl (fun q r => q.rename r.1 r.2) p) with marker := none }

def Partition.files (p : Partition α) : List (Bytes × α × α) :=
  p.columns.map fun c => (c.name, c.col.live, c.idx.live)

def Partition.swapped (p : Partition α) (names : List Bytes) : List (Bytes × α × α) :=
  p.columns.map fun c =>
    if c.name ∈ names then (c.name, c.col.rename.live, c.idx.rename.live)
    else (c.name, c.col.live, c.idx.live)

end Files

structure Plain (n : Bytes) : Prop where
  nonempty : n ≠ []
  short : n.length < 255
  oneLine : newline ∉ n
  text : 0 ∉ n
  ending : ∀ h : n ≠ [], n.getLast h ≠ carriageReturn

/-! ### What recovery reads from the marker -/

theorem fgets_line (n rest : Bytes) (k : ℕ) (hn : newline ∉ n) (hk : n.length < k) :
    fgets k (n ++ newline :: rest) = (n++[newline], rest) := by
  induction n generalizing k with
  | nil =>
    obtain ⟨k, rfl⟩ := Nat.exists_eq_succ_of_ne_zero (Nat.ne_zero_of_lt hk)
    simp [fgets]
  | cons b n ih =>
    obtain ⟨k, rfl⟩ := Nat.exists_eq_succ_of_ne_zero (Nat.ne_zero_of_lt hk)
    have hb : b ≠ newline := fun h => hn (h ▸ mem_cons_self)
    have h := ih k (fun h => hn (mem_cons_of_mem _ h)) (by simpa using hk)
    simp [fgets, hb, h]

theorem fgets_last (n : Bytes) (k : ℕ) (hn : newline ∉ n) (hk : n.length < k) : fgets k n = (n, []) := by
  induction n generalizing k with
  | nil => cases k <;> rfl
  | cons b n ih =>
    obtain ⟨k, rfl⟩ := Nat.exists_eq_succ_of_ne_zero (Nat.ne_zero_of_lt hk)
    have hb : b ≠ newline := fun h => hn (h ▸ mem_cons_self)
    have h := ih k (fun h => hn (mem_cons_of_mem _ h)) (by simpa using hk)
    simp [fgets, hb, h]

theorem cString_text (n : Bytes) (h : 0 ∉ n) : cString n = n := by
  refine takeWhile_eq_self_iff.mpr ?_
  intro b hb
  simpa using fun h0 : b = 0 => h (h0 ▸ hb)

theorem lineName_bare {n : Bytes} (h : Plain n) : lineName n = n := by
  rw [lineName, cString_text n h.text, rdropWhile_eq_self_iff]
  intro hl
  have h10 : n.getLast hl ≠ newline := fun he => h.oneLine (he ▸ getLast_mem hl)
  simpa using ⟨h10, h.ending hl⟩

theorem lineName_line {n : Bytes} (h : Plain n) : lineName (n++[newline]) = n := by
  have ht : 0 ∉ n++[newline] := by
    simp only [mem_append, mem_singleton, not_or]
    exact ⟨h.text, by decide⟩
  rw [lineName, cString_text _ ht, rdropWhile_concat_pos _ _ _ (by simp)]
  simpa only [lineName, cString_text n h.text] using lineName_bare h

theorem markerBytes_concat (names : List Bytes) (n : Bytes) :
    markerBytes (names++[n]) = markerBytes names ++ n ++ [newline] := by
  simp [markerBytes]

theorem fgetsLines_marker {names : List Bytes} (rest : Bytes) (k : ℕ)
    (hp : ∀ n ∈ names, Plain n) (hk : (markerBytes names).length ≤ k) :
    ∃ k', fgetsLines k (markerBytes names ++ rest) = names.map (fun n => n++[newline]) ++ fgetsLines k' rest ∧
      k ≤ k'+(markerBytes names).length := by
  induction names generalizing k with
  | nil => exact ⟨k, rfl, Nat.le_add_right _ _⟩
  | cons n names ih =>
    have hn := hp n mem_cons_self
    have hb : markerBytes (n :: names) ++ rest =
      n ++ newline :: (markerBytes names ++ rest) := by simp [markerBytes]
    have hl : (markerBytes (n :: names)).length = n.length+1+(markerBytes names).length := by
      rw [markerBytes, flatMap_cons, length_append, length_append]
      rfl
    rw [hl] at hk ⊢
    obtain ⟨k, rfl⟩ : ∃ j, k = j+1 := ⟨k-1, by omega⟩
    obtain ⟨k', he, hle⟩ := ih k (fun m hm => hp m (mem_cons_of_mem _ hm)) (by omega)
    refine ⟨k', ?_, by omega⟩
    have hf := fgets_line n (markerBytes names ++ rest) 255 hn.oneLine hn.short
    obtain ⟨b, bs, hc⟩ : ∃ b bs, n ++ newline :: (markerBytes names ++ rest) = b :: bs := by
      cases n with
      | nil => exact ⟨_, _, rfl⟩
      | cons b n => exact ⟨_, _, rfl⟩
    rw [hb, hc, fgetsLines, ← hc, hf, he]
    simp

variable {names : List Bytes}

variable (hp : ∀ n ∈ names, Plain n)

include hp

theorem filter_names : names.filter (fun n => decide (n ≠ [])) = names :=
  filter_eq_self.mpr fun n hn => decide_eq_true (hp n hn).nonempty

theorem map_lineName : (names.map fun n => n++[newline]).map lineName = names := by
  rw [map_map]
  exact (map_congr_left fun n hn => lineName_line (hp n hn)).trans (map_id names)

theorem markerNames_full : markerNames (markerBytes names) = names := by
  obtain ⟨k', he, -⟩ := fgetsLines_marker [] _ hp le_rfl
  have h0 : fgetsLines k' [] = [] := by cases k' <;> rfl
  rw [append_nil, h0, append_nil] at he
  rw [markerNames, he, map_lineName hp, filter_names hp]

theorem markerNames_dropLast : markerNames (markerBytes names).dropLast = names := by
  cases eq_nil_or_concat names with
  | inl h => subst h; rfl
  | inr h =>
    obtain ⟨init, n, rfl⟩ := h
    rw [concat_eq_append] at hp ⊢
    have hi : ∀ m ∈ init, Plain m := fun m hm => hp m (mem_append_left _ hm)
    have hn := hp n (by simp)
    rw [markerBytes_concat, dropLast_concat]
    have hk : (markerBytes init).length ≤ (markerBytes init ++ n).length := by simp
    obtain ⟨k', he, hle⟩ := fgetsLines_marker n _ hi hk
    have hl : fgetsLines k' n = [n] := by
      obtain ⟨b, bs, rfl⟩ := exists_cons_of_ne_nil hn.nonempty
      obtain ⟨j, rfl⟩ : ∃ j, k' = j+1 := ⟨k'-1, by simp at hle; omega⟩
      rw [fgetsLines, fgets_last _ _ hn.oneLine hn.short]
      cases j <;> rfl
    rw [markerNames, he, hl, map_append, map_lineName hi, map_singleton, lineName_bare hn]
    exact filter_names hp

omit hp

/-! ### Renaming -/

section Renaming

variable {α : Type*}

theorem Staged.rename_rename (s : Staged α) : s.rename.rename = s.rename := by
  obtain ⟨live, _ | a⟩ := s <;> rfl

@[simp] theorem Column.rename_name (c : Column α) (n : Bytes) (f : File) : (c.rename n f).name = c.name := by
  unfold Column.rename
  split
  · cases f <;> rfl
  · rfl

def Column.renameAll (c : Column α) (ops : List (Bytes × File)) : Column α :=
  ops.foldl (fun c r => c.rename r.1 r.2) c

theorem renameAll_spec (ops : List (Bytes × File)) (c : Column α) :
    (c.renameAll ops).name = c.name ∧
    (c.renameAll ops).col = (if (c.name, File.col) ∈ ops then c.col.rename else c.col) ∧
    (c.renameAll ops).idx = (if (c.name, File.idx) ∈ ops then c.idx.rename else c.idx) := by
  induction ops generalizing c with
  | nil => exact ⟨rfl, rfl, rfl⟩
  | cons r ops ih =>
    obtain ⟨n, f⟩ := r
    obtain ⟨h1, h2, h3⟩ := ih (c.rename n f)
    have hc : c.renameAll ((n, f) :: ops) = (c.rename n f).renameAll ops := rfl
    rw [hc, h1, h2, h3]
    by_cases hn : c.name = n
    · subst hn
      cases f with
      | col =>
        refine ⟨by simp, ?_, by simp [Column.rename]⟩
        simp only [Column.rename, if_true, mem_cons_self]
        split
        · exact c.col.rename_rename
        · rfl
      | idx =>
        refine ⟨by simp, by simp [Column.rename], ?_⟩
        simp only [Column.rename, if_true, mem_cons_self]
        split
        · exact c.idx.rename_rename
        · rfl
    · simp [Column.rename, hn]

theorem mem_renames {names : List Bytes} {n : Bytes} {f : File} : (n, f) ∈ renames names ↔ n ∈ names := by
  cases f <;> simp [renames]

def Partition.renameAll (p : Partition α) (ops : List (Bytes × File)) : Partition α :=
  { p with columns := p.columns.map fun c => c.renameAll ops }

theorem foldl_rename (ops : List (Bytes × File)) (p : Partition α) :
    ops.foldl (fun q r => q.rename r.1 r.2) p = p.renameAll ops := by
  induction ops generalizing p with
  | nil => simp [Partition.renameAll, Column.renameAll]
  | cons r ops ih =>
    rw [foldl_cons, ih]
    simp [Partition.renameAll, Partition.rename, Column.renameAll, Function.comp_def]

theorem renameAll_append (p : Partition α) (a b : List (Bytes × File)) :
    (p.renameAll a).renameAll b = p.renameAll (a++b) := by
  simp [Partition.renameAll, Column.renameAll, Function.comp_def]

theorem files_renameAll (p : Partition α) (names : List Bytes) {ops : List (Bytes × File)}
    (h : ∀ n f, (n, f) ∈ ops ↔ n ∈ names) : (p.renameAll ops).files = p.swapped names := by
  simp only [Partition.files, Partition.swapped, Partition.renameAll, map_map]
  refine map_congr_left fun c _ => ?_
  obtain ⟨h1, h2, h3⟩ := renameAll_spec ops c
  simp only [Function.comp_apply, h1, h2, h3, h]
  split <;> rfl

end Renaming

/-! ### Where the process can die -/

section Crash

variable {α : Type*}

theorem foldl_put (bs : Bytes) (p : Partition α) (done : Bytes) (h : p.marker = some done) :
    (bs.map Step.put).foldl step p = { p with marker := some (done++bs) } := by
  induction bs generalizing p done with
  | nil => simp [← h]
  | cons b bs ih =>
    rw [map_cons, foldl_cons, ih (step p (.put b)) (done++[b]) (by simp [step, h])]
    simp [step]

theorem foldl_renameStep (ops : List (Bytes × File)) (p : Partition α) :
    (ops.map fun r => Step.rename r.1 r.2).foldl step p = p.renameAll ops := by
  rw [foldl_map]
  exact foldl_rename ops p

variable (p : Partition α)

theorem crashed_marking {names : List Bytes} {k : ℕ} (hk : k ≤ (markerBytes names).length) :
    crashed p names (k+1) = { p with marker := some ((markerBytes names).take k) } := by
  rw [crashed, swap, take_succ_cons, foldl_cons, append_assoc,
    take_append_of_le_length (by simpa using hk), ← map_take,
    foldl_put _ _ [] rfl]
  rfl

theorem crashed_renaming (names : List Bytes) (k : ℕ) :
    (∃ j, crashed p names ((markerBytes names).length+1+k) =
      { p.renameAll ((renames names).take j) with marker := some (markerBytes names) }) ∨
    crashed p names ((markerBytes names).length+1+k) =
    { p.renameAll (renames names) with marker := none } := by
  have hs : crashed p names ((markerBytes names).length+1+k) =
      ((((renames names).map fun r => Step.rename r.1 r.2) ++ [Step.unlink]).take k).foldl step
        { p with marker := some (markerBytes names) } := by
    rw [crashed, swap, show (markerBytes names).length+1+k = ((markerBytes names).length+k)+1 by omega,
      take_succ_cons, foldl_cons, append_assoc, take_append, foldl_append,
      take_of_length_le (by simp), foldl_put _ _ [] rfl]
    simp [step]
  rw [hs]
  by_cases hk : k ≤ (renames names).length
  · left
    refine ⟨k, ?_⟩
    rw [take_append_of_le_length (by simpa using hk), ← map_take, foldl_renameStep]
    rfl
  · right
    rw [take_of_length_le (by simp; omega), foldl_append, foldl_renameStep]
    rfl

theorem recover_marked (bs : Bytes) (names : List Bytes) (h : markerNames bs = names) :
    (swapRecover { p with marker := some bs }).files = (p.renameAll (renames names)).files := by
  simp only [swapRecover, h, foldl_rename]
  rfl

theorem files_untouched : (p.renameAll []).files = p.files := by
  simp [Partition.renameAll, Column.renameAll, Partition.files]

end Crash

/-- The swap is all or nothing unless the process dies with a part of the marker written. -/
theorem swap_crash_atomic {α : Type*} (p : Partition α) (names : List Bytes) (k : ℕ)
    (hm : p.marker = none) (hp : ∀ n ∈ names, Plain n) (hk : k ≤ 1 ∨ (markerBytes names).length ≤ k) :
    (swapRecover (crashed p names k)).files = p.files ∨
    (swapRecover (crashed p names k)).files = p.swapped names := by
  have hall : (p.renameAll (renames names)).files = p.swapped names :=
    files_renameAll p _ fun n f => mem_renames
  match k with
  | 0 =>
    left
    simp [crashed, swapRecover, hm]
  | k+1 =>
    by_cases hle : k ≤ (markerBytes names).length
    · rw [crashed_marking p hle]
      by_cases h0 : k = 0
      · left
        subst h0
        rw [take_zero, recover_marked p [] [] rfl]
        exact files_untouched p
      right
      have hread : markerNames ((markerBytes names).take k) = names := by
        by_cases hf : k = (markerBytes names).length
        · rw [hf, take_length]
          exact markerNames_full hp
        have hd : k = (markerBytes names).length-1 := by omega
        rw [hd, ← dropLast_eq_take]
        exact markerNames_dropLast hp
      rw [recover_marked p _ _ hread]
      exact hall
    · right
      obtain ⟨j, hj⟩ : ∃ j, k+1 = (markerBytes names).length+1+j :=
        ⟨k-(markerBytes names).length, by omega⟩
      rw [hj]
      rcases crashed_renaming p _ j with ⟨i, h⟩ | h
      · -- The files renamed before and those renamed by recovery are together all of them.
        rw [h, recover_marked _ _ _ (markerNames_full hp), renameAll_append]
        refine files_renameAll p _ fun n f => ?_
        rw [mem_append, mem_renames]
        exact ⟨fun hh => hh.elim (fun hh => mem_renames.mp (mem_of_mem_take hh)) id, .inr⟩
      · rw [h]
        exact hall

def stamps : Bytes := [116, 115]

def values : Bytes := [118]

def merged : Partition ℕ :=
  ⟨[⟨stamps, ⟨0, some 10⟩, ⟨1, some 11⟩⟩, ⟨values, ⟨2, some 12⟩, ⟨3, some 13⟩⟩], none⟩

theorem merged_plain : ∀ n ∈ [stamps, values], Plain n := by
  intro n hn
  simp only [mem_cons, not_mem_nil, or_false] at hn
  rcases hn with rfl | rfl <;>
    exact ⟨by decide, by decide, by decide, by decide, by decide⟩

/-- The process dies with all of the marker but the last byte written. -/
theorem swap_crash_atomic_marked : (swapRecover (crashed merged [stamps, values] 5)).files = merged.files ∨
    (swapRecover (crashed merged [stamps, values] 5)).files = merged.swapped [stamps, values] :=
  swap_crash_atomic _ _ 5 rfl merged_plain (.inr (by decide))

/-- The marker has the line of the timestamps only: recovery takes the new files of this column
alone. -/
theorem torn_marker_splits_columns : (crashed merged [stamps, values] 4).marker = some [116, 115, 10] ∧
    (swapRecover (crashed merged [stamps, values] 4)).files = [(stamps, 10, 11), (values, 2, 3)] ∧
    merged.files = [(stamps, 0, 1), (values, 2, 3)] ∧
    merged.swapped [stamps, values] = [(stamps, 10, 11), (values, 12, 13)] := by
  decide

/-! ### Recovery that is itself interrupted -/

section Restart

variable {α : Type*}

def recoverSteps (p : Partition α) : List Step :=
  match p.marker with
  | none => []
  | some bs => ((renames (markerNames bs)).map fun r => .rename r.1 r.2)++[.unlink]

/-- The directory when the process dies with `k` steps of the recovery done. -/
def recoverCrashed (p : Partition α) (k : ℕ) : Partition α := ((recoverSteps p).take k).foldl step p

theorem renameAll_congr (p : Partition α) {a b : List (Bytes × File)} (h : ∀ r, r ∈ a ↔ r ∈ b) :
    p.renameAll a = p.renameAll b := by
  refine congrArg (Partition.mk · p.marker) (map_congr_left fun c _ => ?_)
  obtain ⟨hn, hc, hi⟩ := renameAll_spec a c
  obtain ⟨hn', hc', hi'⟩ := renameAll_spec b c
  simp only [h] at hc hi
  cases ha : c.renameAll a
  cases hb : c.renameAll b
  simp_all

theorem recover_crashed (p : Partition α) (k : ℕ) : swapRecover (recoverCrashed p k) = swapRecover p := by
  cases hm : p.marker with
  | none => simp [recoverCrashed, recoverSteps, hm]
  | some bs =>
    rw [recoverCrashed, recoverSteps, hm]
    by_cases hk : k ≤ (renames (markerNames bs)).length
    · -- the marker is still there, and what was renamed is not renamed again
      simp only
      rw [take_append_of_le_length (by simpa using hk), ← map_take, foldl_renameStep]
      have hall := renameAll_congr p (a := (renames (markerNames bs)).take k++renames (markerNames bs))
        (b := renames (markerNames bs)) fun r => by
          rw [mem_append]
          exact ⟨fun h => h.elim mem_of_mem_take id, .inr⟩
      simp only [swapRecover, Partition.renameAll, hm, foldl_rename] at hall ⊢
      simpa [Column.renameAll, Function.comp_def] using hall
    · simp only
      rw [take_of_length_le (by simp; omega), foldl_append, foldl_renameStep]
      simp [step, swapRecover, hm, foldl_rename]

/-- A recovery that dies after any of its steps, any number of times, and is then run to its end leaves
the partition as one uninterrupted recovery does. -/
theorem recovery_restartable (p : Partition α) (ks : List ℕ) :
    swapRecover (ks.foldl recoverCrashed p) = swapRecover p := by
  induction ks generalizing p with
  | nil => rfl
  | cons k ks ih => exact (ih _).trans (recover_crashed p k)

end Restart

end QEngine.CompactionSwap

import QEngine.BlockFiles
import QEngine.PartitionOpen

/-!
# Reading the columns of a partition

A reader of an open partition takes the blocks of the timestamps as they are,
and for every other column what was found for each of them: a block of the
column, zeros for rows older than the column, or nothing, which is an error.
-/

namespace QEngine.PartitionRead
open List ByteFields AdaptiveCodec IndexFiles ColumnAlignment PartitionOpen BlockFiles

def zeros (type : ColumnType) (n : ℕ) : Values :=
  match type with
  | .symbol => .symbols (List.replicate n 0)
  | _ => .words (List.replicate n 0)

def readSlot (mc : Machine) (type : ColumnType) (file : Bytes) (metas : List Meta) (t : Meta) :
    Slot → Except Err Values
  | .block k =>
    match metas[k]? with
    | some m => partReadBlock mc type file m
    | none => .error .internal
  | .added => .ok (zeros type t.count.toNat)
  | .hole => .error (.codec .corrupt)
  | .mismatch => .error (.codec .corrupt)

def readColumn (mc : Machine) (type : ColumnType) (p : Partition) (ci : ℕ) : Except Err (List Values) :=
  if ci = p.tsIdx then (openTs p).mapM (partReadBlock mc type (p.col ci).data)
  else ((openTs p).zip (columnSlots p ci)).mapM fun r =>
    readSlot mc type (p.col ci).data (openColumn p ci) r.1 r.2

structure Stores (mc : Machine) (c : ColumnFile) (blocks : List Column) : Prop where
  size : c.data.length < 2^64
  count : c.entries.length = blocks.length
  holds : ∀ (j : ℕ) (m : Meta) (b : Column), c.entries[j]? = some m → blocks[j]? = some b →
    Holds mc c.data m b

structure Paired (ts cm : List Meta) : Prop where
  count : cm.length = ts.length
  agree : ∀ (j : ℕ) (c t : Meta), cm[j]? = some c → ts[j]? = some t →
    c.count = t.count ∧ c.tsMin = t.tsMin ∧ c.tsMax = t.tsMax ∧ c.ord = t.ord ∧ t.ord.isSome = true

theorem paired_exact {ts cm : List Meta} (h : Paired ts cm) : exact ts cm = true := by
  rw [exact, Bool.and_eq_true, decide_eq_true_iff, all_eq_true]
  refine ⟨h.count.ge, ?_⟩
  rintro ⟨⟨c, t⟩, b⟩ hr
  rw [mem_zipIdx_iff_getElem?, getElem?_zip_eq_some] at hr
  obtain ⟨hcount, hmin, hmax, hord, hsome⟩ := h.agree b c t hr.1 hr.2
  obtain ⟨v, hv⟩ := Option.isSome_iff_exists.mp hsome
  rw [exactAt, if_neg (by simp [hord, hv, effOrd]), if_neg (by simp [hv]), metaAgrees_iff]
  exact ⟨hcount, hmin, .inr (.inr hmax)⟩

section
variable {mc : Machine} {c : ColumnFile} {blocks : List Column}

theorem stores_at (h : Stores mc c blocks) {j : ℕ} {m : Meta} (hm : c.entries[j]? = some m) :
    ∃ b, blocks[j]? = some b ∧ Holds mc c.data m b := by
  have hj : j < blocks.length := by
    rw [← h.count]
    exact (List.getElem?_eq_some_iff.mp hm).1
  exact ⟨blocks[j], getElem?_eq_getElem hj, h.holds j m _ hm (getElem?_eq_getElem hj)⟩

theorem stores_readable (h : Stores mc c blocks) : c.readable = c.entries := by
  have hin : ∀ m ∈ c.entries, (m.offset+32+m.size.toUInt64).toNat ≤ c.data.length ∧ c.data ≠ [] := by
    intro m hm
    obtain ⟨j, hj⟩ := mem_iff_getElem?.mp hm
    obtain ⟨b, -, hb⟩ := stores_at h hj
    obtain ⟨-, hend, -, hbound⟩ := holds_within hb h.size
    refine ⟨by omega, ?_⟩
    intro hnil
    rw [hnil, length_nil] at hbound
    omega
  rw [ColumnFile.readable]
  split_ifs with hnil
  · exact (eq_nil_iff_forall_not_mem.mpr fun m hm => (hin m hm).2 hnil).symm
  · exact filter_eq_self.mpr fun m hm => decide_eq_true (hin m hm).1

end

theorem mapM_ok {α β ε : Type} {f : α → Except ε β} {xs : List α} {ys : List β} (hl : xs.length = ys.length)
    (h : ∀ (j : ℕ) (x : α), xs[j]? = some x → ∃ y, ys[j]? = some y ∧ f x = .ok y) : xs.mapM f = .ok ys := by
  induction xs generalizing ys with
  | nil =>
    rw [eq_nil_of_length_eq_zero hl.symm]
    rfl
  | cons x xs ih =>
    cases ys with
    | nil => cases hl
    | cons y ys =>
      obtain ⟨z, hz, hx⟩ := h 0 x rfl
      cases hz
      have hxs := ih (Nat.succ.inj hl) fun j a ha => h (j+1) a ha
      rw [mapM_cons, hx, hxs]
      rfl

structure Complete (mc : Machine) (p : Partition) (blocks : ℕ → List Column) : Prop where
  ts : p.tsIdx < p.cols.length
  stores : ∀ (ci : ℕ) (c : ColumnFile), p.cols[ci]? = some c → Stores mc c (blocks ci)
  paired : ∀ (ci : ℕ) (c : ColumnFile), p.cols[ci]? = some c → Paired p.ts.entries c.entries

theorem col_get {p : Partition} {ci : ℕ} (hci : ci < p.cols.length) : p.cols[ci]? = some (p.col ci) := by
  rw [Partition.col, getElem?_eq_getElem hci]
  rfl

section
variable {mc : Machine} {p : Partition} {blocks : ℕ → List Column} (h : Complete mc p blocks)
include h

theorem complete_untorn : Untorn p := by
  intro c hc
  obtain ⟨ci, hci⟩ := mem_iff_getElem?.mp hc
  exact stores_readable (h.stores ci c hci)

variable {ci : ℕ} {type : ColumnType}

theorem complete_slots (hci : ci < p.cols.length) :
    columnSlots p ci = (List.range p.ts.entries.length).map .block := by
  have hu := complete_untorn h
  have hp := h.paired ci _ (col_get hci)
  rw [columnSlots, untorn_openTs hu, untorn_openColumn hu, alignColumn, if_pos (paired_exact hp)]

theorem complete_block (hci : ci < p.cols.length) (ht : ∀ b ∈ blocks ci, b.type = type)
    {j : ℕ} {m : Meta} (hm : (p.col ci).entries[j]? = some m) :
    ∃ v, ((blocks ci).map Column.values)[j]? = some v ∧ partReadBlock mc type (p.col ci).data m = .ok v := by
  have hs := h.stores ci _ (col_get hci)
  obtain ⟨b, hb, hh⟩ := stores_at hs hm
  refine ⟨b.values, by rw [getElem?_map, hb]; rfl, ?_⟩
  rw [← ht b (mem_of_getElem? hb)]
  exact holds_read hh hs.size

theorem complete_read (hci : ci < p.cols.length)
    (ht : ∀ b ∈ blocks ci, b.type = type) :
    readColumn mc type p ci = .ok ((blocks ci).map Column.values) := by
  have hu := complete_untorn h
  have hs := h.stores ci _ (col_get hci)
  have hp := h.paired ci _ (col_get hci)
  have hcount : p.ts.entries.length = ((blocks ci).map Column.values).length := by
    rw [length_map, ← hs.count, hp.count]
  rw [readColumn, untorn_openTs hu]
  split_ifs with hts
  · refine mapM_ok hcount ?_
    intro j m hm
    subst hts
    exact complete_block h hci ht hm
  rw [complete_slots h hci, untorn_openColumn hu]
  refine mapM_ok (by simpa using hcount) ?_
  rintro j ⟨t, slot⟩ hr
  rw [getElem?_zip_eq_some, getElem?_map] at hr
  obtain ⟨hj, hslot⟩ := hr
  have hlt : j < p.ts.entries.length := (List.getElem?_eq_some_iff.mp hj).1
  rw [getElem?_range hlt, Option.map_some] at hslot
  cases hslot
  have hm : (p.col ci).entries[j]? = some _ := getElem?_eq_getElem (by rw [hp.count]; exact hlt)
  rw [readSlot, hm]
  exact complete_block h hci ht hm

end

end QEngine.PartitionRead

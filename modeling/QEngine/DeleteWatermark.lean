import QEngine.PartitionNames

/-!
# What DELETE leaves

A delete removes the rows of the partitions that lie in its range, rows of the
memtable included, and no others. The watermark it records is the threshold,
although rows below it stay in a partition that the threshold cuts.
-/

namespace QEngine.DeleteWatermark
open List RedoLog RedoRecovery RedoVisibility RangeDelete

def watermark (c : Cut) : ℤ := if c.inclusive then PartitionNames.wrap (c.cutoff+1) else c.cutoff

def delwmBump (old w : ℤ) : ℤ := if w ≤ 0 then old else if w ≤ old then old else w

def deleteMarked (sc : Schema) (c : Cut) (e : FlushEnd) (d : Store) (t : Table) (wm : ℤ) : Outcome × ℤ :=
  match deleteRange sc c e d t with
  | .ok d t => (.ok d t, if c.opLt then delwmBump wm (watermark c) else wm)
  | o => (o, wm)

section
variable {u : PartitionUnit} {c : Cut}

theorem named_nonneg {ts : ℤ} (h : 0 ≤ ts) : Named u ts := by
  rw [Named, partIndex_eq, partName, Int.tdiv_eq_ediv_of_nonneg h]
  cases u <;> simp only [RangeDelete.span, PartitionUnit.seconds] <;> omega

/-- A partition is kept when the threshold cuts it or it lies behind. -/
theorem kept_iff {ts : ℤ} (hc : -2^63 ≤ c.cutoff ∧ c.cutoff < 2^63) (ho : c.opLt = true)
    (h0 : 0 < watermark c) :
    deletes u c ts = false ↔ watermark c/RangeDelete.span u*RangeDelete.span u ≤ ts := by
  simp only [watermark, PartitionNames.wrap, deletes, partFullyCovered, tsPartRange, partDirRange,
    partIndex_eq, ho] at *
  cases u <;> simp only [RangeDelete.span, PartitionUnit.seconds] at * <;> split_ifs at * <;> simp at * <;>
    omega

variable {e : FlushEnd} {sc : Schema} {parts : List Part} {rows : List Row}

theorem partRows_removed (h : Filed u parts) :
    partRows (parts.filter fun p => !covered u c p) = (partRows parts).filter fun r => !deletes u c r.ts := by
  induction parts with
  | nil => rfl
  | cons p ps ih =>
    obtain ⟨hp, hs⟩ := forall_mem_cons.mp h
    have hd : ∀ r ∈ p.rows, (!deletes u c r.ts) = !covered u c p := fun r hr => by
      rw [deletes, tsPartRange, hp r hr, covered]
    simp only [partRows, flatMap_cons, filter_append, filter_congr hd, filter_cons] at *
    rw [← ih hs]
    cases covered u c p <;> simp

theorem materialise_kept {d d' : Store} {t t' : Table}
    (hz : ∀ r ∈ t.memtable, 0 ≤ r.ts) (hf : Filed sc.unit d.parts) (h : materialise sc c e d t = .ok d' t') :
    (visible sc d' (some t')).Perm (visible sc d (some t)) ∧ Filed sc.unit d'.parts ∧
      ∀ r ∈ t'.memtable, deletes sc.unit c r.ts = false := by
  rw [materialise] at h
  split_ifs at h with hm
  · rw [flushAndClear] at h
    split at h
    · next h0 =>
      cases h
      exact ⟨.refl _, hf, by simp [h0]⟩
    split at h
    · cases h
    cases e with
    | done =>
      cases h
      refine ⟨?_, publishDays_filed (fun r hr => named_nonneg (hz r hr)) hf, by simp⟩
      have hp := publishDays_rows sc t.commitSeq t.memtable d.parts (days_nodup sc t.memtable)
      rw [filter_eq_self.mpr fun r hr => decide_eq_true ((mem_days sc _ _).mpr ⟨r, hr, rfl⟩)] at hp
      simpa [visible] using hp
    | _ => cases h
  · cases h
    exact ⟨.refl _, hf, memtable_kept (Bool.eq_false_iff.mpr hm)⟩

/-- A delete that moves the watermark finds no row before the threshold in the partition it cuts. -/
def Uncut (u : PartitionUnit) (c : Cut) (wm : ℤ) (rows : List Row) : Prop :=
  c.opLt = true → 0 < watermark c → wm < watermark c →
    ∀ r ∈ rows, watermark c/RangeDelete.span u*RangeDelete.span u ≤ r.ts → watermark c ≤ r.ts

instance (u : PartitionUnit) (c : Cut) (wm : ℤ) (rows : List Row) : Decidable (Uncut u c wm rows) :=
  inferInstanceAs (Decidable (_ → _ → _ → ∀ r ∈ rows, _ → _))

/-- The visible rows of a successful delete, whatever the threshold. -/
theorem deleteMarked_ok {d d' : Store} {t t' : Table} {wm wm' : ℤ}
    (hz : ∀ r ∈ visible sc d (some t), 0 ≤ r.ts) (hf : Filed sc.unit d.parts)
    (h : deleteMarked sc c e d t wm = (.ok d' t', wm')) :
    (visible sc d' (some t')).Perm ((visible sc d (some t)).filter fun r => !deletes sc.unit c r.ts) ∧
      wm' = if c.opLt then delwmBump wm (watermark c) else wm := by
  rw [deleteMarked, deleteRange] at h
  cases hm : materialise sc c e d t with
  | ok d1 t1 =>
    simp only [hm, Prod.mk.injEq, Outcome.ok.injEq] at h
    obtain ⟨⟨rfl, rfl⟩, rfl⟩ := h
    obtain ⟨hp, hf', hk⟩ := materialise_kept (fun r hr => hz r (mem_append_right _ hr)) hf hm
    have hv : visible sc (removeParts (covered sc.unit c) d1) (some t1) =
        (visible sc d1 (some t1)).filter fun r => !deletes sc.unit c r.ts := by
      have hmem : (t1.memtable.filter fun r => !deletes sc.unit c r.ts) = t1.memtable :=
        filter_eq_self.mpr fun r hr => by simp [hk r hr]
      rw [visible, visible, filter_append, hmem, removeParts, partRows_removed hf']
    rw [hv]
    exact ⟨hp.filter _, rfl⟩
  | _ => simp [hm] at h

theorem bumped_iff {wm : ℤ} : (if c.opLt then delwmBump wm (watermark c) else wm) ≠ wm ↔
    c.opLt = true ∧ 0 < watermark c ∧ wm < watermark c := by
  unfold delwmBump
  by_cases ho : c.opLt = true
  · rw [if_pos ho]
    split_ifs with h0 h1 <;> simp only [ho, true_and] <;> omega
  · simp [ho]

end

end QEngine.DeleteWatermark

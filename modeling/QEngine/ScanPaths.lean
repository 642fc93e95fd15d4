import QEngine.SourceScans

/-!
# Paths of a query

A path of the executor leaves its condition and the skipping of blocks open; with both it is an
executor over the plan of a table. A plan holds blocks of the table and its memtable.
-/

namespace QEngine.ScanPaths
open List QueryTables WhereFilters SourceScans

/-- An executor that leaves its condition and its skips open. What is stored
beside a block is used only without a condition. -/
structure Path {n : ℕ} (s : Schema n) (σ α : Type) where
  done : σ → Bool
  shortcut : σ → Source s → Option σ
  reads : Fin n → Bool
  report : Failure → Failure
  take : σ → List (Row n) → List Bool → Except Failure σ
  start : σ
  finish : σ → Except Failure α

section Paths

variable {n : ℕ} {s : Schema n} {σ α : Type}

def Path.executor (x : Path s σ α) (k : Skips) (cond : Option Expr) : Executor s σ α where
  done := x.done
  skip := k.block cond
  shortcut st src := if cond.isSome then none else x.shortcut st src
  need c := x.reads c || condCols s cond c
  cond := cond
  report := x.report
  take := x.take
  prune := k.prune s cond
  backwards := false
  start := x.start
  finish := x.finish

theorem scanPlan_mem {t : Table s} {rg : TsRange} {bs : List (Source s)} (h : scanPlanBuild t rg = .ok bs)
    {b : Source s}
    (hb : b ∈ bs) : (∃ part ∈ t.partitions, b ∈ part.blocks) ∨ b.mem = true := by
  obtain ⟨rows, -, rfl⟩ := map_ok_iff.mp h
  rcases mem_append.mp hb with hb | hb
  · obtain ⟨part, hpart, hb⟩ := mem_flatMap.mp hb
    have hin : part ∈ t.partitions := by
      rw [listPartitions] at hpart
      split at hpart
      · exact hpart
      · exact absurd hpart not_mem_nil
    have hblock : b ∈ part.blocks := by
      rw [planPart] at hb
      split at hb
      · exact absurd hb not_mem_nil
      split at hb
      · exact absurd hb not_mem_nil
      split at hb
      · exact absurd hb not_mem_nil
      · exact hb
    exact .inl ⟨part, hin, hblock⟩
  · cases rows with
    | nil => exact absurd hb not_mem_nil
    | cons q qs => exact .inr (by rw [mem_singleton.mp hb]; rfl)

end Paths

end QEngine.ScanPaths

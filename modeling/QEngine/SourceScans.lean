import QEngine.WhereFilters

/-!
# Scans over the sources of a plan

Every way to execute a query walks over the sources in one loop: it stops when it
has enough, passes over a source it may skip, answers from what is stored beside a
block if it can, and otherwise loads the columns, applies the condition and takes
up the block with its bitmap.
-/

namespace QEngine.SourceScans
open Bool List QueryTables WhereFilters

/-- The parts of an executor's loop; `report` is what it makes of an error of
the condition. -/
structure Scan {n : ℕ} (s : Schema n) (σ : Type) where
  done : σ → Bool
  skip : Source s → Bool
  shortcut : σ → Source s → Option σ
  need : Fin n → Bool
  cond : Option Expr
  report : Failure → Failure
  take : σ → List (Row n) → List Bool → Except Failure σ

structure Executor {n : ℕ} (s : Schema n) (σ α : Type) extends Scan s σ where
  prune : TsRange
  backwards : Bool
  start : σ
  finish : σ → Except Failure α

section Running

variable {n : ℕ} {s : Schema n} {σ α : Type}

def bitmap (s : Schema n) (junk : UInt64) (cond : Option Expr) (rows : List (Row n)) :
    Except Failure (List Bool) :=
  match cond with
  | none => .ok (rows.map fun _ => true)
  | some e => applyFilterExpr s junk rows e (rows.map fun _ => true)

def scanSource (junk : UInt64) (x : Scan s σ) (st : σ) (src : Source s) : Except Failure σ :=
  if x.done st then .ok st
  else if x.skip src then .ok st
  else
    match x.shortcut st src with
    | some st' => .ok st'
    | none => do
      loadCols x.need src
      let bm ← (bitmap s junk x.cond src.rows).mapError x.report
      x.take st src.rows bm

def scanSources (junk : UInt64) (x : Scan s σ) (st : σ) (srcs : List (Source s)) : Except Failure σ :=
  srcs.foldlM (scanSource junk x) st

def Executor.run (junk : UInt64) (x : Executor s σ α) (t : Table s) : Except Failure α := do
  let srcs ← scanPlanBuild t x.prune
  let st ← scanSources junk x.toScan x.start (if x.backwards then srcs.reverse else srcs)
  x.finish st

def condCols (s : Schema n) (cond : Option Expr) (c : Fin n) : Bool :=
  cond.any fun e => e.idents.any fun name => resolveCol s name = some c

def kept (s : Schema n) (junk : UInt64) : Option Expr → Except Failure (Row n → Bool)
  | none => .ok fun _ => true
  | some e => accepts s junk e

variable {junk : UInt64}

theorem bitmap_eq (cond : Option Expr) (rows : List (Row n)) :
    bitmap s junk cond rows = (kept s junk cond).map fun p => rows.map p := by
  cases cond with
  | none => rfl
  | some e =>
    rw [bitmap, applyFilterExpr_eq]
    simp only [Bool.true_and, kept]

theorem bind_ok_iff {β γ : Type} {x : Except Failure β} {f : β → Except Failure γ} {c : γ} :
    (x >>= f) = .ok c ↔ ∃ b, x = .ok b ∧ f b = .ok c := by
  cases x with
  | error e => exact ⟨fun h => absurd h (by simp [bind, Except.bind]), fun ⟨_, h, _⟩ => absurd h (by simp)⟩
  | ok b => exact ⟨fun h => ⟨b, rfl, h⟩, fun ⟨_, h, hf⟩ => Except.ok.inj h ▸ hf⟩

theorem map_ok_iff {β γ : Type} {x : Except Failure β} {f : β → γ} {c : γ} :
    x.map f = .ok c ↔ ∃ b, x = .ok b ∧ f b = c := by
  cases x <;> simp [Except.map]

variable {x : Scan s σ} {src : Source s}

variable {st : σ}

variable {st' : σ}

theorem scanSource_ok (h : scanSource junk x st src = .ok st') : (x.done st = true ∧ st' = st) ∨
    (x.done st = false ∧ x.skip src = true ∧ st' = st) ∨
    (x.done st = false ∧ x.skip src = false ∧ x.shortcut st src = some st') ∨
    (x.done st = false ∧ x.skip src = false ∧ x.shortcut st src = none ∧ loadCols x.need src = .ok () ∧
      ∃ p, kept s junk x.cond = .ok p ∧ x.take st src.rows (src.rows.map p) = .ok st') := by
  unfold scanSource at h
  cases hd : x.done st with
  | true =>
    rw [hd, if_pos rfl] at h
    exact .inl ⟨rfl, (Except.ok.inj h).symm⟩
  | false =>
    rw [hd, if_neg (by decide)] at h
    cases hk : x.skip src with
    | true =>
      rw [hk, if_pos rfl] at h
      exact .inr (.inl ⟨rfl, rfl, (Except.ok.inj h).symm⟩)
    | false =>
      rw [hk, if_neg (by decide)] at h
      cases hc : x.shortcut st src with
      | some y =>
        rw [hc] at h
        exact .inr (.inr (.inl ⟨rfl, rfl, by rw [Except.ok.inj h]⟩))
      | none =>
        rw [hc] at h
        obtain ⟨u, hu, h⟩ := bind_ok_iff.mp h
        obtain ⟨bm, hb, h⟩ := bind_ok_iff.mp h
        rw [bitmap_eq] at hb
        cases hp : kept s junk x.cond with
        | error f => rw [hp] at hb; simp [Except.map, Except.mapError] at hb
        | ok p =>
          rw [hp] at hb
          cases hb
          exact .inr (.inr (.inr ⟨rfl, rfl, rfl, hu, p, rfl, h⟩))

theorem scanSource_done (hd : x.done st = true) : scanSource junk x st src = .ok st := by
  rw [scanSource, hd, if_pos rfl]

theorem scanSource_shortcut (hd : x.done st = false)
    (hk : x.skip src = false) (hc : x.shortcut st src = some st') : scanSource junk x st src = .ok st' := by
  rw [scanSource, hd, hk, hc, if_neg (by decide), if_neg (by decide)]

variable {p : Row n → Bool}

theorem scanSource_taken (hd : x.done st = false) (hk : x.skip src = false) (hc : x.shortcut st src = none)
    (hl : loadCols x.need src = .ok ()) (hp : kept s junk x.cond = .ok p) :
    scanSource junk x st src = x.take st src.rows (src.rows.map p) := by
  rw [scanSource, hd, hk, hc, if_neg (by decide), if_neg (by decide), hl, bitmap_eq, hp]
  rfl

theorem scanSources_cons {srcs : List (Source s)} :
    scanSources junk x st (src::srcs) = scanSource junk x st src >>= fun st' => scanSources junk x st' srcs :=
  foldlM_cons

end Running

/-! ### Skipping -/

/-- What may be left out: partitions by their zone, blocks by their times and
by their filters. -/
structure Skips where
  zone : Bool
  range : Bool
  bloom : Bool
  deriving DecidableEq

section Skipping

variable {n : ℕ} {s : Schema n}

def Skips.prune (k : Skips) (s : Schema n) (cond : Option Expr) : TsRange :=
  if k.zone then tsBounds s cond else TsRange.all

def Skips.block (k : Skips) (cond : Option Expr) (src : Source s) : Bool :=
  (k.range && rangeSkips cond src) || (k.bloom && bloomSkips cond src)

theorem rangeSkips_free (src : Source s) : rangeSkips none src = false := rfl

theorem bloomSkips_free (src : Source s) : bloomSkips none src = false := by
  rw [bloomSkips]
  exact and_false _

theorem Skips.block_free (k : Skips) (src : Source s) : k.block none src = false := by
  rw [Skips.block, rangeSkips_free, bloomSkips_free, Bool.and_false, Bool.and_false]
  rfl

theorem Skips.prune_free (k : Skips) (s : Schema n) : k.prune s none = TsRange.all := by
  rw [Skips.prune]
  exact ite_self _

end Skipping

end QEngine.SourceScans

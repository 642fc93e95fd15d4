import Mathlib.Data.List.Sublists

/-!
# Pulling from the candidates of a table

A table that may be behind its replicas is measured again before each peer is asked
and after it, since the pull changes it. The measurements and the pulls are callbacks
over a state of their own.
-/

namespace QEngine.CandidatePulls
open List

inductive AeAction where
  | upToDate
  | tailPull
  | fullPull
  | skipUnsafe
  deriving DecidableEq

structure AeCand where
  nodeId : ℕ
  count : ℕ
  maxTs : ℤ

def implausibleCount : ℕ := 100000000000

def antientropyDecide (localCount : ℕ) (localMaxTs : ℤ) (bestCount : ℕ) (bestMaxTs : ℤ) : AeAction :=
  if localMaxTs < bestMaxTs then .tailPull
  else if bestCount ≤ localCount then .upToDate
  else if implausibleCount ≤ bestCount then .skipUnsafe
  else if 0 < localCount then .skipUnsafe
  else .fullPull

structure AeDriver (σ : Type) where
  nowMs : Option (σ → ℤ × σ)
  budgetMs : ℤ
  localStats : σ → Option (ℕ × ℤ) × σ
  attempt : AeCand → AeAction → ℤ → σ → ℤ × σ

structure AeRun where
  visited : ℕ
  pulls : ℕ
  rows : ℕ
  chosen : ℕ
  hardErr : Bool
  budgetHit : Bool

structure Attempt where
  cand : AeCand
  act : AeAction
  before : ℕ
  after : Option ℕ

variable {σ : Type} (drv : AeDriver σ)

def clock (s : σ) : ℤ × σ := (drv.nowMs.map fun now => now s).getD (0, s)

def overBudget (startMs : ℤ) (s : σ) : Bool × σ :=
  if 0 < drv.budgetMs ∧ drv.nowMs.isSome then
    let (now, s) := clock drv s
    (drv.budgetMs ≤ now-startMs, s)
  else (false, s)

def noteAttempt (act : AeAction) (rc : ℤ) (out : AeRun) : AeRun := { out with
  visited := out.visited+1
  pulls := if act = .tailPull ∨ act = .fullPull then out.pulls+1 else out.pulls
  hardErr := out.hardErr || rc < 0 }

def runFrom (startMs : ℤ) : List AeCand → σ → AeRun → AeRun × List Attempt
  | [], _, out => (out, [])
  | c::cs, s, out =>
    let (late, s) := overBudget drv startMs s
    if late then ({ out with budgetHit := true }, [])
    else
      match drv.localStats s with
      | (none, _) => ({ out with hardErr := true }, [])
      | (some (before, beforeTs), s) =>
        let act := antientropyDecide before beforeTs c.count c.maxTs
        if act = .upToDate then runFrom startMs cs s out
        else
          let (rc, s) := drv.attempt c act (if act = .fullPull then 0 else beforeTs) s
          let out := noteAttempt act rc out
          match drv.localStats s with
          | (none, _) => ({ out with hardErr := true }, [⟨c, act, before, none⟩])
          | (some (after, _), s) =>
            if before < after then
              ({ out with rows := after-before, chosen := c.nodeId }, [⟨c, act, before, some after⟩])
            else
              let (out, rest) := runFrom startMs cs s out
              (out, ⟨c, act, before, some after⟩::rest)

def antientropyRunCandidates (cs : List AeCand) (s : σ) : AeRun × List Attempt :=
  let (startMs, s) := clock drv s
  runFrom drv startMs cs s ⟨0, 0, 0, 0, false, false⟩

theorem fullPull_empty {n m : ℕ} {a b : ℤ} (h : antientropyDecide n a m b = .fullPull) : n = 0 := by
  unfold antientropyDecide at h
  split_ifs at h
  omega

def Attempt.Vain (a : Attempt) : Prop := a.after.all (· ≤ a.before)

structure Guarded (cs : List AeCand) (tr : List Attempt) : Prop where
  empty : ∀ a ∈ tr, a.act = .fullPull → a.before = 0
  once : tr.map Attempt.cand <+ cs
  vain : tr.Pairwise fun a _ => a.Vain

section
variable {c : AeCand} {cs : List AeCand} {tr : List Attempt} {a : Attempt}

theorem guarded_nil : Guarded cs [] := ⟨by simp, nil_sublist cs, .nil⟩

theorem Guarded.pass (h : Guarded cs tr) : Guarded (c::cs) tr := ⟨h.empty, h.once.cons c, h.vain⟩

theorem Guarded.cons (h : Guarded cs tr) (he : a.act = .fullPull → a.before = 0) (ht : tr = [] ∨ a.Vain) :
    Guarded (a.cand::cs) (a::tr) where
  empty := forall_mem_cons.mpr ⟨he, h.empty⟩
  once := h.once.cons_cons _
  vain := pairwise_cons.mpr ⟨fun _ hb => ht.resolve_left (ne_nil_of_mem hb), h.vain⟩

theorem runFrom_guarded (startMs : ℤ) (s : σ) (out : AeRun) :
    Guarded cs (runFrom drv startMs cs s out).2 := by
  induction cs generalizing s out with
  | nil => exact guarded_nil
  | cons c cs ih =>
    rw [runFrom]
    dsimp only
    split
    · exact guarded_nil
    split
    · exact guarded_nil
    split
    · exact (ih _ _).pass
    split
    · exact guarded_nil.cons (a := ⟨_, _, _, _⟩) fullPull_empty (.inl rfl)
    split
    · exact guarded_nil.cons (a := ⟨_, _, _, _⟩) fullPull_empty (.inl rfl)
    · exact (ih _ _).cons (a := ⟨_, _, _, _⟩) fullPull_empty (.inr (decide_eq_true (not_lt.mp ‹_›)))

end

/-- A full pull is only made into an empty table, each candidate is tried at most once and in order, and
a further candidate is only tried after an attempt in vain. -/
theorem pulls_guarded (cs : List AeCand) (s : σ) :
    let tr := (antientropyRunCandidates drv cs s).2
    (∀ a ∈ tr, a.act = .fullPull → a.before = 0) ∧ tr.map Attempt.cand <+ cs ∧
      tr.Pairwise fun a _ => a.Vain :=
  let h := runFrom_guarded drv (clock drv s).1 (clock drv s).2 ⟨0, 0, 0, 0, false, false⟩
  ⟨h.empty, h.once, h.vain⟩

end QEngine.CandidatePulls

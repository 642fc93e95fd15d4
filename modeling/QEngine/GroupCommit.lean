import QEngine.StepRuns

/-!
# Group commit

Writers append under a lock and wait for a background thread that makes one fsync for
all of them. At shutdown a last fsync is made whose result nobody looks at.
-/

namespace QEngine.GroupCommit
open Function StepRuns

inductive Bg where
  | loop
  | captured (target : ℕ)
  | syncing (target started : ℕ)
  | draining
  | finalSync (started : ℕ)
  | stopped
  deriving DecidableEq

inductive Call where
  | fresh
  | waiting (seq : ℕ)
  | returned (seq : ℕ) (ok : Bool)
  deriving DecidableEq

/-- History: `synced` records were appended when the latest successful fsync began. -/
structure State where
  writeSeq : ℕ
  fsyncedSeq : ℕ
  stop : Bool
  lastOk : Bool
  bg : Bg
  calls : ℕ → Call
  synced : ℕ

inductive Event where
  | append (i : ℕ) (ok : Bool)
  | wake (i : ℕ)
  | capture
  | fsync
  | publish (ok : Bool)
  | stop
  | drain
  | finish (ok : Bool)
  deriving DecidableEq

def step (s : State) : Event → Option State
  | .append i ok =>
    if s.calls i ≠ .fresh then none
    else if s.stop ∨ ok = false then some { s with calls := update s.calls i (.returned 0 false) }
    else some { s with
      writeSeq := s.writeSeq+1
      calls := update s.calls i (.waiting (s.writeSeq+1)) }
  | .wake i =>
    match s.calls i with
    | .waiting seq =>
      if s.fsyncedSeq < seq ∧ s.bg ≠ .stopped then none
      else some { s with calls := update s.calls i (.returned seq s.lastOk) }
    | _ => none
  | .capture =>
    if s.bg = .loop ∧ s.stop = false ∧ s.writeSeq ≠ s.fsyncedSeq then
      some { s with bg := .captured s.writeSeq }
    else none
  | .fsync =>
    match s.bg with
    | .captured target => some { s with bg := .syncing target s.writeSeq }
    -- left out by the source if there is no record at all
    | .draining => some { s with bg := .finalSync s.writeSeq }
    | _ => none
  | .publish ok =>
    match s.bg with
    | .syncing target started => some { s with
      fsyncedSeq := max target s.fsyncedSeq
      lastOk := ok
      bg := .loop
      synced := if ok then started else s.synced }
    | _ => none
  | .stop => some { s with stop := true }
  | .drain => if s.bg = .loop ∧ s.stop then some { s with bg := .draining } else none
  | .finish ok =>
    match s.bg with
    | .finalSync started => some { s with
      fsyncedSeq := s.writeSeq
      bg := .stopped
      synced := if ok then started else s.synced }
    | _ => none

def start : State := ⟨0, 0, false, true, .loop, fun _ => .fresh, 0⟩

/-- The last fsync fails only if the waiters get an earlier error, or nothing was left to sync. -/
def Drains (s : State) (e : Event) : Prop := e = .finish false → s.lastOk = true → s.writeSeq ≤ s.synced

instance (s : State) (e : Event) : Decidable (Drains s e) :=
  inferInstanceAs (Decidable (e = .finish false → s.lastOk = true → s.writeSeq ≤ s.synced))

def BgInv (s : State) : Prop :=
  match s.bg with
  | .loop => True
  | .captured target => s.fsyncedSeq ≤ target ∧ target ≤ s.writeSeq
  | .syncing target started =>
    s.fsyncedSeq ≤ target ∧ target ≤ started ∧ s.synced ≤ started ∧ started ≤ s.writeSeq
  | .draining => s.stop = true
  | .finalSync started => s.stop = true ∧ started = s.writeSeq
  | .stopped => s.stop = true ∧ (s.lastOk = true → s.writeSeq ≤ s.synced)

def CallInv (written synced : ℕ) : Call → Prop
  | .fresh => True
  | .waiting seq => seq ≤ written
  | .returned seq ok => ok = true → seq ≤ synced

structure Inv (s : State) : Prop where
  synced : s.synced ≤ s.writeSeq
  published : s.fsyncedSeq ≤ s.writeSeq
  covered : s.lastOk = true → s.fsyncedSeq ≤ s.synced
  bg : BgInv s
  calls : ∀ i, CallInv s.writeSeq s.synced (s.calls i)

theorem callInv_mono {w w' y y' : ℕ} (hw : w ≤ w') (hy : y ≤ y') {c : Call} (h : CallInv w y c) :
    CallInv w' y' c := by
  cases c with
  | fresh => trivial
  | waiting seq => exact le_trans h hw
  | returned seq ok => exact fun hok => le_trans (h hok) hy

theorem calls_update {w w' y : ℕ} {calls : ℕ → Call} (hw : w ≤ w') (h : ∀ i, CallInv w y (calls i)) (i : ℕ)
    {c : Call} (hc : CallInv w' y c) (j : ℕ) : CallInv w' y (update calls i c j) := by
  by_cases hj : j = i
  · rw [hj, update_self]
    exact hc
  · rw [update_of_ne hj]
    exact callInv_mono hw le_rfl (h j)

variable {s t : State}

variable {ok : Bool}

theorem inv_append (h : Inv s) {i : ℕ} (hs : step s (.append i ok) = some t) : Inv t := by
  simp only [step] at hs
  split_ifs at hs with hf hstop
  · cases hs
    exact { h with calls := calls_update le_rfl h.calls i nofun }
  cases hs
  refine ⟨Nat.le_succ_of_le h.synced, Nat.le_succ_of_le h.published, h.covered, ?_,
    calls_update (Nat.le_succ _) h.calls i (Nat.le_refl _)⟩
  have hb := h.bg
  unfold BgInv at hb ⊢
  split at hb <;> simp_all <;> omega

theorem inv_wake (h : Inv s) {i : ℕ} (hs : step s (.wake i) = some t) : Inv t := by
  simp only [step] at hs
  split at hs
  · rename_i seq hw
    split_ifs at hs with hwait
    cases hs
    refine { h with calls := calls_update le_rfl h.calls i fun hok => ?_ }
    have hseq := h.calls i
    rw [hw] at hseq
    by_cases hf : seq ≤ s.fsyncedSeq
    · exact le_trans hf (h.covered hok)
    have hb := h.bg
    rw [BgInv, not_not.mp fun hn => hwait ⟨by omega, hn⟩] at hb
    exact le_trans hseq (hb.2 hok)
  · cases hs

theorem inv_publish (h : Inv s) (hs : step s (.publish ok) = some t) : Inv t := by
  simp only [step] at hs
  split at hs
  · rename_i target started hbg
    have hb := h.bg
    rw [BgInv, hbg] at hb
    obtain ⟨h1, h2, h3, h4⟩ := hb
    cases hs
    cases ok with
    | false => exact ⟨h.synced, by dsimp only; omega, nofun, trivial, h.calls⟩
    | true => exact ⟨h4, by dsimp only; omega, fun _ => max_le h2 (le_trans h1 h2), trivial,
      fun i => callInv_mono le_rfl h3 (h.calls i)⟩
  · cases hs

theorem inv_finish (h : Inv s) (hd : Drains s (.finish ok)) (hs : step s (.finish ok) = some t) : Inv t := by
  simp only [step] at hs
  split at hs
  · rename_i started hbg
    have hb := h.bg
    rw [BgInv, hbg] at hb
    obtain ⟨h1, rfl⟩ := hb
    cases hs
    cases ok with
    | false => exact ⟨h.synced, le_rfl, hd rfl, ⟨h1, hd rfl⟩, h.calls⟩
    | true =>
      exact ⟨le_rfl, le_rfl, fun _ => le_rfl, ⟨h1, fun _ => le_rfl⟩,
        fun i => callInv_mono le_rfl h.synced (h.calls i)⟩
  · cases hs

theorem inv_step (s : State) (e : Event) (t : State) (h : Inv s) (hd : Drains s e)
    (hs : step s e = some t) : Inv t := by
  have hb := h.bg
  cases e with
  | append i ok => exact inv_append h hs
  | wake i => exact inv_wake h hs
  | publish ok => exact inv_publish h hs
  | finish ok => exact inv_finish h hd hs
  | capture =>
    simp only [step] at hs
    split_ifs at hs
    cases hs
    exact { h with bg := ⟨h.published, le_rfl⟩ }
  | fsync =>
    simp only [step] at hs
    split at hs
    · rename_i target hbg
      rw [BgInv, hbg] at hb
      cases hs
      exact { h with bg := ⟨hb.1, hb.2, h.synced, le_rfl⟩ }
    · rename_i hbg
      rw [BgInv, hbg] at hb
      cases hs
      exact { h with bg := ⟨hb, rfl⟩ }
    · cases hs
  | stop =>
    cases hs
    refine { h with bg := ?_ }
    unfold BgInv at hb ⊢
    split at hb <;> simp_all
  | drain =>
    simp only [step] at hs
    split_ifs at hs with hd
    cases hs
    exact { h with bg := hd.2 }

/-- A call returns TSDB_OK only if an fsync that began after its append has succeeded. -/
theorem acked_records_synced (es : List Event) (s : State) (hr : run step start es = some s)
    (hd : Along step Drains start es) (i seq : ℕ) (h : s.calls i = .returned seq true) : seq ≤ s.synced := by
  have hstart : Inv start := ⟨le_rfl, le_rfl, fun _ => le_rfl, trivial, fun _ => trivial⟩
  have hc := (run_invariant Inv inv_step es _ s hstart hd hr).calls i
  rw [h] at hc
  exact hc rfl

def oneCall : List Event := [.append 0 true, .capture, .fsync, .publish true, .wake 0]

theorem acked_records_synced_one :
    ∃ s, run step start oneCall = some s ∧ s.calls 0 = .returned 1 true ∧ 1 ≤ s.synced := by
  obtain ⟨s, hs, hc⟩ := run_reaches step start oneCall (fun s => s.calls 0 = .returned 1 true) (by decide)
  exact ⟨s, hs, hc, acked_records_synced oneCall s hs (by decide) 0 1 hc⟩

/-- The fsync at shutdown fails, and the writer is told that its record is durable. -/
theorem failed_drain_acked :
    ∃ s, run step start [.append 0 true, .stop, .drain, .fsync, .finish false, .wake 0] = some s ∧
    s.calls 0 = .returned 1 true ∧ s.synced = 0 :=
  run_reaches step start _ (fun s => s.calls 0 = .returned 1 true ∧ s.synced = 0) (by decide)

end QEngine.GroupCommit

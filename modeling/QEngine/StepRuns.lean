import Mathlib.Tactic

/-!
# Runs of a partial step function

A run is a list of actions taken one after another, each enabled in the state it is
taken in. The ghost rule carries history that the states themselves do not store.
-/

namespace QEngine.StepRuns
open Option List

variable {S A H : Type*} (step : S → A → Option S)

def run : S → List A → Option S
  | s, [] => some s
  | s, a::as => (step s a).bind (fun s' => run s' as)

/-- Every step of the run meets `ok` in the state it is taken in. -/
def Along (ok : S → A → Prop) : S → List A → Prop
  | _, [] => True
  | s, a::as => ok s a ∧ (step s a).elim True (fun s' => Along ok s' as)

/-- Every state of the run meets `P`. -/
def Throughout (P : S → Prop) : S → List A → Prop
  | s, [] => P s
  | s, a::as => P s ∧ (step s a).elim True (fun s' => Throughout P s' as)

instance decidableElim (o : Option S) (P : S → Prop) [∀ s, Decidable (P s)] : Decidable (o.elim True P) :=
  match o with
  | none => isTrue trivial
  | some s => inferInstanceAs (Decidable (P s))

instance decidableAlong (ok : S → A → Prop) [∀ s a, Decidable (ok s a)] :
    ∀ (s : S) (as : List A), Decidable (Along step ok s as)
  | _, [] => isTrue trivial
  | s, a::as =>
    haveI : ∀ s', Decidable (Along step ok s' as) := fun s' => decidableAlong ok s' as
    inferInstanceAs (Decidable (ok s a ∧ (step s a).elim True (fun s' => Along step ok s' as)))

variable {step}

variable {as : List A}

theorem run_cons {s s' : S} {a : A} (h : run step s (a::as) = some s') :
    ∃ t, step s a = some t ∧ run step t as = some s' :=
  bind_eq_some_iff.mp h

variable {ok : S → A → Prop}

theorem along_cons {s t : S} {a : A}
    (h : Along step ok s (a::as)) (ht : step s a = some t) : ok s a ∧ Along step ok t as := by
  refine ⟨h.1, ?_⟩
  have h2 := h.2
  rw [ht] at h2
  exact h2

theorem along_all (h : ∀ s a, ok s a) (s : S) (as : List A) : Along step ok s as := by
  induction as generalizing s with
  | nil => trivial
  | cons a as ih =>
    refine ⟨h s a, ?_⟩
    cases step s a with
    | none => trivial
    | some t => exact ih t

theorem run_append (s : S) (as bs : List A) :
    run step s (as++bs) = (run step s as).bind (fun t => run step t bs) := by
  induction as generalizing s with
  | nil => rfl
  | cons a as ih =>
    simp only [cons_append, run, bind_assoc]
    exact congrArg _ (funext ih)

theorem along_append {s t : S} {bs : List A} (h : Along step ok s (as++bs))
    (hr : run step s as = some t) : Along step ok s as ∧ Along step ok t bs := by
  induction as generalizing s with
  | nil =>
    cases hr
    exact ⟨trivial, h⟩
  | cons a as ih =>
    obtain ⟨u, hu, hr'⟩ := run_cons hr
    obtain ⟨hok, hrest⟩ := along_cons h hu
    obtain ⟨ha, hb⟩ := ih hrest hr'
    refine ⟨⟨hok, ?_⟩, hb⟩
    rw [hu]
    exact ha

variable (step) in
theorem run_reaches (s : S) (as : List A) (P : S → Prop) [DecidablePred P]
    (h : (run step s as).any (fun t => decide (P t)) = true) : ∃ t, run step s as = some t ∧ P t := by
  obtain ⟨t, ht, h⟩ := (Option.any_eq_true ..).mp h
  exact ⟨t, ht, of_decide_eq_true h⟩

variable (step) in
theorem run_reaches_step (s : S) (as : List A) (a : A) (P : S → S → Prop) [∀ t u, Decidable (P t u)]
    (h : (run step s as).any (fun t => (step t a).any (fun u => decide (P t u))) = true) :
    ∃ t u, run step s as = some t ∧ step t a = some u ∧ P t u := by
  obtain ⟨t, ht, h⟩ := (Option.any_eq_true ..).mp h
  obtain ⟨u, hu, h⟩ := (Option.any_eq_true ..).mp h
  exact ⟨t, u, ht, hu, of_decide_eq_true h⟩

theorem run_invariant (I : S → Prop) (hk : ∀ s a s', I s → ok s a → step s a = some s' → I s')
    (as : List A) (s s' : S) (hs : I s) (ha : Along step ok s as) (hr : run step s as = some s') : I s' := by
  induction as generalizing s with
  | nil =>
    cases hr
    exact hs
  | cons a as ih =>
    obtain ⟨t, ht, hr'⟩ := run_cons hr
    obtain ⟨hok, ha'⟩ := along_cons ha ht
    exact ih t (hk s a t hs hok ht) ha' hr'

theorem run_ghost [Preorder H] (I : S → H → Prop)
    (hk : ∀ s h a s', I s h → ok s a → step s a = some s' → ∃ h', h ≤ h' ∧ I s' h')
    (as : List A) (s s' : S) (h : H) (hs : I s h) (ha : Along step ok s as)
    (hr : run step s as = some s') : ∃ h', h ≤ h' ∧ I s' h' := by
  induction as generalizing s h with
  | nil =>
    cases hr
    exact ⟨h, le_refl h, hs⟩
  | cons a as ih =>
    obtain ⟨t, ht, hr'⟩ := run_cons hr
    obtain ⟨hok, ha'⟩ := along_cons ha ht
    obtain ⟨h1, hle, ht1⟩ := hk s h a t hs hok ht
    obtain ⟨h2, hle2, hs2⟩ := ih t h1 ht1 ha' hr'
    exact ⟨h2, le_trans hle hle2, hs2⟩

/-- When allowed steps keep an invariant that gives `P`, and others lead outside `P`, then `P`
holds along exactly the runs of allowed steps. -/
theorem throughout_iff {fit : S → A → Prop} (I P : S → Prop) (hP : ∀ s, I s → P s)
    (hk : ∀ s a s', I s → fit s a → ok s a → step s a = some s' → I s')
    (hb : ∀ s a, I s → fit s a → ¬ok s a → ∃ s', step s a = some s' ∧ ¬P s')
    (as : List A) (s : S) (hs : I s) (hf : Along step fit s as) : Throughout step P s as ↔
    Along step ok s as := by
  induction as generalizing s with
  | nil => exact ⟨fun _ => trivial, fun _ => hP s hs⟩
  | cons a as ih =>
    by_cases hok : ok s a
    · cases ht : step s a with
      | none => simp [Throughout, Along, ht, hok, hP s hs]
      | some t =>
        have hi := ih t (hk s a t hs hf.1 hok ht) (along_cons hf ht).2
        simp [Throughout, Along, ht, hok, hP s hs, hi]
    obtain ⟨t, ht, hn⟩ := hb s a hs hf.1 hok
    have hnt : ¬Throughout step P t as := by
      cases as with
      | nil => exact hn
      | cons b bs => exact fun h => hn h.1
    simp [Throughout, Along, ht, hok, hnt]

theorem foldlM_done {E : Type*} {f : S → A → Except E S} (P : List A → S → Prop)
    (hk : ∀ done a rest s s', as = done++a::rest → P done s → f s a = .ok s' → P (done++[a]) s')
    {s s' : S} (hs : P [] s) (h : as.foldlM f s = .ok s') : P as s' := by
  have hrest : ∀ (rest done : List A) (s : S), as = done++rest → P done s → rest.foldlM f s = .ok s' →
    P as s' := by
    intro rest
    induction rest with
    | nil =>
      intro done s has hd hr
      rw [append_nil] at has
      rw [has, ← Except.ok.inj hr]
      exact hd
    | cons a rest ih =>
      intro done s has hd hr
      rw [foldlM_cons] at hr
      cases ha : f s a with
      | error e =>
        rw [ha] at hr
        cases hr
      | ok t =>
        rw [ha] at hr
        exact ih (done++[a]) t (by simp [has]) (hk done a rest s t has hd ha) hr
  exact hrest as [] s rfl hs h

end QEngine.StepRuns

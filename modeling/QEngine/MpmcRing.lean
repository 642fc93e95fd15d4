import QEngine.StepRuns
import Mathlib.Data.Nat.ModEq

/-!
# The lock-free ring of the reactor

The number of a slot says for which position it is empty or full. A call loads a
position, looks at the number of its slot and claims the position by a
compare-and-swap; the slot is then its own until it stores the next number. Calls
interleave after each access. Positions have not wrapped; `pos & mask` is a remainder.
-/

namespace QEngine.MpmcRing
open List Function StepRuns

variable {α : Type*}

structure Slot (α : Type*) where
  seq : ℕ
  data : Option α

/-- History: the items in the order of their claims, and what each pop returned. -/
structure Ring (α : Type*) where
  cap : ℕ
  enqPos : ℕ
  deqPos : ℕ
  slots : ℕ → Slot α
  pushed : List α
  popped : List (ℕ × Option α)

def isPow2 (x : ℕ) : Bool := 2 ≤ x && x &&& (x-1) == 0

def mpmcInit (cap : ℕ) : Option (Ring α) :=
  if isPow2 cap then some ⟨cap, 0, 0, fun i => ⟨i, none⟩, [], []⟩ else none

def Ring.slot (r : Ring α) (pos : ℕ) : Slot α := r.slots (pos%r.cap)

def Ring.put (r : Ring α) (pos : ℕ) (s : Slot α) : Ring α := { r with slots := update r.slots (pos%r.cap) s }

def Ring.front (r : Ring α) (pop : Bool) : ℕ := if pop then r.deqPos else r.enqPos

def Ring.advance (r : Ring α) : Option α → Ring α
  | some x => { r with enqPos := r.enqPos+1, pushed := r.pushed++[x] }
  | none => { r with deqPos := r.deqPos+1 }

/-- The next access of a call. A push has a job, its item, and a pop has none. -/
inductive Call (α : Type*) where
  | load (job : Option α)
  | look (job : Option α) (pos : ℕ)
  | claim (job : Option α) (pos : ℕ)
  | access (job : Option α) (pos : ℕ)
  | clear (pos : ℕ) (out : Option α)
  | store (job : Option α) (pos : ℕ) (out : Option α)

def pushClaim (item : α) : Call α := .load (some item)

def popClaim : Call α := .load none

/-- One access of a call, and how the call goes on if it does not return. -/
def turn (r : Ring α) : Call α → Ring α × Option (Call α)
  | .load job => (r, some (.look job (r.front job.isNone)))
  | .look job pos =>
    let ready := pos+job.isNone.toNat
    if (r.slot pos).seq = ready then (r, some (.claim job pos))
    -- full, or empty: the call returns 0
    else if (r.slot pos).seq < ready then (r, none)
    else (r, some (.load job))
  | .claim job pos =>
    if r.front job.isNone = pos then (r.advance job, some (.access job pos))
    else (r, some (.look job (r.front job.isNone)))
  | .access (some x) pos => (r.put pos ⟨(r.slot pos).seq, some x⟩, some (.store (some x) pos none))
  | .access none pos => (r, some (.clear pos (r.slot pos).data))
  | .clear pos out => (r.put pos ⟨(r.slot pos).seq, none⟩, some (.store none pos out))
  | .store (some _) pos _ => (r.put pos ⟨pos+1, (r.slot pos).data⟩, none)
  | .store none pos out =>
    ({ r.put pos ⟨pos+r.cap, (r.slot pos).data⟩ with popped := r.popped++[(pos, out)] }, none)

/-- The ring and the calls under way, in no order. -/
structure State (α : Type*) where
  ring : Ring α
  calls : List (Call α)

inductive Event (α : Type*) where
  | push (item : α)
  | pop
  | next (k : ℕ)
  | spurious (k : ℕ)

/-- A weak compare-and-swap may fail for no reason; it loads the position all the same. -/
def step (s : State α) : Event α → Option (State α)
  | .push item => some { s with calls := pushClaim item::s.calls }
  | .pop => some { s with calls := popClaim::s.calls }
  | .next k => s.calls[k]?.map fun c => ⟨(turn s.ring c).1, (turn s.ring c).2.toList++s.calls.eraseIdx k⟩
  | .spurious k =>
    match s.calls[k]? with
    | some (.claim job _) => some { s with calls := .look job (s.ring.front job.isNone)::s.calls.eraseIdx k }
    | _ => none

/-- The position a call has claimed, and whether it is a pop. -/
def held : Call α → Option (ℕ × Bool)
  | .access job p | .store job p _ => some (p, job.isNone)
  | .clear p _ => some (p, true)
  | _ => none

def taken (c : Call α) : Option ℕ := (held c).bind fun x => if x.2 then some x.1 else none

def Owns (r : Ring α) (p : ℕ) (b : Bool) : Prop := (r.slot p).seq = p+b.toNat ∧ p < r.front b

def Fine (r : Ring α) : Call α → Prop
  | .claim job p => (r.slot p).seq = p+job.isNone.toNat ∨ p < r.front job.isNone
  | .access (some x) p => Owns r p false ∧ some x = r.pushed[p]?
  | .access none p => Owns r p true ∧ (r.slot p).data = r.pushed[p]?
  | .store (some _) p _ => Owns r p false ∧ (r.slot p).data = r.pushed[p]?
  | .clear p out | .store none p out => Owns r p true ∧ out = r.pushed[p]?
  | _ => True

/-- The positions that pops have claimed are those returned and those still with a call. -/
structure Inv (r : Ring α) (cs : List (Call α)) : Prop where
  two : 2 ≤ r.cap
  count : r.pushed.length = r.enqPos
  le : r.deqPos ≤ r.enqPos
  room : r.enqPos ≤ r.deqPos+r.cap
  free : ∀ p, (r.slot p).seq = p → p < r.deqPos+r.cap
  full : ∀ p, (r.slot p).seq = p+1 → p < r.enqPos ∧ (r.deqPos ≤ p → (r.slot p).data = r.pushed[p]?)
  calls : ∀ c ∈ cs, Fine r c
  alone : (cs.filterMap held).Nodup
  once : (r.popped.map Prod.fst++cs.filterMap taken).Perm (range r.deqPos)
  value : ∀ x ∈ r.popped, x.2 = r.pushed[x.1]?

theorem mod_succ_ne {cap : ℕ} (h : 2 ≤ cap) (p : ℕ) : (p+1)%cap ≠ p%cap := by
  intro he
  have h1 : 1 ≡ 0 [MOD cap] := Nat.ModEq.add_left_cancel' p he
  rw [Nat.ModEq, Nat.mod_eq_of_lt (by omega), Nat.zero_mod] at h1
  omega

theorem same_number {cap p q : ℕ} {b b' : Bool} (h : 2 ≤ cap) (hp : p%cap = q%cap)
    (he : p+b.toNat = q+b'.toNat) : p = q ∧ b = b' := by
  cases b <;> cases b' <;> simp only [Bool.toNat_false, Bool.toNat_true] at he
  · exact ⟨he, rfl⟩
  · rw [show p = q+1 from he] at hp
    exact absurd hp (mod_succ_ne h q)
  · rw [show q = p+1 from he.symm] at hp
    exact absurd hp.symm (mod_succ_ne h p)
  · exact ⟨by omega, rfl⟩

section
variable {r : Ring α} {c : Call α} {cs : List (Call α)} {p : ℕ} {b : Bool}

theorem fine_owns (hc : Fine r c) (hh : held c = some (p, b)) : Owns r p b := by
  cases c with
  | access job q | store job q =>
    cases job <;> cases hh <;> exact hc.1
  | clear q out =>
    cases hh
    exact hc.1
  | _ => cases hh

theorem slot_put (p q : ℕ) (s : Slot α) : (r.put p s).slot q = if q%r.cap = p%r.cap then s else r.slot q :=
  update_apply ..

theorem fine_frame {r' : Ring α} (hc : Fine r c) (hs : ∀ p b, held c = some (p, b) → r'.slot p = r.slot p ∧
      r.front b ≤ r'.front b ∧ r'.pushed[p]? = r.pushed[p]?) (hf : ∀ job p, c = .claim job p → Fine r' c) :
      Fine r' c := by
  cases c with
  | claim job q => exact hf job q rfl
  | access job q | store job q =>
    cases job <;> obtain ⟨h1, h2, h3⟩ := hs q _ rfl <;>
      exact ⟨⟨by rw [h1]; exact hc.1.1, lt_of_lt_of_le hc.1.2 h2⟩, by simpa only [h1, h3] using hc.2⟩
  | clear q out =>
    obtain ⟨h1, h2, h3⟩ := hs q true rfl
    exact ⟨⟨by rw [h1]; exact hc.1.1, lt_of_lt_of_le hc.1.2 h2⟩, by rw [h3]; exact hc.2⟩
  | _ => trivial

/-- The owner of a slot stores into it: the other calls are elsewhere, or have seen what is claimed. -/
theorem fine_put (h : 2 ≤ r.cap) (s : Slot α) (ho : Owns r p b)
    (hne : ∀ q b, held c = some (q, b) → q%r.cap ≠ p%r.cap) (hc : Fine r c) : Fine (r.put p s) c := by
  refine fine_frame hc (fun q b hq => ⟨(slot_put p q s).trans (if_neg (hne q b hq)), le_rfl, rfl⟩) ?_
  rintro job q rfl
  rw [Fine, slot_put]
  split_ifs with hq
  · refine .inr (hc.elim (fun he => ?_) id)
    rw [Ring.slot, hq] at he
    obtain ⟨rfl, rfl⟩ := same_number h hq (he.symm.trans ho.1)
    exact ho.2
  · exact hc

theorem inv_perm {cs' : List (Call α)} (hp : cs.Perm cs') (h : Inv r cs) : Inv r cs' :=
  { h with
      calls := fun c hc => h.calls c (hp.mem_iff.mpr hc)
      alone := (hp.filterMap held).nodup_iff.mp h.alone
      once := ((hp.filterMap taken).symm.append_left _).trans h.once }

/-- A call moves on without a change to the ring. -/
theorem go_inv {c' : Call α} (h : Inv r (c::cs)) (hh : held c' = held c) (hc : Fine r c') :
    Inv r (c'::cs) := by
  have ht : taken c' = taken c := by rw [taken, taken, hh]
  have halone := h.alone
  have honce := h.once
  rw [filterMap_cons, ← hh, ← filterMap_cons] at halone
  rw [filterMap_cons, ← ht, ← filterMap_cons] at honce
  exact { h with
    calls := forall_mem_cons.mpr ⟨hc, (forall_mem_cons.mp h.calls).2⟩, alone := halone, once := honce }

theorem return_inv (h : Inv r (c::cs)) (hh : held c = none) : Inv r cs := by
  have halone := h.alone
  have honce := h.once
  rw [filterMap_cons_none hh] at halone
  rw [filterMap_cons_none (by rw [taken, hh]; rfl)] at honce
  exact { h with calls := (forall_mem_cons.mp h.calls).2, alone := halone, once := honce }

theorem held_slot (h : Inv r cs) {x y : ℕ × Bool} (hx : x ∈ cs.filterMap held) (hy : y ∈ cs.filterMap held)
    (hs : x.1%r.cap = y.1%r.cap) : x = y := by
  obtain ⟨c, hc, hx⟩ := mem_filterMap.mp hx
  obtain ⟨d, hd, hy⟩ := mem_filterMap.mp hy
  have hown := (fine_owns (h.calls c hc) hx).1
  rw [Ring.slot, hs] at hown
  exact Prod.ext_iff.mpr (same_number h.two hs (hown.symm.trans (fine_owns (h.calls d hd) hy).1))

/-- The owner of a slot may store what leaves it empty or full as its number says. -/
theorem put_rest (h : Inv r (c::cs)) (hi : held c = some (p, b)) {s : Slot α}
    (hfree : ∀ q, q%r.cap = p%r.cap → s.seq = q → q < r.deqPos+r.cap)
    (hfull : ∀ q, q%r.cap = p%r.cap → s.seq = q+1 → q < r.enqPos ∧ (r.deqPos ≤ q → s.data = r.pushed[q]?)) :
    (∀ q, ((r.put p s).slot q).seq = q → q < r.deqPos+r.cap) ∧
    (∀ q, ((r.put p s).slot q).seq = q+1 → q < r.enqPos ∧
      (r.deqPos ≤ q → ((r.put p s).slot q).data = r.pushed[q]?)) ∧
    ∀ d ∈ cs, Fine (r.put p s) d := by
  refine ⟨fun q hq => ?_, fun q hq => ?_, fun d hd => ?_⟩
  · rw [slot_put] at hq
    split_ifs at hq with hs
    · exact hfree q hs hq
    · exact h.free q hq
  · rw [slot_put] at hq ⊢
    split_ifs at hq ⊢ with hs
    · exact hfull q hs hq
    · exact h.full q hq
  · refine fine_put h.two s (fine_owns (h.calls c mem_cons_self) hi) (fun q b' hq hs => ?_)
      (h.calls d (mem_cons_of_mem c hd))
    have halone := h.alone
    have hslot := held_slot h (x := (q, b')) (y := (p, b))
    rw [filterMap_cons_some hi] at halone hslot
    have hm : (q, b') ∈ cs.filterMap held := mem_filterMap.mpr ⟨d, hd, hq⟩
    rw [hslot (mem_cons_of_mem _ hm) mem_cons_self hs] at hm
    exact (nodup_cons.mp halone).1 hm

theorem front_advance (job : Option α) (b : Bool) : r.front b ≤ (r.advance job).front b := by
  cases job <;> cases b <;> simp [Ring.front, Ring.advance]

theorem pushed_advance (hc : r.pushed.length = r.enqPos) (job : Option α) (hp : p < r.enqPos) :
    (r.advance job).pushed[p]? = r.pushed[p]? := by
  cases job with
  | none => rfl
  | some x => exact getElem?_append_left (by rw [hc]; exact hp)

theorem fine_advance (h : Inv r cs) (job : Option α) (hc : Fine r c) : Fine (r.advance job) c := by
  have hslot : (r.advance job).slot = r.slot := by cases job <;> rfl
  refine fine_frame hc (fun q b hq => ⟨by rw [hslot], front_advance job b, pushed_advance h.count job ?_⟩) ?_
  · have := (fine_owns hc hq).2
    have := h.le
    cases b <;> simp only [Ring.front, Bool.false_eq_true, if_false, if_true] at * <;> omega
  · rintro j q rfl
    rw [Fine, hslot]
    exact hc.imp_right fun hq => lt_of_lt_of_le hq (front_advance job _)

theorem claim_inv {job : Option α} (h : Inv r (.claim job (r.front job.isNone)::cs)) :
    Inv (r.advance job) (.access job (r.front job.isNone)::cs) := by
  obtain ⟨hc, hcs⟩ := forall_mem_cons.mp h.calls
  have hseq := hc.resolve_right (lt_irrefl _)
  have hrest : ∀ d ∈ cs, Fine (r.advance job) d := fun d hd => fine_advance h job (hcs d hd)
  have halone : ((Call.access job (r.front job.isNone)::cs).filterMap held).Nodup := by
    refine nodup_cons.mpr ⟨fun hm => ?_, h.alone⟩
    obtain ⟨d, hd, hh⟩ := mem_filterMap.mp hm
    exact lt_irrefl _ (fine_owns (hcs d hd) hh).2
  cases job with
  | some x =>
    refine ⟨h.two, by simp [Ring.advance, h.count], Nat.le_succ_of_le h.le, h.free _ hseq, h.free,
      fun p hp => ?_,
      forall_mem_cons.mpr ⟨⟨⟨hseq, Nat.lt_succ_self _⟩, ?_⟩, hrest⟩, halone, h.once, fun y hy => ?_⟩
    · obtain ⟨h1, h2⟩ := h.full p hp
      exact ⟨Nat.lt_succ_of_lt h1, fun hd => (h2 hd).trans (pushed_advance h.count (some x) h1).symm⟩
    · change some x = (r.pushed++[x])[r.enqPos]?
      rw [← h.count, getElem?_concat_length]
    · have hlt : y.1 < r.deqPos :=
        mem_range.mp (h.once.mem_iff.mp (mem_append_left _ (mem_map_of_mem hy)))
      rw [pushed_advance h.count (some x) (lt_of_lt_of_le hlt h.le)]
      exact h.value y hy
  | none =>
    obtain ⟨hlt, hdata⟩ := h.full _ hseq
    refine ⟨h.two, h.count, hlt, Nat.le_trans h.room (by simp [Ring.advance]), fun p hp => ?_, fun p hp => ?_,
      forall_mem_cons.mpr ⟨⟨⟨hseq, Nat.lt_succ_self _⟩, hdata le_rfl⟩, hrest⟩, halone, ?_, h.value⟩
    · exact Nat.lt_of_lt_of_le (h.free p hp) (by simp [Ring.advance])
    · exact ⟨(h.full p hp).1, fun hd => (h.full p hp).2 (Nat.le_of_succ_le hd)⟩
    · change (r.popped.map Prod.fst++r.deqPos::cs.filterMap taken).Perm (range (r.deqPos+1))
      rw [range_succ]
      exact perm_middle.trans ((h.once.cons _).trans (perm_append_singleton _ _).symm)

theorem turn_inv (h : Inv r (c::cs)) : Inv (turn r c).1 ((turn r c).2.toList++cs) := by
  obtain ⟨hc, -⟩ := forall_mem_cons.mp h.calls
  -- a store that keeps the number of the slot
  have hfree : ∀ p q, q%r.cap = p%r.cap → (r.slot p).seq = q → q < r.deqPos+r.cap :=
    fun p q hq he => h.free q (by rw [Ring.slot, hq]; exact he)
  have hput : ∀ p (s : Slot α), (r.put p s).slot p = s := fun p s => (slot_put p p s).trans (if_pos rfl)
  cases c with
  | load job => exact go_inv h rfl trivial
  | look job p =>
    simp only [turn]
    split_ifs with hs
    · exact go_inv h rfl (.inl hs)
    · exact return_inv h rfl
    · exact go_inv h rfl trivial
  | claim job p =>
    simp only [turn]
    split_ifs with hp
    · subst hp
      exact claim_inv h
    · exact go_inv h rfl trivial
  | access job p =>
    cases job with
    | none => exact go_inv h rfl hc
    | some x =>
      obtain ⟨h1, h2, h3⟩ := put_rest (s := ⟨(r.slot p).seq, some x⟩) h rfl (hfree p) fun q hq he =>
        absurd (@same_number _ _ _ _ true h.two hq.symm (hc.1.1.symm.trans he)).2 nofun
      refine { h with free := h1, full := h2, calls := forall_mem_cons.mpr ⟨?_, h3⟩ }
      simp only [turn, Fine, Owns, hput]
      exact hc
  | clear p out =>
    obtain ⟨h1, h2, h3⟩ := put_rest (s := ⟨(r.slot p).seq, none⟩) h rfl (hfree p) fun q _ he => by
      cases hc.1.1.symm.trans he
      exact ⟨lt_of_lt_of_le hc.1.2 h.le, fun hd => absurd hc.1.2 (Nat.not_lt.mpr hd)⟩
    refine { h with free := h1, full := h2, calls := forall_mem_cons.mpr ⟨?_, h3⟩ }
    simp only [turn, Fine, Owns, hput]
    exact hc
  | store job p out =>
    cases job with
    | some x =>
      obtain ⟨h1, h2, h3⟩ := put_rest (s := ⟨p+1, (r.slot p).data⟩) h rfl
        (fun q hq he => absurd hq (he ▸ mod_succ_ne h.two p)) fun q _ he => by
          cases he
          exact ⟨hc.1.2, fun _ => hc.2⟩
      exact { h with free := h1, full := h2, calls := h3, alone := (nodup_cons.mp h.alone).2 }
    | none =>
      obtain ⟨h1, h2, h3⟩ := put_rest (s := ⟨p+r.cap, (r.slot p).data⟩) h rfl
        (fun q _ he => he ▸ Nat.add_lt_add_right hc.1.2 _) fun q hq he => by
          have hm := congrArg (·%r.cap) he
          simp only [Nat.add_mod_right] at hm
          exact absurd (hm.symm.trans hq.symm) (mod_succ_ne h.two q)
      refine { h with
          free := h1, full := h2, calls := h3, alone := (nodup_cons.mp h.alone).2, once := ?_
          value := forall_mem_append.mpr ⟨h.value, forall_mem_singleton.mpr hc.2⟩ }
      change ((r.popped++[(p, out)]).map Prod.fst++cs.filterMap taken).Perm _
      rw [map_append, append_assoc]
      exact h.once

theorem step_inv {s s' : State α} {e : Event α} (h : Inv s.ring s.calls) (hs : step s e = some s') :
    Inv s'.ring s'.calls := by
  have hk : ∀ k c, s.calls[k]? = some c → Inv s.ring (c::s.calls.eraseIdx k) := fun k c hc => by
    obtain ⟨hk, rfl⟩ := List.getElem?_eq_some_iff.mp hc
    exact inv_perm (getElem_cons_eraseIdx_perm hk).symm h
  have hnew : ∀ job, Inv s.ring (.load job::s.calls) := fun job =>
    { h with calls := forall_mem_cons.mpr ⟨trivial, h.calls⟩ }
  cases e with
  | push item =>
    cases hs
    exact hnew _
  | pop =>
    cases hs
    exact hnew _
  | next k =>
    obtain ⟨c, hc, rfl⟩ := Option.map_eq_some_iff.mp hs
    exact turn_inv (hk k c hc)
  | spurious k =>
    simp only [step] at hs
    split at hs <;> cases hs
    rename_i hc
    exact go_inv (hk k _ hc) rfl trivial

end

theorem init_inv {cap : ℕ} {r : Ring α} (h : mpmcInit cap = some r) : Inv r [] := by
  unfold mpmcInit at h
  split_ifs at h with hc
  cases h
  have h2 : 2 ≤ cap := of_decide_eq_true (Bool.and_eq_true_iff.mp hc).1
  refine ⟨h2, rfl, le_rfl, Nat.zero_le _, fun p hp => ?_, fun p hp => ?_, nofun, nodup_nil, .nil, nofun⟩
  · rw [← show p%cap = p from hp]
    exact Nat.lt_add_left 0 (Nat.mod_lt _ (by omega))
  · have := Nat.mod_le p cap
    rw [show p%cap = p+1 from hp] at this
    omega

/-- In every interleaving no two calls work on one slot, the ring holds at most `cap` items, and the
pops that claimed the first positions return the items of these positions, each once. Positions are
natural numbers: the runs are those of the 64-bit counters as long as fewer than `2^64` were claimed. -/
theorem ring_delivers_once (cap : ℕ) (r : Ring α) (hi : mpmcInit cap = some r) (es : List (Event α))
    (s : State α) (hr : run step ⟨r, []⟩ es = some s) : s.ring.deqPos ≤ s.ring.enqPos ∧
    s.ring.enqPos ≤ s.ring.deqPos+s.ring.cap ∧ s.ring.pushed.length = s.ring.enqPos ∧
    ((s.calls.filterMap held).map fun x => x.1%s.ring.cap).Nodup ∧
    (s.ring.popped.map Prod.fst++s.calls.filterMap taken).Perm (range s.ring.deqPos) ∧
    ∀ x ∈ s.ring.popped, x.2 = s.ring.pushed[x.1]? := by
  have h : Inv s.ring s.calls := run_invariant (fun s : State α => Inv s.ring s.calls)
    (fun _ _ _ h _ hs => step_inv h hs) es _ s (init_inv hi) (along_all (fun _ _ => trivial) _ _) hr
  exact ⟨h.le, h.room, h.count, h.alone.map_on fun x hx y hy hs => held_slot h hx hy hs, h.once, h.value⟩

/-- A pop begins, then a push; the push is done first. -/
def onePush : List (Event ℕ) := .pop::.push 5::(replicate 11 (.next 0))

theorem ring_delivers_once_one : ∃ r s, mpmcInit 2 = some r ∧ run step ⟨r, []⟩ onePush = some s ∧
    s.ring.popped = [(0, some 5)] ∧ ∀ x ∈ s.ring.popped, x.2 = s.ring.pushed[x.1]? := by
  obtain ⟨s, hr, hp⟩ := run_reaches step ⟨⟨2, 0, 0, fun i => ⟨i, none⟩, [], []⟩, []⟩ onePush
    (fun s => s.ring.popped = [(0, some 5)]) (by decide)
  exact ⟨_, s, rfl, hr, hp, (ring_delivers_once 2 _ rfl _ s hr).2.2.2.2.2⟩

end QEngine.MpmcRing

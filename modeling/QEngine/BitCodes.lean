import QEngine.BitStream

/-!
# Reading codes off a bit stream

`Yields m fs a` says that on any stream that begins with the fields `fs` the decoder
`m` returns `a` and stops right behind them. `Reads m P` says that it only moves the
reader by reads of at most 32 bits.
-/

namespace QEngine.BitCodes
open List BitFields BitStream

abbrev Decode := StateT BitReader (Except Rc)

variable {α β : Type}

def get (n : ℕ) : Decode ℕ := fun r => .ok (r.get n)

def fail (rc : Rc) : Decode α := fun _ => .error rc

def check : Decode Unit := fun r => if r.underflow then .error .corrupt else .ok ((), r)

def getSafe (n : ℕ) : Decode ℕ :=
  if n = 0 then pure 0 else
  if n ≤ 32 then get n else do
    let lo ← get 32
    let hi ← get (n-32)
    pure (lo ||| (hi <<< 32)%2^64)

def Yields (m : Decode α) (fs : List Field) (a : α) : Prop :=
  ∀ r gs, r.Carries (fs++gs) → ∃ r', m r = .ok (a, r') ∧ r'.Carries gs

theorem yields_pure (a : α) : Yields (pure a) [] a :=
  fun r _ h => ⟨r, rfl, h⟩

theorem yields_bind (m : Decode α) (f : α → Decode β) (fs gs : List Field) (a : α) (b : β)
    (hm : Yields m fs a) (hf : Yields (f a) gs b) : Yields (m >>= f) (fs++gs) b := by
  intro r hs h
  rw [append_assoc] at h
  obtain ⟨r1, h1, hc1⟩ := hm r (gs++hs) h
  obtain ⟨r2, h2, hc2⟩ := hf r1 hs hc1
  refine ⟨r2, ?_, hc2⟩
  change (m r >>= fun p => f p.1 p.2) = _
  rw [h1]
  exact h2

theorem yields_check : Yields check [] () := fun r _ h =>
  ⟨r, by simp [check, h.clear], h⟩

theorem yields_get (v n : ℕ) (hn : n ≤ 32) (hv : v < 2^n) : Yields (get n) [(v, n)] v := by
  intro r gs h
  obtain ⟨h1, h2⟩ := BitReader.get_carries r v n gs hn h
  rw [Nat.mod_eq_of_lt hv] at h1
  exact ⟨(r.get n).2, by rw [get, ← h1], h2⟩

theorem yields_split (m : Decode α) (v a b : ℕ) (fs : List Field) (x : α)
    (hm : Yields m ((v%2^a, a)::(v/2^a, b)::fs) x) : Yields m ((v, a+b)::fs) x :=
  fun r gs h => hm r gs (BitReader.carries_split r v a b _ h)

theorem yields_bit {f : ℕ → Decode α} (v n : ℕ) {fs : List Field} {x : α}
    (h : Yields (f (v%2)) ((v/2, n)::fs) x) : Yields (get 1 >>= f) ((v, 1+n)::fs) x := by
  apply yields_split
  exact yields_bind _ f _ _ _ x
    (yields_get _ 1 (by decide) (Nat.mod_lt _ (by decide))) h

theorem yields_getSafe {v n : ℕ} (hn : n ≤ 64) (hv : v < 2^n) : Yields (getSafe n)
    (BitWriter.putSafe v n) v := by
  unfold getSafe BitWriter.putSafe
  by_cases h0 : n = 0
  · have hz : v = 0 := by simpa [h0] using hv
    rw [if_pos h0, if_pos h0, hz]
    exact yields_pure 0
  rw [if_neg h0, if_neg h0]
  by_cases h32 : n ≤ 32
  · rw [if_pos h32, if_pos h32]
    exact yields_get v n h32 hv
  rw [if_neg h32, if_neg h32]
  have hmask : v &&& 0xFFFFFFFF = v%2^32 := Nat.and_two_pow_sub_one_eq_mod v 32
  have hhi : v/2^32 < 2^(n-32) := by
    rw [Nat.div_lt_iff_lt_mul (Nat.two_pow_pos _), ← pow_add, Nat.sub_add_cancel (by omega)]
    exact hv
  have hhi64 : v/2^32 < 2^(64-32) :=
    lt_of_lt_of_le hhi (Nat.pow_le_pow_right (by decide) (by omega))
  have hlo := Nat.mod_lt v (Nat.two_pow_pos 32)
  have hback : v%2^32 ||| ((v/2^32) <<< 32)%2^64 = v := by
    rw [shift_mod _ _ _ (by decide), Nat.mod_eq_of_lt hhi64, mul_comm, ← Nat.shiftLeft_eq,
      or_shift _ _ _ hlo]
    exact Nat.mod_add_div v (2^32)
  rw [hmask, Nat.shiftRight_eq_div_pow]
  refine yields_bind _ _ [(v%2^32, 32)] _ _ _ (yields_get _ 32 (by decide) hlo) ?_
  refine yields_bind _ _ [(v/2^32, n-32)] [] _ _ (yields_get _ _ (by omega) hhi) ?_
  rw [hback]
  exact yields_pure v

def Reads (m : Decode α) (P : α → Prop) : Prop :=
  ∀ r a r', m r = .ok (a, r') → P a ∧ ∃ ns : List ℕ, (∀ n ∈ ns, n ≤ 32) ∧ r' = r.gets ns

variable {P : α → Prop}

theorem reads_pure {a : α} (h : P a) : Reads (pure a) P := by
  intro r b r' hr
  cases hr
  exact ⟨h, [], by simp, rfl⟩

theorem reads_fail {rc : Rc} : Reads (fail rc) P := by
  intro r a r' h
  simp [fail] at h

theorem reads_get (n : ℕ) (hn : n ≤ 32) : Reads (get n) (fun v => v < 2^n) := by
  intro r a r' h
  have he : r.get n = (a, r') := Except.ok.inj h
  refine ⟨?_, [n], by simpa using hn, ?_⟩
  · have hlt := BitReader.get_lt r n (by omega)
    rw [he] at hlt
    exact hlt
  · simp [BitReader.gets, he]

variable {m : Decode α}

theorem reads_bind {f : α → Decode β} {Q : β → Prop}
    (hm : Reads m P) (hf : ∀ a, P a → Reads (f a) Q) : Reads (m >>= f) Q := by
  intro r b r' h
  change (m r >>= fun p => f p.1 p.2) = _ at h
  cases h1 : m r with
  | error e => rw [h1] at h; simp [bind, Except.bind] at h
  | ok p =>
    rw [h1] at h
    obtain ⟨ha, ns, hns, hr⟩ := hm r p.1 p.2 h1
    obtain ⟨hb, ms, hms, hr'⟩ := hf p.1 ha p.2 b r' h
    refine ⟨hb, ns++ms, ?_, ?_⟩
    · intro n hn
      rcases mem_append.mp hn with hn | hn
      · exact hns n hn
      · exact hms n hn
    · rw [hr', hr, BitReader.gets, BitReader.gets, BitReader.gets, foldl_append]

theorem reads_mono {Q : α → Prop} (hm : Reads m P) (h : ∀ a, P a → Q a) :
    Reads m Q := fun r a r' he =>
  ⟨h a (hm r a r' he).1, (hm r a r' he).2⟩

theorem reads_check : Reads check (fun _ => True) := by
  intro r a r' h
  unfold check at h
  split at h
  · simp at h
  · obtain ⟨-, rfl⟩ : () = a ∧ r = r' := by simpa using h
    exact ⟨trivial, [], by simp, rfl⟩

theorem reads_getSafe (n : ℕ) (hn : n ≤ 64) : Reads (getSafe n) (fun _ => True) := by
  unfold getSafe
  split_ifs with h0 h32
  · exact reads_pure trivial
  · exact reads_mono (reads_get n h32) fun _ _ => trivial
  refine reads_bind (reads_get 32 le_rfl) fun lo _ => ?_
  refine reads_bind (reads_get _ (by omega)) fun hi _ => ?_
  exact reads_pure trivial

end QEngine.BitCodes

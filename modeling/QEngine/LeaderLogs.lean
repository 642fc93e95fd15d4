import QEngine.QuorumSets

/-!
# Logs that grow from the logs of leaders

A log is rooted when, cut after any of its entries, it is a front part of the log of
that entry's term. When leaders are elected by majorities whose logs are no more up to
date than theirs, what a majority has stored is in the log of every later leader.
-/

namespace QEngine.LeaderLogs
open List Function QuorumSets

variable {E : Type*} (term : E → ℕ)

/-- Cut after the entry at any place from `k-1` on, the log is a front part
of the log of that entry's term. -/
def RootedFrom (llog : ℕ → List E) (k : ℕ) (l : List E) : Prop :=
  ∀ i e, k ≤ i+1 → l[i]? = some e → l.take (i+1) <+: llog (term e)

def Rooted (llog : ℕ → List E) (l : List E) : Prop := RootedFrom term llog 0 l

variable {term} {llog llog' : ℕ → List E} {a b l : List E}

theorem rooted_nil : Rooted term llog [] := by
  intro i e _ h
  simp at h

variable {k : ℕ}

theorem rootedFrom_of_rooted (h : Rooted term llog l) : RootedFrom term llog k l :=
  fun i e _ he => h i e (Nat.zero_le _) he

theorem get_take {l : List E} {i : ℕ} {e : E} (h : (l.take k)[i]? = some e) : i < k ∧ l[i]? = some e := by
  rw [getElem?_take] at h
  split at h
  · exact ⟨by assumption, h⟩
  · simp at h

theorem rooted_take (k : ℕ) (h : Rooted term llog l) : Rooted term llog (l.take k) := by
  intro i e _ he
  obtain ⟨hi, he'⟩ := get_take he
  rw [take_take, min_eq_left (by omega)]
  exact h i e (Nat.zero_le _) he'

theorem rooted_front (hp : a <+: b) (h : Rooted term llog b) : Rooted term llog a := by
  rw [prefix_iff_eq_take.mp hp]
  exact rooted_take _ h

theorem rootedFrom_mono (hm : ∀ t, llog t <+: llog' t) (h : RootedFrom term llog k l) :
    RootedFrom term llog' k l :=
  fun i e hk he => (h i e hk he).trans (hm _)

theorem rooted_concat (e : E) (h : Rooted term llog l) (he : l++[e] <+: llog (term e)) :
    Rooted term llog (l++[e]) := by
  intro i x _ hx
  by_cases hi : i < l.length
  · rw [getElem?_append_left hi] at hx
    rw [take_append_of_le_length (by omega)]
    exact h i x (Nat.zero_le _) hx
  have hlt := (List.getElem?_eq_some_iff.mp hx).1
  rw [length_append, length_singleton] at hlt
  have hil : i = l.length := by omega
  subst hil
  have hxe : x = e := by simpa using hx.symm
  rw [hxe, take_of_length_le (by simp)]
  exact he

theorem prefix_take_eq {m n : List E} (k : ℕ) (hm : m <+: n) (hk : k ≤ m.length) : m.take k = n.take k := by
  obtain ⟨r, rfl⟩ := hm
  rw [take_append_of_le_length hk]

theorem prefix_unique {m : List E} (hm : a <+: m) (hn : b <+: m) (hl : a.length = b.length) : a = b := by
  rw [prefix_iff_eq_take] at hm hn
  rw [hm, hn, hl]

theorem rooted_agree {i : ℕ} {e f : E} (ha : Rooted term llog a)
    (hb : RootedFrom term llog k b) (hk : k ≤ i+1) (he : a[i]? = some e) (hf : b[i]? = some f)
    (ht : term e = term f) : a.take (i+1) = b.take (i+1) := by
  have h1 := ha i e (Nat.zero_le _) he
  have h2 := hb i f hk hf
  rw [ht] at h1
  have hla := (List.getElem?_eq_some_iff.mp he).1
  have hlb := (List.getElem?_eq_some_iff.mp hf).1
  exact prefix_unique h1 h2 (by rw [List.length_take, List.length_take]; omega)

theorem rooted_splice (ha : Rooted term llog a) (hb : RootedFrom term llog k b)
    (h : a.take k = b.take k) : Rooted term llog b := by
  intro i e _ he
  by_cases hk : k ≤ i+1
  · exact hb i e hk he
  have he' : (b.take k)[i]? = some e := by
    rw [getElem?_take, if_pos (by omega)]
    exact he
  rw [← h] at he'
  have hr := ha i e (Nat.zero_le _) (get_take he').2
  have hcut : a.take (i+1) = b.take (i+1) := by
    have := congrArg (List.take (i+1)) h
    rwa [take_take, take_take, min_eq_left (by omega)] at this
  rwa [hcut] at hr

/-- The log of one term may be replaced by a part of it, as long as no entry
of that term sits beyond the part. -/
theorem rootedFrom_replace (t n : ℕ) (h : RootedFrom term llog k l)
    (hn : ∀ i e, k ≤ i+1 → l[i]? = some e → term e = t → i < n) :
    RootedFrom term (update llog t ((llog t).take n)) k l := by
  intro i e hk he
  have hr := h i e hk he
  by_cases ht : term e = t
  · rw [ht, update_self]
    rw [ht] at hr
    have hin := hn i e hk he ht
    rw [prefix_take_iff]
    exact ⟨hr, by rw [length_take]; omega⟩
  · rw [update_of_ne ht]
    exact hr

variable (term) in
def lastTerm (l : List E) : ℕ := ((l.getLast?).map term).getD 0

theorem rooted_lastTerm (h : Rooted term llog l) (hl : l ≠ []) : l <+: llog (lastTerm term l) ∧
    ∃ e ∈ l, term e = lastTerm term l := by
  have he := getLast?_eq_some_getLast hl
  have hr := h (l.length-1) (l.getLast hl) (Nat.zero_le _) (by
    rw [← getLast?_eq_getElem?, he])
  have hlen := length_pos_iff.mpr hl
  rw [take_of_length_le (by omega)] at hr
  rw [lastTerm, he]
  exact ⟨hr, _, getLast_mem hl, rfl⟩

section Completeness
variable {N : Type*} {members : List N} {lead lead' : ℕ → Prop} {acked : ℕ → N → ℕ}

variable (term llog) in
def Own (t j : ℕ) : Prop := ∃ e, (llog t)[j]? = some e ∧ term e = t

variable (term lead llog) in
/-- A log holds the log of term `t` up to an own entry at `j`, unless a leader between `t` and `b`
was without it. -/
def Survives (t j b : ℕ) (l : List E) : Prop :=
  Own term llog t j → (llog t).take (j+1) <+: l ∨
    ∃ w, t < w ∧ w < b ∧ lead w ∧ ¬(llog t).take (j+1) <+: llog w

theorem own_grown {t j : ℕ} (hg : ∀ t, llog t <+: llog' t) (hj : j < (llog t).length) :
    Own term llog' t j ↔ Own term llog t j := by
  obtain ⟨r, hr⟩ := hg t
  unfold Own
  rw [← hr, getElem?_append_left hj]

theorem survives_grown {t j b : ℕ} (hg : ∀ t, llog t <+: llog' t) (hl : ∀ w, lead w → lead' w)
    (hn : ∀ w x e, lead w → (llog w).length ≤ x → (llog' w)[x]? = some e → term e = w)
    (hj : j < (llog t).length) (h : Survives term llog lead t j b l) : Survives term llog' lead' t j b l := by
  intro ho
  have ho' := (own_grown hg hj).mp ho
  rw [← prefix_take_eq _ (hg t) hj]
  rcases h ho' with h | ⟨w, h1, h2, h3, h4⟩
  · exact .inl h
  refine .inr ⟨w, h1, h2, hl w h3, fun hp => h4 ?_⟩
  by_cases hx : (llog w).length ≤ j
  · -- the place of the own entry would be filled by an entry of term `w`
    obtain ⟨e, he, het⟩ := ho'
    have hget : (llog' w)[j]? = some e := by
      obtain ⟨r, hr⟩ := hp
      rw [← hr, getElem?_append_left (by rw [length_take]; omega), getElem?_take,
        if_pos (by omega), he]
    have := hn w j e h3 hx hget
    omega
  · exact prefix_of_prefix_length_le hp (hg w) (by rw [length_take]; omega)

theorem survives_mono {t j b : ℕ} {b' : ℕ} (hp : a <+: l) (hb : ∀ w, w < b → lead w → w < b')
    (h : Survives term llog lead t j b a) : Survives term llog lead t j b' l := by
  intro ho
  rcases h ho with h | ⟨w, h1, h2, h3, h4⟩
  · exact .inl (h.trans hp)
  · exact .inr ⟨w, h1, hb w h2 h3, h3, h4⟩

theorem survives_follow {t j b w : ℕ} (hb : b ≤ w+1) (ht : t ≤ w) (hw : lead w)
    (hk : ∀ p, p <+: a → p <+: llog w → p <+: l) (h : Survives term llog lead t j b a) :
    Survives term llog lead t j (w+1) l := by
  intro ho
  rcases h ho with h | ⟨v, h1, h2, h3, h4⟩
  · by_cases hp : (llog t).take (j+1) <+: llog w
    · exact .inl (hk _ h hp)
    · have hne : t ≠ w := fun he => hp (he ▸ take_prefix _ _)
      exact .inr ⟨w, by omega, Nat.lt_succ_self w, hw, hp⟩
  · exact .inr ⟨v, h1, by omega, h3, h4⟩

theorem survives_vote {t j T : ℕ} (hlow : ∀ u, ∀ e ∈ llog u, term e ≤ u)
    (hmade : ∀ u, ∀ e ∈ llog u, lead (term e)) (ha : Rooted term llog a)
    (hb : Rooted term llog b) (hbT : ∀ e ∈ b, term e < T) (hup : lastTerm term a < lastTerm term b ∨
      (lastTerm term a = lastTerm term b ∧ a.length ≤ b.length))
    (h : Survives term llog lead t j T a) : Survives term llog lead t j T b := by
  intro ho
  rcases h ho with h | h
  · obtain ⟨e, he, het⟩ := ho
    have hep : e ∈ (llog t).take (j+1) := by
      apply mem_of_getElem? (i := j)
      rw [getElem?_take, if_pos (by omega), he]
    obtain ⟨hroot, _⟩ := rooted_lastTerm ha (ne_nil_of_mem (h.subset hep))
    have hle := hlow _ e (hroot.subset (h.subset hep))
    have hbne : b ≠ [] := by
      rintro rfl
      have h0 : lastTerm term ([] : List E) = 0 := rfl
      rcases hup with hx | ⟨_, hx⟩
      · omega
      rw [length_nil, Nat.le_zero, length_eq_zero_iff] at hx
      rw [hx] at h
      exact absurd (h.subset hep) (by simp)
    obtain ⟨hbr, x, hx, hxt⟩ := rooted_lastTerm hb hbne
    rcases hup with hlt | ⟨heq, hlen⟩
    · by_cases hp : (llog t).take (j+1) <+: llog (lastTerm term b)
      · rcases prefix_or_prefix_of_prefix hp hbr with hc | hc
        · exact .inl hc
        · -- the candidate's last term would already be among the voter's
          have := hlow _ x (hroot.subset (h.subset (hc.subset hx)))
          omega
      · refine .inr ⟨lastTerm term b, by omega, hxt ▸ hbT x hx, ?_, hp⟩
        rw [← hxt]
        exact hmade _ x (hbr.subset hx)
    · rw [heq] at hroot
      exact .inl (h.trans (prefix_of_prefix_length_le hroot hbr hlen))
  · exact .inr h

variable (term llog members acked) in
def Chosen (t j : ℕ) : Prop :=
  Majority members (fun q => j < acked t q) ∧ Own term llog t j

theorem chosen_grown {acked' : ℕ → N → ℕ} {t j : ℕ} (hg : ∀ t, llog t <+: llog' t)
    (ha : ∀ t q, acked t q ≤ acked' t q) (h : Chosen term llog members acked t j) :
    Chosen term llog' members acked' t j := by
  refine ⟨majority_mono _ (fun q _ hq => lt_of_lt_of_le hq (ha t q)) h.1, ?_⟩
  obtain ⟨e, he, _⟩ := h.2
  exact (own_grown hg (List.getElem?_eq_some_iff.mp he).1).mpr h.2

variable (term llog members lead acked) in
/-- The leader of term `T` has the votes of a majority whose stored entries
survive in its log. -/
def Elected (T : ℕ) : Prop :=
  ∃ Q : N → Bool, Majority members (fun q => Q q = true) ∧ ∀ q, Q q = true →
    ∀ t j, t < T → j < acked t q → Survives term llog lead t j T (llog T)

theorem chosen_complete (hel : ∀ T, lead T → Elected term llog members lead acked T) {t j : ℕ}
    (hc : Chosen term llog members acked t j) {T : ℕ} (ht : t < T) (hl : lead T) :
    (llog t).take (j+1) <+: llog T := by
  induction T using Nat.strong_induction_on with
  | _ T ih =>
    obtain ⟨Q, hQ, hs⟩ := hel T hl
    obtain ⟨q, _, hq, hv⟩ := majority_meet _ hc.1 hQ
    rcases hs q hv t j ht hq hc.2 with hp | ⟨w, h1, h2, h3, h4⟩
    · exact hp
    · exact absurd (ih w h2 h1 h3) h4

end Completeness

end QEngine.LeaderLogs

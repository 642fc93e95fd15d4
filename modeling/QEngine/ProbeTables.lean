import Mathlib.Data.List.Nodup
import Mathlib.Data.List.Perm.Basic
import Mathlib.Logic.Function.Basic
import Mathlib.Data.Nat.ModEq

/-!
# Open-addressing hash tables

The probe for a key starts at the cell its hash names and walks forward, around the
end, to the first cell that is empty or holds the key. The table doubles when half of
it is used.
-/

namespace QEngine.ProbeTables
open Option List Function

variable {K V : Type}

abbrev Cells (K V : Type) := List (Option (K × V))

variable {t : Cells K V}

variable {fuel p : ℕ}

theorem getD_set_self {x : Option (K × V)} (h : p < t.length) : (t.set p x).getD p none = x := by
  rw [getD_eq_getElem?_getD, getElem?_set_self h, getD_some]

variable {i : ℕ}

theorem getD_set_ne (x : Option (K × V)) (h : i ≠ p) : (t.set p x).getD i none = t.getD i none := by
  rw [getD_eq_getElem?_getD, getElem?_set_ne (Ne.symm h), getD_eq_getElem?_getD]

def used (t : Cells K V) : ℕ := t.countP Option.isSome

theorem exists_empty (h : used t < t.length) : ∃ q < t.length, t.getD q none = none := by
  by_contra hn
  refine absurd h (Nat.not_lt.mpr (Nat.le_of_eq ?_))
  refine (countP_eq_length.mpr fun x hx => ?_).symm
  obtain ⟨q, hq, rfl⟩ := mem_iff_getElem.mp hx
  rw [← ne_none_iff_isSome]
  intro he
  exact hn ⟨q, hq, by rw [getD_eq_getElem?_getD, getElem?_eq_getElem hq, he]; rfl⟩

theorem used_fill (t : Cells K V) (q : ℕ) (x : K × V) (hq : q < t.length)
    (he : t.getD q none = none) : used (t.set q (some x)) = used t+1 := by
  induction t generalizing q with
  | nil => simp at hq
  | cons c t ih =>
    cases q with
    | zero =>
      have hc : c = none := he
      simp [used, hc]
    | succ q =>
      have hq' : q < t.length := by simpa using hq
      have h := ih q hq' he
      simp only [used, set_cons_succ, countP_cons] at h ⊢
      omega

theorem replicate_getD (cap p : ℕ) : (List.replicate cap none : Cells K V).getD p none = none := by
  rw [getD_eq_getElem?_getD, getElem?_replicate]
  split <;> rfl

theorem used_entries (t : Cells K V) : (t.filterMap id).length = used t := by
  induction t with
  | nil => rfl
  | cons c t ih => cases c <;> simp [used] <;> exact ih

variable [DecidableEq K]

def probe (t : Cells K V) (k : K) : ℕ → ℕ → Option ℕ
  | 0, _ => none
  | fuel+1, i =>
    match t.getD i none with
    | none => some i
    | some e => if e.1 = k then some i else probe t k fuel ((i+1)%t.length)

theorem probe_empty (k : K) (fuel : ℕ) (h : t.getD i none = none) : probe t k (fuel+1) i = some i := by
  simp only [probe, h]

variable {k : K}

theorem probe_hit {v : V} (fuel : ℕ) (h : t.getD i none = some (k, v)) : probe t k (fuel+1) i = some i := by
  simp only [probe, h, if_true]

theorem probe_pass {e : K × V} (fuel : ℕ) (h : t.getD i none = some e) (hk : e.1 ≠ k) :
    probe t k (fuel+1) i = probe t k fuel ((i+1)%t.length) := by
  simp only [probe, h, if_neg hk]

theorem probe_cases (h : probe t k (fuel+1) i = some p) :
    (i = p ∧ (t.getD i none = none ∨ ∃ v, t.getD i none = some (k, v))) ∨
      ∃ e, t.getD i none = some e ∧ e.1 ≠ k ∧ probe t k fuel ((i+1)%t.length) = some p := by
  cases hc : t.getD i none with
  | none =>
    rw [probe_empty k _ hc] at h
    exact .inl ⟨some.inj h, .inl rfl⟩
  | some e =>
    by_cases hk : e.1 = k
    · rw [probe_hit _ (v := e.2) (by rw [hc, ← hk])] at h
      exact .inl ⟨some.inj h, .inr ⟨e.2, by rw [← hk]⟩⟩
    · rw [probe_pass _ hc hk] at h
      exact .inr ⟨e, rfl, hk, h⟩

theorem probe_lt (hi : i < t.length) (h : probe t k fuel i = some p) : p < t.length := by
  induction fuel generalizing i with
  | zero => simp [probe] at h
  | succ fuel ih =>
    obtain ⟨rfl, -⟩ | ⟨e, -, -, h⟩ := probe_cases h
    · exact hi
    · exact ih (Nat.mod_lt _ (by omega)) h

theorem probe_found (h : probe t k fuel i = some p) :
    t.getD p none = none ∨ ∃ v, t.getD p none = some (k, v) := by
  induction fuel generalizing i with
  | zero => simp [probe] at h
  | succ fuel ih =>
    obtain ⟨rfl, hc⟩ | ⟨e, -, -, h⟩ := probe_cases h
    · exact hc
    · exact ih h

/-- Filling an empty cell does not move an entry: the probe that found it saw
no empty cell on the way. -/
theorem probe_fill {q : ℕ} {e : K × V} {x : K × V}
    (he : t.getD p none = some e) (hq : t.getD q none = none)
    (h : probe t k fuel i = some p) : probe (t.set q (some x)) k fuel i = some p := by
  induction fuel generalizing i with
  | zero => simp [probe] at h
  | succ fuel ih =>
    have hs {d : K × V} (hc : t.getD i none = some d) : (t.set q (some x)).getD i none = some d := by
      rw [getD_set_ne _ fun hiq => some_ne_none d (by rw [← hc, hiq, hq]), hc]
    obtain ⟨rfl, hc | ⟨v, hc⟩⟩ | ⟨d, hc, hk, h⟩ := probe_cases h
    · rw [he] at hc
      cases hc
    · exact probe_hit _ (hs hc)
    · rw [probe_pass _ (hs hc) hk, length_set]
      exact ih h

theorem probe_filled (v : V) (fuel : ℕ) (hp : p < t.length) (h : probe t k fuel i = some p) :
    probe (t.set p (some (k, v))) k fuel i = some p := by
  induction fuel generalizing i with
  | zero => simp [probe] at h
  | succ fuel ih =>
    by_cases hip : i = p
    · rw [hip, probe_hit _ (getD_set_self hp)]
    obtain ⟨hi, -⟩ | ⟨d, hc, hk, h⟩ := probe_cases h
    · exact absurd hi hip
    · rw [probe_pass _ ((getD_set_ne _ hip).trans hc) hk, length_set]
      exact ih h

theorem probe_update {j : K} {v : V} (w : V) {i : ℕ}
    (hp : p < t.length) (he : t.getD p none = some (j, v)) :
    probe (t.set p (some (j, w))) k fuel i = probe t k fuel i := by
  induction fuel generalizing i with
  | zero => rfl
  | succ fuel ih =>
    by_cases hip : i = p
    · rw [hip]
      by_cases hk : j = k
      · rw [probe_hit _ (v := w) (by rw [getD_set_self hp, hk]),
          probe_hit _ (v := v) (by rw [he, hk])]
      · rw [probe_pass _ (getD_set_self hp) hk, probe_pass _ he hk, length_set, ih]
    · have hs := getD_set_ne (t := t) (some (j, w)) hip
      simp only [probe, hs, length_set, ih]

theorem probe_ends (k : K) (d fuel i : ℕ) (hd : d < fuel)
    (h : t.getD ((i+d)%t.length) none = none) (hi : i < t.length) : ∃ p, probe t k fuel i = some p := by
  induction d generalizing fuel i with
  | zero =>
    obtain ⟨f, rfl⟩ := Nat.exists_eq_succ_of_ne_zero (Nat.ne_of_gt hd)
    rw [Nat.add_zero, Nat.mod_eq_of_lt hi] at h
    exact ⟨i, probe_empty k f h⟩
  | succ d ih =>
    obtain ⟨f, rfl⟩ := Nat.exists_eq_succ_of_ne_zero (Nat.ne_of_gt (Nat.zero_lt_of_lt hd))
    cases hc : t.getD i none with
    | none => exact ⟨i, probe_empty k f hc⟩
    | some e =>
      by_cases hk : e.1 = k
      · exact ⟨i, probe_hit f (v := e.2) (by rw [hc, ← hk])⟩
      rw [probe_pass f hc hk]
      refine ih f ((i+1)%t.length) (by omega) ?_ (Nat.mod_lt _ (by omega))
      rw [Nat.mod_add_mod, ← h]
      congr 2
      omega

theorem probe_total (k : K) (hi : i < t.length) (h : used t < t.length) :
    ∃ p, probe t k t.length i = some p := by
  obtain ⟨q, hq, he⟩ := exists_empty h
  refine probe_ends k ((q+t.length-i)%t.length) t.length i (Nat.mod_lt _ (by omega)) ?_ hi
  rw [Nat.add_mod_mod]
  have hs : i+(q+t.length-i) = q+t.length := by omega
  rw [hs, Nat.add_mod_right, Nat.mod_eq_of_lt hq]
  exact he

def Settled (hash : K → ℕ) (t : Cells K V) : Prop :=
  ∀ p e, t.getD p none = some e → probe t e.1 t.length (hash e.1%t.length) = some p

def lookup (hash : K → ℕ) (t : Cells K V) (k : K) : Option V :=
  (probe t k t.length (hash k%t.length)).bind fun p => (t.getD p none).map Prod.snd

section Contents

variable {hash : K → ℕ} {t : Cells K V}

theorem lookup_iff (hs : Settled hash t) (k : K) (v : V) :
    lookup hash t k = some v ↔ ∃ p, t.getD p none = some (k, v) := by
  constructor
  · intro h
    obtain ⟨p, hp, hv⟩ := bind_eq_some_iff.mp h
    obtain ⟨e, he, rfl⟩ := map_eq_some_iff.mp hv
    rcases probe_found hp with hn | ⟨w, hw⟩
    · exact absurd (hn.symm.trans he) (by simp)
    · cases some.inj (hw.symm.trans he)
      exact ⟨p, hw⟩
  · rintro ⟨p, hp⟩
    rw [lookup, hs p _ hp, bind_some, hp, map_some]

variable {v : V}

theorem lookup_update_of {t' : Cells K V} {k : K} (hs : Settled hash t)
    (hs' : Settled hash t') (hk : ∃ p, t'.getD p none = some (k, v))
    (ho : ∀ j w, j ≠ k → ((∃ p, t'.getD p none = some (j, w)) ↔ ∃ p, t.getD p none = some (j, w))) :
    lookup hash t' = update (lookup hash t) k (some v) := by
  funext j
  by_cases hj : j = k
  · rw [hj, update_self]
    exact (lookup_iff hs' k v).mpr hk
  rw [update_of_ne hj]
  ext w
  rw [lookup_iff hs', lookup_iff hs]
  exact ho j w hj

theorem settled_fill {k : K} {q : ℕ} (v : V) (hs : Settled hash t) (ht : 0 < t.length)
    (hp : probe t k t.length (hash k%t.length) = some q) (he : t.getD q none = none) :
    Settled hash (t.set q (some (k, v))) := by
  have hq := probe_lt (Nat.mod_lt _ ht) hp
  intro p e h
  rw [length_set]
  by_cases hpq : p = q
  · rw [hpq, getD_set_self hq] at h
    cases h
    rw [hpq]
    exact probe_filled v _ hq hp
  · rw [getD_set_ne _ hpq] at h
    exact probe_fill h he (hs p e h)

theorem lookup_fill {k : K} {q : ℕ} (v : V) (hs : Settled hash t) (ht : 0 < t.length)
    (hp : probe t k t.length (hash k%t.length) = some q) (he : t.getD q none = none) :
    lookup hash (t.set q (some (k, v))) = update (lookup hash t) k (some v) := by
  have hq := probe_lt (Nat.mod_lt _ ht) hp
  refine lookup_update_of hs (settled_fill v hs ht hp he) ⟨q, getD_set_self hq⟩ fun j w hj => ?_
  constructor
  · rintro ⟨p, h⟩
    by_cases hpq : p = q
    · rw [hpq, getD_set_self hq] at h
      cases h
      exact absurd rfl hj
    · rw [getD_set_ne _ hpq] at h
      exact ⟨p, h⟩
  · rintro ⟨p, h⟩
    have hpq : p ≠ q := fun hpq => some_ne_none _ (by rw [← h, hpq, he])
    exact ⟨p, by rw [getD_set_ne _ hpq, h]⟩

theorem settled_replace {k : K} {p : ℕ} (w : V) (hs : Settled hash t)
    (he : t.getD p none = some (k, v)) (hp : p < t.length) : Settled hash (t.set p (some (k, w))) := by
  intro q e h
  rw [length_set, probe_update w hp he]
  by_cases hqp : q = p
  · rw [hqp, getD_set_self hp] at h
    cases h
    rw [hqp]
    exact hs p (k, v) he
  · rw [getD_set_ne _ hqp] at h
    exact hs q e h

theorem lookup_replace {k : K} {p : ℕ} (w : V) (hs : Settled hash t)
    (he : t.getD p none = some (k, v)) (hp : p < t.length) :
    lookup hash (t.set p (some (k, w))) = update (lookup hash t) k (some w) := by
  refine lookup_update_of hs (settled_replace w hs he hp) ⟨p, getD_set_self hp⟩ fun j x hj => ?_
  constructor
  · rintro ⟨q, h⟩
    by_cases hqp : q = p
    · rw [hqp, getD_set_self hp] at h
      cases h
      exact absurd rfl hj
    · rw [getD_set_ne _ hqp] at h
      exact ⟨q, h⟩
  · rintro ⟨q, h⟩
    have hqp : q ≠ p := by
      rintro rfl
      cases he.symm.trans h
      exact hj rfl
    exact ⟨q, by rw [getD_set_ne _ hqp, h]⟩

end Contents

/-! ### Growth -/

def vacant (t : Cells K V) : ℕ → ℕ → Option ℕ
  | 0, _ => none
  | fuel+1, i =>
    match t.getD i none with
    | none => some i
    | some _ => vacant t fuel ((i+1)%t.length)

/-- An entry moved into a table, where its key is not compared with others. -/
def place (hash : K → ℕ) (t : Cells K V) (e : K × V) : Cells K V :=
  match vacant t t.length (hash e.1%t.length) with
  | some q => t.set q (some e)
  | none => t

def rehash (hash : K → ℕ) (t : Cells K V) : Cells K V :=
  (t.filterMap id).foldl (place hash) (List.replicate (2*t.length) none)

theorem vacant_eq_probe (hk : ∀ p v, t.getD p none ≠ some (k, v))
    (fuel i : ℕ) : vacant t fuel i = probe t k fuel i := by
  induction fuel generalizing i with
  | zero => rfl
  | succ fuel ih =>
    cases hc : t.getD i none with
    | none => simp only [vacant, probe, hc]
    | some e =>
      have he : e.1 ≠ k := fun he => hk i e.2 (by rw [hc, ← he])
      simp only [vacant, probe, hc, if_neg he, ih]

section Placing

variable {hash : K → ℕ} {t : Cells K V} {e : K × V}

theorem place_spec (hs : Settled hash t) (hr : used t < t.length) (hk : lookup hash t e.1 = none) :
    Settled hash (place hash t e) ∧ (place hash t e).length = t.length ∧ used (place hash t e) = used t+1 ∧
      lookup hash (place hash t e) = update (lookup hash t) e.1 (some e.2) := by
  have ht : 0 < t.length := by omega
  have hn : ∀ p v, t.getD p none ≠ some (e.1, v) := fun p v h =>
    some_ne_none v (by rw [← hk, (lookup_iff hs e.1 v).mpr ⟨p, h⟩])
  obtain ⟨q, hq⟩ := probe_total e.1 (Nat.mod_lt (hash e.1) ht) hr
  have he : t.getD q none = none := by
    rcases probe_found hq with h | ⟨v, h⟩
    · exact h
    · exact absurd h (hn q v)
  have hl := probe_lt (Nat.mod_lt _ ht) hq
  have hp : place hash t e = t.set q (some (e.1, e.2)) := by
    rw [place, vacant_eq_probe hn, hq]
  rw [hp]
  exact ⟨settled_fill e.2 hs ht hq he, length_set, used_fill t q _ hl he, lookup_fill e.2 hs ht hq he⟩

theorem placed_run {es : List (K × V)} (hs : Settled hash t) (hr : used t+es.length < t.length+1)
    (hd : (es.map Prod.fst).Nodup) (hf : ∀ e ∈ es, lookup hash t e.1 = none) :
    Settled hash (es.foldl (place hash) t) ∧ (es.foldl (place hash) t).length = t.length ∧
      used (es.foldl (place hash) t) = used t+es.length ∧ ∀ k v,
      lookup hash (es.foldl (place hash) t) k = some v ↔
        lookup hash t k = some v ∨ (k, v) ∈ es := by
  induction es generalizing t with
  | nil => exact ⟨hs, rfl, rfl, fun k v => by simp⟩
  | cons e es ih =>
    rw [length_cons] at hr
    obtain ⟨hs', hl, hu, hv⟩ := place_spec hs (by omega) (hf e mem_cons_self)
    obtain ⟨hne, hd'⟩ := nodup_cons.mp hd
    have hf' : ∀ x ∈ es, lookup hash (place hash t e) x.1 = none := by
      intro x hx
      have hxe : x.1 ≠ e.1 := fun h => hne (h ▸ mem_map_of_mem hx)
      rw [hv, update_of_ne hxe]
      exact hf x (mem_cons_of_mem e hx)
    obtain ⟨h1, h2, h3, h4⟩ := ih hs' (by omega) hd' hf'
    refine ⟨h1, h2.trans hl, ?_, fun k v => ?_⟩
    · rw [foldl_cons, h3, hu, length_cons]
      omega
    rw [foldl_cons, h4, hv, mem_cons]
    by_cases hk : k = e.1
    · have hn : (k, v) ∉ es := fun h => hne (hk ▸ mem_map_of_mem (f := Prod.fst) h)
      have h0 : lookup hash t k = none := hk ▸ hf e mem_cons_self
      rw [hk, update_self, ← hk, h0]
      constructor
      · rintro (h | h)
        · exact .inr (.inl (Prod.ext hk (some.inj h).symm))
        · exact absurd h hn
      rintro (h | h | h)
      · simp at h
      · exact .inl (by rw [← h])
      · exact absurd h hn
    · have hne' : (k, v) ≠ e := fun h => hk (congrArg Prod.fst h)
      rw [update_of_ne hk]
      simp [hne']

end Placing

/-! ### Tables -/

structure Table (K V : Type) [DecidableEq K] (hash : K → ℕ) where
  cells : Cells K V
  settled : Settled hash cells
  inhabited : 0 < cells.length

namespace Table

variable {hash : K → ℕ}

def view (t : Table K V hash) : K → Option V := lookup hash t.cells

def entries (t : Table K V hash) : List (K × V) := t.cells.filterMap id

theorem mem_entries (t : Table K V hash) (k : K) (v : V) : (k, v) ∈ t.entries ↔ t.view k = some v := by
  rw [view, lookup_iff t.settled, entries, mem_filterMap]
  constructor
  · rintro ⟨x, hx, rfl⟩
    obtain ⟨p, hp, hc⟩ := mem_iff_getElem.mp hx
    exact ⟨p, by rw [getD_eq_getElem?_getD, getElem?_eq_getElem hp, hc, getD_some]⟩
  rintro ⟨p, h⟩
  refine ⟨some (k, v), ?_, rfl⟩
  by_cases hl : p < t.cells.length
  · rw [getD_eq_getElem?_getD, getElem?_eq_getElem hl, getD_some] at h
    exact h ▸ getElem_mem hl
  · rw [getD_eq_getElem?_getD, getElem?_eq_none (by omega)] at h
    simp at h

theorem nodup_keys (t : Table K V hash) : (t.entries.map Prod.fst).Nodup := by
  have hp : t.cells.Pairwise fun a b => ∀ x ∈ a, ∀ y ∈ b, x.1 ≠ y.1 := by
    rw [pairwise_iff_getElem]
    intro i j hi hj hij x hx y hy hxy
    have hix : t.cells.getD i none = some x := by
      rw [getD_eq_getElem?_getD, getElem?_eq_getElem hi]; exact hx
    have hjy : t.cells.getD j none = some y := by
      rw [getD_eq_getElem?_getD, getElem?_eq_getElem hj]; exact hy
    have hx' := t.settled i x hix
    rw [hxy, t.settled j y hjy] at hx'
    exact absurd (some.inj hx') (by omega)
  rw [List.Nodup, pairwise_map]
  exact List.Pairwise.filterMap id (fun a b h x hx y hy => h x hx y hy) hp

theorem replicate_settled (cap : ℕ) : Settled hash (List.replicate cap none : Cells K V) :=
  fun p e he => absurd ((replicate_getD cap p).symm.trans he) (by simp)

def empty (cap : ℕ) (h : 0 < cap) : Table K V hash where
  cells := List.replicate cap none
  settled := replicate_settled cap
  inhabited := (length_replicate ..).symm ▸ h

theorem empty_view (cap : ℕ) (h : 0 < cap) : (empty cap h : Table K V hash).view = fun _ => none := by
  funext k
  refine eq_none_iff_forall_ne_some.mpr fun v hv => ?_
  obtain ⟨p, hp⟩ := (lookup_iff (empty cap h : Table K V hash).settled k v).mp hv
  exact absurd ((replicate_getD cap p).symm.trans hp) (by simp)

theorem rehash_spec (t : Table K V hash) :
    Settled hash (rehash hash t.cells) ∧ (rehash hash t.cells).length = 2*t.cells.length ∧
      used (rehash hash t.cells) = used t.cells ∧ lookup hash (rehash hash t.cells) = t.view := by
  have hpos := t.inhabited
  have hle : used t.cells ≤ t.cells.length := countP_le_length
  have hu : used (List.replicate (2*t.cells.length) none : Cells K V) = 0 := by
    simp [used]
  have hv : (empty (2*t.cells.length) (by omega) : Table K V hash).view = fun _ => none := empty_view _ _
  obtain ⟨h1, h2, h3, h4⟩ := placed_run
    (empty (2*t.cells.length) (by omega) : Table K V hash).settled
    (by rw [empty, hu, length_replicate, entries, used_entries]; omega) t.nodup_keys
    (fun e _ => congrFun hv e.1)
  refine ⟨h1, h2.trans (length_replicate ..), ?_, ?_⟩
  · refine h3.trans ?_
    rw [empty, hu, entries, used_entries, Nat.zero_add]
  funext k
  ext v
  refine (h4 k v).trans ?_
  rw [mem_entries]
  have hn : lookup hash (empty (2*t.cells.length) (by omega) : Table K V hash).cells k = none :=
    congrFun hv k
  simp [hn]

theorem rehash_inhabited (t : Table K V hash) : 0 < (rehash hash t.cells).length := by
  rw [(rehash_spec t).2.1]
  have := t.inhabited
  omega

def grow (t : Table K V hash) : Table K V hash where
  cells := rehash hash t.cells
  settled := (rehash_spec t).1
  inhabited := rehash_inhabited t

def grown (t : Table K V hash) : Table K V hash :=
  if t.cells.length ≤ used t.cells*2 then t.grow else t

def putCells (hash : K → ℕ) (t : Cells K V) (k : K) (v : V) : Cells K V :=
  match probe t k t.length (hash k%t.length) with
  | some p => t.set p (some (k, v))
  | none => t

theorem putCells_spec (t : Table K V hash) (k : K) (v : V) {p : ℕ}
    (hp : probe t.cells k t.cells.length (hash k%t.cells.length) = some p) :
    Settled hash (t.cells.set p (some (k, v))) ∧
      lookup hash (t.cells.set p (some (k, v))) = update t.view k (some v) := by
  rcases probe_found hp with he | ⟨w, he⟩
  · exact ⟨settled_fill v t.settled t.inhabited hp he, lookup_fill v t.settled t.inhabited hp he⟩
  · have hl := probe_lt (Nat.mod_lt _ t.inhabited) hp
    exact ⟨settled_replace v t.settled he hl, lookup_replace v t.settled he hl⟩

theorem putCells_settled (t : Table K V hash) (k : K) (v : V) : Settled hash (putCells hash t.cells k v) := by
  unfold putCells
  split
  · exact (putCells_spec t k v ‹_›).1
  · exact t.settled

theorem putCells_length (t : Table K V hash) (k : K) (v : V) : 0 < (putCells hash t.cells k v).length := by
  unfold putCells
  split
  · rw [length_set]; exact t.inhabited
  · exact t.inhabited

def put (t : Table K V hash) (k : K) (v : V) : Table K V hash where
  cells := putCells hash t.cells k v
  settled := putCells_settled t k v
  inhabited := putCells_length t k v

def upsert (t : Table K V hash) (k : K) (init : V) (f : V → V) : Table K V hash :=
  t.grown.put k (f ((t.grown.view k).getD init))

end Table

end QEngine.ProbeTables

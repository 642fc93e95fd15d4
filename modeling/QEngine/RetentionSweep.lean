import QEngine.PartitionNames

/-!
# Retention sweeps

A sweep removes the partitions older than the duration of the first rule that
matches their table. Durations are multiplied in 64-bit arithmetic, so a long one
may be compared as a short one or be dropped, and a partition is kept while its age
is at most the duration.
-/

namespace QEngine.RetentionSweep
open PartitionNames

/-- The number read, without its bound, and the text behind it. -/
def strtoll (s : List Char) : Option (ℤ × List Char) :=
  let t := s.dropWhile fun c => c.toNat = 32 ∨ (9 ≤ c.toNat ∧ c.toNat ≤ 13)
  let u := if t.head? = some '-' ∨ t.head? = some '+' then t.tail else t
  let v : ℤ := (u.takeWhile Char.isDigit).foldl (fun a c => 10*a+(c.toNat-48)) 0
  if u.takeWhile Char.isDigit = [] then none
  else some (if t.head? = some '-' then -v else v, u.dropWhile Char.isDigit)

def unitSeconds : List Char → Option ℤ
  | [] => some 1
  | c::_ =>
    if c = 'd' ∨ c = 'D' then some 86400
    else if c = 'h' ∨ c = 'H' then some 3600
    else if c = 'm' ∨ c = 'M' then some 60
    else if c = 's' ∨ c = 'S' then some 1
    else none

def duration (s : List Char) : Option (ℤ × ℤ) := do
  let (v, rest) ← strtoll s
  let k ← unitSeconds rest
  if v ≤ 0 then none else some (v, k)

def parseDurationNs (s : List Char) : ℤ :=
  match duration s with
  | none => -1
  | some (v, k) => wrap (min v (2^63-1)*k*1000000000)

def durationNs (s : List Char) : Option ℤ := (duration s).map fun d => d.1*d.2*1000000000

structure DirDate where
  year : ℤ
  month : ℤ
  day : ℤ
  hour : Option ℤ

def dirDate : List ℤ → Option DirDate
  | [a, b, c, d, e, f, g, h] => some ⟨1000*a+100*b+10*c+d, 10*e+f, 10*g+h, none⟩
  | [a, b, c, d, e, f, g, h, i, j] => some ⟨1000*a+100*b+10*c+d, 10*e+f, 10*g+h, some (10*i+j)⟩
  | _ => none

def DirDate.Valid (d : DirDate) : Prop :=
  1970 ≤ d.year ∧ d.year ≤ 9999 ∧ 1 ≤ d.month ∧ d.month ≤ 12 ∧ 1 ≤ d.day ∧ d.day ≤ 31 ∧ ∀ h ∈ d.hour,
    0 ≤ h ∧ h ≤ 23

instance (d : DirDate) : Decidable d.Valid := inferInstanceAs (Decidable (_ ∧ _))

def DirDate.end (d : DirDate) : ℤ :=
  match d.hour with
  | none => timegm d.year d.month (d.day+1)*86400*1000000000
  | some h => (timegm d.year d.month d.day*86400+(h+1)*3600)*1000000000

def partDirEndTsNs (name : List ℤ) : ℤ :=
  match dirDate name with
  | none => -1
  | some d => if d.Valid then wrap d.end else -1

variable {P T : Type} (fnmatch : P → T → Bool)

def retentionConfLoad (lines : List (P × List Char)) : List (P × List Char) :=
  (lines.filter fun l => 0 < parseDurationNs l.2).take 256

def retentionConfLookup (lines : List (P × List Char)) (t : T) : Option (List Char) :=
  ((retentionConfLoad lines).find? fun r => fnmatch r.1 t).map Prod.snd

def sweepDataDir (lines : List (P × List Char)) (now : ℤ) (tables : List (T × List (List ℤ))) :
    List (T × List (List ℤ)) :=
  tables.map fun t =>
    match retentionConfLookup fnmatch lines t.1 with
    | none => t
    | some s => (t.1, t.2.filter fun p =>
      partDirEndTsNs p < 0 ∨ wrap (now-partDirEndTsNs p) ≤ parseDurationNs s)

/-- The duration of the first rule for the table, as its text says it. -/
def configured (lines : List (P × List Char)) (t : T) : Option ℤ :=
  ((lines.filter fun l => (durationNs l.2).isSome).find? fun l => fnmatch l.1 t).bind fun l => durationNs l.2

/-- The duration that the sweep compares with. -/
def inForce (lines : List (P × List Char)) (t : T) : Option ℤ :=
  (retentionConfLookup fnmatch lines t).map parseDurationNs

def Expired (d : Option ℤ) (now : ℤ) (p : List ℤ) : Prop := ∃ x ∈ d, ∃ e ∈ dirDate p, e.end ≤ now-x

instance (d : Option ℤ) (now : ℤ) (p : List ℤ) : Decidable (Expired d now p) :=
  inferInstanceAs (Decidable (∃ x ∈ d, ∃ e ∈ dirDate p, e.end ≤ now-x))

/-- The age of the partition is not between the configured duration and the one in force; a
partition whose end the sweep cannot compute is younger than the configured duration. -/
def Judged (d w : Option ℤ) (now : ℤ) (e : DirDate) : Prop :=
  if e.Valid ∧ e.end < 2^63 then
    (∀ x ∈ d, x ≤ now-e.end → ∃ y ∈ w, y < now-e.end) ∧ (∀ y ∈ w, y < now-e.end → ∃ x ∈ d, x ≤ now-e.end)
  else ∀ x ∈ d, now-e.end < x

instance (d w : Option ℤ) (now : ℤ) (e : DirDate) : Decidable (Judged d w now e) := by
  unfold Judged
  infer_instance

theorem timegm_nonneg {y m d : ℤ} (hy : 1970 ≤ y) (hm : 1 ≤ m ∧ m ≤ 12) (hd : 1 ≤ d) : 0 ≤ timegm y m d := by
  obtain ⟨h, h'⟩ := hm
  simp only [timegm]
  interval_cases m <;> norm_num <;> omega

theorem wrap_fits {x : ℤ} (h : -2^63 ≤ x) (hx : x < 2^63) : wrap x = x := by
  rw [wrap]
  omega

theorem end_nonneg {e : DirDate} (hv : e.Valid) : 0 ≤ e.end := by
  obtain ⟨hy, -, hm, hm', hd, -, hh⟩ := hv
  have h := @timegm_nonneg e.year e.month e.day hy ⟨hm, hm'⟩ hd
  have h' := @timegm_nonneg e.year e.month (e.day+1) hy ⟨hm, hm'⟩ (by omega)
  rw [DirDate.end]
  split
  · omega
  next x hx =>
  have := hh x hx
  omega

variable {s : List Char}

theorem unitSeconds_pos {k : ℤ} (h : unitSeconds s = some k) : 0 < k := by
  cases s with
  | nil => cases h; decide
  | cons c cs =>
    rw [unitSeconds] at h
    split_ifs at h <;> cases h <;> decide

theorem duration_spec {v k : ℤ} (h : duration s = some (v, k)) : 0 < v ∧ 0 < k := by
  obtain ⟨⟨w, rest⟩, -, h⟩ := Option.bind_eq_some_iff.mp h
  obtain ⟨k', hk, h⟩ := Option.bind_eq_some_iff.mp h
  split_ifs at h with hv
  cases h
  exact ⟨not_le.mp hv, unitSeconds_pos hk⟩

theorem parseDurationNs_pos {d : ℤ} (h : ∀ d ∈ durationNs s, d < 2^63) (hd : durationNs s = some d) :
    parseDurationNs s = d ∧ 0 < d := by
  obtain ⟨⟨v, k⟩, hs, rfl⟩ := Option.map_eq_some_iff.mp hd
  obtain ⟨hv, hk⟩ := duration_spec hs
  have hlt := h _ hd
  have hle : v ≤ v*k*1000000000 := by nlinarith
  dsimp only at *
  rw [parseDurationNs, hs]
  dsimp only
  rw [min_eq_left (by omega), wrap_fits (by omega) hlt]
  exact ⟨rfl, by omega⟩

theorem parseDurationNs_exact (h : ∀ d ∈ durationNs s, d < 2^63) (hp : 0 < parseDurationNs s) :
    durationNs s = some (parseDurationNs s) := by
  cases hd : duration s with
  | none => simp [parseDurationNs, hd] at hp
  | some d =>
    have hs : durationNs s = some (d.1*d.2*1000000000) := by rw [durationNs, hd]; rfl
    rw [hs, (parseDurationNs_pos h hs).1]

theorem configured_exact {lines : List (P × List Char)} (hl : ∀ l ∈ lines, ∀ d ∈ durationNs l.2, d < 2^63)
    (hn : lines.length ≤ 256) (t : T) : inForce fnmatch lines t = configured fnmatch lines t := by
  have hvalid : ∀ l ∈ lines, decide (0 < parseDurationNs l.2) = (durationNs l.2).isSome := by
    intro l hm
    by_cases h : 0 < parseDurationNs l.2
    · rw [parseDurationNs_exact (hl l hm) h]
      simpa using h
    · cases hd : durationNs l.2 with
      | none => simpa using h
      | some d =>
        obtain ⟨he, hpos⟩ := parseDurationNs_pos (hl l hm) hd
        exact absurd (he ▸ hpos) h
  rw [inForce, retentionConfLookup, retentionConfLoad, List.filter_congr hvalid, configured,
    List.take_of_length_le ((List.length_filter_le ..).trans hn)]
  cases hf : (lines.filter fun l => (durationNs l.2).isSome).find? fun l => fnmatch l.1 t with
  | none => rfl
  | some l =>
    obtain ⟨hm, hs⟩ := List.mem_filter.mp (List.mem_of_find?_eq_some hf)
    have hp : 0 < parseDurationNs l.2 := of_decide_eq_true ((hvalid l hm).trans hs)
    simp [parseDurationNs_exact (hl l hm) hp]

theorem removed_iff {w : Option ℤ} {now : ℤ} {p : List ℤ} {e : DirDate} (hn : 0 ≤ now ∧ now < 2^63)
    (he : dirDate p = some e)
    (hx : e.end < 2^64) : (∃ y ∈ w, 0 ≤ partDirEndTsNs p ∧ y < wrap (now-partDirEndTsNs p)) ↔
      e.Valid ∧ e.end < 2^63 ∧ ∃ y ∈ w, y < now-e.end := by
  rw [partDirEndTsNs, he]
  dsimp only
  by_cases hv : e.Valid
  · have h0 := end_nonneg hv
    rw [if_pos hv]
    by_cases hlt : e.end < 2^63
    · rw [wrap_fits (by omega) hlt, wrap_fits (by omega) (by omega)]
      simp only [h0, hv, hlt, true_and]
    · have hneg : wrap e.end < 0 := by
        rw [wrap]
        omega
      simp only [hlt, not_le.mpr hneg, false_and, and_false, exists_false]
  · simp [hv]

theorem filter_eq_iff {α : Type} {f g : α → Bool} {l : List α} : l.filter f = l.filter g ↔ ∀ x ∈ l,
    f x = g x := by
  refine ⟨fun h x hx => Bool.eq_iff_iff.mpr ?_, List.filter_congr⟩
  have hm := congrArg (x ∈ ·) h
  simpa [hx] using hm

/-- One sweep at a time of the 64-bit clock removes exactly the expired partitions when, and only when,
no partition's age falls between its configured duration and the one the sweep compares with. -/
theorem expired_removed {lines : List (P × List Char)} {now : ℤ} {tables : List (T × List (List ℤ))}
    (hn : 0 ≤ now ∧ now < 2^63) (hp : ∀ t ∈ tables, ∀ p ∈ t.2, ∀ e ∈ dirDate p, e.end < 2^64) :
    sweepDataDir fnmatch lines now tables =
      (tables.map fun t => (t.1, t.2.filter fun p => ¬ Expired (configured fnmatch lines t.1) now p)) ↔
    ∀ t ∈ tables, ∀ p ∈ t.2, ∀ e ∈ dirDate p,
      Judged (configured fnmatch lines t.1) (inForce fnmatch lines t.1) now e := by
  have hsweep (t : T × List (List ℤ)) : (match retentionConfLookup fnmatch lines t.1 with
      | none => t
      | some s =>
        (t.1, t.2.filter fun p => partDirEndTsNs p < 0 ∨ wrap (now-partDirEndTsNs p) ≤ parseDurationNs s)) =
      (t.1, t.2.filter fun p => ¬ ∃ y ∈ inForce fnmatch lines t.1, 0 ≤ partDirEndTsNs p ∧
        y < wrap (now-partDirEndTsNs p)) := by
    rw [inForce]
    cases retentionConfLookup fnmatch lines t.1 with
    | none => simp
    | some s =>
      refine congrArg _ (List.filter_congr fun p _ => decide_eq_decide.mpr ?_)
      simp only [Option.map_some, Option.mem_def, Option.some.injEq, exists_eq_left']
      omega
  rw [sweepDataDir, List.map_inj_left]
  refine forall₂_congr fun t ht => ?_
  rw [hsweep t, Prod.mk.injEq, filter_eq_iff]
  simp only [true_and, decide_eq_decide, not_iff_not]
  refine forall₂_congr fun p hm => ?_
  cases he : dirDate p with
  | none => simp [Expired, he, partDirEndTsNs]
  | some e =>
    rw [removed_iff hn he (hp t ht p hm e he)]
    simp only [Expired, he, Option.mem_def, Option.some.injEq, forall_eq', exists_eq_left', Judged]
    split_ifs with hv
    · simp only [hv, true_and]
      constructor
      · intro h
        refine ⟨fun x hx hle => h.mpr ⟨x, hx, by omega⟩, fun y hy hlt => ?_⟩
        obtain ⟨x, hx, hle⟩ := h.mp ⟨y, hy, hlt⟩
        exact ⟨x, hx, by omega⟩
      · rintro ⟨h, h'⟩
        refine ⟨fun ⟨y, hy, hlt⟩ => ?_, fun ⟨x, hx, hle⟩ => h x hx (by omega)⟩
        obtain ⟨x, hx, hle⟩ := h' y hy hlt
        exact ⟨x, hx, by omega⟩
    · constructor
      · intro h x hx
        by_contra hlt
        have hr := h.mpr ⟨x, hx, by omega⟩
        exact hv ⟨hr.1, hr.2.1⟩
      · intro h
        refine ⟨fun hr => absurd ⟨hr.1, hr.2.1⟩ hv, fun ⟨x, hx, hle⟩ => ?_⟩
        have := h x hx
        omega

theorem expired_removed_day : sweepDataDir (fun _ _ : Unit => true) [((), ['1', 'd'])] 172800000000001
    [((), [[1, 9, 7, 0, 0, 1, 0, 1], [1, 9, 7, 0, 0, 1, 0, 2]])] = [((), [[1, 9, 7, 0, 0, 1, 0, 2]])] :=
  ((expired_removed _ (by decide) (by decide)).mpr (by decide)).trans (by decide)

theorem long_retention_removes : sweepDataDir (fun _ _ : Unit => true)
    [((), ['2', '1', '3', '5', '0', '4', 'd'])]
  1767315600000000000 [((), [[2, 0, 2, 6, 0, 1, 0, 1]])] = [((), [])] ∧
  ¬ Expired (configured (fun _ _ : Unit => true) [((), ['2', '1', '3', '5', '0', '4', 'd'])] ())
  1767315600000000000
    [2, 0, 2, 6, 0, 1, 0, 1] := by decide

end QEngine.RetentionSweep

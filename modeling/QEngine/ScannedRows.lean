import QEngine.SelectQueries

/-!
# Rows in the order of a scan

LATEST ON takes the first row of a key against the order of the plan, which is the
latest one if no late row of the key stands behind it.
-/

namespace QEngine.ScannedRows
open List QueryTables SourceScans ScanPaths RowProjections GroupedRows SelectQueries

variable {n : ℕ} {s : Schema n} {σ α : Type} {junk : UInt64} {f : σ → Row n → σ}

def tableRows (t : Table s) : List (Row n) :=
  match scanPlanBuild t TsRange.all with
  | .ok srcs => srcs.flatMap Source.rows
  | .error _ => []

def turned (back : Bool) (xs : List α) : List α := if back then xs.reverse else xs

structure Folds (x : Scan s σ) (back : Bool) (f : σ → Row n → σ) : Prop where
  cond : x.cond = none
  skip : ∀ src, x.skip src = false
  shortcut : ∀ st src, x.shortcut st src = none
  done : ∀ st r, x.done st = true → f st r = st
  take : ∀ st rows, x.take st rows (rows.map fun _ => true) = .ok ((turned back rows).foldl f st)

theorem foldl_done {x : Scan s σ} {back : Bool} (hx : Folds x back f) {st : σ} (h : x.done st = true)
    (rows : List (Row n)) :
    rows.foldl f st = st := by
  induction rows with
  | nil => rfl
  | cons r rows ih => rw [foldl_cons, hx.done st r h, ih]

theorem scanSources_folds {x : Scan s σ} {back : Bool} (hx : Folds x back f)
    {srcs : List (Source s)} {st st' : σ} (h : scanSources junk x st srcs = .ok st') :
    st' = (srcs.flatMap fun src => turned back src.rows).foldl f st := by
  induction srcs generalizing st with
  | nil => exact (Except.ok.inj h).symm
  | cons src srcs ih =>
    rw [scanSources_cons] at h
    obtain ⟨st1, h1, h⟩ := bind_ok_iff.mp h
    rw [ih h, flatMap_cons, foldl_append]
    congr 1
    rcases scanSource_ok h1 with ⟨hd, rfl⟩ | ⟨-, hk, -⟩ | ⟨-, -, hc⟩ | ⟨-, -, -, -, p, hp, ht⟩
    · exact (foldl_done hx hd _).symm
    · exact absurd ((hx.skip src).symm.trans hk) (by simp)
    · exact absurd ((hx.shortcut st src).symm.trans hc) (by simp)
    rw [hx.cond] at hp
    cases hp
    exact Except.ok.inj (ht.symm.trans (hx.take st src.rows))

theorem run_folds {x : Executor s σ α} (hx : Folds x.toScan x.backwards f) (hp : x.prune = TsRange.all)
    {t : Table s}
    {a : α} (h : x.run junk t = .ok a) : x.finish ((turned x.backwards (tableRows t)).foldl f x.start) =
    .ok a := by
  obtain ⟨srcs, hs, h⟩ := bind_ok_iff.mp h
  obtain ⟨st, hst, h⟩ := bind_ok_iff.mp h
  rw [hp] at hs
  have hrows : turned x.backwards (tableRows t) =
      (if x.backwards then srcs.reverse else srcs).flatMap fun src => turned x.backwards src.rows := by
    rw [tableRows, hs]
    unfold turned
    split
    · exact reverse_flatMap
    · rfl
  rw [hrows, ← scanSources_folds hx hst]
  exact h

/-! ### LATEST ON -/

variable {e : Engine} {q : Query n} {parts : List (Fin n)} {names : List String} {t : Table s}
    {out : List (List UInt64)}

theorem latest_folds : Folds (latestExecutor s e q parts).toScan true (latestRow s q parts) where
  cond := rfl
  skip _ := rfl
  shortcut _ _ := rfl
  done _ _ h := if_pos h
  take _ _ := rfl

theorem latestKey_congr {a b : Row n} (h : parts.map a = parts.map b) :
    latestKey s parts a = latestKey s parts b := by
  have hb : parts.flatMap (cellBytes s a) = parts.flatMap (cellBytes s b) :=
    flatMap_congr fun c hc => by rw [cellBytes, cellBytes, map_inj_left.mp h c hc]
  rw [latestKey, latestKey, hb]

/-- One row of each key hash is taken, the first in the order of the walk. -/
structure Picked (s : Schema n) (q : Query n) (parts : List (Fin n)) (before picks : List (Row n))
    (st : LatestState) :
    Prop where
  out : st.out = picks.map fun r => q.projs.map (latestCell r)
  seen : ∀ k, k ∈ st.seen ↔ k ∈ picks.map (latestKey s parts)
  nodup : (picks.map (latestKey s parts)).Nodup
  first : ∀ r ∈ picks, before.find? (fun x => latestKey s parts x = latestKey s parts r) = some r
  all : ∀ a ∈ before, latestKey s parts a ∈ picks.map (latestKey s parts)

theorem picked_step (hl : q.limit = none) {before picks : List (Row n)} {st : LatestState} {r : Row n}
    (h : Picked s q parts before picks st) :
    ∃ picks', Picked s q parts (before++[r]) picks' (latestRow s q parts st r) := by
  have hfirst : ∀ p ∈ picks, (before++[r]).find? (fun x => latestKey s parts x = latestKey s parts p) =
    some p :=
    fun p hp => by rw [find?_append, h.first p hp]; rfl
  -- a row of a key that was written
  have hold (hp : latestKey s parts r ∈ picks.map (latestKey s parts)) :
    Picked s q parts (before++[r]) picks st :=
    ⟨h.out, h.seen, h.nodup, hfirst, forall_mem_append.mpr ⟨h.all, forall_mem_singleton.mpr hp⟩⟩
  unfold latestRow
  split
  · rename_i hd
    refine ⟨picks, hold ?_⟩
    simp only [latestDone, within, hl, Option.all_none, Bool.not_true, Bool.false_or, Bool.and_eq_true,
      List.isEmpty_iff, Bool.not_eq_true'] at hd
    obtain ⟨rfl, hd⟩ := hd
    rw [h.out] at hd
    obtain ⟨p, hp⟩ := exists_mem_of_ne_nil picks (by rintro rfl; simp at hd)
    exact mem_map.mpr ⟨p, hp, rfl⟩
  split
  · exact ⟨picks, hold ((h.seen _).mp ‹_›)⟩
  rename_i hn
  rw [h.seen] at hn
  have hnone : before.find? (fun x => latestKey s parts x = latestKey s parts r) = none := by
    rw [find?_eq_none]
    exact fun x hx he => hn (of_decide_eq_true he ▸ h.all x hx)
  refine ⟨picks++[r], by simp [h.out], fun k => ?_, ?_, ?_, fun a ha => ?_⟩
  · rw [mem_cons, h.seen, map_append, mem_append, or_comm, map_singleton, mem_singleton]
  · rw [map_append, nodup_append]
    exact ⟨h.nodup, nodup_singleton _, fun a ha b hb he => hn (mem_singleton.mp hb ▸ he ▸ ha)⟩
  · refine forall_mem_append.mpr ⟨hfirst, forall_mem_singleton.mpr ?_⟩
    rw [find?_append, hnone]
    simp
  · rw [map_append, mem_append]
    obtain ha | ha := mem_append.mp ha
    · exact .inl (h.all a ha)
    · exact .inr (by simp [mem_singleton.mp ha])

theorem picked_fold (hl : q.limit = none) {rows before picks : List (Row n)} {st : LatestState}
    (h : Picked s q parts before picks st) :
    ∃ picks', Picked s q parts (before++rows) picks' (rows.foldl (latestRow s q parts) st) := by
  induction rows generalizing before picks st with
  | nil => exact ⟨picks, by rwa [append_nil]⟩
  | cons r rows ih =>
    rw [append_cons]
    obtain ⟨picks', h'⟩ := @picked_step _ _ _ _ hl _ _ _ r h
    exact ih h'

/-- One row for each key, and no row of the key is later. -/
def LatestOf (s : Schema n) (parts : List (Fin n)) (rows picks : List (Row n)) : Prop :=
  (picks.map fun r => parts.map r).Nodup ∧ (∀ r ∈ picks, r ∈ rows) ∧
    ∀ a ∈ rows, ∃ r ∈ picks, parts.map r = parts.map a ∧ s.time a ≤ s.time r

/-- Keys are told apart by their hashes, and no row of a key is later than its last row in the order of
the scan. -/
structure LastLatest (s : Schema n) (parts : List (Fin n)) (rows : List (Row n)) : Prop where
  keys : ∀ a ∈ rows, ∀ b ∈ rows, latestKey s parts a = latestKey s parts b → parts.map a = parts.map b
  last : ∀ l r m, rows = l++r::m → (∀ b ∈ m, parts.map b ≠ parts.map r) →
    ∀ a ∈ l, parts.map a = parts.map r → s.time a ≤ s.time r

section
variable {rows picks : List (Row n)} {st : LatestState}

theorem Picked.mem (h : Picked s q parts rows.reverse picks st) {r : Row n} (hr : r ∈ picks) : r ∈ rows :=
  mem_reverse.mp (mem_of_find?_eq_some (h.first r hr))

/-- A pick is the last row of its key hash in the order of the scan. -/
theorem Picked.last (h : Picked s q parts rows.reverse picks st) {p : Row n} (hp : p ∈ picks) :
    ∃ l m, rows = l++p::m ∧
    ∀ b ∈ m, latestKey s parts b ≠ latestKey s parts p := by
  obtain ⟨-, as, bs, hsplit, hno⟩ := find?_eq_some_iff_append.mp (h.first p hp)
  refine ⟨bs.reverse, as.reverse, ?_, fun b hb => by simpa using hno b (mem_reverse.mp hb)⟩
  rw [← reverse_reverse rows, hsplit, reverse_append, reverse_cons, append_assoc]
  rfl

theorem Picked.latestOf (h : Picked s q parts rows.reverse picks st) (hc : LastLatest s parts rows) :
    LatestOf s parts rows picks := by
  refine ⟨?_, fun r => h.mem, fun a ha => ?_⟩
  · exact pairwise_map.mpr ((pairwise_map.mp h.nodup).imp fun hne he => hne (latestKey_congr he))
  obtain ⟨p, hp, he⟩ := mem_map.mp (h.all a (mem_reverse.mpr ha))
  have hkey := hc.keys p (h.mem hp) a ha he
  obtain ⟨l, m, hrows, hno⟩ := h.last hp
  refine ⟨p, hp, hkey, ?_⟩
  rw [hrows, mem_append, mem_cons] at ha
  rcases ha with ha | rfl | ha
  · exact hc.last l p m hrows (fun b hb hb' => hno b hb (latestKey_congr hb')) a ha hkey.symm
  · exact Int64.le_refl _
  · exact absurd he.symm (hno a ha)

theorem Picked.lastLatest (h : Picked s q parts rows.reverse picks st) (hl : LatestOf s parts rows picks) :
    LastLatest s parts rows := by
  have hkeys : ∀ a ∈ rows, ∀ b ∈ rows, latestKey s parts a = latestKey s parts b →
    parts.map a = parts.map b := by
    intro a ha b hb he
    obtain ⟨pa, hpa, hka, -⟩ := hl.2.2 a ha
    obtain ⟨pb, hpb, hkb, -⟩ := hl.2.2 b hb
    have hab : pa = pb := inj_on_of_nodup_map h.nodup hpa hpb
      ((latestKey_congr hka).trans (he.trans (latestKey_congr hkb).symm))
    rw [← hka, ← hkb, hab]
  refine ⟨hkeys, fun l r m hrows hno a ha hk => ?_⟩
  have hr : r ∈ rows := by simp [hrows]
  have har : a ∈ rows := by simp [hrows, ha]
  obtain ⟨p, hp, hkp, ht⟩ := hl.2.2 a har
  -- the pick of the key is its last row `r`
  have hfind := h.first p hp
  rw [hrows, reverse_append, reverse_cons, append_assoc, find?_append, find?_eq_none.mpr,
    Option.none_or] at hfind
  · rw [singleton_append, find?_cons_of_pos (by simp [latestKey_congr (hk.symm.trans hkp.symm)])] at hfind
    rwa [Option.some.inj hfind]
  · intro b hb he
    have hb' : b ∈ rows := by simp [hrows, mem_reverse.mp hb]
    exact hno b (mem_reverse.mp hb) ((hkeys b hb' p (h.mem hp) (of_decide_eq_true he)).trans (hkp.trans hk))

end

theorem latestCells_inj (hall : ∀ c, Proj.col c ∈ q.projs) :
    Function.Injective fun r : Row n => q.projs.map (latestCell r) := by
  intro a b h
  funext c
  exact map_inj_left.mp h _ (hall c)

end QEngine.ScannedRows

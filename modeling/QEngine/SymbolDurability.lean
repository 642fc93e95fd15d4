import QEngine.SymbolTables
import QEngine.StepRuns

/-!
# Symbol codes on disk and the dictionaries that name them

A flush saves the dictionary of every symbol column, without looking at the result,
then takes the number of rows and publishes blocks with their codes. A dictionary file
that cannot be opened counts as a new one.
-/

namespace QEngine.SymbolDurability
open Option List Function ByteFields SymbolTables StepRuns

structure Cell where
  code : ℕ
  str : Option Bytes
  deriving DecidableEq

abbrev Row := ℕ → Cell

/-- How far the flush has come: the next dictionary to save, or the number of
rows that are published. -/
inductive Phase
  | idle
  | saving (next : ℕ)
  | publishing (rows : ℕ)
  deriving DecidableEq

structure Table where
  tabs : ℕ → SymTab
  buf : ℕ → Row
  nrows : ℕ
  phase : Phase

structure Disk where
  files : ℕ → Option Bytes
  blocks : ℕ → List Cell

structure State where
  disk : Disk
  table : Option Table

structure Pending where
  tabs : ℕ → SymTab
  cells : ℕ → Option Cell

def rowSym (n : ℕ) (p : Pending) (call : ℕ × Bytes) : Pending :=
  if call.1 < n then
    let r := (p.tabs call.1).intern (cString call.2)
    ⟨update p.tabs call.1 r.1, update p.cells call.1 (some ⟨r.2, r.1.str r.2⟩)⟩
  else p

/-- The symbols of one row; `others` says that the other columns were set. A
row with a column left out is not added, its strings stay. -/
def addRow (n : ℕ) (calls : List (ℕ × Bytes)) (others : Bool) (t : Table) : Table :=
  let p := calls.foldl (rowSym n) ⟨t.tabs, fun _ => none⟩
  if others ∧ ∀ ci < n, (p.cells ci).isSome then
    { t with tabs := p.tabs, buf := update t.buf t.nrows (fun ci => (p.cells ci).getD ⟨0, none⟩),
             nrows := t.nrows+1 }
  else { t with tabs := p.tabs }

def clipped (s : Bytes) : Bytes := cString (s.take 255)

def bulkCell (t : SymTab) (codes : List ℕ) (r : ℕ) : Cell := ⟨codes.getD r 0, t.str (codes.getD r 0)⟩

def resolved (t : SymTab) (k : ℕ) (payload : List Bytes) : SymTab × List ℕ :=
  internMany t ((payload.take k).map clipped)

def appendBulk (cols : ℕ → List Bytes) (k : ℕ) (fits : Bool) (t : Table) : Table :=
  let tabs ci := (resolved (t.tabs ci) k (cols ci)).1
  if fits then
    { t with tabs := tabs, nrows := t.nrows+k
             buf := fun i => if t.nrows ≤ i ∧ i < t.nrows+k then
                 fun ci => bulkCell (tabs ci) (resolved (t.tabs ci) k (cols ci)).2 (i-t.nrows)
               else t.buf i }
  else { t with tabs := tabs }

inductive Event
  | row (calls : List (ℕ × Bytes)) (others : Bool)
  | bulk (cols : ℕ → List Bytes) (k : ℕ) (fits : Bool)
  | truncate (target : ℕ)
  | save (ci : ℕ) (ok : Bool)
  | flushBegin
  | flushSave (ok : Bool)
  | count
  | publish (ci : ℕ) (picked : List ℕ)
  | flushEnd (ok : Bool)
  | crash
  | reopen (unreadable : List ℕ)

def saveColumn (s : State) (t : Table) (ci : ℕ) (ok : Bool) (phase : Phase) : State :=
  let r := symtabSave ok (t.tabs ci) (s.disk.files ci)
  ⟨{ s.disk with files := update s.disk.files ci r.2 },
    some { t with tabs := update t.tabs ci r.1, phase := phase }⟩

/-- The dictionary of one column at a reopen; `none` fails the open. -/
def openSymtab (file : Option Bytes) (readable : Bool) : Option SymTab :=
  match file with
  | none => some SymTab.empty
  | some bs => if readable then symtabLoad bs else some SymTab.empty

def openTabs (s : State) (unreadable : List ℕ) (ci : ℕ) : Option SymTab :=
  openSymtab (s.disk.files ci) (decide (ci ∉ unreadable))

def step (n : ℕ) (s : State) : Event → Option State
  | .row calls others => s.table.map fun t => { s with table := some (addRow n calls others t) }
  | .bulk cols k fits => s.table.map fun t => { s with table := some (appendBulk cols k fits t) }
  | .truncate target => s.table.bind fun t =>
    if target ≤ t.nrows then some { s with table := some { t with nrows := target } } else none
  | .save ci ok => s.table.bind fun t =>
    if t.phase = .idle then some (saveColumn s t ci ok .idle) else none
  | .flushBegin => s.table.bind fun t =>
    if t.phase = .idle ∧ 0 < t.nrows then some { s with table := some { t with phase := .saving 0 } } else
      none
  | .flushSave ok => s.table.bind fun t =>
    match t.phase with
    | .saving next => if next < n then some (saveColumn s t next ok (.saving (next+1))) else none
    | _ => none
  | .count => s.table.bind fun t =>
    match t.phase with
    | .saving next =>
      if n ≤ next then some { s with table := some { t with phase := .publishing t.nrows } } else none
    | _ => none
  | .publish ci picked => s.table.bind fun t =>
    match t.phase with
    | .publishing rows =>
      if ∀ i ∈ picked, i < rows then
        some { s with disk := { s.disk with
          blocks := update s.disk.blocks ci (s.disk.blocks ci++picked.map fun i => t.buf i ci) } }
      else none
    | _ => none
  | .flushEnd ok => s.table.bind fun t =>
    match t.phase with
    | .publishing _ =>
      some { s with table := some { t with phase := .idle, nrows := if ok then 0 else t.nrows } }
    | _ => none
  | .crash => some { s with table := none }
  | .reopen unreadable =>
    if s.table.isSome then none
    else if ∀ ci < n, (openTabs s unreadable ci).isSome then
      some { s with table := some ⟨fun ci => (openTabs s unreadable ci).getD SymTab.empty,
        fun _ _ => ⟨0, none⟩, 0, .idle⟩ }
    else some s

def created : State :=
  ⟨⟨fun _ => some (symBytes SymTab.empty), fun _ => []⟩,
    some ⟨fun _ => SymTab.empty, fun _ _ => ⟨0, none⟩, 0, .idle⟩⟩

def Quiet (t : Table) : Prop :=
  match t.phase with
  | .idle => True
  | .saving _ => False
  | .publishing rows => rows ≤ t.nrows

instance (t : Table) : Decidable (Quiet t) := by
  unfold Quiet
  exact match t.phase with
    | .idle => inferInstanceAs (Decidable True)
    | .saving _ => inferInstanceAs (Decidable False)
    | .publishing rows => inferInstanceAs (Decidable (rows ≤ t.nrows))

/-- Heaps stay below 4 GiB, no row is added during a save, a bulk append has a string for every
row, saves succeed, and a reopen opens the files. -/
def Allowed (n : ℕ) (s : State) : Event → Prop
  | .row calls others => s.table.elim True fun t =>
    (∀ ci < n, ((addRow n calls others t).tabs ci).heap.length < 2^32) ∧
    ((addRow n calls others t).nrows = t.nrows ∨ Quiet t)
  | .bulk cols k fits => s.table.elim True fun t =>
    (∀ ci < n, ((appendBulk cols k fits t).tabs ci).heap.length < 2^32) ∧
    ((appendBulk cols k fits t).nrows = t.nrows ∨ Quiet t) ∧
    (fits = true → ∀ ci < n, k ≤ (cols ci).length ∨ 0 < ((appendBulk cols k fits t).tabs ci).count)
  | .flushSave ok => ok = true
  | .reopen unreadable => unreadable = []
  | _ => True

instance (n : ℕ) (s : State) (e : Event) : Decidable (Allowed n s e) := by
  cases e <;> unfold Allowed <;> infer_instance

def Denotes (ss : List Bytes) (c : Cell) : Prop := c.code < ss.length ∧ c.str = ss[c.code]?

theorem denotes_mono {ss ss' : List Bytes} {c : Cell} (h : Denotes ss c) (hp : ss <+: ss') :
    Denotes ss' c := by
  obtain ⟨more, rfl⟩ := hp
  refine ⟨?_, ?_⟩
  · rw [length_append]
    exact Nat.lt_add_right _ h.1
  · rw [h.2, getElem?_append_left h.1]

variable {k n : ℕ} {t : SymTab} {payload : List Bytes}

theorem denotes_str {ss : List Bytes} (h : Numbers t ss) {code : ℕ} (hc : code < ss.length) :
    Denotes ss ⟨code, t.str code⟩ :=
  ⟨hc, numbers_str h _⟩

def Stored (file : Option Bytes) (ss : List Bytes) : Prop := ∃ t, Numbers t ss ∧ file = some (symBytes t)

def Reached (t : Table) (ci : ℕ) (saved : List Bytes) : Prop :=
  match t.phase with
  | .idle => True
  | .saving next => ci < next → ∀ i < t.nrows, Denotes saved (t.buf i ci)
  | .publishing rows => ∀ i < rows, Denotes saved (t.buf i ci)

structure Opened (t : Table) (ci : ℕ) (saved names : List Bytes) : Prop where
  numbers : Numbers (t.tabs ci) names
  grown : saved <+: names
  count : (t.tabs ci).savedCount ≤ saved.length
  rows : ∀ i < t.nrows, Denotes names (t.buf i ci)
  reached : Reached t ci saved

structure Kept (s : State) (ci : ℕ) (saved : List Bytes) : Prop where
  stored : Stored (s.disk.files ci) saved
  blocks : ∀ c ∈ s.disk.blocks ci, Denotes saved c
  opened : ∀ t, s.table = some t → ∃ names, Opened t ci saved names

def Inv (n : ℕ) (s : State) : Prop := ∀ ci < n, ∃ saved, Kept s ci saved

variable {ci : ℕ}

theorem rowSym_other (n : ℕ) (p : Pending) {call : ℕ × Bytes} (h : call.1 ≠ ci) :
    (rowSym n p call).tabs ci = p.tabs ci ∧ (rowSym n p call).cells ci = p.cells ci := by
  unfold rowSym
  split
  · exact ⟨update_of_ne h.symm _ _, update_of_ne h.symm _ _⟩
  · exact ⟨rfl, rfl⟩

theorem rowSym_same (p : Pending) (hci : ci < n) (s : Bytes) :
    (rowSym n p (ci, s)).tabs ci = ((p.tabs ci).intern (cString s)).1 ∧
    (rowSym n p (ci, s)).cells ci = some ⟨((p.tabs ci).intern (cString s)).2,
      ((p.tabs ci).intern (cString s)).1.str ((p.tabs ci).intern (cString s)).2⟩ := by
  rw [rowSym, if_pos hci]
  exact ⟨update_self _ _ _, update_self _ _ _⟩

theorem rowSyms_heap_le (n : ℕ) (calls : List (ℕ × Bytes)) (p : Pending) (hci : ci < n) :
    (p.tabs ci).heap.length ≤ ((calls.foldl (rowSym n) p).tabs ci).heap.length := by
  induction calls generalizing p with
  | nil => exact le_refl _
  | cons call calls ih =>
    have hrest := ih (rowSym n p call)
    by_cases h : call.1 = ci
    · obtain ⟨c, s⟩ := call
      obtain rfl : c = ci := h
      rw [(rowSym_same p hci s).1] at hrest
      exact (intern_heap_le _ _).trans hrest
    · rw [(rowSym_other n p h).1] at hrest
      exact hrest

variable {names : List Bytes}

theorem rowSyms_numbers (n : ℕ) (calls : List (ℕ × Bytes)) (p : Pending) (hci : ci < n)
    (hn : Numbers (p.tabs ci) names) (hc : ∀ c, p.cells ci = some c → Denotes names c)
    (hl : ((calls.foldl (rowSym n) p).tabs ci).heap.length < 2^32) :
    ∃ names', names <+: names' ∧ Numbers ((calls.foldl (rowSym n) p).tabs ci) names' ∧
      ((calls.foldl (rowSym n) p).tabs ci).savedCount = (p.tabs ci).savedCount ∧
      ∀ c, (calls.foldl (rowSym n) p).cells ci = some c → Denotes names' c := by
  induction calls generalizing p names with
  | nil => exact ⟨names, prefix_refl names, hn, rfl, hc⟩
  | cons call calls ih =>
    have hheap := rowSyms_heap_le n calls (rowSym n p call) hci
    by_cases h : call.1 = ci
    · obtain ⟨c, s⟩ := call
      obtain rfl : c = ci := h
      obtain ⟨htab, hcell⟩ := rowSym_same p hci s
      rw [htab] at hheap
      obtain ⟨more, hn1, hget⟩ := numbers_intern hn (cString_zeroFree s) (lt_of_le_of_lt hheap hl)
      have hden := denotes_str hn1 (List.getElem?_eq_some_iff.mp hget).1
      obtain ⟨names', hpre, hn', hsc, hcs⟩ := ih (rowSym n p (c, s)) (by rw [htab]; exact hn1)
        (by rw [hcell]; intro x hx; rw [← some.inj hx]; exact hden) hl
      refine ⟨names', (prefix_append names more).trans hpre, hn', ?_, hcs⟩
      rw [foldl_cons, hsc, htab, intern_savedCount]
    · obtain ⟨htab, hcell⟩ := rowSym_other n p h
      obtain ⟨names', hpre, hn', hsc, hcs⟩ := ih (rowSym n p call) (by rw [htab]; exact hn)
        (by rw [hcell]; exact hc) hl
      exact ⟨names', hpre, hn', by rw [foldl_cons, hsc, htab], hcs⟩

variable {saved : List Bytes}

theorem reached_append {t t' : Table} (h : Reached t ci saved)
    (hp : t'.phase = t.phase) (hb : ∀ i < t.nrows, t'.buf i = t.buf i)
    (hq : (t'.nrows = t.nrows ∧ t'.buf = t.buf) ∨ Quiet t) : Reached t' ci saved := by
  unfold Reached at h ⊢
  rw [hp]
  rcases hq with ⟨hr, hbuf⟩ | hq
  · rw [hr, hbuf]
    exact h
  unfold Quiet at hq
  cases hph : t.phase with
  | idle => trivial
  | saving next => rw [hph] at hq; exact hq.elim
  | publishing rows =>
    rw [hph] at h hq
    intro i hi
    rw [hb i (lt_of_lt_of_le hi hq)]
    exact h i hi

theorem addRow_opened {calls : List (ℕ × Bytes)} {others : Bool} {t : Table} (hci : ci < n)
    (h : Opened t ci saved names) (hl : ((addRow n calls others t).tabs ci).heap.length < 2^32)
    (hq : (addRow n calls others t).nrows = t.nrows ∨ Quiet t) :
    ∃ names', Opened (addRow n calls others t) ci saved names' := by
  have htabs : (addRow n calls others t).tabs = (calls.foldl (rowSym n) ⟨t.tabs, fun _ => none⟩).tabs := by
    unfold addRow
    dsimp only
    split <;> rfl
  rw [htabs] at hl
  obtain ⟨names', hpre, hn', hsc, hcs⟩ := rowSyms_numbers n _ _ hci h.numbers
    (fun c hc => by cases hc) hl
  have hold : ∀ i < t.nrows, Denotes names' (t.buf i ci) := fun i hi => denotes_mono (h.rows i hi) hpre
  by_cases hend : others ∧ ∀ ci < n, ((calls.foldl (rowSym n) ⟨t.tabs, fun _ => none⟩).cells ci).isSome
  · have heq : addRow n calls others t = { t with
      tabs := (calls.foldl (rowSym n) ⟨t.tabs, fun _ => none⟩).tabs
      buf := update t.buf t.nrows
        (fun ci => ((calls.foldl (rowSym n) ⟨t.tabs, fun _ => none⟩).cells ci).getD ⟨0, none⟩)
      nrows := t.nrows+1 } := if_pos hend
    rw [heq] at hq ⊢
    refine ⟨names', ⟨hn', h.grown.trans hpre, hsc ▸ h.count, ?_, reached_append h.reached rfl ?_ ?_⟩⟩
    · intro i hi
      by_cases hlast : i = t.nrows
      · obtain ⟨c, hc⟩ := isSome_iff_exists.mp (hend.2 ci hci)
        rw [hlast]
        dsimp only
        rw [update_self, hc]
        exact hcs c hc
      · dsimp only at hi ⊢
        rw [update_of_ne hlast]
        exact hold i (by omega)
    · intro i hi
      exact update_of_ne (by omega) _ _
    · rcases hq with hq | hq
      · dsimp only at hq
        omega
      · exact .inr hq
  · have heq : addRow n calls others t = { t with
      tabs := (calls.foldl (rowSym n) ⟨t.tabs, fun _ => none⟩).tabs } := if_neg hend
    rw [heq]
    exact ⟨names', ⟨hn', h.grown.trans hpre, hsc ▸ h.count, hold,
      reached_append h.reached rfl (fun _ _ => rfl) (.inl ⟨rfl, rfl⟩)⟩⟩

theorem resolved_numbers (h : Numbers t names)
    (hl : (resolved t k payload).1.heap.length < 2^32) :
    ∃ names', names <+: names' ∧ Numbers (resolved t k payload).1 names' ∧
      ∀ c ∈ (resolved t k payload).2, c < names'.length := by
  have hz : ∀ s ∈ (payload.take k).map clipped, (0 : UInt8) ∉ s := by
    intro s hs
    obtain ⟨x, -, rfl⟩ := mem_map.mp hs
    exact cString_zeroFree _
  obtain ⟨more, hn, hc⟩ := numbers_internMany h _ hz hl
  exact ⟨names++more, prefix_append names more, hn, hc⟩

theorem bulkCell_denotes {names' : List Bytes}
    (hn : Numbers (resolved t k payload).1 names') (hc : ∀ c ∈ (resolved t k payload).2, c < names'.length)
    (hfull : k ≤ payload.length ∨ 0 < (resolved t k payload).1.count) {r : ℕ} (hr : r < k) :
    Denotes names' (bulkCell (resolved t k payload).1 (resolved t k payload).2 r) := by
  apply denotes_str hn
  have hlen : (resolved t k payload).2.length = min k payload.length := by
    rw [resolved, internMany_length, length_map, length_take]
  by_cases hin : r < (resolved t k payload).2.length
  · rw [getD_eq_getElem?_getD, getElem?_eq_getElem hin]
    exact hc _ (getElem_mem hin)
  rw [getD_eq_getElem?_getD, getElem?_eq_none (Nat.le_of_not_lt hin)]
  rcases hfull with hfull | hfull
  · omega
  · rw [← numbers_count hn]
    exact hfull

theorem appendBulk_opened {cols : ℕ → List Bytes} {fits : Bool} {t : Table} (h : Opened t ci saved names)
    (hl : ((appendBulk cols k fits t).tabs ci).heap.length < 2^32)
    (hq : (appendBulk cols k fits t).nrows = t.nrows ∨ Quiet t)
    (hfull : fits = true → k ≤ (cols ci).length ∨ 0 < ((appendBulk cols k fits t).tabs ci).count) :
    ∃ names', Opened (appendBulk cols k fits t) ci saved names' := by
  have htabs : (appendBulk cols k fits t).tabs ci = (resolved (t.tabs ci) k (cols ci)).1 := by
    unfold appendBulk
    split <;> rfl
  rw [htabs] at hl hfull
  obtain ⟨names', hpre, hn', hcs⟩ := resolved_numbers h.numbers hl
  have hsc : (resolved (t.tabs ci) k (cols ci)).1.savedCount ≤ saved.length := by
    rw [resolved, internMany_savedCount]
    exact h.count
  have hold : ∀ i < t.nrows, Denotes names' (t.buf i ci) := fun i hi => denotes_mono (h.rows i hi) hpre
  cases fits with
  | false =>
    exact ⟨names', ⟨hn', h.grown.trans hpre, hsc, hold,
      reached_append h.reached rfl (fun _ _ => rfl) (.inl ⟨rfl, rfl⟩)⟩⟩
  | true =>
    refine ⟨names', ⟨hn', h.grown.trans hpre, hsc, ?_, reached_append h.reached rfl ?_ ?_⟩⟩
    · intro i hi
      have hi : i < t.nrows+k := hi
      rw [appendBulk, if_pos rfl]
      dsimp only
      by_cases hnew : t.nrows ≤ i
      · rw [if_pos ⟨hnew, hi⟩]
        exact bulkCell_denotes hn' hcs (hfull rfl) (by omega)
      · rw [if_neg (fun hc => hnew hc.1)]
        exact hold i (by omega)
    · intro i hi
      exact if_neg (by omega)
    · rcases hq with hq | hq
      · have hk : k = 0 := by
          have : t.nrows+k = t.nrows := hq
          omega
        refine .inl ⟨hq, funext fun i => if_neg (by omega)⟩
      · exact .inr hq

theorem symtabSave_stored {file : Option Bytes} (hs : Stored file saved)
    (hn : Numbers t names) (hg : saved <+: names) (hc : t.savedCount ≤ saved.length) (ok : Bool) :
    ∃ saved', saved <+: saved' ∧ saved' <+: names ∧ Stored (symtabSave ok t file).2 saved' ∧
      Numbers (symtabSave ok t file).1 names ∧ (symtabSave ok t file).1.savedCount ≤ saved'.length ∧
      (ok = true → saved' = names) := by
  by_cases hskip : 0 < t.savedCount ∧ t.count ≤ t.savedCount
  · rw [symtabSave, if_pos hskip]
    have hall : saved = names := by
      apply hg.eq_of_length_le
      rw [numbers_count hn] at hskip
      omega
    exact ⟨saved, prefix_refl saved, hg, hs, hn, hc, fun _ => hall⟩
  rw [symtabSave, if_neg hskip]
  cases ok with
  | false => exact ⟨saved, prefix_refl saved, hg, hs, hn, hc, fun h => by cases h⟩
  | true =>
    refine ⟨names, hg, prefix_refl names, ⟨t, hn, rfl⟩,
      ⟨hn.heap, hn.offsets, hn.zeroFree, hn.nodup, hn.small⟩, ?_, fun _ => rfl⟩
    exact le_of_eq (numbers_count hn)

variable {s : State}

theorem saveColumn_kept {t : Table} {cj : ℕ} {ok : Bool} {phase : Phase}
    (h : Kept s ci saved) (ht : s.table = some t)
    (hr : ∀ saved' names, saved <+: saved' → Opened t ci saved names →
      (cj = ci → ok = true → saved' = names) →
      Reached { t with phase := phase } ci saved') :
      ∃ saved', Kept (saveColumn s t cj ok phase) ci saved' := by
  obtain ⟨names, ho⟩ := h.opened t ht
  by_cases hc : cj = ci
  · subst hc
    obtain ⟨saved', hg, hg', hst, hn, hsc, hall⟩ := symtabSave_stored h.stored ho.numbers ho.grown ho.count ok
    refine ⟨saved', ⟨?_, fun c hc => denotes_mono (h.blocks c hc) hg, ?_⟩⟩
    · rw [saveColumn]
      dsimp only
      rw [update_self]
      exact hst
    intro t' ht'
    obtain rfl := some.inj ht'
    refine ⟨names, ⟨?_, hg', ?_, ho.rows, hr saved' names hg ho (fun _ => hall)⟩⟩
    · dsimp only
      rw [update_self]
      exact hn
    dsimp only
    rw [update_self]
    exact hsc
  · refine ⟨saved, ⟨?_, h.blocks, ?_⟩⟩
    · rw [saveColumn]
      dsimp only
      rw [update_of_ne (Ne.symm hc)]
      exact h.stored
    intro t' ht'
    obtain rfl := some.inj ht'
    refine ⟨names, ⟨?_, ho.grown, ?_, ho.rows, hr saved names (prefix_refl saved) ho (fun h => (hc h).elim)⟩⟩
    · dsimp only
      rw [update_of_ne (Ne.symm hc)]
      exact ho.numbers
    dsimp only
    rw [update_of_ne (Ne.symm hc)]
    exact ho.count

theorem openTabs_numbers (h : Stored (s.disk.files ci) saved) :
    ∃ t, openTabs s [] ci = some t ∧ Numbers t saved ∧ t.savedCount = 0 := by
  obtain ⟨t, hn, hf⟩ := h
  refine ⟨⟨t.heap, t.offsets, 0⟩, ?_, ⟨hn.heap, hn.offsets, hn.zeroFree, hn.nodup, hn.small⟩, rfl⟩
  rw [openTabs, hf, openSymtab, if_pos (by simp), symtabLoad_saved hn]

theorem kept_table {t t' : Table} (h : Kept s ci saved)
    (ht : s.table = some t) (htabs : t'.tabs = t.tabs) (hbuf : t'.buf = t.buf) (hn : t'.nrows ≤ t.nrows)
    (hr : ∀ names, Opened t ci saved names → Reached t' ci saved) :
    Kept { s with table := some t' } ci saved := by
  obtain ⟨names, ho⟩ := h.opened t ht
  refine ⟨h.stored, h.blocks, fun u hu => ⟨names, ?_⟩⟩
  cases hu
  constructor
  · rw [htabs]
    exact ho.numbers
  · exact ho.grown
  · rw [htabs]
    exact ho.count
  · intro i hi
    rw [hbuf]
    exact ho.rows i (lt_of_lt_of_le hi hn)
  · exact hr names ho

theorem step_inv (n : ℕ) (s : State) (e : Event) (s' : State) (hi : Inv n s) (ha : Allowed n s e)
    (h : step n s e = some s') : Inv n s' := by
  intro ci hci
  obtain ⟨saved, hk⟩ := hi ci hci
  cases e with
  | row calls others =>
    obtain ⟨t, ht, rfl⟩ := map_eq_some_iff.mp h
    rw [Allowed, ht] at ha
    refine ⟨saved, ⟨hk.stored, hk.blocks, fun t' ht' => ?_⟩⟩
    obtain rfl := some.inj ht'
    obtain ⟨names, ho⟩ := hk.opened t ht
    exact addRow_opened hci ho (ha.1 ci hci) ha.2
  | bulk cols k fits =>
    obtain ⟨t, ht, rfl⟩ := map_eq_some_iff.mp h
    rw [Allowed, ht] at ha
    refine ⟨saved, ⟨hk.stored, hk.blocks, fun t' ht' => ?_⟩⟩
    obtain rfl := some.inj ht'
    obtain ⟨names, ho⟩ := hk.opened t ht
    exact appendBulk_opened ho (ha.1 ci hci) ha.2.1 fun hf => ha.2.2 hf ci hci
  | truncate target =>
    obtain ⟨t, ht, h⟩ := bind_eq_some_iff.mp h
    obtain ⟨hle, rfl⟩ := ite_some_none_eq_some.mp h
    refine ⟨saved, kept_table hk ht rfl rfl hle fun names ho => ?_⟩
    have hreached := ho.reached
    unfold Reached at hreached ⊢
    cases hph : t.phase with
    | idle => trivial
    | saving next =>
      rw [hph] at hreached
      exact fun hlt i hi => hreached hlt i (lt_of_lt_of_le hi hle)
    | publishing rows =>
      rw [hph] at hreached
      exact hreached
  | save cj ok =>
    obtain ⟨t, ht, h⟩ := bind_eq_some_iff.mp h
    obtain ⟨-, rfl⟩ := ite_some_none_eq_some.mp h
    exact saveColumn_kept hk ht fun _ _ _ _ _ => trivial
  | flushBegin =>
    obtain ⟨t, ht, h⟩ := bind_eq_some_iff.mp h
    obtain ⟨-, rfl⟩ := ite_some_none_eq_some.mp h
    exact ⟨saved, kept_table hk ht rfl rfl (le_refl _) fun _ _ hlt => (Nat.not_lt_zero ci hlt).elim⟩
  | flushSave ok =>
    obtain ⟨t, ht, h⟩ := bind_eq_some_iff.mp h
    split at h
    · rename_i next hph
      obtain ⟨-, rfl⟩ := ite_some_none_eq_some.mp h
      refine saveColumn_kept hk ht fun saved' names hpre ho hall hlt i hi => ?_
      -- the dictionary just saved holds every string, the ones before are kept
      by_cases hc : next = ci
      · rw [hall hc ha]
        exact ho.rows i hi
      have hreached := ho.reached
      unfold Reached at hreached
      rw [hph] at hreached
      exact denotes_mono (hreached (by omega) i hi) hpre
    · cases h
  | count =>
    obtain ⟨t, ht, h⟩ := bind_eq_some_iff.mp h
    split at h
    · rename_i next hph
      obtain ⟨hle, rfl⟩ := ite_some_none_eq_some.mp h
      refine ⟨saved, kept_table hk ht rfl rfl (le_refl _) fun names ho => ?_⟩
      have hreached := ho.reached
      unfold Reached at hreached
      rw [hph] at hreached
      exact hreached (by omega)
    · cases h
  | publish cj picked =>
    obtain ⟨t, ht, h⟩ := bind_eq_some_iff.mp h
    split at h
    · rename_i rows hph
      obtain ⟨hlt, rfl⟩ := ite_some_none_eq_some.mp h
      refine ⟨saved, ⟨hk.stored, ?_, hk.opened⟩⟩
      obtain ⟨names, ho⟩ := hk.opened t ht
      have hreached := ho.reached
      unfold Reached at hreached
      rw [hph] at hreached
      intro c hc
      by_cases hcj : cj = ci
      · subst hcj
        dsimp only at hc
        rw [update_self] at hc
        rcases mem_append.mp hc with hc | hc
        · exact hk.blocks c hc
        · obtain ⟨i, hi, rfl⟩ := mem_map.mp hc
          exact hreached i (hlt i hi)
      · dsimp only at hc
        rw [update_of_ne (Ne.symm hcj)] at hc
        exact hk.blocks c hc
    · cases h
  | flushEnd ok =>
    obtain ⟨t, ht, h⟩ := bind_eq_some_iff.mp h
    split at h
    · cases h
      refine ⟨saved, kept_table hk ht rfl rfl ?_ fun _ _ => trivial⟩
      dsimp only
      split <;> omega
    · cases h
  | crash =>
    cases h
    exact ⟨saved, ⟨hk.stored, hk.blocks, fun t ht => by cases ht⟩⟩
  | reopen unreadable =>
    rw [ha, step] at h
    split at h
    · cases h
    split at h
    · cases h
      obtain ⟨t, ht, hn, hsc⟩ := openTabs_numbers hk.stored
      refine ⟨saved, ⟨hk.stored, hk.blocks, fun u hu => ⟨saved, ?_⟩⟩⟩
      cases hu
      constructor
      · dsimp only
        rw [ht]
        exact hn
      · exact prefix_refl saved
      · dsimp only
        rw [ht, getD_some, hsc]
        exact Nat.zero_le _
      · exact fun i hi => (Nat.not_lt_zero i hi).elim
      · trivial
    · cases h
      exact ⟨saved, hk⟩

theorem created_inv (n : ℕ) : Inv n created := by
  intro ci _
  refine ⟨[], ⟨⟨SymTab.empty, numbers_empty, rfl⟩, fun c hc => by simp [created] at hc, fun t ht => ⟨[], ?_⟩⟩⟩
  cases ht
  exact ⟨numbers_empty, prefix_refl [], le_refl _, fun i hi => (Nat.not_lt_zero i hi).elim, trivial⟩

/-- Every stored code is a code of the dictionary file, and stands there for
the string it stood for when its row was written. -/
def Named (n : ℕ) (s : State) : Prop :=
  ∀ ci < n, ∀ c ∈ s.disk.blocks ci, ∃ bs t, s.disk.files ci = some bs ∧ symtabLoad bs = some t ∧
    c.code < t.count ∧ t.str c.code = c.str ∧ c.str.isSome

theorem inv_named (h : Inv n s) : Named n s := by
  intro ci hci c hc
  obtain ⟨saved, hk⟩ := h ci hci
  obtain ⟨t, hn, hf⟩ := hk.stored
  have hn' : Numbers ⟨t.heap, t.offsets, 0⟩ saved := ⟨hn.heap, hn.offsets, hn.zeroFree, hn.nodup, hn.small⟩
  obtain ⟨hlt, hstr⟩ := hk.blocks c hc
  refine ⟨symBytes t, _, hf, symtabLoad_saved hn, ?_, ?_, ?_⟩
  · rw [numbers_count hn']
    exact hlt
  · rw [numbers_str hn', hstr]
  · rw [hstr, getElem?_eq_getElem hlt]
    rfl

/-- Along every run of allowed steps the published codes keep their names. -/
theorem published_symbols_named (n : ℕ) (es : List Event) (s : State)
    (ha : Along (step n) (Allowed n) created es) (h : run (step n) created es = some s) : Named n s :=
  inv_named (run_invariant _ (step_inv n) es _ s (created_inv n) ha h)

/-- A flush of one row, a crash, and a second row with a second string. -/
def savedThenCrash : List Event :=
  [.row [(0, [97])] true, .flushBegin, .flushSave true, .count, .publish 0 [0], .flushEnd true, .crash,
    .reopen [],
    .row [(0, [98])] true, .flushBegin, .flushSave true, .count, .publish 0 [0], .flushEnd true]

theorem published_symbols_named_saved : ∃ s, run (step 1) created savedThenCrash = some s ∧
      s.disk.blocks 0 = [⟨0, some [97]⟩, ⟨1, some [98]⟩] ∧ Named 1 s := by
  have ha : Along (step 1) (Allowed 1) created savedThenCrash := by decide +kernel
  obtain ⟨s, hs, hb⟩ := run_reaches (step 1) created savedThenCrash
    (fun s => s.disk.blocks 0 = [⟨0, some [97]⟩, ⟨1, some [98]⟩]) (by decide +kernel)
  exact ⟨s, hs, hb, published_symbols_named 1 _ s ha hs⟩

/-- The same with the first save failing: the second string gets the code the
first row was published with. -/
def unsavedThenCrash : List Event :=
  [.row [(0, [97])] true, .flushBegin, .flushSave false, .count, .publish 0 [0], .flushEnd true, .crash,
    .reopen [],
    .row [(0, [98])] true, .flushBegin, .flushSave true, .count, .publish 0 [0], .flushEnd true]

theorem failed_save_renames_symbol : ∃ s, run (step 1) created unsavedThenCrash = some s ∧
      s.disk.blocks 0 = [⟨0, some [97]⟩, ⟨0, some [98]⟩] ∧ ¬Named 1 s := by
  obtain ⟨s, hs, hb, hf⟩ := run_reaches (step 1) created unsavedThenCrash
    (fun s => s.disk.blocks 0 = [⟨0, some [97]⟩, ⟨0, some [98]⟩] ∧
      ((s.disk.files 0).bind symtabLoad).bind (fun t => t.str 0) = some [98]) (by decide +kernel)
  refine ⟨s, hs, hb, fun hnamed => ?_⟩
  obtain ⟨bs, t, hbs, ht, -, hstr, -⟩ := hnamed 0 (by decide) ⟨0, some [97]⟩ (by rw [hb]; simp)
  rw [hbs, bind_some, ht, bind_some, hstr] at hf
  exact absurd hf (by decide)

end QEngine.SymbolDurability

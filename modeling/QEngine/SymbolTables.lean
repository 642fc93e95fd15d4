import QEngine.ByteFields

/-!
# Symbol tables and their files

A symbol table numbers strings in the order they are first met. The strings stand on a
heap, each ended by a zero, with an array of their offsets of 32 bits.
-/

namespace QEngine.SymbolTables
open List ByteFields

structure SymTab where
  heap : Bytes
  offsets : List ℕ
  savedCount : ℕ
  deriving DecidableEq

def SymTab.empty : SymTab := ⟨[], [], 0⟩

def cString (bs : Bytes) : Bytes := bs.takeWhile fun b => decide (b ≠ 0)

def SymTab.count (t : SymTab) : ℕ := t.offsets.length

def SymTab.strings (t : SymTab) : List Bytes := t.offsets.map fun off => cString (t.heap.drop off)

def SymTab.str (t : SymTab) (code : ℕ) : Option Bytes := t.strings[code]?

def SymTab.lookup (t : SymTab) (s : Bytes) : Option ℕ := t.strings.findIdx? fun x => decide (x = s)

def overwrite (heap : Bytes) (off : ℕ) (data : Bytes) : Bytes :=
  heap.take off++(data++heap.drop (off+data.length))

def SymTab.add (t : SymTab) (s : Bytes) : SymTab :=
  let off := t.heap.length%2^32
  { t with
      heap := overwrite (t.heap++List.replicate (s.length+1) 0) off (s++[0])
      offsets := t.offsets++[off] }

def SymTab.intern (t : SymTab) (s : Bytes) : SymTab × ℕ :=
  match t.lookup s with
  | some code => (t, code)
  | none => (t.add s, t.count)

def internMany : SymTab → List Bytes → SymTab × List ℕ
  | t, [] => (t, [])
  | t, s::ss => ((internMany (t.intern s).1 ss).1, (t.intern s).2::(internMany (t.intern s).1 ss).2)

def symtabMagic : ℕ := 0x54535953

def symBytes (t : SymTab) : Bytes :=
  fieldsBytes [(4, symtabMagic), (4, t.count), (4, t.heap.length)]++
    (t.offsets.flatMap (leBytes 4)++t.heap.take (t.heap.length%2^32))

def symtabLoad (bs : Bytes) : Option SymTab :=
  match fieldAt bs 0 4, fieldAt bs 4 4, fieldAt bs 8 4 with
  | some magic, some count, some hsz =>
    if magic ≠ symtabMagic ∨ bs.length < 12+count*4+hsz then none
    else some ⟨(bs.drop (12+count*4)).take hsz,
      (List.range count).map fun i => leValue (((bs.drop 12).drop (i*4)).take 4), 0⟩
  | _, _, _ => none

/-- The table and its file after a save; `ok` says that the new file could be
written and renamed. -/
def symtabSave (ok : Bool) (t : SymTab) (file : Option Bytes) : SymTab × Option Bytes :=
  if 0 < t.savedCount ∧ t.count ≤ t.savedCount then (t, file)
  else if ok then ({ t with savedCount := t.count }, some (symBytes t))
  else (t, file)

def ended (s : Bytes) : Bytes := s++[0]

def offsetsFrom : ℕ → List Bytes → List ℕ
  | _, [] => []
  | n, s::ss => n::offsetsFrom (n+s.length+1) ss

structure Numbers (t : SymTab) (ss : List Bytes) : Prop where
  heap : t.heap = ss.flatMap ended
  offsets : t.offsets = offsetsFrom 0 ss
  zeroFree : ∀ s ∈ ss, (0 : UInt8) ∉ s
  nodup : ss.Nodup
  small : t.heap.length < 2^32

theorem numbers_empty : Numbers SymTab.empty [] := by
  constructor <;> simp [SymTab.empty, offsetsFrom]

theorem offsetsFrom_append (n : ℕ) (as bs : List Bytes) :
    offsetsFrom n (as++bs) = offsetsFrom n as++offsetsFrom (n+(as.flatMap ended).length) bs := by
  induction as generalizing n with
  | nil => simp [offsetsFrom]
  | cons a as ih =>
    rw [cons_append, offsetsFrom, offsetsFrom, ih, flatMap_cons, length_append, ended, length_append,
      length_singleton, cons_append]
    congr 3
    omega

theorem offsetsFrom_length (n : ℕ) (ss : List Bytes) : (offsetsFrom n ss).length = ss.length := by
  induction ss generalizing n with
  | nil => rfl
  | cons s ss ih => rw [offsetsFrom, length_cons, ih, length_cons]

theorem cString_ended {s : Bytes} (hs : (0 : UInt8) ∉ s) (post : Bytes) : cString (ended s++post) = s := by
  have hall : ∀ b ∈ s, decide (b ≠ 0) = true := by
    intro b hb
    rw [decide_eq_true_iff]
    rintro rfl
    exact hs hb
  rw [cString, ended, append_assoc, takeWhile_append_of_pos hall]
  simp

theorem cString_zeroFree (bs : Bytes) : (0 : UInt8) ∉ cString bs := by
  intro h
  have hall := all_eq_true.mp (all_takeWhile (l := bs) (p := fun b => decide (b ≠ 0))) 0 h
  simp at hall

theorem strings_from {ss : List Bytes} (hs : ∀ s ∈ ss, (0 : UInt8) ∉ s) (pre : Bytes) :
    (offsetsFrom pre.length ss).map (fun off => cString ((pre++ss.flatMap ended).drop off)) = ss := by
  induction ss generalizing pre with
  | nil => rfl
  | cons s ss ih =>
    have htail := ih (fun x hx => hs x (by simp [hx])) (pre++ended s)
    have hlen : (pre++ended s).length = pre.length+s.length+1 := by simp [ended, Nat.add_assoc]
    rw [hlen, append_assoc] at htail
    rw [offsetsFrom, map_cons, drop_left, flatMap_cons, cString_ended (hs s (by simp)), htail]

theorem length_le_heap (ss : List Bytes) : ss.length ≤ (ss.flatMap ended).length := by
  induction ss with
  | nil => simp
  | cons s ss ih =>
    rw [flatMap_cons, length_append, length_cons, ended, length_append, length_singleton]
    omega

theorem offset_le (n : ℕ) (ss : List Bytes) : ∀ v ∈ offsetsFrom n ss, v ≤ n+(ss.flatMap ended).length := by
  induction ss generalizing n with
  | nil => simp [offsetsFrom]
  | cons s ss ih =>
    intro v hv
    rw [flatMap_cons, length_append, ended, length_append, length_singleton]
    rcases mem_cons.mp hv with rfl | hv
    · omega
    · have := ih _ v hv
      omega

variable (t : SymTab)

theorem intern_savedCount (s : Bytes) : (t.intern s).1.savedCount = t.savedCount := by
  unfold SymTab.intern
  split <;> rfl

theorem intern_heap_le (s : Bytes) : t.heap.length ≤ (t.intern s).1.heap.length := by
  unfold SymTab.intern
  split
  · exact le_refl _
  have hmod := Nat.mod_le t.heap.length (2^32)
  simp only [SymTab.add, overwrite, length_append, length_take, length_replicate, length_drop,
    length_singleton]
  omega

theorem internMany_savedCount (ss : List Bytes) : (internMany t ss).1.savedCount = t.savedCount := by
  induction ss generalizing t with
  | nil => rfl
  | cons s ss ih => exact (ih (t.intern s).1).trans (intern_savedCount t s)

theorem internMany_heap_le (ss : List Bytes) : t.heap.length ≤ (internMany t ss).1.heap.length := by
  induction ss generalizing t with
  | nil => exact le_refl _
  | cons s ss ih => exact (intern_heap_le t s).trans (ih (t.intern s).1)

theorem internMany_length (ss : List Bytes) : (internMany t ss).2.length = ss.length := by
  induction ss generalizing t with
  | nil => rfl
  | cons s ss ih => exact congrArg (·+1) (ih (t.intern s).1)

section
variable {t : SymTab} {ss : List Bytes} (h : Numbers t ss)
include h

theorem numbers_strings : t.strings = ss := by
  have hs := strings_from h.zeroFree []
  rw [SymTab.strings, h.offsets, h.heap]
  simpa using hs

theorem numbers_count : t.count = ss.length := by
  rw [SymTab.count, h.offsets, offsetsFrom_length]

theorem numbers_str (code : ℕ) : t.str code = ss[code]? := by
  rw [SymTab.str, numbers_strings h]

theorem numbers_add {s : Bytes} (hz : (0 : UInt8) ∉ s) (hnew : s ∉ ss) (hl : (t.add s).heap.length < 2^32) :
    Numbers (t.add s) (ss++[s]) := by
  have hoff : t.heap.length%2^32 = t.heap.length := Nat.mod_eq_of_lt h.small
  have hheap : (t.add s).heap = t.heap++ended s := by
    have hlen :
      t.heap.length+(s++[0]).length = (t.heap++List.replicate (s.length+1) (0 : UInt8)).length := by simp
    rw [SymTab.add]
    dsimp only
    rw [hoff, overwrite, take_left, hlen, drop_length, append_nil, ended]
  constructor
  · rw [hheap, h.heap, flatMap_append, flatMap_singleton]
  · rw [SymTab.add]
    dsimp only
    rw [hoff, h.offsets, offsetsFrom_append, ← h.heap, Nat.zero_add, offsetsFrom, offsetsFrom]
  · intro x hx
    rcases mem_append.mp hx with hx | hx
    · exact h.zeroFree x hx
    · rw [mem_singleton.mp hx]
      exact hz
  · exact nodup_append.mpr ⟨h.nodup, nodup_singleton s, by
      intro a ha b hb hab
      rw [mem_singleton.mp hb] at hab
      rw [hab] at ha
      exact hnew ha⟩
  · exact hl

theorem numbers_intern {s : Bytes} (hz : (0 : UInt8) ∉ s) (hl : (t.intern s).1.heap.length < 2^32) :
    ∃ more, Numbers (t.intern s).1 (ss++more) ∧ (ss++more)[(t.intern s).2]? = some s := by
  have hstr := numbers_strings h
  cases hf : t.lookup s with
  | some code =>
    have hin : t.intern s = (t, code) := by rw [SymTab.intern, hf]
    rw [hin]
    rw [SymTab.lookup, hstr, findIdx?_eq_some_iff_getElem] at hf
    obtain ⟨hlt, hget, -⟩ := hf
    refine ⟨[], by rw [append_nil]; exact h, ?_⟩
    rw [append_nil, getElem?_eq_getElem hlt, of_decide_eq_true hget]
  | none =>
    have hin : t.intern s = (t.add s, t.count) := by rw [SymTab.intern, hf]
    rw [hin] at hl ⊢
    rw [SymTab.lookup, hstr, findIdx?_eq_none_iff] at hf
    have hnew : s ∉ ss := fun hmem => of_decide_eq_false (hf s hmem) rfl
    refine ⟨[s], numbers_add h hz hnew hl, ?_⟩
    rw [numbers_count h, getElem?_concat_length]

theorem numbers_internMany (new : List Bytes) (hz : ∀ s ∈ new, (0 : UInt8) ∉ s)
    (hl : (internMany t new).1.heap.length < 2^32) :
    ∃ more, Numbers (internMany t new).1 (ss++more) ∧ ∀ c ∈ (internMany t new).2, c < (ss++more).length := by
  induction new generalizing t ss with
  | nil => exact ⟨[], by rw [append_nil]; exact h, by simp [internMany]⟩
  | cons s new ih =>
    have hl1 : (t.intern s).1.heap.length < 2^32 := lt_of_le_of_lt (internMany_heap_le _ new) hl
    obtain ⟨more, hn, hget⟩ := numbers_intern h (hz s (by simp)) hl1
    obtain ⟨rest, hn', hcodes⟩ := ih hn (fun x hx => hz x (by simp [hx])) hl
    refine ⟨more++rest, by rw [← append_assoc]; exact hn', ?_⟩
    intro c hc
    rw [← append_assoc]
    rcases mem_cons.mp hc with rfl | hc
    · have hlt := (List.getElem?_eq_some_iff.mp hget).1
      rw [length_append]
      exact Nat.lt_add_right _ hlt
    · exact hcodes c hc

theorem symtabLoad_saved : symtabLoad (symBytes t) = some ⟨t.heap, t.offsets, 0⟩ := by
  have hsmall := h.small
  have hcount : t.count < 256^4 := by
    rw [numbers_count h]
    have := length_le_heap ss
    rw [← h.heap] at this
    omega
  have hoffsets : ∀ v ∈ t.offsets, v < 256^4 := by
    intro v hv
    rw [h.offsets] at hv
    have := offset_le 0 ss v hv
    rw [← h.heap] at this
    omega
  have hfs := fieldAt_fields [(4, symtabMagic), (4, t.count), (4, t.heap.length)]
    (t.offsets.flatMap (leBytes 4)++t.heap.take (t.heap.length%2^32))
  have h0 := hfs 0 4 symtabMagic rfl (by decide)
  have h4 := hfs 1 4 t.count rfl hcount
  have h8 := hfs 2 4 t.heap.length rfl (by omega)
  have hbody : symBytes t = fieldsBytes [(4, symtabMagic), (4, t.count), (4, t.heap.length)]++
      (t.offsets.flatMap (leBytes 4)++t.heap) := by
    rw [symBytes, Nat.mod_eq_of_lt hsmall, take_length]
  have hhdr : (fieldsBytes [(4, symtabMagic), (4, t.count), (4, t.heap.length)]).length =
    12 := by simp [fieldsWidth]
  have hwords : (t.offsets.flatMap (leBytes 4)).length = t.count*4 := by
    simp [length_flatMap, SymTab.count]
  have hread := read_words 4 t.offsets hoffsets t.heap
  rw [Nat.mod_eq_of_lt hsmall, take_length, ← hbody] at h0 h4 h8
  have h0 : fieldAt (symBytes t) 0 4 = some symtabMagic := h0
  have h4 : fieldAt (symBytes t) 4 4 = some t.count := h4
  have h8 : fieldAt (symBytes t) 8 4 = some t.heap.length := h8
  have hdrop : (symBytes t).drop 12 = t.offsets.flatMap (leBytes 4)++t.heap := by rw [hbody, drop_left' hhdr]
  have hlen : (symBytes t).length = 12+t.count*4+t.heap.length := by
    rw [hbody, length_append, length_append, hhdr, hwords, Nat.add_assoc]
  unfold symtabLoad
  rw [h0, h4, h8]
  dsimp only
  rw [if_neg (by simp [hlen]), ← drop_drop, hdrop, drop_left' hwords, take_length, SymTab.count, hread]

end

end QEngine.SymbolTables

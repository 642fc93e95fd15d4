import QEngine.ByteFields
import Mathlib.Data.List.Sort

/-!
# Merging a bucket of a peer's rows

The rows of a bucket that a peer holds are taken over unless a row of that
content is held already, by the hashes of the rows held when the merge began.
A row the peer holds more often than this node is therefore not made up for.
-/

namespace QEngine.BucketMerge
open List ByteFields

inductive Cell where
  | int (v : Int64)
  | double (bits : UInt64)
  | text (s : List UInt8)
  | stamp (v : Int64)
  deriving DecidableEq

structure Row where
  ts : Int64
  cells : List Cell
  deriving DecidableEq

inductive Err where
  | unsupported
  | io
  deriving DecidableEq

def Cell.isStamp : Cell → Bool
  | .stamp _ => true
  | _ => false

section
variable (xxh64 : UInt64 → List UInt8 → UInt64)

/-- Type and word of a cell; the two zeros of a double are one word. -/
def Cell.word : Cell → UInt64 × UInt64
  | .stamp v => (1, v.toUInt64)
  | .int v => (2, v.toUInt64)
  | .double bits => (3, if bits = 0x8000000000000000 then 0 else bits)
  | .text s => (4, xxh64 0x53594d424f554c s)

def Row.columns (tsCi : ℕ) (r : Row) : List Cell := r.cells.take tsCi++.stamp r.ts::r.cells.drop tsCi

def rowdigestRowHash (tsCi : ℕ) (r : Row) : UInt64 :=
  let words := ((r.columns tsCi).take 256).zipIdx.flatMap fun (c, i) =>
    let (type, w) := c.word xxh64
    [UInt64.ofNat i <<< 8 ||| type, w]
  xxh64 0x524f57444947 (words.flatMap fun w => leBytes 8 w.toNat)

end

variable (hash : Row → UInt64)

def localBucketHashes (held : List Row) (bstart bend : Int64) : List UInt64 :=
  ((held.filter fun r => bstart ≤ r.ts && r.ts ≤ bend).map hash).insertionSort (· ≤ ·)

/-- `ends` says which rows enter the batch; a row that does not is counted too. -/
def mergeLoop (ends : Row → Bool) (lset : List UInt64) : List Row → List Row × ℕ → Except Err (List Row × ℕ)
  | [], acc => .ok acc
  | r::rs, acc =>
    if hash r ∈ lset then mergeLoop ends lset rs acc
    else if r.cells.any Cell.isStamp then .error .unsupported
    else mergeLoop ends lset rs (if ends r then acc.1++[r] else acc.1, acc.2+1)

def mergeResultDedup (ends : Row → Bool) (commits : Bool) (held peer : List Row) (lset : List UInt64) :
    Except Err (List Row × ℕ) := do
  let acc ← mergeLoop hash ends lset peer ([], 0)
  if commits then .ok (held++acc.1, acc.2) else .error .io

def mergeBucket (ends : Row → Bool) (commits : Bool) (bstart bend : Int64) (held peer : List Row) :
    Except Err (List Row × ℕ) :=
  mergeResultDedup hash ends commits held peer (localBucketHashes hash held bstart bend)

variable {hash} {ends : Row → Bool} {lset : List UInt64} {held peer after : List Row} {bstart bend : Int64}

theorem mergeLoop_rows {acc acc' : List Row × ℕ} (h : mergeLoop hash ends lset peer acc = .ok acc') :
    acc'.1 = acc.1++peer.filter fun r => hash r ∉ lset ∧ ends r = true := by
  induction peer generalizing acc with
  | nil => simp [← Except.ok.inj h]
  | cons r rs ih =>
    rw [mergeLoop] at h
    split_ifs at h with hm _ he
    · simp [ih h, hm]
    · simp [ih h, hm, he]
    · simp [ih h, hm, he]

theorem mergeLoop_held (h : ∀ r ∈ peer, hash r ∈ lset) (acc : List Row × ℕ) :
    mergeLoop hash ends lset peer acc = .ok acc := by
  induction peer with
  | nil => rfl
  | cons r rs ih =>
    obtain ⟨hr, hrs⟩ := forall_mem_cons.mp h
    rw [mergeLoop, if_pos hr, ih hrs]

theorem hash_held {r : Row} (hb : bstart ≤ r.ts ∧ r.ts ≤ bend) (hr : r ∈ held) :
    hash r ∈ localBucketHashes hash held bstart bend := by
  rw [localBucketHashes, mem_insertionSort]
  exact mem_map_of_mem (mem_filter.mpr ⟨hr, by simp [hb]⟩)

theorem held_of_hash {r : Row} (hh : ∀ a ∈ held, hash a = hash r → a = r)
    (h : hash r ∈ localBucketHashes hash held bstart bend) : r ∈ held := by
  rw [localBucketHashes, mem_insertionSort] at h
  obtain ⟨a, ha, he⟩ := mem_map.mp h
  exact hh a (mem_of_mem_filter ha) he ▸ mem_of_mem_filter ha

theorem count_merged (hh : ∀ r ∈ peer, ∀ a ∈ held, hash a = hash r → a = r)
    (hb : ∀ r ∈ peer, bstart ≤ r.ts ∧ r.ts ≤ bend) {acc : List Row × ℕ}
    (h : mergeLoop hash ends (localBucketHashes hash held bstart bend) peer ([], 0) = .ok acc) (r : Row) :
    (held++acc.1).count r = if r ∈ held then held.count r else if ends r then peer.count r else 0 := by
  rw [count_append, mergeLoop_rows h, nil_append]
  split_ifs with hr he
  · rw [Nat.add_eq_left, count_eq_zero, mem_filter, decide_eq_true_iff]
    exact fun hp => hp.2.1 (hash_held (hb r hp.1) hr)
  · rw [count_eq_zero.mpr hr, Nat.zero_add]
    by_cases hp : r ∈ peer
    · exact count_filter (decide_eq_true ⟨fun hx => hr (held_of_hash (hh r hp) hx), he⟩)
    · rw [count_eq_zero.mpr hp, count_eq_zero.mpr fun hx => hp (mem_of_mem_filter hx)]
  · rw [count_eq_zero.mpr hr, Nat.zero_add, count_eq_zero, mem_filter, decide_eq_true_iff]
    exact fun hp => he hp.2.2

/-- A hash that is the second word, the time of a row without other columns. -/
def secondWord (_ : UInt64) (bs : List UInt8) : UInt64 := UInt64.ofNat (leValue (bs.drop 8))

end QEngine.BucketMerge

import QEngine.ByteStreams

/-!
# The schema message

A new table is announced to the other nodes with its columns. The sender takes
the last TIMESTAMP column for the designated one, counts the columns in one
byte and encodes into a buffer of fixed size.
-/

namespace QEngine.SchemaSync
open List ByteFields ByteStreams

def maxCols : ℕ := 256
def maxName : ℕ := 63
def syncBuffer : ℕ := 2048

inductive ColType where
  | timestamp
  | int64
  | float64
  | symbol
  | float32
  deriving DecidableEq

def ColType.code : ColType → UInt8
  | .timestamp => 1
  | .int64 => 2
  | .float64 => 3
  | .symbol => 4
  | .float32 => 5

structure Col where
  name : Bytes
  type : ColType
  deriving DecidableEq

structure Tail where
  unit : UInt8
  blockPoints : UInt32
  sortByTagCol : UInt32
  incarnation : UInt64
  deriving DecidableEq

structure Schema where
  name : Bytes
  cols : List Col
  tsColIdx : ℕ
  tail : Tail
  nameLen : name.length ≤ maxName
  count : cols.length ≤ maxCols
  names : ∀ c ∈ cols, c.name.length ≤ maxName
  designated : (cols[tsColIdx]?).map Col.type = some .timestamp

def lastTimestamp (cols : List Col) : ℕ :=
  cols.zipIdx.foldl (fun ts c => if c.1.type = .timestamp then c.2 else ts) 0

def named (x : Bytes) : Bytes := UInt8.ofNat x.length::x

def Col.bytes (c : Col) : Bytes := named c.name++[c.type.code]

def Tail.bytes (t : Tail) : Bytes :=
  [t.unit]++(leBytes 4 t.blockPoints.toNat++(leBytes 4 t.sortByTagCol.toNat++leBytes 8 t.incarnation.toNat))

def encodeSchema (name : Bytes) (cols : List Col) (tsCol : ℕ) (tail : Tail) : Bytes :=
  named name++([UInt8.ofNat cols.length, UInt8.ofNat tsCol]++(cols.flatMap Col.bytes++tail.bytes))

def clusterOnCreate (s : Schema) : Option Bytes :=
  let bs := encodeSchema s.name s.cols (lastTimestamp s.cols) s.tail
  if syncBuffer < bs.length then none else some bs

structure Decoded where
  name : Bytes
  cols : List (Bytes × UInt8)
  tsColIdx : ℕ
  tail : Tail
  deriving DecidableEq

def nextByte (bs : Bytes) : Option (UInt8 × Bytes) :=
  match bs with
  | [] => none
  | b::bs => some (b, bs)

def nextName (bs : Bytes) : Option (Bytes × Bytes) :=
  (nextByte bs).bind fun (n, bs) => (next n.toNat bs).map fun (x, bs) => (x.take maxName, bs)

def nextCol (bs : Bytes) : Option ((Bytes × UInt8) × Bytes) :=
  (nextName bs).bind fun (x, bs) => (nextByte bs).map fun (t, bs) => ((x, t), bs)

/-- A message of an older sender ends before the options or before the incarnation. -/
def decodeTail (bs : Bytes) : Tail :=
  if bs.length < 9 then ⟨0, 0, 0xffffffff, 0⟩
  else ⟨bs.headD 0, UInt32.ofNat (leValue ((bs.drop 1).take 4)), UInt32.ofNat (leValue ((bs.drop 5).take 4)),
    if bs.length < 17 then 0 else UInt64.ofNat (leValue ((bs.drop 9).take 8))⟩

def decodeSchema (bs : Bytes) : Option Decoded :=
  (nextName bs).bind fun (name, bs) => (nextByte bs).bind fun (n, bs) => (nextByte bs).bind fun (ts, bs) =>
    (nextItems nextCol n.toNat bs).map fun (cols, bs) => ⟨name, cols, ts.toNat, decodeTail bs⟩

theorem nextName_written {x : Bytes} (h : x.length ≤ maxName) (rest : Bytes) :
    nextName (named x++rest) = some (x, rest) := by
  have hx : (UInt8.ofNat x.length).toNat = x.length := by
    rw [maxName] at h
    rw [UInt8.toNat_ofNat']
    omega
  simp [nextName, nextByte, named, hx, next_written x rest rfl, take_of_length_le h]

theorem nextCol_written {c : Col} (h : c.name.length ≤ maxName) (rest : Bytes) :
    nextCol (c.bytes++rest) = some ((c.name, c.type.code), rest) := by
  rw [Col.bytes, append_assoc, nextCol, nextName_written h]
  rfl

theorem lastTimestamp_lt {cols : List Col} (h : cols ≠ []) : lastTimestamp cols < cols.length := by
  have hfold (l : List (Col × ℕ)) (ts : ℕ) (hts : ts < cols.length) (hl : ∀ c ∈ l, c.2 < cols.length) :
      l.foldl (fun ts c => if c.1.type = .timestamp then c.2 else ts) ts < cols.length := by
    induction l generalizing ts with
    | nil => exact hts
    | cons c l ih =>
      refine ih _ ?_ fun x hx => hl x (mem_cons_of_mem _ hx)
      dsimp only
      split_ifs
      · exact hl c mem_cons_self
      · exact hts
  exact hfold _ 0 (length_pos_iff.mpr h) fun c hc => by simpa using snd_lt_of_mem_zipIdx hc

theorem encoded_length (name : Bytes) (cols : List Col) (i j : ℕ) (tail : Tail) :
    (encodeSchema name cols i tail).length = (encodeSchema name cols j tail).length := by
  simp [encodeSchema]

/-- What the follower reads: the count of 256 columns is the byte 0. -/
theorem decode_encoded (s : Schema) (i : ℕ) : ∃ tail,
    decodeSchema (encodeSchema s.name s.cols i s.tail) =
      some ⟨s.name, if s.cols.length = maxCols then [] else s.cols.map fun c => (c.name, c.type.code),
        i%256, tail⟩ := by
  have hcols := @nextItems_written _ nextCol (fun c => UInt8.ofNat c.1.length::c.1++[c.2])
    (s.cols.map fun c => (c.name, c.type.code)) (fun x hx rest => by
      obtain ⟨c, hc, rfl⟩ := mem_map.mp hx
      exact nextCol_written (s.names c hc) rest) s.tail.bytes
  rw [length_map, flatMap_map] at hcols
  rw [encodeSchema, decodeSchema, nextName_written s.nameLen]
  simp only [Option.bind_some, cons_append, nil_append, nextByte, UInt8.toNat_ofNat']
  split_ifs with hc
  · rw [hc]
    exact ⟨_, rfl⟩
  · have hlt : s.cols.length < 256 := lt_of_le_of_ne s.count hc
    rw [Nat.mod_eq_of_lt hlt, show s.cols.flatMap Col.bytes =
      s.cols.flatMap fun c => UInt8.ofNat c.name.length::c.name++[c.type.code] from rfl, hcols]
    exact ⟨_, rfl⟩

/-- A follower reads the names, the types and the designated column of the table exactly when that
column is the last of its type, there are fewer than 256 columns and the message fits its buffer. -/
theorem schema_synced (s : Schema) :
    ((clusterOnCreate s).bind decodeSchema).map (fun d => (d.cols, d.tsColIdx)) =
      some (s.cols.map fun c => (c.name, c.type.code), s.tsColIdx) ↔
    lastTimestamp s.cols = s.tsColIdx ∧ s.cols.length ≠ maxCols ∧
      (encodeSchema s.name s.cols s.tsColIdx s.tail).length ≤ syncBuffer := by
  have hne : s.cols ≠ [] := by
    intro h
    have hd := s.designated
    rw [h] at hd
    cases hd
  obtain ⟨tail, hdec⟩ := decode_encoded s (lastTimestamp s.cols)
  rw [clusterOnCreate, encoded_length s.name s.cols s.tsColIdx (lastTimestamp s.cols) s.tail]
  by_cases hf : syncBuffer < (encodeSchema s.name s.cols (lastTimestamp s.cols) s.tail).length
  · simp [hf]
  rw [if_neg hf, Option.bind_some, hdec, Option.map_some]
  by_cases hc : s.cols.length = maxCols
  · rw [if_pos hc]
    simp [hc, hne]
  · have hlt : s.cols.length < 256 := lt_of_le_of_ne s.count hc
    rw [if_neg hc, Nat.mod_eq_of_lt ((lastTimestamp_lt hne).trans hlt)]
    simp [hc, not_lt.mp hf]

def twoTimes (ts : ℕ)
    (h : ([(⟨[97], .timestamp⟩ : Col), ⟨[98], .timestamp⟩][ts]?).map Col.type = some .timestamp) : Schema :=
  ⟨[116], [⟨[97], .timestamp⟩, ⟨[98], .timestamp⟩], ts,
    ⟨0, 8192, 0xffffffff, 5⟩, by decide, by decide, by decide, h⟩

theorem designated_replaced : ((clusterOnCreate (twoTimes 0 rfl)).bind decodeSchema).map Decoded.tsColIdx =
    some 1 := by
  decide

end QEngine.SchemaSync

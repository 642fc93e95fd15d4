import QEngine.ByteStreams
import QEngine.RaftNode

/-!
# AppendEntries on the wire

A request is packed into a buffer sized for 4096 bytes of payload per entry and 1024
to spare. The log takes payloads of up to 2^20 bytes, and an entry that does not fit
is never sent.
-/

namespace QEngine.AppendRequests
open List ByteFields ByteStreams RaftLogRecord RaftNode

def appendHdrSize : ℕ := 44
def appendEntryHdrSize : ℕ := 24

def appendBufCap (n maxPayload : ℕ) : ℕ := appendHdrSize+n*(appendEntryHdrSize+maxPayload)

def headBytes (r : AppendReq) : Bytes :=
  leBytes 8 r.term++(leBytes 8 r.leaderId++(leBytes 8 r.prevLogIndex++(leBytes 8 r.prevLogTerm++
    (leBytes 8 r.leaderCommit++leBytes 4 r.entries.length))))

def entryBytes (e : Entry) : Bytes :=
  leBytes 8 e.index++(leBytes 8 e.term++(leBytes 4 e.type++(leBytes 4 e.payload.length++e.payload)))

def putEntries (cap : ℕ) : Bytes → List Entry → Option Bytes
  | out, [] => some out
  | out, e::es =>
    if cap < out.length+appendEntryHdrSize+e.payload.length then none else
      putEntries cap (out++entryBytes e) es

def encodeReqAppend (cap : ℕ) (r : AppendReq) : Option Bytes :=
  if cap < appendHdrSize then none else putEntries cap (headBytes r) r.entries

def nextLong (bs : Bytes) : Option (ℕ × Bytes) := (next 8 bs).map fun r => (leValue r.1, r.2)

def nextEntry (bs : Bytes) : Option (Entry × Bytes) := do
  let (index, bs) ← nextLong bs
  let (term, bs) ← nextLong bs
  let (type, bs) ← nextWord bs
  let (len, bs) ← nextWord bs
  if maxEntryPayload < len then none else
  let (payload, bs) ← next len bs
  pure (⟨index, term, type, payload⟩, bs)

def decodeReqAppend (bs : Bytes) : Option AppendReq := do
  let (term, bs) ← nextLong bs
  let (leaderId, bs) ← nextLong bs
  let (prevLogIndex, bs) ← nextLong bs
  let (prevLogTerm, bs) ← nextLong bs
  let (leaderCommit, bs) ← nextLong bs
  let (n, bs) ← nextWord bs
  if 65535 < n then none else
  let (entries, _) ← nextItems nextEntry n bs
  pure ⟨term, leaderId, prevLogIndex, prevLogTerm, leaderCommit, entries⟩

/-- `replicate_to`: the buffer and the bytes in it. -/
def packed (r : AppendReq) : Option Bytes := encodeReqAppend (appendBufCap r.entries.length 4096+1024) r

structure Accepted (e : Entry) : Prop where
  index : e.index < 2^64
  term : e.term < 2^64
  type : e.type < 2^32
  payload : e.payload.length ≤ maxEntryPayload

structure Sendable (r : AppendReq) : Prop where
  term : r.term < 2^64
  leaderId : r.leaderId < 2^64
  prevLogIndex : r.prevLogIndex < 2^64
  prevLogTerm : r.prevLogTerm < 2^64
  leaderCommit : r.leaderCommit < 2^64
  count : r.entries.length ≤ 64
  entries : ∀ e ∈ r.entries, Accepted e

theorem nextLong_written {n : ℕ} (hn : n < 2^64) (rest : Bytes) :
    nextLong (leBytes 8 n++rest) = some (n, rest) := by
  rw [nextLong, next_written _ _ (leBytes_length 8 n), Option.map_some, leValue_leBytes 8 n (by omega)]

theorem nextEntry_written (e : Entry) (h : Accepted e) (rest : Bytes) :
    nextEntry (entryBytes e++rest) = some (e, rest) := by
  have hp := h.payload
  have hlen : e.payload.length < 2^32 := lt_of_le_of_lt hp (by decide)
  simp only [nextEntry, entryBytes, append_assoc, bind, Option.bind, nextLong_written h.index,
    nextLong_written h.term, nextWord_written h.type, nextWord_written hlen, if_neg (Nat.not_lt.mpr hp),
    next_written e.payload rest rfl]
  rfl

theorem entryBytes_length (e : Entry) : (entryBytes e).length = appendEntryHdrSize+e.payload.length := by
  simp only [entryBytes, length_append, leBytes_length, appendEntryHdrSize]
  omega

theorem headBytes_length (r : AppendReq) : (headBytes r).length = appendHdrSize := by
  simp only [headBytes, length_append, leBytes_length, appendHdrSize]

theorem putEntries_eq (cap : ℕ) (es : List Entry) (out : Bytes) (h : out.length ≤ cap) :
    putEntries cap out es =
    if out.length+es.length*appendEntryHdrSize+(es.map fun e => e.payload.length).sum ≤ cap
      then some (out++es.flatMap entryBytes) else none := by
  induction es generalizing out with
  | nil => simp [putEntries, h]
  | cons e es ih =>
    rw [putEntries, length_cons, map_cons, sum_cons, Nat.succ_mul]
    by_cases he : cap < out.length+appendEntryHdrSize+e.payload.length
    · rw [if_pos he, if_neg (by omega)]
    · have hlen : (out++entryBytes e).length = out.length+appendEntryHdrSize+e.payload.length := by
        rw [length_append, entryBytes_length]
        omega
      rw [if_neg he, ih _ (by omega), hlen, flatMap_cons, append_assoc]
      exact if_congr (by omega) rfl rfl

theorem decode_written (r : AppendReq) (h : Sendable r) :
    decodeReqAppend (headBytes r++r.entries.flatMap entryBytes) = some r := by
  have hn := h.count
  have hitems := nextItems_written _ (fun e he => nextEntry_written e (h.entries e he)) []
  rw [append_nil] at hitems
  simp only [decodeReqAppend, headBytes, append_assoc, bind, Option.bind, nextLong_written h.term,
    nextLong_written h.leaderId, nextLong_written h.prevLogIndex, nextLong_written h.prevLogTerm,
    nextLong_written h.leaderCommit, nextWord_written (show r.entries.length < 2^32 by omega),
    if_neg (show ¬65535 < r.entries.length by omega), hitems]
  rfl

theorem packed_eq (r : AppendReq) : packed r =
    if (r.entries.map fun e => e.payload.length).sum ≤ r.entries.length*4096+1024
    then some (headBytes r++r.entries.flatMap entryBytes) else none := by
  have hcap : appendHdrSize ≤ appendBufCap r.entries.length 4096+1024 := by
    rw [appendBufCap]
    omega
  rw [packed, encodeReqAppend, if_neg (not_lt.mpr hcap),
    putEntries_eq _ _ _ (by rw [headBytes_length]; exact hcap)]
  rw [headBytes_length, appendBufCap, Nat.mul_add]
  exact if_congr (by omega) rfl rfl

/-- A request is packed and read back as it was exactly when its payloads fit the buffer together. -/
theorem request_shipped (r : AppendReq) (h : Sendable r) :
    (∃ bs, packed r = some bs ∧ decodeReqAppend bs = some r) ↔
      (r.entries.map fun e => e.payload.length).sum ≤ r.entries.length*4096+1024 := by
  rw [packed_eq]
  constructor
  · rintro ⟨bs, hbs, -⟩
    by_contra hp
    rw [if_neg hp] at hbs
    cases hbs
  · intro hp
    exact ⟨_, if_pos hp, decode_written r h⟩

def oneEntry (n : ℕ) : AppendReq := ⟨1, 1, 0, 0, 0, [⟨1, 1, 1, List.replicate n 7⟩]⟩

theorem oneEntry_sendable (n : ℕ) (h : n ≤ maxEntryPayload) : Sendable (oneEntry n) := by
  have he : Accepted ⟨1, 1, 1, List.replicate n 7⟩ :=
    ⟨Nat.one_lt_two_pow (by decide), Nat.one_lt_two_pow (by decide), Nat.one_lt_two_pow (by decide),
      by rw [length_replicate]; exact h⟩
  exact ⟨Nat.one_lt_two_pow (by decide), Nat.one_lt_two_pow (by decide), Nat.two_pow_pos 64,
    Nat.two_pow_pos 64,
    Nat.two_pow_pos 64, Nat.one_le_of_lt (by decide : 1 < 64), forall_mem_singleton.mpr he⟩

theorem request_shipped_one : ∃ bs, packed (oneEntry 5120) = some bs ∧
    decodeReqAppend bs = some (oneEntry 5120) :=
  (request_shipped _ (oneEntry_sendable 5120 (by decide))).mpr
    (by rw [oneEntry, map_singleton, length_replicate]; decide)

/-- One byte more than the buffer was sized for. -/
theorem accepted_entry_not_packed :
    Sendable (oneEntry 5121) ∧ (Log.empty.append 1 1 (List.replicate 5121 7)).isSome = true ∧
    packed (oneEntry 5121) = none := by
  refine ⟨oneEntry_sendable 5121 (by decide), ?_, ?_⟩
  · rw [Log.append, length_replicate, if_neg (by decide)]
    rfl
  · rw [packed_eq, oneEntry, map_singleton, length_replicate]
    exact if_neg (by decide)

end QEngine.AppendRequests

import QEngine.BitStream
import QEngine.BackReferences

/-!
# The block compressor

The encoder walks hash chains for an earlier occurrence of the next four bytes and
emits pairs of a literal run and a back-reference. The chains hold positions modulo 64
K, but every candidate is compared with the input before it is used.
-/

namespace QEngine.Lzlite
open List Function ByteFields BitStream BackReferences

def nil : ℕ := 0xFFFF

def maxOutput (n : ℕ) : ℕ := n+n/255+16

def hash4 (src : Bytes) (ip : ℕ) : ℕ :=
  leValue ((src.drop ip).take 4)*2654435761%2^32 >>> 16

structure HashTable where
  head : ℕ → ℕ
  prev : ℕ → ℕ

def HashTable.insert (ht : HashTable) (h p16 : ℕ) : HashTable where
  head := update ht.head h p16
  prev := update ht.prev p16 (ht.head h)

def sameFour (src : Bytes) (ref ip : ℕ) : Bool :=
  (List.range 4).all fun k => src.getD (ref+k) default == src.getD (ip+k) default

def extend (src : Bytes) (ref ip : ℕ) : ℕ → ℕ → ℕ
  | 0, ml => ml
  | f+1, ml =>
    if src.getD (ref+ml) default = src.getD (ip+ml) default then extend src ref ip f (ml+1) else ml

def walk (src : Bytes) (prev : ℕ → ℕ) (ip : ℕ) : ℕ → ℕ → ℕ × ℕ → ℕ × ℕ
  | 0, _, best => best
  | limit+1, ref16, best =>
    if ref16 = nil then best
    else
      let off := (ip%65536+65536-ref16)%65536
      if off = 0 then best
      else if ip < off then best
      else
        let ref := ip-off
        if src.length < ref+4 then walk src prev ip limit (prev ref16) best
        else if !sameFour src ref ip then walk src prev ip limit (prev ref16) best
        else
          let ml := extend src ref ip (src.length-ip-4) 4
          if best.1 < ml then
            if 256 ≤ ml then (ml, off) else walk src prev ip limit (prev ref16) (ml, off)
          else walk src prev ip limit (prev ref16) best

def insertAll (src : Bytes) : ℕ → ℕ → HashTable → HashTable
  | 0, _, ht => ht
  | f+1, ip, ht =>
    if ip+4 ≤ src.length then insertAll src f (ip+1) (ht.insert (hash4 src ip) (ip%65536)) else ht

def putAll (cap : ℕ) (out bs : Bytes) : Except Rc Bytes :=
  if cap < out.length+bs.length then .error .overflow else .ok (out++bs)

def putByte (cap : ℕ) (out : Bytes) (b : ℕ) : Except Rc Bytes :=
  if cap ≤ out.length then .error .overflow else .ok (out++[UInt8.ofNat b])

def writeOverflow (cap : ℕ) : ℕ → Bytes → ℕ → Except Rc Bytes
  | 0, out, extra => putByte cap out extra
  | f+1, out, extra =>
    if 255 ≤ extra then do
      let out ← putByte cap out 255
      writeOverflow cap f out (extra-255)
    else putByte cap out extra

def nibble (n : ℕ) : ℕ := if 15 ≤ n then 15 else n

def putLength (cap : ℕ) (out : Bytes) (n : ℕ) : Except Rc Bytes :=
  if nibble n = 15 then writeOverflow cap (n-15) out (n-15) else .ok out

def emitMatch (cap : ℕ) (lits : Bytes) (len off : ℕ) (out : Bytes) : Except Rc Bytes := do
  let out ← putByte cap out (nibble lits.length <<< 4 ||| nibble (len-4))
  let out ← putLength cap out lits.length
  let out ← putLength cap out (len-4)
  let out ← putAll cap out (leBytes 2 off)
  putAll cap out lits

def emitLast (cap : ℕ) (lits out : Bytes) : Except Rc Bytes := do
  let out ← putByte cap out (nibble lits.length <<< 4)
  let out ← putLength cap out lits.length
  putAll cap out lits

structure Cursor where
  ip : ℕ
  litStart : ℕ
  out : Bytes
  ht : HashTable

def findMatch (src : Bytes) (ht : HashTable) (ip : ℕ) : ℕ × ℕ :=
  if ip+4 ≤ src.length then walk src ht.prev ip 64 (ht.head (hash4 src ip)) (0, 0) else (0, 0)

def encodeLoop (cap : ℕ) (src : Bytes) : ℕ → Cursor → Except Rc Cursor
  | 0, c => .ok c
  | f+1, c =>
    if c.ip < src.length then
      let best := findMatch src c.ht c.ip
      let ht := insertAll src 1 c.ip c.ht
      if best.1 < 4 then encodeLoop cap src f ⟨c.ip+1, c.litStart, c.out, ht⟩
      else do
        let lits := (src.drop c.litStart).take (c.ip-c.litStart)
        let out ← emitMatch cap lits best.1 best.2 c.out
        encodeLoop cap src f ⟨c.ip+best.1, c.ip+best.1, out, insertAll src (best.1-1) (c.ip+1) ht⟩
    else .ok c

def encodeBytes (cap : ℕ) (src : Bytes) (prev : ℕ → ℕ) : Except Rc Bytes := do
  let c ← encodeLoop cap src src.length ⟨0, 0, [], ⟨fun _ => nil, prev⟩⟩
  emitLast cap (src.drop c.litStart) c.out

def toInt (n : ℕ) : ℤ :=
  if n%4294967296 < 2147483648 then (n%4294967296 : ℕ) else (n%4294967296 : ℕ)-4294967296

structure Encoded where
  rc : ℤ
  out : Bytes
  deriving DecidableEq

def Encoded.ofResult : Except Rc Bytes → Encoded
  | .error e => ⟨e.code, []⟩
  | .ok out => ⟨toInt out.length, out⟩

/-- The scratch tables are absent when they could not be allocated; their
`prev` half keeps what an earlier call left. -/
def lzliteEncode (scratch : Option (ℕ → ℕ)) (src : Bytes) (cap : ℕ) : Encoded :=
  if src = [] then ⟨0, []⟩
  else if cap < maxOutput src.length then ⟨Rc.overflow.code, []⟩
  else match scratch with
    | none => ⟨Rc.nomem.code, []⟩
    | some prev => .ofResult (encodeBytes cap src prev)

def readOverflow : Bytes → ℕ → Except Rc (ℕ × Bytes)
  | [], _ => .error .corrupt
  | b::bs, acc => if b = 255 then readOverflow bs (acc+b.toNat) else .ok (acc+b.toNat, bs)

def readLength (nib base : ℕ) (rest : Bytes) : Except Rc (ℕ × Bytes) :=
  if nib = 15 then readOverflow rest (base+nib) else .ok (base+nib, rest)

def readOffset (rest : Bytes) : Except Rc (ℕ × Bytes) :=
  if rest.length < 2 then .error .corrupt
  else if leValue (rest.take 2) = 0 then .error .corrupt
  else .ok (leValue (rest.take 2), rest.drop 2)

def copyLiterals (cap n : ℕ) (rest out : Bytes) : Except Rc (Bytes × Bytes) :=
  if 0 < n then
    if rest.length < n then .error .corrupt
    else if cap < out.length+n then .error .overflow
    else .ok (rest.drop n, out++rest.take n)
  else .ok (rest, out)

def copyMatch (cap off len : ℕ) (out : Bytes) : Except Rc Bytes :=
  if 4 ≤ len then
    if out.length < off then .error .corrupt
    else if cap < out.length+len then .error .overflow
    else if off < len then .ok (copyBack off len out)
    else .ok (out++(out.drop (out.length-off)).take len)
  else .ok out

def decodeStep (cap : ℕ) (token : UInt8) (rest out : Bytes) : Except Rc (Bytes × Bytes) := do
  let matchNib := token.toNat%16
  let (litLen, rest) ← readLength (token.toNat/16) 0 rest
  -- a zero nibble is a four-byte match when an offset still fits behind the literals
  if matchNib ≠ 0 ∨ litLen+2 ≤ rest.length then
    let (matchLen, rest) ← readLength matchNib 4 rest
    let (off, rest) ← readOffset rest
    let (rest, out) ← copyLiterals cap litLen rest out
    let out ← copyMatch cap off matchLen out
    pure (rest, out)
  else copyLiterals cap litLen rest out

def decodeLoop (cap : ℕ) : ℕ → Bytes → Bytes → Except Rc Bytes
  | 0, _, out => .ok out
  | _+1, [], out => .ok out
  | f+1, token::rest, out => do
    let (rest, out) ← decodeStep cap token rest out
    decodeLoop cap f rest out

def lzliteDecode (bs : Bytes) (cap : ℕ) : Except Rc Bytes := decodeLoop cap bs.length bs []

variable (cap : ℕ)

variable (out : Bytes)

theorem putByte_eq (b : ℕ) : putByte cap out b = putAll cap out [UInt8.ofNat b] := by
  by_cases h : cap ≤ out.length
  · rw [putByte, if_pos h, putAll, if_pos (by simp; omega)]
  · rw [putByte, if_neg h, putAll, if_neg (by simp; omega)]

theorem putAll_append (out as bs : Bytes) :
    (putAll cap out as >>= fun out => putAll cap out bs) = putAll cap out (as++bs) := by
  by_cases h : cap < out.length+as.length
  · have h2 : cap < out.length+(as++bs).length := by simp; omega
    rw [putAll, if_pos h, putAll, if_pos h2]
    rfl
  have hb : (putAll cap out as >>= fun out => putAll cap out bs) = putAll cap (out++as) bs := by
    rw [putAll, if_neg h]
    rfl
  rw [hb]
  simp only [putAll, append_assoc, length_append, Nat.add_assoc]

def chain (extra : ℕ) : Bytes := List.replicate (extra/255) 255++[UInt8.ofNat (extra%255)]

def lengthBytes (n : ℕ) : Bytes := if 15 ≤ n then chain (n-15) else []

theorem chain_large {extra : ℕ} (h : 255 ≤ extra) : chain extra = 255::chain (extra-255) := by
  have hd : extra/255 = (extra-255)/255+1 := by omega
  have hm : extra%255 = (extra-255)%255 := by omega
  rw [chain, hd, hm, replicate_succ]
  rfl

theorem chain_small (extra : ℕ) (h : extra < 255) : chain extra = [UInt8.ofNat extra] := by
  rw [chain, Nat.div_eq_of_lt h, Nat.mod_eq_of_lt h]
  rfl

theorem lengthBytes_length (n : ℕ) : (lengthBytes n).length = (n+240)/255 := by
  by_cases h : 15 ≤ n
  · simp only [lengthBytes, if_pos h, chain, length_append, length_replicate, length_singleton]
    omega
  · rw [lengthBytes, if_neg h, length_nil]
    omega

theorem writeOverflow_eq (f : ℕ) (out : Bytes) (extra : ℕ) (hf : extra ≤ f) :
    writeOverflow cap f out extra = putAll cap out (chain extra) := by
  induction f generalizing out extra with
  | zero =>
    rw [writeOverflow, putByte_eq, chain_small _ (by omega)]
  | succ f ih =>
    by_cases h : 255 ≤ extra
    · have hnext : (fun out => writeOverflow cap f out (extra-255)) =
          fun out => putAll cap out (chain (extra-255)) := by
        funext out
        exact ih out _ (by omega)
      rw [writeOverflow, if_pos h, hnext, putByte_eq, putAll_append, chain_large h]
      rfl
    · rw [writeOverflow, if_neg h, putByte_eq, chain_small _ (by omega)]

theorem putLength_eq (out bs : Bytes) (n : ℕ) :
    (putAll cap out bs >>= fun out => putLength cap out n) = putAll cap out (bs++lengthBytes n) := by
  by_cases h : 15 ≤ n
  · have hw : (fun out => putLength cap out n) = fun out => putAll cap out (lengthBytes n) := by
      funext out
      rw [putLength, nibble, if_pos h, if_pos rfl, writeOverflow_eq cap _ out _ (le_refl _)]
      rw [lengthBytes, if_pos h]
    rw [hw, putAll_append]
  have hw : (fun out => putLength cap out n) = Except.ok := by
    funext out
    rw [putLength, nibble, if_neg h, if_neg (by omega)]
  rw [hw, lengthBytes, if_neg h, append_nil]
  exact bind_pure _

def matchBytes (lits : Bytes) (len off : ℕ) : Bytes :=
  UInt8.ofNat (nibble lits.length <<< 4 ||| nibble (len-4))::
    (lengthBytes lits.length++lengthBytes (len-4)++leBytes 2 off++lits)

def lastBytes (lits : Bytes) : Bytes :=
  UInt8.ofNat (nibble lits.length <<< 4)::(lengthBytes lits.length++lits)

variable (lits : Bytes)

theorem emitMatch_eq (len off : ℕ) (out : Bytes) :
    emitMatch cap lits len off out = putAll cap out (matchBytes lits len off) := by
  rw [emitMatch, putByte_eq]
  rw [← bind_assoc, putLength_eq, ← bind_assoc, putLength_eq, ← bind_assoc, putAll_append, putAll_append]
  simp [matchBytes]

theorem emitLast_eq : emitLast cap lits out = putAll cap out (lastBytes lits) := by
  rw [emitLast, putByte_eq, ← bind_assoc, putLength_eq, putAll_append]
  simp [lastBytes]

theorem matchBytes_length (len off : ℕ) : (matchBytes lits len off).length =
    3+lits.length+(lits.length+240)/255+(len-4+240)/255 := by
  simp only [matchBytes, length_cons, length_append, lengthBytes_length, leBytes_length]
  omega

theorem lastBytes_length : (lastBytes lits).length = 1+lits.length+(lits.length+240)/255 := by
  simp only [lastBytes, length_cons, length_append, lengthBytes_length]
  omega

theorem readOverflow_chain (extra acc : ℕ) (rest : Bytes) :
    readOverflow (chain extra++rest) acc = .ok (acc+extra, rest) := by
  induction extra using Nat.strong_induction_on generalizing acc with
  | _ extra ih =>
    by_cases h : 255 ≤ extra
    · rw [chain_large h, cons_append, readOverflow, if_pos rfl, ih (extra-255) (by omega)]
      have ht : (255:UInt8).toNat = 255 := rfl
      rw [ht, show acc+255+(extra-255) = acc+extra by omega]
    have ht : (UInt8.ofNat extra).toNat = extra := by
      rw [UInt8.toNat_ofNat']
      omega
    have hne : UInt8.ofNat extra ≠ 255 := by
      intro he
      rw [he] at ht
      have : (255:UInt8).toNat = 255 := rfl
      omega
    rw [chain_small _ (by omega), singleton_append, readOverflow, if_neg hne, ht]

theorem readLength_written (n base : ℕ) (rest : Bytes) :
    readLength (nibble n) base (lengthBytes n++rest) = .ok (base+n, rest) := by
  by_cases h : 15 ≤ n
  · rw [readLength, nibble, if_pos h, if_pos rfl, lengthBytes, if_pos h, readOverflow_chain]
    rw [show base+15+(n-15) = base+n by omega]
  · rw [readLength, nibble, if_neg h, if_neg (by omega), lengthBytes, if_neg h, nil_append]

theorem nibble_lt (n : ℕ) : nibble n < 16 := by
  rw [nibble]
  split_ifs <;> omega

theorem token_nibbles (a b : ℕ) (ha : a < 16) (hb : b < 16) :
    (UInt8.ofNat (a <<< 4 ||| b)).toNat/16 = a ∧ (UInt8.ofNat (a <<< 4 ||| b)).toNat%16 = b := by
  have h : ∀ a < 16, ∀ b < 16, (UInt8.ofNat (a <<< 4 ||| b)).toNat/16 = a ∧
    (UInt8.ofNat (a <<< 4 ||| b)).toNat%16 = b := by decide
  exact h a ha b hb

theorem readOffset_written {off : ℕ} {rest : Bytes} (h1 : 1 ≤ off) (h2 : off < 65536) :
    readOffset (leBytes 2 off++rest) = .ok (off, rest) := by
  have hl := leBytes_length 2 off
  have ht : (leBytes 2 off++rest).take 2 = leBytes 2 off := take_left' hl
  have hd : (leBytes 2 off++rest).drop 2 = rest := drop_left' hl
  rw [readOffset, ht, hd, leValue_leBytes 2 off (by omega), if_neg (by simp; omega), if_neg (by omega)]

theorem copyLiterals_written (rest out : Bytes) (hc : out.length+lits.length ≤ cap) :
    copyLiterals cap lits.length (lits++rest) out = .ok (rest, out++lits) := by
  by_cases h : 0 < lits.length
  · rw [copyLiterals, if_pos h, if_neg (by simp), if_neg (by omega)]
    simp
  · have hn : lits = [] := eq_nil_of_length_eq_zero (by omega)
    simp [copyLiterals, hn]

theorem copyMatch_eq (off len : ℕ) (out : Bytes) (h4 : 4 ≤ len) (ho : off ≤ out.length)
    (hc : out.length+len ≤ cap) : copyMatch cap off len out = .ok (copyBack off len out) := by
  rw [copyMatch, if_pos h4, if_neg (by omega), if_neg (by omega)]
  by_cases h : off < len
  · rw [if_pos h]
  · rw [if_neg h, copyBack_disjoint out off len (by omega) ho]

theorem decode_match {len off : ℕ} (out tail : Bytes) (f : ℕ)
    (h4 : 4 ≤ len) (h1 : 1 ≤ off) (h2 : off < 65536) (ho : off ≤ out.length+lits.length)
    (hc : out.length+lits.length+len ≤ cap) : decodeLoop cap (f+1) (matchBytes lits len off++tail) out =
      decodeLoop cap f tail (copyBack off len (out++lits)) := by
  obtain ⟨hl, hm⟩ := token_nibbles _ _ (nibble_lt lits.length) (nibble_lt (len-4))
  have hlen : (out++lits).length = out.length+lits.length := length_append
  have hs : decodeStep cap (UInt8.ofNat (nibble lits.length <<< 4 ||| nibble (len-4)))
      (lengthBytes lits.length++(lengthBytes (len-4)++(leBytes 2 off++(lits++tail)))) out =
      .ok (tail, copyBack off len (out++lits)) := by
    have hroom : nibble (len-4) ≠ 0 ∨ 0+lits.length+2 ≤
        (lengthBytes (len-4)++(leBytes 2 off++(lits++tail))).length := by
      right
      simp only [length_append, leBytes_length]
      omega
    simp only [decodeStep, hl, hm, readLength_written, bind, Except.bind]
    rw [if_pos hroom]
    simp only [readOffset_written h1 h2, Nat.zero_add]
    rw [show 4+(len-4) = len by omega, copyLiterals_written cap _ _ out (by omega)]
    simp only []
    rw [copyMatch_eq cap off len _ h4 (by omega) (by omega)]
    rfl
  have hb : matchBytes lits len off++tail =
      UInt8.ofNat (nibble lits.length <<< 4 ||| nibble (len-4))::
        (lengthBytes lits.length++(lengthBytes (len-4)++(leBytes 2 off++(lits++tail)))) := by
    simp [matchBytes]
  rw [hb, decodeLoop, hs]
  rfl

/-- Behind the literals of the last run no offset fits, so it is not taken for a match. -/
theorem decode_last {out : Bytes} {f : ℕ} (hc : out.length+lits.length ≤ cap) :
    decodeLoop cap (f+1) (lastBytes lits) out = .ok (out++lits) := by
  obtain ⟨hl, hm⟩ := token_nibbles _ 0 (nibble_lt lits.length) (by decide)
  rw [Nat.or_zero] at hl hm
  have hs : decodeStep cap (UInt8.ofNat (nibble lits.length <<< 4))
      (lengthBytes lits.length++lits) out = .ok ([], out++lits) := by
    have hroom : ¬(0 ≠ 0 ∨ 0+lits.length+2 ≤ lits.length) := by omega
    have hcopy := copyLiterals_written cap lits [] out hc
    rw [append_nil] at hcopy
    simp only [decodeStep, hl, hm, readLength_written, bind, Except.bind]
    rw [if_neg hroom, Nat.zero_add, hcopy]
  rw [lastBytes, decodeLoop, hs]
  cases f <;> rfl

/-- A reference the encoder may use at `ip`; no reference has length 0. -/
def Compared (src : Bytes) (ip : ℕ) (best : ℕ × ℕ) : Prop :=
  best.1 = 0 ∨ (4 ≤ best.1 ∧ 1 ≤ best.2 ∧ best.2 < 65536 ∧ best.2 ≤ ip ∧
    ip+best.1 ≤ src.length ∧ Repeats src ip best.2 best.1)

variable (src : Bytes)

theorem extend_spec (ip off f ml : ℕ) (hr : Repeats src ip off ml) :
    ml ≤ extend src (ip-off) ip f ml ∧ extend src (ip-off) ip f ml ≤ ml+f ∧
      Repeats src ip off (extend src (ip-off) ip f ml) := by
  induction f generalizing ml with
  | zero => exact ⟨le_refl _, le_refl _, hr⟩
  | succ f ih =>
    by_cases h : src.getD (ip-off+ml) default = src.getD (ip+ml) default
    · have hnext : Repeats src ip off (ml+1) := by
        intro k hk
        rcases Nat.lt_succ_iff_lt_or_eq.mp hk with hlt | heq
        · exact hr k hlt
        · rw [heq]
          exact h
      obtain ⟨h1, h2, h3⟩ := ih (ml+1) hnext
      rw [extend, if_pos h]
      exact ⟨by omega, by omega, h3⟩
    · rw [extend, if_neg h]
      exact ⟨le_refl _, by omega, hr⟩

theorem sameFour_repeats {ip off : ℕ} (h : sameFour src (ip-off) ip = true) : Repeats src ip off 4 := by
  intro k hk
  have hall := all_eq_true.mp h k (mem_range.mpr hk)
  exact eq_of_beq hall

variable (prev : ℕ → ℕ)

theorem walk_compared (ip limit ref16 : ℕ) (best : ℕ × ℕ)
    (hip : ip+4 ≤ src.length) (hb : Compared src ip best) :
    Compared src ip (walk src prev ip limit ref16 best) := by
  induction limit generalizing ref16 best with
  | zero => exact hb
  | succ limit ih =>
    rw [walk]
    by_cases hn : ref16 = nil
    · rwa [if_pos hn]
    rw [if_neg hn]
    generalize ho : (ip%65536+65536-ref16)%65536 = off
    have hlt : off < 65536 := by omega
    by_cases h0 : off = 0
    · rwa [if_pos h0]
    rw [if_neg h0]
    by_cases hs : ip < off
    · rwa [if_pos hs]
    rw [if_neg hs]
    by_cases hi : src.length < ip-off+4
    · rw [if_pos hi]
      exact ih _ _ hb
    rw [if_neg hi]
    by_cases h4 : (!sameFour src (ip-off) ip) = true
    · rw [if_pos h4]
      exact ih _ _ hb
    rw [if_neg h4]
    have hsame : sameFour src (ip-off) ip = true := by simpa using h4
    obtain ⟨h1, h2, h3⟩ := extend_spec src ip off _ 4 (sameFour_repeats src hsame)
    have hml : Compared src ip (extend src (ip-off) ip (src.length-ip-4) 4, off) :=
      .inr ⟨h1, by omega, hlt, by omega, by dsimp only; omega, h3⟩
    by_cases hbest : best.1 < extend src (ip-off) ip (src.length-ip-4) 4
    · rw [if_pos hbest]
      by_cases hl : 256 ≤ extend src (ip-off) ip (src.length-ip-4) 4
      · rwa [if_pos hl]
      · rw [if_neg hl]
        exact ih _ _ hml
    · rw [if_neg hbest]
      exact ih _ _ hb

theorem findMatch_compared (ht : HashTable) (ip : ℕ) : Compared src ip (findMatch src ht ip) := by
  by_cases h : ip+4 ≤ src.length
  · rw [findMatch, if_pos h]
    exact walk_compared src _ ip 64 _ _ h (.inl rfl)
  · rw [findMatch, if_neg h]
    exact .inl rfl

/-- What was written decodes to the input before `litStart`, and is no longer
than a single literal run would be. -/
structure Written (src : Bytes) (c : Cursor) : Prop where
  front : c.litStart ≤ c.ip
  inside : c.ip ≤ src.length
  size : ∀ k, c.out.length+(k+240)/255 ≤ c.litStart+(c.litStart+k+240)/255
  decodes : ∃ j ≤ c.out.length, ∀ f tail,
    decodeLoop src.length (j+f) (c.out++tail) [] = decodeLoop src.length f tail (src.take c.litStart)

theorem take_literals {i k : ℕ} (h : i ≤ k) : src.take i++(src.drop i).take (k-i) = src.take k := by
  have hk : k = i+(k-i) := by omega
  conv_rhs => rw [hk, take_add]

theorem written_match {c : Cursor} {len off : ℕ} (ht : HashTable)
    (hw : Written src c) (h4 : 4 ≤ len) (hb : Compared src c.ip (len, off)) : Written src ⟨c.ip+len, c.ip+len,
      c.out++matchBytes ((src.drop c.litStart).take (c.ip-c.litStart)) len off, ht⟩ := by
  obtain h0 | ⟨-, h1, h2, ho, hin, hr⟩ := hb
  · dsimp only at h0
    omega
  have hf := hw.front
  have hlits : ((src.drop c.litStart).take (c.ip-c.litStart)).length = c.ip-c.litStart := by
    rw [length_take, length_drop]
    omega
  have hlen := matchBytes_length ((src.drop c.litStart).take (c.ip-c.litStart)) len off
  rw [hlits] at hlen
  obtain ⟨j, hj, hd⟩ := hw.decodes
  refine ⟨le_refl _, hin, ?_, j+1, ?_, ?_⟩
  · intro k
    have hs := hw.size (c.ip-c.litStart)
    rw [show c.litStart+(c.ip-c.litStart) = c.ip by omega] at hs
    dsimp only
    rw [length_append, hlen]
    omega
  · dsimp only
    rw [length_append]
    omega
  · intro f tail
    have htake : (src.take c.litStart).length = c.litStart := by
      rw [length_take]
      omega
    rw [append_assoc, show j+1+f = j+(f+1) by omega, hd]
    rw [decode_match src.length _ _ tail f h4 h1 h2 (by omega) (by omega)]
    rw [take_literals src hf, copyBack_take src c.ip off len h1 ho hin hr]

theorem written_room {c : Cursor} {cap : ℕ} (hw : Written src c)
    (hc : maxOutput src.length ≤ cap) : c.out.length ≤ cap := by
  have hs := hw.size 0
  have hf := hw.front
  have hi := hw.inside
  rw [maxOutput] at hc
  omega

theorem encodeLoop_written (f : ℕ) (c : Cursor) (hc : maxOutput src.length ≤ cap) (hw : Written src c) :
    ∃ c', encodeLoop cap src f c = .ok c' ∧ Written src c' := by
  induction f generalizing c with
  | zero => exact ⟨c, rfl, hw⟩
  | succ f ih =>
    by_cases hip : c.ip < src.length
    · rw [encodeLoop, if_pos hip]
      dsimp only
      have hb := findMatch_compared src c.ht c.ip
      generalize findMatch src c.ht c.ip = best at hb ⊢
      by_cases h4 : best.1 < 4
      · rw [if_pos h4]
        exact ih _ ⟨by have := hw.front; dsimp only; omega, hip, hw.size, hw.decodes⟩
      have hnext := written_match src
        (insertAll src (best.1-1) (c.ip+1) (insertAll src 1 c.ip c.ht)) hw (by omega) hb
      have hroom := written_room src hnext hc
      rw [length_append] at hroom
      rw [if_neg h4, emitMatch_eq, putAll, if_neg (by omega)]
      exact ih _ hnext
    · rw [encodeLoop, if_neg hip]
      exact ⟨c, rfl, hw⟩

theorem written_start (ht : HashTable) : Written src ⟨0, 0, [], ht⟩ where
  front := le_refl _
  inside := Nat.zero_le _
  size := by
    intro k
    simp
  decodes := ⟨0, le_refl _, fun f tail => by simp⟩

theorem encodeBytes_spec (hc : maxOutput src.length ≤ cap) :
    ∃ out, encodeBytes cap src prev = .ok out ∧ out.length ≤ 1+src.length+(src.length+240)/255 ∧
      lzliteDecode out src.length = .ok src := by
  obtain ⟨c, hrun, hw⟩ := encodeLoop_written cap src src.length _ hc
    (written_start src ⟨fun _ => nil, prev⟩)
  have hf := hw.front
  have hi := hw.inside
  have hs := hw.size (src.length-c.litStart)
  rw [show c.litStart+(src.length-c.litStart) = src.length by omega] at hs
  have hlast := lastBytes_length (src.drop c.litStart)
  rw [length_drop] at hlast
  have hfit : ¬cap < c.out.length+(lastBytes (src.drop c.litStart)).length := by
    rw [maxOutput] at hc
    omega
  refine ⟨c.out++lastBytes (src.drop c.litStart), ?_, ?_, ?_⟩
  · simp only [encodeBytes, hrun, bind, Except.bind, emitLast_eq]
    rw [putAll, if_neg hfit]
  · rw [length_append]
    omega
  obtain ⟨j, hj, hd⟩ := hw.decodes
  have hfuel : (c.out++lastBytes (src.drop c.litStart)).length =
      j+((c.out++lastBytes (src.drop c.litStart)).length-j-1+1) := by
    rw [length_append]
    omega
  have htake : (src.take c.litStart).length+(src.drop c.litStart).length ≤ src.length := by
    rw [length_take, length_drop]
    omega
  rw [lzliteDecode, hfuel, hd, decode_last _ _ htake, take_append_drop]

theorem lzliteEncode_empty (scratch : Option (ℕ → ℕ)) (cap : ℕ) : lzliteEncode scratch [] cap = ⟨0, []⟩ := by
  rw [lzliteEncode.eq_def, if_pos rfl]

theorem lzliteEncode_unallocated {cap : ℕ} (hne : src ≠ [])
    (hc : maxOutput src.length ≤ cap) : lzliteEncode none src cap = ⟨Rc.nomem.code, []⟩ := by
  rw [lzliteEncode, if_neg hne, if_neg (by omega)]

theorem lzliteEncode_allocated {src : Bytes} {cap : ℕ} (hne : src ≠ [])
    (hc : maxOutput src.length ≤ cap) :
    lzliteEncode (some prev) src cap = .ofResult (encodeBytes cap src prev) := by
  rw [lzliteEncode, if_neg hne, if_neg (by omega)]

end QEngine.Lzlite

import QEngine.Chimp128
import QEngine.EncodedSizes
import QEngine.Lzlite

/-!
# The choice of a codec for a block

The encoder tries the codecs that suit a column's type, keeps the smallest result or
an unpacked copy, and wraps it in the block compressor where that saves enough. Any
temporary allocation of the encoder may fail.
-/

namespace QEngine.AdaptiveCodec
open List ByteFields BitStream Uvarint DeltaOfDelta PatchedFrames GorillaChimp Chimp128 SymbolDictionary
open DecimalFloats Lzlite EncodedSizes

inductive Column where
  | timestamp (xs : List Word)
  | int64 (xs : List Word)
  | float64 (xs : List Word)
  | symbol (xs : List Symbol)

inductive ColumnType where
  | timestamp
  | int64
  | float64
  | symbol
  deriving DecidableEq

inductive Values where
  | words (xs : List Word)
  | symbols (xs : List Symbol)
  deriving DecidableEq

def Column.type : Column → ColumnType
  | .timestamp _ => .timestamp
  | .int64 _ => .int64
  | .float64 _ => .float64
  | .symbol _ => .symbol

def Column.values : Column → Values
  | .timestamp xs => .words xs
  | .int64 xs => .words xs
  | .float64 xs => .words xs
  | .symbol xs => .symbols xs

def Column.count : Column → ℕ
  | .timestamp xs => xs.length
  | .int64 xs => xs.length
  | .float64 xs => xs.length
  | .symbol xs => xs.length

structure LzAlloc where
  buffer : Bool
  scratch : Option (ℕ → ℕ)

structure Allocs where
  timestampTmp : Bool
  int64Tmp : Bool
  gorillaTmp : Bool
  chimpTmp : Bool
  symbolTmp : Bool
  symbolBufs : Bool
  decimalOut : Bool
  decimalBufs : Bool
  lzDict : LzAlloc
  lzPfor : LzAlloc
  lzDecimalDod : LzAlloc
  lzDecimalPfor : LzAlloc
  lzProbe : Option (ℕ → ℕ)
  lzOuter : LzAlloc

def rawBytes (xs : List Word) : Bytes := (xs.map BitVec.toNat).flatMap (leBytes 8)

def encodeTimestamp (a : Allocs) (xs : List Word) (cap : ℕ) : Except Rc (Codec × Bytes) :=
  let raw := if xs.length*8 ≤ cap then .ok (Codec.none, rawBytes xs) else .error .overflow
  match dodEncode xs cap with
  | .ok bs => .ok (.dod, bs)
  | .error _ =>
    if a.timestampTmp then
      match pforEncodeI64 xs (cap+64) with
      | .ok bs => if bs.length ≤ cap then .ok (.pfor, bs) else raw
      | .error _ => raw
    else raw

def encodeInt64 (a : Allocs) (xs : List Word) (cap : ℕ) : Except Rc (Codec × Bytes) :=
  if a.int64Tmp then
    match dodEncode xs cap, pforEncodeI64 xs (cap+64) with
    | .ok d, .ok p => if p.length < d.length ∧ p.length ≤ cap then .ok (.pfor, p) else .ok (.dod, d)
    | .ok d, .error _ => .ok (.dod, d)
    | .error e, .ok p => if p.length ≤ cap then .ok (.pfor, p) else .error e
    | .error e, .error _ => .error e
  else
    match dodEncode xs cap with
    | .ok d => .ok (.dod, d)
    | .error _ => .error .nomem

def encodeFloat64 (a : Allocs) (xs : List Word) (cap : ℕ) : Except Rc (Codec × Bytes) :=
  let tmpCap := if xs.length*11+64 < cap+64 then cap+64 else xs.length*11+64
  if a.gorillaTmp && a.chimpTmp then
    let best : Option (Codec × Bytes) :=
      match chimpEncode xs tmpCap, gorillaEncode xs tmpCap with
      | .ok c, .ok g => if g.length < c.length then some (.gorilla, g) else some (.chimp, c)
      | .ok c, .error _ => some (.chimp, c)
      | .error _, .ok g => some (.gorilla, g)
      | .error _, .error _ => none
    match best with
    | none => .error .inval
    | some b => if cap < b.2.length then .error .overflow else .ok b
  else
    match chimpEncode xs cap with
    | .ok c => .ok (.chimp, c)
    | .error e => .error e

def encodeSymbol (a : Allocs) (xs : List Symbol) (cap : ℕ) : Except Rc (Codec × Bytes) :=
  match dictEncode xs cap with
  | .error e => .error e
  | .ok d =>
    if a.symbolTmp then
      match pforEncode xs (cap+64) with
      | .ok p => if p.length < d.length ∧ p.length ≤ cap then .ok (.pfor, p) else .ok (.dict, d)
      | .error _ => .ok (.dict, d)
    else .ok (.dict, d)

def codecEncode (a : Allocs) (col : Column) (cap : ℕ) : Except Rc (Codec × Bytes) :=
  match col with
  | .timestamp xs => encodeTimestamp a xs cap
  | .int64 xs => encodeInt64 a xs cap
  | .float64 xs => encodeFloat64 a xs cap
  | .symbol xs => encodeSymbol a xs cap

def rawDecode (type : ColumnType) (bs : Bytes) (n : ℕ) : Except Rc Values :=
  match type with
  | .symbol =>
    if bs.length < n*4 then .error .corrupt
    else .ok (.symbols ((List.range n).map fun i => BitVec.ofNat 32 (leValue ((bs.drop (i*4)).take 4))))
  | _ =>
    if bs.length < n*8 then .error .corrupt
    else .ok (.words ((List.range n).map fun i => BitVec.ofNat 64 (leValue ((bs.drop (i*8)).take 8))))

def codecDecode (ar : DecimalArith) (codec : Codec) (type : ColumnType) (bs : Bytes) (n : ℕ) :
    Except Rc Values :=
  match codec with
  | .dod => (dodDecode bs n).map fun d => .words d.values
  | .gorilla => (gorillaDecode bs n).map fun d => .words d.values
  | .chimp => (chimpDecode bs n).map fun d => .words d.values
  | .chimp128 => (chimp128Decode bs n).map fun d => .words d.values
  | .dec => (decDecode ar bs n).map .words
  | .dict => (dictDecode bs n).map .symbols
  | .pfor =>
    if type = .int64 ∨ type = .timestamp then (pforDecodeI64 bs n).map .words
    else (pforDecode bs n).map .symbols
  | .raw => rawDecode type bs n
  | .none => rawDecode type bs n
  | _ => .error .unsupported

structure Block where
  codec : Codec
  lz : Bool
  domain : Bytes
  buf : Bytes
  deriving DecidableEq

/-- The size is returned as an `int`. -/
def Block.n (b : Block) : ℤ := toInt b.buf.length

def Block.out (b : Block) : Bytes := b.buf.take b.n.toNat

/-- The outer stage, when it is worth it: the domain's size in four bytes, then
the compressed domain. -/
def tryWrap (a : LzAlloc) (dom : Bytes) (cap : ℕ) (minGain : ℤ) : Option Bytes :=
  let e := lzliteEncode a.scratch dom (maxOutput dom.length)
  if a.buffer = true ∧ 0 ≤ e.rc ∧ minGain ≤ toInt dom.length-toInt (4+e.out.length) ∧
      4+e.out.length ≤ cap then
    some (leBytes 4 dom.length++e.out)
  else none

def lzFinalize (a : LzAlloc) (codec : Codec) (dom : Bytes) (cap : ℕ) (minGain : ℤ) : Option Block :=
  match tryWrap a dom cap minGain with
  | some w => some ⟨codec, true, dom, w⟩
  | none => if cap < dom.length then none else some ⟨codec, false, dom, dom⟩

def fits (b : Option Block) : Option Block := b.filter fun b => 0 ≤ b.n

def encodeSymbolFinal (a : Allocs) (xs : List Symbol) (cap : ℕ) (minGain : ℤ) : Option Block :=
  if a.symbolBufs then
    let d := match dictEncode xs (cap+64) with
      | .ok bs => fits (lzFinalize a.lzDict .dict bs (cap+64) minGain)
      | .error _ => none
    let p := match pforEncode xs (cap+64) with
      | .ok bs => fits (lzFinalize a.lzPfor .pfor bs (cap+64) minGain)
      | .error _ => none
    let final := match d, p with
      | some d, some p => if d.n ≤ p.n then some d else some p
      | some d, none => some d
      | none, p => p
    final.filter fun b => b.n ≤ cap
  else none

/-- One turn of the loop over the inner codecs: a smaller block replaces the best so far. -/
def tryInner (q : List Word) (scale cap : ℕ) (a : LzAlloc) (inner : Codec) (outCap : ℕ)
    (minGain : ℤ) (best : Option Block) : Option Block :=
  match decPack q scale inner cap with
  | .error _ => best
  | .ok raw =>
    match fits (lzFinalize a .dec raw outCap minGain), best with
    | none, best => best
    | some b, none => some b
    | some b, some old => if old.n ≤ b.n then some old else some b

def encodeDecimalFinal (ar : DecimalArith) (a : Allocs) (xs : List Word) (outCap : ℕ)
    (minGain : ℤ) : Option Block :=
  if a.decimalBufs then
    match decFindScale ar xs with
    | none => none
    | some (s, q) =>
      let cap := xs.length*11+64
      tryInner q s cap a.lzDecimalPfor .pfor outCap minGain
        (tryInner q s cap a.lzDecimalDod .dod outCap minGain none)
  else none

def probeFutile (scratch : Option (ℕ → ℕ)) (raw : Bytes) : Bool :=
  if raw = [] then true
  else
    let stride := (raw.length-1024)/3
    let sample := if raw.length ≤ 4096 then raw
      else (List.range 4).flatMap fun c => (raw.drop (c*stride)).take 1024
    let e := lzliteEncode scratch sample (4096+4096/255+16)
    if e.rc < 0 then false else decide (sample.length*99 ≤ e.out.length*100)

def encodeFirst (ar : DecimalArith) (a : Allocs) (decimal : Bool) (col : Column) (cap : ℕ)
    (minGain : ℤ) : Option Block :=
  match col with
  | .symbol xs => if 0 < xs.length then encodeSymbolFinal a xs cap minGain else none
  | .float64 xs =>
    if 0 < xs.length ∧ decimal = true ∧ a.decimalOut = true then
      (encodeDecimalFinal ar a xs cap minGain).filter fun b => b.n*2 ≤ xs.length*8
    else none
  | _ => none

def rawFallback (col : Column) (domain cap : ℕ) : Option Bytes :=
  match col with
  | .float64 xs =>
    if 0 < xs.length ∧ xs.length*8 ≤ domain ∧ xs.length*8 ≤ cap then some (rawBytes xs) else none
  | _ => none

def skipWrap (a : Allocs) (col : Column) (codec : Codec) (domain : ℕ) : Bool :=
  match col with
  | .float64 xs =>
    decide (codec = .gorilla ∨ codec = .chimp ∨ codec = .chimp128) && decide (0 < xs.length) &&
      decide (xs.length*8*50 ≤ domain*100) && probeFutile a.lzProbe (rawBytes xs)
  | _ => false

def outerStage (a : Allocs) (col : Column) (cap : ℕ) (minGain : ℤ) (codec : Codec) (bs : Bytes) :
    Except ℤ Block :=
  if toInt bs.length < 0 then .error (toInt bs.length)
  else
    let dom := bs.take (toInt bs.length).toNat
    match rawFallback col dom.length cap with
    | some raw => .ok ⟨.raw, false, raw, raw⟩
    | none =>
      if skipWrap a col codec dom.length then .ok ⟨codec, false, bs, dom⟩
      else match tryWrap a.lzOuter dom cap minGain with
        | some w => .ok ⟨codec, true, bs, w⟩
        | none => .ok ⟨codec, false, bs, dom⟩

def encodeAdaptiveEx (ar : DecimalArith) (a : Allocs) (decimal : Bool) (col : Column) (cap : ℕ)
    (minGain : ℤ) : Except ℤ Block :=
  let minGain := if minGain ≤ 0 then 1 else minGain
  match encodeFirst ar a decimal col cap minGain with
  | some b => .ok b
  | none =>
    match codecEncode a col cap with
    | .error e => .error e.code
    | .ok (codec, bs) => outerStage a col cap minGain codec bs

def decodeAdaptive (ar : DecimalArith) (codec : Codec) (type : ColumnType) (lz : Bool) (bs : Bytes)
    (n : ℕ) : Except Rc Values :=
  if lz = false then codecDecode ar codec type bs n
  else if bs.length < 4 then .error .corrupt
  else
    let orig := leValue (bs.take 4)
    if orig = 0 ∨ 64*1024*1024 < orig then .error .corrupt
    else match lzliteDecode (bs.drop 4) orig with
      | .error _ => .error .corrupt
      | .ok dom => if dom.length ≠ orig then .error .corrupt else codecDecode ar codec type dom n

def domainLimit : ℕ := 64*1024*1024

def DomainSound (ar : DecimalArith) (col : Column) (codec : Codec) (dom : Bytes) : Prop :=
  dom.length ≤ domainLimit → codecDecode ar codec col.type dom col.count = .ok col.values

def Block.Sound (ar : DecimalArith) (col : Column) (b : Block) : Prop :=
  b.domain.length ≤ domainLimit → 0 ≤ b.n →
    decodeAdaptive ar b.codec col.type b.lz b.out col.count = .ok col.values

def domainRoom (col : Column) (cap : ℕ) : ℕ := max (cap+64) (col.count*11+64)

def Encodes (ar : DecimalArith) (col : Column) (room : ℕ) (codec : Codec) (dom : Bytes) : Prop :=
  dom.length ≤ room ∧ DomainSound ar col codec dom

def Block.Encodes (ar : DecimalArith) (col : Column) (room : ℕ) (b : Block) : Prop :=
  b.domain.length ≤ room ∧ b.Sound ar col

theorem toInt_small {n : ℕ} (h : n < 2147483648) : toInt n = n := by
  rw [toInt, Nat.mod_eq_of_lt (by omega), if_pos h]

variable {cap room : ℕ} {minGain : ℤ} {b : Block} {decimal : Bool} {bs dom : Bytes} {codec : Codec}
  {q : List Word}

theorem out_small (h : b.buf.length < 2147483648) : b.out = b.buf := by
  rw [Block.out, Block.n, toInt_small h, Int.toNat_natCast, take_length]

variable (ar : DecimalArith) (col : Column)

theorem plain_sound (h : DomainSound ar col codec dom) : (Block.mk codec false dom dom).Sound ar col := by
  intro hl hn
  dsimp only at hl
  have hl2 := hl
  rw [domainLimit] at hl2
  rw [out_small (by dsimp only; omega), decodeAdaptive, if_pos rfl]
  exact h hl

theorem tryWrap_spec {a : LzAlloc} {w : Bytes}
    (hg : 1 ≤ minGain) (hl : dom.length ≤ domainLimit) (h : tryWrap a dom cap minGain = some w) :
    ∃ z, w = leBytes 4 dom.length++z ∧ 4+z.length < dom.length ∧ lzliteDecode z dom.length = .ok dom := by
  rw [tryWrap] at h
  split_ifs at h with hc
  obtain ⟨-, hrc, hgain, -⟩ := hc
  rw [domainLimit] at hl
  refine ⟨_, (Option.some.inj h).symm, ?_⟩
  by_cases hnil : dom = []
  · rw [hnil, lzliteEncode_empty] at hgain
    dsimp only [length_nil] at hgain
    rw [toInt_small (by decide), toInt_small (by decide)] at hgain
    omega
  cases hs : a.scratch with
  | none =>
    rw [hs, lzliteEncode_unallocated dom hnil (le_refl _)] at hrc
    exact absurd hrc (by decide)
  | some prev =>
    obtain ⟨z, hz, hlen, hdec⟩ := encodeBytes_spec _ dom prev (le_refl _)
    rw [hs, lzliteEncode_allocated prev hnil (le_refl _)] at hgain
    rw [lzliteEncode_allocated prev hnil (le_refl _)]
    simp only [hz, Encoded.ofResult] at hgain ⊢
    rw [toInt_small (by omega), toInt_small (by omega)] at hgain
    exact ⟨by omega, hdec⟩

theorem wrapped_sound {a : LzAlloc}
      {w : Bytes} (hg : 1 ≤ minGain)
    (h : tryWrap a dom cap minGain = some w) (hd : DomainSound ar col codec dom) :
    (Block.mk codec true dom w).Sound ar col := by
  intro hl hn
  dsimp only at hl
  obtain ⟨z, rfl, hsize, hdec⟩ := tryWrap_spec hg hl h
  have hl4 := leBytes_length 4 dom.length
  have hlim := hl
  rw [domainLimit] at hlim
  have hbuf : (leBytes 4 dom.length++z).length = 4+z.length := by rw [length_append, hl4]
  rw [out_small (by dsimp only; omega), decodeAdaptive]
  dsimp only
  rw [if_neg (by decide), if_neg (by omega), take_left' hl4, drop_left' hl4,
    leValue_leBytes 4 _ (by omega), if_neg (by omega), hdec]
  dsimp only
  rw [if_neg (by simp)]
  exact hd hl

theorem lzFinalize_sound {a : LzAlloc} (hg : 1 ≤ minGain)
    (hd : Encodes ar col room codec dom) (h : fits (lzFinalize a codec dom cap minGain) = some b) :
    b.Encodes ar col room := by
  obtain ⟨h, -⟩ := Option.filter_eq_some_iff.mp h
  rw [lzFinalize] at h
  split at h
  · cases h
    exact ⟨hd.1, wrapped_sound ar col hg ‹_› hd.2⟩
  split_ifs at h
  cases h
  exact ⟨hd.1, plain_sound ar col hd.2⟩

variable (xs : List Word)

theorem rawBytes_length : (rawBytes xs).length = xs.length*8 := by
  rw [rawBytes, length_flatMap, map_map]
  simp [Function.comp_def]

theorem rawDecode_words {type : ColumnType} (xs : List Word) (ht : type ≠ .symbol) :
    rawDecode type (rawBytes xs) xs.length = .ok (.words xs) := by
  have hlen := rawBytes_length xs
  have hread := read_words 8 (xs.map BitVec.toNat) (fun v hv => by
    obtain ⟨x, -, rfl⟩ := mem_map.mp hv
    exact x.isLt) []
  rw [append_nil, length_map] at hread
  have hback : (List.range xs.length).map
      (fun i => BitVec.ofNat 64 (leValue (((rawBytes xs).drop (i*8)).take 8))) = xs := by
    have h := congrArg (List.map (BitVec.ofNat 64)) hread
    rw [map_map, map_map] at h
    refine Eq.trans h ?_
    refine (map_congr_left fun x _ => ?_).trans (map_id xs)
    simp
  rw [rawDecode, if_neg (by omega), hback]
  exact ht

theorem map_values {α β : Type} {r : Except Rc α} {f : α → β} (g : β → Values) {v : β}
    (h : r.map f = .ok v) : (r.map fun a => g (f a)) = .ok (g v) := by
  cases r with
  | error e => cases h
  | ok a => rw [← Except.ok.inj h]; rfl

variable (hr : cap ≤ room)

include hr

theorem dod_sound (hv : col.values = .words xs) (hc : col.count = xs.length)
    (h : dodEncode xs cap = .ok bs) : Encodes ar col room .dod bs := by
  refine ⟨(dodEncode_le xs cap bs h).trans hr, ?_⟩
  intro _
  rw [hv, hc, codecDecode]
  exact map_values _ (dodDecode_written xs cap bs h)

theorem pforI64_sound (ht : col.type = .int64 ∨ col.type = .timestamp) (hv : col.values = .words xs)
    (hc : col.count = xs.length) (h : pforEncodeI64 xs cap = .ok bs) : Encodes ar col room .pfor bs := by
  refine ⟨(pforEncodeI64_le xs cap bs h).trans hr, ?_⟩
  intro _
  rw [hv, hc, codecDecode, if_pos ht, pforDecodeI64_written xs cap bs h]
  rfl

omit hr in
theorem raw_sound (codec : Codec)
    (room : ℕ) (hr : xs.length*8 ≤ room) (hk : codec = .none ∨ codec = .raw) (ht : col.type ≠ .symbol)
    (hv : col.values = .words xs)
    (hc : col.count = xs.length) : Encodes ar col room codec (rawBytes xs) := by
  refine ⟨(rawBytes_length xs).trans_le hr, ?_⟩
  intro _
  rw [hv, hc]
  obtain rfl | rfl := hk
  · exact rawDecode_words xs ht
  · exact rawDecode_words xs ht

theorem gorilla_sound (h : gorillaEncode xs cap = .ok bs) : Encodes ar (.float64 xs) room .gorilla bs := by
  refine ⟨(xorEncode_le h).trans hr, ?_⟩
  intro _
  obtain ⟨d, hd, hv, -⟩ := XorFrames.xor_round_trip gorilla_simulates h _ le_rfl
  rw [codecDecode, Column.count, gorillaDecode, hd, Column.values, ← take_length (l := xs), ← hv]
  rfl

theorem chimp_sound (h : chimpEncode xs cap = .ok bs) : Encodes ar (.float64 xs) room .chimp bs := by
  refine ⟨(xorEncode_le h).trans hr, ?_⟩
  intro _
  obtain ⟨d, hd, hv, -⟩ := XorFrames.xor_round_trip chimp_simulates h _ le_rfl
  rw [codecDecode, Column.count, chimpDecode, hd, Column.values, ← take_length (l := xs), ← hv]
  rfl

omit hr in
theorem dict_sound {xs : List Symbol} (room : ℕ)
    (hr : cap ≤ room) (h : dictEncode xs cap = .ok bs) : Encodes ar (.symbol xs) room .dict bs := by
  refine ⟨(dictEncode_le h).trans hr, ?_⟩
  intro hl
  rw [domainLimit] at hl
  rw [codecDecode, Column.count, dictDecode_written (by omega) h]
  rfl

theorem pfor_sound {xs : List Symbol}
    (h : pforEncode xs cap = .ok bs) : Encodes ar (.symbol xs) room .pfor bs := by
  refine ⟨(pforEncode_le h).trans hr, ?_⟩
  intro _
  rw [codecDecode, if_neg (by simp [Column.type]), Column.count, pforDecode_written xs cap bs h]
  rfl

omit hr

theorem decimal_sound {s : ℕ} {inner : Codec}
    (room : ℕ) (hr : cap ≤ room) (hs : decFindScale ar xs = some (s, q))
    (h : decPack q s inner cap = .ok bs) : Encodes ar (.float64 xs) room .dec bs := by
  refine ⟨(decPack_le h).trans hr, ?_⟩
  intro _
  rw [codecDecode, Column.count, decDecode_written ar xs hs h]
  rfl

variable (a : Allocs)

theorem encodeTimestamp_sound {xs : List Word} (h : encodeTimestamp a xs cap = .ok (codec, bs)) :
    Encodes ar (.timestamp xs) (cap+64) codec bs := by
  have hraw : (if xs.length*8 ≤ cap then Except.ok (Codec.none, rawBytes xs) else .error Rc.overflow) =
    .ok (codec, bs) →
      Encodes ar (.timestamp xs) (cap+64) codec bs := by
    intro he
    split_ifs at he
    cases he
    exact raw_sound ar _ xs _ _ (by omega) (.inl rfl) (by simp [Column.type]) rfl rfl
  rw [encodeTimestamp] at h
  split at h
  · rename_i hd
    cases h
    exact dod_sound ar _ xs (by omega) rfl rfl hd
  split at h
  · split at h
    · split at h
      · cases h
        exact pforI64_sound ar _ xs le_rfl (.inr rfl) rfl rfl ‹_›
      · exact hraw h
    · exact hraw h
  · exact hraw h

theorem encodeInt64_sound {xs : List Word} (h : encodeInt64 a xs cap = .ok (codec, bs)) :
    Encodes ar (.int64 xs) (cap+64) codec bs := by
  have hdod {d} (hd : dodEncode xs cap = .ok d) : Encodes ar (.int64 xs) (cap+64) .dod d :=
    dod_sound ar _ xs (by omega) rfl rfl hd
  have hpfor {p} (hp : pforEncodeI64 xs (cap+64) = .ok p) : Encodes ar (.int64 xs) (cap+64) .pfor p :=
    pforI64_sound ar _ xs le_rfl (.inl rfl) rfl rfl hp
  rw [encodeInt64] at h
  split at h
  · split at h
    · split at h <;> cases h
      · exact hpfor ‹_›
      · exact hdod ‹_›
    · cases h
      exact hdod ‹_›
    · split at h <;> cases h
      exact hpfor ‹_›
    · cases h
  · split at h <;> cases h
    exact hdod ‹_›

theorem encodeFloat64_sound {xs : List Word} (h : encodeFloat64 a xs cap = .ok (codec, bs)) :
    Encodes ar (.float64 xs) (domainRoom (.float64 xs) cap) codec bs := by
  rw [encodeFloat64] at h
  have hroom : (if xs.length*11+64 < cap+64 then cap+64 else xs.length*11+64) ≤
      domainRoom (.float64 xs) cap := by
    rw [domainRoom, Column.count]
    split_ifs <;> omega
  have hcap : cap ≤ domainRoom (.float64 xs) cap := by
    rw [domainRoom]
    omega
  generalize (if xs.length*11+64 < cap+64 then cap+64 else xs.length*11+64) = tmpCap at h hroom
  generalize domainRoom (.float64 xs) cap = room at hroom hcap ⊢
  split at h
  · dsimp only at h
    split at h
    · cases h
    rename_i hb
    split at h <;> cases h
    split at hb
    · split at hb <;> cases hb
      · exact gorilla_sound ar xs hroom ‹_›
      · exact chimp_sound ar xs hroom ‹_›
    · cases hb
      exact chimp_sound ar xs hroom ‹_›
    · cases hb
      exact gorilla_sound ar xs hroom ‹_›
    · cases hb
  · split at h <;> cases h
    exact chimp_sound ar xs hcap ‹_›

theorem encodeSymbol_sound {xs : List Symbol} (h : encodeSymbol a xs cap = .ok (codec, bs)) :
    Encodes ar (.symbol xs) (cap+64) codec bs := by
  rw [encodeSymbol] at h
  split at h
  · cases h
  rename_i d hd
  have hdict := dict_sound ar (cap+64) (by omega) hd
  split at h
  · split at h
    · split at h <;> cases h
      · exact pfor_sound ar le_rfl ‹_›
      · exact hdict
    · cases h
      exact hdict
  · cases h
    exact hdict

theorem encodes_le {room' : ℕ}
    (h : Encodes ar col room codec dom) (hr : room ≤ room') : Encodes ar col room' codec dom :=
  ⟨h.1.trans hr, h.2⟩

theorem codecEncode_sound {col : Column} (h : codecEncode a col cap = .ok (codec, bs)) :
    Encodes ar col (domainRoom col cap) codec bs := by
  cases col with
  | timestamp xs => exact encodes_le _ _ (encodeTimestamp_sound ar a h) (le_max_left _ _)
  | int64 xs => exact encodes_le _ _ (encodeInt64_sound ar a h) (le_max_left _ _)
  | float64 xs => exact encodeFloat64_sound ar a h
  | symbol xs => exact encodes_le _ _ (encodeSymbol_sound ar a h) (le_max_left _ _)

variable (hg : 1 ≤ minGain)

include hg

theorem finalized_sound {r : Except Rc Bytes} {al : LzAlloc} (h : (match r with
      | .ok bs => fits (lzFinalize al codec bs cap minGain)
      | .error _ => none) = some b)
    (hr : ∀ bs, r = .ok bs → Encodes ar col cap codec bs) : b.Encodes ar col cap := by
  cases r with
  | ok bs => exact lzFinalize_sound ar _ hg (hr bs rfl) h
  | error e => cases h

theorem symbolFinal_sound {xs : List Symbol}
    (h : encodeSymbolFinal a xs cap minGain = some b) :
    b.Encodes ar (.symbol xs) (cap+64) := by
  rw [encodeSymbolFinal] at h
  split_ifs at h
  obtain ⟨h, -⟩ := Option.filter_eq_some_iff.mp h
  split at h
  · split at h <;> cases h
    · exact finalized_sound ar _ hg ‹_› fun _ => dict_sound ar _ le_rfl
    · exact finalized_sound ar _ hg ‹_› fun _ => pfor_sound ar le_rfl
  · cases h
    exact finalized_sound ar _ hg ‹_› fun _ => dict_sound ar _ le_rfl
  · exact finalized_sound ar _ hg h fun _ => pfor_sound ar le_rfl

omit hg in
theorem tryInner_sound {s : ℕ} (cap : ℕ) (a : LzAlloc)
    (inner : Codec) (outCap : ℕ) (best : Option Block) (hg : 1 ≤ minGain)
    (hs : decFindScale ar xs = some (s, q)) (hb : ∀ b, best = some b → b.Encodes ar (.float64 xs) cap) :
    ∀ b, tryInner q s cap a inner outCap minGain best = some b → b.Encodes ar (.float64 xs) cap := by
  intro b h
  rw [tryInner] at h
  split at h
  · exact hb b h
  have hsound := decimal_sound ar xs cap le_rfl hs ‹_›
  split at h
  · exact hb b h
  · cases h
    exact lzFinalize_sound ar _ hg hsound ‹_›
  · split at h
    · exact hb b h
    · cases h
      exact lzFinalize_sound ar _ hg hsound ‹_›

theorem decimalFinal_sound {xs : List Word} {outCap : ℕ}
    (h : encodeDecimalFinal ar a xs outCap minGain = some b) : b.Encodes ar (.float64 xs)
    (xs.length*11+64) := by
  rw [encodeDecimalFinal] at h
  split_ifs at h
  split at h
  · cases h
  rename_i hs
  have hdod := tryInner_sound ar xs (xs.length*11+64) a.lzDecimalDod .dod outCap none hg hs
    (fun b hb => by cases hb)
  exact tryInner_sound ar xs _ a.lzDecimalPfor .pfor outCap _ hg hs hdod b h

theorem encodeFirst_sound {col : Column}
    (h : encodeFirst ar a decimal col cap minGain = some b) : b.Encodes ar col (domainRoom col cap) := by
  cases col with
  | timestamp xs => cases h
  | int64 xs => cases h
  | float64 xs =>
    rw [encodeFirst] at h
    split_ifs at h
    obtain ⟨h, -⟩ := Option.filter_eq_some_iff.mp h
    obtain ⟨hl, hs⟩ := decimalFinal_sound ar a hg h
    exact ⟨hl.trans (le_max_right _ _), hs⟩
  | symbol xs =>
    rw [encodeFirst] at h
    split_ifs at h
    obtain ⟨hl, hs⟩ := symbolFinal_sound ar a hg h
    exact ⟨hl.trans (le_max_left _ _), hs⟩

omit hg in
theorem rawFallback_sound {domain : ℕ} {raw : Bytes} (h : rawFallback col domain cap = some raw) :
    (Block.mk .raw false raw raw).Encodes ar col (domainRoom col cap) := by
  cases col with
  | timestamp xs | int64 xs | symbol xs => cases h
  | float64 xs =>
    rw [rawFallback] at h
    split_ifs at h with hfit
    cases h
    have hroom : xs.length*8 ≤ domainRoom (.float64 xs) cap := by
      rw [domainRoom]
      omega
    obtain ⟨hl, hs⟩ := raw_sound ar (.float64 xs) xs .raw _ hroom (.inr rfl) (by simp [Column.type]) rfl rfl
    exact ⟨hl, plain_sound ar _ hs⟩

theorem outerStage_sound {col : Column} (hd : Encodes ar col (domainRoom col cap) codec bs)
    (h : outerStage a col cap minGain codec bs = .ok b) : b.Encodes ar col (domainRoom col cap) := by
  rw [outerStage] at h
  split at h
  · cases h
  dsimp only at h
  -- below the limit the size survives its conversion, so the block holds all of the domain
  have hbs : bs.length ≤ domainLimit → bs.take (toInt bs.length).toNat = bs := by
    intro hle
    rw [domainLimit] at hle
    rw [toInt_small (by omega), Int.toNat_natCast, take_length]
  generalize bs.take (toInt bs.length).toNat = dom at h hbs
  have hplain : (Block.mk codec false bs dom).Encodes ar col (domainRoom col cap) := by
    refine ⟨hd.1, fun hl hn => ?_⟩
    rw [hbs hl] at hn ⊢
    exact plain_sound ar col hd.2 hl hn
  split at h
  · cases h
    exact rawFallback_sound ar col ‹_›
  split at h
  · cases h
    exact hplain
  split at h
  · rename_i hw
    cases h
    refine ⟨hd.1, fun hl hn => ?_⟩
    rw [hbs hl] at hw
    exact wrapped_sound ar col hg hw hd.2 hl hn
  · cases h
    exact hplain

omit hg

theorem adaptive_encodes {col : Column} (h : encodeAdaptiveEx ar a decimal col cap minGain = .ok b) :
    b.Encodes ar col (domainRoom col cap) := by
  rw [encodeAdaptiveEx] at h
  have hg : 1 ≤ if minGain ≤ 0 then 1 else minGain := by split_ifs <;> omega
  generalize (if minGain ≤ 0 then 1 else minGain) = gain at h hg
  split at h
  · cases h
    exact encodeFirst_sound ar a hg ‹_›
  split at h
  · cases h
  · exact outerStage_sound ar a hg (codecEncode_sound ar a ‹_›) h

/-- Whatever is chosen, with or without the outer stage, the id, the type and
the flag are enough to get the column back. -/
theorem adaptive_round_trip (ar : DecimalArith) (a : Allocs) (decimal : Bool) (col : Column)
    (cap : ℕ) (minGain : ℤ) (b : Block) (h : encodeAdaptiveEx ar a decimal col cap minGain = .ok b)
    (hn : 0 ≤ b.n) (hd : b.domain.length ≤ 64*1024*1024) :
    decodeAdaptive ar b.codec col.type b.lz b.out col.count = .ok col.values :=
  (adaptive_encodes ar a h).2 hd hn

def cycle : List Symbol := (List.replicate 4 [1, 100000, 70000]).flatten

def plenty : Allocs :=
  let lz : LzAlloc := ⟨true, some fun _ => 0⟩
  ⟨true, true, true, true, true, true, true, true, lz, lz, lz, lz, some fun _ => 0, lz⟩

def zeroOnly : DecimalArith := ⟨fun v _ => if v = 0 then some 0 else none, fun _ _ => 0⟩

def cycleBlock : Block where
  codec := .dict
  lz := true
  domain :=
    [12, 2, 190, 154, 12, 223, 212, 3, 221, 197, 8, 190, 154, 12, 223, 212, 3, 221, 197, 8, 190, 154, 12,
    223, 212, 3,
    221, 197, 8, 190, 154, 12, 223, 212, 3]
  buf := [35, 0, 0, 0, 191, 5, 9, 0, 12, 2, 190, 154, 12, 223, 212, 3, 221, 197, 8, 0]

theorem adaptive_round_trip_wrapped : encodeAdaptiveEx zeroOnly plenty false (.symbol cycle) 200 15 =
    .ok cycleBlock ∧
    decodeAdaptive zeroOnly .dict .symbol true cycleBlock.out 12 = .ok (.symbols cycle) :=
  have h : encodeAdaptiveEx zeroOnly plenty false (.symbol cycle) 200 15 = .ok cycleBlock := by
    decide +kernel
  ⟨h, adaptive_round_trip _ _ _ _ 200 15 _ h (by decide) (by decide)⟩

end QEngine.AdaptiveCodec

import QEngine.DeltaOfDelta
import QEngine.PatchedFrames

/-!
# Floats as scaled decimals

A block of doubles whose values are short decimals is stored as integers and
one common scale. The encoder accepts a value only if the decoder's own
expression gives back its exact bits, so the round trip needs nothing of the
floating-point arithmetic, which is a parameter here.
-/

namespace QEngine.DecimalFloats
open Option List ByteFields BitStream Uvarint DeltaOfDelta PatchedFrames

inductive Codec where
  | none
  | dod
  | gorilla
  | forInt
  | dict
  | raw
  | chimp
  | lzlite
  | chimp128
  | bp128
  | pfor
  | dec
  deriving DecidableEq

def Codec.id : Codec → ℕ
  | .none => 0
  | .dod => 1
  | .gorilla => 2
  | .forInt => 3
  | .dict => 4
  | .raw => 5
  | .chimp => 6
  | .lzlite => 7
  | .chimp128 => 8
  | .bp128 => 9
  | .pfor => 10
  | .dec => 12

/-- By bit pattern: `scaled v s` is `v*10^s` rounded, absent for NaN and beyond `9e15`; `expand q s`
is `q/10^s`. -/
structure DecimalArith where
  scaled : Word → ℕ → Option Word
  expand : Word → ℕ → Word

def maxScale : ℕ := 8

def decTry (ar : DecimalArith) (s : ℕ) (v : Word) : Option Word :=
  match ar.scaled v s with
  | none => none
  | some q => if ar.expand q s ≠ v then none else some q

def decFindScale (ar : DecimalArith) (xs : List Word) : Option (ℕ × List Word) :=
  if xs = [] then none
  else (List.range (maxScale+1)).findSome? fun s => (xs.mapM (decTry ar s)).map fun q => (s, q)

def decPack (q : List Word) (scale : ℕ) (inner : Codec) (cap : ℕ) : Except Rc Bytes :=
  if q = [] then .error .inval else
  if maxScale < scale then .error .inval else
  if inner ≠ .dod ∧ inner ≠ .pfor then .error .inval else
  if cap < 2 then .error .overflow else do
  let body ← if inner = .dod then dodEncode q (cap-2) else pforEncodeI64 q (cap-2)
  .ok (UInt8.ofNat scale::UInt8.ofNat inner.id::body)

def decDecode (ar : DecimalArith) (bs : Bytes) (n : ℕ) : Except Rc (List Word) :=
  if n = 0 then .ok [] else
  match bs with
  | s::inner::body =>
    if maxScale < s.toNat then .error .corrupt else
    if inner.toNat ≠ Codec.dod.id ∧ inner.toNat ≠ Codec.pfor.id then .error .corrupt else do
    let q ← if inner.toNat = Codec.dod.id then (dodDecode body n).map Decoded.values else pforDecodeI64 body n
    .ok (q.map fun v => ar.expand v s.toNat)
  | _ => .error .corrupt

variable (ar : DecimalArith)

variable {s : ℕ}

theorem decTry_expand {v q : Word} (h : decTry ar s v = some q) : ar.expand q s = v := by
  rw [decTry] at h
  split at h
  · cases h
  split_ifs at h with he
  cases h
  exact not_not.mp he

theorem mapM_expand (s : ℕ) (xs q : List Word)
    (h : xs.mapM (decTry ar s) = some q) : q.map (fun v => ar.expand v s) = xs := by
  induction xs generalizing q with
  | nil =>
    rw [mapM_nil] at h
    cases h
    rfl
  | cons x xs ih =>
    rw [mapM_cons] at h
    cases hx : decTry ar s x with
    | none =>
      rw [hx] at h
      cases h
    | some y =>
      cases hxs : xs.mapM (decTry ar s) with
      | none =>
        rw [hx, hxs] at h
        cases h
      | some ys =>
        rw [hx, hxs] at h
        rw [← some.inj h, map_cons, decTry_expand ar hx, ih ys hxs]

theorem decFindScale_spec {xs q : List Word}
    (h : decFindScale ar xs = some (s, q)) : s ≤ maxScale ∧ q.map (fun v => ar.expand v s) = xs := by
  rw [decFindScale] at h
  split_ifs at h
  obtain ⟨t, ht, hm⟩ := exists_of_findSome?_eq_some h
  rw [map_eq_some_iff] at hm
  obtain ⟨q', hq, he⟩ := hm
  obtain ⟨rfl, rfl⟩ := Prod.mk.inj he
  exact ⟨by have := List.mem_range.mp ht; omega, mapM_expand ar t xs q' hq⟩

theorem decDecode_written (xs : List Word) {q : List Word} {inner : Codec} {cap : ℕ}
    {bs : Bytes} (hs : decFindScale ar xs = some (s, q)) (h : decPack q s inner cap = .ok bs) :
    decDecode ar bs xs.length = .ok xs := by
  obtain ⟨hle, hq⟩ := decFindScale_spec ar hs
  have hlen : xs.length = q.length := by rw [← hq, length_map]
  have hs8 : (UInt8.ofNat s).toNat = s := byte_low s (by rw [maxScale] at hle; omega)
  rw [decPack] at h
  split_ifs at h with h1 h2 h3 h4 h5
  · have hne : xs.length ≠ 0 := by rw [hlen]; simpa using h1
    have hid : (UInt8.ofNat inner.id).toNat = Codec.dod.id := by rw [h5]; rfl
    obtain ⟨body, hb, h⟩ := bind_ok h
    have hd := dodDecode_written q _ _ hb
    rw [← Except.ok.inj h, decDecode, if_neg hne]
    dsimp only
    rw [hs8, hid, if_neg (by omega), if_neg (by simp), if_pos rfl, hlen, hd]
    simp only [bind, Except.bind, hq]
  have hne : xs.length ≠ 0 := by rw [hlen]; simpa using h1
  have hp : inner = .pfor := by
    by_contra hp
    exact h3 ⟨h5, hp⟩
  have hid : (UInt8.ofNat inner.id).toNat = Codec.pfor.id := by rw [hp]; rfl
  obtain ⟨body, hb, h⟩ := bind_ok h
  have hd := pforDecodeI64_written q _ _ hb
  rw [← Except.ok.inj h, decDecode, if_neg hne]
  dsimp only
  rw [hs8, hid, if_neg (by omega), if_neg (by simp), if_neg (by decide), hlen, hd]
  simp only [bind, Except.bind, hq]

structure FloatOps where
  mul : Word → ℕ → Word
  inRange : Word → Bool
  round : Word → Word
  toInt : Word → Word
  expand : Word → ℕ → Word

def FloatOps.arith (fl : FloatOps) : DecimalArith where
  scaled v s := if fl.inRange (fl.mul v s) then some (fl.toInt (fl.round (fl.mul v s))) else none
  expand := fl.expand

/-- One pass over the block overwrites `out` up to the first value that is refused. -/
def tryScale (s : ℕ) : List Word → List Word → Bool × List Word
  | [], out => (true, out)
  | v::vs, out =>
    match decTry ar s v with
    | none => (false, out)
    | some q => ((tryScale s vs out.tail).1, q::(tryScale s vs out.tail).2)

/-- The passes share the array: each starts from what the last one left. -/
def findScale (vs : List Word) : List ℕ → List Word → Option ℕ × List Word
  | [], out => (none, out)
  | s::ss, out =>
    if (tryScale ar s vs out).1 then (some s, (tryScale ar s vs out).2)
    else findScale vs ss (tryScale ar s vs out).2

def decFindScaleInto (vs out : List Word) : Option ℕ × List Word :=
  if vs = [] then (none, out) else findScale ar vs (List.range (maxScale+1)) out

theorem tryScale_done (s : ℕ) (vs out : List Word) :
    vs.mapM (decTry ar s) =
      if (tryScale ar s vs out).1 then some ((tryScale ar s vs out).2.take vs.length) else none := by
  induction vs generalizing out with
  | nil => rfl
  | cons v vs ih =>
    rw [mapM_cons, tryScale, ih out.tail]
    cases decTry ar s v with
    | none => rfl
    | some q =>
      dsimp only
      split_ifs <;> rfl

theorem findScale_first (vs : List Word) (ss : List ℕ) (out : List Word) (s : ℕ)
    (h : (findScale ar vs ss out).1 = some s) :
    ss.findSome? (fun s => (vs.mapM (decTry ar s)).map fun q => (s, q)) =
      some (s, (findScale ar vs ss out).2.take vs.length) := by
  induction ss generalizing out with
  | nil => cases h
  | cons t ts ih =>
    rw [findScale] at h ⊢
    rw [findSome?_cons, tryScale_done ar t vs out]
    by_cases ht : (tryScale ar t vs out).1 = true
    · rw [if_pos ht] at h ⊢
      rw [if_pos ht, ← some.inj h]
      rfl
    rw [if_neg ht] at h ⊢
    rw [if_neg ht]
    exact ih _ h

/-- Whatever the operations compute, what is packed at the scale found decodes to the exact bits. -/
theorem dec_lossless (fl : FloatOps) (vs out : List Word) (s : ℕ) (inner : Codec) (cap : ℕ) (bs : Bytes)
    (hs : (decFindScaleInto fl.arith vs out).1 = some s)
    (h : decPack ((decFindScaleInto fl.arith vs out).2.take vs.length) s inner cap = .ok bs) :
    decDecode fl.arith bs vs.length = .ok vs := by
  apply decDecode_written _ vs _ h
  rw [decFindScaleInto] at hs ⊢
  rw [decFindScale]
  by_cases hv : vs = []
  · rw [if_pos hv] at hs
    cases hs
  rw [if_neg hv] at hs ⊢
  rw [if_neg hv]
  exact findScale_first _ vs _ out s hs

def halving : FloatOps where
  mul v s := v >>> s
  inRange _ := true
  round v := v
  toInt v := v
  expand v s := if s = 1 then v <<< 1 else 0

theorem dec_lossless_halving : (decFindScaleInto halving.arith [0, 6] [9, 9]) = (some 1, [0, 3]) ∧
    ∃ bs, decPack [0, 3] 1 .dod 64 = .ok bs ∧ decDecode halving.arith bs 2 = .ok [0, 6] := by
  have hs : decFindScaleInto halving.arith [0, 6] [9, 9] = (some 1, [0, 3]) := by decide
  refine ⟨hs, _, rfl, ?_⟩
  exact dec_lossless halving [0, 6] [9, 9] 1 .dod 64 _ (by rw [hs]) (by rw [hs]; rfl)

end QEngine.DecimalFloats

import QEngine.ByteFields
import QEngine.BitFields

/-!
# Bit packing in four lanes

A block of 128 values is packed at one bit width. Value `4i+k` goes to lane `k`, and
the four lanes advance together: each has a 64-bit accumulator, and when 32 bits are
there a word of every lane is written.
-/

namespace QEngine.LanePacking
open List ByteFields BitFields

abbrev Quad := Fin 4 → ℕ

def mask (b : ℕ) : ℕ := if b = 32 then 0xFFFFFFFF else 2^b-1

def low (acc : Quad) : Quad := fun k => acc k%2^32

def spill : ℕ → ℕ → Quad → List Quad × ℕ × Quad
  | 0, bits, acc => ([], bits, acc)
  | f+1, bits, acc =>
    if 32 ≤ bits then
      let p := spill f (bits-32) (fun k => acc k >>> 32)
      (low acc::p.1, p.2)
    else ([], bits, acc)

def packLoop (b : ℕ) : ℕ → Quad → List Quad → List Quad
  | bits, acc, [] => if 0 < bits then [low acc] else []
  | bits, acc, q::qs =>
    let acc : Quad := fun k => acc k ||| ((q k &&& mask b) <<< bits)%2^64
    let p := spill 2 (bits+b) acc
    p.1++packLoop b p.2.1 p.2.2 qs

def pack4 (b : ℕ) (src : List Quad) : List Quad := packLoop b 0 (fun _ => 0) src

def load : ℕ → ℕ → ℕ → Quad → List Quad → ℕ × Quad × List Quad
  | 0, _, bits, acc, src => (bits, acc, src)
  | f+1, b, bits, acc, src =>
    if bits < b then
      load f b (bits+32) (fun k => acc k ||| (src.headD (fun _ => 0) k <<< bits)%2^64) src.tail
    else (bits, acc, src)

def unpackLoop (b : ℕ) : ℕ → ℕ → Quad → List Quad → List Quad
  | 0, _, _, _ => []
  | n+1, bits, acc, src =>
    let p := load 2 b bits acc src
    (fun k => p.2.1 k &&& mask b)::unpackLoop b n (p.1-b) (fun k => p.2.1 k >>> b) p.2.2

def unpack4 (b : ℕ) (src : List Quad) : List Quad := unpackLoop b 32 0 (fun _ => 0) src

def laneValue (k : Fin 4) (ws : List Quad) : ℕ := ws.foldr (fun w n => w k+2^32*n) 0

theorem mask_eq (b v : ℕ) : v &&& mask b = v%2^b := by
  have hm : mask b = 2^b-1 := by
    unfold mask
    split_ifs with h
    · rw [h]
      norm_num
    · rfl
  rw [hm, Nat.and_two_pow_sub_one_eq_mod]

theorem laneValue_append (k : Fin 4) (as bs : List Quad) :
    laneValue k (as++bs) = laneValue k as+2^(32*as.length)*laneValue k bs := by
  induction as with
  | nil => simp [laneValue]
  | cons a as ih =>
    have hc : ∀ ws, laneValue k (a::ws) = a k+2^32*laneValue k ws := fun _ => rfl
    rw [cons_append, hc, hc, ih, length_cons, mul_add, mul_add 32, pow_add]
    ring

theorem spill_spec {bits : ℕ} {acc : Quad} (h64 : bits < 64) (hacc : ∀ k, acc k < 2^bits) :
    (spill 2 bits acc).2.1 < 32 ∧ (∀ k, (spill 2 bits acc).2.2 k < 2^(spill 2 bits acc).2.1) ∧
    32*(spill 2 bits acc).1.length+(spill 2 bits acc).2.1 = bits ∧
    ∀ k, laneValue k (spill 2 bits acc).1+2^(32*(spill 2 bits acc).1.length)*(spill 2 bits acc).2.2 k =
    acc k := by
  by_cases h : 32 ≤ bits
  · have h' : ¬32 ≤ bits-32 := by omega
    have hs : spill 2 bits acc = ([low acc], bits-32, fun k => acc k >>> 32) := by
      simp [spill, h, h']
    rw [hs]
    refine ⟨by dsimp only; omega, fun k => ?_, by simp; omega, fun k => ?_⟩
    · dsimp only
      rw [Nat.shiftRight_eq_div_pow, Nat.div_lt_iff_lt_mul (Nat.two_pow_pos _), ← pow_add,
        Nat.sub_add_cancel h]
      exact hacc k
    · simp only [laneValue, foldr_cons, foldr_nil, mul_zero, add_zero, length_singleton,
        mul_one, low, Nat.shiftRight_eq_div_pow]
      exact Nat.mod_add_div _ _
  · have hs : spill 2 bits acc = ([], bits, acc) := by simp [spill, h]
    rw [hs]
    exact ⟨by dsimp only; omega, hacc, by simp, fun k => by simp [laneValue]⟩

def laneFields (b : ℕ) (k : Fin 4) (qs : List Quad) : List Field := qs.map (fun q => (q k, b))

theorem packLoop_spec {b : ℕ} (hb : b ≤ 32) (qs : List Quad) (bits : ℕ) (acc : Quad) (h32 : bits < 32)
    (hacc : ∀ k, acc k < 2^bits) : (packLoop b bits acc qs).length = (bits+b*qs.length+31)/32 ∧
    ∀ k, laneValue k (packLoop b bits acc qs) = acc k+2^bits*pack (laneFields b k qs) := by
  induction qs generalizing bits acc with
  | nil =>
    rw [packLoop]
    split_ifs with h
    · refine ⟨by simp; omega, fun k => ?_⟩
      have hlt : acc k < 2^32 := lt_trans (hacc k) (Nat.pow_lt_pow_right (by decide) h32)
      change acc k%2^32+2^32*0 = acc k+2^bits*0
      rw [Nat.mod_eq_of_lt hlt]
      rfl
    have h0 : bits = 0 := by omega
    subst h0
    refine ⟨by simp, fun k => ?_⟩
    have hz := hacc k
    simp [laneValue, laneFields, pack] at hz ⊢
    omega
  | cons q qs ih =>
    have hor : ∀ k, acc k ||| ((q k &&& mask b) <<< bits)%2^64 = acc k+2^bits*(q k%2^b) := by
      intro k
      have hm := Nat.mod_lt (q k) (Nat.two_pow_pos b)
      have hlow : q k%2^b < 2^(64-bits) := lt_of_lt_of_le hm (Nat.pow_le_pow_right (by decide) (by omega))
      rw [mask_eq, shift_mod _ _ _ (by omega), Nat.mod_eq_of_lt hlow, ← or_shift _ _ _ (hacc k),
        Nat.shiftLeft_eq, mul_comm]
    have hnew : ∀ k, acc k+2^bits*(q k%2^b) < 2^(bits+b) := by
      intro k
      have hm := Nat.mod_lt (q k) (Nat.two_pow_pos b)
      have ha := hacc k
      calc acc k+2^bits*(q k%2^b) < 2^bits*(q k%2^b+1) := by rw [mul_add]; omega
        _ ≤ 2^bits*2^b := Nat.mul_le_mul_left _ hm
        _ = 2^(bits+b) := (pow_add _ _ _).symm
    rw [packLoop]
    simp only [hor]
    obtain ⟨h1, h2, h3, h4⟩ := spill_spec (by omega) hnew
    generalize spill 2 (bits+b) (fun k => acc k+2^bits*(q k%2^b)) = p at h1 h2 h3 h4
    obtain ⟨hlen, hval⟩ := ih p.2.1 p.2.2 h1 h2
    refine ⟨?_, fun k => ?_⟩
    · rw [length_append, hlen, length_cons, mul_add, mul_one]
      omega
    have hexp : (2:ℕ)^(32*p.1.length)*2^p.2.1 = 2^(bits+b) := by rw [← pow_add, h3]
    have hk := h4 k
    have hcons : laneFields b k (q::qs) = (q k, b)::laneFields b k qs := rfl
    rw [laneValue_append, hval k, mul_add, ← mul_assoc, hexp, ← add_assoc, hk, hcons, pack, pow_add]
    ring

theorem spill_words (f bits : ℕ) (acc : Quad) : ∀ w ∈ (spill f bits acc).1, ∀ k, w k < 2^32 := by
  induction f generalizing bits acc with
  | zero => simp [spill]
  | succ f ih =>
    rw [spill]
    split_ifs
    · intro w hw
      rcases mem_cons.mp hw with rfl | hw
      · exact fun k => Nat.mod_lt _ (Nat.two_pow_pos 32)
      · exact ih _ _ w hw
    · simp

theorem packLoop_words (b bits : ℕ) (acc : Quad) (qs : List Quad) :
    ∀ w ∈ packLoop b bits acc qs, ∀ k, w k < 2^32 := by
  induction qs generalizing bits acc with
  | nil =>
    rw [packLoop]
    split_ifs
    · intro w hw k
      rw [mem_singleton.mp hw]
      exact Nat.mod_lt _ (Nat.two_pow_pos 32)
    · simp
  | cons q qs ih =>
    intro w hw
    rw [packLoop] at hw
    rcases mem_append.mp hw with hw | hw
    · exact spill_words _ _ _ w hw
    · exact ih _ _ w hw

theorem load_spec (b bits : ℕ) (acc : Quad) (src : List Quad) (hb : b ≤ 32) (h32 : bits < 32)
    (hacc : ∀ k, acc k < 2^bits) (hsrc : ∀ w ∈ src, ∀ k, w k < 2^32) :
    b ≤ (load 2 b bits acc src).1 ∧ (load 2 b bits acc src).1 < b+32 ∧
    (∀ k, (load 2 b bits acc src).2.1 k < 2^(load 2 b bits acc src).1) ∧
    (∀ w ∈ (load 2 b bits acc src).2.2, ∀ k, w k < 2^32) ∧ ∀ k, (load 2 b bits acc src).2.1 k+
      2^(load 2 b bits acc src).1*laneValue k (load 2 b bits acc src).2.2 = acc k+2^bits*laneValue k src := by
  by_cases h : bits < b
  · have h' : ¬bits+32 < b := by omega
    have hl : load 2 b bits acc src = (bits+32,
        fun k => acc k ||| (src.headD (fun _ => 0) k <<< bits)%2^64, src.tail) := by
      simp [load, h, h']
    have hw : ∀ k, src.headD (fun _ => 0) k < 2^32 := by
      intro k
      cases src with
      | nil => exact Nat.two_pow_pos 32
      | cons w ws => exact hsrc w (by simp) k
    have hor : ∀ k, acc k ||| (src.headD (fun _ => 0) k <<< bits)%2^64 =
        acc k+2^bits*src.headD (fun _ => 0) k := by
      intro k
      have hlow : src.headD (fun _ => 0) k < 2^(64-bits) :=
        lt_of_lt_of_le (hw k) (Nat.pow_le_pow_right (by decide) (by omega))
      rw [shift_mod _ _ _ (by omega), Nat.mod_eq_of_lt hlow, ← or_shift _ _ _ (hacc k),
        Nat.shiftLeft_eq, mul_comm]
    rw [hl]
    simp only [hor]
    refine ⟨by omega, by omega, fun k => ?_, fun w hm => hsrc w (mem_of_mem_tail hm), fun k => ?_⟩
    · have ha := hacc k
      calc acc k+2^bits*src.headD (fun _ => 0) k < 2^bits*(src.headD (fun _ => 0) k+1) := by
                  rw [mul_add]; omega
        _ ≤ 2^bits*2^32 := Nat.mul_le_mul_left _ (hw k)
        _ = 2^(bits+32) := (pow_add _ _ _).symm
    cases src with
    | nil => simp [laneValue]
    | cons w ws =>
      have hc : laneValue k (w::ws) = w k+2^32*laneValue k ws := rfl
      rw [hc, headD_cons, tail_cons, pow_add]
      ring
  · have hl : load 2 b bits acc src = (bits, acc, src) := by simp [load, h]
    rw [hl]
    exact ⟨by dsimp only; omega, by dsimp only; omega, hacc, hsrc, fun k => rfl⟩

theorem unpackLoop_spec (b : ℕ) (hb : b ≤ 32) (qs : List Quad) (hq : ∀ q ∈ qs, ∀ k, q k < 2^b)
    (bits : ℕ) (acc : Quad) (src : List Quad) (h32 : bits < 32) (hacc : ∀ k, acc k < 2^bits)
    (hsrc : ∀ w ∈ src, ∀ k, w k < 2^32)
    (hnum : ∀ k, acc k+2^bits*laneValue k src = pack (laneFields b k qs)) :
    unpackLoop b qs.length bits acc src = qs := by
  induction qs generalizing bits acc src with
  | nil => rfl
  | cons q qs ih =>
    obtain ⟨h1, h2, h3, h4, h5⟩ := load_spec b bits acc src hb h32 hacc hsrc
    rw [length_cons, unpackLoop]
    generalize load 2 b bits acc src = p at h1 h2 h3 h4 h5
    have hsplit : (2:ℕ)^p.1 = 2^b*2^(p.1-b) := by rw [← pow_add, Nat.add_sub_cancel' h1]
    have hform : ∀ k, p.2.1 k+2^b*(2^(p.1-b)*laneValue k p.2.2) =
        q k+2^b*pack (laneFields b k qs) := by
      intro k
      have hk := (h5 k).trans (hnum k)
      have hcons : laneFields b k (q::qs) = (q k, b)::laneFields b k qs := rfl
      rw [hcons, pack, Nat.mod_eq_of_lt (hq q (by simp) k), hsplit, mul_assoc] at hk
      exact hk
    have hlow : ∀ k, p.2.1 k%2^b = q k := by
      intro k
      have hk := congrArg (·%2^b) (hform k)
      simp only [Nat.add_mul_mod_self_left] at hk
      rwa [Nat.mod_eq_of_lt (hq q (by simp) k)] at hk
    have hhigh : ∀ k, p.2.1 k/2^b+2^(p.1-b)*laneValue k p.2.2 = pack (laneFields b k qs) := by
      intro k
      have hk := congrArg (·/2^b) (hform k)
      simp only [Nat.add_mul_div_left _ _ (Nat.two_pow_pos b)] at hk
      rwa [Nat.div_eq_of_lt (hq q (by simp) k), Nat.zero_add] at hk
    simp only [mask_eq, hlow, Nat.shiftRight_eq_div_pow]
    congr 1
    refine ih (fun q' hq' => hq q' (by simp [hq'])) _ _ _ (by omega) (fun k => ?_) h4 hhigh
    rw [Nat.div_lt_iff_lt_mul (Nat.two_pow_pos b), mul_comm, ← hsplit]
    exact h3 k

theorem unpack4_pack4 {b : ℕ} (hb : b ≤ 32) {src : List Quad} (hl : src.length = 32)
    (hs : ∀ q ∈ src, ∀ k, q k < 2^b) : unpack4 b (pack4 b src) = src ∧ (pack4 b src).length = b ∧
    ∀ w ∈ pack4 b src, ∀ k, w k < 2^32 := by
  obtain ⟨hlen, hval⟩ := packLoop_spec hb src 0 (fun _ => 0) (by decide) fun _ => by simp
  have hw := packLoop_words b 0 (fun _ => 0) src
  refine ⟨?_, by rw [pack4, hlen, hl]; omega, hw⟩
  have hu := unpackLoop_spec b hb src hs 0 (fun _ => 0) (pack4 b src) (by decide) (fun _ => by simp) hw
    (fun k => by rw [pack4, hval k]; simp)
  rwa [hl] at hu

def quadBytes (w : Quad) : Bytes :=
  leBytes 4 (w 0)++(leBytes 4 (w 1)++(leBytes 4 (w 2)++leBytes 4 (w 3)))

def readQuads : ℕ → Bytes → List Quad
  | 0, _ => []
  | n+1, bs => (fun k => leValue ((bs.drop (4*k)).take 4))::readQuads n (bs.drop 16)

theorem quadBytes_length (w : Quad) : (quadBytes w).length = 16 := by
  simp [quadBytes]

theorem readQuads_written {ws : List Quad} (hw : ∀ w ∈ ws, ∀ k, w k < 2^32) (post : Bytes) :
    readQuads ws.length (ws.flatMap quadBytes++post) = ws := by
  induction ws with
  | nil => rfl
  | cons w ws ih =>
    have hlt : ∀ k, w k < 256^4 := fun k => lt_of_lt_of_le (hw w (by simp) k) (by decide)
    rw [length_cons, readQuads, flatMap_cons, append_assoc]
    congr 1
    · funext k
      have hk : (((quadBytes w)++(ws.flatMap quadBytes++post)).drop (4*k)).take 4 = leBytes 4 (w k) := by
        fin_cases k <;> simp [quadBytes, drop_append, drop_of_length_le]
      rw [hk, leValue_leBytes 4 _ (hlt k)]
    · rw [drop_left' (quadBytes_length w)]
      exact ih fun w' hw' => hw w' (by simp [hw'])

def toQuads : List ℕ → List Quad
  | a::b::c::d::vs => ![a, b, c, d]::toQuads vs
  | _ => []

def fromQuads (qs : List Quad) : List ℕ := qs.flatMap (fun q => [q 0, q 1, q 2, q 3])

theorem fromQuads_toQuads (n : ℕ) (vs : List ℕ) (hl : vs.length = 4*n) :
    fromQuads (toQuads vs) = vs ∧ (toQuads vs).length = n := by
  induction n generalizing vs with
  | zero =>
    have hz : vs = [] := by simpa using hl
    subst hz
    exact ⟨rfl, rfl⟩
  | succ n ih =>
    match vs, hl with
    | a::b::c::d::vs, hl =>
      obtain ⟨h1, h2⟩ := ih vs (by simp at hl; omega)
      have hc : fromQuads (toQuads (a::b::c::d::vs)) = a::b::c::d::fromQuads (toQuads vs) := rfl
      exact ⟨by rw [hc, h1], by rw [toQuads, length_cons, h2]⟩

theorem toQuads_bound {vs : List ℕ} {m : ℕ} (h : ∀ v ∈ vs, v < m) : ∀ q ∈ toQuads vs, ∀ k, q k < m := by
  fun_induction toQuads vs with
  | case1 a b c d vs ih =>
    intro q hq
    rcases mem_cons.mp hq with rfl | hq
    · intro k
      fin_cases k <;> exact h _ (by simp)
    · exact ih (fun v hv => h v (by simp [hv])) q hq
  | case2 => simp

end QEngine.LanePacking

import QEngine.BitStream

/-!
# The decompressor on arbitrary bytes

Positions and lengths are 64-bit numbers, and their sums wrap. An access out of
bounds, a copy of what this call has not written and a turn too many are faults.
-/

namespace QEngine.LzliteAccesses
open Function BitStream

inductive Stop where
  | rc (rc : Rc)
  | fault
  deriving DecidableEq

def plus (a b : ℕ) : ℕ := (a+b)%2^64

structure Place where
  ip : ℕ
  op : ℕ
  /-- What this call has written. -/
  out : ℕ → Option UInt8

def Safe {α : Type} (P : α → Prop) : Except Stop α → Prop
  | .ok a => P a
  | .error e => e ≠ .fault

variable (inp : ℕ → UInt8) (n cap : ℕ)

def load (i : ℕ) : Except Stop ℕ := if i < n then .ok (inp i).toNat else .error .fault

def readOverflow (ip acc : ℕ) : Except Stop (ℕ × ℕ) :=
  if ip < n then
    if inp ip = 255 then readOverflow (ip+1) (plus acc 255) else .ok (ip+1, plus acc (inp ip).toNat)
  else .error (.rc .corrupt)
termination_by n-ip

def readLength (nib base ip : ℕ) : Except Stop (ℕ × ℕ) :=
  if nib = 15 then readOverflow inp n ip (base+nib) else .ok (ip, base+nib)

def copyLiterals (lit : ℕ) (s : Place) : Except Stop Place :=
  if lit = 0 then .ok s
  else if n < plus s.ip lit then .error (.rc .corrupt)
  else if cap < plus s.op lit then .error (.rc .overflow)
  else if s.ip+lit ≤ n ∧ s.op+lit ≤ cap then
    .ok ⟨s.ip+lit, s.op+lit, fun j => if s.op ≤ j ∧ j < s.op+lit then some (inp (s.ip+(j-s.op))) else s.out j⟩
  else .error .fault

def copyBytes (src op : ℕ) : ℕ → (ℕ → Option UInt8) → Except Stop (ℕ → Option UInt8)
  | 0, out => .ok out
  | k+1, out =>
    match out src with
    | none => .error .fault
    | some b =>
      if op < cap then copyBytes (src+1) (op+1) k (update out op (some b)) else .error .fault

def copyMatch (off len : ℕ) (s : Place) : Except Stop Place :=
  if len < 4 then .ok s
  else if s.op < off then .error (.rc .corrupt)
  else if cap < plus s.op len then .error (.rc .overflow)
  -- memcpy of ranges that overlap
  else if len ≤ off ∧ s.op < s.op-off+len then .error .fault
  else (copyBytes cap (s.op-off) s.op len s.out).map fun out => ⟨s.ip, s.op+len, out⟩

def turn (s : Place) : Except Stop Place := do
  let token ← load inp n s.ip
  let (ip, lit) ← readLength inp n (token/16) 0 (s.ip+1)
  if token%16 ≠ 0 ∨ plus (plus ip lit) 2 ≤ n then
    let (ip, len) ← readLength inp n (token%16) 4 ip
    if n < plus ip 2 then .error (.rc .corrupt) else
    let lo ← load inp n ip
    let hi ← load inp n (ip+1)
    if lo+256*hi = 0 then .error (.rc .corrupt) else
    let s ← copyLiterals inp n cap lit ⟨ip+2, s.op, s.out⟩
    copyMatch cap (lo+256*hi) len s
  else copyLiterals inp n cap lit ⟨ip, s.op, s.out⟩

def turns : ℕ → Place → Except Stop Place
  | 0, s => if s.ip < n then .error .fault else .ok s
  | f+1, s => if s.ip < n then turn inp n cap s >>= turns f else .ok s

def decode : Except Stop Place := turns inp n cap n ⟨0, 0, fun _ => none⟩

def Roomy : Prop := n < 2^55 ∧ cap < 2^63

structure Inside (start : ℕ) (s : Place) : Prop where
  start : start ≤ s.ip
  ip : s.ip ≤ n
  op : s.op ≤ cap
  written : ∀ j < s.op, (s.out j).isSome

def Counted (start : ℕ) (r : ℕ × ℕ) : Prop := start ≤ r.1 ∧ r.1 ≤ n ∧ r.2 ≤ 255*r.1+19

theorem Safe.bind {α β : Type} {P : α → Prop} {Q : β → Prop} {x : Except Stop α} {f : α → Except Stop β}
    (hx : Safe P x) (hf : ∀ a, P a → Safe Q (f a)) : Safe Q (x >>= f) := by
  cases x with
  | error e => exact hx
  | ok a => exact hf a hx

theorem load_safe {i : ℕ} (h : i < n) : Safe (· < 256) (load inp n i) := by
  rw [load, if_pos h]
  exact (inp i).toNat_lt

variable {n cap} {start : ℕ} {s : Place}

theorem readOverflow_safe (hn : n < 2^55) {ip acc : ℕ} (hip : start ≤ ip) (ha : acc ≤ 255*ip+19) :
    Safe (Counted n start) (readOverflow inp n ip acc) := by
  fun_induction readOverflow inp n ip acc with
  | case1 ip acc hlt hb ih =>
    have hp : plus acc 255 = acc+255 := Nat.mod_eq_of_lt (by omega)
    exact ih (by omega) (by omega)
  | case2 ip acc hlt hb =>
    have hb := (inp ip).toNat_lt
    have hp : plus acc (inp ip).toNat = acc+(inp ip).toNat := Nat.mod_eq_of_lt (by omega)
    exact ⟨by dsimp only; omega, hlt, by dsimp only; omega⟩
  | case3 => exact nofun

theorem readLength_safe (hn : n < 2^55) {nib base ip : ℕ} (hnib : nib < 16) (hb : base ≤ 4) (hip : ip ≤ n) :
    Safe (Counted n ip) (readLength inp n nib base ip) := by
  rw [readLength]
  split_ifs
  · exact readOverflow_safe inp hn (le_refl ip) (by omega)
  · exact ⟨le_refl ip, hip, by dsimp only; omega⟩

theorem copyLiterals_safe (hr : Roomy n cap) {lit : ℕ} (hl : lit ≤ 255*n+19) (hs : Inside n cap start s) :
    Safe (Inside n cap start) (copyLiterals inp n cap lit s) := by
  obtain ⟨hn, hc⟩ := hr
  have hip := hs.ip
  have hop := hs.op
  have h1 : plus s.ip lit = s.ip+lit := Nat.mod_eq_of_lt (by omega)
  have h2 : plus s.op lit = s.op+lit := Nat.mod_eq_of_lt (by omega)
  rw [copyLiterals, h1, h2]
  split_ifs with h0 hi ho hb
  · exact hs
  · exact nofun
  · exact nofun
  · refine ⟨Nat.le_add_right_of_le hs.start, hb.1, hb.2, fun j hj => ?_⟩
    dsimp only at hj ⊢
    split_ifs with h
    · rfl
    · exact hs.written j (by omega)
  · omega

theorem copyBytes_safe {src op k : ℕ} {out : ℕ → Option UInt8} (hs : src < op) (hc : op+k ≤ cap)
    (hw : ∀ j < op, (out j).isSome) :
    Safe (fun out' => ∀ j < op+k, (out' j).isSome) (copyBytes cap src op k out) := by
  induction k generalizing src op out with
  | zero => exact hw
  | succ k ih =>
    obtain ⟨b, hb⟩ := Option.isSome_iff_exists.mp (hw src hs)
    rw [copyBytes, hb]
    dsimp only
    rw [if_pos (by omega), show op+(k+1) = op+1+k by omega]
    refine ih (by omega) (by omega) fun j hj => ?_
    by_cases h : j = op
    · rw [h, update_self]
      rfl
    · rw [update_of_ne h]
      exact hw j (by omega)

theorem copyMatch_safe (hr : Roomy n cap) {off len : ℕ} (ho : off ≠ 0) (hl : len ≤ 255*n+19)
    (hs : Inside n cap start s) : Safe (Inside n cap start) (copyMatch cap off len s) := by
  obtain ⟨hn, hc⟩ := hr
  have hop := hs.op
  have h2 : plus s.op len = s.op+len := Nat.mod_eq_of_lt (by omega)
  rw [copyMatch, h2]
  split_ifs with h4 hoff hcap hover
  · exact hs
  · exact nofun
  · exact nofun
  · omega
  · refine (copyBytes_safe (by omega) (by omega) hs.written).bind fun out hw => ⟨hs.start, hs.ip, ?_, hw⟩
    dsimp only
    omega

theorem turn_safe (hr : Roomy n cap) (hs : Inside n cap start s) (h : s.ip < n) :
    Safe (Inside n cap (s.ip+1)) (turn inp n cap s) := by
  have hn := hr.1
  refine (load_safe inp n h).bind fun token ht => (readLength_safe inp hn (by omega) (by omega) h).bind ?_
  rintro ⟨ip, lit⟩ ⟨h1, h2, h3⟩
  dsimp only at h1 h2 h3 ⊢
  have hlit : lit ≤ 255*n+19 := by omega
  split_ifs
  · refine (readLength_safe inp hn (by omega) (by omega) h2).bind ?_
    rintro ⟨ip', len⟩ ⟨h4, h5, h6⟩
    dsimp only at h4 h5 h6 ⊢
    have hp : plus ip' 2 = ip'+2 := Nat.mod_eq_of_lt (by omega)
    rw [hp]
    split_ifs with hend
    · exact nofun
    refine (load_safe inp n (by omega)).bind fun lo _ => (load_safe inp n (by omega)).bind fun hi _ => ?_
    split_ifs with hoff
    · exact nofun
    have hi : Inside n cap (s.ip+1) ⟨ip'+2, s.op, s.out⟩ :=
      ⟨by dsimp only; omega, by dsimp only; omega, hs.op, hs.written⟩
    exact (copyLiterals_safe inp hr hlit hi).bind fun t ht => copyMatch_safe hr hoff (by omega) ht
  · exact copyLiterals_safe inp hr hlit ⟨h1, h2, hs.op, hs.written⟩

theorem turns_safe (hr : Roomy n cap) (f : ℕ) (hs : Inside n cap start s) (hf : n ≤ s.ip+f) :
    Safe (Inside n cap 0) (turns inp n cap f s) := by
  induction f generalizing start s with
  | zero =>
    rw [turns, if_neg (by omega)]
    exact ⟨Nat.zero_le _, hs.ip, hs.op, hs.written⟩
  | succ f ih =>
    rw [turns]
    split_ifs with h
    · refine (turn_safe inp hr hs h).bind fun t ht => ih ht ?_
      have := ht.start
      omega
    · exact ⟨Nat.zero_le _, hs.ip, hs.op, hs.written⟩

/-- Decoding any bytes of a size that memory can have reads and writes in bounds only and ends. -/
theorem decode_no_fault (hr : Roomy n cap) : decode inp n cap ≠ .error .fault := by
  intro h
  have hs :=
    turns_safe inp hr n
    (⟨le_refl 0, Nat.zero_le n, Nat.zero_le cap, nofun⟩ : Inside n cap 0 ⟨0, 0, fun _ => none⟩)
    (Nat.le_add_left n 0)
  rw [show turns inp n cap n _ = _ from h] at hs
  exact hs rfl

theorem decode_no_fault_short : Roomy 6 5 ∧
    decode ([0x10, 1, 0, 65, 0xF0, 240].getD · 0) 6 5 ≠ .error .fault :=
  ⟨⟨by decide, by decide⟩, decode_no_fault _ ⟨by decide, by decide⟩⟩

end QEngine.LzliteAccesses

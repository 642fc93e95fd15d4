import QEngine.RangeDelete

/-!
# The directory of a timestamp

A flush groups rows by a floored bucket number and names the directory by the calendar
date of a truncated second. Recovery and DELETE agree with it except within a second
before a boundary earlier than 1970, and in the first and last partitions of the
64-bit range.
-/

namespace QEngine.PartitionNames
open RedoLog RangeDelete

def wrap (x : ℤ) : ℤ := (x+9223372036854775808)%18446744073709551616-9223372036854775808

/-- Year, month and day of a day since 1970, by years that begin in March. -/
def gmtime (n : ℤ) : ℤ × ℤ × ℤ :=
  let e := (n+719468)%146097
  let c := (e-e/146096)/36524
  let q := (e-36524*c)/1461
  let r := e-36524*c-1461*q
  let a := (r-r/1460)/365
  let d := r-365*a
  let m := (5*d+2)/153
  ((n+719468)/146097*400+100*c+4*q+a+m/10, (m+2)%12+1, d-(153*m+2)/5+1)

def timegm (y m d : ℤ) : ℤ :=
  let y := y-1+(m+9)/12
  y/400*146097+365*(y%400)+y%400/4-y%400/100+(153*((m+9)%12)+2)/5+d-1-719468

/-- The years of the 64-bit range have four digits. -/
def printed (n : ℤ) : List ℤ :=
  let (y, m, d) := gmtime n
  [y/1000, y/100%10, y/10%10, y%10, m/10, m%10, d/10, d%10]

def tsToPartStr (u : PartitionUnit) (ts : ℤ) : List ℤ :=
  let secs := ts.tdiv 1000000000
  match u with
  | .hour => printed (secs/86400)++[secs%86400/3600/10, secs%86400/3600%10]
  | .day => printed (secs/86400)

def tsPartIndex (u : PartitionUnit) (ts : ℤ) : ℤ :=
  if 0 ≤ ts then ts.tdiv (span u) else (wrap (ts-span u+1)).tdiv (span u)

def redoTsToPartStr (u : PartitionUnit) (ts : ℤ) : List ℤ := tsToPartStr u ts

def rangeFrom (u : PartitionUnit) (start : ℤ) : ℤ × ℤ := (wrap start, wrap (wrap start+span u-1))

def tsPartRange (u : PartitionUnit) (ts : ℤ) : ℤ × ℤ := rangeFrom u (tsPartIndex u ts*span u)

def partDirToRange (u : PartitionUnit) (name : List ℤ) : Option (ℤ × ℤ) :=
  match u, name with
  | .day, [a, b, c, d, e, f, g, h] =>
    let secs := timegm (1000*a+100*b+10*c+d) (10*e+f) (10*g+h)*86400
    if secs = -1 then none else some (rangeFrom u (secs*1000000000))
  | .hour, [a, b, c, d, e, f, g, h, i, j] =>
    let secs := timegm (1000*a+100*b+10*c+d) (10*e+f) (10*g+h)*86400+(10*i+j)*3600
    if secs = -1 then none else some (rangeFrom u (secs*1000000000))
  | _, _ => none

theorem timegm_march (z : ℤ) {c q a d m : ℤ} (hc : 0 ≤ c ∧ c ≤ 3) (hq : 0 ≤ q ∧ q ≤ 24) (ha : 0 ≤ a ∧ a ≤ 3)
    (hd : 0 ≤ d ∧ d ≤ 365) (hm : (5*d+2)/153 = m) :
    timegm (z*400+100*c+4*q+a+m/10) ((m+2)%12+1) (d-(153*m+2)/5+1) =
      z*146097+36524*c+1461*q+365*a+d-719468 := by
  have hm0 : 0 ≤ m ∧ m ≤ 11 := by omega
  have hk : ((m+2)%12+1+9)%12 = m ∧ m/10-1+((m+2)%12+1+9)/12 = 0 := by
    obtain ⟨h, h'⟩ := hm0
    clear hm
    interval_cases m <;> decide
  have hy : z*400+100*c+4*q+a+m/10-1+((m+2)%12+1+9)/12 = z*400+(100*c+4*q+a) := by
    linear_combination hk.2
  have hw : (z*400+(100*c+4*q+a))/400 = z ∧ (z*400+(100*c+4*q+a))%400 = 100*c+4*q+a ∧
    (100*c+4*q+a)/4 = 25*c+q ∧ (100*c+4*q+a)/100 = c := by omega
  simp only [timegm, hk.1, hy, hw]
  ring

theorem gmtime_march (n : ℤ) : ∃ z c q a d : ℤ, (0 ≤ c ∧ c ≤ 3) ∧ (0 ≤ q ∧ q ≤ 24) ∧ (0 ≤ a ∧ a ≤ 3) ∧
    (0 ≤ d ∧ d ≤ 365) ∧ n = z*146097+36524*c+1461*q+365*a+d-719468 ∧
    gmtime n = (z*400+100*c+4*q+a+(5*d+2)/153/10, ((5*d+2)/153+2)%12+1, d-(153*((5*d+2)/153)+2)/5+1) := by
  have hn := Int.mul_ediv_add_emod (n+719468) 146097
  simp only [gmtime]
  generalize (n+719468)/146097 = z at *
  generalize he : (n+719468)%146097 = e at *
  generalize hc : (e-e/146096)/36524 = c
  generalize hq : (e-36524*c)/1461 = q
  generalize hr : e-36524*c-1461*q = r
  generalize ha : (r-r/1460)/365 = a
  have hc0 : 0 ≤ c ∧ c ≤ 3 ∧ 0 ≤ e-36524*c ∧ e-36524*c ≤ 36524 := by omega
  have hq0 : 0 ≤ q ∧ q ≤ 24 ∧ 0 ≤ r ∧ r ≤ 1460 := by omega
  have ha0 : 0 ≤ a ∧ a ≤ 3 ∧ 0 ≤ r-365*a ∧ r-365*a ≤ 365 := by omega
  exact ⟨z, c, q, a, r-365*a, ⟨hc0.1, hc0.2.1⟩, ⟨hq0.1, hq0.2.1⟩, ⟨ha0.1, ha0.2.1⟩, ha0.2.2, by linarith, rfl⟩

theorem timegm_gmtime (n : ℤ) : timegm (gmtime n).1 (gmtime n).2.1 (gmtime n).2.2 = n := by
  obtain ⟨z, c, q, a, d, hc, hq, ha, hd, hn, hg⟩ := gmtime_march n
  rw [hg, timegm_march z hc hq ha hd rfl, hn]

def bucketName (u : PartitionUnit) (k : ℤ) : List ℤ :=
  match u with
  | .hour => printed (k/24)++[k%24/10, k%24%10]
  | .day => printed k

theorem tsToPartStr_bucket (u : PartitionUnit) (ts : ℤ) :
    tsToPartStr u ts = bucketName u (partName u ts) := by
  cases u with
  | hour =>
    have h : ts.tdiv 1000000000/86400 = ts.tdiv 1000000000/3600/24 ∧
      ts.tdiv 1000000000%86400/3600 = ts.tdiv 1000000000/3600%24 := by omega
    simp only [tsToPartStr, bucketName, partName, PartitionUnit.seconds, h]
  | day => rfl

theorem partDirToRange_bucket (u : PartitionUnit) (k : ℤ) :
    partDirToRange u (bucketName u k) = some (rangeFrom u (k*span u)) := by
  have hy (y : ℤ) : 1000*(y/1000)+100*(y/100%10)+10*(y/10%10)+y%10 = y := by omega
  cases u with
  | hour =>
    have hs : k/24*86400+k%24*3600 = k*3600 := by omega
    simp only [bucketName, printed, List.cons_append, List.nil_append, partDirToRange, hy,
      Int.mul_ediv_add_emod, timegm_gmtime, hs]
    rw [if_neg (by omega), mul_assoc]
    rfl
  | day =>
    simp only [bucketName, printed, partDirToRange, hy, Int.mul_ediv_add_emod, timegm_gmtime]
    rw [if_neg (by omega), mul_assoc]
    rfl

/-- Before the epoch, not within a second of the next boundary; the partition
is inside the 64-bit range. -/
structure Regular (u : PartitionUnit) (ts : ℤ) : Prop where
  before : ts < 0 → span u-2^63 ≤ ts+1 ∧ ts%span u+1000000000 ≤ span u
  fits : ts/span u*span u+span u ≤ 2^63

instance (u : PartitionUnit) (ts : ℤ) : Decidable (Regular u ts) :=
  decidable_of_iff (_ ∧ _) ⟨fun h => ⟨h.1, h.2⟩, fun h => ⟨h.before, h.fits⟩⟩

section
variable {u : PartitionUnit} {ts : ℤ}

theorem partName_regular (h : Regular u ts) : partName u ts = ts/span u := by
  have hb := h.before
  rw [partName]
  obtain h0 | h0 := lt_or_ge ts 0
  · rw [tdiv_neg_form h0]
    cases u <;> simp only [span, PartitionUnit.seconds] at * <;> omega
  · rw [Int.tdiv_eq_ediv_of_nonneg h0]
    cases u <;> simp only [span, PartitionUnit.seconds] <;> omega

theorem tsPartIndex_regular (h : Regular u ts) : tsPartIndex u ts = ts/span u := by
  have hb := h.before
  rw [tsPartIndex]
  split_ifs with h0
  · exact Int.tdiv_eq_ediv_of_nonneg h0
  have hw : wrap (ts-span u+1) = ts-span u+1 ∧ ts-span u+1 < 0 := by
    cases u <;> simp only [wrap, span, PartitionUnit.seconds] at * <;> omega
  rw [hw.1, tdiv_neg_form hw.2]
  cases u <;> simp only [span, PartitionUnit.seconds] <;> omega

theorem tsPartRange_regular (h : Regular u ts) : tsPartRange u ts = partDirRange u (ts/span u) := by
  have hb := h.before
  have hf := h.fits
  have hw : wrap (ts/span u*span u) = ts/span u*span u ∧
      wrap (ts/span u*span u+span u-1) = ts/span u*span u+span u-1 := by
    cases u <;> simp only [wrap, span, PartitionUnit.seconds] at * <;> omega
  rw [tsPartRange, tsPartIndex_regular h, rangeFrom, hw.1, hw.2, partDirRange]

theorem partDirToRange_regular (h : Regular u ts) :
    partDirToRange u (tsToPartStr u ts) = some (tsPartRange u ts) := by
  rw [tsToPartStr_bucket, partName_regular h, partDirToRange_bucket, tsPartRange, tsPartIndex_regular h]

/-- Recovery names the directory of the flush, and DELETE finds one range for the name and for the
timestamp, with the timestamp inside. -/
def Agrees (u : PartitionUnit) (ts : ℤ) : Prop :=
  redoTsToPartStr u ts = tsToPartStr u ts ∧ partDirToRange u (tsToPartStr u ts) = some (tsPartRange u ts) ∧
    (tsPartRange u ts).1 ≤ ts ∧ ts ≤ (tsPartRange u ts).2

theorem agrees_regular (h : Regular u ts) : Agrees u ts := by
  refine ⟨rfl, partDirToRange_regular h, ?_⟩
  rw [tsPartRange_regular h]
  cases u <;> simp only [partDirRange, span, PartitionUnit.seconds] <;> omega

/-- Within a second before a boundary earlier than 1970 the name is that of the next partition. -/
theorem regular_before (hlo : -2^63 ≤ ts) (h : Agrees u ts) (h0 : ts < 0) :
    ts%span u+1000000000 ≤ span u := by
  by_contra hb
  obtain ⟨-, hname, hin⟩ := h
  have hn : partName u ts = ts/span u+1 := by
    rw [partName, tdiv_neg_form h0]
    cases u <;> simp only [span, PartitionUnit.seconds] at * <;> omega
  rw [tsToPartStr_bucket, partDirToRange_bucket, hn, Option.some_inj] at hname
  rw [← hname] at hin
  have hw : wrap ((ts/span u+1)*span u) = (ts/span u+1)*span u := by
    cases u <;> simp only [wrap, span, PartitionUnit.seconds] at * <;> omega
  have h1 : (ts/span u+1)*span u ≤ ts := by
    rw [← hw]
    exact hin.1
  cases u <;> simp only [span, PartitionUnit.seconds] at * <;> omega

/-- In the first partitions of the 64-bit range the index underflows to a positive one. -/
theorem regular_low (hlo : -2^63 ≤ ts) (h : Agrees u ts) (h0 : ts < 0) : span u-2^63 ≤ ts+1 := by
  by_contra hb
  have hin := h.2.2.1
  have hw : wrap (ts-span u+1) = ts-span u+1+2^64 := by
    cases u <;> simp only [wrap, span, PartitionUnit.seconds] at * <;> omega
  have hi : tsPartIndex u ts = (ts-span u+1+2^64)/span u := by
    rw [tsPartIndex, if_neg (not_le.mpr h0), hw]
    exact Int.tdiv_eq_ediv_of_nonneg (by cases u <;> simp only [span, PartitionUnit.seconds] <;> omega)
  rw [tsPartRange, hi, rangeFrom] at hin
  cases u <;> simp only [wrap, span, PartitionUnit.seconds] at * <;> omega

/-- The end of the last partition of the 64-bit range wraps. -/
theorem regular_fits (hhi : ts < 2^63) (h : Agrees u ts) : ts/span u*span u+span u ≤ 2^63 := by
  by_contra hb
  have h0 : 0 ≤ ts := by cases u <;> simp only [span, PartitionUnit.seconds] at * <;> omega
  have hi : tsPartIndex u ts = ts/span u := by
    rw [tsPartIndex, if_pos h0]
    exact Int.tdiv_eq_ediv_of_nonneg h0
  have hin := h.2.2.2
  rw [tsPartRange, hi, rangeFrom] at hin
  cases u <;> simp only [wrap, span, PartitionUnit.seconds] at * <;> omega

/-- The five conversions agree on two timestamps exactly when both are regular. -/
theorem one_partition {ts' : ℤ} (h : -2^63 ≤ ts ∧ ts < 2^63) (h' : -2^63 ≤ ts' ∧ ts' < 2^63) :
    ((tsToPartStr u ts = tsToPartStr u ts' ↔ tsPartIndex u ts = tsPartIndex u ts') ∧ Agrees u ts ∧
      Agrees u ts') ↔
      Regular u ts ∧ Regular u ts' := by
  have hreg {t : ℤ} (hr : -2^63 ≤ t ∧ t < 2^63) (ha : Agrees u t) : Regular u t :=
    ⟨fun h0 => ⟨regular_low hr.1 ha h0, regular_before hr.1 ha h0⟩, regular_fits hr.2 ha⟩
  refine ⟨fun ⟨_, ha, ha'⟩ => ⟨hreg h ha, hreg h' ha'⟩,
    fun ⟨hr, hr'⟩ => ⟨⟨?_, ?_⟩, agrees_regular hr, agrees_regular hr'⟩⟩
  · intro he
    have hn := partDirToRange_regular hr
    rw [he, partDirToRange_regular hr', Option.some_inj, tsPartRange_regular hr,
      tsPartRange_regular hr'] at hn
    rw [tsPartIndex_regular hr, tsPartIndex_regular hr']
    exact (mul_right_cancel₀ (by cases u <;> decide) (congrArg Prod.fst hn)).symm
  · intro he
    rw [tsPartIndex_regular hr, tsPartIndex_regular hr'] at he
    rw [tsToPartStr_bucket, tsToPartStr_bucket, partName_regular hr, partName_regular hr', he]

theorem one_partition_epoch :
    partDirToRange .hour [1, 9, 7, 0, 0, 1, 0, 1, 0, 0] = some (tsPartRange .hour 0) :=
  ((@one_partition .hour 0 0 (by decide) (by decide)).mpr (by decide)).2.1.2.1

theorem last_nanosecond_apart : tsToPartStr .day (-1) = tsToPartStr .day 0 ∧
  tsPartIndex .day (-1) ≠ tsPartIndex .day 0 ∧
  partDirToRange .day (tsToPartStr .day (-1)) = some (0, 86399999999999) ∧
  tsPartRange .day (-1) = (-86400000000000, -1) := by decide

end

end QEngine.PartitionNames

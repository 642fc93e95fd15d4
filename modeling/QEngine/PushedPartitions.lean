import QEngine.PartitionNames
import QEngine.ReplicaConvergence

/-!
# The partition of a pushed block

The sender packs the directory name into the 32-bit partition field. The
receiver prints that field into nine bytes, enough for a date and not for a
date with an hour, and writes under its first data directory wherever the table is.
-/

namespace QEngine.PushedPartitions
open RedoLog PartitionNames ByteFields RawBlocks AdaptiveCodec BlockFiles

def partStrToInt (u : PartitionUnit) (name : List ℤ) : UInt32 :=
  match u, name with
  | .hour, [a, b, c, d, e, f, g, h, i, j] =>
    UInt32.ofInt ((1000*a+100*b+10*c+d)*1000000+(10*e+f)*10000+(10*g+h)*100+(10*i+j))
  | .day, [a, b, c, d, e, f, g, h] => UInt32.ofInt ((1000*a+100*b+10*c+d)*10000+(10*e+f)*100+(10*g+h))
  | _, _ => 0

/-- At least eight digits are printed and the first eight are kept. -/
def dayStr (day : UInt32) : List ℤ :=
  let n := day.toNat
  let k := if n < 100000000 then n else if n < 1000000000 then n/10 else n/100
  [10000000, 1000000, 100000, 10000, 1000, 100, 10, 1].map fun w => ((k/w%10 : ℕ) : ℤ)

/-- Data directory, table and partition of the applied block: tsdb_db_data_dir is the first one. -/
def applyDir (p : Push) : ℕ × Bytes × List ℤ := (0, p.table, dayStr p.day)

def tableDir (ndirs : ℕ) (table : Bytes) (name : List ℤ) : ℕ × Bytes × List ℤ :=
  (ReplicaConvergence.stripeOf ndirs table, table, name)

theorem gmtime_digits {n : ℤ} (h0 : 0 ≤ n) (h1 : n < 106752) :
    (0 ≤ (gmtime n).1 ∧ (gmtime n).1 < 10000) ∧ (0 ≤ (gmtime n).2.1 ∧ (gmtime n).2.1 < 100) ∧
      0 ≤ (gmtime n).2.2 ∧ (gmtime n).2.2 < 100 := by
  obtain ⟨z, c, q, a, d, hc, hq, ha, hd, hn, hg⟩ := gmtime_march n
  rw [hg]
  generalize hm : (5*d+2)/153 = m
  have hm0 : 0 ≤ m ∧ m ≤ 11 := by omega
  refine ⟨⟨?_, ?_⟩, ?_, ?_, ?_⟩ <;> dsimp only <;> omega

theorem dayStr_date {y m d : ℤ} (hy : 0 ≤ y ∧ y < 10000) (hm : 0 ≤ m ∧ m < 100) (hd : 0 ≤ d ∧ d < 100) :
    dayStr (UInt32.ofInt (y*10000+m*100+d)) =
      [y/1000, y/100%10, y/10%10, y%10, m/10, m%10, d/10, d%10] := by
  have hn : ((UInt32.ofInt (y*10000+m*100+d)).toNat : ℤ) = y*10000+m*100+d := by
    rw [UInt32.ofInt, UInt32.toNat_ofNat']
    omega
  have hk : (UInt32.ofInt (y*10000+m*100+d)).toNat < 100000000 := by omega
  simp only [dayStr, hk, if_true, List.map_cons, List.map_nil, Int.natCast_emod, Int.natCast_ediv, hn]
  push_cast
  simp only [List.cons.injEq, and_true]
  refine ⟨?_, ?_, ?_, ?_, ?_, ?_, ?_, ?_⟩ <;> omega

theorem pushed_fields {mc : Machine} {r : BlockRun} {table : Bytes} {day : UInt32} {ci : UInt16}
    {issuer : UInt64}
    {ord : UInt32} {col : Column} {tsMin tsMax : Int64} {p : Push} (ht : table.length ≤ 63)
    (hp : rawPush mc r table day ci issuer ord col tsMin tsMax = some p) : p.table = table ∧ p.day = day := by
  unfold rawPush at hp
  split at hp
  · cases hp
  split at hp
  · cases hp
  · cases hp
    exact ⟨List.take_of_length_le ht, rfl⟩

theorem dayStr_packed {ts : ℤ} (h0 : 0 ≤ ts) (h1 : ts < 9214646400000000000) :
    dayStr (partStrToInt .day (tsToPartStr .day ts)) = tsToPartStr .day ts := by
  have hn : 0 ≤ ts.tdiv 1000000000/86400 ∧ ts.tdiv 1000000000/86400 < 106752 := by
    rw [Int.tdiv_eq_ediv_of_nonneg h0]
    omega
  obtain ⟨hy, hm, hd⟩ := gmtime_digits hn.1 hn.2
  have hv (y : ℤ) : 1000*(y/1000)+100*(y/100%10)+10*(y/10%10)+y%10 = y := by omega
  simp only [tsToPartStr, printed, partStrToInt, hv, Int.mul_ediv_add_emod, dayStr_date hy hm hd]

/-- A pushed block of the years 1970 to 2261 lands in the partition it came from exactly when the table
is partitioned by day and stands under the receiver's first data directory. -/
theorem pushed_lands_in_place {u : PartitionUnit} {ts : ℤ} (h0 : 0 ≤ ts) (h1 : ts < 9214646400000000000)
    {ndirs : ℕ} {mc : Machine} {r : BlockRun} {table : Bytes} {ci : UInt16} {issuer : UInt64} {ord : UInt32}
    {col : Column} {tsMin tsMax : Int64} {p : Push} (ht : table.length ≤ 63)
    (hp : rawPush mc r table (partStrToInt u (tsToPartStr u ts)) ci issuer ord col tsMin tsMax = some p) :
    (parse (serialize p)).map applyDir = some (tableDir ndirs table (tsToPartStr u ts)) ↔
      u = .day ∧ ReplicaConvergence.stripeOf ndirs table = 0 := by
  obtain ⟨htab, hday⟩ := pushed_fields ht hp
  rw [parse_serialize, Option.map_some, applyDir, tableDir, htab, hday, Option.some_inj]
  constructor
  · intro h
    have hdir := congrArg Prod.fst h
    have hname := congrArg (fun x => x.2.2.length) h
    refine ⟨?_, hdir.symm⟩
    cases u with
    | hour => exact absurd hname (by simp [dayStr, tsToPartStr, printed])
    | day => rfl
  · rintro ⟨rfl, hdir⟩
    rw [hdir, dayStr_packed h0 h1]

theorem pushed_lands_epoch : (parse (serialize ReplicaConvergence.timePush)).map applyDir =
    some (tableDir 1 [116] [1, 9, 7, 0, 0, 1, 0, 1]) :=
  (@pushed_lands_in_place .day 5 (by decide) (by decide) 1 _ _ _ _ _ _ _ _ _ _ (by decide)
    ReplicaConvergence.timePush_flushed).mpr ⟨rfl, rfl⟩

theorem hour_cut : tsToPartStr .hour 1767322800000000000 = [2, 0, 2, 6, 0, 1, 0, 2, 0, 3] ∧
    ((rawPush PartitionFlush.plainMachine ⟨none, false, plenty⟩ [116]
      (partStrToInt .hour (tsToPartStr .hour 1767322800000000000)) 0 7 0
      (.timestamp [1767322800000000000]) 1767322800000000000 1767322800000000000).bind fun p =>
        (parse (serialize p)).map applyDir) = some (0, [116], [2, 0, 2, 6, 0, 1, 0, 2]) := by
  decide +kernel

end QEngine.PushedPartitions

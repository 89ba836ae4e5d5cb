import Mathlib.Data.Nat.Log
import Mathlib.Order.Monotone.Basic
import Mathlib.Tactic.IntervalCases
import Mathlib.Tactic.Ring

set_option autoImplicit false

/-! # Quarter-octave buckets

`bucket` (C++) sorts a duration in cycles into a bucket of the histogram, `bucketLo` (Python)
gives the least duration of a bucket. Below `4` every duration has its own bucket. From `4` on
an octave `[4 · 2^k, 8 · 2^k)` is cut into four buckets: bucket `4 k + m`, `4 ≤ m < 8`, holds
the durations from `m · 2^k` up to `(m + 1) · 2^k` (`bucket_spec`, `bucketLo_octave`).
-/

namespace Pacer.Pinstr

/-- `63 - __builtin_clzll(d)`: the highest set bit of `d ≠ 0`. -/
def msb (d : Nat) : Nat := Nat.log2 d

def bucket (d : Nat) : Nat :=
  if d < 4 then d
  else (msb d - 2) * 4 + 4 + ((d >>> (msb d - 2)) &&& 3)

/-- `bucket_lo` of `isweep.py` -/
def bucketLo (i : Nat) : Nat :=
  if i < 4 then i
  else
    let k := (i - 4) / 4
    let m := (i - 4) % 4
    (4 + m) <<< k

/-! ## Octaves -/

theorem bucketLo_octave {k m : Nat} (h4 : 4 ≤ m) (h8 : m < 8) :
    bucketLo (4 * k + m) = m * 2 ^ k := by
  have hk : (4 * k + m - 4) / 4 = k := by omega
  have hm : 4 + (4 * k + m - 4) % 4 = m := by omega
  have hge : ¬ 4 * k + m < 4 := by omega
  simp only [bucketLo, if_neg hge, hk, hm, Nat.shiftLeft_eq]

/-- The bound above the last bucket of an octave is the first of the next octave. -/
theorem bucketLo_octave_succ {k m : Nat} (h4 : 4 ≤ m) (h8 : m < 8) :
    bucketLo (4 * k + m + 1) = (m + 1) * 2 ^ k := by
  by_cases h7 : m + 1 < 8
  · exact bucketLo_octave (by omega) h7
  · obtain rfl : m = 7 := by omega
    calc bucketLo (4 * k + 7 + 1) = bucketLo (4 * (k + 1) + 4) := by
          congr 1
      _ = 4 * 2 ^ (k + 1) := bucketLo_octave le_rfl (by decide)
      _ = (7 + 1) * 2 ^ k := by ring

theorem exists_octave {i : Nat} (h : 4 ≤ i) : ∃ k m, 4 ≤ m ∧ m < 8 ∧ i = 4 * k + m :=
  ⟨(i - 4) / 4, 4 + (i - 4) % 4, by omega, by omega, by omega⟩

theorem bucketLo_strictMono : StrictMono bucketLo := by
  apply strictMono_nat_of_lt_succ
  intro i
  by_cases hi : i < 4
  · -- `bucketLo` is the identity up to `4`
    have hself : bucketLo i = i := if_pos hi
    have hsucc : bucketLo (i + 1) = i + 1 := by
      interval_cases i <;> rfl
    rw [hself, hsucc]
    exact Nat.lt_succ_self i
  · obtain ⟨k, m, h4, h8, rfl⟩ := exists_octave (not_lt.mp hi)
    rw [bucketLo_octave h4 h8, bucketLo_octave_succ h4 h8]
    exact Nat.mul_lt_mul_of_pos_right (Nat.lt_succ_self m) (Nat.two_pow_pos k)

/-! ## The bucket of a duration -/

/-- **The bucket of a duration** from `4` on, by its highest bit and the two bits after it. -/
theorem bucket_spec {d : Nat} (h : 4 ≤ d) :
    ∃ m, 4 ≤ m ∧ m < 8 ∧ bucket d = 4 * (msb d - 2) + m
      ∧ m * 2 ^ (msb d - 2) ≤ d ∧ d < (m + 1) * 2 ^ (msb d - 2) := by
  have hne : d ≠ 0 := by omega
  have hmsb : 2 ≤ msb d := (Nat.le_log2 hne).mpr h
  have hpos : 0 < 2 ^ (msb d - 2) := Nat.two_pow_pos _
  have hlo : 4 * 2 ^ (msb d - 2) ≤ d := by
    calc 4 * 2 ^ (msb d - 2) = 2 ^ (2 + (msb d - 2)) := by rw [Nat.pow_add]
      _ = 2 ^ msb d := by rw [Nat.add_sub_cancel' hmsb]
      _ ≤ d := Nat.log2_self_le hne
  have hhi : d < 8 * 2 ^ (msb d - 2) := by
    calc d < 2 ^ (msb d + 1) := Nat.lt_log2_self
      _ = 2 ^ (3 + (msb d - 2)) := by congr 1; omega
      _ = 8 * 2 ^ (msb d - 2) := by rw [Nat.pow_add]
  -- `m` is what remains of `d` after the shift: its three highest bits
  have h4 : 4 ≤ d / 2 ^ (msb d - 2) := (Nat.le_div_iff_mul_le hpos).mpr hlo
  have h8 : d / 2 ^ (msb d - 2) < 8 := (Nat.div_lt_iff_lt_mul hpos).mpr hhi
  refine ⟨d / 2 ^ (msb d - 2), h4, h8, ?_, Nat.div_mul_le_self d _, ?_⟩
  · have hand : (d >>> (msb d - 2)) &&& 3 = d / 2 ^ (msb d - 2) % 4 := by
      rw [Nat.shiftRight_eq_div_pow]
      exact Nat.and_two_pow_sub_one_eq_mod _ 2
    rw [bucket, if_neg (by omega), hand]
    omega
  · exact Nat.lt_mul_of_div_lt (Nat.lt_succ_self _) hpos

/-- `bucket_lo` and `bucket` agree on where a bucket starts and ends. -/
theorem bucketLo_bucket (d : Nat) : bucketLo (bucket d) ≤ d ∧ d < bucketLo (bucket d + 1) := by
  by_cases h : d < 4
  · have hself : bucketLo d = d := if_pos h
    have hbucket : bucket d = d := if_pos h
    rw [hbucket]
    exact ⟨hself.le, hself.symm.trans_lt (bucketLo_strictMono (Nat.lt_succ_self d))⟩
  · obtain ⟨m, h4, h8, hb, hlo, hhi⟩ := bucket_spec (not_lt.mp h)
    rw [hb, bucketLo_octave h4 h8, bucketLo_octave_succ h4 h8]
    exact ⟨hlo, hhi⟩

theorem bucket_mono : Monotone bucket := by
  intro d d' h
  -- `d` starts its bucket and `d'` ends its own
  have hlt : bucketLo (bucket d) < bucketLo (bucket d' + 1) :=
    lt_of_le_of_lt ((bucketLo_bucket d).1.trans h) (bucketLo_bucket d').2
  exact Nat.lt_succ_iff.mp (bucketLo_strictMono.lt_iff_lt.mp hlt)

/-- A 64-bit duration has its bucket inside `hist`. -/
theorem bucket_le {d : Nat} (h : d < 2 ^ 64) : bucket d ≤ 251 := by
  by_cases h4 : d < 4
  · have hbucket : bucket d = d := if_pos h4
    omega
  · obtain ⟨m, -, h8, hb, -, -⟩ := bucket_spec (not_lt.mp h4)
    have hmsb : msb d < 64 := (Nat.log2_lt (by omega)).mpr h
    omega

/-- The start of its bucket is a duration, or more than four fifths of it. -/
theorem bucketLo_accurate (d : Nat) :
    d = bucketLo (bucket d) ∨ 4 * d < 5 * bucketLo (bucket d) := by
  by_cases h : d < 4
  · have hself : bucketLo d = d := if_pos h
    have hbucket : bucket d = d := if_pos h
    exact Or.inl (by rw [hbucket, hself])
  · obtain ⟨m, h4, h8, hb, -, hhi⟩ := bucket_spec (not_lt.mp h)
    rw [hb, bucketLo_octave h4 h8]
    -- a bucket is a quarter of its octave wide at most
    have hwidth : 4 * ((m + 1) * 2 ^ (msb d - 2)) ≤ 5 * (m * 2 ^ (msb d - 2)) := by
      have hm : 4 * (m + 1) ≤ 5 * m := by omega
      calc 4 * ((m + 1) * 2 ^ (msb d - 2)) = 4 * (m + 1) * 2 ^ (msb d - 2) := by ring
        _ ≤ 5 * m * 2 ^ (msb d - 2) := Nat.mul_le_mul_right _ hm
        _ = 5 * (m * 2 ^ (msb d - 2)) := by ring
    exact Or.inr (by omega)

/-- The ends of the range. -/
example : bucket (2 ^ 64 - 1) = 251 ∧ bucketLo 251 = 7 * 2 ^ 61 := by decide +kernel

end Pacer.Pinstr

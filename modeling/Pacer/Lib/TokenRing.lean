import Mathlib.Data.Nat.ModEq
import Mathlib.Algebra.Order.Group.Nat

set_option autoImplicit false

/-! # Counting receipts on a token ring

A token goes round the positions `0, 1, ..., N - 1, 0, ...`, one receipt after the other. After
`k` receipts in all the next one is at position `k % N`, and position `u` has received the
token `received N k u` times. `ReceivedSince` expresses, by the two counts alone, that `u` has
received the token since the `r`-th receipt of `i`: between two receipts of `i` everybody else
has exactly one.
-/

namespace TokenRing

/-- The receipts of position `u` among the first `k`. -/
def received (N k u : Nat) : Nat := k / N + if u < k % N then 1 else 0

@[simp] theorem received_zero (N u : Nat) : received N 0 u = 0 := by
  simp [received]

/-- The next receipt is at position `k % N`. -/
theorem received_succ {N k u : Nat} (hu : u < N) :
    received N (k + 1) u = received N k u + if k % N = u then 1 else 0 := by
  have hN : 0 < N := Nat.lt_of_le_of_lt (Nat.zero_le u) hu
  have hk := Nat.div_add_mod k N
  have hlt := Nat.mod_lt k hN
  by_cases hwrap : k % N + 1 = N
  · -- the last position of a round
    have hsucc : k + 1 = N * (k / N + 1) := by rw [Nat.mul_add, Nat.mul_one]; omega
    have hdiv : (k + 1) / N = k / N + 1 := by rw [hsucc, Nat.mul_div_cancel_left _ hN]
    have hmod : (k + 1) % N = 0 := by rw [hsucc, Nat.mul_mod_right]
    simp only [received, hdiv, hmod]
    split <;> split <;> split <;> omega
  · have hsucc : k + 1 = k % N + 1 + N * (k / N) := by omega
    have hdiv : (k + 1) / N = k / N := by
      rw [hsucc, Nat.add_mul_div_left _ _ hN, Nat.div_eq_of_lt (by omega), Nat.zero_add]
    have hmod : (k + 1) % N = k % N + 1 := by
      rw [hsucc, Nat.add_mul_mod_self_left, Nat.mod_eq_of_lt (by omega)]
    simp only [received, hdiv, hmod]
    split <;> split <;> split <;> omega

/-- At the turn of `i` the positions before `i` are one receipt ahead of `i`. -/
theorem received_of_lt_turn {N k u : Nat} (h : u < k % N) :
    received N k u = received N k (k % N) + 1 := by
  simp [received, h]

/-- At the turn of `i` the positions after `i` are level with `i`. -/
theorem received_of_turn_lt {N k u : Nat} (h : k % N < u) :
    received N k u = received N k (k % N) := by
  have : ¬ u < k % N := by omega
  simp [received, this]

/-- At its turn a position has received the token once in each full round. -/
theorem received_turn {N k i : Nat} (hi : k % N = i) : received N k i = k / N := by
  simp [received, hi]

/-- In a full round everybody receives the token once. -/
theorem received_add_round {N k u : Nat} (hN : 0 < N) :
    received N (k + N) u = received N k u + 1 := by
  simp only [received, Nat.add_mod_right, Nat.add_div_right k hN]
  omega

/-- Two turns of `i` with one receipt of `i` in between are a round apart. -/
theorem next_turn {N k k' i : Nat} (hi : k % N = i) (hi' : k' % N = i)
    (hr : received N k' i = received N k i + 1) : k' = k + N := by
  rw [received_turn hi, received_turn hi'] at hr
  calc k' = k' % N + N * (k' / N) := (Nat.mod_add_div k' N).symm
    _ = k % N + N * (k / N) + N := by rw [hi, hi', hr, Nat.mul_succ, Nat.add_assoc]
    _ = k + N := by rw [Nat.mod_add_div]

/-- Position `u`, with `c` receipts, has received the token since the `r`-th receipt of `i`. -/
def ReceivedSince (i r u c : Nat) : Prop := if u < i then r < c else r ≤ c

theorem ReceivedSince.mono {i r u c c' : Nat} (h : ReceivedSince i r u c) (hc : c ≤ c') :
    ReceivedSince i r u c' := by
  unfold ReceivedSince at h ⊢
  by_cases hu : u < i
  · rw [if_pos hu] at h ⊢
    exact lt_of_lt_of_le h hc
  · rw [if_neg hu] at h ⊢
    exact le_trans h hc

/-- When the turn comes to `i` again, everybody has received since `i` did. -/
theorem receivedSince_turn {N k i : Nat} (hi : k % N = i) (u : Nat) :
    ReceivedSince i (received N k i) u (received N k u) := by
  subst hi
  unfold ReceivedSince
  rcases Nat.lt_trichotomy u (k % N) with hlt | heq | hgt
  · rw [if_pos hlt, received_of_lt_turn hlt]
    exact Nat.lt_succ_self _
  · rw [← heq, if_neg (lt_irrefl u)]
  · rw [if_neg (by omega), received_of_turn_lt hgt]

/-- When `i` receives, nobody else has received since. -/
theorem not_receivedSince_turn {N k i u : Nat} (hi : k % N = i) (hu : u ≠ i) :
    ¬ ReceivedSince i (received N k i + 1) u (received N k u) := by
  subst hi
  unfold ReceivedSince
  split
  · rename_i hlt
    rw [received_of_lt_turn hlt]
    exact lt_irrefl _
  · rw [received_of_turn_lt (u := u) (by omega)]
    exact Nat.not_succ_le_self _

end TokenRing

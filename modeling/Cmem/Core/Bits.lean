import Mathlib

/-!
# Bit scans

The lowest set bit of a bit vector, and how the two halves of a number (its
top bit and the bits just below it) bound it: what a two-level bitmap index
rests on.
-/
namespace Cmem

section Ctz
variable {w : Nat}

/-- Position of the lowest set bit, `w` when there is none. -/
def ctz (v : BitVec w) : Nat := ((List.range w).find? fun i => v.getLsbD i).getD w

theorem ctz_spec {v : BitVec w} (h : v ≠ 0#w) : v.getLsbD (ctz v) = true ∧ ctz v < w := by
  unfold ctz
  cases e : (List.range w).find? fun i => v.getLsbD i with
  | some i =>
    have hi := List.mem_range.mp (List.mem_of_find?_eq_some e)
    exact ⟨List.find?_some (p := fun i => v.getLsbD i) e, hi⟩
  | none =>
    refine absurd (BitVec.eq_of_getLsbD_eq fun i hi => ?_) h
    have := List.find?_eq_none.mp e i (List.mem_range.mpr hi)
    simpa using this

theorem getLsbD_setBit (v : BitVec w) (i j : Nat) (hi : i < w) :
    (v ||| 1#w <<< i).getLsbD j = (v.getLsbD j || decide (j = i)) := by
  rw [BitVec.getLsbD_or, BitVec.getLsbD_shiftLeft, BitVec.getLsbD_one]
  by_cases hj : j = i
  · subst hj
    simp [hi, show 0 < w by omega]
  · by_cases hlt : j < i
    · simp [hlt, hj]
    · have : ¬ j - i = 0 := by omega
      simp [hj, this]

theorem getLsbD_clearBit (v : BitVec w) (i j : Nat) :
    (v &&& ~~~(1#w <<< i)).getLsbD j = (v.getLsbD j && !decide (j = i)) := by
  rw [BitVec.getLsbD_and, BitVec.getLsbD_not, BitVec.getLsbD_shiftLeft, BitVec.getLsbD_one]
  by_cases hw : j < w
  · by_cases hj : j = i
    · subst hj
      simp [hw, show 0 < w by omega]
    · by_cases hlt : j < i
      · simp [hlt, hj, hw]
      · have : ¬ j - i = 0 := by omega
        simp [hj, this, hw]
  · simp [BitVec.getLsbD_of_ge v j (by omega)]

/-- `v & (~0 << i)`: the bits from `i` on. -/
theorem getLsbD_maskFrom (v : BitVec w) (i j : Nat) :
    (v &&& BitVec.allOnes w <<< i).getLsbD j = (v.getLsbD j && decide (i ≤ j)) := by
  rw [BitVec.getLsbD_and, BitVec.getLsbD_shiftLeft, BitVec.getLsbD_allOnes]
  by_cases hw : j < w
  · by_cases hj : i ≤ j
    · have : ¬ j < i := by omega
      simp [hw, hj, this, show j - i < w by omega]
    · simp [hw, hj, show j < i by omega]
  · simp [BitVec.getLsbD_of_ge v j (by omega)]

theorem ne_zero_of_getLsbD {v : BitVec w} {i : Nat} (h : v.getLsbD i = true) : v ≠ 0#w := by
  rintro rfl
  simp at h

end Ctz

/-! ## The bits below the top one -/

/-- `n` with its bits below the top `k + 1` dropped is `2^k` plus the `k` bits
under the top one. -/
theorem shiftRight_top {n k : Nat} (h : 2 ^ k ≤ n) :
    ∃ j < 2 ^ k, n >>> (Nat.log2 n - k) = 2 ^ k + j := by
  have hn : n ≠ 0 := by have := Nat.two_pow_pos k; omega
  have hk : k ≤ Nat.log2 n := (Nat.le_log2 hn).mpr h
  have h1 := Nat.log2_self_le hn
  have h2 := Nat.lt_log2_self (n := n)
  rw [Nat.shiftRight_eq_div_pow]
  have hp := Nat.two_pow_pos (Nat.log2 n - k)
  have e1 : 2 ^ Nat.log2 n = 2 ^ k * 2 ^ (Nat.log2 n - k) := by
    rw [← Nat.pow_add]; congr 1; omega
  have hlo : 2 ^ k ≤ n / 2 ^ (Nat.log2 n - k) := (Nat.le_div_iff_mul_le hp).mpr (by omega)
  have hhi : n / 2 ^ (Nat.log2 n - k) < 2 * 2 ^ k :=
    (Nat.div_lt_iff_lt_mul hp).mpr (by rw [Nat.pow_succ] at h2; rw [Nat.mul_assoc, ← e1]; omega)
  exact ⟨n / 2 ^ (Nat.log2 n - k) - 2 ^ k, by omega, by omega⟩

theorem two_pow_add_xor {k j : Nat} (h : j < 2 ^ k) : (2 ^ k + j) ^^^ 2 ^ k = j := by
  have e : 2 ^ k + j = j ^^^ 2 ^ k := by
    refine Nat.eq_of_testBit_eq fun i => ?_
    rw [Nat.testBit_xor, Nat.testBit_two_pow]
    by_cases hi : i = k
    · subst hi
      rw [Nat.testBit_two_pow_add_eq, Nat.testBit_lt_two_pow h]; simp
    · by_cases hlt : i < k
      · rw [Nat.testBit_two_pow_add_gt hlt]; simp [show ¬ k = i by omega]
      · have hi' : k < i := by omega
        have h1 : 2 ^ k + j < 2 ^ i := by
          have : 2 ^ (k + 1) ≤ 2 ^ i := Nat.pow_le_pow_right (by decide) hi'
          rw [Nat.pow_succ] at this; omega
        rw [Nat.testBit_lt_two_pow h1,
          Nat.testBit_lt_two_pow
            (Nat.lt_of_lt_of_le h (Nat.pow_le_pow_right (by decide) (by omega)))]
        simp [show ¬ k = i by omega]
  rw [e, Nat.xor_assoc, Nat.xor_self, Nat.xor_zero]

end Cmem

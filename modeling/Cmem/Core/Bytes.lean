import Mathlib

/-!
# Byte memory

A memory is a function from addresses to bytes. Fields are read little-endian
(`le`); `fill` and `store` are the writes. A read does not see a write that lies
apart from it.
-/
namespace Cmem

abbrev Bytes := Nat → UInt8

namespace Bytes

/-- `[a, a + n)` and `[b, b + k)` do not meet. -/
def Apart (a n b k : Nat) : Prop := a + n ≤ b ∨ b + k ≤ a

/-- The `n` bytes at `a` as a number. -/
def le (m : Bytes) (a : Nat) : Nat → Nat
  | 0 => 0
  | n + 1 => (m a).toNat + 256 * m.le (a + 1) n

/-- `memset` -/
def fill (m : Bytes) (a n : Nat) (b : UInt8) : Bytes :=
  fun i => if a ≤ i ∧ i < a + n then b else m i

/-- `memcpy` of `n` bytes from `b` to `a` -/
def copy (m : Bytes) (a b n : Nat) : Bytes :=
  fun i => if a ≤ i ∧ i < a + n then m (b + (i - a)) else m i

/-- The lower `n` bytes of `v` are written to `a`. -/
def store (m : Bytes) (a n v : Nat) : Bytes := fun i =>
  if a ≤ i ∧ i < a + n then UInt8.ofNat (v / 256 ^ (i - a)) else m i

section
variable {m m' : Bytes} {a n v : Nat} {x : UInt8}

theorem le_congr (h : ∀ i, a ≤ i → i < a + n → m' i = m i) : m'.le a n = m.le a n := by
  induction n generalizing a with
  | zero => rfl
  | succ n ih =>
    rw [le, le, h a (Nat.le_refl _) (by omega), ih fun i h1 h2 => h i (by omega) (by omega)]

theorem le_eq_zero : m.le a n = 0 ↔ ∀ i, a ≤ i → i < a + n → m i = 0 := by
  induction n generalizing a with
  | zero => exact iff_of_true rfl fun i h1 h2 => absurd h2 (by omega)
  | succ n ih =>
    rw [le, Nat.add_eq_zero_iff, Nat.mul_eq_zero, or_iff_right (by decide), ih, ← UInt8.toNat_zero,
      UInt8.toNat_inj]
    constructor
    · rintro ⟨h0, h⟩ i h1 h2
      rcases Nat.eq_or_lt_of_le h1 with rfl | h1
      · exact h0
      · exact h i h1 (by omega)
    · intro h
      exact ⟨h a (Nat.le_refl _) (by omega), fun i h1 h2 => h i (by omega) (by omega)⟩

theorem fill_apart {i : Nat} (h : Apart a n i 1) : m.fill a n x i = m i :=
  if_neg (by unfold Apart at h; omega)

theorem store_apart {i : Nat} (h : Apart a n i 1) : m.store a n v i = m i :=
  if_neg (by unfold Apart at h; omega)

theorem copy_apart {b i : Nat} (h : Apart a n i 1) : m.copy a b n i = m i :=
  if_neg (by unfold Apart at h; omega)

theorem le_store_apart {b k : Nat} (h : Apart a n b k) : (m.store a n v).le b k = m.le b k :=
  le_congr fun _ h1 h2 => store_apart (by unfold Apart at h ⊢; omega)

theorem le_lt (m : Bytes) (a n : Nat) : m.le a n < 256 ^ n := by
  induction n generalizing a with
  | zero => exact Nat.one_pos
  | succ n ih =>
    have hb := (m a).toNat_lt
    have hi := ih (a + 1)
    rw [le, Nat.pow_succ]
    omega

/-- The first byte of a number. -/
theorem le_succ_mod (m : Bytes) (a n : Nat) : m.le a (n + 1) % 256 = (m a).toNat := by
  rw [le]
  have := (m a).toNat_lt
  omega

theorem le_store_part {k j : Nat} (h : k + j ≤ n) :
    (m.store a n v).le (a + k) j = v / 256 ^ k % 256 ^ j := by
  induction j generalizing k with
  | zero => rw [le, Nat.pow_zero, Nat.mod_one]
  | succ j ih =>
    have hb : ((m.store a n v) (a + k)).toNat = v / 256 ^ k % 256 := by
      rw [store, if_pos (by omega), Nat.add_sub_cancel_left, UInt8.toNat_ofNat']
    rw [le, hb, Nat.add_assoc, ih (by omega), Nat.pow_succ, ← Nat.div_div_eq_div_mul, Nat.pow_succ,
      Nat.mul_comm (256 ^ j) 256, Nat.mod_mul]

/-- What was stored is read back. -/
theorem le_store (h : v < 256 ^ n) : (m.store a n v).le a n = v := by
  have hp := le_store_part (m := m) (a := a) (v := v) (k := 0) (j := n) (n := n) (by omega)
  rw [Nat.add_zero, Nat.pow_zero, Nat.div_one, Nat.mod_eq_of_lt h] at hp
  exact hp

/-- What was copied is read in the other place. -/
theorem le_copy {b j k : Nat} (h : k + j ≤ n) : (m.copy a b n).le (a + k) j = m.le (b + k) j := by
  induction j generalizing k with
  | zero => rfl
  | succ j ih =>
    have hb : m.copy a b n (a + k) = m (b + k) := by
      rw [copy, if_pos (by omega), Nat.add_sub_cancel_left]
    rw [le, le, hb, Nat.add_assoc, ih (by omega), Nat.add_assoc]

end

end Bytes

end Cmem

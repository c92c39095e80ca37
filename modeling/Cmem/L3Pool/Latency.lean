import Mathlib
import Cmem.L3Pool.Model

/-!
# The latency histogram of a pool

`mp_record_latency` and `mp_get_latency_p99` (src/src/cmem_config.c:396-451). A sample is halved
until it is below 1024, and the number of halvings is its bucket: bucket 0 has the samples below
1024 and bucket `i` those from `2 ^ (9 + i)` on, up to `2 ^ (10 + i)`. The value that is reported
for bucket `i` is `2 ^ i`.
-/
namespace Cmem.L3.Latency
open Cmem.L3.Pool (wrap)

/-- The latency fields of a pool. -/
structure Stats where
  /-- `alloc_latency_histogram`, 32 buckets -/
  histogram : Nat → Nat
  /-- `alloc_latency_count` -/
  count : Nat
  /-- `alloc_latency_sum_ns` -/
  sum : Nat

/-- A pool without samples. -/
def Stats.empty : Stats := ⟨fun _ => 0, 0, 0⟩

/-- The loop over `val` and `idx`, with so many turns left to the last bucket. -/
def bucketLoop : Nat → Nat → Nat → Nat
  | 0, _, idx => idx
  | n + 1, val, idx => if 1024 ≤ val then bucketLoop n (val >>> 1) (idx + 1) else idx

/-- The bucket of a sample, src/src/cmem_config.c:406-412. -/
def bucketOf (latency : Nat) : Nat := bucketLoop 31 latency 0

/-- mirrors `mp_record_latency`, src/src/cmem_config.c:396-418 -/
def mpRecordLatency (s : Stats) (latency : Nat) : Stats where
  histogram :=
    Function.update s.histogram (bucketOf latency) (wrap (s.histogram (bucketOf latency) + 1))
  count := wrap (s.count + 1)
  sum := wrap (s.sum + latency)

/-- The walk over the buckets from `i` on, src/src/cmem_config.c:435-442. -/
def p99Loop (histogram : Nat → Nat) (target : Nat) : Nat → Nat → Nat → Nat
  | 0, _, _ => 0
  | n + 1, i, cum =>
    if target ≤ wrap (cum + histogram i) then 1 <<< i
    else p99Loop histogram target n (i + 1) (wrap (cum + histogram i))

/-- mirrors `mp_get_latency_p99`, src/src/cmem_config.c:425-447 -/
def mpGetLatencyP99 (s : Stats) : Nat :=
  if s.count = 0 then 0 else p99Loop s.histogram (wrap (s.count * 99) / 100) 32 0 0

def record (samples : List Nat) : Stats := samples.foldl mpRecordLatency .empty

/-- At least 99 percent of the samples are at most `bound`. -/
def Covers (samples : List Nat) (bound : Nat) : Prop :=
  99 * samples.length ≤ 100 * samples.countP (· ≤ bound)

instance (samples : List Nat) (bound : Nat) : Decidable (Covers samples bound) :=
  inferInstanceAs (Decidable (_ ≤ _))

/-! ## Buckets -/

theorem bucketLoop_spec (n val idx : Nat) :
    idx ≤ bucketLoop n val idx ∧ bucketLoop n val idx ≤ idx + n ∧
      (idx < bucketLoop n val idx → 2 ^ (9 + (bucketLoop n val idx - idx)) ≤ val) := by
  induction n generalizing val idx with
  | zero => exact ⟨Nat.le_refl _, Nat.le_refl _, fun h => absurd h (Nat.lt_irrefl _)⟩
  | succ n ih =>
    rw [bucketLoop]
    split
    · rename_i hval
      obtain ⟨h1, h2, h3⟩ := ih (val >>> 1) (idx + 1)
      refine ⟨by omega, by omega, fun _ => ?_⟩
      generalize bucketLoop n (val >>> 1) (idx + 1) = b at *
      rcases Nat.eq_or_lt_of_le h1 with he | hlt
      · rw [show b - idx = 1 by omega]
        exact hval
      · have h4 := h3 hlt
        rw [Nat.shiftRight_eq_div_pow, Nat.pow_one] at h4
        rw [show 9 + (b - idx) = 9 + (b - (idx + 1)) + 1 by omega, Nat.pow_succ]
        omega
    · exact ⟨Nat.le_refl _, Nat.le_add_right .., fun h => absurd h (Nat.lt_irrefl _)⟩

theorem bucketOf_lt (v : Nat) : bucketOf v < 32 := by
  have := (bucketLoop_spec 31 v 0).2.1
  exact Nat.lt_succ_of_le (Nat.le_trans this (Nat.le_of_eq (Nat.zero_add 31)))

/-- A sample that is at most the value reported for a bucket lies in a bucket before it. -/
theorem bucketOf_lt_of_le {v k : Nat} (hk : 0 < k) (hv : v ≤ 2 ^ k) : bucketOf v < k := by
  by_contra h
  have hlow := (bucketLoop_spec 31 v 0).2.2
  change 0 < bucketOf v → 2 ^ (9 + bucketOf v) ≤ v at hlow
  have h1 : 2 ^ (9 + bucketOf v) ≤ 2 ^ k := Nat.le_trans (hlow (by omega)) hv
  have h2 : 2 ^ k < 2 ^ (9 + bucketOf v) := Nat.pow_lt_pow_right (by decide) (by omega)
  omega

/-! ## The histogram -/

section Histogram
variable {samples : List Nat}

/-- The counters of a sequence of samples. -/
structure Counted (samples : List Nat) (s : Stats) : Prop where
  histogram : ∀ i, s.histogram i = samples.countP (bucketOf · = i)
  count : s.count = samples.length

theorem Counted.record {s : Stats} (h : Counted samples s) (v : Nat)
    (hlen : samples.length + 1 < 2 ^ 64) : Counted (samples ++ [v]) (mpRecordLatency s v) where
  histogram i := by
    have hle : samples.countP (bucketOf · = i) ≤ samples.length := List.countP_le_length
    rw [List.countP_append, List.countP_singleton]
    by_cases hi : bucketOf v = i
    · subst hi
      refine (Function.update_self ..).trans ?_
      rw [h.histogram, wrap, Nat.mod_eq_of_lt (by omega), if_pos (decide_eq_true rfl)]
    · refine (Function.update_of_ne (Ne.symm hi) ..).trans ?_
      rw [h.histogram, if_neg (fun hd => hi (of_decide_eq_true hd)), Nat.add_zero]
  count := by
    show wrap (s.count + 1) = _
    rw [h.count, wrap, Nat.mod_eq_of_lt hlen, List.length_append, List.length_singleton]

theorem counted_record (hlen : samples.length < 2 ^ 64) : Counted samples (record samples) := by
  induction samples using List.reverseRecOn with
  | nil => exact ⟨fun i => rfl, rfl⟩
  | append_singleton samples v ih =>
    rw [List.length_append, List.length_singleton] at hlen
    rw [record, List.foldl_append]
    exact (ih (by omega)).record v hlen

theorem countP_bucket_succ (samples : List Nat) (k : Nat) :
    samples.countP (bucketOf · < k + 1) = samples.countP (bucketOf · < k) +
      samples.countP (bucketOf · = k) := by
  induction samples with
  | nil => rfl
  | cons v l ih =>
    simp only [List.countP_cons, ih, decide_eq_true_eq]
    split_ifs <;> omega

/-- **The walk** stops at the first bucket where the target is reached. -/
theorem p99Loop_spec {histogram : Nat → Nat} (target : Nat) (hlen : samples.length < 2 ^ 64)
    (hh : ∀ i, histogram i = samples.countP (bucketOf · = i)) (ht : target ≤ samples.length) :
    ∀ n i, n + i = 32 → 0 < n → ∃ k, i ≤ k ∧
      p99Loop histogram target n i (samples.countP (bucketOf · < i)) = 2 ^ k ∧
      (i < k → samples.countP (bucketOf · < k) < target) := by
  intro n
  induction n with
  | zero => exact fun i _ h => absurd h (Nat.lt_irrefl _)
  | succ n ih =>
    intro i hi _
    have hcum :
      wrap (samples.countP (bucketOf · < i) + histogram i) =
        samples.countP (bucketOf · < i + 1) := by
      rw [hh, ← countP_bucket_succ]
      exact Nat.mod_eq_of_lt (Nat.lt_of_le_of_lt List.countP_le_length hlen)
    rw [p99Loop, hcum]
    split
    · exact ⟨i, Nat.le_refl _, Nat.one_shiftLeft i, fun h => absurd h (Nat.lt_irrefl _)⟩
    · rename_i hlt
      have hn : 0 < n := by
        refine Nat.pos_of_ne_zero fun h0 => hlt ?_
        -- behind the last bucket every sample is counted
        have hall : samples.countP (bucketOf · < i + 1) = samples.length :=
          List.countP_eq_length.mpr fun v _ => by
            have := bucketOf_lt v
            exact decide_eq_true (by omega)
        rw [hall]
        exact ht
      obtain ⟨k, h1, h2, h3⟩ := ih (i + 1) (by omega) hn
      refine ⟨k, by omega, h2, fun _ => ?_⟩
      rcases Nat.eq_or_lt_of_le h1 with rfl | h
      · exact Nat.lt_of_not_le hlt
      · exact h3 h

/-- **The reported p99** bounds 99 percent of the samples when 99 percent of them are 0 or 1, and
only then. -/
theorem p99_covers_iff (hlen : samples.length < 2 ^ 64) :
    Covers samples (mpGetLatencyP99 (record samples)) ↔ Covers samples 1 := by
  have hc := counted_record hlen
  unfold mpGetLatencyP99
  split
  · rename_i h0
    rw [hc.count] at h0
    obtain rfl := List.length_eq_zero_iff.mp h0
    exact Iff.rfl
  · have htarget : wrap ((record samples).count * 99) / 100 ≤ samples.length * 99 / 100 := by
      rw [hc.count]
      exact Nat.div_le_div_right (Nat.mod_le ..)
    generalize wrap ((record samples).count * 99) / 100 = target at *
    have hempty : samples.countP (bucketOf · < 0) = 0 := List.countP_eq_zero.mpr fun v _ => by simp
    obtain ⟨k, -, hk, hlt⟩ := p99Loop_spec target hlen hc.histogram (by omega) 32 0 rfl (by decide)
    rw [hempty] at hk
    rw [hk]
    rcases Nat.eq_zero_or_pos k with rfl | hpos
    · exact Iff.rfl
    · -- the samples up to the reported value are in the buckets before it: fewer than the target
      have hfew : ∀ b, b ≤ 2 ^ k → ¬Covers samples b := fun b hb hcov => by
        have hle : samples.countP (· ≤ b) ≤ samples.countP (bucketOf · < k) :=
          List.countP_mono_left fun v _ hv => by
            simp only [decide_eq_true_eq] at *
            exact bucketOf_lt_of_le hpos (Nat.le_trans hv hb)
        have := hlt hpos
        unfold Covers at hcov
        omega
      exact iff_of_false (hfew _ (Nat.le_refl _)) (hfew 1 Nat.one_le_two_pow)

end Histogram

theorem p99_covers_ones : Covers [0, 1, 1] (mpGetLatencyP99 (record [0, 1, 1])) :=
  (p99_covers_iff (by decide)).mpr (by decide)

/-- **Defect.** A sample of 500 ns is reported as 1. -/
theorem p99_below_samples : mpGetLatencyP99 (record [500, 500]) = 1 ∧
    ¬ ∀ samples, samples ≠ [] → (∀ v ∈ samples, v < 2 ^ 41) →
    Covers samples (mpGetLatencyP99 (record samples)) := by
  refine ⟨by decide, fun h => ?_⟩
  exact absurd (h [500, 500] (by decide) (by decide)) (by decide)

end Cmem.L3.Latency

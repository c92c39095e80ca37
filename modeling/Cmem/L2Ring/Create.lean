import Mathlib
import Cmem.L2Ring.Ring
import Cmem.L2Ring.TypedPool

/-!
# Making a ring or a typed pool

`mp_ring_create` and `mp_typed_pool_create` (src/src/cmem_ring_event.c:16-58 and 288-329) for any
two `size_t`s. The loop that rounds the capacity up does not end above `2 ^ 63`, the table of a
ring is not checked before it is written, and the sizes of the buffers are products modulo
`2 ^ 64`. `calloc` and `posix_memalign` are an environment, which may fail; a buffer has at least
the bytes that were asked for.
-/
namespace Cmem.L2.Create

open RingBuffer (Ring roundUp roundUp_pow mpRingCreate)
open Typed (TypedPool realElemSize objectAt links mpTypedPoolCreate)

/-- Memory of the process. -/
structure Region where
  base : Nat
  len : Nat
  pos : 0 < base
  aligned : base % 64 = 0
  top : base + len ≤ 2 ^ 64

structure Env where
  /-- `calloc` gives the ring or the pool. -/
  header : Bool
  /-- `calloc` gives the table of a ring when its size does not overflow. -/
  table : Bool
  /-- `posix_memalign(.., 64, n)` -/
  memalign : (n : Nat) → Option { r : Region // n ≤ r.len }

/-- What a call comes to; `fault` is a store through a null pointer. -/
inductive Outcome (α : Type) where
  | hang
  | fault
  | null
  | made (a : α)

/-! ## The loop -/

/-- `real_cap` after so many turns of `while (real_cap < capacity) real_cap <<= 1`. -/
def realCap : Nat → Nat
  | 0 => 1
  | n + 1 => realCap n * 2 % 2 ^ 64

theorem realCap_eq (n : Nat) : realCap n = 2 ^ n % 2 ^ 64 := by
  induction n with
  | zero => rfl
  | succ n ih => rw [realCap, ih, Nat.mod_mul_mod, Nat.pow_succ 2 n]

theorem realCap_le (n : Nat) : realCap n ≤ 2 ^ 63 := by
  rw [realCap_eq]
  rcases Nat.lt_or_ge n 64 with h | h
  · have : 2 ^ n ≤ 2 ^ 63 := Nat.pow_le_pow_right (by decide) (by omega)
    exact Nat.le_trans (Nat.mod_le ..) this
  · rw [Nat.mod_eq_zero_of_dvd (Nat.pow_dvd_pow 2 h)]
    exact Nat.zero_le _

/-- The loop leaves its turn `k` with the first power of two that is large enough. -/
theorem roundUp_clog {capacity : Nat} (hc : capacity ≤ 2 ^ 63) {fuel k : Nat}
    (hk : k ≤ Nat.clog 2 capacity) (hf : Nat.clog 2 capacity < k + fuel) :
    roundUp capacity fuel (2 ^ k) = some (2 ^ Nat.clog 2 capacity) := by
  have h63 : Nat.clog 2 capacity ≤ 63 := (Nat.clog_le_iff_le_pow (by decide)).mpr hc
  induction fuel generalizing k with
  | zero => omega
  | succ fuel ih =>
    rw [roundUp]
    split
    next hlt =>
      have hk' : k < Nat.clog 2 capacity := (Nat.lt_clog_iff_pow_lt (by decide)).mpr hlt
      have hpow : 2 ^ k * 2 % 2 ^ 64 = 2 ^ (k + 1) := by
        rw [← Nat.pow_succ]
        exact Nat.mod_eq_of_lt (Nat.pow_lt_pow_right (by decide) (by omega))
      rw [hpow]
      exact ih hk' (by omega)
    next hge =>
      have hk' : ¬k < Nat.clog 2 capacity :=
        fun h => hge ((Nat.lt_clog_iff_pow_lt (by decide)).mp h)
      rw [show k = Nat.clog 2 capacity by omega]

theorem roundUp_none {capacity : Nat} (hc : 2 ^ 63 < capacity) : roundUp capacity 65 1 = none := by
  cases h : roundUp capacity 65 1 with
  | none => rfl
  | some n =>
    obtain ⟨k, hk, rfl, hle⟩ := roundUp_pow (k := 0) (by omega) h (by omega)
    have : 2 ^ k ≤ 2 ^ 63 := Nat.pow_le_pow_right (by decide) (by omega)
    omega

/-- The loop ends within 65 turns or never. -/
theorem roundUp_none_iff {capacity : Nat} : roundUp capacity 65 1 = none ↔
    ∀ n, realCap n < capacity := by
  constructor
  · intro h n
    rcases Nat.lt_or_ge (2 ^ 63) capacity with hc | hc
    · exact Nat.lt_of_le_of_lt (realCap_le n) hc
    · have h63 : Nat.clog 2 capacity ≤ 63 := (Nat.clog_le_iff_le_pow (by decide)).mpr hc
      have hs : roundUp capacity 65 (2 ^ 0) = _ := roundUp_clog hc (Nat.zero_le _) (by omega)
      rw [Nat.pow_zero, h] at hs
      cases hs
  · intro h
    refine roundUp_none ?_
    have := h 63
    rw [realCap_eq] at this
    omega

/-! ## The calls -/

/-- mirrors `mp_ring_create`, src/src/cmem_ring_event.c:16-58 -/
def ringCreate (e : Env) (slotSize capacity : Nat) : Outcome (Ring × Region) :=
  if slotSize = 0 ∨ capacity = 0 then .null
  else
    match roundUp capacity 65 1 with
    | none => .hang
    | some cap =>
      if e.header = false then .null
      else
        match e.memalign (slotSize * cap % 2 ^ 64) with
        | none => .null
        | some r =>
          -- the table is used as it is
          if e.table = true ∧ cap * 8 < 2 ^ 64 then
            .made
              (⟨slotSize, cap, cap - 1, 0, cap, fun i => (r.1.base + i * slotSize) % 2 ^ 64⟩, r.1)
          else .fault

/-- mirrors `mp_typed_pool_create`, src/src/cmem_ring_event.c:288-329 -/
def typedCreate (e : Env) (elemSize capacity : Nat) : Outcome (TypedPool × Region) :=
  if elemSize = 0 ∨ capacity = 0 ∨ e.header = false then .null
  else
    match e.memalign (realElemSize elemSize * capacity % 2 ^ 64) with
    | none => .null
    | some r => .made (⟨realElemSize elemSize, capacity, 0, r.1.base, r.1.base⟩, r.1)

/-- The model hangs exactly where the loop does. -/
theorem ringCreate_hang_iff (e : Env) (slotSize capacity : Nat) :
    ringCreate e slotSize capacity = .hang ↔
    slotSize ≠ 0 ∧ capacity ≠ 0 ∧ ∀ n, realCap n < capacity := by
  rw [← roundUp_none_iff, ringCreate]
  split
  next h =>
    refine iff_of_false nofun ?_
    rintro ⟨hs, hc, -⟩
    exact h.elim hs hc
  next h =>
    rw [not_or] at h
    split
    next hr => exact iff_of_true rfl ⟨h.1, h.2, hr⟩
    next cap hr =>
      refine iff_of_false ?_ (by rw [hr]; nofun)
      split
      · nofun
      · split
        · nofun
        · split <;> nofun

/-- The ring is that of the other modules. -/
theorem ringCreate_made {e : Env} {slotSize capacity : Nat} {x : Ring × Region}
    (h : ringCreate e slotSize capacity = .made x) :
    mpRingCreate slotSize capacity (some x.2.base) = some x.1 := by
  unfold ringCreate at h
  unfold mpRingCreate
  split at h
  · cases h
  next hne =>
    rw [if_neg hne]
    split at h
    · cases h
    next cap hr =>
      rw [hr]
      split at h
      · cases h
      · split at h
        · cases h
        · split at h
          · obtain rfl := Outcome.made.inj h
            rfl
          · cases h

theorem typedCreate_made {e : Env} {elemSize capacity : Nat} {x : TypedPool × Region}
    (m : Typed.Mem) (h : typedCreate e elemSize capacity = .made x) :
    mpTypedPoolCreate elemSize capacity e.header (some x.2.base) m =
      (some x.1, Typed.storeAll m (links x.2.base x.1.elemSize capacity)) := by
  unfold typedCreate at h
  unfold mpTypedPoolCreate
  split at h
  · cases h
  next hne =>
    rw [if_neg hne]
    split at h
    · cases h
    · obtain rfl := Outcome.made.inj h
      rfl

/-- `[a, a + n)` is in the region. -/
def Region.Has (r : Region) (a n : Nat) : Prop := r.base ≤ a ∧ a + n ≤ r.base + r.len

/-- The call ends, and with a ring whose slots are in its buffer. -/
def RingCovered : Outcome (Ring × Region) → Prop
  | .hang | .fault => False
  | .null => True
  | .made (ring, r) =>
    ring.capacity * ring.slotSize ≤ r.len ∧ ∀ i < ring.capacity, r.Has (ring.slots i) ring.slotSize

/-- The call ends, and with a pool whose objects are in its buffer, as are the words it has
written and what they point to. -/
def TypedCovered (elemSize : Nat) : Outcome (TypedPool × Region) → Prop
  | .hang | .fault => False
  | .null => True
  | .made (t, r) => t.capacity * elemSize ≤ r.len ∧ t.capacity * t.elemSize ≤ r.len ∧
    ∀ w ∈ links r.base t.elemSize t.capacity, r.Has w.1 8 ∧ (w.2 = 0 ∨ r.Has w.2 8)

/-! ## When the buffers are large enough -/

/-- Something of `size` bytes at the place `i` of a region. -/
theorem has_place {r : Region} {size n i : Nat} (hs : 0 < size) (hlen : n * size ≤ r.len)
    (hi : i < n) :
    (r.base + i * size) % 2 ^ 64 = r.base + i * size ∧ r.Has (r.base + i * size) size := by
  have hle : (i + 1) * size ≤ n * size := Nat.mul_le_mul_right _ hi
  rw [Nat.add_mul, Nat.one_mul] at hle
  have htop := r.top
  exact ⟨Nat.mod_eq_of_lt (by omega), by unfold Region.Has; omega⟩

theorem Region.len_lt (r : Region) : r.len + 64 ≤ 2 ^ 64 := by
  have hpos := r.pos
  have haligned := r.aligned
  have htop := r.top
  omega

theorem ring_covered_iff (e : Env) (slotSize capacity : Nat) :
    RingCovered (ringCreate e slotSize capacity) ↔
      slotSize = 0 ∨ capacity = 0 ∨ (capacity ≤ 2 ^ 63 ∧
        (e.header = false ∨ e.memalign (slotSize * 2 ^ Nat.clog 2 capacity % 2 ^ 64) = none ∨
          (e.table = true ∧ 2 ^ Nat.clog 2 capacity * 8 < 2 ^ 64 ∧
            slotSize * 2 ^ Nat.clog 2 capacity < 2 ^ 64))) := by
  by_cases hz : slotSize = 0 ∨ capacity = 0
  · have hnull : ringCreate e slotSize capacity = .null := by rw [ringCreate, if_pos hz]
    rw [hnull, ← or_assoc]
    exact iff_of_true trivial (.inl hz)
  rw [ringCreate, if_neg hz, ← or_assoc, or_iff_right hz]
  rcases Nat.lt_or_ge (2 ^ 63) capacity with hc | hc
  · rw [roundUp_none hc]
    exact iff_of_false id fun h => absurd h.1 (Nat.not_le.mpr hc)
  have h63 : Nat.clog 2 capacity ≤ 63 := (Nat.clog_le_iff_le_pow (by decide)).mpr hc
  have hround : roundUp capacity 65 1 = some (2 ^ Nat.clog 2 capacity) :=
    roundUp_clog (k := 0) hc (Nat.zero_le _) (by omega)
  rw [hround, and_iff_right hc]
  dsimp only
  generalize 2 ^ Nat.clog 2 capacity = cap
  by_cases hh : e.header = false
  · rw [if_pos hh]
    exact iff_of_true trivial (.inl hh)
  rw [if_neg hh, or_iff_right hh]
  cases hm : e.memalign (slotSize * cap % 2 ^ 64) with
  | none => exact iff_of_true trivial (.inl rfl)
  | some r =>
    obtain ⟨r, hr⟩ := r
    dsimp only
    rw [or_iff_right (by exact fun h => nomatch h), ← and_assoc]
    by_cases ht : e.table = true ∧ cap * 8 < 2 ^ 64
    · rw [if_pos ht, and_iff_right ht]
      constructor
      · rintro ⟨hlen, -⟩
        have htop := r.len_lt
        rw [Nat.mul_comm]
        dsimp only at hlen
        omega
      · intro hlt
        have hlen : cap * slotSize ≤ r.len := by
          rw [Nat.mul_comm]
          rwa [Nat.mod_eq_of_lt hlt] at hr
        refine ⟨hlen, fun i hi => ?_⟩
        obtain ⟨hmod, hhas⟩ := has_place (Nat.pos_of_ne_zero fun h => hz (.inl h)) hlen hi
        dsimp only
        rw [hmod]
        exact hhas
    · rw [if_neg ht]
      exact iff_of_false id fun h => ht h.1

/-- What the loop and the store behind it write. -/
theorem links_place {r : Region} {size capacity : Nat} (hs : 8 ≤ size) (hc : 0 < capacity)
    (hlen : capacity * size ≤ r.len) :
    ∀ w ∈ links r.base size capacity, r.Has w.1 8 ∧ (w.2 = 0 ∨ r.Has w.2 8) := by
  have hplace : ∀ i < capacity, r.Has (objectAt r.base size i) 8 := by
    intro i hi
    obtain ⟨hmod, hhas⟩ := has_place (by omega) hlen hi
    rw [objectAt, hmod]
    exact ⟨hhas.1, by have := hhas.2; omega⟩
  intro w hw
  rw [links, List.mem_append, List.mem_map, List.mem_singleton] at hw
  rcases hw with ⟨i, hi, rfl⟩ | rfl
  · rw [List.mem_range] at hi
    exact ⟨hplace i (by omega), .inr (hplace (i + 1) (by omega))⟩
  · exact ⟨hplace _ (by omega), .inl rfl⟩

theorem typed_covered_iff (e : Env) (elemSize capacity : Nat) :
    TypedCovered elemSize (typedCreate e elemSize capacity) ↔
      elemSize = 0 ∨ capacity = 0 ∨ e.header = false ∨
        e.memalign (realElemSize elemSize * capacity % 2 ^ 64) = none ∨
        (max elemSize 8 + 7) / 8 * 8 * capacity < 2 ^ 64 := by
  by_cases hz : elemSize = 0 ∨ capacity = 0 ∨ e.header = false
  · rw [typedCreate, if_pos hz]
    refine iff_of_true trivial ?_
    rcases hz with h | h | h
    exacts [.inl h, .inr (.inl h), .inr (.inr (.inl h))]
  have hz' := hz
  rw [not_or, not_or] at hz'
  obtain ⟨hes, hcap, hheader⟩ := hz'
  rw [typedCreate, if_neg hz, or_iff_right hes, or_iff_right hcap, or_iff_right hheader]
  cases hm : e.memalign (realElemSize elemSize * capacity % 2 ^ 64) with
  | none => exact iff_of_true trivial (.inl rfl)
  | some r =>
    obtain ⟨r, hr⟩ := r
    rw [or_iff_right (by exact fun h => nomatch h)]
    have htop := r.len_lt
    constructor
    · rintro ⟨hbytes, hlen, -⟩
      have hle : elemSize ≤ capacity * elemSize :=
        Nat.le_mul_of_pos_left _ (Nat.pos_of_ne_zero hcap)
      have hreal : realElemSize elemSize = (max elemSize 8 + 7) / 8 * 8 := Typed.realElemSize_eq (by
        dsimp only at hbytes
        omega)
      have hlen : capacity * realElemSize elemSize ≤ r.len := hlen
      rw [hreal, Nat.mul_comm] at hlen
      omega
    · intro hlt
      have hle : (max elemSize 8 + 7) / 8 * 8 ≤ (max elemSize 8 + 7) / 8 * 8 * capacity :=
        Nat.le_mul_of_pos_right _ (Nat.pos_of_ne_zero hcap)
      have hreal : realElemSize elemSize = (max elemSize 8 + 7) / 8 * 8 :=
        Typed.realElemSize_eq (by omega)
      have hlen : capacity * realElemSize elemSize ≤ r.len := by
        rw [← hreal] at hlt
        rw [Nat.mul_comm]
        rwa [Nat.mod_eq_of_lt hlt] at hr
      have hbig : elemSize ≤ realElemSize elemSize := by omega
      have hword : 8 ≤ realElemSize elemSize := by omega
      exact ⟨Nat.le_trans (Nat.mul_le_mul_left _ hbig) hlen, hlen,
        links_place hword (Nat.pos_of_ne_zero hcap) hlen⟩

/-- Both calls: a ring needs a capacity of at most `2 ^ 63`, a table and a product that does not
overflow, a typed pool a padded product that does not. -/
theorem create_covered_iff (e : Env) (size capacity : Nat) :
    (RingCovered (ringCreate e size capacity) ↔
      size = 0 ∨ capacity = 0 ∨ (capacity ≤ 2 ^ 63 ∧
        (e.header = false ∨ e.memalign (size * 2 ^ Nat.clog 2 capacity % 2 ^ 64) = none ∨
          (e.table = true ∧ 2 ^ Nat.clog 2 capacity * 8 < 2 ^ 64 ∧
            size * 2 ^ Nat.clog 2 capacity < 2 ^ 64)))) ∧
    (TypedCovered size (typedCreate e size capacity) ↔
      size = 0 ∨ capacity = 0 ∨ e.header = false ∨
        e.memalign (realElemSize size * capacity % 2 ^ 64) = none ∨
        (max size 8 + 7) / 8 * 8 * capacity < 2 ^ 64) :=
  ⟨ring_covered_iff e size capacity, typed_covered_iff e size capacity⟩

/-- Buffers of exactly the size that was asked for, as long as one fits. -/
def exact : Env where
  header := true
  table := true
  memalign n :=
    if h : n ≤ 2 ^ 32 then some ⟨⟨2 ^ 20, n, by decide, by decide, by omega⟩, Nat.le_refl n⟩
    else none

/-- The loop does not end for a capacity above `2 ^ 63`; 32 slots of `2 ^ 59 + 4` bytes are in a
buffer of 128 bytes, and so are 16 objects of `2 ^ 60 + 8` bytes. -/
theorem create_uncovered :
    ¬RingCovered (ringCreate exact 1 (2 ^ 63 + 1)) ∧
    ¬RingCovered (ringCreate exact (2 ^ 59 + 4) 32) ∧
      ¬TypedCovered (2 ^ 60 + 8) (typedCreate exact (2 ^ 60 + 8) 16) := by
  refine ⟨?_, ?_, ?_⟩
  · rw [ringCreate, if_neg (by decide), roundUp_none (by decide)]
    exact id
  · rintro ⟨hlen, -⟩
    exact absurd hlen (by decide +kernel)
  · rintro ⟨hlen, -⟩
    exact absurd hlen (by decide +kernel)

end Cmem.L2.Create

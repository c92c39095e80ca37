import Cmem.L2Ring.Ring

/-!
# The slot ring, one call after the other

`mp_ring_alloc` and `mp_ring_free` (src/src/cmem_ring_event.c:65-94) as whole calls of one
thread. `head` and `tail` are free-running, the slots between them are free, and `slots` is
permuted by the order in which they come back.

An `mp_ring_alloc` on a ring whose slots are all held advances `head` all the same, so the slot
that is put back next is lost; and the two cursors are compared as numbers, which goes wrong
when `tail` has come round. `Ok` excludes both, and no call may do without it.
-/
namespace Cmem.L2.RingBuffer.Calls

open RingBuffer

structure State where
  ring : Ring
  held : List Nat

inductive Act where
  | alloc
  | free (ptr : Nat)

namespace State

/-- Only slots that are held are put back. -/
def pre (s : State) : Act → Prop
  | .alloc => True
  | .free p => p ∈ s.held

def next (s : State) : Act → State
  | .alloc =>
    match mpRingAlloc s.ring with
    | (r, some p) => ⟨r, p :: s.held⟩
    | (r, none) => ⟨r, s.held⟩
  | .free p => ⟨(mpRingFree s.ring p).1, s.held.erase p⟩

/-- A ring of any slot size and capacity; the buffer is one of so many bytes. -/
def Start (s : State) : Prop :=
  ∃ slotSize capacity base, mpRingCreate slotSize capacity (some base) = some s.ring ∧ 0 < base ∧
    base + s.ring.slotSize * s.ring.capacity % 2 ^ 64 ≤ 2 ^ 64 ∧ s.held = []

end State

def system : LTS State Act := .det State.Start State.pre State.next

/-- What `mp_ring_alloc` returns, called again and again, for at most so many times. -/
def drain : Nat → Ring → List Nat
  | 0, _ => []
  | fuel + 1, r =>
    match mpRingAlloc r with
    | (_, none) => []
    | (r, some p) => p :: drain fuel r

/-- No slot is held twice, those held and those still to be had are as many as the capacity, and
`mp_ring_alloc` has none only when all are held. -/
structure Sound (s : State) : Prop where
  held : s.held.Nodup
  count :
    ∀ fuel, s.ring.capacity ≤ fuel → s.held.length + (drain fuel s.ring).length = s.ring.capacity
  none : (mpRingAlloc s.ring).2 = none → s.held.length = s.ring.capacity

/-- The call hands out no slot that is held, and changes nothing when it fails. -/
def Kept (s : State) : Act → Prop
  | .alloc =>
    match mpRingAlloc s.ring with
    | (r, none) => s.held.length = s.ring.capacity ∧ r = s.ring
    | (_, some p) => p ∉ s.held
  | .free _ => True

/-- The slots lie in the buffer one behind the other. -/
def Fits (s : State) : Prop := s.ring.slotSize * s.ring.capacity < 2 ^ 64

/-- A slot is asked for when not all are held, and `tail` does not come round. -/
def Ok (s : State) : Act → Prop
  | .alloc => s.held.length < s.ring.capacity
  | .free _ => s.ring.tail + 1 < 2 ^ 64

/-! ## The free slots -/

/-- The slots between the cursors. -/
def window (r : Ring) : List Nat :=
  (List.range (r.tail - r.head)).map fun i => r.slots ((r.head + i) % r.capacity)

structure Ready (s : State) : Prop where
  pow : ∃ k, k < 64 ∧ s.ring.capacity = 2 ^ k ∧ s.ring.mask = 2 ^ k - 1
  le : s.ring.head ≤ s.ring.tail
  lt : s.ring.tail < 2 ^ 64
  count : s.ring.tail - s.ring.head + s.held.length = s.ring.capacity
  nodup : (window s.ring ++ s.held).Nodup
  nonzero : ∀ p ∈ window s.ring ++ s.held, p ≠ 0

section Ready
variable {s : State} {r : Ring} {p : Nat}

theorem window_length (r : Ring) : (window r).length = r.tail - r.head := by
  rw [window, List.length_map, List.length_range]

theorem masked (hpow : ∃ k, k < 64 ∧ r.capacity = 2 ^ k ∧ r.mask = 2 ^ k - 1) (n : Nat) :
    n &&& r.mask = n % r.capacity := by
  obtain ⟨k, -, hc, hm⟩ := hpow
  rw [hm, hc, Nat.and_two_pow_sub_one_eq_mod]

theorem mpRingAlloc_none (h : r.tail ≤ r.head) :
    mpRingAlloc r = ({ r with head := bump r.head }, none) := by
  rw [mpRingAlloc, if_pos h]

/-- A claim takes the first free slot. -/
theorem mpRingAlloc_some (hpow : ∃ k, k < 64 ∧ r.capacity = 2 ^ k ∧ r.mask = 2 ^ k - 1)
    (h : r.head < r.tail) (ht : r.tail < 2 ^ 64) :
    mpRingAlloc r = ({ r with head := r.head + 1 }, some (r.slots (r.head % r.capacity))) ∧
      window r = r.slots (r.head % r.capacity) :: window { r with head := r.head + 1 } := by
  constructor
  · rw [mpRingAlloc, if_neg (by omega), masked hpow, bump, Nat.mod_eq_of_lt (by omega)]
  · unfold window
    rw [show r.tail - r.head = r.tail - (r.head + 1) + 1 by omega, List.range_succ_eq_map,
      List.map_cons, List.map_map]
    refine congrArg _ (List.map_congr_left fun i _ => ?_)
    rw [Function.comp_apply, Nat.succ_eq_add_one, Nat.add_assoc, Nat.add_comm 1 i]

/-- A slot that is put back is the last free one. -/
theorem mpRingFree_window (hpow : ∃ k, k < 64 ∧ r.capacity = 2 ^ k ∧ r.mask = 2 ^ k - 1)
    (hp : p ≠ 0) (hle : r.head ≤ r.tail) (hroom : r.tail - r.head < r.capacity)
    (ht : r.tail + 1 < 2 ^ 64) : (mpRingFree r p).1 =
      { r with tail := r.tail + 1, slots := Function.update r.slots (r.tail % r.capacity) p } ∧
    window (mpRingFree r p).1 = window r ++ [p] := by
  have hring : (mpRingFree r p).1 =
      { r with tail := r.tail + 1, slots := Function.update r.slots (r.tail % r.capacity) p } := by
    rw [mpRingFree, if_neg hp, masked hpow, bump, Nat.mod_eq_of_lt ht]
  refine ⟨hring, ?_⟩
  rw [hring]
  unfold window
  dsimp only
  rw [show r.tail + 1 - r.head = r.tail - r.head + 1 by omega, List.range_succ, List.map_append]
  refine congrArg₂ _ (List.map_congr_left fun i hi => ?_) ?_
  · have hi := List.mem_range.mp hi
    exact Function.update_of_ne (lap_ne (by omega) (by omega)) _ _
  · rw [List.map_cons, List.map_nil, Nat.add_sub_cancel' hle, Function.update_self]

/-- Further claims get the free slots in their order. -/
theorem drain_eq (hpow : ∃ k, k < 64 ∧ r.capacity = 2 ^ k ∧ r.mask = 2 ^ k - 1)
    (ht : r.tail < 2 ^ 64) {fuel : Nat} (hf : r.tail - r.head ≤ fuel) :
    drain fuel r = window r := by
  induction fuel generalizing r with
  | zero =>
    unfold window
    rw [Nat.le_zero.mp hf]
    rfl
  | succ fuel ih =>
    rw [drain]
    by_cases h : r.head < r.tail
    · obtain ⟨ha, hw⟩ := mpRingAlloc_some hpow h ht
      have hrest :
        drain fuel { r with head := r.head + 1 } = window { r with head := r.head + 1 } :=
        ih hpow ht (by dsimp only; omega)
      rw [ha, hw]
      exact congrArg _ hrest
    · rw [mpRingAlloc_none (Nat.le_of_not_lt h)]
      unfold window
      rw [Nat.sub_eq_zero_of_le (Nat.le_of_not_lt h)]
      rfl

theorem Ready.sound (h : Ready s) : Sound s where
  held := (List.nodup_append.mp h.nodup).2.1
  count fuel hf := by
    have := h.count
    rw [drain_eq h.pow h.lt (by omega), window_length]
    omega
  none hn := by
    have := h.count
    by_cases hlt : s.ring.head < s.ring.tail
    · rw [(mpRingAlloc_some h.pow hlt h.lt).1] at hn
      cases hn
    · omega

/-! ## The calls -/

theorem Ready.held_lt (h : Ready s) (hlt : s.held.length < s.ring.capacity) :
    s.ring.head < s.ring.tail := by
  have := h.count
  omega

/-- A claim moves the first free slot to those that are held. -/
theorem Ready.alloc (h : Ready s) (hlt : s.held.length < s.ring.capacity) :
    Kept s .alloc ∧ Ready (s.next .alloc) := by
  obtain ⟨ha, hw⟩ := mpRingAlloc_some h.pow (h.held_lt hlt) h.lt
  have hcount := h.count
  have hperm : (window s.ring ++ s.held).Perm (window { s.ring with head := s.ring.head + 1 } ++
      s.ring.slots (s.ring.head % s.ring.capacity) :: s.held) := by
    rw [hw]
    exact List.perm_middle.symm
  have hnext : s.next .alloc =
      ⟨{ s.ring with head := s.ring.head + 1 },
        s.ring.slots (s.ring.head % s.ring.capacity) :: s.held⟩ := by
    unfold State.next
    dsimp only
    rw [ha]
  constructor
  · have hno : s.ring.slots (s.ring.head % s.ring.capacity) ∉ s.held := fun hm =>
      (List.nodup_append.mp h.nodup).2.2 _ (by rw [hw]; exact List.mem_cons_self) _ hm rfl
    unfold Kept
    dsimp only
    rw [ha]
    exact hno
  · rw [hnext]
    refine ⟨h.pow, h.held_lt hlt, h.lt, ?_, hperm.nodup_iff.mp h.nodup,
      fun p hp => h.nonzero p (hperm.mem_iff.mpr hp)⟩
    rw [List.length_cons]
    have := h.held_lt hlt
    dsimp only
    omega

/-- A slot that is put back is free again. -/
theorem Ready.free (h : Ready s) (hp : p ∈ s.held) (ht : s.ring.tail + 1 < 2 ^ 64) :
    Ready (s.next (.free p)) := by
  have hcount := h.count
  have hlen := List.length_erase_of_mem hp
  have hpos := List.length_pos_of_mem hp
  obtain ⟨hring, hw⟩ :=
    mpRingFree_window h.pow (h.nonzero p (List.mem_append_right _ hp)) h.le (by omega) ht
  have hperm :
    (window s.ring ++ s.held).Perm (window (mpRingFree s.ring p).1 ++ s.held.erase p) := by
    rw [hw, List.append_assoc]
    exact (List.perm_cons_erase hp).append_left _
  show Ready ⟨(mpRingFree s.ring p).1, s.held.erase p⟩
  refine ⟨?_, ?_, ?_, ?_, hperm.nodup_iff.mp h.nodup,
    fun q hq => h.nonzero q (hperm.mem_iff.mpr hq)⟩ <;>
    rw [hring]
  · exact h.pow
  · exact Nat.le_succ_of_le h.le
  · exact ht
  · have := h.le
    dsimp only
    omega

theorem start_ready (h : s.Start) (hfit : Fits s) : Ready s := by
  obtain ⟨slotSize, capacity, base, hc, hbase, hend, hheld⟩ := h
  obtain ⟨base', k, hb, hk, hs, -, hr⟩ := mpRingCreate_some hc
  obtain rfl := Option.some.inj hb
  have hcap : 2 ^ k < 2 ^ 64 := Nat.pow_lt_pow_right (by decide) hk
  unfold Fits at hfit
  rw [Nat.mod_eq_of_lt hfit] at hend
  rw [hr] at hfit hend
  dsimp only at hfit hend
  have hat : ∀ i, i < 2 ^ k → (base + i * slotSize) % 2 ^ 64 = base + i * slotSize := by
    intro i hi
    have : (i + 1) * slotSize ≤ 2 ^ k * slotSize := Nat.mul_le_mul_right _ hi
    rw [Nat.mul_comm] at this
    refine Nat.mod_eq_of_lt ?_
    rw [Nat.mul_comm i]
    rw [Nat.mul_comm (2 ^ k)] at this
    have : slotSize * (i + 1) = slotSize * i + slotSize := Nat.mul_succ ..
    omega
  have hwin : window s.ring = (List.range (2 ^ k)).map fun i => base + i * slotSize := by
    rw [hr]
    refine List.map_congr_left fun i hi => ?_
    have hi : i < 2 ^ k := List.mem_range.mp hi
    show (base + (0 + i) % 2 ^ k * slotSize) % 2 ^ 64 = _
    rw [Nat.zero_add, Nat.mod_eq_of_lt hi, hat i hi]
  refine ⟨⟨k, hk, by rw [hr], by rw [hr]⟩, by rw [hr]; exact Nat.zero_le _, by rw [hr]; exact hcap,
    by rw [hr, hheld]; rfl, ?_, ?_⟩
  · rw [hwin, hheld, List.append_nil]
    refine List.nodup_range.map fun i j hij => ?_
    exact Nat.eq_of_mul_eq_mul_right (Nat.pos_of_ne_zero hs) (Nat.add_left_cancel hij)
  · intro p hp
    rw [hwin, hheld, List.append_nil] at hp
    obtain ⟨i, -, rfl⟩ := List.mem_map.mp hp
    omega

end Ready

/-! ## Runs -/

theorem next_fits (s : State) (l : Act) : Fits (s.next l) ↔ Fits s := by
  cases l with
  | alloc =>
    have hring : (s.next .alloc).ring = (mpRingAlloc s.ring).1 := by
      unfold State.next
      dsimp only
      rcases mpRingAlloc s.ring with ⟨r, _ | p⟩ <;> rfl
    unfold Fits
    rw [hring]
    rfl
  | free p =>
    unfold State.next mpRingFree Fits
    dsimp only
    split <;> rfl

theorem ready {s : State} (hr : (system.guard Ok).Reachable s) (hfit : Fits s) : Ready s := by
  induction hr with
  | init h => exact start_ready h hfit
  | step l _ hs ih =>
    obtain ⟨⟨hpre, rfl⟩, hok⟩ := hs
    have h := ih ((next_fits _ l).mp hfit)
    cases l with
    | alloc => exact (h.alloc hok).2
    | free p => exact h.free hpre hok

/-- **The slot ring, sequentially.** In a run in which no slot is asked for when all are held,
and `tail` does not come round, every state is sound; and a further call keeps the ring sound
exactly when it is such a call itself. -/
theorem ring_calls_sound {s : State} (hr : (system.guard Ok).Reachable s) (hfit : Fits s) :
    Sound s ∧ ∀ l, s.pre l → ((Kept s l ∧ Sound (s.next l)) ↔ Ok s l) := by
  have h := ready hr hfit
  refine ⟨h.sound, fun l hpre => ⟨fun ⟨hk, hs⟩ => ?_, fun hok => ?_⟩⟩
  · have hcount := h.count
    have hle := h.le
    have hlt := h.lt
    cases l with
    | alloc =>
      by_contra hfull
      have hfull : ¬s.held.length < s.ring.capacity := hfull
      -- the call that fails has advanced `head`
      unfold Kept at hk
      rw [mpRingAlloc_none (by omega)] at hk
      have hhead := congrArg Ring.head hk.2
      have hb : bump s.ring.head = s.ring.head := hhead
      unfold bump at hb
      omega
    | free p =>
      by_contra hwrap
      have hwrap : ¬s.ring.tail + 1 < 2 ^ 64 := hwrap
      -- `tail` is 0 now, so there is no slot although one was put back
      have hlen := List.length_erase_of_mem hpre
      have hpos := List.length_pos_of_mem hpre
      have hp0 : p ≠ 0 := h.nonzero p (List.mem_append_right _ hpre)
      have htail : (mpRingFree s.ring p).1.tail = 0 := by
        rw [mpRingFree, if_neg hp0]
        show (s.ring.tail + 1) % 2 ^ 64 = 0
        omega
      have hcap : (mpRingFree s.ring p).1.capacity = s.ring.capacity := by
        rw [mpRingFree, if_neg hp0]
      have hnone :=
        hs.none (by rw [State.next, mpRingAlloc_none (by rw [htail]; exact Nat.zero_le _)])
      have hnone : (s.held.erase p).length = (mpRingFree s.ring p).1.capacity := hnone
      omega
  · cases l with
    | alloc => exact ⟨(h.alloc hok).1, (h.alloc hok).2.sound⟩
    | free p => exact ⟨trivial, (h.free hpre hok).sound⟩

instance decPre (s : State) : (l : Act) → Decidable (s.pre l)
  | .alloc => inferInstanceAs (Decidable True)
  | .free p => inferInstanceAs (Decidable (p ∈ s.held))

instance decOk (s : State) : (l : Act) → Decidable (Ok s l)
  | .alloc => inferInstanceAs (Decidable (s.held.length < s.ring.capacity))
  | .free _ => inferInstanceAs (Decidable (s.ring.tail + 1 < 2 ^ 64))

/-- A ring of so many slots of 8 bytes. -/
def ringOf (capacity : Nat) : State :=
  ⟨(mpRingCreate 8 capacity (some 0x1000)).getD ⟨0, 0, 0, 0, 0, fun _ => 0⟩, []⟩

theorem ring_calls_sound_turns :
    Sound (([.alloc, .alloc, .free 0x1000, .alloc, .free 0x1010] : List Act).foldl
    State.next (ringOf 3)) := by
  have hr :
      (system.guard Ok).Reachable
        (([.alloc, .alloc, .free 0x1000, .alloc, .free 0x1010] : List Act).foldl
      State.next (ringOf 3)) :=
    LTS.Reachable.run (.init ⟨8, 3, 0x1000, rfl, by decide, by decide, rfl⟩) (by decide +kernel)
  exact (ring_calls_sound hr (by decide +kernel : (_ : Nat) < _)).1

/-- **Defect.** On a ring of one slot that is held, a second `mp_ring_alloc` fails and changes
the ring; when the slot is back, nothing is held and there is no slot. -/
theorem exhausted_ring_leaks : ∃ s, system.Reachable s ∧ ¬Kept s .alloc ∧ s.held = [0x1000] ∧
    (s.next .alloc).held = [0x1000] ∧
    ((s.next .alloc).next (.free 0x1000)).held = [] ∧
    (mpRingAlloc ((s.next .alloc).next (.free 0x1000)).ring).2 = none ∧
    ¬Sound ((s.next .alloc).next (.free 0x1000)) := by
  have hr : (system.guard fun _ _ => True).Reachable ([Act.alloc].foldl State.next (ringOf 1)) :=
    LTS.Reachable.run (.init ⟨8, 1, 0x1000, rfl, by decide, by decide, rfl⟩) (by decide +kernel)
  refine ⟨_, hr.of_guard, fun hk => ?_, by decide +kernel, by decide +kernel, by decide +kernel,
    by decide +kernel,
    fun hs => ?_⟩
  · have hhead := congrArg Ring.head hk.2
    exact absurd hhead (by decide +kernel)
  · exact absurd (hs.none (by decide +kernel)) (by decide +kernel)

end Cmem.L2.RingBuffer.Calls

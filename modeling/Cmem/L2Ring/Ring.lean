import Mathlib
import Cmem.Core.LTS

/-!
# The slot ring, one producer and one consumer

`mp_ring_alloc` and `mp_ring_free` (src/src/cmem_ring_event.c:65-94) hand out and
take back the slots of a fixed buffer through two free-running `size_t` cursors:
`head` counts the claims, `tail` the slots put in, the `real_cap` slots of the
start included. The pointers themselves stand in `slots`, at the cursor masked.

One thread claims, one thread returns, and a tick is one access to a cursor or to
`slots`. `mp_ring_free` advances `tail` before it stores the pointer, so a claim
that sees the new tail may read the pointer of the lap before (`stale_slot`). The
positions are counted without wrapping by `claims` and `stores`: a read is sound
when the position it claimed has been stored to (`Filled`).
-/
namespace Cmem.L2.RingBuffer

structure Ring where
  slotSize : Nat
  capacity : Nat
  mask : Nat
  head : Nat
  tail : Nat
  slots : Nat → Nat

/-- `while (real_cap < capacity) real_cap <<= 1`, in 64 bits; `none` when the loop
does not end, which `real_cap = 0` shows. -/
def roundUp (capacity : Nat) : Nat → Nat → Option Nat
  | 0, _ => none
  | fuel + 1, realCap =>
    if realCap < capacity then roundUp capacity fuel (realCap * 2 % 2 ^ 64) else some realCap

/-- mirrors src/src/cmem_ring_event.c:16-58. `buffer` is the payload storage,
`none` when an allocation fails. -/
def mpRingCreate (slotSize capacity : Nat) (buffer : Option Nat) : Option Ring :=
  if slotSize = 0 ∨ capacity = 0 then none
  else
    match roundUp capacity 65 1, buffer with
    | some realCap, some base =>
      some ⟨slotSize, realCap, realCap - 1, 0, realCap, fun i => (base + i * slotSize) % 2 ^ 64⟩
    | _, _ => none

/-- `CMEM_ATOMIC_FETCH_ADD(.., 1, ..)` on a `size_t`. -/
def bump (n : Nat) : Nat := (n + 1) % 2 ^ 64

/-- mirrors src/src/cmem_ring_event.c:65-78. The claim is not undone when the ring
is empty. -/
def mpRingAlloc (r : Ring) : Ring × Option Nat :=
  ({ r with head := bump r.head },
    if r.head ≥ r.tail then none else some (r.slots (r.head &&& r.mask)))

/-- mirrors src/src/cmem_ring_event.c:86-94. -/
def mpRingFree (r : Ring) (ptr : Nat) : Ring × Bool :=
  if ptr = 0 then (r, false)
  else ({ r with tail := bump r.tail, slots := Function.update r.slots (r.tail &&& r.mask) ptr },
    true)

/-! ## The two threads -/

/-- The thread in `mp_ring_alloc`: `head` is its local variable. -/
inductive Producer where
  | idle
  | claimed (head : Nat)
  | ready (head : Nat)
  deriving DecidableEq, Repr

/-- The thread in `mp_ring_free`, with its local `tail`. -/
inductive Consumer where
  | idle
  | reserved (tail ptr : Nat)
  deriving DecidableEq, Repr

/-- `held`: the slots handed out and not yet stored back. -/
structure State where
  ring : Ring
  producer : Producer
  consumer : Consumer
  held : List Nat
  claims : Nat
  stores : Nat

inductive Act where
  | claim
  | check
  | read
  | reserve (ptr : Nat)
  | store
  deriving DecidableEq, Repr

/-- The consumer returns slots it received, one call at a time. -/
def State.pre (s : State) : Act → Prop
  | .claim => s.producer = .idle
  | .check => ∃ h, s.producer = .claimed h
  | .read => ∃ h, s.producer = .ready h
  | .reserve p => s.consumer = .idle ∧ p ≠ 0 ∧ p ∈ s.held
  | .store => ∃ t p, s.consumer = .reserved t p

def State.step (s : State) : Act → State
  | .claim =>
    { s with ring := { s.ring with head := bump s.ring.head }, producer := .claimed s.ring.head,
             claims := s.claims + 1 }
  | .check =>
    match s.producer with
    | .claimed h => { s with producer := if h ≥ s.ring.tail then .idle else .ready h }
    | _ => s
  | .read =>
    match s.producer with
    | .ready h => { s with producer := .idle, held := s.ring.slots (h &&& s.ring.mask) :: s.held }
    | _ => s
  | .reserve p =>
    { s with ring := { s.ring with tail := bump s.ring.tail }, consumer := .reserved s.ring.tail p }
  | .store =>
    match s.consumer with
    | .reserved t p =>
      { s with ring := { s.ring with slots := Function.update s.ring.slots (t &&& s.ring.mask) p },
               consumer := .idle, held := s.held.erase p, stores := s.stores + 1 }
    | .idle => s

def State.start (r : Ring) : State := ⟨r, .idle, .idle, [], 0, 0⟩

def system : LTS State Act :=
  .det (fun s => ∃ slotSize capacity buffer r, mpRingCreate slotSize capacity buffer = some r ∧
    s = .start r)
    State.pre State.step

/-- The slots of the buffer do not wrap around, and the position the producer reads
has been stored to: as many slots have been put in as were claimed. -/
def Filled (s : State) : Act → Prop
  | .read => s.ring.slotSize * s.ring.capacity < 2 ^ 64 ∧ s.claims ≤ s.ring.capacity + s.stores
  | _ => True

/-! ## The calls -/

/-- A claim without a step of the consumer in between is `mp_ring_alloc`. -/
theorem alloc_steps {s : State} (h : s.producer = .idle) :
    match mpRingAlloc s.ring with
    | (r, none) => ((s.step .claim).step .check) = { s with ring := r, claims := s.claims + 1 }
    | (r, some p) => (((s.step .claim).step .check).step .read) =
        { s with ring := r, held := p :: s.held, claims := s.claims + 1 } := by
  obtain ⟨r, pr, co, he, cl, st⟩ := s
  subst h
  unfold mpRingAlloc
  by_cases hfull : r.head ≥ r.tail
  · simp [State.step, hfull]
  · simp [State.step, hfull]

/-- A return without a step of the producer in between is `mp_ring_free`. -/
theorem free_steps {s : State} {p : Nat} (h : s.consumer = .idle) (hp : p ≠ 0) :
    ((s.step (.reserve p)).step .store) =
      { s with
        ring := (mpRingFree s.ring p).1, held := s.held.erase p, stores := s.stores + 1 } := by
  obtain ⟨r, pr, co, he, cl, st⟩ := s
  subst h
  simp [State.step, mpRingFree, hp]

/-! ## Positions -/

theorem roundUp_pow {capacity fuel k n : Nat} (hk : k + fuel ≤ 65)
    (h : roundUp capacity fuel (2 ^ k % 2 ^ 64) = some n) (hc : capacity ≠ 0) :
    ∃ k, k < 64 ∧ n = 2 ^ k ∧ capacity ≤ n := by
  induction fuel generalizing k with
  | zero => cases h
  | succ fuel ih =>
    unfold roundUp at h
    split at h
    · refine ih (by omega) (k := k + 1) ?_
      rwa [Nat.mod_mul_mod, ← Nat.pow_succ] at h
    · rename_i hge
      injection h with h
      by_cases hlt : k < 64
      · have := Nat.pow_lt_pow_right (show 1 < 2 by decide) hlt
        rw [Nat.mod_eq_of_lt this] at h hge
        exact ⟨k, hlt, h.symm, by omega⟩
      · rw [Nat.mod_eq_zero_of_dvd (Nat.pow_dvd_pow 2 (by omega))] at hge
        omega

/-- What `mp_ring_create` gives. -/
theorem mpRingCreate_some {slotSize capacity : Nat} {buffer : Option Nat} {r : Ring}
    (h : mpRingCreate slotSize capacity buffer = some r) :
    ∃ base k, buffer = some base ∧ k < 64 ∧ slotSize ≠ 0 ∧ capacity ≤ 2 ^ k ∧
      r = ⟨slotSize, 2 ^ k, 2 ^ k - 1, 0, 2 ^ k, fun i => (base + i * slotSize) % 2 ^ 64⟩ := by
  unfold mpRingCreate at h
  split at h
  · cases h
  · rename_i hne
    cases hr : roundUp capacity 65 1 with
    | none => rw [hr] at h; cases h
    | some n =>
      cases buffer with
      | none => rw [hr] at h; cases h
      | some base =>
        rw [hr] at h
        injection h with h
        obtain ⟨k, hk, rfl, hc⟩ := roundUp_pow (k := 0) (by omega) hr (by omega)
        exact ⟨base, k, rfl, hk, by omega, hc, h.symm⟩

/-- A cursor masked is the position masked, across the wrap of the cursor. -/
theorem cursor_mask (n k : Nat) (hk : k ≤ 64) : n % 2 ^ 64 &&& (2 ^ k - 1) = n % 2 ^ k := by
  rw [Nat.and_two_pow_sub_one_eq_mod, Nat.mod_mod_of_dvd _ (Nat.pow_dvd_pow 2 hk)]

theorem bump_mod (n : Nat) : bump (n % 2 ^ 64) = (n + 1) % 2 ^ 64 := by
  unfold bump
  rw [Nat.mod_add_mod]

/-- Positions of one lap have different slots. -/
theorem lap_ne {i j c : Nat} (h : i < j) (hc : j - i < c) : i % c ≠ j % c := by
  intro he
  have hz := Nat.sub_mod_eq_zero_of_mod_eq he.symm
  rw [Nat.mod_eq_of_lt hc] at hz
  omega

/-! ## The invariant -/

/-- The first position that no finished call of `mp_ring_alloc` has consumed. -/
def State.low (s : State) : Nat :=
  match s.producer with
  | .idle => s.claims
  | _ => s.claims - 1

/-- Behind the last position stored to. -/
def State.high (s : State) : Nat := s.ring.capacity + s.stores

/-- The pointer stored at a position. -/
def State.at (s : State) (i : Nat) : Nat := s.ring.slots (i % s.ring.capacity)

structure Cursors (k : Nat) (s : State) : Prop where
  pow : k < 64
  capacity : s.ring.capacity = 2 ^ k
  mask : s.ring.mask = 2 ^ k - 1
  head : s.ring.head = s.claims % 2 ^ 64
  tail : s.ring.tail = (s.high + if s.consumer = .idle then 0 else 1) % 2 ^ 64
  claim : ∀ h, s.producer = .claimed h ∨ s.producer = .ready h →
    h = (s.claims - 1) % 2 ^ 64 ∧ 0 < s.claims
  reserve : ∀ t p, s.consumer = .reserved t p → t = s.high % 2 ^ 64 ∧ p ∈ s.held

/-- Between `low` and `high` stand the slots that are not held, each once. -/
structure Slots (s : State) : Prop where
  held : s.held.Nodup
  distinct : ∀ i j, s.low ≤ i → i < j → j < s.high → s.at i ≠ s.at j
  free : ∀ i, s.low ≤ i → i < s.high → s.at i ∉ s.held
  count : s.stores + s.held.length ≤ s.low

def Inv (s : State) : Prop :=
  (∃ k, Cursors k s) ∧ (s.ring.slotSize * s.ring.capacity < 2 ^ 64 → Slots s)

section Inv
variable {s : State} {k : Nat}

theorem start_inv {slotSize capacity : Nat} {buffer : Option Nat} {r : Ring}
    (h : mpRingCreate slotSize capacity buffer = some r) : Inv (.start r) := by
  obtain ⟨base, k, -, hk, hs, -, rfl⟩ := mpRingCreate_some h
  have hcap : 2 ^ k < 2 ^ 64 := Nat.pow_lt_pow_right (by decide) hk
  refine ⟨⟨k, hk, rfl, rfl, rfl, (Nat.mod_eq_of_lt hcap).symm, nofun, nofun⟩,
    fun hfit => ⟨.nil, ?_, nofun, Nat.le_refl _⟩⟩
  -- the slots of the first lap lie one behind the other
  intro i j _ hij hj
  simp only [State.start, State.high, Nat.add_zero, State.at] at *
  rw [Nat.mod_eq_of_lt hj, Nat.mod_eq_of_lt (show i < 2 ^ k by omega)]
  have hmul : i * slotSize < j * slotSize := Nat.mul_lt_mul_of_pos_right hij (by omega)
  have hle : j * slotSize ≤ 2 ^ k * slotSize := Nat.mul_le_mul_right _ (by omega)
  rw [Nat.mul_comm] at hfit
  exact lap_ne (show base + i * slotSize < base + j * slotSize by omega) (by omega)

theorem Cursors.step (h : Cursors k s) {l : Act} (hp : s.pre l) : Cursors k (s.step l) := by
  obtain ⟨hpow, hcap, hmask, hhead, htail, hclaim, hres⟩ := h
  cases l with
  | claim =>
    refine ⟨hpow, hcap, hmask, ?_, htail, ?_, hres⟩
    · simp only [State.step]
      rw [hhead, bump_mod]
    · rintro h (hh | hh)
      · injection hh with hh
        exact ⟨by rw [← hh, hhead]; rfl, Nat.succ_pos _⟩
      · cases hh
  | check =>
    obtain ⟨h, hh⟩ := hp
    have := hclaim h (.inl hh)
    simp only [State.step, hh]
    refine ⟨hpow, hcap, hmask, hhead, htail, ?_, hres⟩
    rintro h' (he | he) <;> dsimp only at he <;> split at he <;> cases he
    exact this
  | read =>
    obtain ⟨h, hh⟩ := hp
    simp only [State.step, hh]
    exact ⟨hpow, hcap, hmask, hhead, htail, nofun,
      fun t p ht => ⟨(hres t p ht).1, .tail _ (hres t p ht).2⟩⟩
  | reserve p =>
    obtain ⟨hidle, -, hmem⟩ := hp
    rw [if_pos hidle, Nat.add_zero] at htail
    refine ⟨hpow, hcap, hmask, hhead, ?_, hclaim, ?_⟩
    · show bump s.ring.tail = (s.high + 1) % 2 ^ 64
      rw [htail, bump_mod]
    · rintro t q ht
      injection ht with h1 h2
      subst h1 h2
      exact ⟨htail, hmem⟩
  | store =>
    obtain ⟨t, p, ht⟩ := hp
    simp only [State.step, ht]
    refine ⟨hpow, hcap, hmask, hhead, ?_, hclaim, nofun⟩
    simpa [ht, State.high, Nat.add_assoc] using htail

theorem Cursors.at_read (h : Cursors k s) {c : Nat} (hc : s.producer = .ready c) :
    s.ring.slots (c &&& s.ring.mask) = s.at s.low := by
  obtain ⟨he, -⟩ := h.claim c (.inr hc)
  rw [he, h.mask, cursor_mask _ _ (Nat.le_of_lt h.pow), State.at, State.low, hc, h.capacity]

/-- The producer gives a position up. -/
theorem Slots.mono (h : Slots s) {s' : State} (hr : s'.ring.slots = s.ring.slots)
    (hc : s'.ring.capacity = s.ring.capacity) (hh : s'.held = s.held) (hs : s'.stores = s.stores)
    (hl : s.low ≤ s'.low) : Slots s' := by
  have hat : ∀ i, s'.at i = s.at i := fun i => by unfold State.at; rw [hr, hc]
  have hhigh : s'.high = s.high := by unfold State.high; rw [hc, hs]
  refine ⟨by rw [hh]; exact h.held, fun i j hi hij hj => ?_, fun i hi hlt => ?_, ?_⟩
  · rw [hat, hat]
    exact h.distinct i j (by omega) hij (by omega)
  · rw [hat, hh]
    exact h.free i (by omega) (by omega)
  · have := h.count
    rw [hh, hs]
    omega

/-- A read of a position stored to takes a slot that is not held. -/
theorem Slots.read (h : Slots s) (hk : Cursors k s) {c : Nat} (hc : s.producer = .ready c)
    (hfill : s.claims ≤ s.high) :
    s.ring.slots (c &&& s.ring.mask) ∉ s.held ∧ Slots (s.step .read) := by
  have hpos := (hk.claim c (.inr hc)).2
  have hlow : s.low + 1 = s.claims := by simp only [State.low, hc]; omega
  have hlow' : (s.step .read).low = s.low + 1 := by simp [State.step, hc, State.low]; omega
  have hnew : s.ring.slots (c &&& s.ring.mask) ∉ s.held := by
    rw [hk.at_read hc]
    exact h.free _ (Nat.le_refl _) (by omega)
  have hheld : (s.step .read).held = s.at s.low :: s.held := by
    simp only [State.step, hc]; rw [← hk.at_read hc]
  have hat : ∀ i, (s.step .read).at i = s.at i := fun i => by simp [State.step, hc, State.at]
  have hhigh : (s.step .read).high = s.high := by simp [State.step, hc, State.high]
  refine ⟨hnew, ?_, fun i j hi hij hj => ?_, fun i hi hlt => ?_, ?_⟩
  · rw [hheld, List.nodup_cons, ← hk.at_read hc]
    exact ⟨hnew, h.held⟩
  · rw [hat, hat]
    exact h.distinct i j (by omega) hij (by omega)
  · rw [hat, hheld, List.mem_cons, not_or]
    exact ⟨(h.distinct _ i (Nat.le_refl _) (by omega) (by omega)).symm,
      h.free i (by omega) (by omega)⟩
  · have hst : (s.step .read).stores = s.stores := by simp [State.step, hc]
    have := h.count
    rw [hheld, hst, List.length_cons]
    omega

/-- A store puts a held slot behind the others. -/
theorem Slots.store (h : Slots s) (hk : Cursors k s) {t p : Nat} (ht : s.consumer = .reserved t p) :
    Slots (s.step .store) := by
  obtain ⟨hidx, hmem⟩ := hk.reserve t p ht
  have hlen := List.length_pos_of_mem hmem
  have hlow : (s.step .store).low = s.low := by simp only [State.step, ht, State.low]
  have hhigh : (s.step .store).high = s.high + 1 := by simp only [State.step, ht, State.high]; omega
  have hheld : (s.step .store).held = s.held.erase p := by simp only [State.step, ht]
  have hcount := h.count
  have hslot : t &&& s.ring.mask = s.high % s.ring.capacity := by
    rw [hidx, hk.mask, hk.capacity, cursor_mask _ _ (Nat.le_of_lt hk.pow)]
  have hself : (s.step .store).at s.high = p := by
    simp only [State.step, ht, State.at]
    rw [hslot, Function.update_self]
  -- the older positions are of the same lap
  have hother : ∀ i, s.low ≤ i → i < s.high → (s.step .store).at i = s.at i := by
    intro i hi hlt
    simp only [State.step, ht, State.at]
    rw [hslot, Function.update_of_ne (lap_ne hlt (by simp only [State.high] at *; omega))]
  refine ⟨by rw [hheld]; exact h.held.erase _, fun i j hi hij hj => ?_, fun i hi hlt => ?_, ?_⟩
  · rw [hother i (by omega) (by omega)]
    by_cases he : j = s.high
    · subst he
      rw [hself]
      exact fun e => h.free i (by omega) hij (by rw [e]; exact hmem)
    · rw [hother j (by omega) (by omega)]
      exact h.distinct i j (by omega) hij (by omega)
  · rw [hheld]
    by_cases he : i = s.high
    · subst he
      rw [hself]
      exact h.held.not_mem_erase
    · rw [hother i (by omega) (by omega)]
      exact fun e => h.free i (by omega) (by omega) (List.mem_of_mem_erase e)
  · have hst : (s.step .store).stores = s.stores + 1 := by simp only [State.step, ht]
    rw [hheld, hst, hlow, List.length_erase_of_mem hmem]
    omega

theorem step_sizes (s : State) (l : Act) :
    (s.step l).ring.slotSize = s.ring.slotSize ∧ (s.step l).ring.capacity = s.ring.capacity := by
  cases l with
  | claim => exact ⟨rfl, rfl⟩
  | reserve p => exact ⟨rfl, rfl⟩
  | check | read | store => simp only [State.step]; split <;> exact ⟨rfl, rfl⟩

theorem step_inv (h : Inv s) {l : Act} (hp : s.pre l) (hf : Filled s l) : Inv (s.step l) := by
  obtain ⟨⟨k, hk⟩, hs⟩ := h
  refine ⟨⟨k, hk.step hp⟩, ?_⟩
  rw [(step_sizes s l).1, (step_sizes s l).2]
  intro hfit
  specialize hs hfit
  cases l with
  | claim =>
    exact hs.mono rfl rfl rfl rfl
      (by rw [State.low, show s.producer = .idle from hp]; exact Nat.le_refl _)
  | check =>
    obtain ⟨h, hh⟩ := hp
    refine hs.mono ?_ ?_ ?_ ?_ ?_ <;> simp only [State.step, hh, State.low]
    split <;> omega
  | read =>
    obtain ⟨h, hh⟩ := hp
    exact (hs.read hk hh hf.2).2
  | reserve p => exact hs.mono rfl rfl rfl rfl (Nat.le_refl _)
  | store =>
    obtain ⟨t, p, ht⟩ := hp
    exact hs.store hk ht

theorem inv_reachable : (system.guard Filled).Inductive Inv where
  init := by
    rintro s ⟨slotSize, capacity, buffer, r, hr, rfl⟩
    exact start_inv hr
  step := by
    rintro s l s' hi ⟨⟨hp, rfl⟩, hf⟩
    exact step_inv hi hp hf

/-- `mp_ring_alloc` never returns a slot that is still held, as long as no read is
of a position whose store is still to come. -/
theorem mpRingAlloc_fresh {s s' : State} (hr : (system.guard Filled).Reachable s)
    (hs : (system.guard Filled).step s .read s') : ∃ p, s'.held = p :: s.held ∧ p ∉ s.held := by
  obtain ⟨⟨hp, rfl⟩, hfit, hfill⟩ := hs
  obtain ⟨⟨k, hk⟩, hslots⟩ := inv_reachable.reachable hr
  obtain ⟨c, hc⟩ := hp
  exact ⟨_, by simp only [State.step, hc], ((hslots hfit).read hk hc hfill).1⟩

end Inv

/-- A ring of two slots of eight bytes. -/
def twoSlots : Ring := ⟨8, 2, 1, 0, 2, fun i => (4096 + i * 8) % 2 ^ 64⟩

theorem twoSlots_start : system.init (.start twoSlots) := ⟨8, 2, some 4096, twoSlots, rfl, rfl⟩

instance decPre (s : State) : (l : Act) → Decidable (s.pre l)
  | .claim => inferInstanceAs (Decidable (s.producer = .idle))
  | .check =>
    match h : s.producer with
    | .claimed c => .isTrue ⟨c, h⟩
    | .idle => .isFalse fun ⟨_, e⟩ => by rw [h] at e; cases e
    | .ready _ => .isFalse fun ⟨_, e⟩ => by rw [h] at e; cases e
  | .read =>
    match h : s.producer with
    | .ready c => .isTrue ⟨c, h⟩
    | .idle => .isFalse fun ⟨_, e⟩ => by rw [h] at e; cases e
    | .claimed _ => .isFalse fun ⟨_, e⟩ => by rw [h] at e; cases e
  | .reserve p => inferInstanceAs (Decidable (s.consumer = .idle ∧ p ≠ 0 ∧ p ∈ s.held))
  | .store =>
    match h : s.consumer with
    | .reserved t p => .isTrue ⟨t, p, h⟩
    | .idle => .isFalse fun ⟨_, _, e⟩ => by rw [h] at e; cases e

instance decFilled (s : State) : (l : Act) → Decidable (Filled s l)
  | .read =>
    inferInstanceAs (Decidable (s.ring.slotSize * s.ring.capacity < 2 ^ 64 ∧
      s.claims ≤ s.ring.capacity + s.stores))
  | .claim | .check | .reserve _ | .store => .isTrue trivial

/-- One slot is out and the other has come back, stored, when a third claim reads. -/
def returned : State :=
  [.claim, .check, .read, .claim, .check, .read, .reserve 4096, .claim, .check, .store].foldl
    State.step (.start twoSlots)

theorem mpRingAlloc_fresh_returned : ∃ s' p, s'.held = p :: returned.held ∧ p ∉ returned.held ∧
    returned.held = [4104] ∧ (system.guard Filled).step returned .read s' := by
  have hr : (system.guard Filled).Reachable returned :=
    LTS.Reachable.run (.init twoSlots_start) (by decide)
  have hs : (system.guard Filled).step returned .read (returned.step .read) :=
    ⟨⟨by decide, rfl⟩, by decide⟩
  obtain ⟨p, hp, hfresh⟩ := mpRingAlloc_fresh hr hs
  exact ⟨_, p, hp, hfresh, by decide, hs⟩

/-- Both slots are out, and the return of the second has advanced the tail, when a
third claim reads. -/
def returning : State :=
  [.claim, .check, .read, .claim, .check, .read, .reserve 4104, .claim, .check].foldl State.step
    (.start twoSlots)

/-- It reads the first slot again. -/
theorem stale_slot :
    ¬ ∀ s s', system.Reachable s → system.step s .read s' →
    ∃ p, s'.held = p :: s.held ∧ p ∉ s.held := by
  intro h
  have hr : (system.guard fun _ _ => True).Reachable returning :=
    LTS.Reachable.run (.init twoSlots_start) (by decide)
  obtain ⟨p, hp, hfresh⟩ := h returning (returning.step .read) hr.of_guard ⟨by decide, rfl⟩
  obtain rfl : p = 4096 :=
    (List.cons.inj
      (hp.symm.trans (show (returning.step .read).held = [4096, 4104, 4096] by decide))).1
  exact hfresh (by decide)

/-- The check compares with a tail that counts the slots put in and the one a return
in flight is about to store. -/
def Checked (s : State) : Prop :=
  ∀ h, s.producer = .ready h → s.claims ≤ 2 ^ 64 →
  s.claims ≤ s.high + if s.consumer = .idle then 0 else 1

theorem checked_reachable : system.Inductive fun s => (∃ k, Cursors k s) ∧ Checked s where
  init := by
    rintro s ⟨slotSize, capacity, buffer, r, hr, rfl⟩
    exact ⟨(start_inv hr).1, nofun⟩
  step := by
    rintro s l s' ⟨⟨k, hk⟩, hc⟩ ⟨hp, rfl⟩
    refine ⟨⟨k, hk.step hp⟩, ?_⟩
    cases l with
    | claim => exact nofun
    | check =>
      obtain ⟨h, hh⟩ := hp
      obtain ⟨he, hpos⟩ := hk.claim h (.inl hh)
      simp only [State.step, hh]
      intro h' hr hle
      dsimp only at hr hle ⊢
      split at hr
      · cases hr
      · rename_i hlt
        rw [he, hk.tail, Nat.mod_eq_of_lt (by omega)] at hlt
        have := Nat.mod_le (s.high + if s.consumer = .idle then 0 else 1) (2 ^ 64)
        simp only [State.high] at *
        omega
    | read =>
      obtain ⟨h, hh⟩ := hp
      simp only [State.step, hh]
      exact nofun
    | reserve p =>
      intro h hr hle
      have := hc h hr hle
      rw [if_pos hp.1] at this
      exact Nat.le_succ_of_le this
    | store =>
      obtain ⟨t, p, ht⟩ := hp
      simp only [State.step, ht]
      intro h hr hle
      have := hc h hr hle
      rw [if_neg (by rw [ht]; exact nofun)] at this
      rw [if_pos rfl]
      simp only [State.high] at *
      omega

/-- Up to 2^64 claims, only a return caught between its two steps lets a read come too
early. -/
theorem filled_of_idle {s : State} (hr : system.Reachable s) (hp : s.pre .read)
    (hc : s.consumer = .idle) (hfit : s.ring.slotSize * s.ring.capacity < 2 ^ 64)
    (hle : s.claims ≤ 2 ^ 64) : Filled s .read := by
  obtain ⟨h, hh⟩ := hp
  have := (checked_reachable.reachable hr).2 h hh hle
  rw [if_pos hc] at this
  exact ⟨hfit, this⟩

end Cmem.L2.RingBuffer

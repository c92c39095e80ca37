import Mathlib
import Cmem.L2Ring.Ring

/-!
# The event log

`mp_event_log_record`, `mp_event_log_consume`, `mp_event_log_pending` and
`mp_event_log_clear` (src/src/cmem_ring_event.c:164-234) over the slot ring, called
by one thread. The payload starts with whatever `posix_memalign` gives, so the
contents of a slot are part of the state from the start.

Both ends take their slot with `mp_ring_alloc`, and none is ever returned: a
consume reads the next slot that nothing was recorded in. What is left of the
contract without such a consume is `Law`.
-/
namespace Cmem.L2.EventLog
open RingBuffer

/-- `mp_event_log_entry_t`. -/
structure Entry where
  timestampNs : Nat
  eventType : Nat
  size : Nat
  ptr : Nat
  deriving DecidableEq, Repr

structure Log where
  ring : Option Ring
  capacity : Nat
  count : Nat

/-- `sizeof(mp_event_log_entry_t)`. -/
def entrySize : Nat := 32

/-- mirrors src/src/cmem_ring_event.c:123-138. -/
def mpEventLogCreate (capacity : Nat) (buffer : Option Nat) : Option Log :=
  match mpRingCreate entrySize capacity buffer with
  | some r => some ⟨some r, capacity, 0⟩
  | none => none

/-- mirrors src/src/cmem_ring_event.c:164-185. `mem` holds the entries, by slot. -/
def mpEventLogRecord (log : Log) (mem : Nat → Entry) (e : Entry) : Log × (Nat → Entry) × Bool :=
  match log.ring with
  | none => (log, mem, false)
  | some r =>
    match mpRingAlloc r with
    | (r', none) => ({ log with ring := some r' }, mem, false)
    | (r', some slot) =>
      ({ log with ring := some r', count := (log.count + 1) % 2 ^ 64 },
        Function.update mem slot e, true)

/-- mirrors src/src/cmem_ring_event.c:193-207. -/
def mpEventLogConsume (log : Log) (mem : Nat → Entry) : Log × Option Entry :=
  match log.ring with
  | none => (log, none)
  | some r =>
    match mpRingAlloc r with
    | (r', none) => ({ log with ring := some r' }, none)
    | (r', some slot) =>
      ({ log with ring := some r', count := (log.count + (2 ^ 64 - 1)) % 2 ^ 64 }, some (mem slot))

/-- mirrors src/src/cmem_ring_event.c:214-220. -/
def mpEventLogPending (log : Log) : Nat := log.count

/-- mirrors src/src/cmem_ring_event.c:226-234. -/
def mpEventLogClear (log : Log) (buffer : Option Nat) : Log :=
  { log with ring := mpRingCreate entrySize log.capacity buffer, count := 0 }

/-- `recorded` and `consumed`: the successful calls since the log was last cleared. -/
structure State where
  log : Log
  mem : Nat → Entry
  recorded : List Entry
  consumed : List Entry

/-- A clear gets new storage, or none, with contents of its own. -/
inductive Act where
  | record (e : Entry)
  | consume
  | clear (buffer : Option Nat) (mem : Nat → Entry)

def State.step (s : State) : Act → State
  | .record e =>
    match mpEventLogRecord s.log s.mem e with
    | (log, mem, ok) =>
      { s with log := log, mem := mem, recorded := if ok then s.recorded ++ [e] else s.recorded }
  | .consume =>
    match mpEventLogConsume s.log s.mem with
    | (log, got) => { s with log := log, consumed := s.consumed ++ got.toList }
  | .clear buffer mem => ⟨mpEventLogClear s.log buffer, mem, [], []⟩

def system : LTS State Act :=
  .det (fun s => ∃ capacity buffer log mem, mpEventLogCreate capacity buffer = some log ∧
    s = ⟨log, mem, [], []⟩)
    (fun _ _ => True) State.step

/-- A FIFO of `capacity` events: the consumes gave the first of the recorded events, in
order; the others are pending; while they are fewer than the capacity, a record
succeeds. -/
structure Law (s : State) : Prop where
  order : s.consumed <+: s.recorded
  pending : mpEventLogPending s.log + s.consumed.length = s.recorded.length
  room : s.recorded.length < s.consumed.length + s.log.capacity →
    ∀ e, (mpEventLogRecord s.log s.mem e).2.2 = true

/-- A ring with a slot to give, the first that nothing was recorded in. -/
def Log.open (log : Log) : Prop := ∃ r, log.ring = some r ∧ r.head < r.tail

/-- No consume while the ring has a slot to give, memory for every clear, and fewer
than 2^64 - 1 events pending at a record. -/
def Careful (s : State) : Act → Prop
  | .record _ => s.log.count + 1 < 2 ^ 64
  | .consume => ¬ s.log.open
  | .clear buffer _ => (mpRingCreate entrySize s.log.capacity buffer).isSome

/-! ## The invariant -/

/-- The head counts the pending events until the ring is used up. -/
structure Inv (s : State) : Prop where
  consumed : s.consumed = []
  count : s.log.count = s.recorded.length
  ring : ∃ r, s.log.ring = some r ∧ s.log.capacity ≤ r.tail ∧ r.tail < 2 ^ 64 ∧
    (r.head < r.tail ∧ s.recorded.length = r.head ∨ r.tail ≤ s.recorded.length)

section Inv
variable {s : State}

theorem create_inv {capacity : Nat} {buffer : Option Nat} {r : Ring} (mem : Nat → Entry)
    (h : mpRingCreate entrySize capacity buffer = some r) :
    Inv ⟨⟨some r, capacity, 0⟩, mem, [], []⟩ := by
  obtain ⟨base, k, -, hk, -, hle, rfl⟩ := mpRingCreate_some h
  exact ⟨rfl, rfl, _, rfl, hle, Nat.pow_lt_pow_right (by decide) hk, .inl ⟨Nat.two_pow_pos k, rfl⟩⟩

theorem Inv.law (h : Inv s) : Law s := by
  obtain ⟨hc, hcount, r, hr, hcap, hlt, hhead⟩ := h
  refine ⟨by rw [hc]; exact List.nil_prefix, by rw [hc, mpEventLogPending, hcount]; rfl,
    fun hroom e => ?_⟩
  rw [hc, List.length_nil, Nat.zero_add] at hroom
  have hfree : ¬ r.head ≥ r.tail := by omega
  simp [mpEventLogRecord, hr, mpRingAlloc, hfree]

theorem Inv.record (h : Inv s) (e : Entry) (hc : s.log.count + 1 < 2 ^ 64) :
    Inv (s.step (.record e)) := by
  obtain ⟨hcons, hcount, r, hr, hcap, hlt, hhead⟩ := h
  by_cases hfull : r.head ≥ r.tail
  · simp only [State.step, mpEventLogRecord, hr, mpRingAlloc, if_pos hfull]
    exact ⟨hcons, hcount, _, rfl, hcap, hlt, .inr (show r.tail ≤ s.recorded.length by omega)⟩
  · simp only [State.step, mpEventLogRecord, hr, mpRingAlloc, if_neg hfull]
    refine ⟨hcons, ?_, _, rfl, hcap, hlt, ?_⟩
    · show (s.log.count + 1) % 2 ^ 64 = (s.recorded ++ [e]).length
      rw [Nat.mod_eq_of_lt hc, hcount, List.length_append]
      rfl
    · show bump r.head < r.tail ∧ (s.recorded ++ [e]).length = bump r.head ∨
        r.tail ≤ (s.recorded ++ [e]).length
      rw [List.length_append, List.length_singleton, bump, Nat.mod_eq_of_lt (by omega)]
      omega

theorem Inv.consume (h : Inv s) (ho : ¬ s.log.open) : Inv (s.step .consume) := by
  obtain ⟨hcons, hcount, r, hr, hcap, hlt, hhead⟩ := h
  have hfull : r.head ≥ r.tail := Nat.le_of_not_lt fun hno => ho ⟨r, hr, hno⟩
  simp only [State.step, mpEventLogConsume, hr, mpRingAlloc, if_pos hfull, Option.toList,
    List.append_nil]
  exact ⟨hcons, hcount, _, rfl, hcap, hlt, .inr (show r.tail ≤ s.recorded.length by omega)⟩

theorem inv_reachable : (system.guard Careful).Inductive Inv where
  init := by
    rintro s ⟨capacity, buffer, log, mem, hcr, rfl⟩
    unfold mpEventLogCreate at hcr
    split at hcr
    · rename_i r hr
      injection hcr with hcr
      subst hcr
      exact create_inv mem hr
    · cases hcr
  step := by
    rintro s l s' hi ⟨⟨-, rfl⟩, hc⟩
    cases l with
    | record e => exact hi.record e hc
    | consume => exact hi.consume hc
    | clear buffer mem =>
      obtain ⟨r, hr⟩ := Option.isSome_iff_exists.mp hc
      simp only [State.step, mpEventLogClear, hr]
      exact create_inv mem hr

end Inv

/-- Without a consume that takes a slot the log keeps its contract. -/
theorem event_log_fifo {s : State} (hr : (system.guard Careful).Reachable s) : Law s :=
  (inv_reachable.reachable hr).law

/-- A log of two events over zeroed storage. -/
def fresh : State :=
  ⟨⟨some ⟨32, 2, 1, 0, 2, fun i => (4096 + i * 32) % 2 ^ 64⟩, 2, 0⟩, fun _ => ⟨0, 0, 0, 0⟩, [], []⟩

theorem fresh_init : system.init fresh := ⟨2, some 4096, _, _, rfl, rfl⟩

theorem event_log_fifo_two : ∃ s, Law s ∧ s.recorded = [⟨1, 0, 64, 8192⟩, ⟨2, 1, 64, 8192⟩] ∧
    (system.guard Careful).Reachable s := by
  have hr : (system.guard Careful).Reachable
      ((fresh.step (.record ⟨1, 0, 64, 8192⟩)).step (.record ⟨2, 1, 64, 8192⟩)) :=
    .step (.record _)
      (.step (.record _) (.init fresh_init) ⟨⟨trivial, rfl⟩, show 0 + 1 < 2 ^ 64 by decide⟩)
      ⟨⟨trivial, rfl⟩, show 1 + 1 < 2 ^ 64 by decide⟩
  exact ⟨_, event_log_fifo hr, by decide, hr⟩

/-- One event is recorded. The consume reads the slot behind it and gives its zeros. -/
theorem consume_skips : ¬ ∀ s, system.Reachable s → Law s := by
  intro h
  have hr : system.Reachable ((fresh.step (.record ⟨1, 0, 64, 8192⟩)).step .consume) :=
    .step _ (.step _ (.init fresh_init) ⟨trivial, rfl⟩) ⟨trivial, rfl⟩
  exact absurd (h _ hr).order (by decide)

end Cmem.L2.EventLog

import Mathlib
import Cmem.Core.LTS
import Cmem.Core.Links

/-!
# The typed pool

`mp_typed_pool_create`, `mp_typed_alloc` and `mp_typed_free` (src/src/cmem_ring_event.c:288-364):
objects of one size in one buffer, and a free list through their first words. A user may write
an object that he holds, so the links are those that `mp_typed_free` has written last.
-/
namespace Cmem.L2.Typed

/-- The words of the memory. -/
abbrev Mem := Nat → Nat

structure TypedPool where
  elemSize : Nat
  capacity : Nat
  activeCount : Nat
  rawBuf : Nat
  freeList : Nat

/-- The size of an object with its padding. -/
def realElemSize (elemSize : Nat) : Nat :=
  ((if elemSize < 8 then 8 else elemSize) + 7) % 2 ^ 64 / 8 * 8

/-- `base + i * real_elem_sz` -/
def objectAt (base size i : Nat) : Nat := (base + i * size) % 2 ^ 64

/-- The stores of the loop and the one behind it: where and what. -/
def links (base size capacity : Nat) : List (Nat × Nat) :=
  (List.range (capacity - 1)).map (fun i => (objectAt base size i, objectAt base size (i + 1))) ++
    [(objectAt base size (capacity - 1), 0)]

def storeAll (m : Mem) (ws : List (Nat × Nat)) : Mem :=
  ws.foldl (fun m w => Function.update m w.1 w.2) m

/-- mirrors `mp_typed_pool_create`, src/src/cmem_ring_event.c:288-329; `header` tells whether
`calloc` gives the pool, `buffer` is what `posix_memalign` gives. -/
def mpTypedPoolCreate (elemSize capacity : Nat) (header : Bool) (buffer : Option Nat) (m : Mem) :
    Option TypedPool × Mem :=
  if elemSize = 0 ∨ capacity = 0 ∨ header = false then (none, m)
  else
    match buffer with
    | none => (none, m)
    | some base =>
      (some ⟨realElemSize elemSize, capacity, 0, base, base⟩,
        storeAll m (links base (realElemSize elemSize) capacity))

/-- mirrors `mp_typed_alloc`, src/src/cmem_ring_event.c:336-347 -/
def mpTypedAlloc (t : TypedPool) (m : Mem) : TypedPool × Option Nat :=
  if t.freeList = 0 then (t, none)
  else ({ t with freeList := m t.freeList, activeCount := (t.activeCount + 1) % 2 ^ 64 },
    some t.freeList)

/-- mirrors `mp_typed_free`, src/src/cmem_ring_event.c:354-364 -/
def mpTypedFree (t : TypedPool) (m : Mem) (ptr : Nat) : TypedPool × Mem :=
  if ptr = 0 then (t, m)
  else ({ t with freeList := ptr, activeCount := t.activeCount - 1 },
    Function.update m ptr t.freeList)

/-! ## Runs -/

structure State where
  pool : TypedPool
  mem : Mem
  held : List Nat

inductive Act where
  | alloc
  | free (ptr : Nat)
  /-- The first word of an object; the others are not read here. -/
  | write (ptr v : Nat)

namespace State

/-- Only objects that are held are freed and written. -/
def pre (s : State) : Act → Prop
  | .alloc => True
  | .free p | .write p _ => p ∈ s.held

def next (s : State) : Act → State
  | .alloc =>
    match mpTypedAlloc s.pool s.mem with
    | (t, some p) => { s with pool := t, held := p :: s.held }
    | (t, none) => { s with pool := t }
  | .free p => ⟨(mpTypedFree s.pool s.mem p).1, (mpTypedFree s.pool s.mem p).2, s.held.erase p⟩
  | .write p v => { s with mem := Function.update s.mem p v }

/-- A new pool whose objects fit in the address space. -/
def Start (s : State) : Prop :=
  ∃ elemSize capacity base m, mpTypedPoolCreate elemSize capacity true (some base) m =
    (some s.pool, s.mem) ∧ (max elemSize 8 + 7) / 8 * 8 * capacity < 2 ^ 64 ∧ 0 < base ∧
    base + (max elemSize 8 + 7) / 8 * 8 * capacity ≤ 2 ^ 64 ∧ s.held = []

end State

def system : LTS State Act := .det State.Start State.pre State.next

/-- The objects of the buffer. -/
def objects (t : TypedPool) : List Nat :=
  (List.range t.capacity).map fun i => t.rawBuf + i * t.elemSize

/-- The free list ends and has exactly the objects that are not held, and `active_count` is the
number of the others. -/
def ListSound (s : State) : Prop :=
  ∃ l, Chain s.mem s.pool.freeList l ∧ l.Nodup ∧ (∀ a, a ∈ l ↔ a ∈ objects s.pool ∧ a ∉ s.held) ∧
    s.pool.activeCount + l.length = s.pool.capacity

/-- What `mp_typed_alloc` returns is an object of the buffer that is not held, and nothing
exactly when all objects are held. -/
def AllocSound (s : State) : Prop :=
  (∀ p, (mpTypedAlloc s.pool s.mem).2 = some p →
    (∃ i, i < s.pool.capacity ∧ p = s.pool.rawBuf + i * s.pool.elemSize) ∧ p ∉ s.held) ∧
  ((mpTypedAlloc s.pool s.mem).2 = none ↔ ∀ a ∈ objects s.pool, a ∈ s.held)

/-! ## The invariant -/

structure Inv (s : State) : Prop where
  nodup : (objects s.pool).Nodup
  nonzero : 0 ∉ objects s.pool
  count : s.pool.activeCount = s.held.length
  small : s.pool.capacity < 2 ^ 64
  list : ∃ l, Chain s.mem s.pool.freeList l ∧ (l ++ s.held).Perm (objects s.pool)

section Inv
variable {s : State} {p v : Nat}

theorem Inv.parts (h : Inv s) {l : List Nat} (hl : (l ++ s.held).Perm (objects s.pool)) :
    l.Nodup ∧ s.held.Nodup ∧ (∀ a, a ∈ l ↔ a ∈ objects s.pool ∧ a ∉ s.held) := by
  have hn := hl.nodup_iff.mpr h.nodup
  obtain ⟨h1, h2, hd⟩ := List.nodup_append.mp hn
  refine ⟨h1, h2, fun a => ?_⟩
  rw [← hl.mem_iff, List.mem_append]
  constructor
  · intro ha
    exact ⟨.inl ha, fun hm => hd a ha a hm rfl⟩
  · rintro ⟨ha | ha, hno⟩
    · exact ha
    · exact absurd ha hno

theorem objects_length (t : TypedPool) : (objects t).length = t.capacity := by
  rw [objects, List.length_map, List.length_range]

theorem Inv.listSound (h : Inv s) : ListSound s := by
  obtain ⟨l, hc, hl⟩ := h.list
  obtain ⟨hn, -, hm⟩ := h.parts hl
  refine ⟨l, hc, hn, hm, ?_⟩
  have hlen := hl.length_eq
  rw [List.length_append, objects_length] at hlen
  rw [h.count, Nat.add_comm]
  exact hlen

theorem Inv.allocSound (h : Inv s) : AllocSound s := by
  obtain ⟨l, hc, hl⟩ := h.list
  obtain ⟨hn, -, hm⟩ := h.parts hl
  unfold AllocSound mpTypedAlloc
  by_cases h0 : s.pool.freeList = 0
  · rw [if_pos h0]
    refine ⟨nofun, iff_of_true rfl fun a ha => ?_⟩
    rw [h0] at hc
    by_contra hno
    have hmem : a ∈ l := (hm a).mpr ⟨ha, hno⟩
    rw [hc.eq_nil_of_zero] at hmem
    exact absurd hmem List.not_mem_nil
  · rw [if_neg h0]
    obtain ⟨l', rfl, -⟩ := hc.exists_cons h0
    have hfirst := (hm _).mp List.mem_cons_self
    refine ⟨fun p hp => ?_, iff_of_false nofun fun hall => hfirst.2 (hall _ hfirst.1)⟩
    obtain rfl := Option.some.inj hp
    refine ⟨?_, hfirst.2⟩
    obtain ⟨i, hi, he⟩ := List.mem_map.mp hfirst.1
    exact ⟨i, List.mem_range.mp hi, he.symm⟩

theorem Inv.alloc (h : Inv s) : Inv (s.next .alloc) := by
  obtain ⟨l, hc, hl⟩ := h.list
  unfold State.next mpTypedAlloc
  dsimp only
  by_cases h0 : s.pool.freeList = 0
  · rw [if_pos h0]
    exact h
  · rw [if_neg h0]
    obtain ⟨l', rfl, hc'⟩ := hc.exists_cons h0
    have hlen := hl.length_eq
    rw [List.length_append, objects_length, List.length_cons] at hlen
    have hsmall := h.small
    refine ⟨h.nodup, h.nonzero, ?_, h.small, l', hc', List.perm_middle.trans hl⟩
    show (s.pool.activeCount + 1) % 2 ^ 64 = s.held.length + 1
    rw [h.count]
    exact Nat.mod_eq_of_lt (by omega)

theorem Inv.free (h : Inv s) (hp : p ∈ s.held) : Inv (s.next (.free p)) := by
  obtain ⟨l, hc, hl⟩ := h.list
  obtain ⟨-, -, hm⟩ := h.parts hl
  have hobj : p ∈ objects s.pool := hl.mem_iff.mp (List.mem_append_right _ hp)
  have h0 : p ≠ 0 := fun e => h.nonzero (e ▸ hobj)
  unfold State.next mpTypedFree
  dsimp only
  rw [if_neg h0]
  have hlen := List.length_erase_of_mem hp
  refine ⟨h.nodup, h.nonzero, ?_, h.small, p :: l, hc.push h0 fun hin => ((hm p).mp hin).2 hp, ?_⟩
  · show s.pool.activeCount - 1 = (s.held.erase p).length
    rw [h.count, hlen]
  · exact (List.perm_middle.symm.trans ((List.perm_cons_erase hp).symm.append_left l)).trans hl

theorem Inv.write (h : Inv s) (hp : p ∈ s.held) : Inv (s.next (.write p v)) := by
  obtain ⟨l, hc, hl⟩ := h.list
  obtain ⟨-, -, hm⟩ := h.parts hl
  exact ⟨h.nodup, h.nonzero, h.count, h.small, l, hc.update fun hin => ((hm p).mp hin).2 hp, hl⟩

/-! ## A new pool -/

theorem realElemSize_eq {elemSize : Nat} (h : (max elemSize 8 + 7) / 8 * 8 < 2 ^ 64) :
    realElemSize elemSize = (max elemSize 8 + 7) / 8 * 8 := by
  unfold realElemSize
  split <;> omega

/-- The last store to a place is read. -/
theorem storeAll_mem {m : Mem} {ws : List (Nat × Nat)} (hn : (ws.map (·.1)).Nodup) {a : Nat}
    (ha : (a, v) ∈ ws) : storeAll m ws a = v := by
  have hkeep : ∀ {ws : List (Nat × Nat)} {m : Mem}, a ∉ ws.map (·.1) → storeAll m ws a = m a := by
    intro ws
    induction ws with
    | nil => exact fun _ => rfl
    | cons w ws ih =>
      intro m hno
      rw [List.map_cons, List.mem_cons, not_or] at hno
      exact (ih hno.2).trans (Function.update_of_ne hno.1 _ _)
  induction ws generalizing m with
  | nil => exact absurd ha List.not_mem_nil
  | cons w ws ih =>
    obtain ⟨hw, hn⟩ := List.nodup_cons.mp hn
    rcases List.mem_cons.mp ha with rfl | ha
    · exact (hkeep hw).trans (Function.update_self ..)
    · exact ih hn ha

/-- A new pool has all its objects on the free list. -/
theorem start_inv (h : s.Start) : Inv s := by
  obtain ⟨elemSize, capacity, base, m, hc, hfit, hbase, hend, hheld⟩ := h
  unfold mpTypedPoolCreate at hc
  split at hc
  · cases hc
  · rename_i hne
    obtain ⟨-, hcap0, -⟩ := not_or.mp hne |>.imp_right not_or.mp
    have hcap : 0 < capacity := Nat.pos_of_ne_zero hcap0
    generalize hz : (max elemSize 8 + 7) / 8 * 8 = size at hfit hend
    have hsize : realElemSize elemSize = size := by
      rw [← hz]
      refine realElemSize_eq (Nat.lt_of_le_of_lt ?_ hfit)
      rw [hz]
      exact Nat.le_mul_of_pos_right size hcap
    have hpos : 0 < size := by omega
    obtain ⟨hpool, hmem⟩ := Prod.mk.inj hc
    have hpool := Option.some.inj hpool
    have hobj : ∀ i, i < capacity → objectAt base size i = base + i * size := by
      intro i hi
      have hle : (i + 1) * size ≤ capacity * size := Nat.mul_le_mul_right _ hi
      rw [Nat.add_mul, Nat.one_mul, Nat.mul_comm capacity] at hle
      exact Nat.mod_eq_of_lt (by omega)
    have hinj : ∀ i j, base + i * size = base + j * size → i = j := fun i j hij =>
      Nat.eq_of_mul_eq_mul_right hpos (Nat.add_left_cancel hij)
    have hobjects : objects s.pool = (List.range capacity).map fun i => base + i * size := by
      rw [← hpool, objects, hsize]
    have hnodup : (objects s.pool).Nodup := by
      rw [hobjects]
      exact List.nodup_range.map hinj
    have hkeys : (links base size capacity).map (·.1) = objects s.pool := by
      rw [hobjects, links, List.map_append, List.map_map]
      conv => rhs; rw [show capacity = capacity - 1 + 1 by omega, List.range_succ, List.map_append]
      refine congrArg₂ _ (List.map_congr_left fun i hi => ?_) ?_
      · have hi := List.mem_range.mp hi
        exact hobj i (by omega)
      · exact congrArg (fun a => [a]) (hobj _ (by omega))
    have hread : ∀ i v, (base + i * size, v) ∈ links base size capacity →
      s.mem (base + i * size) = v := by
      intro i v hin
      rw [← hmem, hsize]
      exact storeAll_mem (by rw [hkeys]; exact hnodup) hin
    have hchain : Chain s.mem base (objects s.pool) := by
      have hr : Chain s.mem ((fun i => base + i * size) 0)
          ((List.range' 0 (capacity - 1 + 1)).map fun i => base + i * size) := Chain.range
        (fun i hi => hread i _ ?_) (fun i hi => hread i _ ?_) (fun i _ => by omega) (capacity - 1) 0
        ((Nat.zero_add _).trans (Nat.sub_add_cancel hcap))
      · rw [hobjects, List.range_eq_range']
        rw [show capacity - 1 + 1 = capacity by omega] at hr
        simpa only [Nat.zero_mul, Nat.add_zero] using hr
      · refine List.mem_append_left _ (List.mem_map.mpr ⟨i, List.mem_range.mpr (by omega), ?_⟩)
        rw [hobj i (by omega), hobj (i + 1) hi]
      · refine List.mem_append_right _ (List.mem_singleton.mpr ?_)
        rw [show capacity - 1 = i by omega, hobj i (by omega)]
    have hlt : capacity < 2 ^ 64 := Nat.lt_of_le_of_lt (Nat.le_mul_of_pos_left capacity hpos) hfit
    refine ⟨hnodup, ?_, by rw [← hpool, hheld]; rfl, by rw [← hpool]; exact hlt, objects s.pool,
      by rw [← hpool] at hchain ⊢; exact hchain, by rw [hheld, List.append_nil]⟩
    rw [hobjects]
    intro h0
    obtain ⟨i, -, he⟩ := List.mem_map.mp h0
    omega

end Inv

theorem inductive_inv : system.Inductive Inv where
  init _ h := start_inv h
  step s l s' h hs := by
    obtain ⟨hpre, rfl⟩ := hs
    cases l with
    | alloc => exact h.alloc
    | free p => exact h.free hpre
    | write p v => exact h.write hpre

/-- **The typed pool.** In every run the free list has exactly the objects that are not held,
and `mp_typed_alloc` returns one of them unless there is none. -/
theorem typed_pool_sound {s : State} (hr : system.Reachable s) : ListSound s ∧ AllocSound s :=
  ⟨(inductive_inv.reachable hr).listSound, (inductive_inv.reachable hr).allocSound⟩

instance decPre (s : State) (l : Act) : Decidable (s.pre l) := by
  unfold State.pre; cases l <;> exact inferInstance

/-- A pool of three objects of 12 bytes. -/
def three : State :=
  let r := mpTypedPoolCreate 12 3 true (some 0x1000) fun _ => 0
  ⟨r.1.getD ⟨0, 0, 0, 0, 0⟩, r.2, []⟩

theorem typed_pool_sound_overwritten :
    ListSound
      (([.alloc, .alloc, .write 0x1000 0x41, .free 0x1000, .alloc] : List Act).foldl State.next
        three) := by
  have hr : (system.guard fun _ _ => True).Reachable
      (([.alloc, .alloc, .write 0x1000 0x41, .free 0x1000, .alloc] : List Act).foldl
        State.next three) :=
    LTS.Reachable.run (.init ⟨12, 3, 0x1000, fun _ => 0, rfl, by decide, by decide, by decide, rfl⟩)
      (by decide +kernel)
  exact (typed_pool_sound hr.of_guard).1

end Cmem.L2.Typed

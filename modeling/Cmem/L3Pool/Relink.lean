import Cmem.L3Pool.SlotLive

/-!
# The header that moves

`mp_aligned_alloc` (src/src/cmem_alloc.c:1628-1685) and `mp_alloc_batch` of a pool with
`MP_FLAG_CACHE_ALIGNED` (src/src/cmem_alloc.c:661-1008) copy the header of a block to an aligned
place and relink the active list through the copy's `prev` and `next`. A pool with
`MP_FLAG_FAST_PATH` links no header, and no tier of it writes the two words: they are what the
memory held before.

This is the model of the two calls on such a pool, from the block that a tier has found, which
comes with the call, to the pointer that is returned. Memory is bytes, each write is recorded
with the block it is made for, and the headers that were written through are recorded too. The
calls stay in their blocks exactly when every block reaches over what is written into it and
both words of every header are zero.
-/
namespace Cmem.L3.Relink

open Cmem.L3.Pool (Config Tier wrap headerSize isPow2 alignUp alignUp_bounds)
open Cmem.L3.BatchFree (magicHead typeSlab typeTlsf typeOs typeEmergency)
open Cmem.L3.SlotLive (PoolCfg)

/-! ## Blocks -/

/-- A block that a tier has found, with what the tier puts in its header; `[lo, hi)` is its
memory, in the half of the address space where user memory is. -/
structure Place where
  tier : Tier
  cls : Nat
  flags : Nat
  usable : Nat
  subpool : Nat
  lo : Nat
  hi : Nat
  ptr : Nat
  head : lo + headerSize ≤ ptr
  pos : 0 < lo
  low : ptr < 2 ^ 62

/-- The blocks of one batch. -/
structure Grant where
  places : List Place
  apart : places.Pairwise fun p q => p.hi ≤ q.lo ∨ q.hi ≤ p.lo

namespace Place

/-- `(mp_block_header_t *)ptr - 1` -/
def header (p : Place) : Nat := p.ptr - headerSize

/-- `header->alloc_type` -/
def allocType (p : Place) : Nat :=
  match p.tier with
  | .slab => typeSlab
  | .tlsf => typeTlsf
  | .os => typeOs
  | .emergency => typeEmergency

/-- `header->raw_base`; the header of a TLSF block lies behind its `tlsf_block_t`. -/
def rawBase (p : Place) : Nat := if p.tier = .tlsf then p.header - 32 else p.header

/-- The fields a tier writes when the pool has FAST_PATH: the address, the bytes, the value;
src/src/cmem_alloc.c:128-135, 234-241, 296-308, 336-348, 378-385, for batches 533-540, 568-575,
607-614, and src/src/cmem_tlsf.c:451-462. Only the headers of TLSF blocks get their call site. -/
def fields (p : Place) (n : Nat) : List (Nat × Nat × Nat) :=
  let h := p.header
  [(h, 4, magicHead), (h + 4, 1, p.allocType), (h + 5, 1, p.cls), (h + 6, 2, p.flags),
    (h + 8, 8, n), (h + 16, 8, p.usable), (h + 24, 8, p.rawBase), (h + 32, 8, p.subpool)] ++
  if p.tier = .tlsf then [(h + 40, 8, 0), (h + 48, 4, 0), (h + 56, 8, 0), (h + 128, 4, 0)] else []

end Place

/-! ## The calls -/

/-- Memory, and what was written to it. -/
structure Log where
  mem : Bytes
  /-- `active_head`, 0 for none. -/
  activeHead : Nat
  /-- The block a write is made for, the address, and the bytes. -/
  writes : List (Place × Nat × Nat)
  /-- The headers that were written through a link. -/
  links : List Nat

namespace Log

/-- No header of a FAST_PATH pool is linked. -/
def start (m : Bytes) : Log := ⟨m, 0, [], []⟩

def store (t : Log) (p : Place) (a n v : Nat) : Log :=
  { t with mem := t.mem.store a n v, writes := (p, a, n) :: t.writes }

def fill (t : Log) (p : Place) (a n : Nat) (x : UInt8) : Log :=
  { t with mem := t.mem.fill a n x, writes := (p, a, n) :: t.writes }

def copy (t : Log) (p : Place) (a b n : Nat) : Log :=
  { t with mem := t.mem.copy a b n, writes := (p, a, n) :: t.writes }

def storeAll (t : Log) (p : Place) (fs : List (Nat × Nat × Nat)) : Log :=
  fs.foldl (fun t f => t.store p f.1 f.2.1 f.2.2) t

/-- `if (pool->flags & MP_FLAG_DEBUG_CANARY) *canary = MP_CANARY_BYTE` -/
def putCanary (t : Log) (c : PoolCfg) (p : Place) (a : Nat) : Log :=
  if c.canary then t.fill p (wrap a) 1 0xDE else t

/-- The stamp of a block of `n` bytes: its header, the canary, `MP_FLAG_ZERO_ON_ALLOC`. -/
def format (t : Log) (c : PoolCfg) (n : Nat) (p : Place) : Log :=
  let t := (t.storeAll p (p.fields n)).putCanary c p (p.ptr + n)
  if c.zeroOnAlloc then t.fill p p.ptr n 0 else t

/-- `header->flags |= MP_BLOCK_FLAG_COUNTED` -/
def count (t : Log) (p : Place) : Log :=
  t.store p (p.header + 6) 2 (t.mem.le (p.header + 6) 2 ||| 2)

/-- A field of the header at `a` is set to `v`. -/
def link (t : Log) (p : Place) (a field v : Nat) : Log :=
  { t.store p (a + field) 8 v with links := a :: t.links }

/-- The links of a header that moves to `new`, src/src/cmem_alloc.c:952-962 and 1664-1673. -/
def relink (t : Log) (p : Place) (new : Nat) : Log :=
  let prev := t.mem.le (p.header + 136) 8
  let t := if prev ≠ 0 then t.link p prev 144 new
    else if t.activeHead = p.header then { t with activeHead := new } else t
  let next := t.mem.le (p.header + 144) 8
  if next ≠ 0 then t.link p next 136 new else t

/-- The header moves to the aligned place, src/src/cmem_alloc.c:944-971 and 1649-1682. -/
def move (t : Log) (c : PoolCfg) (alignment size : Nat) (p : Place) : Log :=
  let ptr := alignUp p.ptr alignment
  let new := wrap (ptr + 2 ^ 64 - headerSize)
  let t := if new ≠ p.header then
    ((t.copy p new p.header headerSize).store p (new + 8) 8 size).relink p new
    else t.store p (new + 8) 8 size
  t.putCanary c p (ptr + size)

/-- mirrors `mp_aligned_alloc`, src/src/cmem_alloc.c:1628-1685 -/
def mpAlignedAlloc (t : Log) (c : PoolCfg) (alignment size : Nat) (found : Option Place) :
    Log × Option Nat :=
  if isPow2 alignment = false ∨ alignment < 8 then (t, none)
  else
    match found with
    | none => (t, none)
    | some p =>
      let t := t.format c (wrap (size + alignment + headerSize + c.canaryLen)) p
      -- the emergency block is returned before the header is marked
      let t := if p.tier = .emergency then t else t.count p
      (t.move c alignment size p, some (alignUp p.ptr alignment))

/-- mirrors `mp_alloc_batch`, src/src/cmem_alloc.c:661-1008 -/
def mpAllocBatch (t : Log) (c : PoolCfg) (size : Nat) (g : Grant) : Log × List Nat :=
  if size = 0 then (t, [])
  else if c.cacheAligned then
    let t :=
      g.places.foldl (fun t p => t.format c (wrap (size + 64 + headerSize + c.canaryLen)) p) t
    (g.places.foldl (fun t p => (t.count p).move c 64 size p) t,
      g.places.map fun p => alignUp p.ptr 64)
  else
    let t := g.places.foldl (fun t p => t.format c size p) t
    (g.places.foldl (fun t p => t.count p) t, g.places.map (·.ptr))

/-- Each write is in the block it is made for, no header is written through a link, and the
active list is as it was. -/
structure Confined (t : Log) : Prop where
  writes : ∀ w ∈ t.writes, w.1.lo ≤ w.2.1 ∧ w.2.1 + w.2.2 ≤ w.1.hi
  links : t.links = []
  activeHead : t.activeHead = 0

end Log

/-! ## The condition -/

namespace Place

/-- Both links of the header are null in memory. -/
def Quiet (p : Place) (m : Bytes) : Prop :=
  m.le (p.header + 136) 8 = 0 ∧ m.le (p.header + 144) 8 = 0

/-- The canary of the block of `n` bytes, which may lie in front of it when `n` is nearly
`2 ^ 64`, is in the memory of the block and not on a link. -/
def Sealed (p : Place) (n : Nat) : Prop :=
  p.lo ≤ wrap (p.ptr + n) ∧ wrap (p.ptr + n) < p.hi ∧
  ¬(p.header + 136 ≤ wrap (p.ptr + n) ∧ wrap (p.ptr + n) < p.ptr)

/-- The block reaches over the header in its new place and the canaries. -/
structure Fits (p : Place) (c : PoolCfg) (alignment size : Nat) : Prop where
  moved : alignUp p.ptr alignment ≤ p.hi
  zeroed : c.zeroOnAlloc = true → p.ptr + wrap (size + alignment + headerSize + c.canaryLen) ≤ p.hi
  first : c.canary = true → p.Sealed (wrap (size + alignment + headerSize + c.canaryLen))
  last : c.canary = true →
    p.lo ≤ wrap (alignUp p.ptr alignment + size) ∧ wrap (alignUp p.ptr alignment + size) < p.hi

end Place

/-! ## Single writes -/

namespace Log

section
variable {t : Log} {c : PoolCfg} {p q : Place} {a b n v size alignment : Nat} {x : UInt8}

theorem noted_confined {t' : Log} (hw : t'.writes = (p, a, n) :: t.writes) (hl : t'.links = t.links)
    (ha : t'.activeHead = t.activeHead) : t'.Confined ↔ t.Confined ∧ p.lo ≤ a ∧ a + n ≤ p.hi := by
  constructor
  · rintro ⟨h, h1, h2⟩
    rw [hw, List.forall_mem_cons] at h
    exact ⟨⟨h.2, hl ▸ h1, ha ▸ h2⟩, h.1⟩
  · rintro ⟨⟨h, h1, h2⟩, hp⟩
    exact ⟨hw ▸ List.forall_mem_cons.mpr ⟨hp, h⟩, hl ▸ h1, ha ▸ h2⟩

theorem store_confined : (t.store p a n v).Confined ↔ t.Confined ∧ p.lo ≤ a ∧ a + n ≤ p.hi :=
  noted_confined rfl rfl rfl

theorem fill_confined : (t.fill p a n x).Confined ↔ t.Confined ∧ p.lo ≤ a ∧ a + n ≤ p.hi :=
  noted_confined rfl rfl rfl

theorem copy_confined : (t.copy p a b n).Confined ↔ t.Confined ∧ p.lo ≤ a ∧ a + n ≤ p.hi :=
  noted_confined rfl rfl rfl

theorem link_unconfined : ¬(t.link p a n v).Confined := fun h => nomatch h.links

theorem putCanary_confined : (t.putCanary c p a).Confined ↔
    t.Confined ∧ (c.canary = true → p.lo ≤ wrap a ∧ wrap a < p.hi) := by
  unfold putCanary
  split
  next h => rw [fill_confined, Nat.add_one_le_iff, forall_prop_of_true h]
  next h => exact (and_iff_left fun h' => absurd h' h).symm

/-! ## What is written for one block -/

/-- The steps from `t` to `t'` write for the block `p`. -/
structure Within (p : Place) (t t' : Log) : Prop where
  back : t'.Confined → t.Confined
  frame : t'.Confined → ∀ i, i < p.lo ∨ p.hi ≤ i → t'.mem i = t.mem i

theorem Within.refl (p : Place) (t : Log) : Within p t t := ⟨id, fun _ _ _ => rfl⟩

theorem Within.trans {t' t'' : Log} (h : Within p t t') (h' : Within p t' t'') :
    Within p t t'' where
  back hc := h.back (h'.back hc)
  frame hc i hi := (h'.frame hc i hi).trans (h.frame (h'.back hc) i hi)

theorem within_store : Within p t (t.store p a n v) where
  back h := (store_confined.mp h).1
  frame h i hi := by
    have := (store_confined.mp h).2
    exact Bytes.store_apart (by unfold Bytes.Apart; omega)

theorem within_fill : Within p t (t.fill p a n x) where
  back h := (fill_confined.mp h).1
  frame h i hi := by
    have := (fill_confined.mp h).2
    exact Bytes.fill_apart (by unfold Bytes.Apart; omega)

theorem within_copy : Within p t (t.copy p a b n) where
  back h := (copy_confined.mp h).1
  frame h i hi := by
    have := (copy_confined.mp h).2
    exact Bytes.copy_apart (by unfold Bytes.Apart; omega)

theorem within_putCanary : Within p t (t.putCanary c p a) := by
  unfold putCanary
  split
  · exact within_fill
  · exact .refl p t

/-- The memory is that of `SlotLive`, where the active list is left out. -/
theorem relink_mem (t : Log) (p : Place) (new : Nat) :
    (t.relink p new).mem = SlotLive.World.relink t.mem p.header new := by
  have hnext (t : Log) :
      (if t.mem.le (p.header + 144) 8 ≠ 0 then t.link p (t.mem.le (p.header + 144) 8) 136 new
      else t).mem = if t.mem.le (p.header + 144) 8 = 0 then t.mem
        else t.mem.store (t.mem.le (p.header + 144) 8 + 136) 8 new := by
    rw [apply_ite Log.mem, ite_not]
    rfl
  unfold relink SlotLive.World.relink
  dsimp only
  by_cases hp : t.mem.le (p.header + 136) 8 = 0
  · rw [if_neg (not_not_intro hp), if_pos hp]
    by_cases ha : t.activeHead = p.header
    · rw [if_pos ha]
      exact hnext _
    · rw [if_neg ha]
      exact hnext _
  · rw [if_pos hp, if_neg hp]
    exact hnext _

/-- Nothing happens at a header without links. -/
theorem relink_quiet {new : Nat} (hq : p.Quiet t.mem) (ha : t.activeHead = 0) :
    t.relink p new = t := by
  have hhead : t.activeHead ≠ p.header := by
    have := p.head
    have := p.pos
    unfold Place.header
    omega
  unfold relink
  simp only [hq.1, hq.2, hhead, ne_eq, not_true_eq_false, if_false]

theorem relink_confined {new : Nat} (hn : new ≠ 0) : (t.relink p new).Confined ↔
    t.Confined ∧ p.Quiet t.mem := by
  constructor
  · intro h
    unfold relink at h
    by_cases hp : t.mem.le (p.header + 136) 8 = 0
    · simp only [hp, ne_eq, not_true_eq_false, if_false] at h
      by_cases ha : t.activeHead = p.header
      · rw [if_pos ha] at h
        by_cases hx : t.mem.le (p.header + 144) 8 = 0
        · rw [if_neg (not_not_intro hx)] at h
          exact absurd h.activeHead hn
        · rw [if_pos hx] at h
          exact absurd h link_unconfined
      · rw [if_neg ha] at h
        by_cases hx : t.mem.le (p.header + 144) 8 = 0
        · rw [if_neg (not_not_intro hx)] at h
          exact ⟨h, hp, hx⟩
        · rw [if_pos hx] at h
          exact absurd h link_unconfined
    · simp only [hp, ne_eq, not_false_eq_true, if_true] at h
      split at h
      · exact absurd h link_unconfined
      · exact absurd h link_unconfined
  · rintro ⟨h, hq⟩
    rwa [relink_quiet hq h.activeHead]

theorem within_relink {new : Nat} (hn : new ≠ 0) : Within p t (t.relink p new) where
  back h := ((relink_confined hn).mp h).1
  frame h i _ := by
    obtain ⟨hc, hq⟩ := (relink_confined hn).mp h
    rw [relink_quiet hq hc.activeHead]

theorem within_storeAll (fs : List (Nat × Nat × Nat)) (t : Log) : Within p t (t.storeAll p fs) := by
  induction fs generalizing t with
  | nil => exact .refl p t
  | cons f fs ih => exact within_store.trans (ih _)

theorem within_format : Within p t (t.format c n p) := by
  have h : Within p t ((t.storeAll p (p.fields n)).putCanary c p (p.ptr + n)) :=
    (within_storeAll _ t).trans within_putCanary
  unfold format
  split
  · exact h.trans within_fill
  · exact h

theorem within_count : Within p t (t.count p) := within_store

theorem quiet_iff {m : Bytes} : p.Quiet m ↔ ∀ i, p.header + 136 ≤ i → i < p.header + 152 →
    m i = 0 := by
  unfold Place.Quiet
  rw [Bytes.le_eq_zero, Bytes.le_eq_zero]
  constructor
  · rintro ⟨h1, h2⟩ i hi1 hi2
    rcases Nat.lt_or_ge i (p.header + 144) with h | h
    · exact h1 i hi1 (by omega)
    · exact h2 i h (by omega)
  · intro h
    exact ⟨fun i h1 h2 => h i h1 (by omega), fun i h1 h2 => h i (by omega) (by omega)⟩

theorem quiet_congr {m m' : Bytes} (h : ∀ i, p.header + 136 ≤ i → i < p.header + 152 → m' i = m i) :
    p.Quiet m' ↔ p.Quiet m := by
  rw [quiet_iff, quiet_iff]
  exact forall_congr' fun i => forall₂_congr fun h1 h2 => by rw [h i h1 h2]

/-- The links of another block are not touched. -/
theorem Within.quiet {t' : Log} (h : Within p t t') (hc : t'.Confined) (hq : q.ptr ≤ q.hi)
    (hpq : p.hi ≤ q.lo ∨ q.hi ≤ p.lo) : q.Quiet t'.mem ↔ q.Quiet t.mem := by
  have hhead := q.head
  refine quiet_congr fun i h1 h2 => h.frame hc i ?_
  unfold Place.header headerSize at *
  omega

theorem count_confined (hp : p.ptr ≤ p.hi) : (t.count p).Confined ↔ t.Confined := by
  have hhead := p.head
  refine store_confined.trans (and_iff_left ?_)
  unfold Place.header headerSize at *
  omega

theorem store_quiet (h : Bytes.Apart a n (p.header + 136) 16) : p.Quiet (t.store q a n v).mem ↔
    p.Quiet t.mem :=
  quiet_congr fun _ h1 h2 => Bytes.store_apart (by unfold Bytes.Apart at h ⊢; omega)

theorem copy_quiet (h : Bytes.Apart a n (p.header + 136) 16) : p.Quiet (t.copy q a b n).mem ↔
    p.Quiet t.mem :=
  quiet_congr fun _ h1 h2 => Bytes.copy_apart (by unfold Bytes.Apart at h ⊢; omega)

theorem fill_quiet (h : Bytes.Apart a n (p.header + 136) 16) : p.Quiet (t.fill q a n x).mem ↔
    p.Quiet t.mem :=
  quiet_congr fun _ h1 h2 => Bytes.fill_apart (by unfold Bytes.Apart at h ⊢; omega)

theorem count_quiet : p.Quiet (t.count p).mem ↔ p.Quiet t.mem :=
  store_quiet (by unfold Bytes.Apart; omega)

theorem moved_bounds (ha : 0 < alignment) (hal : alignment ≤ 2 ^ 63) :
    p.ptr + headerSize ≤ alignUp p.ptr alignment ∧ alignUp p.ptr alignment < 2 ^ 64 := by
  have := p.low
  have := alignUp_bounds p.ptr alignment ha (by unfold headerSize; omega)
  unfold headerSize at *
  omega

/-- A block that reaches over the moved header reaches over its own. -/
theorem fits_header (ha : 0 < alignment) (hal : alignment ≤ 2 ^ 63)
    (h : alignUp p.ptr alignment ≤ p.hi) : p.ptr ≤ p.hi :=
  Nat.le_trans (Nat.le_trans (Nat.le_add_right ..) (moved_bounds ha hal).1) h

theorem move_eq (ha : 0 < alignment) (hal : alignment ≤ 2 ^ 63) :
    t.move c alignment size p =
      (((t.copy p (alignUp p.ptr alignment - headerSize) p.header headerSize).store p
        (alignUp p.ptr alignment - headerSize + 8) 8 size).relink p
        (alignUp p.ptr alignment - headerSize)).putCanary c p (alignUp p.ptr alignment + size) := by
  obtain ⟨hlo, hhi⟩ := moved_bounds (p := p) ha hal
  have hhead := p.head
  have hpos := p.pos
  have hnew :
    wrap (alignUp p.ptr alignment + 2 ^ 64 - headerSize) =
      alignUp p.ptr alignment - headerSize := by
    unfold wrap headerSize at *
    omega
  have hne : alignUp p.ptr alignment - headerSize ≠ p.header := by
    unfold Place.header headerSize at *
    omega
  unfold move
  simp only [hnew, ne_eq, hne, not_false_eq_true, if_true]

/-- A move stays in its block when the block reaches so far and the header has no links. -/
theorem move_confined (ha : 0 < alignment) (hal : alignment ≤ 2 ^ 63) :
    (t.move c alignment size p).Confined ↔
    t.Confined ∧ p.Quiet t.mem ∧ alignUp p.ptr alignment ≤ p.hi ∧
      (c.canary = true → p.lo ≤ wrap (alignUp p.ptr alignment + size) ∧
        wrap (alignUp p.ptr alignment + size) < p.hi) := by
  obtain ⟨hlo, hhi⟩ := moved_bounds (p := p) ha hal
  have hhead := p.head
  have hpos := p.pos
  rw [move_eq ha hal, putCanary_confined, relink_confined (by unfold headerSize at *; omega),
    store_confined, copy_confined,
    store_quiet (by unfold Bytes.Apart Place.header headerSize at *; omega),
    copy_quiet (by unfold Bytes.Apart Place.header headerSize at *; omega)]
  unfold headerSize at *
  constructor
  · rintro ⟨⟨⟨⟨h, -, h1⟩, -⟩, hq⟩, hc⟩
    exact ⟨h, hq, by omega, hc⟩
  · rintro ⟨h, hq, h1, hc⟩
    exact ⟨⟨⟨⟨h, by omega, by omega⟩, by omega, by omega⟩, hq⟩, hc⟩

theorem within_move (ha : 0 < alignment) (hal : alignment ≤ 2 ^ 63) :
    Within p t (t.move c alignment size p) := by
  obtain ⟨hlo, hhi⟩ := moved_bounds (p := p) ha hal
  have hhead := p.head
  have hpos := p.pos
  rw [move_eq ha hal]
  have hn : alignUp p.ptr alignment - headerSize ≠ 0 := by
    unfold headerSize at *
    omega
  exact (within_copy.trans within_store).trans ((within_relink hn).trans within_putCanary)

/-! ## The stamp of one block -/

theorem storeAll_confined (fs : List (Nat × Nat × Nat)) (t : Log) :
    (t.storeAll p fs).Confined ↔ t.Confined ∧ ∀ f ∈ fs, p.lo ≤ f.1 ∧ f.1 + f.2.1 ≤ p.hi := by
  induction fs generalizing t with
  | nil => exact (and_iff_left fun _ h => nomatch h).symm
  | cons f fs ih =>
    refine (ih _).trans ?_
    rw [store_confined, List.forall_mem_cons, and_assoc]

theorem storeAll_quiet (fs : List (Nat × Nat × Nat)) (t : Log)
    (h : ∀ f ∈ fs, Bytes.Apart f.1 f.2.1 (p.header + 136) 16) : p.Quiet (t.storeAll p fs).mem ↔
    p.Quiet t.mem := by
  induction fs generalizing t with
  | nil => exact .rfl
  | cons f fs ih =>
    obtain ⟨hf, hfs⟩ := List.forall_mem_cons.mp h
    exact (ih _ hfs).trans (store_quiet hf)

/-- No field reaches the links. -/
theorem fields_below {f : Nat × Nat × Nat} (hf : f ∈ p.fields n) :
    p.header ≤ f.1 ∧ f.1 + f.2.1 ≤ p.header + 132 := by
  unfold Place.fields at hf
  split at hf
  · simp only [List.cons_append, List.nil_append, List.mem_cons, List.not_mem_nil, or_false] at hf
    rcases hf with rfl | rfl | rfl | rfl | rfl | rfl | rfl | rfl | rfl | rfl | rfl | rfl <;> simp
  · simp only [List.append_nil, List.mem_cons, List.not_mem_nil, or_false] at hf
    rcases hf with rfl | rfl | rfl | rfl | rfl | rfl | rfl | rfl <;> simp

/-- The stamp of a block that reaches over its header stays in it when the canary and the
zeros do. -/
theorem format_confined (hp : p.ptr ≤ p.hi) : (t.format c n p).Confined ↔
    t.Confined ∧ (c.canary = true → p.lo ≤ wrap (p.ptr + n) ∧ wrap (p.ptr + n) < p.hi) ∧
      (c.zeroOnAlloc = true → p.ptr + n ≤ p.hi) := by
  have hhead := p.head
  have hfields : ∀ f ∈ p.fields n, p.lo ≤ f.1 ∧ f.1 + f.2.1 ≤ p.hi := by
    intro f hf
    have := fields_below hf
    unfold Place.header headerSize at *
    omega
  have hseal : ((t.storeAll p (p.fields n)).putCanary c p (p.ptr + n)).Confined ↔
      t.Confined ∧ (c.canary = true → p.lo ≤ wrap (p.ptr + n) ∧ wrap (p.ptr + n) < p.hi) := by
    rw [putCanary_confined, storeAll_confined, and_iff_left hfields]
  unfold format
  split
  next hz =>
    refine fill_confined.trans ?_
    rw [hseal, and_assoc, forall_prop_of_true hz]
    refine and_congr_right fun _ => and_congr_right fun _ => and_iff_right ?_
    omega
  next hz =>
    refine hseal.trans (and_congr_right fun _ => ?_)
    exact (and_iff_left fun h => absurd h hz).symm

/-- The canary is the only write of a stamp that may fall on the links of its header. -/
theorem format_quiet : p.Quiet (t.format c n p).mem ↔
    p.Quiet t.mem ∧
    (c.canary = true → ¬(p.header + 136 ≤ wrap (p.ptr + n) ∧ wrap (p.ptr + n) < p.ptr)) := by
  have hhead := p.head
  have hptr : p.header + 152 = p.ptr := by
    unfold Place.header headerSize at *
    omega
  have hstored : p.Quiet (t.storeAll p (p.fields n)).mem ↔ p.Quiet t.mem :=
    storeAll_quiet _ _ fun f hf => .inl (Nat.le_trans (fields_below hf).2 (by omega))
  have hseal : p.Quiet ((t.storeAll p (p.fields n)).putCanary c p (p.ptr + n)).mem ↔
      p.Quiet t.mem ∧
      (c.canary = true → ¬(p.header + 136 ≤ wrap (p.ptr + n) ∧ wrap (p.ptr + n) < p.ptr)) := by
    unfold putCanary
    split
    next hc =>
      rw [forall_prop_of_true hc]
      by_cases ha : p.header + 136 ≤ wrap (p.ptr + n) ∧ wrap (p.ptr + n) < p.ptr
      · refine iff_of_false (fun hq => ?_) fun h => h.2 ha
        have h0 := quiet_iff.mp hq (wrap (p.ptr + n)) ha.1 (by omega)
        have hx :
          ((t.storeAll p (p.fields n)).mem.fill (wrap (p.ptr + n)) 1 0xDE)
            (wrap (p.ptr + n)) = 0xDE :=
          if_pos (by omega)
        exact absurd (hx.symm.trans h0) (by decide)
      · rw [and_iff_left ha]
        exact (fill_quiet (by unfold Bytes.Apart; omega)).trans hstored
    next hc => exact hstored.trans (and_iff_left fun h => absurd h hc).symm
  unfold format
  split
  · exact (fill_quiet (by unfold Bytes.Apart; omega)).trans hseal
  · exact hseal

end

/-! ## All blocks -/

section
variable {c : PoolCfg} {n size alignment : Nat}

theorem back_foldl {step : Log → Place → Log} (hstep : ∀ t p, Within p t (step t p))
    (ps : List Place) (t : Log) (hc : (ps.foldl step t).Confined) : t.Confined := by
  induction ps generalizing t with
  | nil => exact hc
  | cons p ps ih => exact (hstep t p).back (ih _ hc)

/-- What is done for other blocks leaves the links of a block alone. -/
theorem quiet_foldl {step : Log → Place → Log} (hstep : ∀ t p, Within p t (step t p)) {q : Place}
    (hq : q.ptr ≤ q.hi) {ps : List Place} (h : ∀ p ∈ ps, q.hi ≤ p.lo ∨ p.hi ≤ q.lo) (t : Log)
    (hc : (ps.foldl step t).Confined) : q.Quiet (ps.foldl step t).mem ↔ q.Quiet t.mem := by
  induction ps generalizing t with
  | nil => exact .rfl
  | cons p ps ih =>
    obtain ⟨hp, hps⟩ := List.forall_mem_cons.mp h
    exact (ih hps _ hc).trans ((hstep t p).quiet (back_foldl hstep ps _ hc) hq hp.symm)

/-- The blocks `ps` are stamped one after the other, and each stamp stays in its block. -/
theorem formatAll_confined {ps : List Place} (hfit : ∀ p ∈ ps, p.ptr ≤ p.hi) (t : Log) :
    (ps.foldl (fun t p => t.format c n p) t).Confined ↔
      t.Confined ∧ ∀ p ∈ ps, (c.canary = true → p.lo ≤ wrap (p.ptr + n) ∧ wrap (p.ptr + n) < p.hi) ∧
        (c.zeroOnAlloc = true → p.ptr + n ≤ p.hi) := by
  induction ps generalizing t with
  | nil => exact (and_iff_left fun _ h => nomatch h).symm
  | cons p ps ih =>
    obtain ⟨hp, hfit⟩ := List.forall_mem_cons.mp hfit
    refine (ih hfit _).trans ?_
    rw [format_confined hp, List.forall_mem_cons, and_assoc]

theorem formatAll_quiet {ps : List Place} (hps : ps.Pairwise fun p q => p.hi ≤ q.lo ∨ q.hi ≤ p.lo)
    (hfit : ∀ p ∈ ps, p.ptr ≤ p.hi) (t : Log)
    (hc : (ps.foldl (fun t p => t.format c n p) t).Confined) :
    ∀ q ∈ ps, (q.Quiet (ps.foldl (fun t p => t.format c n p) t).mem ↔
      q.Quiet t.mem ∧
      (c.canary = true → ¬(q.header + 136 ≤ wrap (q.ptr + n) ∧ wrap (q.ptr + n) < q.ptr))) := by
  induction ps generalizing t with
  | nil => exact fun _ h => nomatch h
  | cons p ps ih =>
    obtain ⟨hap, hps⟩ := List.pairwise_cons.mp hps
    obtain ⟨hp, hfit⟩ := List.forall_mem_cons.mp hfit
    refine List.forall_mem_cons.mpr ⟨?_, fun q hq => ?_⟩
    · exact (quiet_foldl (fun _ _ => within_format) hp hap _ hc).trans format_quiet
    · have hback : (t.format c n p).Confined := back_foldl (fun _ _ => within_format) ps _ hc
      refine (ih hps hfit _ hc q hq).trans (and_congr_left' ?_)
      exact within_format.quiet hback (hfit q hq) (hap q hq)

/-- Marking the header changes nothing for the move. -/
theorem count_move_confined {p : Place} {t : Log} (ha : 0 < alignment) (hal : alignment ≤ 2 ^ 63) :
    ((t.count p).move c alignment size p).Confined ↔ (t.move c alignment size p).Confined := by
  rw [move_confined ha hal, move_confined ha hal, count_quiet]
  exact and_congr_left fun h => count_confined (fits_header ha hal h.2.1)

/-- The headers of the blocks `ps` are moved one after the other. -/
theorem moveAll_confined (ha : 0 < alignment) (hal : alignment ≤ 2 ^ 63) {ps : List Place}
    (hps : ps.Pairwise fun p q => p.hi ≤ q.lo ∨ q.hi ≤ p.lo) (t : Log) :
    (ps.foldl (fun t p => (t.count p).move c alignment size p) t).Confined ↔
      t.Confined ∧ ∀ p ∈ ps, p.Quiet t.mem ∧ alignUp p.ptr alignment ≤ p.hi ∧
        (c.canary = true → p.lo ≤ wrap (alignUp p.ptr alignment + size) ∧
          wrap (alignUp p.ptr alignment + size) < p.hi) := by
  induction ps generalizing t with
  | nil => exact (and_iff_left fun _ h => nomatch h).symm
  | cons p ps ih =>
    obtain ⟨hap, hps⟩ := List.pairwise_cons.mp hps
    have hstep : ∀ t : Log, Within p t ((t.count p).move c alignment size p) := fun t =>
      within_count.trans (within_move ha hal)
    have hhead : ((t.count p).move c alignment size p).Confined ↔ _ :=
      (count_move_confined ha hal).trans (move_confined ha hal)
    refine (ih hps _).trans ?_
    rw [List.forall_mem_cons, ← and_assoc, ← hhead]
    refine and_congr_right fun hc => forall₂_congr fun q hq => and_congr_left fun h => ?_
    exact (hstep t).quiet hc (fits_header ha hal h.1) (hap q hq)

/-- The stamps and the moves of the blocks `ps` of the size `n`. -/
theorem all_confined (ha : 0 < alignment) (hal : alignment ≤ 2 ^ 63) {ps : List Place}
    (hps : ps.Pairwise fun p q => p.hi ≤ q.lo ∨ q.hi ≤ p.lo) {t : Log} (ht : t.Confined) :
    (ps.foldl (fun t p => (t.count p).move c alignment size p)
      (ps.foldl (fun t p => t.format c (wrap (size + alignment + headerSize + c.canaryLen)) p)
        t)).Confined ↔
      ∀ p ∈ ps, p.Fits c alignment size ∧ p.Quiet t.mem := by
  refine (moveAll_confined ha hal hps _).trans ?_
  constructor
  · rintro ⟨hc, h⟩ p hp
    have hall : ∀ q ∈ ps, q.ptr ≤ q.hi := fun q hq => fits_header ha hal (h q hq).2.1
    obtain ⟨hq, hmoved, hlast⟩ := h p hp
    obtain ⟨hfirst, hzero⟩ := ((formatAll_confined hall t).mp hc).2 p hp
    obtain ⟨hquiet, hmiss⟩ := (formatAll_quiet hps hall t hc p hp).mp hq
    exact ⟨⟨hmoved, hzero, fun h => ⟨(hfirst h).1, (hfirst h).2, hmiss h⟩, hlast⟩, hquiet⟩
  · intro h
    have hall : ∀ q ∈ ps, q.ptr ≤ q.hi := fun q hq => fits_header ha hal (h q hq).1.moved
    have hc := (formatAll_confined hall t).mpr ⟨ht, fun p hp =>
      ⟨fun h' => ⟨((h p hp).1.first h').1, ((h p hp).1.first h').2.1⟩, (h p hp).1.zeroed⟩⟩
    refine ⟨hc, fun p hp => ?_⟩
    obtain ⟨hf, hquiet⟩ := h p hp
    exact ⟨(formatAll_quiet hps hall t hc p hp).mpr ⟨hquiet, fun h' => (hf.first h').2.2⟩,
      hf.moved, hf.last⟩

theorem isPow2_le {n : Nat} (h : isPow2 n = true) (hn : n < 2 ^ 64) : n ≤ 2 ^ 63 := by
  have hp : n = 2 ^ Nat.log2 n := of_decide_eq_true h
  rw [hp] at hn ⊢
  exact Nat.pow_le_pow_right (by decide)
    (Nat.le_of_lt_succ ((Nat.pow_lt_pow_iff_right (by decide)).mp hn))

/-- A block with room for what it was asked for fits, when the sum of the sizes is a
`size_t`. -/
theorem fits_of_room {p : Place} (ha : 0 < alignment) (hal : alignment ≤ 2 ^ 63)
    (hs : size + alignment + headerSize + c.canaryLen < 2 ^ 64)
    (hp : p.ptr + (size + alignment + headerSize + c.canaryLen) + c.canaryLen ≤ p.hi)
    (hhi : p.hi ≤ 2 ^ 64) :
    p.Fits c alignment size := by
  have hw :
    wrap (size + alignment + headerSize + c.canaryLen) =
      size + alignment + headerSize + c.canaryLen :=
    Nat.mod_eq_of_lt hs
  have hlow := p.low
  have hhead := p.head
  obtain ⟨hlo, hup⟩ := alignUp_bounds p.ptr alignment ha (by unfold headerSize; omega)
  have hlen : c.canary = true → c.canaryLen = 1 := fun h => if_pos h
  refine ⟨by omega, fun _ => by rw [hw]; omega, fun hc => ?_, fun hc => ?_⟩
  · have hn : wrap (p.ptr + (size + alignment + headerSize + c.canaryLen)) =
        p.ptr + (size + alignment + headerSize + c.canaryLen) :=
      Nat.mod_eq_of_lt (by have := hlen hc; omega)
    rw [hw]
    refine ⟨?_, ?_, ?_⟩ <;> rw [hn] <;> have := hlen hc <;> omega
  · have hn : wrap (alignUp p.ptr alignment + size) = alignUp p.ptr alignment + size :=
      Nat.mod_eq_of_lt (by have := hlen hc; omega)
    rw [hn]
    have := hlen hc
    omega

theorem start_confined (m : Bytes) : (start m).Confined := ⟨fun _ h => (nomatch h), rfl, rfl⟩

/-- **Aligned allocation on the fast path.** `mp_aligned_alloc` and a `CACHE_ALIGNED` batch
write nothing outside the blocks they return, and nothing through the links of a header,
exactly when each block reaches over what is put in it and the links of its header are null
in the memory that the tier gave. -/
theorem aligned_confined_iff (c : PoolCfg) (m : Bytes) (size : Nat) :
    (∀ alignment < 2 ^ 64, ∀ found : Option Place,
      ((start m).mpAlignedAlloc c alignment size found).1.Confined ↔
        (isPow2 alignment = true → 8 ≤ alignment →
          ∀ p ∈ found, p.Fits c alignment size ∧ p.Quiet m)) ∧
    (c.cacheAligned = true → ∀ g : Grant, ((start m).mpAllocBatch c size g).1.Confined ↔
      (0 < size → ∀ p ∈ g.places, p.Fits c 64 size ∧ p.Quiet m)) := by
  constructor
  · intro alignment hal found
    unfold mpAlignedAlloc
    split
    next hbad =>
      refine iff_of_true (start_confined m) fun hpow h8 => ?_
      rcases hbad with hbad | hbad
      · exact absurd (hpow.symm.trans hbad) (by decide)
      · omega
    next hok =>
      have hpow : isPow2 alignment = true := by simpa using fun h => hok (.inl h)
      have h8 : 8 ≤ alignment := Nat.le_of_not_lt fun h => hok (.inr h)
      rw [forall_prop_of_true hpow, forall_prop_of_true h8]
      cases found with
      | none => exact iff_of_true (start_confined m) fun _ h => nomatch h
      | some p =>
        have hall : (Log.move (((start m).format c _ p).count p) c alignment size p).Confined ↔ _ :=
          all_confined (by omega) (isPow2_le hpow hal) (List.pairwise_singleton _ p)
            (start_confined m)
        rw [List.forall_mem_singleton] at hall
        have hone : (∀ q ∈ some p, q.Fits c alignment size ∧ q.Quiet m) ↔
            p.Fits c alignment size ∧ p.Quiet m := by
          simp only [Option.mem_def, Option.some.injEq, forall_eq']
        rw [hone]
        refine Iff.trans ?_ hall
        show (Log.move _ c alignment size p).Confined ↔ _
        split
        · exact (count_move_confined (by omega) (isPow2_le hpow hal)).symm
        · exact .rfl
  · intro hca g
    unfold mpAllocBatch
    rw [if_pos hca]
    split
    next h0 => exact iff_of_true (start_confined m) fun h => absurd h0 (by omega)
    next h0 =>
      rw [forall_prop_of_true (Nat.pos_of_ne_zero h0)]
      exact all_confined (by decide) (by decide) g.apart (start_confined m)

/-- A pool with FAST_PATH and CACHE_ALIGNED and nothing else. -/
def fastAligned : PoolCfg :=
  { Pool.plain with
    fastPath := true, cacheAligned := true, zeroOnAlloc := false, poison := false, numCpus := 0 }

/-- A TLSF block of 1104 bytes, for 700 bytes at a boundary of 64. -/
def tlsfPlace : Place where
  tier := .tlsf
  cls := 0
  flags := 0
  usable := 920
  subpool := 0x8000
  lo := 0x10000
  hi := 0x10450
  ptr := 0x100b8
  head := by decide
  pos := by decide
  low := by decide

theorem tlsfPlace_fits : tlsfPlace.Fits fastAligned 64 700 :=
  fits_of_room (by decide) (by decide) (by decide) (by decide) (by decide)

theorem aligned_confined_zeroed :
    ((start fun _ => 0).mpAlignedAlloc fastAligned 64 700 (some tlsfPlace)).1.Confined ∧
    ((start fun _ => 0).mpAllocBatch fastAligned 700
      ⟨[tlsfPlace], List.pairwise_singleton ..⟩).1.Confined := by
  have h := aligned_confined_iff fastAligned (fun _ => 0) 700
  refine ⟨(h.1 64 (by decide) _).mpr fun _ _ p hp => ?_, (h.2 rfl _).mpr fun _ p hp => ?_⟩
  · obtain rfl := Option.some.inj hp
    exact ⟨tlsfPlace_fits, by decide, by decide⟩
  · obtain rfl := List.mem_singleton.mp hp
    exact ⟨tlsfPlace_fits, by decide, by decide⟩

/-- **Defect.** In memory that was last filled with `0x41`, both calls write through the link
`0x4141414141414141`, far outside their block. -/
theorem aligned_wild_link : tlsfPlace.Fits fastAligned 64 700 ∧
    0x4141414141414141 ∈
      ((start fun _ => 0x41).mpAlignedAlloc fastAligned 64 700 (some tlsfPlace)).1.links ∧
    ¬((start fun _ => 0x41).mpAlignedAlloc fastAligned 64 700 (some tlsfPlace)).1.Confined ∧
    0x4141414141414141 ∈ ((start fun _ => 0x41).mpAllocBatch fastAligned 700
      ⟨[tlsfPlace], List.pairwise_singleton ..⟩).1.links ∧
    ¬((start fun _ => 0x41).mpAllocBatch fastAligned 700
      ⟨[tlsfPlace], List.pairwise_singleton ..⟩).1.Confined := by
  have h1 : 0x4141414141414141 ∈
      ((start fun _ => 0x41).mpAlignedAlloc fastAligned 64 700 (some tlsfPlace)).1.links := by
    decide +kernel
  have h2 : 0x4141414141414141 ∈ ((start fun _ => 0x41).mpAllocBatch fastAligned 700
      ⟨[tlsfPlace], List.pairwise_singleton ..⟩).1.links := by decide +kernel
  refine ⟨tlsfPlace_fits, h1, fun h => ?_, h2, fun h => ?_⟩
  · rw [h.links] at h1
    cases h1
  · rw [h.links] at h2
    cases h2

end

end Log

end Cmem.L3.Relink

import Mathlib
import Cmem.L1Layout.Block

/-!
# The per-thread TLSF arena

`tlsf_arena_t` (src/src/cmem_internal.h) and its operations,
src/src/cmem_slab.c:91-445, with the in-place grow that `mp_realloc` performs
on arena blocks (src/src/cmem_alloc.c:1463-1538). The region's bytes are the
words of `mem`; the physical chain, the address-sorted free list and the
mailbox live in them, so every link and flag the C code writes is a word
written here. `size_t` arithmetic that can wrap is taken modulo `2^64`.

Loops carry a fuel argument. The region holds at most `size / 32` blocks, so
`size` iterations are enough for every scan of a well-formed arena.

Left out: the pool statistics (`total_pool_size`, `tlsf_allocated_bytes`), the
registry list and the event callback, none of which an arena operation reads.
-/
namespace Cmem.L2.ThreadArena

/-- `TLSF_ARENA_DEFAULT_SIZE`, 256 KiB. -/
def arenaDefaultSize : Nat := 262144

/-- `tlsf_arena_t`, with the memory of its region. `raw = 0` once the region
has been released. -/
structure Arena where
  raw : Nat
  size : Nat
  sentinel : Nat
  freeList : Nat
  remoteFree : Nat
  liveBytes : Nat
  retired : Bool
  cleanupClaimed : Bool
  finished : Bool
  mem : Mem

/-- mirrors `tlsf_arena_unlink_free`, src/src/cmem_slab.c:96-108 -/
def tlsfArenaUnlinkFree (A : Arena) (block : Nat) : Arena :=
  let r := unlinkBlock A.mem A.freeList block
  { A with mem := setPrevFree (setNextFree r.1 block 0) block 0, freeList := r.2 }

/-- `block->size_and_flags = sz | BLOCK_STATE_FREE`. -/
def stampFree (A : Arena) (block sz : Nat) : Arena :=
  { A with mem := setSize A.mem block (orFree sz) }

/-! ## Insertion with coalescing -/

/-- The position scan of `tlsf_arena_insert_free`, src/src/cmem_slab.c:113-119:
the last list member below `block` and the first one not below it. -/
def insertPos (m : Mem) (block : Nat) : Nat → Nat → Nat → Nat × Nat
  | 0, prev, curr => (prev, curr)
  | fuel + 1, prev, curr =>
    if curr ≠ 0 ∧ curr < block then insertPos m block fuel curr (nextFree m curr)
    else (prev, curr)

/-- Forward merge, src/src/cmem_slab.c:121-128; returns the new `curr`. -/
def mergeForward (A : Arena) (block curr : Nat) : Arena × Nat :=
  if curr ≠ 0 ∧ block + span A.mem block = curr then
    let after := nextFree A.mem curr
    let merged := span A.mem block + span A.mem curr
    (stampFree (tlsfArenaUnlinkFree A curr) block merged, after)
  else (A, curr)

/-- Backward merge, src/src/cmem_slab.c:130-138; returns the new `block` and
`prev`. -/
def mergeBackward (A : Arena) (block prev : Nat) : Arena × Nat × Nat :=
  if prev ≠ 0 ∧ prev + span A.mem prev = block then
    let before := prevFree A.mem prev
    let merged := span A.mem prev + span A.mem block
    (stampFree (tlsfArenaUnlinkFree A prev) prev merged, prev, before)
  else (A, block, prev)

/-- The physical successor learns that `block` is its free predecessor,
src/src/cmem_slab.c:151-156. -/
def stampAfter (A : Arena) (block : Nat) : Arena :=
  let after := block + span A.mem block
  let m₁ := if after ≠ A.sentinel then setSize A.mem after (orPrevFree (A.mem after)) else A.mem
  { A with mem := setPrevPhysical m₁ after block }

/-- Link between `prev` and `curr`, then the successor's metadata,
src/src/cmem_slab.c:140-156. -/
def linkFree (A : Arena) (block prev curr : Nat) : Arena :=
  let r := linkBlock A.mem A.freeList block prev curr
  stampAfter { A with mem := r.1, freeList := r.2 } block

/-- mirrors `tlsf_arena_insert_free`, src/src/cmem_slab.c:111-157 -/
def tlsfArenaInsertFree (A : Arena) (block : Nat) : Arena :=
  let pos := insertPos A.mem block A.size 0 A.freeList
  let f := mergeForward A block pos.2
  let g := mergeBackward f.1 block pos.1
  linkFree g.1 g.2.1 g.2.2 f.2

/-! ## Lifecycle -/

/-- mirrors `tlsf_arena_init`, src/src/cmem_slab.c:159-197, on a region `raw`
with contents `m` from `sys_mem_alloc`. -/
def tlsfArenaInit (raw : Nat) (m : Mem) : Arena :=
  let sentinel := raw + arenaDefaultSize - blockHdr
  let m := setSize m raw (orFree (arenaDefaultSize - blockHdr))
  let m := setPrevFree (setNextFree (setPrevPhysical m raw 0) raw 0) raw 0
  let m := setPrevPhysical (setSize m sentinel 0) sentinel raw
  let m := setPrevFree (setNextFree m sentinel 0) sentinel 0
  { raw, size := arenaDefaultSize, sentinel, freeList := raw, remoteFree := 0, liveBytes := 0,
    retired := false, cleanupClaimed := false, finished := false, mem := m }

/-- The loop of `tlsf_arena_reap`. -/
def reapLoop : Nat → Arena → Nat → Arena
  | 0, A, _ => A
  | fuel + 1, A, block =>
    if block = 0 then A
    else
      let next := nextFree A.mem block
      reapLoop fuel (tlsfArenaInsertFree (stampFree A block (span A.mem block)) block) next

/-- mirrors `tlsf_arena_reap`, src/src/cmem_slab.c:199-210 -/
def tlsfArenaReap (A : Arena) : Arena :=
  reapLoop A.size { A with remoteFree := 0 } A.remoteFree

/-- mirrors `tlsf_arena_cleanup`, src/src/cmem_slab.c:221-235 (NDEBUG) -/
def tlsfArenaCleanup (A : Arena) : Arena :=
  let A := tlsfArenaReap A
  { A with raw := 0, finished := true }

/-! ## Allocation and release -/

/-- The first-fit scan of `tlsf_arena_alloc`, src/src/cmem_slab.c:290-293. -/
def firstFit (m : Mem) (total : Nat) : Nat → Nat → Nat
  | 0, _ => 0
  | fuel + 1, block =>
    if block ≠ 0 ∧ span m block < total then firstFit m total fuel (nextFree m block) else block

/-- `after->size_and_flags &= ~PREV_FREE` unless `after` is the sentinel. -/
def unstampAfter (A : Arena) (after : Nat) : Arena :=
  if after ≠ A.sentinel then { A with mem := setSize A.mem after (clearPrevFree (A.mem after)) }
  else A

/-- `block` becomes live with span `total` and the rest, `remaining` bytes,
goes back to the free list. -/
def splitOff (A : Arena) (block total remaining : Nat) : Arena :=
  let remainder := block + total
  let m := setSize A.mem block total
  let m := setPrevPhysical (setSize m remainder (orFree remaining)) remainder block
  tlsfArenaInsertFree { A with mem := m } remainder

/-- The free block `block` becomes live, src/src/cmem_slab.c:298-316. -/
def carve (A : Arena) (block total : Nat) : Arena :=
  let blockSz := span A.mem block
  let remaining := blockSz - total
  let after := block + blockSz
  let A₁ := tlsfArenaUnlinkFree A block
  if minBlock + blockHdr ≤ remaining then splitOff A₁ block total remaining
  else
    let m := setPrevPhysical (setSize A₁.mem block blockSz) after block
    unstampAfter { A₁ with mem := m } after

def reapIfAny (A : Arena) : Arena := if A.remoteFree ≠ 0 then tlsfArenaReap A else A

/-- mirrors `tlsf_arena_alloc`, src/src/cmem_slab.c:284-323; `0` is NULL -/
def tlsfArenaAlloc (A : Arena) (total : Nat) : Arena × Nat :=
  let A := reapIfAny A
  let block := firstFit A.mem total A.size A.freeList
  if block = 0 then (A, 0)
  else
    let A := carve A block total
    ({ A with liveBytes := sizeAdd A.liveBytes (span A.mem block) }, block)

/-- mirrors `tlsf_arena_free_block`, src/src/cmem_slab.c:325-364 (NDEBUG, no
concurrent pusher); `attached` is `tls_cache.tlsf_arena == arena` -/
def tlsfArenaFreeBlock (A : Arena) (block : Nat) (attached : Bool) : Arena :=
  let sp := span A.mem block
  let A₁ := if attached && !A.retired then
      tlsfArenaInsertFree (stampFree A block sp) block
    else { A with mem := setNextFree A.mem block A.remoteFree, remoteFree := block }
  let prevLive := A₁.liveBytes
  let A₂ := { A₁ with liveBytes := sizeSub prevLive sp }
  if prevLive = sp ∧ A₂.retired ∧ ¬ A₂.cleanupClaimed then
    tlsfArenaCleanup { A₂ with cleanupClaimed := true }
  else A₂

/-! ## In-place grow -/

/-- Absorb the free successor of `ablock`, src/src/cmem_alloc.c:1486-1513. -/
def absorbNext (A : Arena) (ablock need : Nat) : Arena :=
  let acur := span A.mem ablock
  let anext := ablock + acur
  let aspan := span A.mem anext
  let total := acur + aspan
  let after := anext + aspan
  let A₁ := tlsfArenaUnlinkFree A anext
  let A₂ := unstampAfter { A₁ with mem := setPrevPhysical A₁.mem after ablock } after
  if minBlock + blockHdr ≤ total - need then
    let A₃ := splitOff A₂ ablock need (total - need)
    { A₃ with liveBytes := sizeAdd A₃.liveBytes (need - acur) }
  else
    { A₂ with mem := setSize A₂.mem ablock total,
              liveBytes := sizeAdd A₂.liveBytes (total - acur) }

/-- Whether the successor of `ablock` can be absorbed,
src/src/cmem_alloc.c:1483-1485. -/
def growable (A : Arena) (ablock need : Nat) : Bool :=
  let anext := ablock + span A.mem ablock
  decide (anext ≠ A.sentinel) && isFree A.mem anext &&
    decide (need ≤ span A.mem ablock + span A.mem anext)

/-- The owner's in-place branch of `mp_realloc`, src/src/cmem_alloc.c:1469-1538.
`ptr` is the user pointer, `ablock` its header's `raw_base`; the header's
`requested_size` and `usable_size` are at `ptr - 152 + 8` and `ptr - 152 + 16`.
Returns whether `ptr` was returned. -/
def mpReallocArena (A : Arena) (ptr ablock newSize : Nat) (canary : Bool) : Arena × Bool :=
  let A := reapIfAny A
  let need := totalNeeded newSize canary.toNat
  let A := if span A.mem ablock < need ∧ growable A ablock need then absorbNext A ablock need else A
  let acur := span A.mem ablock
  if need ≤ acur then
    let m := A.mem.set (ptr - hdrSize + 8) newSize
    let m := m.set (ptr - hdrSize + 16) (sizeSub acur (blockHdr + hdrSize + canary.toNat))
    let m := if canary then m.setByte (sizeAdd ptr newSize) canaryByte else m
    ({ A with mem := m }, true)
  else (A, false)

/-! ## The validator -/

/-- The physical-chain half of `tlsf_arena_validate`, src/src/cmem_slab.c:390-425. -/
def validateChain (m : Mem) (fin : Nat) : Nat → Nat → Nat → Bool
  | 0, _, _ => false
  | fuel + 1, prev, block =>
    if block < fin then
      let sp := span m block
      if sp < minBlock ∨ sp % 8 ≠ 0 then false
      else if block + sp > fin then false
      else if prevPhysical m block ≠ prev then false
      else if (decide (prev ≠ 0) && isFree m prev) ≠ prevFreeBit (m block) then false
      else validateChain m fin fuel block (block + sp)
    else if block ≠ fin ∨ m block ≠ 0 then false
    else prevPhysical m block = prev

/-- The free-list half, src/src/cmem_slab.c:427-446. -/
def validateList (m : Mem) (raw fin : Nat) : Nat → Nat → Nat → Bool
  | 0, _, _ => false
  | fuel + 1, prev, block =>
    if block = 0 then true
    else if !isFree m block then false
    else if prevFree m block ≠ prev then false
    else if prev ≠ 0 ∧ (block ≤ prev ∨ prev + span m prev = block) then false
    else if block < raw ∨ block + span m block > fin then false
    else validateList m raw fin fuel block (nextFree m block)

/-- mirrors `tlsf_arena_validate`, src/src/cmem_slab.c:374-447 -/
def tlsfArenaValidate (A : Arena) : Bool :=
  if A.raw = 0 then false
  else
    let fin := A.raw + A.size - blockHdr
    validateChain A.mem fin A.size 0 A.raw && validateList A.mem A.raw fin A.size 0 A.freeList

end Cmem.L2.ThreadArena

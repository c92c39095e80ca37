import Cmem.Core.Bits
import Cmem.L1Layout.Block

/-!
# The shared TLSF allocator

`tlsf_pool_t` and src/src/cmem_tlsf.c, the thread cache of freed TLSF blocks in
`mp_alloc_internal`, `mp_free` and `mp_realloc` (src/src/cmem_alloc.c), its
flushes (src/src/cmem_slab.c) and the TLSF part of `mp_reset`
(src/src/cmem_lifecycle.c). All arenas share one memory, so a write that leaves
its arena is seen by the others. An arena is named by the address of its
`tlsf_pool_t`, a pool by a number (`0` is NULL); the arenas of a pool are listed
newest first, as `tlsf_root` links them.

Bitmaps are 32-bit vectors. `int` bucket indices are naturals: `tlsf_fls` and
`tlsf_ffs` give -1 only for 0, which no caller passes; a shift count of a C
shift by `fl - TLSF_SL_SHIFT` that would be negative is 0.

Left out: locks (the results here are single-threaded) and the statistics
counters, which no TLSF function reads.
-/
namespace Cmem.L2.SharedTlsf

/-! ## Buckets -/

/-- mirrors `tlsf_fls`, src/src/cmem_tlsf.c:47-53; the argument is cast to
`uint32_t` -/
def tlsfFls (val : Nat) : Nat := Nat.log2 (val % 2 ^ 32)

/-- mirrors `tlsf_ffs`, src/src/cmem_tlsf.c:64-70 -/
def tlsfFfs (val : BitVec 32) : Nat := ctz val

/-- mirrors `tlsf_mapping_insert`, src/src/cmem_tlsf.c:83-92 -/
def tlsfMappingInsert (size : Nat) : Nat × Nat :=
  if size < 2 ^ 4 then (0, size)
  else (tlsfFls size, (size >>> (tlsfFls size - 4)) ^^^ 2 ^ 4)

/-- mirrors `tlsf_mapping_search`, src/src/cmem_tlsf.c:106-122 -/
def tlsfMappingSearch (size : Nat) : Nat × Nat :=
  if 2 ^ 4 ≤ size then
    let fl := tlsfFls size
    let size := sizeAdd size (2 ^ (fl - 4) - 1)
    (fl, if fl = 0 then size else (size >>> (fl - 4)) ^^^ 2 ^ 4)
  else (0, size)

/-- mirrors `tlsf_block_size_to_fl`, src/src/cmem_tlsf.c:133-139 -/
def tlsfBlockSizeToFl (size : Nat) : Nat := if size < 2 ^ 4 then 0 else tlsfFls size

/-! ## One arena -/

/-- `tlsf_pool_t`. `blocks fl sl` heads the list of bucket `(fl, sl)`. -/
structure TPool where
  raw : Nat
  size : Nat
  owner : Nat
  flBitmap : BitVec 32
  slBitmap : Nat → BitVec 32
  blocks : Nat → Nat → Nat

/-- `tpool->blocks[fl][sl] = h`. -/
def TPool.setHead (T : TPool) (fl sl h : Nat) : TPool :=
  { T with blocks := Function.update T.blocks fl (Function.update (T.blocks fl) sl h) }

/-- `fl_bitmap |= 1 << fl; sl_bitmap[fl] |= 1 << sl`. -/
def TPool.mark (T : TPool) (fl sl : Nat) : TPool :=
  { T with flBitmap := T.flBitmap ||| 1#32 <<< fl,
           slBitmap := Function.update T.slBitmap fl (T.slBitmap fl ||| 1#32 <<< sl) }

/-- `sl_bitmap[fl] &= ~(1 << sl)`, and the `fl` bit when the word becomes 0. -/
def TPool.unmark (T : TPool) (fl sl : Nat) : TPool :=
  let sm := T.slBitmap fl &&& ~~~(1#32 <<< sl)
  { T with slBitmap := Function.update T.slBitmap fl sm,
           flBitmap := if sm = 0#32 then T.flBitmap &&& ~~~(1#32 <<< fl) else T.flBitmap }

/-- mirrors `tlsf_insert_free_block_nolock`, src/src/cmem_tlsf.c:210-226 -/
def tlsfInsertFreeBlock (m : Mem) (T : TPool) (block : Nat) : Mem × TPool :=
  let (fl, sl) := tlsfMappingInsert (span m block)
  let r := linkBlock m (T.blocks fl sl) block 0 (T.blocks fl sl)
  (r.1, (T.setHead fl sl r.2).mark fl sl)

/-- mirrors `tlsf_remove_free_block_nolock`, src/src/cmem_tlsf.c:250-271 -/
def tlsfRemoveFreeBlock (m : Mem) (T : TPool) (block : Nat) : Mem × TPool :=
  let (fl, sl) := tlsfMappingInsert (span m block)
  let r := unlinkBlock m (T.blocks fl sl) block
  let T := T.setHead fl sl r.2
  (r.1, if r.2 = 0 then T.unmark fl sl else T)

/-- mirrors `tlsf_find_suitable_block`, src/src/cmem_tlsf.c:297-320 -/
def tlsfFindSuitableBlock (T : TPool) (total : Nat) : Nat :=
  let (fl, sl) := tlsfMappingSearch total
  let slMap := T.slBitmap fl &&& BitVec.allOnes 32 <<< (sl % 32)
  if slMap ≠ 0#32 then T.blocks fl (tlsfFfs slMap)
  else
    let flMap := T.flBitmap &&& BitVec.allOnes 32 <<< ((fl + 1) % 32)
    if flMap ≠ 0#32 then T.blocks (tlsfFfs flMap) (tlsfFfs (T.slBitmap (tlsfFfs flMap)))
    else 0

/-- The free block of `remaining` bytes behind the first `total` bytes of
`block`: src/src/cmem_tlsf.c:381-389, 431-439 and 617-626. -/
def splitOff (m : Mem) (T : TPool) (block total remaining : Nat) : Mem × TPool :=
  let m := setSize m block (total + andPrevFree (m block))
  let split := block + total
  let m := setPrevPhysical (setSize m split (orFree remaining)) split block
  let next := split + remaining
  let m := setPrevPhysical m next split
  let m := setSize m next (orPrevFree (m next))
  tlsfInsertFreeBlock m T split

/-- The body of the arena search of `tlsf_alloc`, src/src/cmem_tlsf.c:374-393
and once more 427-443. -/
def takeBlock (m : Mem) (T : TPool) (block total : Nat) : Mem × TPool :=
  let (m, T) := tlsfRemoveFreeBlock m T block
  let currentSize := span m block
  let remaining := sizeSub currentSize total
  if minBlock + blockHdr ≤ remaining then splitOff m T block total remaining
  else
    let m := setSize m block (clearFree (m block))
    let next := block + currentSize
    (setSize m next (clearPrevFree (m next)), T)

/-- Coalesce with the next block, src/src/cmem_tlsf.c:507-517; returns the size
reached. -/
def mergeNext (m : Mem) (T : TPool) (block : Nat) : Mem × TPool × Nat :=
  let size := span m block
  let next := block + size
  if isFree m next then
    let nextSize := span m next
    let (m, T) := tlsfRemoveFreeBlock m T next
    let size := size + nextSize
    let m := setSize m block (orFree (size + andPrevFree (m block)))
    (setPrevPhysical m (block + size) block, T, size)
  else (m, T, size)

/-- Coalesce with the previous block, src/src/cmem_tlsf.c:520-534; returns the
block and the size reached. -/
def mergePrev (m : Mem) (T : TPool) (block size : Nat) : Mem × TPool × Nat × Nat :=
  let prev := prevPhysical m block
  if prevFreeBit (m block) ∧ prev ≠ 0 ∧ isFree m prev then
    let prevSize := span m prev
    let (m, T) := tlsfRemoveFreeBlock m T prev
    let m := setSize m prev (orFree (prevSize + size + andPrevFree (m prev)))
    (setPrevPhysical m (prev + prevSize + size) prev, T, prev, prevSize + size)
  else (m, T, block, size)

/-- mirrors `tlsf_free`, src/src/cmem_tlsf.c:489-543; `block` is
`header->raw_base` -/
def tlsfFree (m : Mem) (T : TPool) (block : Nat) : Mem × TPool :=
  let m := setSize m block (orFree (m block))
  let (m, T, size) := mergeNext m T block
  let (m, T, block, size) := mergePrev m T block size
  let after := block + size
  tlsfInsertFreeBlock (setSize m after (orPrevFree (m after))) T block

/-- The structural part of `tlsf_try_inplace_expand`,
src/src/cmem_tlsf.c:592-635. -/
def expandBlock (m : Mem) (T : TPool) (block total : Nat) : Option (Mem × TPool) :=
  let currentSize := span m block
  let next := block + currentSize
  if !isFree m next then none
  else if currentSize + span m next < total then none
  else
    let combined := currentSize + span m next
    let (m, T) := tlsfRemoveFreeBlock m T next
    let remaining := combined - total
    if minBlock + blockHdr ≤ remaining then some (splitOff m T block total remaining)
    else
      let m := setSize m block (combined + andPrevFree (m block))
      let far := block + combined
      let m := setPrevPhysical m far block
      some (setSize m far (clearPrevFree (m far)), T)

/-- Putting a cached block back without coalescing: `block->size_and_flags |=
BLOCK_STATE_FREE; tlsf_insert_free_block(tpool, block)`. -/
def reinsert (m : Mem) (T : TPool) (block : Nat) : Mem × TPool :=
  tlsfInsertFreeBlock (setSize m block (orFree (m block))) T block

/-- The covering free block and the sentinel, src/src/cmem_tlsf.c:181-192 and
src/src/cmem_lifecycle.c:195-204. -/
def seedRegion (m : Mem) (raw size : Nat) : Mem :=
  let m := setSize m raw (orFree (sizeSub size blockHdr))
  let m := setPrevFree (setNextFree (setPrevPhysical m raw 0) raw 0) raw 0
  let sentinel := raw + span m raw
  setPrevPhysical (setSize m sentinel 0) sentinel raw

/-- A zeroed index over `[raw, raw + size)`. -/
def emptyIndex (raw size owner : Nat) : TPool :=
  ⟨raw, size, owner, 0#32, fun _ => 0#32, fun _ _ => 0⟩

/-- `sizeof(tlsf_pool_t)`, with 40-byte mutexes. -/
def tpoolHdr : Nat := 23240

/-- mirrors `tlsf_create_pool_custom`, src/src/cmem_tlsf.c:154-200, on the
memory at `self` -/
def tlsfCreatePoolCustom (m : Mem) (owner size self : Nat) : Mem × TPool :=
  let size := sizeAlign8 size
  let raw := self + tpoolHdr
  let m := seedRegion m raw size
  let (fl, sl) := tlsfMappingInsert (span m raw)
  (m, ((emptyIndex raw size owner).mark fl sl).setHead fl sl raw)

/-- One round of the arena loop of `mp_reset`, src/src/cmem_lifecycle.c:190-208. -/
def reseed (m : Mem) (T : TPool) : Mem × TPool :=
  tlsfInsertFreeBlock (seedRegion m T.raw T.size) (emptyIndex T.raw T.size T.owner) T.raw

end Cmem.L2.SharedTlsf

import Mathlib
import Cmem.Core.Bytes
import Cmem.L3Pool.Model

/-!
# `mp_free_batch` against `mp_free`, one element after the other

`mp_free` (src/src/cmem_alloc.c:1199-1410) reads the header of a block, checks it, and
returns the block to its tier. `mp_free_batch` (src/src/cmem_alloc.c:1105-1148) hands
most elements to `mp_free`, and collects the slab blocks of the pool it is given;
`flush_slab_block` (src/src/cmem_alloc.c:1024-1097) releases up to 256 of them in phases.

Memory is bytes, so that a header is what is there to be read: a block that is freed
may have been freed before, and its header may be that of no block at all. What is
written is the poison, the links of free slots, and `raw_base` when the thread cache
is flushed. A pool is named by its address, which is not 0. The active list of a pool
is the list of the headers on it; the free lists of slots are lists, with their links
in memory; TLSF areas, private arenas and the system keep a list of what came back. A
private arena that is retired goes with its last block, and `total_pool_size` with it. The
calling thread stays on one processor.
-/
namespace Cmem.L3.BatchFree

open Cmem.L3.Pool (wrap headerSize classCount)

/-! ## Headers -/

def magicHead : Nat := 0x4D504F4F
def slotsMax : Nat := 256
def percpuMax : Nat := 16

/-- The fields of `mp_block_header_t` that are read when a block is freed. -/
structure Header where
  magic : Nat
  allocType : Nat
  slabClass : Nat
  flags : Nat
  requested : Nat
  usable : Nat
  rawBase : Nat
  subpool : Nat
  deriving DecidableEq

/-- `(mp_block_header_t *)ptr - 1` -/
def header (m : Bytes) (p : Nat) : Header :=
  let h := p - headerSize
  ⟨m.le h 4, m.le (h + 4) 1, m.le (h + 5) 1, m.le (h + 6) 2, m.le (h + 8) 8, m.le (h + 16) 8,
    m.le (h + 24) 8, m.le (h + 32) 8⟩

/-- `ALLOC_TYPE_SLAB`, and so on -/
def typeSlab : Nat := 1
def typeTlsf : Nat := 2
def typeOs : Nat := 3
def typeEmergency : Nat := 4

/-- `MP_BLOCK_FLAG_TLSF_ARENA` -/
def Header.inArena (h : Header) : Bool := h.flags % 2 = 1

/-- `MP_BLOCK_FLAG_COUNTED` -/
def Header.counted (h : Header) : Bool := h.flags / 2 % 2 = 1

/-! ## State -/

structure PoolCfg where
  threadSafe : Bool
  fastPath : Bool
  canary : Bool
  poison : Bool
  percpu : Bool
  slotSize : Nat → Nat

/-- What freeing does not change. -/
structure Env where
  cfg : Nat → PoolCfg
  /-- `owner_pool` of a TLSF area, 0 for none. -/
  tlsfOwner : Nat → Nat
  /-- `owner_pool` of a private arena. -/
  arenaOwner : Nat → Nat

inductive Report where
  | doubleFree (p : Nat)
  | canary (p size : Nat)
  deriving DecidableEq

structure Stats where
  activeBytes : Nat
  activeAllocations : Nat
  totalFreeOps : Nat
  osAllocatedBytes : Nat
  totalPoolSize : Nat
  tlsfAllocatedBytes : Nat
  live : List Nat
  isDirty : Bool
  emergencyUsed : Bool
  reports : List Report
  deriving DecidableEq

/-- The free slots of a pool: those of the processor and of the remote queue by class,
those of a page by its number. -/
structure Slab where
  allocatedBytes : Nat
  percpu : Nat → List Nat
  remoteFree : Nat → List Nat
  pages : Nat → List Nat

/-- The thread cache of slots with its owner, and the free slots of the pools. -/
structure Tiers where
  /-- `tls_cache.owner_pool`, 0 for none. -/
  owner : Nat
  slots : Nat → List Nat
  slab : Nat → Slab

/-- The private arenas, by their descriptors: which one the thread has (`tls_cache.tlsf_arena`,
0 for none), and `live_bytes`, `retired` and `cleanup_claimed` of each. -/
structure Arenas where
  current : Nat
  liveBytes : Nat → Nat
  retired : Nat → Bool
  claimed : Nat → Bool

/-- What the pools count, and the arenas. -/
structure Ledger where
  stats : Nat → Stats
  arenas : Arenas

structure World extends Ledger where
  mem : Bytes
  tiers : Tiers
  /-- `tls_cache.tlsf_slots`: blocks with their areas. -/
  tlsfSlots : Nat → List (Nat × Nat)
  tlsfFree : List (Nat × Nat)
  arenaFree : List (Nat × Nat)
  unmapped : List Nat

def Ledger.onStats (l : Ledger) (q : Nat) (f : Stats → Stats) : Ledger :=
  { l with stats := Function.update l.stats q (f (l.stats q)) }

def Ledger.onArenas (l : Ledger) (g : Arenas → Arenas) : Ledger := { l with arenas := g l.arenas }

def World.onStats (w : World) (q : Nat) (f : Stats → Stats) : World :=
  { w with toLedger := w.toLedger.onStats q f }

def Tiers.onSlab (t : Tiers) (q : Nat) (f : Slab → Slab) : Tiers :=
  { t with slab := Function.update t.slab q (f (t.slab q)) }

/-! ## Private arenas -/

def less (a n : Nat) : Nat := wrap (a + (2 ^ 64 - n))

/-- `TLSF_ARENA_DEFAULT_SIZE` -/
def arenaSize : Nat := 262144

def Stats.dropPool (s : Stats) (n : Nat) : Stats :=
  { s with totalPoolSize := less s.totalPoolSize n }

/-- mirrors `tlsf_arena_span`, src/src/cmem_slab.c:91-94 -/
def arenaSpan (m : Bytes) (block : Nat) : Nat := m.le block 8 / 4 * 4

/-- The thread lets go of its arena. -/
def Arenas.detach (s : Arenas) (a : Nat) : Arenas :=
  { s with current := 0, retired := Function.update s.retired a true }

def Arenas.pay (s : Arenas) (a span : Nat) : Arenas :=
  { s with liveBytes := Function.update s.liveBytes a (less (s.liveBytes a) span) }

def Arenas.claim (s : Arenas) (a : Nat) : Arenas :=
  { s with claimed := Function.update s.claimed a true }

/-- mirrors `tlsf_arena_cleanup`, src/src/cmem_slab.c:221-235, for the first who claims it -/
def Ledger.cleanUp (e : Env) (l : Ledger) (a : Nat) : Ledger :=
  if l.arenas.claimed a then l
  else (l.onStats (e.arenaOwner a) (·.dropPool arenaSize)).onArenas (·.claim a)

/-- mirrors `tlsf_arena_retire`, src/src/cmem_slab.c:237-254 -/
def Ledger.retire (e : Env) (l : Ledger) (pool : Nat) : Ledger :=
  let a := l.arenas.current
  if a = 0 ∨ e.arenaOwner a ≠ pool then l
  else
    let l := l.onArenas (·.detach a)
    if l.arenas.liveBytes a = 0 then l.cleanUp e a else l

/-- The counters of `tlsf_arena_free_block`, src/src/cmem_slab.c:354-365. -/
def Ledger.freeBlock (e : Env) (l : Ledger) (a span : Nat) : Ledger :=
  let last := l.arenas.liveBytes a = span ∧ l.arenas.retired a = true
  let l := l.onArenas (·.pay a span)
  if last then l.cleanUp e a else l

/-! ## Slots -/

/-- Where a slot goes that is freed. -/
inductive Spot where
  | cache
  | percpu
  | remote
  | page
  deriving DecidableEq

def Tiers.spot (e : Env) (t : Tiers) (q cls : Nat) : Spot :=
  if (t.slots cls).length < slotsMax then .cache
  else if (e.cfg q).percpu = true ∧ ((t.slab q).percpu cls).length < percpuMax then .percpu
  else if (e.cfg q).threadSafe then .remote
  else .page

/-- The list the slot joins. -/
def Tiers.list (t : Tiers) (q cls slot : Nat) : Spot → List Nat
  | .cache => t.slots cls
  | .percpu => (t.slab q).percpu cls
  | .remote => (t.slab q).remoteFree cls
  | .page => (t.slab q).pages (slot / 65536)

/-- mirrors `slab_free`, src/src/cmem_slab.c:1058-1129, but for the lists of pages -/
def Slab.free (s : Slab) (size slot : Nat) : Slab :=
  { s with
    allocatedBytes := if size ≤ s.allocatedBytes then s.allocatedBytes - size else 0
    pages := Function.update s.pages (slot / 65536) (slot :: s.pages (slot / 65536)) }

def Tiers.put (e : Env) (t : Tiers) (q cls slot : Nat) : Spot → Tiers
  | .cache => { t with slots := Function.update t.slots cls (slot :: t.slots cls) }
  | .percpu =>
    t.onSlab q fun s => { s with percpu := Function.update s.percpu cls (slot :: s.percpu cls) }
  | .remote =>
    t.onSlab q fun s =>
      { s with remoteFree := Function.update s.remoteFree cls (slot :: s.remoteFree cls) }
  | .page => t.onSlab q (·.free ((e.cfg q).slotSize cls) slot)

/-- `slot->next` is the head of the list. -/
def World.putAt (e : Env) (w : World) (q cls slot : Nat) (sp : Spot) : World :=
  { w with
    mem := w.mem.store slot 8 ((w.tiers.list q cls slot sp).headD 0)
    tiers := w.tiers.put e q cls slot sp }

def World.place (e : Env) (w : World) (q cls slot : Nat) : World :=
  w.putAt e q cls slot (w.tiers.spot e q cls)

/-- What the flush of the cache takes for a slot. -/
def SlotOk (slot : Nat) : Prop := slot % 8 = 0 ∧ 0x10000 ≤ slot

instance decSlotOk (slot : Nat) : Decidable (SlotOk slot) :=
  inferInstanceAs (Decidable (slot % 8 = 0 ∧ 0x10000 ≤ slot))

/-- The slots of the thread cache, with their classes; a list ends at what is no slot. -/
def Tiers.cached (t : Tiers) : List (Nat × Nat) :=
  (List.range classCount).flatMap fun cls =>
    ((t.slots cls).takeWhile (SlotOk ·)).map fun slot => (cls, slot)

/-- A slot of the cache goes back to its page; its header is stamped for `slab_free`. -/
def World.giveBack (e : Env) (q : Nat) (w : World) (x : Nat × Nat) : World :=
  World.putAt e { w with mem := w.mem.store (x.2 + 24) 8 x.2 } q x.1 x.2 .page

/-- mirrors `tls_cache_flush_pool`, src/src/cmem_slab.c:455-500 -/
def World.flushCache (e : Env) (w : World) : World :=
  { w.tiers.cached.foldl (World.giveBack e w.tiers.owner) w with
    toLedger := w.toLedger.retire e w.tiers.owner
    tlsfSlots := fun _ => []
    tlsfFree := (List.range 8).flatMap w.tlsfSlots ++ w.tlsfFree }

def World.own (w : World) (q : Nat) : World :=
  { w with tiers := { w.tiers with owner := q, slots := fun _ => [] } }

/-- mirrors `tls_cache_validate_owner`, src/src/cmem_slab.c:520-551 -/
def World.validateOwner (e : Env) (w : World) (q : Nat) : World :=
  if w.tiers.owner = q then w
  else if w.tiers.owner = 0 then w.own q
  else (w.flushCache e).own q

/-! ## Statistics -/

def Stats.discharge (s : Stats) (size : Nat) : Stats :=
  { s with activeBytes := less s.activeBytes size, activeAllocations := less s.activeAllocations 1 }

def Stats.freeOp (s : Stats) : Stats := { s with totalFreeOps := wrap (s.totalFreeOps + 1) }

/-- mirrors `active_list_remove`, src/src/cmem_lifecycle.c:492-508 -/
def Stats.unlink (s : Stats) (h : Nat) : Stats := { s with live := s.live.erase h }

/-- mirrors `mp_free_stats_update`, src/src/cmem_alloc.c:10-27 -/
def Stats.update (s : Stats) (c : PoolCfg) (size h : Nat) : Stats :=
  ((if c.fastPath then s else s.unlink h).discharge size).freeOp

/-- mirrors `mp_free_stats_no_lock`, src/src/cmem_alloc.c:39-52 -/
def Stats.updateNoLock (s : Stats) (size : Nat) : Stats := (s.discharge size).freeOp

/-- `MP_EVENT_DOUBLE_FREE` and `MP_EVENT_CANARY_CORRUPTION`, with `mp_mark_pool_dirty` -/
def Stats.report (s : Stats) (r : Report) : Stats :=
  { s with reports := r :: s.reports, isDirty := true }

def Stats.dropTlsf (s : Stats) (n : Nat) : Stats :=
  { s with tlsfAllocatedBytes := less s.tlsfAllocatedBytes n }

def Stats.dropOs (s : Stats) (n extra : Nat) : Stats :=
  { s with
    osAllocatedBytes := less s.osAllocatedBytes n
    totalPoolSize := less s.totalPoolSize (n + extra) }

def Stats.dropEmergency (s : Stats) : Stats := { s with emergencyUsed := false }

/-- The statistics of a slab block in `mp_free`, src/src/cmem_alloc.c:1264-1351. `h` was
read before the switch of the cache, `h'` behind it. -/
def Stats.slab (s : Stats) (c : PoolCfg) (sp : Spot) (h h' : Header) (p : Nat) : Stats :=
  if c.threadSafe = false then
    if (if sp = .page then h' else h).counted then s.update c h'.requested (p - headerSize) else s
  else if c.fastPath then
    if sp = .cache then (if h.counted then s.discharge h.requested else s).freeOp
    else if h.counted then s.updateNoLock h'.requested else s
  else (if h.counted then s.updateNoLock h'.requested else s).unlink (p - headerSize)

/-- The statistics of a slab block in `flush_slab_block`, src/src/cmem_alloc.c:1043-1070. -/
def Stats.slabBatch (s : Stats) (c : PoolCfg) (h : Header) (p : Nat) : Stats :=
  if c.threadSafe ∧ c.fastPath then (if h.counted then s.discharge h.requested else s).freeOp
  else if h.counted then s.update c h.requested (p - headerSize) else s

/-! ## `mp_free` -/

def World.poisonFill (e : Env) (w : World) (q p n : Nat) : World :=
  if (e.cfg q).poison then { w with mem := w.mem.fill p n 0xDD } else w

/-- mirrors `mp_verify_free_canary`, src/src/cmem_alloc.c:1174-1190 -/
def World.verifyCanary (e : Env) (w : World) (q p n : Nat) : World :=
  if (e.cfg q).canary = true ∧ w.mem (p + n) ≠ 0xDE then w.onStats q (·.report (.canary p n)) else w

/-- The pool a block belongs to, src/src/cmem_alloc.c:1225-1244. -/
def Env.poolOf (e : Env) (pool : Nat) (h : Header) : Nat :=
  if h.inArena then e.arenaOwner h.subpool
  else if h.subpool = 0 then pool
  else if h.allocType = typeTlsf then
    if e.tlsfOwner h.subpool = 0 then pool else e.tlsfOwner h.subpool
  else h.subpool

/-- `cache_idx` of a TLSF block -/
def tlsfCacheIndex (usable : Nat) : Option Nat :=
  let size := wrap (usable + 32 + headerSize)
  let fl := if size < 16 then 0 else Nat.log2 size
  if 6 ≤ fl ∧ fl < 14 then some (fl - 6) else none

/-- mirrors `tlsf_arena_free_block`, src/src/cmem_slab.c:325-372 -/
def World.freeArenaBlock (e : Env) (w : World) (a block : Nat) : World :=
  { w with
    toLedger := w.toLedger.freeBlock e a (arenaSpan w.mem block)
    arenaFree := (a, block) :: w.arenaFree }

/-- The block goes to its arena, to the thread cache, or to its area,
src/src/cmem_alloc.c:1371-1399. -/
def World.pushTlsf (e : Env) (w : World) (q : Nat) (h : Header) : World :=
  if h.inArena then w.freeArenaBlock e h.subpool h.rawBase
  else
    match tlsfCacheIndex h.usable with
    | some i =>
      if (w.tlsfSlots i).length < 8 then
        { w with
          tlsfSlots := Function.update w.tlsfSlots i ((h.rawBase, h.subpool) :: w.tlsfSlots i) }
      else
        { w.onStats q (·.dropTlsf h.usable) with
          tlsfFree := (h.rawBase, h.subpool) :: w.tlsfFree }
    | none =>
      { w.onStats q (·.dropTlsf h.usable) with tlsfFree := (h.rawBase, h.subpool) :: w.tlsfFree }

/-- The tiers behind the slabs, src/src/cmem_alloc.c:1353-1405. -/
def World.release (e : Env) (w : World) (q p : Nat) (h : Header) : World :=
  if h.allocType = typeTlsf then
    let w := w.validateOwner e q
    w.pushTlsf e q (header w.mem p)
  else if h.allocType = typeOs then
    { w.onStats q (·.dropOs h.requested (headerSize + if (e.cfg q).canary then 1 else 0)) with
      unmapped := h.rawBase :: w.unmapped }
  else if h.allocType = typeEmergency then w.onStats q (·.dropEmergency)
  else w

def World.freeSlab (e : Env) (w : World) (q p : Nat) (h : Header) : World :=
  let w := w.validateOwner e q
  let h' := header w.mem p
  let sp := w.tiers.spot e q h'.slabClass
  (w.onStats q (·.slab (e.cfg q) sp h h' p)).putAt e q h'.slabClass h'.rawBase sp

def World.freeOther (e : Env) (w : World) (q p : Nat) (h : Header) : World :=
  World.release e
    (if h.counted then w.onStats q (·.update (e.cfg q) h.requested (p - headerSize)) else w) q p h

/-- mirrors `mp_free`, src/src/cmem_alloc.c:1199-1410, for a pool that is not null -/
def mpFree (e : Env) (pool : Nat) (w : World) (p : Nat) : World :=
  if p = 0 then w
  else
    let h := header w.mem p
    if h.magic ≠ magicHead then w.onStats pool (·.report (.doubleFree p))
    else
      let q := e.poolOf pool h
      let w := if h.inArena then w.onStats q (·.dropTlsf h.usable) else w
      let w := (w.poisonFill e q p h.requested).verifyCanary e q p h.requested
      if h.allocType = typeSlab then w.freeSlab e q p h else w.freeOther e q p h

/-! ## `mp_free_batch` -/

/-- mirrors `flush_slab_block`, src/src/cmem_alloc.c:1024-1097; the elements are named by
their payloads -/
def flushSlabBlock (e : Env) (pool : Nat) (w : World) (ps : List Nat) : World :=
  let w := w.validateOwner e pool
  let w := ps.foldl (fun w p => w.poisonFill e pool p (header w.mem p).requested) w
  let w := ps.foldl (fun w p => w.onStats pool (·.slabBatch (e.cfg pool) (header w.mem p) p)) w
  ps.foldl (fun w p => w.place e pool (header w.mem p).slabClass (header w.mem p).rawBase) w

/-- The element goes to `mp_free`. -/
def falls (pool : Nat) (h : Header) : Bool :=
  h.magic ≠ magicHead || (h.subpool ≠ 0 && h.subpool ≠ pool) || h.allocType ≠ typeSlab

/-- `CMEM_FREE_BATCH_CHUNK` -/
def chunk : Nat := 256

/-- The loop body of `mp_free_batch`; the list is `hdrs`. -/
def batchStep (e : Env) (pool : Nat) (b : World × List Nat) (p : Nat) : World × List Nat :=
  if p = 0 then b
  else if falls pool (header b.1.mem p) then (mpFree e pool b.1 p, b.2)
  else if (b.2 ++ [p]).length = chunk then (flushSlabBlock e pool b.1 (b.2 ++ [p]), [])
  else (b.1, b.2 ++ [p])

/-- mirrors `mp_free_batch`, src/src/cmem_alloc.c:1105-1148 -/
def mpFreeBatch (e : Env) (pool : Nat) (w : World) (ptrs : List Nat) : World :=
  let b := ptrs.foldl (batchStep e pool) (w, [])
  if b.2 = [] then b.1 else flushSlabBlock e pool b.1 b.2

end Cmem.L3.BatchFree

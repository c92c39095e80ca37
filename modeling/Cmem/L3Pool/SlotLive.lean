import Cmem.L3Pool.BatchFree
import Cmem.L3Pool.Pages

/-!
# Which slots `mp_ptr_valid` takes for live

Pools with `MP_FLAG_FAST_PATH` keep no active list, so `mp_ptr_valid` decides from what is
in memory: the magic and `raw_base` of a header, the page it lies in, and the free list of
the page (`mp_fastpath_slot_live`, src/src/cmem_alloc.c:1731-1769). This is the model of one
thread that calls `mp_alloc`, `mp_aligned_alloc`, `mp_alloc_fast`, `mp_free` and
`mp_free_fast` on such pools, as far as slab slots go.

Memory is bytes. The free lists of slots, with the thread, with a processor, on a remote
queue or in a page, are lists, with their links in memory. Pages are numbered by their
address; the page a refill takes a slot of comes with the label, and so do the processor and
whether a request is refused before a tier is asked. Of the other tiers there is the turn of
the thread's cache to another pool, and the two words that `mp_aligned_alloc` may write
through the links of a header.
-/
namespace Cmem.L3.SlotLive

open Cmem.L3.Pool
  (Config Page wrap headerSize classCount defaultClasses slabMaxSize slabPageSize pageHeader
  slabCreatePage isPow2 alignUp)
open Cmem.L3.BatchFree (Header header magicHead typeSlab slotsMax percpuMax SlotOk)

/-! ## State -/

/-- `flags` of a pool, and `num_cpus`, 0 without a table of processors. -/
structure PoolCfg extends Config where
  zeroOnAlloc : Bool
  poison : Bool
  numCpus : Nat

/-- Where a free slot is. -/
inductive Spot where
  | cache (cls : Nat)
  | percpu (q cpu cls : Nat)
  | remote (q cls : Nat)
  | page (n : Nat)
  deriving DecidableEq

/-- A slab block that was handed out: the pointer, its slot, and the size; `aligned` is one of
`mp_aligned_alloc`. -/
structure Given where
  ptr : Nat
  slot : Nat
  size : Nat
  aligned : Bool
  deriving DecidableEq

structure World where
  mem : Bytes
  /-- The page at `65536 * n`. -/
  pages : Nat → Option Page
  pageFreeCount : Nat → Nat
  /-- `tls_cache.owner_pool`, 0 for none. -/
  owner : Nat
  free : Spot → List Nat
  live : List Given
  /-- Freed, and the slot is not handed out again. -/
  freed : List Given

namespace World

def setFree (w : World) (sp : Spot) (l : List Nat) : World :=
  { w with free := Function.update w.free sp l }

/-- The slot joins a list. -/
def push (w : World) (sp : Spot) (slot : Nat) : World :=
  { w.setFree sp (slot :: w.free sp) with mem := w.mem.store slot 8 ((w.free sp).headD 0) }

def pop (w : World) (sp : Spot) : World × Option Nat :=
  match w.free sp with
  | [] => (w, none)
  | slot :: l => (w.setFree sp l, some slot)

/-! ## Pages -/

/-- The slots of a page. -/
def slotsOf (p : Page) : List Nat :=
  (List.range p.total).map fun i => p.base + pageHeader + i * p.stride

/-- Each slot is linked to the next one. -/
def linkAll (m : Bytes) : List Nat → Bytes
  | [] => m
  | a :: l => (linkAll m l).store a 8 (l.headD 0)

/-- mirrors `slab_create_page`, src/src/cmem_slab.c:787-858, on fresh memory -/
def createPage (e : Nat → PoolCfg) (w : World) (q cls n : Nat) : World :=
  let p := slabCreatePage (e q).toConfig cls (slabPageSize * n)
  { w.setFree (.page n) (slotsOf p) with
    mem := linkAll (w.mem.fill (slabPageSize * n) slabPageSize 0) (slotsOf p)
    pages := Function.update w.pages n (some p)
    pageFreeCount := Function.update w.pageFreeCount n p.total }

/-- The first free slot of page `n`, which is created when it is not there. -/
def draw (e : Nat → PoolCfg) (w : World) (q cls n : Nat) : World × Option Nat :=
  let w := if (w.pages n).isNone then w.createPage e q cls n else w
  if (w.pages n).any (·.cls = cls) then w.pop (.page n) else (w, none)

/-- mirrors `slab_free_nolock`, src/src/cmem_slab.c:1015-1040 -/
def slabFree (e : Nat → PoolCfg) (w : World) (q slot : Nat) : World :=
  let n := slot / slabPageSize
  let w := w.push (.page n) slot
  if (e q).threadSafe then
    { w with pageFreeCount := Function.update w.pageFreeCount n (w.free (.page n)).length }
  else w

/-- The header `slab_free` is given for a slot of a list. -/
def restamp (w : World) (cls slot : Nat) : World :=
  let m := ((w.mem.store slot 4 magicHead).store (slot + 4) 1 typeSlab).store (slot + 5) 1 cls
  { w with mem := m.store (slot + 24) 8 slot }

/-- The loops of `tls_cache_flush_pool` and `remote_free_harvest_all` over one list,
src/src/cmem_slab.c:455-478 and 596-660: its slots go back to their pages. -/
def restore (e : Nat → PoolCfg) (w : World) (q cls : Nat) (sp : Spot) : World :=
  ((w.free sp).takeWhile (SlotOk ·)).foldl (fun w slot => (w.restamp cls slot).slabFree e q slot)
    (w.setFree sp [])

/-! ## The cache of the thread -/

/-- mirrors `tls_cache_flush_pool`, src/src/cmem_slab.c:455-500 -/
def flushCache (e : Nat → PoolCfg) (w : World) : World :=
  (List.range classCount).foldl (fun w' cls => w'.restore e w.owner cls (.cache cls)) w

def own (w : World) (q : Nat) : World :=
  (List.range classCount).foldl (fun w cls => w.setFree (.cache cls) []) { w with owner := q }

/-- mirrors `tls_cache_validate_owner`, src/src/cmem_slab.c:520-550 -/
def validateOwner (e : Nat → PoolCfg) (w : World) (q : Nat) : World :=
  if w.owner = q then w else if w.owner = 0 then w.own q else (w.flushCache e).own q

/-- mirrors `remote_free_harvest_all`, src/src/cmem_slab.c:596-690; the pending flags of one
thread say which queues are not empty -/
def harvest (e : Nat → PoolCfg) (w : World) (q : Nat) : World :=
  if (e q).threadSafe then
    (List.range classCount).foldl (fun w cls => w.restore e q cls (.remote q cls)) w
  else w

/-- mirrors `tls_cache_drain_slots`, src/src/cmem_slab.c:1146-1200 -/
def drainSlots (e : Nat → PoolCfg) (q cls : Nat) : List Nat → World → World
  | [], w => w
  | n :: l, w =>
    match w.draw e q cls n with
    | (w, none) => w
    | (w, some slot) => drainSlots e q cls l (w.push (.cache cls) slot)

/-- The loop of `percpu_refill`, src/src/cmem_slab.c:1539-1590. -/
def takeSlots (e : Nat → PoolCfg) (q cls : Nat) : List Nat → World → World × List Nat
  | [], w => (w, [])
  | n :: l, w =>
    match w.draw e q cls n with
    | (w, none) => (w, [])
    | (w, some slot) =>
      let r := takeSlots e q cls l w
      (r.1, slot :: r.2)

/-- mirrors `percpu_refill`, src/src/cmem_slab.c:1518-1613 -/
def percpuRefill (e : Nat → PoolCfg) (w : World) (q cpu cls : Nat) (ns : List Nat) : World :=
  if cpu < (e q).numCpus ∧ (w.free (.percpu q cpu cls)).length ≤ percpuMax / 2 then
    let r := takeSlots e q cls (ns.take percpuMax) w
    r.2.foldr (fun slot w => w.push (.percpu q cpu cls) slot) r.1
  else w

/-- mirrors `percpu_pop`, src/src/cmem_slab.c:1480-1503 -/
def percpuPop (e : Nat → PoolCfg) (w : World) (q cpu cls : Nat) : World × Option Nat :=
  if cpu < (e q).numCpus then w.pop (.percpu q cpu cls) else (w, none)

/-- mirrors `slab_alloc_with_tls_refill`, src/src/cmem_slab.c:1244-1312; behind a cache that
stays empty a page may still be found -/
def slabAllocWithTlsRefill (e : Nat → PoolCfg) (w : World) (q cls : Nat) (ns : List Nat)
    (last : Option Nat) : World × Option Nat :=
  match (drainSlots e q cls (ns.take 64) w).pop (.cache cls) with
  | (w, some slot) => (w, some slot)
  | (w, none) =>
    match last with
    | none => (w, none)
    | some n => w.draw e q cls n

/-! ## Allocation -/

/-- What comes with a request: whether it is refused, the processor, and the pages slots are
taken from. -/
structure Supply where
  refused : Bool
  cpu : Nat
  refill : List Nat
  drain : List Nat
  last : Option Nat

/-- The three tiers of slots, src/src/cmem_alloc.c:213-230. -/
def takeSlot (e : Nat → PoolCfg) (w : World) (q cls : Nat) (sup : Supply) : World × Option Nat :=
  match w.pop (.cache cls) with
  | (w, some slot) => (w, some slot)
  | (w, none) =>
    match w.percpuPop e q sup.cpu cls with
    | (w, some slot) => (w, some slot)
    | (w, none) =>
      match (w.percpuRefill e q sup.cpu cls sup.refill).percpuPop e q sup.cpu cls with
      | (w, some slot) => (w, some slot)
      | (w, none) => w.slabAllocWithTlsRefill e q cls sup.drain sup.last

/-- The slot for a request of `size` bytes. -/
def slotFor (e : Nat → PoolCfg) (w : World) (q size : Nat) (sup : Supply) : World × Option Nat :=
  if size = 0 ∨ sup.refused = true then (w, none)
  else ((w.validateOwner e q).harvest e q).takeSlot e q ((e q).classIndex size) sup

/-- The fields of a header that are read here. -/
def writeHeader (m : Bytes) (a : Nat) (h : Header) : Bytes :=
  (((((((m.store a 4 h.magic).store (a + 4) 1 h.allocType).store (a + 5) 1 h.slabClass).store
    (a + 6) 2 h.flags).store
    (a + 8) 8 h.requested).store (a + 16) 8 h.usable).store (a + 24) 8 h.rawBase).store (a + 32)
      8 h.subpool

/-- `if (pool->flags & MP_FLAG_DEBUG_CANARY) *canary = MP_CANARY_BYTE` -/
def putCanary (c : PoolCfg) (m : Bytes) (a : Nat) : Bytes := if c.canary then m.fill a 1 0xDE else m

/-- The stamp of a slab block, src/src/cmem_alloc.c:232-257 and src/include/cmem.h:1160-1178. -/
def format (e : Nat → PoolCfg) (w : World) (q cls slot size flags : Nat) : World :=
  let m :=
    writeHeader w.mem slot ⟨magicHead, typeSlab, cls, flags, size,
      (defaultClasses[cls]?).getD 0, slot, q⟩
  let m := putCanary (e q) m (slot + headerSize + size)
  { w with mem := if (e q).zeroOnAlloc then m.fill (slot + headerSize) size 0 else m }

/-- `MP_BLOCK_FLAG_COUNTED` -/
def flagCounted : Nat := 2

/-- The slab tier of `mp_alloc_internal`, src/src/cmem_alloc.c:89-260. -/
def allocInternal (e : Nat → PoolCfg) (w : World) (q size : Nat) (sup : Supply) :
    World × Option Nat :=
  match w.slotFor e q size sup with
  | (w, none) => (w, none)
  | (w, some slot) => (w.format e q ((e q).classIndex size) slot size flagCounted, some slot)

/-- The block is given to the caller. -/
def give (w : World) (b : Given) : World :=
  { w with live := b :: w.live, freed := w.freed.filter fun c => c.slot ≠ b.slot }

/-- The links of a header that moves, src/src/cmem_alloc.c:1664-1673; no header of these
pools is the head of the active list. -/
def relink (m : Bytes) (header moved : Nat) : Bytes :=
  let prev := m.le (header + 136) 8
  let m := if prev = 0 then m else m.store (prev + 144) 8 moved
  let next := m.le (header + 144) 8
  if next = 0 then m else m.store (next + 136) 8 moved

/-- The header moves to the aligned place, src/src/cmem_alloc.c:1649-1682. -/
def move (e : Nat → PoolCfg) (w : World) (q slot ptr size : Nat) : World :=
  let m := (w.mem.copy (ptr - headerSize) slot headerSize).store (ptr - headerSize + 8) 8 size
  { w with mem := putCanary (e q) (relink m slot (ptr - headerSize)) (ptr + size) }

/-- mirrors `mp_aligned_alloc`, src/src/cmem_alloc.c:1628-1685 -/
def alignedAlloc (e : Nat → PoolCfg) (w : World) (q alignment size : Nat) (sup : Supply) : World :=
  if isPow2 alignment = false ∨ alignment < 8 then w
  else
    match w.allocInternal e q (wrap (size + alignment + headerSize + (e q).canaryLen)) sup with
    | (w, none) => w
    | (w, some slot) =>
      let ptr := alignUp (slot + headerSize) alignment
      (w.move e q slot ptr size).give ⟨ptr, slot, size, true⟩

/-- mirrors `mp_alloc`, src/src/cmem_alloc.c:493-518, in the pool that serves it -/
def alloc (e : Nat → PoolCfg) (w : World) (q size : Nat) (sup : Supply) : World :=
  if (e q).cacheAligned then w.alignedAlloc e q 64 size sup
  else
    match w.allocInternal e q size sup with
    | (w, none) => w
    | (w, some slot) => w.give ⟨slot + headerSize, slot, size, false⟩

/-- `cmem_size_to_class` -/
def sizeToClass (size : Nat) : Nat := defaultClasses.findIdx (size ≤ ·)

/-- `mp_alloc_fast` finds a slot. -/
def Hits (w : World) (size : Nat) : Prop :=
  0 < size ∧ size ≤ slabMaxSize ∧ w.free (.cache (sizeToClass size)) ≠ []

instance decHits (w : World) (size : Nat) : Decidable (w.Hits size) :=
  inferInstanceAs (Decidable
    (0 < size ∧ size ≤ slabMaxSize ∧ w.free (.cache (sizeToClass size)) ≠ []))

/-- mirrors `mp_alloc_fast`, src/include/cmem.h:1146-1184; the cache may be that of another
pool -/
def allocFast (e : Nat → PoolCfg) (w : World) (q size : Nat) (sup : Supply) : World :=
  if w.Hits size then
    match w.pop (.cache (sizeToClass size)) with
    | (w, none) => w
    | (w, some slot) =>
      (w.format e q (sizeToClass size) slot size 0).give ⟨slot + headerSize, slot, size, false⟩
  else w.alloc e q size sup

/-! ## Freeing -/

/-- The branches of `mp_free` for a slab slot, src/src/cmem_alloc.c:1259-1370; `cpu` is the
processor of the moment. -/
def place (e : Nat → PoolCfg) (w : World) (q cpu cls slot : Nat) : World :=
  if (w.free (.cache cls)).length < slotsMax then w.push (.cache cls) slot
  else if cpu < (e q).numCpus ∧ (w.free (.percpu q cpu cls)).length < percpuMax then
    w.push (.percpu q cpu cls) slot
  else if (e q).threadSafe then w.push (.remote q cls) slot
  else w.slabFree e q slot

/-- mirrors `mp_free`, src/src/cmem_alloc.c:1199-1410, for a pool that is not null; the canary is
only read -/
def mpFree (e : Nat → PoolCfg) (w : World) (pool cpu p : Nat) : World :=
  let h := header w.mem p
  if h.magic ≠ magicHead ∨ h.allocType ≠ typeSlab then w
  else
    let q := if h.subpool = 0 then pool else h.subpool
    let w := if (e q).poison then { w with mem := w.mem.fill p h.requested 0xDD } else w
    let w := w.validateOwner e q
    let h := header w.mem p
    w.place e q cpu h.slabClass h.rawBase

/-- mirrors `mp_free_fast`, src/include/cmem.h:1189-1213; the cache may be that of another
pool -/
def mpFreeFast (e : Nat → PoolCfg) (w : World) (pool cpu p : Nat) : World :=
  let h := header w.mem p
  if h.allocType = typeSlab ∧ h.counted = false ∧
    (w.free (.cache h.slabClass)).length < slotsMax then
    w.push (.cache h.slabClass) h.rawBase
  else w.mpFree e pool cpu p

/-- The block is no longer the caller's. -/
def bury (w : World) (b : Given) : World := { w with live := w.live.erase b, freed := b :: w.freed }

/-! ## `mp_ptr_valid` -/

/-- The walk over a free list, from `slot`, for at most so many steps. -/
def walk (m : Bytes) (header : Nat) : Nat → Nat → Bool
  | _, 0 => false
  | slot, k + 1 =>
    if slot = 0 then false else if slot = header then true else walk m header (m.le slot 8) k

/-- mirrors `mp_fastpath_slot_live`, src/src/cmem_alloc.c:1731-1769 -/
def fastpathSlotLive (w : World) (p : Nat) : Bool :=
  let h := header w.mem p
  if h.allocType ≠ typeSlab then h.rawBase ≠ 0
  else if classCount ≤ h.slabClass ∨ h.rawBase ≠ p - headerSize then false
  else if p - p / slabPageSize * slabPageSize ≤ pageHeader then false
  else
    match w.pages (p / slabPageSize) with
    | none => false
    | some page =>
      if page.cls ≠ h.slabClass ∨ page.total = 0 then false
      else if page.total < w.pageFreeCount (p / slabPageSize) then false
      else
        !walk w.mem (p - headerSize) ((w.free (.page (p / slabPageSize))).headD 0)
          (w.pageFreeCount (p / slabPageSize))

/-- mirrors `mp_ptr_valid`, src/src/cmem_alloc.c:1836-1849, in a pool with FAST_PATH -/
def ptrValid (w : World) (p : Nat) : Bool :=
  p ≠ 0 && (header w.mem p).magic = magicHead && w.fastpathSlotLive p

/-! ## Runs -/

inductive Act where
  | alloc (q size : Nat) (sup : Supply)
  | alignedAlloc (q alignment size : Nat) (sup : Supply)
  | allocFast (q size : Nat) (sup : Supply)
  | free (pool cpu : Nat) (b : Given)
  | freeFast (pool cpu : Nat) (b : Given)
  /-- A call that another tier serves. -/
  | turn (q : Nat)
  /-- The links that `mp_aligned_alloc` finds in a header of another tier. -/
  | relink (prev next moved : Nat)
  /-- A byte of a live block, or of none of the pages. -/
  | write (i : Nat) (x : UInt8)

def next (e : Nat → PoolCfg) (w : World) : Act → World
  | .alloc q size sup => w.alloc e q size sup
  | .alignedAlloc q alignment size sup => w.alignedAlloc e q alignment size sup
  | .allocFast q size sup => w.allocFast e q size sup
  | .free pool cpu b => (w.mpFree e pool cpu b.ptr).bury b
  | .freeFast pool cpu b => (w.mpFreeFast e pool cpu b.ptr).bury b
  | .turn q => w.validateOwner e q
  | .relink prev next moved =>
    let m := if prev = 0 then w.mem else w.mem.store (prev + 144) 8 moved
    { w with mem := if next = 0 then m else m.store (next + 136) 8 moved }
  | .write i x => { w with mem := w.mem.fill i 1 x }

/-- Pages lie in the address space. -/
def Supply.Ok (sup : Supply) : Prop :=
  ∀ n ∈ sup.refill ++ sup.drain ++ sup.last.toList, 0 < n ∧ n < 2 ^ 48

/-- Sizes are `size_t`s, a request is one for a slab, and only live blocks are freed. -/
def pre (e : Nat → PoolCfg) (w : World) : Act → Prop
  | .alloc q size sup => size < 2 ^ 64 ∧ sup.Ok ∧ (e q).tierOf ((e q).chargeOf size) = .slab
  | .alignedAlloc q alignment size sup => size < 2 ^ 64 ∧ alignment < 2 ^ 64 ∧ sup.Ok ∧
    (e q).tierOf (wrap (size + alignment + headerSize + (e q).canaryLen)) = .slab
  | .allocFast q size sup =>
    size < 2 ^ 64 ∧ sup.Ok ∧ (w.Hits size ∨ (e q).tierOf ((e q).chargeOf size) = .slab)
  | .free _ _ b | .freeFast _ _ b => b ∈ w.live
  | .turn _ | .relink .. => True
  | .write i _ => w.pages (i / slabPageSize) = none ∨ ∃ b ∈ w.live, b.ptr ≤ i ∧ i < b.ptr + b.size

/-- No page and no block yet. -/
def start (m : Bytes) : World := ⟨m, fun _ => none, fun _ => 0, 0, fun _ => [], [], []⟩

def system (e : Nat → PoolCfg) : LTS World Act :=
  .det (fun w => (∀ q, (e q).fastPath = true ∧ (e q).customClasses = none) ∧ ∃ m, w = start m)
    (pre e) (next e)

end World

end Cmem.L3.SlotLive

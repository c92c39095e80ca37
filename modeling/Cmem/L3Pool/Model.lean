import Mathlib
import Cmem.Core.LTS

/-!
# The pool: dispatch, accounting and admission

`mp_alloc`, `mp_aligned_alloc`, `mp_alloc_batch`, `mp_realloc`, `mp_free` and
`mp_free_batch`, src/src/cmem_alloc.c, as seen from the pool: which tier a request
goes to, what is charged and returned, the memory limit, the emergency buffer, the
circuit breaker and the events. What a tier answers comes with the label of an
operation (`Place`, or nothing); the tiers themselves are modelled in L2.

A pool in multi-arena mode is the master with one child, the arena the calling
thread is bound to. All counters are `size_t`, modulo `2 ^ 64`.

The header of a live block is private here: it is a `Block` of the state and not bytes
of a memory, and the tiers are taken to give blocks apart from the live ones. The code
itself writes over a foreign header only with the canary of a resize in place, at
`ptr + new_size` (`Block.Inside` says that this stays in the block), and where a size
with its headers wraps (`Config.Whole` says that it does not).
-/
namespace Cmem.L3.Pool

/-- `size_t` arithmetic. -/
def wrap (n : Nat) : Nat := n % 2 ^ 64

def headerSize : Nat := 152
def slabMaxSize : Nat := 512
def tlsfMaxSize : Nat := 4 * 1024 * 1024
def classCount : Nat := 12
def histogramBuckets : Nat := 16

def defaultClasses : List Nat := [8, 16, 24, 32, 48, 64, 96, 128, 192, 256, 384, 512]

/-- The pool that is asked, or the arena the thread is bound to. -/
inductive Who where
  | master
  | child
  deriving DecidableEq

inductive Tier where
  | slab
  | tlsf
  | os
  | emergency
  deriving DecidableEq

structure Config where
  threadSafe : Bool
  fastPath : Bool
  cacheAligned : Bool
  canary : Bool
  staticBuffer : Bool
  hugePages : Bool
  guardPages : Bool
  /-- The page size of the system is `2 ^ pageShift`. -/
  pageShift : Nat
  /-- `stats.max_memory_limit`, 0 for none. -/
  limit : Nat
  fallback : Bool
  /-- `emergency_buf`, 0 for none. -/
  emergencyBuf : Nat
  emergencySize : Nat
  breaker : Bool
  /-- `thread_quota_bytes`, 0 for none. -/
  quota : Nat
  eventCb : Bool
  customClasses : Option (List Nat)

/-- An event callback, without the pointer it is given. -/
inductive Event where
  | oom (size : Nat)
  | alloc (size : Nat)
  | free (size : Nat)
  | realloc (size : Nat)
  | canaryCorruption (size : Nat)
  | dirty
  deriving DecidableEq

structure Counters where
  cfg : Config
  activeBytes : Nat
  peakBytes : Nat
  activeAllocations : Nat
  totalAllocOps : Nat
  totalFreeOps : Nat
  osAllocatedBytes : Nat
  histogram : Nat → Nat
  isDirty : Bool
  tripped : Bool
  emergencyUsed : Bool
  events : List Event

/-- A live block: its header, and the memory `[lo, hi)` that it owns. -/
structure Block where
  ptr : Nat
  owner : Who
  tier : Tier
  arena : Bool
  counted : Bool
  requested : Nat
  usable : Nat
  lo : Nat
  hi : Nat
  deriving DecidableEq

structure State where
  pool : Who → Counters
  /-- `num_arenas > 0` -/
  arenas : Bool
  /-- `thread_quota` of the calling thread. -/
  quotaBytes : Nat
  quotaCount : Nat
  live : List Block

/-- What a tier answers: the payload, and the memory of its block. -/
structure Place where
  ptr : Nat
  lo : Nat
  hi : Nat
  arena : Bool

/-! ## Sizes and tiers -/

def Config.canaryLen (c : Config) : Nat := if c.canary then 1 else 0

/-- mirrors `get_slab_class_index`, src/src/cmem_internal.h:578-592 -/
def Config.classIndex (c : Config) (size : Nat) : Nat :=
  match c.customClasses with
  | some sizes => sizes.findIdx (size ≤ ·)
  | none => if 0 < size ∧ size ≤ 512 then defaultClasses.findIdx (size ≤ ·) else classCount

def Config.slotSize (c : Config) (size : Nat) : Nat :=
  ((c.customClasses.getD defaultClasses)[c.classIndex size]?).getD 0

def Config.tierOf (c : Config) (size : Nat) : Tier :=
  if c.staticBuffer = false ∧ size ≤ slabMaxSize then .slab
  else if size ≤ tlsfMaxSize ∨ c.staticBuffer = true then .tlsf
  else .os

/-- `total_needed` of the TLSF tier. -/
def Config.tlsfTotal (c : Config) (size : Nat) : Nat :=
  max (wrap (32 + headerSize + size + c.canaryLen + 7) / 8 * 8) 32

def Config.usableOf (c : Config) (size : Nat) : Tier → Nat
  | .slab => c.slotSize size
  | .tlsf => wrap (c.tlsfTotal size + (2 ^ 64 - (32 + headerSize)))
  | .os => size
  | .emergency => wrap (c.emergencySize + (2 ^ 64 - headerSize))

/-- What `mp_alloc` adds to a size before it asks a tier. -/
def Config.slack (c : Config) : Nat := if c.cacheAligned then 64 + headerSize + c.canaryLen else 0

/-- The size that a tier is asked for does not wrap, with the headers, the canary, the
rounding and the guard pages of the tiers. -/
def Config.Whole (c : Config) (size slack : Nat) : Prop :=
  size + slack + (32 + headerSize + c.canaryLen + 7 + 3 * 2 ^ c.pageShift) < 2 ^ 64

instance decWhole (c : Config) (size slack : Nat) : Decidable (c.Whole size slack) := by
  unfold Config.Whole; exact inferInstance

/-- `newSize` bytes and the canary behind them lie in the memory of the block. -/
def Block.Inside (b : Block) (c : Config) (newSize hi : Nat) : Prop :=
  b.ptr + newSize + c.canaryLen ≤ hi

instance decInside (b : Block) (c : Config) (newSize hi : Nat) :
    Decidable (b.Inside c newSize hi) := by
  unfold Block.Inside; exact inferInstance

/-! ## Counters -/

/-- mirrors `trigger_event`, src/src/cmem_internal.h:570-575 -/
def Counters.event (p : Counters) (e : Event) : Counters :=
  if p.cfg.eventCb then { p with events := e :: p.events } else p

/-- `active_bytes + size > max_memory_limit` -/
def Counters.exceeds (p : Counters) (size : Nat) : Bool :=
  0 < p.cfg.limit && p.cfg.limit < wrap (p.activeBytes + size)

/-- The emergency buffer is free and large enough. -/
def Counters.emergencyFits (p : Counters) (size : Nat) : Bool :=
  p.cfg.emergencyBuf ≠ 0 && !p.emergencyUsed &&
  wrap (size + headerSize + p.cfg.canaryLen) ≤ p.cfg.emergencySize

/-- `active_bytes`, `peak_bytes`, `active_allocations` and `total_alloc_ops` of one
allocation. `fetch_add` returns the old value and `+=` the new one, so the two
branches of the source compare different sums with the peak. -/
def Counters.charge (p : Counters) (size : Nat) : Counters :=
  let cur := if p.cfg.threadSafe then p.activeBytes else wrap (p.activeBytes + size)
  { p with activeBytes := wrap (p.activeBytes + size)
           peakBytes := if p.peakBytes < wrap (cur + size) then wrap (cur + size) else p.peakBytes
           activeAllocations := wrap (p.activeAllocations + 1)
           totalAllocOps := wrap (p.totalAllocOps + 1) }

/-- `size_histogram`, by the slab class of the size. -/
def Counters.bucket (p : Counters) (size n : Nat) : Counters :=
  let i := p.cfg.classIndex size
  if i < histogramBuckets then
    { p with histogram := Function.update p.histogram i (wrap (p.histogram i + n)) }
  else p

/-- mirrors `mp_free_stats_update`, src/src/cmem_alloc.c:10-27 -/
def Counters.discharge (p : Counters) (size : Nat) : Counters :=
  { p with activeBytes := wrap (p.activeBytes + (2 ^ 64 - size))
           activeAllocations := wrap (p.activeAllocations + (2 ^ 64 - 1))
           totalFreeOps := wrap (p.totalFreeOps + 1) }

def State.set (s : State) (w : Who) (p : Counters) : State :=
  { s with pool := Function.update s.pool w p }

/-! ## Allocation -/

/-- mirrors `mp_alloc_internal`, src/src/cmem_alloc.c:89-486; the block is not yet
among the live ones -/
def mpAllocInternal (s : State) (w : Who) (size : Nat) (ans : Option Place) :
    State × Option Block :=
  let p := s.pool w
  let c := p.cfg
  if size = 0 ∨ (p.isDirty = true ∧ c.fallback = false) ∨ (c.breaker = true ∧ p.tripped = true) then
    (s, none)
  else if p.exceeds size = true ∧ c.fallback = false then
    let p := p.event (.oom size)
    if p.emergencyFits size then
      (s.set w ({ p with emergencyUsed := true }.charge size),
        some ⟨c.emergencyBuf + headerSize, w, .emergency, false, true, size,
          c.usableOf size .emergency, c.emergencyBuf, c.emergencyBuf + c.emergencySize⟩)
    else (s.set w p, none)
  else
    let p := if p.exceeds size then p.event (.oom size) else p
    match ans with
    | none => (s.set w p, none)
    | some a =>
      let t := c.tierOf size
      let p :=
        if t = .os then { p with osAllocatedBytes := wrap (p.osAllocatedBytes + size) } else p
      (s.set w (((p.charge size).bucket size 1).event (.alloc size)),
        some ⟨a.ptr, w, t, a.arena, true, size, c.usableOf size t, a.lo, a.hi⟩)

/-- The quota of the calling thread, and whether it is used up. -/
def State.accrue (s : State) (w : Who) (size : Nat) : State × Bool :=
  if (s.pool w).cfg.breaker then
    let q := wrap (s.quotaBytes + size)
    ({ s with quotaBytes := q, quotaCount := wrap (s.quotaCount + 1) },
      0 < (s.pool w).cfg.quota && (s.pool w).cfg.quota ≤ q)
  else (s, false)

def State.trip (s : State) (w : Who) : State := s.set w { s.pool w with tripped := true }

/-- The circuit breaker behind a successful allocation. -/
def State.settle (s : State) (w : Who) (size : Nat) : State :=
  let (s, spent) := s.accrue w size
  if spent then s.trip w else s

/-- `(raw + sizeof(mp_block_header_t) + alignment - 1) & ~(alignment - 1)` -/
def alignUp (raw alignment : Nat) : Nat :=
  wrap (raw + headerSize + (alignment - 1)) / alignment * alignment

theorem alignUp_bounds (raw alignment : Nat) (ha : 0 < alignment)
    (ht : raw + headerSize + alignment ≤ 2 ^ 64) : raw + headerSize ≤ alignUp raw alignment ∧
    alignUp raw alignment < raw + headerSize + alignment := by
  unfold alignUp wrap
  rw [Nat.mod_eq_of_lt (by omega)]
  have h1 := Nat.div_mul_le_self (raw + headerSize + (alignment - 1)) alignment
  have h2 := Nat.lt_div_mul_add (a := raw + headerSize + (alignment - 1)) ha
  omega

def isPow2 (n : Nat) : Bool := n = 2 ^ Nat.log2 n

def State.add (s : State) (b : Block) : State := { s with live := b :: s.live }

/-- mirrors `mp_aligned_alloc`, src/src/cmem_alloc.c:1628-1685 -/
def mpAlignedAlloc (s : State) (w : Who) (alignment size : Nat) (ans : Option Place) :
    State × Option Nat :=
  if isPow2 alignment = false ∨ alignment < 8 then (s, none)
  else
    let total := wrap (size + alignment + headerSize + (s.pool w).cfg.canaryLen)
    match mpAllocInternal s w total ans with
    | (s, none) => (s, none)
    | (s, some b) =>
      ((s.settle w size).add { b with ptr := alignUp b.ptr alignment, requested := size },
        some (alignUp b.ptr alignment))

/-- The pool that serves `mp_alloc`. -/
def State.route (s : State) : Who := if s.arenas then .child else .master

/-- mirrors `mp_alloc`, src/src/cmem_alloc.c:493-518 -/
def mpAlloc (s : State) (size : Nat) (ans : Option Place) : State × Option Nat :=
  if size = 0 then (s, none)
  else if (s.pool s.route).cfg.cacheAligned then mpAlignedAlloc s s.route 64 size ans
  else
    match mpAllocInternal s s.route size ans with
    | (s', none) => (s', none)
    | (s', some b) => ((s'.settle s.route size).add b, some b.ptr)

/-! ## Batch allocation -/

/-- The decision before the first element, src/src/cmem_alloc.c:693-737. -/
structure Plan where
  target : Nat
  oomCount : Nat
  fullExceed : Bool
  breach : Bool
  emergencyOnly : Bool
  doEmergency : Bool

def batchPlan (p : Counters) (total charge count : Nat) : Plan :=
  if 0 < p.cfg.limit then
    if p.cfg.limit < wrap (p.activeBytes + charge) then
      if p.cfg.fallback then ⟨count, count, false, false, false, false⟩
      else if p.emergencyFits total then ⟨count, 0, false, false, true, false⟩
      else ⟨count, 0, true, false, false, false⟩
    else
      let maxFit := wrap (p.cfg.limit + (2 ^ 64 - p.activeBytes)) / charge
      if maxFit < count then
        if p.cfg.fallback then ⟨count, count - maxFit, false, false, false, false⟩
        else if p.emergencyFits total then ⟨maxFit, 0, false, true, false, true⟩
        else ⟨maxFit, 0, false, true, false, false⟩
      else ⟨count, 0, false, false, false, false⟩
  else ⟨count, 0, false, false, false, false⟩

/-- The blocks of a batch so far. -/
structure Batch where
  state : State
  blocks : List Block
  tripped : Bool

/-- The loop over the elements. The slab and TLSF loops stop when the breaker
trips; the loop of the OS tier, src/src/cmem_alloc.c:881-896, goes on. -/
def batchLoop (w : Who) (total size : Nat) : Nat → List (Option Place) → Batch → Batch
  | 0, _, r => r
  | _ + 1, [], r => r
  | _ + 1, none :: _, r => r
  | n + 1, some a :: as, r =>
    let c := (r.state.pool w).cfg
    let t := c.tierOf total
    let b : Block := ⟨a.ptr, w, t, a.arena, true, total, c.usableOf total t, a.lo, a.hi⟩
    let (s, spent) := r.state.accrue w size
    if spent then
      let r := ⟨s.trip w, r.blocks ++ [b], true⟩
      if t = .os then batchLoop w total size n as r else r
    else batchLoop w total size n as ⟨s, r.blocks ++ [b], r.tripped⟩

/-- `os_allocated_bytes` of the elements, added behind the loop of the OS tier. -/
def State.countOs (s : State) (w : Who) (total n : Nat) : State :=
  let p := s.pool w
  if p.cfg.tierOf total = .os then
    s.set w { p with osAllocatedBytes := wrap (p.osAllocatedBytes + wrap (n * total)) }
  else s

/-- The emergency element, src/src/cmem_alloc.c:914-932. -/
def batchEmergency (w : Who) (total charge size : Nat) (r : Batch) : Batch :=
  let p := r.state.pool w
  let c := p.cfg
  let b : Block :=
    ⟨c.emergencyBuf + headerSize, w, .emergency, false, true, total, c.usableOf total .emergency,
      c.emergencyBuf, c.emergencyBuf + c.emergencySize⟩
  let (s, spent) := (r.state.set w { p with emergencyUsed := true }).accrue w size
  if spent then ⟨s.trip w, r.blocks ++ [b], r.tripped⟩
  else ⟨s.set w ((s.pool w).event (.oom charge)), r.blocks ++ [b], r.tripped⟩

/-- The header of an element moves behind its alignment. -/
def Config.relink (c : Config) (size : Nat) (b : Block) : Block :=
  if c.cacheAligned then { b with ptr := alignUp b.ptr 64, requested := size } else b

/-- The aggregated statistics, src/src/cmem_alloc.c:973-1003. -/
def Counters.chargeAll (p : Counters) (n charge hist : Nat) : Counters :=
  let active := wrap (p.activeBytes + wrap (n * charge))
  let p := { p with activeBytes := active
                    peakBytes := if p.peakBytes < active then active else p.peakBytes
                    activeAllocations := wrap (p.activeAllocations + n)
                    totalAllocOps := wrap (p.totalAllocOps + n) }
  (List.replicate hist (Event.alloc charge)).foldl Counters.event
    (if 0 < hist then p.bucket charge hist else p)

/-- From the first element to the emergency element, src/src/cmem_alloc.c:748-932;
the flag tells whether there was one. -/
def batchRun (w : Who) (total size : Nat) (plan : Plan) (as : List (Option Place)) (s : State) :
    Batch × Bool :=
  let s := if plan.emergencyOnly then s.set w ((s.pool w).event (.oom total)) else s
  let r := if plan.emergencyOnly then ⟨s, [], false⟩ else
    let r := batchLoop w total size plan.target as ⟨s, [], false⟩
    { r with state := r.state.countOs w total r.blocks.length }
  let full : Bool := r.blocks.length = plan.target
  let s :=
    if plan.breach && full && !r.tripped then r.state.set w ((r.state.pool w).event (.oom total))
    else r.state
  let r := { r with state := s }
  if !r.tripped && (plan.emergencyOnly || plan.doEmergency && full) then
    (batchEmergency w total total size r, true)
  else (r, false)

/-- The aggregated part, src/src/cmem_alloc.c:934-1006. -/
def batchFinish (w : Who) (total size : Nat) (r : Batch) (emergency : Bool) : State × List Nat :=
  if r.blocks = [] then (r.state, [])
  else
    let p := r.state.pool w
    let hist := r.blocks.length - if emergency then 1 else 0
    let bs := r.blocks.map (p.cfg.relink size)
    let s := r.state.set w (p.chargeAll r.blocks.length total hist)
    ({ s with live := bs.reverse ++ s.live }, bs.map Block.ptr)

/-- What a batch charges for an element: `total_size`. -/
def Config.chargeOf (c : Config) (size : Nat) : Nat :=
  if c.cacheAligned then wrap (size + 64 + headerSize + c.canaryLen) else size

/-- mirrors `mp_alloc_batch`, src/src/cmem_alloc.c:661-1008 -/
def mpAllocBatch (s : State) (size count : Nat) (as : List (Option Place)) : State × List Nat :=
  let w := s.route
  let p := s.pool w
  let c := p.cfg
  if count = 0 ∨ size = 0 ∨ (p.isDirty = true ∧ c.fallback = false) ∨
    (c.breaker = true ∧ p.tripped = true) then (s, [])
  else
    let total := c.chargeOf size
    let plan := batchPlan p total total count
    let s := s.set w ((List.replicate plan.oomCount (Event.oom total)).foldl Counters.event p)
    if plan.fullExceed then (s.set w ((s.pool w).event (.oom total)), [])
    else
      let (r, emergency) := batchRun w total size plan as s
      batchFinish w total size r emergency

/-! ## Release and resizing -/

def State.find (s : State) (ptr : Nat) : Option Block := s.live.find? fun b => b.ptr = ptr

/-- The pool a block is returned to: `header->subpool`, which the emergency block
does not have. -/
def Block.home (b : Block) (w : Who) : Who := if b.tier = .emergency then w else b.owner

/-- `mp_verify_free_canary`, src/src/cmem_alloc.c:1175-1190. -/
def Counters.verifyCanary (p : Counters) (size : Nat) (intact : Bool) : Counters :=
  if p.cfg.canary = true ∧ intact = false then
    { (p.event (.canaryCorruption size)) with isDirty := true }.event .dirty
  else p

/-- The counters of one `mp_free`. -/
def Counters.release (p : Counters) (b : Block) (intact : Bool) : Counters :=
  let p := p.verifyCanary b.requested intact
  let p := if b.counted then p.discharge b.requested else p
  let p :=
    if b.tier = .os then
      { p with osAllocatedBytes := wrap (p.osAllocatedBytes + (2 ^ 64 - b.requested)) }
    else p
  let p := if b.tier = .emergency then { p with emergencyUsed := false } else p
  p.event (.free b.requested)

/-- mirrors `mp_free`, src/src/cmem_alloc.c:1199-1413, of a live block; `intact`
tells whether its canary byte still holds -/
def State.release (s : State) (b : Block) (intact : Bool) : State :=
  let w := b.home .master
  { s.set w ((s.pool w).release b intact) with live := s.live.erase b }

def mpFree (s : State) (ptr : Nat) (intact : Bool) : State :=
  if ptr = 0 then s
  else
    match s.find ptr with
    | none => s
    | some b => s.release b intact

/-- The blocks `mp_free_batch` collects: slab blocks of the pool itself. -/
def Block.batchable (b : Block) : Bool := b.tier = .slab && b.owner = .master

/-- mirrors `flush_slab_block`, src/src/cmem_alloc.c:1025-1104: no canary is
checked, and the statistics come before the events -/
def flushSlabBlock (s : State) (bs : List Block) : State :=
  let p := bs.foldl (fun p b => if b.counted then p.discharge b.requested else p) (s.pool .master)
  let p := bs.foldl (fun p b => p.event (.free b.requested)) p
  { s.set .master p with live := bs.foldl List.erase s.live }

/-- mirrors `mp_free_batch`, src/src/cmem_alloc.c:1112-1150; `hdrs` are the blocks
collected so far -/
def mpFreeBatch : List (Nat × Bool) → List Block → State → State
  | [], hdrs, s => flushSlabBlock s hdrs
  | (ptr, intact) :: ptrs, hdrs, s =>
    if ptr = 0 then mpFreeBatch ptrs hdrs s
    else
      match s.find ptr with
      | none => mpFreeBatch ptrs hdrs s
      | some b =>
        if b.batchable then
          if hdrs.length + 1 = 256 then mpFreeBatch ptrs [] (flushSlabBlock s (hdrs ++ [b]))
          else mpFreeBatch ptrs (hdrs ++ [b]) s
        else mpFreeBatch ptrs hdrs (s.release b intact)

/-- What the TLSF tier answers to an attempt to grow in place: the new
`usable_size` and the new end of the block. -/
structure Grown where
  usable : Nat
  hi : Nat

/-- A header that changes in place. -/
def State.resize (s : State) (b b' : Block) : State := { s with live := b' :: s.live.erase b }

/-- mirrors `mp_realloc`, src/src/cmem_alloc.c:1420-1545 -/
def mpRealloc (s : State) (ptr newSize : Nat) (grow : Option Grown) (ans : Option Place)
    (intact : Bool) : State × Option Nat :=
  if ptr = 0 then mpAlloc s newSize ans
  else if newSize = 0 then (mpFree s ptr intact, none)
  else
    match s.find ptr with
    | none => (s, none)
    | some b =>
      let note (s : State) := s.set .master ((s.pool .master).event (.realloc newSize))
      if newSize ≤ b.usable then (note (s.resize b { b with requested := newSize }), some ptr)
      else
        match (if b.tier = .tlsf then grow else none) with
        | some g =>
          (note (s.resize b { b with requested := newSize, usable := g.usable, hi := g.hi }),
            some ptr)
        | none =>
          match mpAlloc s newSize ans with
          | (s', none) => (s', none)
          | (s', some q) => (s'.release b intact, some q)

/-! ## Runs -/

inductive Act where
  | alloc (size : Nat) (ans : Option Place)
  | alignedAlloc (alignment size : Nat) (ans : Option Place)
  | allocBatch (size count : Nat) (as : List (Option Place))
  | realloc (ptr newSize : Nat) (grow : Option Grown) (ans : Option Place) (intact : Bool)
  | free (ptr : Nat) (intact : Bool)
  | freeBatch (ptrs : List (Nat × Bool))

def State.step (s : State) : Act → State
  | .alloc size ans => (mpAlloc s size ans).1
  | .alignedAlloc alignment size ans => (mpAlignedAlloc s .master alignment size ans).1
  | .allocBatch size count as => (mpAllocBatch s size count as).1
  | .realloc ptr newSize grow ans intact => (mpRealloc s ptr newSize grow ans intact).1
  | .free ptr intact => mpFree s ptr intact
  | .freeBatch ptrs => mpFreeBatch ptrs [] s

/-- Sizes are `size_t`s, and only live pointers are freed or resized. -/
def State.pre (s : State) : Act → Prop
  | .alloc size _ => size < 2 ^ 64
  | .alignedAlloc alignment size _ => alignment < 2 ^ 64 ∧ size < 2 ^ 64
  | .allocBatch size count _ => size < 2 ^ 64 ∧ count < 2 ^ 64
  | .realloc ptr newSize _ _ _ => newSize < 2 ^ 64 ∧ (ptr = 0 ∨ ∃ b ∈ s.live, b.ptr = ptr)
  | .free ptr _ => ∃ b ∈ s.live, b.ptr = ptr
  | .freeBatch ptrs =>
    ((ptrs.map Prod.fst).filter (· ≠ 0)).Nodup ∧ ∀ q ∈ ptrs, q.1 = 0 ∨ ∃ b ∈ s.live, b.ptr = q.1

instance decPoolPre (s : State) : (l : Act) → Decidable (s.pre l)
  | .alloc size _ => inferInstanceAs (Decidable (size < 2 ^ 64))
  | .alignedAlloc alignment size _ =>
    inferInstanceAs (Decidable (alignment < 2 ^ 64 ∧ size < 2 ^ 64))
  | .allocBatch size count _ => inferInstanceAs (Decidable (size < 2 ^ 64 ∧ count < 2 ^ 64))
  | .realloc ptr newSize _ _ _ =>
    inferInstanceAs (Decidable (newSize < 2 ^ 64 ∧ (ptr = 0 ∨ ∃ b ∈ s.live, b.ptr = ptr)))
  | .free ptr _ => inferInstanceAs (Decidable (∃ b ∈ s.live, b.ptr = ptr))
  | .freeBatch ptrs =>
    inferInstanceAs (Decidable (((ptrs.map Prod.fst).filter (· ≠ 0)).Nodup ∧
      ∀ q ∈ ptrs, q.1 = 0 ∨ ∃ b ∈ s.live, b.ptr = q.1))

def Counters.init (c : Config) : Counters :=
  ⟨c, 0, 0, 0, 0, 0, 0, fun _ => 0, false, false, false, []⟩

/-- Fresh pools; a child has the flags of its master and neither a limit nor an
emergency buffer of its own. -/
def State.init (c : Config) (arenas : Bool) (quotaBytes quotaCount : Nat) : State where
  pool
    | .master => .init c
    | .child => .init
        { c with limit := 0, fallback := false, emergencyBuf := 0, emergencySize := 0
                 breaker := false, quota := 0, eventCb := false }
  arenas := arenas
  quotaBytes := quotaBytes
  quotaCount := quotaCount
  live := []

/-- A pool without flags, limit or callbacks. -/
def plain : Config :=
  ⟨false, false, false, false, false, false, false, 12, 0, false, 0, 0, false, 0, false, none⟩

def poolSystem (c : Config) (arenas : Bool) : LTS State Act :=
  .det (fun s => ∃ q n, s = State.init c arenas q n) State.pre State.step

end Cmem.L3.Pool

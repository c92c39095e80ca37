import Cmem.L2Tlsf.Pool
import Cmem.L3Pool.Canary
import Cmem.L3Pool.Tiers

/-!
# The memory of a pool

What a pool has from the system, beside the blocks of `Cmem.L3Pool.Model`: the pages of
its slab classes, its TLSF arenas, the private arenas of threads and its OS blocks. With
it go the two fields that say how much that is, the atomic `total_pool_size` and
`stats.total_pool_size`, and every call of `sys_mem_alloc` and `sys_mem_free`.

Which slots the caches draw from their pages and give back, and when a TLSF arena has no
block that fits, is decided in L2 and comes with the label. So does the turn of a thread's
cache to another pool, which is a step of its own before the operation that causes it.
-/
namespace Cmem.L3.Pool

open L2.SharedTlsf (tpoolHdr)

/-! ## Regions -/

/-- What serves a region: the caller's vtable, `mmap` with huge pages, `mmap` with guard
pages, `malloc`. -/
inductive Backend where
  | custom
  | hugePages
  | guardPages
  | heap
  deriving DecidableEq

/-- `mp_sys_allocator_t`, src/include/cmem.h: which of its functions are not NULL. -/
structure Vtable where
  sysAlloc : Bool
  sysFree : Bool

/-- What `sys_mem_alloc` returned: the address, the size it was asked for, and who served
it. -/
structure Region where
  base : Nat
  size : Nat
  backend : Backend
  deriving DecidableEq

/-- A call of `sys_mem_free`: the region at the address, the size that is passed, and whom
it is returned to. -/
structure Release where
  region : Region
  size : Nat
  backend : Backend
  deriving DecidableEq

/-- The order of the tests in `sys_mem_alloc`, src/src/cmem_sys.c:378-424, and in
`sys_mem_free`, src/src/cmem_sys.c:454-493; `own` tells whether the vtable has the function. -/
def Config.backend (c : Config) (own : Bool) : Backend :=
  if own then .custom
  else if c.hugePages then .hugePages
  else if c.guardPages then .guardPages
  else .heap

/-- mirrors `sys_mem_alloc`, src/src/cmem_sys.c:348-439, when the system answers with `base` -/
def sysMemAlloc (v : Vtable) (c : Config) (size base : Nat) : Region :=
  ⟨base, size, c.backend v.sysAlloc⟩

/-- mirrors `sys_mem_free`, src/src/cmem_sys.c:454-493, in a pool that is not in a static
buffer -/
def sysMemFree (v : Vtable) (c : Config) (r : Region) (size : Nat) : Release :=
  ⟨r, size, c.backend v.sysFree⟩

/-! ## Slab pages -/

/-- `free_count`, `total_slots` and `idle_since_ts` of a page. -/
structure SlabPage where
  base : Nat
  cls : Nat
  total : Nat
  free : Nat
  since : Nat
  deriving DecidableEq

/-- The lists of pages of all classes, each in the order of its class. -/
structure PageLists where
  partials : List SlabPage
  fulls : List SlabPage
  empties : List SlabPage

namespace PageLists

def count (s : PageLists) : Nat := s.partials.length + s.fulls.length + s.empties.length

/-- A slot of page `p`, which goes in front of the list it now belongs to. -/
def draw (s : PageLists) (p : SlabPage) : PageLists :=
  let p := { p with free := (p.free + 65535) % 65536 }
  if p.free = 0 then { s with fulls := p :: s.fulls } else { s with partials := p :: s.partials }

/-- One round of the loop in `tls_cache_drain_slots` and `percpu_refill`,
src/src/cmem_slab.c:1146-1200 and 1539-1610; `fresh` is the page `slab_create_page` maps when
the class has none. The number is that of the pages made. -/
def take (c : Config) (s : PageLists) (cls : Nat) (fresh : Option Nat) : PageLists × Nat :=
  match s.partials.find? fun p => p.cls = cls with
  | some p => ({ s with partials := s.partials.erase p }.draw p, 0)
  | none =>
    match s.empties.find? fun p => p.cls = cls with
    | some p => ({ s with empties := s.empties.erase p }.draw p, 0)
    | none =>
      match fresh with
      | none => (s, 0)
      | some base =>
        let total := (slabCreatePage c cls base).total % 65536
        (s.draw ⟨base, cls, total, total, 0⟩, 1)

def takes (c : Config) (cls : Nat) : List (Option Nat) → PageLists → PageLists × Nat
  | [], s => (s, 0)
  | fresh :: l, s =>
    let r := takes c cls l (s.take c cls fresh).1
    (r.1, (s.take c cls fresh).2 + r.2)

/-- mirrors `slab_free`, src/src/cmem_slab.c:1058-1128: a slot of the page at `base`, at
time `now` -/
def give (s : PageLists) (x : Nat × Nat) : PageLists :=
  match s.fulls.find? fun p => p.base = x.1 with
  | some p =>
    let s := { s with fulls := s.fulls.erase p }
    let p := { p with free := 1 }
    if p.free = p.total then { s with empties := { p with since := x.2 } :: s.empties }
    else { s with partials := p :: s.partials }
  | none =>
    match s.partials.find? fun p => p.base = x.1 with
    | some p =>
      let q := { p with free := p.free + 1 }
      if q.free = q.total then
        { s with partials := s.partials.erase p, empties := { q with since := x.2 } :: s.empties }
      else { s with partials := s.partials.map fun y => if y = p then q else y }
    | none => s

end PageLists

/-- `mp_set_idle_page_reclaim`, src/src/cmem_lifecycle.c:227-240. -/
structure IdleReclaim where
  enabled : Bool
  timeoutMs : Nat
  minPages : Nat

/-- `should_free`, src/src/cmem_sys.c:735-746 and src/src/cmem_lifecycle.c:293-301. -/
def SlabPage.shouldFree (p : SlabPage) (i : IdleReclaim) (now : Nat) : Bool :=
  p.free = p.total || i.enabled && 0 < p.since && i.timeoutMs ≤ wrap (now + (2 ^ 64 - p.since))

/-- The walk of `mp_reclaim_idle_pages` over the partial pages of a class,
src/src/cmem_lifecycle.c:289-328: `n` idle pages were met before, and the first `minPages - 1`
are left. -/
def sweep (i : IdleReclaim) (now cls : Nat) : List SlabPage → Nat → List SlabPage × Nat
  | [], n => ([], n)
  | p :: l, n =>
    if p.cls = cls ∧ p.shouldFree i now = true then
      let r := sweep i now cls l (n + 1)
      if n + 1 < i.minPages then (p :: r.1, r.2) else r
    else
      let r := sweep i now cls l n
      (p :: r.1, r.2)

/-! ## Pools -/

/-- `tlsf_pool_t`: its region, and `raw_size`. -/
structure Area where
  region : Region
  rawSize : Nat

/-- `tlsf_arena_t` -/
structure ThreadArena where
  region : Region
  retired : Bool

/-- No live block lies in the arena: its `live_bytes` are 0. -/
def ThreadArena.vacant (a : ThreadArena) (bs : List Block) : Bool :=
  bs.all fun b =>
    !(b.arena && decide (a.region.base ≤ b.lo) && decide (b.lo < a.region.base + a.region.size))

/-- What a pool holds, and what it says that it holds. -/
structure Holding where
  pages : PageLists
  areas : List Area
  arenas : List ThreadArena
  os : List Region
  /-- the atomic `total_pool_size` -/
  total : Nat
  /-- `stats.total_pool_size` -/
  statsTotal : Nat

def Holding.empty : Holding := ⟨⟨[], [], []⟩, [], [], [], 0, 0⟩

/-- `TLSF_ARENA_DEFAULT_SIZE` -/
def arenaSize : Nat := 262144

/-- The bytes of the regions and pages. -/
def Holding.bytes (h : Holding) : Nat :=
  slabPageSize * h.pages.count + (h.areas.map fun a => a.region.size).sum +
    (h.arenas.map fun a => a.region.size).sum + (h.os.map Region.size).sum

def Holding.regions (h : Holding) : List Region :=
  h.areas.map Area.region ++ h.arenas.map ThreadArena.region ++ h.os

/-- Before `mp_create`, until `mp_destroy`, and behind it. -/
inductive Stage where
  | fresh
  | running
  | gone
  deriving DecidableEq

structure Backing where
  pool : State
  vtable : Vtable
  idle : IdleReclaim
  hold : Who → Holding
  obtained : List Region
  released : List Release
  stage : Stage

namespace Backing

def onHold (t : Backing) (w : Who) (f : Holding → Holding) : Backing :=
  { t with hold := Function.update t.hold w (f (t.hold w)) }

/-- The configuration of a pool. -/
def cfg (t : Backing) (w : Who) : Config := (t.pool.pool w).cfg

/-! ## Growth -/

/-- A slab tier that is asked: slots of the queue of remote frees go back, and `l` slots are
drawn. -/
def slabs (t : Backing) (w : Who) (cls : Nat) (gives : List (Nat × Nat))
    (l : List (Option Nat)) : Backing :=
  t.onHold w fun h =>
    let r := (gives.foldl PageLists.give h.pages).takes (t.cfg w) cls l
    { h with pages := r.1, total := wrap (h.total + slabPageSize * r.2) }

/-- A region is obtained, and put among those the pool holds. -/
def obtain (t : Backing) (w : Who) (size base : Nat) (f : Region → Holding → Holding) : Backing :=
  let r := sysMemAlloc t.vtable (t.cfg w) size base
  { t.onHold w (f r) with obtained := r :: t.obtained }

/-- A region is returned. -/
def giveUp (t : Backing) (w : Who) (r : Region) (size : Nat) : Backing :=
  { t with released := sysMemFree t.vtable (t.cfg w) r size :: t.released }

/-- mirrors `tlsf_arena_init`, src/src/cmem_slab.c:159-197; `made` tells whether there is
memory for the descriptor -/
def tlsfArenaInit (t : Backing) (w : Who) (base : Nat) (made : Bool) : Backing :=
  if made then
    t.obtain w arenaSize base fun r h =>
      { h with arenas := ⟨r, false⟩ :: h.arenas, total := wrap (h.total + arenaSize) }
  else
    (t.obtain w arenaSize base fun _ h => h).giveUp w
      (sysMemAlloc t.vtable (t.cfg w) arenaSize base) arenaSize

/-- `raw_size` of a TLSF arena for `size` bytes. -/
def rawSize (size : Nat) : Nat := wrap (size + 7) / 8 * 8

/-- mirrors `tlsf_create_pool_custom`, src/src/cmem_tlsf.c:153-204, with memory from the
system; the caller says in which field it counts what -/
def tlsfCreatePool (t : Backing) (w : Who) (size base : Nat)
    (count : Holding → Holding) : Backing :=
  t.obtain w (wrap (tpoolHdr + rawSize size)) base fun r h =>
    count { h with areas := ⟨r, rawSize size⟩ :: h.areas }

/-- The arenas that `tlsf_alloc` makes count in the atomic, src/src/cmem_tlsf.c:359-360 and
417-418. -/
def tlsfGrow (t : Backing) (w : Who) (size base : Nat) : Backing :=
  t.tlsfCreatePool w size base fun h => { h with total := wrap (h.total + (size + tpoolHdr)) }

/-- What `tlsf_alloc` obtains, src/src/cmem_tlsf.c:349-420: the first arena, and one more when
none has room for the block. -/
def tlsfAlloc (t : Backing) (w : Who) (size : Nat) (root more : Option Nat) : Backing :=
  let extend (t : Backing) : Backing :=
    match more with
    | none => t
    | some base => t.tlsfGrow w (max ((t.cfg w).tlsfTotal size * 2) (4 * 1024 * 1024)) base
  if (t.hold w).areas.isEmpty then
    match root with
    | none => t
    | some base => extend (t.tlsfGrow w (4 * 1024 * 1024) base)
  else extend t

/-- What the tiers below do for a request: the slots that go back to their pages first and
those that are drawn, and the answers of the system, none also where it is not asked. -/
structure Supply where
  gives : List (Nat × Nat)
  takes : List (Option Nat)
  arena : Option (Nat × Bool)
  root : Option Nat
  more : Option Nat

/-- The tiers of `mp_alloc_internal`, src/src/cmem_alloc.c:200-371; the OS tier is in
`enter`. Only a child has arenas of threads. -/
def serve (t : Backing) (w : Who) (size : Nat) (sup : Supply) : Backing :=
  match (t.cfg w).tierOf size with
  | .slab => t.slabs w ((t.cfg w).classIndex size) sup.gives sup.takes
  | .tlsf =>
    let t := match (if w = .child then sup.arena else none) with
      | none => t
      | some (base, made) => t.tlsfArenaInit w base made
    t.tlsfAlloc w size sup.root sup.more
  | .os | .emergency => t

/-- `total_sz` of the OS tier. -/
def osSize (c : Config) (size : Nat) : Nat := wrap (size + headerSize + c.canaryLen)

/-- A block of the OS tier comes with its region, src/src/cmem_alloc.c:372-404. -/
def obtainOs (w : Who) (charge : Nat) (t : Backing) (b : Block) : Backing :=
  if b.tier = .os then
    t.obtain w (osSize (t.cfg w) charge) b.lo fun r h =>
      { h with os := r :: h.os, total := wrap (h.total + osSize (t.cfg w) charge) }
  else t

/-- The blocks in front of the live ones of `s` are new. -/
def enter (t : Backing) (w : Who) (charge : Nat) (s : State) : Backing :=
  { (s.live.take (s.live.length - t.pool.live.length)).foldl (obtainOs w charge) t with pool := s }

def alloc (t : Backing) (size : Nat) (ans : Option Place) (sup : Supply) : Backing :=
  let w := t.pool.route
  let charge := (t.cfg w).chargeOf size
  let t' := if size ≠ 0 ∧ Tiers.reaches t.pool w charge = true then t.serve w charge sup else t
  t'.enter w charge (mpAlloc t.pool size ans).1

def alignedAlloc (t : Backing) (alignment size : Nat) (ans : Option Place)
    (sup : Supply) : Backing :=
  let total := wrap (size + alignment + headerSize + (t.cfg .master).canaryLen)
  let t' := if isPow2 alignment = true ∧ 8 ≤ alignment ∧ Tiers.reaches t.pool .master total = true
    then t.serve .master total sup else t
  t'.enter .master total (mpAlignedAlloc t.pool .master alignment size ans).1

/-- mirrors `mp_expand_pool`, src/src/cmem_sys.c:506-529 -/
def mpExpandPool (t : Backing) (bytes : Nat) (ans : Option Nat) : Backing :=
  if bytes = 0 then t
  else
    match ans with
    | none => t
    | some base =>
      t.tlsfCreatePool .master bytes base fun h =>
        { h with statsTotal := wrap (h.statsTotal + (bytes + tpoolHdr)) }

/-- mirrors `mp_create_custom_impl`, src/src/cmem.c:280-320: the arena for the initial
capacity -/
def mpCreate (t : Backing) (capacity : Nat) (ans : Option Nat) : Backing :=
  let t := { t with stage := .running }
  if capacity = 0 then t
  else
    match ans with
    | none => t
    | some base =>
      t.tlsfCreatePool .master capacity base fun h =>
        { h with statsTotal := wrap (h.statsTotal + (capacity + tpoolHdr)) }

/-! ## Release -/

/-- mirrors `tlsf_arena_cleanup`, src/src/cmem_slab.c:221-235 -/
def tlsfArenaCleanup (t : Backing) (w : Who) (a : ThreadArena) : Backing :=
  (t.onHold w fun h =>
    { h with arenas := h.arenas.eraseP fun x => x.region = a.region
             total := wrap (h.total + (2 ^ 64 - arenaSize)) }).giveUp w a.region arenaSize

/-- A retired arena goes with its last block, src/src/cmem_slab.c:358-366. -/
def reapArena (t : Backing) (w : Who) (b : Block) : Backing :=
  match (t.hold w).arenas.find? fun a => a.retired && !a.vacant [b] with
  | some a => if a.vacant t.pool.live then t.tlsfArenaCleanup w a else t
  | none => t

/-- mirrors `tlsf_arena_retire`, src/src/cmem_slab.c:237-254 -/
def tlsfArenaRetire (t : Backing) (w : Who) (base : Nat) : Backing :=
  match (t.hold w).arenas.find? fun a => !a.retired && a.region.base = base with
  | some a =>
    if a.vacant t.pool.live then t.tlsfArenaCleanup w a
    else t.onHold w fun h => { h with arenas := h.arenas.map fun x =>
      if x.region = a.region then { x with retired := true } else x }
  | none => t

/-- The OS tier of `mp_free`, src/src/cmem_alloc.c:1355-1361 and 1400-1401. -/
def freeOs (t : Backing) (w : Who) (b : Block) : Backing :=
  let t :=
    t.onHold w fun h => { h with total := wrap (h.total + (2 ^ 64 - osSize (t.cfg w) b.requested)) }
  match (t.hold w).os.find? fun r => r.base = b.lo with
  | some r => (t.onHold w fun h => { h with os := h.os.erase r }).giveUp w r b.requested
  | none => t

/-- `mp_free` of a live block; `back` is the slot that finds no place in a cache. -/
def release (t : Backing) (b : Block) (intact : Bool) (back : Option (Nat × Nat)) : Backing :=
  let t' := { t with pool := t.pool.release b intact }
  let w := b.home .master
  match b.tier with
  | .slab => t'.onHold w fun h => { h with pages := back.toList.foldl PageLists.give h.pages }
  | .tlsf => if b.arena then t'.reapArena w b else t'
  | .os => t'.freeOs w b
  | .emergency => t'

def free (t : Backing) (ptr : Nat) (intact : Bool) (back : Option (Nat × Nat)) : Backing :=
  if ptr = 0 then t
  else
    match t.pool.find ptr with
    | none => t
    | some b => t.release b intact back

def realloc (t : Backing) (ptr newSize : Nat) (grow : Option Grown) (ans : Option Place)
    (intact : Bool) (sup : Supply) (back : Option (Nat × Nat)) : Backing :=
  if ptr = 0 then t.alloc newSize ans sup
  else if newSize = 0 then t.free ptr intact back
  else
    match t.pool.find ptr with
    | none => t
    | some b =>
      if b.usable < newSize ∧ (if b.tier = .tlsf then grow else none).isNone then
        if (mpAlloc t.pool newSize ans).2.isSome then
          (t.alloc newSize ans sup).release b intact back
        else t.alloc newSize ans sup
      else { t with pool := (mpRealloc t.pool ptr newSize grow ans intact).1 }

/-! ## Upkeep -/

/-- One page less in a field that counts pages, unless it says less than a page. -/
def lessPage (n : Nat) : Nat := if slabPageSize ≤ n then n - slabPageSize else n

/-- mirrors `mp_compact`, src/src/cmem_sys.c:721-774, at time `now`; the number is what it
returns -/
def mpCompact (t : Backing) (now : Nat) : Backing × Nat :=
  let kept := (t.hold .master).pages.partials.filter fun p => !p.shouldFree t.idle now
  let n := (t.hold .master).pages.partials.length - kept.length
  (t.onHold .master fun h =>
    { h with pages := { h.pages with partials := kept }, statsTotal := lessPage^[n] h.statsTotal },
    slabPageSize * n)

/-- mirrors `mp_reclaim_idle_pages`, src/src/cmem_lifecycle.c:251-334; `gives` are the slots
its caches give back first -/
def mpReclaimIdlePages (t : Backing) (now : Nat) (gives : List (Nat × Nat)) : Backing × Nat :=
  let pages := gives.foldl PageLists.give (t.hold .master).pages
  let kept :=
    ((List.range classCount).foldl (fun r c => sweep t.idle now c r.1 r.2) (pages.partials, 0)).1
  let n := pages.empties.length + (pages.partials.length - kept.length)
  (t.onHold .master fun h =>
    { h with pages := ⟨kept, pages.fulls, []⟩, total := lessPage^[n] h.total },
    slabPageSize * n)

/-- The turn of a thread's cache to another pool, src/src/cmem_slab.c:455-503. -/
def tlsCacheFlush (t : Backing) (w : Who) (gives : List (Nat × Nat))
    (arena : Option Nat) : Backing :=
  let t := t.onHold w fun h => { h with pages := gives.foldl PageLists.give h.pages }
  match arena with
  | some base => t.tlsfArenaRetire w base
  | none => t

/-- mirrors `mp_reparse_env_flags`, src/src/cmem_config.c:259-275 -/
def mpReparseEnvFlags (t : Backing) (env : Option String) : Backing :=
  { t with pool := t.pool.set .master { t.pool.pool .master with
    cfg := mpParseEnvFlags (t.cfg .master) env } }

/-- What `mp_destroy` returns of one pool: its TLSF arenas, and the arenas of threads that are
left, src/src/cmem_lifecycle.c:78-92 and src/src/cmem_slab.c:256-283. -/
def destroyed (t : Backing) (w : Who) : List Release :=
  (t.hold w).areas.map
    (fun a => sysMemFree t.vtable (t.cfg w) a.region (wrap (a.rawSize + tpoolHdr))) ++
      (t.hold w).arenas.map fun a => sysMemFree t.vtable (t.cfg w) a.region arenaSize

/-- mirrors `mp_destroy`, src/src/cmem_lifecycle.c:11-120, the child before its master; OS
blocks that are live are left behind -/
def mpDestroy (t : Backing) : Backing :=
  { t with
    hold := fun w => { Holding.empty with os := (t.hold w).os }
    released := t.destroyed .master ++ t.destroyed .child ++ t.released
    stage := .gone }

/-! ## Runs -/

inductive Act where
  | create (capacity : Nat) (ans : Option Nat)
  | alloc (size : Nat) (ans : Option Place) (sup : Supply)
  | alignedAlloc (alignment size : Nat) (ans : Option Place) (sup : Supply)
  | realloc (ptr newSize : Nat) (grow : Option Grown) (ans : Option Place) (intact : Bool)
      (sup : Supply)
      (back : Option (Nat × Nat))
  | free (ptr : Nat) (intact : Bool) (back : Option (Nat × Nat))
  | expand (bytes : Nat) (ans : Option Nat)
  | compact (now : Nat)
  | reclaim (now : Nat) (gives : List (Nat × Nat))
  | flush (w : Who) (gives : List (Nat × Nat)) (arena : Option Nat)
  | reparseEnvFlags (env : Option String)
  | destroy

def next (t : Backing) : Act → Backing
  | .create capacity ans => t.mpCreate capacity ans
  | .alloc size ans sup => t.alloc size ans sup
  | .alignedAlloc alignment size ans sup => t.alignedAlloc alignment size ans sup
  | .realloc ptr newSize grow ans intact sup back => t.realloc ptr newSize grow ans intact sup back
  | .free ptr intact back => t.free ptr intact back
  | .expand bytes ans => t.mpExpandPool bytes ans
  | .compact now => (t.mpCompact now).1
  | .reclaim now gives => (t.mpReclaimIdlePages now gives).1
  | .flush w gives arena => t.tlsCacheFlush w gives arena
  | .reparseEnvFlags env => t.mpReparseEnvFlags env
  | .destroy => t.mpDestroy

/-- A pool is created once and not used behind its end, sizes are `size_t`s, and only live
pointers are freed or resized. -/
def pre (t : Backing) : Act → Prop
  | .create capacity _ => t.stage = .fresh ∧ capacity < 2 ^ 64
  | .alloc size ans _ => t.stage = .running ∧ t.pool.pre (.alloc size ans)
  | .alignedAlloc alignment size ans _ =>
    t.stage = .running ∧ t.pool.pre (.alignedAlloc alignment size ans)
  | .realloc ptr newSize grow ans intact _ _ =>
    t.stage = .running ∧ t.pool.pre (.realloc ptr newSize grow ans intact)
  | .free ptr intact _ => t.stage = .running ∧ t.pool.pre (.free ptr intact)
  | .expand bytes _ => t.stage = .running ∧ bytes < 2 ^ 64
  | .compact _ | .reclaim .. | .flush .. | .reparseEnvFlags _ | .destroy => t.stage = .running

/-- What the system has handed out lies in the address space. -/
def Mapped (t : Backing) : Prop := ∀ w, (t.hold w).bytes < 2 ^ 64

/-- No pool yet, of any configuration. -/
def start (c : Config) (arenas : Bool) (v : Vtable) (i : IdleReclaim)
    (quotaBytes quotaCount : Nat) : Backing :=
  ⟨.init c arenas quotaBytes quotaCount, v, i, fun _ => .empty, [], [], .fresh⟩

def system (c : Config) (arenas : Bool) (v : Vtable) (i : IdleReclaim) : LTS Backing Act :=
  .det (fun t => c.limit < 2 ^ 64 ∧ ∃ q n, t = start c arenas v i q n)
    (fun t l => t.pre l ∧ (t.next l).Mapped) next

instance decMapped (t : Backing) : Decidable t.Mapped :=
  decidable_of_iff ((t.hold .master).bytes < 2 ^ 64 ∧ (t.hold .child).bytes < 2 ^ 64)
    ⟨fun h w => by cases w; exacts [h.1, h.2], fun h => ⟨h .master, h .child⟩⟩

instance decPre (t : Backing) : (l : Act) → Decidable (t.pre l)
  | .create capacity _ => inferInstanceAs (Decidable (t.stage = .fresh ∧ capacity < 2 ^ 64))
  | .alloc size ans _ =>
    inferInstanceAs (Decidable (t.stage = .running ∧ t.pool.pre (.alloc size ans)))
  | .alignedAlloc alignment size ans _ =>
    inferInstanceAs (Decidable (t.stage = .running ∧ t.pool.pre (.alignedAlloc alignment size ans)))
  | .realloc ptr newSize grow ans intact _ _ =>
    inferInstanceAs (Decidable
      (t.stage = .running ∧ t.pool.pre (.realloc ptr newSize grow ans intact)))
  | .free ptr intact _ =>
    inferInstanceAs (Decidable (t.stage = .running ∧ t.pool.pre (.free ptr intact)))
  | .expand bytes _ => inferInstanceAs (Decidable (t.stage = .running ∧ bytes < 2 ^ 64))
  | .compact _ | .reclaim .. | .flush .. | .reparseEnvFlags _ | .destroy =>
    inferInstanceAs (Decidable (t.stage = .running))

/-! ## What the fields tell -/

/-- mirrors `mp_resident`, src/src/cmem_config.c:242-250 -/
def mpResident (t : Backing) (w : Who) : Nat := (t.hold w).total

/-- mirrors `mp_get_expandable_size`, src/src/cmem_sys.c:557-568 -/
def mpGetExpandableSize (t : Backing) (w : Who) : Nat :=
  if 0 < (t.cfg w).limit then wrap ((t.cfg w).limit + (2 ^ 64 - (t.hold w).statsTotal)) else 0

/-! ## The pool inside -/

section Frames
variable {s s' : State} {w : Who} {b : Block}

theorem charged_cfg {n : Nat} (h : Charged s s' w n) (v : Who) :
    (s'.pool v).cfg = (s.pool v).cfg := by
  refine (h.same.cfg v).trans ?_
  by_cases e : v = w
  · subst e
    rw [set_self, charge_cfg]
  · rw [set_ne _ _ e]

theorem mpAlloc_cfg (s : State) (size : Nat) (ans : Option Place) (v : Who) :
    ((mpAlloc s size ans).1.pool v).cfg = (s.pool v).cfg := by
  rcases mpAlloc_form s size ans with h | ⟨-, -, h⟩
  · exact h.cfg v
  · exact charged_cfg h v

theorem mpAlignedAlloc_cfg (s : State) (w : Who) (alignment size : Nat) (ans : Option Place)
    (v : Who) : ((mpAlignedAlloc s w alignment size ans).1.pool v).cfg = (s.pool v).cfg := by
  rcases mpAlignedAlloc_form s w alignment size ans with h | ⟨n, -, h⟩
  · exact h.cfg v
  · exact charged_cfg h v

theorem release_cfg (s : State) (b : Block) (intact : Bool) (w : Who) :
    ((s.release b intact).pool w).cfg = (s.pool w).cfg := by
  unfold State.release
  simp only
  by_cases e : w = b.home .master
  · subst e
    rw [set_self]
    exact (release_counters _ b intact).2
  · rw [set_ne _ _ e]

theorem mpRealloc_cfg (s : State) (ptr newSize : Nat) (grow : Option Grown) (ans : Option Place)
    (intact : Bool) (v : Who) :
    ((mpRealloc s ptr newSize grow ans intact).1.pool v).cfg = (s.pool v).cfg := by
  have note (s' : State) (h : ∀ v, s'.pool v = s.pool v) :
      ((s'.set .master ((s'.pool .master).event (.realloc newSize))).pool v).cfg =
        (s.pool v).cfg := by
    by_cases e : v = .master
    · subst e
      rw [set_self, event_cfg, h]
    · rw [set_ne _ _ e, h]
  unfold mpRealloc
  split
  · exact mpAlloc_cfg ..
  · split
    · unfold mpFree
      rw [if_neg ‹_›]
      split
      · rfl
      · exact release_cfg ..
    · split
      · rfl
      · rename_i b hb
        dsimp only
        split
        · exact note _ fun _ => rfl
        · generalize (if b.tier = .tlsf then grow else none) = g
          cases g with
          | some g => exact note _ fun _ => rfl
          | none =>
            have h := mpAlloc_cfg s newSize ans v
            generalize mpAlloc s newSize ans = q at h ⊢
            obtain ⟨s', _ | q⟩ := q
            · exact h
            · exact (release_cfg ..).trans h

theorem tlsfArenaInit_pool (t : Backing) (w : Who) (base : Nat) (made : Bool) :
    (t.tlsfArenaInit w base made).pool = t.pool := by
  unfold Backing.tlsfArenaInit
  split <;> rfl

theorem expandSize_eight (c : Config) (size : Nat) :
    max (c.tlsfTotal size * 2) (4 * 1024 * 1024) % 8 = 0 := by
  unfold Config.tlsfTotal
  omega

/-- What each new arena keeps, `tlsf_alloc` keeps. -/
theorem tlsfAlloc_keeps {P : Backing → Prop}
    (hgrow : ∀ {t : Backing} {n : Nat}, P t → n % 8 = 0 → ∀ base, P (t.tlsfGrow w n base))
    {t : Backing} (h : P t) (size : Nat) (root more : Option Nat) :
    P (t.tlsfAlloc w size root more) := by
  unfold Backing.tlsfAlloc
  dsimp only
  split
  · cases root with
    | none => exact h
    | some base =>
      have hroot := hgrow h (by decide : 4 * 1024 * 1024 % 8 = 0) base
      cases more with
      | none => exact hroot
      | some base => exact hgrow hroot (expandSize_eight ..) base
  · cases more with
    | none => exact h
    | some base => exact hgrow h (expandSize_eight ..) base

theorem tlsfAlloc_pool (t : Backing) (w : Who) (size : Nat) (root more : Option Nat) :
    (t.tlsfAlloc w size root more).pool = t.pool :=
  tlsfAlloc_keeps (P := fun u => u.pool = t.pool) (fun h _ _ => h) rfl size root more

theorem serve_pool (t : Backing) (w : Who) (size : Nat) (sup : Supply) :
    (t.serve w size sup).pool = t.pool := by
  unfold Backing.serve
  split
  · rfl
  · dsimp only
    rw [tlsfAlloc_pool]
    split
    · rfl
    · exact tlsfArenaInit_pool ..
  · rfl
  · rfl

theorem alloc_pool (t : Backing) (size : Nat) (ans : Option Place) (sup : Supply) :
    (t.alloc size ans sup).pool = (mpAlloc t.pool size ans).1 := rfl

theorem freeOs_pool (t : Backing) (w : Who) (b : Block) : (t.freeOs w b).pool = t.pool := by
  unfold Backing.freeOs
  simp only
  split <;> rfl

theorem reapArena_pool (t : Backing) (w : Who) (b : Block) : (t.reapArena w b).pool = t.pool := by
  unfold Backing.reapArena
  split
  · split <;> rfl
  · rfl

theorem release_pool (t : Backing) (b : Block) (intact : Bool) (back : Option (Nat × Nat)) :
    (t.release b intact back).pool = t.pool.release b intact := by
  unfold Backing.release
  simp only
  split
  · rfl
  · split
    · exact reapArena_pool ..
    · rfl
  · exact freeOs_pool ..
  · rfl

/-- Only the environment changes a configuration. -/
theorem next_cfg (t : Backing) (l : Act) (w : Who) (h : ∀ env, l ≠ .reparseEnvFlags env) :
    (t.next l).cfg w = t.cfg w := by
  have hfree (t : Backing) (b : Block) (intact : Bool) (back : Option (Nat × Nat)) :
      (t.release b intact back).cfg w = t.cfg w := by
    unfold cfg
    rw [release_pool]
    exact release_cfg ..
  have halloc (size : Nat) (ans : Option Place) (sup : Supply) :
    (t.alloc size ans sup).cfg w = t.cfg w :=
    mpAlloc_cfg ..
  cases l with
  | create size ans =>
    unfold next mpCreate
    dsimp only
    split
    · rfl
    · cases ans <;> rfl
  | alloc size ans sup => exact halloc ..
  | alignedAlloc alignment size ans sup => exact mpAlignedAlloc_cfg ..
  | realloc ptr newSize grow ans intact sup back =>
    unfold next realloc
    dsimp only
    split
    · exact halloc ..
    · split
      · unfold free
        rw [if_neg ‹_›]
        split
        · rfl
        · exact hfree ..
      · split
        · rfl
        · rename_i b hb
          by_cases hmove : b.usable < newSize ∧ (if b.tier = .tlsf then grow else none).isNone
          · rw [if_pos hmove]
            split
            · exact (hfree ..).trans (halloc ..)
            · exact halloc ..
          · rw [if_neg hmove]
            exact mpRealloc_cfg ..
  | free ptr intact back =>
    unfold next free
    dsimp only
    split
    · rfl
    · split
      · rfl
      · exact hfree ..
  | expand size ans =>
    unfold next mpExpandPool
    dsimp only
    split
    · rfl
    · cases ans <;> rfl
  | compact now => rfl
  | reclaim now gives => rfl
  | flush w gives arena =>
    unfold next tlsCacheFlush tlsfArenaRetire
    dsimp only
    split
    · split
      · split <;> rfl
      · rfl
    · rfl
  | reparseEnvFlags env => exact absurd rfl (h env)
  | destroy => rfl

end Frames

end Backing

end Cmem.L3.Pool

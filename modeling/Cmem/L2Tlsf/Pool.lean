import Cmem.Core.LTS
import Cmem.L2Tlsf.Model

/-!
# Pools of arenas and the thread cache

`tlsf_alloc` over the arena chain of a pool, `tlsf_free` and
`tlsf_try_inplace_expand` on a block of one of them, and the thread's cache of
freed TLSF blocks: the hit, the span mismatch and the push of `mp_alloc` and
`mp_free`, the flushes, and `mp_reset`. A header is passed by its fields: the
block (`raw_base`), the arena (`subpool`) and `usable_size`; what the code
stamps into it is written to memory all the same.

`system cfg` is the transition system of all single-threaded runs. `live` lists
the blocks in callers' hands, with the arena each belongs to. An operation that
may ask the operating system for an arena carries the addresses it gets (`0` is
a failure).
-/
namespace Cmem.L2.SharedTlsf

/-- All arenas, newest first; the chain of a pool is the ones it owns. -/
structure Heap where
  mem : Mem
  tp : Nat → TPool
  arenas : List Nat

/-- The chain from `pool->tlsf_root`. -/
def Heap.root (H : Heap) (P : Nat) : List Nat := H.arenas.filter fun t => (H.tp t).owner = P

def Heap.put (H : Heap) (t : Nat) (r : Mem × TPool) : Heap :=
  { H with mem := r.1, tp := Function.update H.tp t r.2 }

/-- A new arena at the head of the chain of `P`. -/
def Heap.addArena (H : Heap) (P size self : Nat) : Heap :=
  let r := tlsfCreatePoolCustom H.mem P size self
  ⟨r.1, Function.update H.tp self r.2, self :: H.arenas⟩

/-- The flags of a pool that the TLSF code reads. -/
structure Cfg where
  canary : Bool
  zeroOnAlloc : Bool
  staticBuffer : Bool

/-- The first word of an `mp_block_header_t`: `magic`, `alloc_type` (TLSF is 2),
`slab_class`, `flags`. -/
def headerWord (allocType slabClass flags : Nat) : Nat :=
  0x4D504F4F + allocType * 2 ^ 32 + slabClass * 2 ^ 40 + flags * 2 ^ 48

/-- The header of a TLSF block, its canary and its zeroed payload:
src/src/cmem_tlsf.c:449-471, src/src/cmem_alloc.c:296-318. -/
def stampBlock (cfg : Cfg) (m : Mem) (t block req total flags : Nat) : Mem :=
  let h := block + blockHdr
  let m := (m.set h (headerWord 2 0 flags)).set (h + 8) req
  let m := (m.set (h + 16) (sizeSub total (blockHdr + hdrSize))).set (h + 24) block
  let m := ((m.set (h + 32) t).set (h + 40) 0).set (h + 48) 0
  let m := (m.set (h + 56) 0).set (h + 128) 0
  let payload := h + hdrSize
  let m := if cfg.canary then m.setByte (sizeAdd payload req) canaryByte else m
  if cfg.zeroOnAlloc then m.fill payload 0 req else m

/-- The walk over the arena chain, src/src/cmem_tlsf.c:371-402. -/
def searchChain (H : Heap) (total : Nat) : List Nat → Option (Heap × Nat × Nat)
  | [] => none
  | t :: ts =>
    let block := tlsfFindSuitableBlock (H.tp t) total
    if block ≠ 0 then some (H.put t (takeBlock H.mem (H.tp t) block total), t, block)
    else searchChain H total ts

/-- 4 MiB, the size of the first arena and the least expansion. -/
def initSize : Nat := 4194304

/-- `expand_sz`, src/src/cmem_tlsf.c:408-409. -/
def expandSize (total : Nat) : Nat :=
  if initSize < total * 2 % sizeMod then total * 2 % sizeMod else initSize

/-- The first arena of a pool without one, src/src/cmem_tlsf.c:350-364. -/
def firstArena (H : Heap) (P os₀ : Nat) : Heap :=
  if H.root P = [] ∧ os₀ ≠ 0 then H.addArena P initSize os₀ else H

/-- mirrors `tlsf_alloc`, src/src/cmem_tlsf.c:336-473; returns arena and block -/
def tlsfAlloc (cfg : Cfg) (H : Heap) (P req os₀ os₁ : Nat) : Heap × Option (Nat × Nat) :=
  let total := totalNeeded req cfg.canary.toNat
  let H := firstArena H P os₀
  if H.root P = [] then (H, none)
  else
    match searchChain H total (H.root P) with
    | some (H, t, block) =>
      ({ H with mem := stampBlock cfg H.mem t block req total 0 }, some (t, block))
    | none =>
      if cfg.staticBuffer ∨ os₁ = 0 then (H, none)
      else
        match searchChain (H.addArena P (expandSize total) os₁) total [os₁] with
        | some (H, t, block) =>
          ({ H with mem := stampBlock cfg H.mem t block req total 0 }, some (t, block))
        | none => (H.addArena P (expandSize total) os₁, none)

/-- mirrors `tlsf_try_inplace_expand`, src/src/cmem_tlsf.c:559-660, for the
header at `h` of `block` in arena `t` -/
def tlsfTryInplaceExpand (cfg : Cfg) (H : Heap) (t block h newSize : Nat) : Heap × Bool :=
  match expandBlock H.mem (H.tp t) block (totalNeeded newSize cfg.canary.toNat) with
  | none => (H, false)
  | some r =>
    let H := H.put t r
    let m := (H.mem.set (h + 8) newSize).set (h + 16)
      (sizeSub (sizeSub (span H.mem block) blockHdr) hdrSize)
    let m := if cfg.canary then m.setByte (sizeAdd (h + hdrSize) newSize) canaryByte else m
    ({ H with mem := m }, true)

/-! ## The thread cache -/

/-- `tlsf_cache_entry_t`; a pointer to `tlsf_entries[k]` is `k + 1`. -/
structure Entry where
  block : Nat
  tpool : Nat
  next : Nat

/-- The TLSF part of `thread_cache_t`. -/
structure Tls where
  owner : Nat
  slots : Nat → Nat
  counts : Nat → Nat
  entries : Nat → Entry

/-- `TLSF_CACHE_MIN_FL`, `TLSF_CACHE_SIZES`, `TLSF_CACHE_MAX_SLOTS`. -/
def cacheMinFl : Nat := 6
def cacheSizes : Nat := 8
def cacheMaxSlots : Nat := 8

/-- The cache bucket of a block size, if there is one. -/
def cacheIdx (size : Nat) : Option Nat :=
  let fl := tlsfBlockSizeToFl size
  if cacheMinFl ≤ fl ∧ fl - cacheMinFl < cacheSizes then some (fl - cacheMinFl) else none

/-- Take the head entry of bucket `i` off its list. -/
def Tls.unlink (C : Tls) (i : Nat) : Tls :=
  { C with slots := Function.update C.slots i (C.entries (C.slots i - 1)).next }

/-- The drain loop of one bucket, src/src/cmem_slab.c:479-494 and
src/src/cmem_alloc.c:1449-1456; a bucket holds at most `cacheMaxSlots` entries. -/
def drainBucket : Nat → Heap → Tls → Nat → Heap × Tls
  | 0, H, C, _ => (H, C)
  | fuel + 1, H, C, i =>
    if C.slots i = 0 then (H, C)
    else
      let e := C.entries (C.slots i - 1)
      drainBucket fuel (H.put e.tpool (reinsert H.mem (H.tp e.tpool) e.block)) (C.unlink i) i

def clearCount (r : Heap × Tls) (i : Nat) : Heap × Tls :=
  (r.1, { r.2 with counts := Function.update r.2.counts i 0 })

def flushFrom (H : Heap) (C : Tls) : List Nat → Heap × Tls
  | [] => (H, C)
  | i :: is =>
    let r := clearCount (drainBucket (cacheMaxSlots + 1) H C i) i
    flushFrom r.1 r.2 is

/-- Every bucket back to its arena. -/
def flushCache (H : Heap) (C : Tls) : Heap × Tls := flushFrom H C (List.range cacheSizes)

/-- mirrors `tls_cache_flush_pool`, src/src/cmem_slab.c:455-501, the TLSF part;
cached blocks are never blocks of a per-thread arena -/
def tlsCacheFlushPool (H : Heap) (C : Tls) (P : Nat) : Heap × Tls :=
  if C.owner = P then flushCache H { C with owner := 0 } else (H, C)

/-- mirrors `tls_cache_validate_owner`, src/src/cmem_slab.c:520-551 -/
def tlsCacheValidateOwner (H : Heap) (C : Tls) (P : Nat) : Heap × Tls :=
  if C.owner = P then (H, C)
  else
    let r := if C.owner ≠ 0 then tlsCacheFlushPool H C C.owner else (H, C)
    (r.1, { r.2 with owner := P })

def Tls.pop (C : Tls) (i : Nat) : Tls :=
  { C.unlink i with counts := Function.update C.counts i (C.counts i - 1) }

def Tls.push (C : Tls) (i block tpool : Nat) : Tls :=
  let k := i * cacheMaxSlots + C.counts i
  { C with entries := Function.update C.entries k ⟨block, tpool, C.slots i⟩,
           slots := Function.update C.slots i (k + 1),
           counts := Function.update C.counts i (C.counts i + 1) }

/-- `tlsf_alloc` behind the cache and the per-thread arena; `arenaServes`: the
thread's arena has served the request. -/
def allocMiss (cfg : Cfg) (H : Heap) (C : Tls) (P size os₀ os₁ : Nat) (arenaServes : Bool) :
    (Heap × Tls) × Option (Nat × Nat) :=
  if arenaServes then ((H, C), none)
  else
    let r := tlsfAlloc cfg H P size os₀ os₁
    ((r.1, C), r.2)

/-- The TLSF tier of `mp_alloc_internal`, src/src/cmem_alloc.c:260-371. -/
def mpAllocTlsf (cfg : Cfg) (H : Heap) (C : Tls) (P size os₀ os₁ : Nat) (arenaServes : Bool) :
    (Heap × Tls) × Option (Nat × Nat) :=
  let r := tlsCacheValidateOwner H C P
  let total := totalNeeded size cfg.canary.toNat
  match cacheIdx total with
  | none => allocMiss cfg r.1 r.2 P size os₀ os₁ arenaServes
  | some i =>
    if r.2.counts i = 0 then allocMiss cfg r.1 r.2 P size os₀ os₁ arenaServes
    else
      let e := r.2.entries (r.2.slots i - 1)
      let C := r.2.pop i
      if span r.1.mem e.block ≠ total then
        allocMiss cfg (r.1.put e.tpool (reinsert r.1.mem (r.1.tp e.tpool) e.block)) C P size os₀ os₁
          arenaServes
      else
        let m := setSize r.1.mem e.block (total + andPrevFree (r.1.mem e.block))
        (({ r.1 with mem := stampBlock cfg m e.tpool e.block size total 2 }, C),
          some (e.tpool, e.block))

/-- The shared TLSF branch of `mp_free`, src/src/cmem_alloc.c:1374-1402, with the
pool taken from the arena as at lines 1233-1237. -/
def mpFreeTlsf (H : Heap) (C : Tls) (t block usable : Nat) : Heap × Tls :=
  let r := tlsCacheValidateOwner H C (H.tp t).owner
  match cacheIdx (sizeAdd usable (blockHdr + hdrSize)) with
  | none => (r.1.put t (tlsfFree r.1.mem (r.1.tp t) block), r.2)
  | some i =>
    if r.2.counts i < cacheMaxSlots then (r.1, r.2.push i block t)
    else (r.1.put t (tlsfFree r.1.mem (r.1.tp t) block), r.2)

/-- The shared TLSF branch of `mp_realloc` up to the in-place attempt,
src/src/cmem_alloc.c:1444-1458 and 1533-1535. A failed attempt goes on with
`mp_alloc`, a copy and `mp_free`. -/
def mpReallocTlsf (cfg : Cfg) (H : Heap) (C : Tls) (P t block h newSize : Nat) :
    (Heap × Tls) × Bool :=
  let r := tlsCacheValidateOwner H C P
  let r := flushCache r.1 r.2
  let q := tlsfTryInplaceExpand cfg r.1 t block h newSize
  ((q.1, r.2), q.2)

/-- The block is large enough as it is: the start of `mp_realloc`,
src/src/cmem_alloc.c:1434-1442, with the header at `h`. -/
def restamp (cfg : Cfg) (m : Mem) (h newSize : Nat) : Mem :=
  let m := m.set (h + 8) newSize
  if cfg.canary then m.setByte (sizeAdd (h + hdrSize) newSize) canaryByte else m

/-- `mp_realloc` where the block stays, src/src/cmem_alloc.c:1434-1458 and 1533-1535. -/
def mpReallocInPlace (cfg : Cfg) (H : Heap) (C : Tls) (P t block h newSize : Nat) :
    (Heap × Tls) × Bool :=
  if newSize ≤ H.mem (h + 16) then (({ H with mem := restamp cfg H.mem h newSize }, C), true)
  else mpReallocTlsf cfg H C P t block h newSize

/-- The arena loop of `mp_reset`, src/src/cmem_lifecycle.c:189-208. -/
def reseedAll (H : Heap) : List Nat → Heap
  | [] => H
  | t :: ts => reseedAll (H.put t (reseed H.mem (H.tp t))) ts

/-- The TLSF part of `mp_reset`, src/src/cmem_lifecycle.c:127-212. -/
def mpResetTlsf (H : Heap) (C : Tls) (P : Nat) : Heap × Tls :=
  let r := tlsCacheFlushPool H C P
  (reseedAll r.1 (r.1.root P), r.2)

/-! ## Runs -/

structure Sys where
  heap : Heap
  tls : Tls
  live : List (Nat × Nat)

inductive Op where
  | addArena (P size self : Nat)
  | tlsfAlloc (P req os₀ os₁ : Nat)
  | tlsfFree (t b : Nat)
  | tlsfExpand (P t b h newSize : Nat)
  | mpAlloc (P size os₀ os₁ : Nat) (arenaServes : Bool)
  | mpFree (t b usable : Nat)
  | mpRealloc (P t b h newSize : Nat)
  | flushPool (P : Nat)
  | mpReset (P : Nat)
  | write (t b a v : Nat)

/-- The end of the memory an arena owns; it starts at its `tlsf_pool_t`. -/
def Heap.fin (H : Heap) (t : Nat) : Nat := (H.tp t).raw + (H.tp t).size

/-- The operating system hands out memory of the address space that belongs to
nobody, for an arena of rounded size in `[64, 2^30)`. -/
def Fresh (H : Heap) (size self : Nat) : Prop :=
  0 < self ∧ 8 ∣ self ∧ 64 ≤ sizeAlign8 size ∧ sizeAlign8 size < 2 ^ 30 ∧
    self + tpoolHdr + sizeAlign8 size < sizeMod ∧
    ∀ t ∈ H.arenas, H.fin t ≤ self ∨ self + tpoolHdr + sizeAlign8 size ≤ t

instance (H : Heap) (size self : Nat) : Decidable (Fresh H size self) :=
  inferInstanceAs (Decidable (0 < self ∧ 8 ∣ self ∧ 64 ≤ sizeAlign8 size ∧
    sizeAlign8 size < 2 ^ 30 ∧ self + tpoolHdr + sizeAlign8 size < sizeMod ∧
    ∀ t ∈ H.arenas, H.fin t ≤ self ∨ self + tpoolHdr + sizeAlign8 size ≤ t))

/-- The two arenas `tlsf_alloc` may create are fresh. -/
def FreshPair (H : Heap) (P total os₀ os₁ : Nat) : Prop :=
  (os₀ ≠ 0 → Fresh H initSize os₀) ∧ (os₁ ≠ 0 → Fresh (firstArena H P os₀) (expandSize total) os₁)

instance (H : Heap) (P total os₀ os₁ : Nat) : Decidable (FreshPair H P total os₀ os₁) :=
  inferInstanceAs (Decidable ((os₀ ≠ 0 → Fresh H initSize os₀) ∧
    (os₁ ≠ 0 → Fresh (firstArena H P os₀) (expandSize total) os₁)))

/-- The header at `h` lies behind the `tlsf_block_t` of `b`, inside the part that
a grow to `newSize` keeps. -/
def HeaderIn (H : Heap) (b h newSize : Nat) : Prop :=
  8 ∣ h ∧ b + blockHdr ≤ h ∧ h ≤ b + blockHdr + newSize ∧ h + hdrSize ≤ b + span H.mem b

instance (H : Heap) (b h newSize : Nat) : Decidable (HeaderIn H b h newSize) :=
  inferInstanceAs (Decidable (8 ∣ h ∧ b + blockHdr ≤ h ∧ h ≤ b + blockHdr + newSize ∧
    h + hdrSize ≤ b + span H.mem b))

/-- The header at `h` lies in the block, behind its `tlsf_block_t`. -/
def HeaderAt (H : Heap) (b h : Nat) : Prop :=
  8 ∣ h ∧ b + blockHdr ≤ h ∧ h + hdrSize ≤ b + span H.mem b

instance (H : Heap) (b h : Nat) : Decidable (HeaderAt H b h) :=
  inferInstanceAs (Decidable (_ ∧ _ ∧ _))

/-- What the callers and the operating system promise. -/
def Sys.pre (cfg : Nat → Cfg) (s : Sys) : Op → Prop
  | .addArena P size self => P ≠ 0 ∧ Fresh s.heap size self
  | .tlsfAlloc P req os₀ os₁ =>
    P ≠ 0 ∧ FreshPair s.heap P (totalNeeded req (cfg P).canary.toNat) os₀ os₁
  | .tlsfFree t b => (t, b) ∈ s.live
  | .tlsfExpand _ t b h newSize => (t, b) ∈ s.live ∧ HeaderIn s.heap b h newSize
  | .mpAlloc P size os₀ os₁ _ =>
    P ≠ 0 ∧ FreshPair s.heap P (totalNeeded size (cfg P).canary.toNat) os₀ os₁
  | .mpFree t b _ => (t, b) ∈ s.live
  | .mpRealloc P t b h newSize => P ≠ 0 ∧ (t, b) ∈ s.live ∧ HeaderAt s.heap b h ∧
    (s.heap.mem (h + 16) < newSize → HeaderIn s.heap b h newSize)
  | .flushPool P => P ≠ 0
  | .mpReset P => P ≠ 0
  | .write t b a _ => (t, b) ∈ s.live ∧ b + blockHdr ≤ a ∧ a < b + span s.heap.mem b

instance decPre (cfg : Nat → Cfg) (s : Sys) : ∀ l, Decidable (s.pre cfg l)
  | .addArena P size self => inferInstanceAs (Decidable (P ≠ 0 ∧ Fresh s.heap size self))
  | .tlsfAlloc P req os₀ os₁ =>
    inferInstanceAs (Decidable
      (P ≠ 0 ∧ FreshPair s.heap P (totalNeeded req (cfg P).canary.toNat) os₀ os₁))
  | .tlsfFree t b => inferInstanceAs (Decidable ((t, b) ∈ s.live))
  | .tlsfExpand _ t b h newSize =>
    inferInstanceAs (Decidable ((t, b) ∈ s.live ∧ HeaderIn s.heap b h newSize))
  | .mpAlloc P size os₀ os₁ _ =>
    inferInstanceAs (Decidable
      (P ≠ 0 ∧ FreshPair s.heap P (totalNeeded size (cfg P).canary.toNat) os₀ os₁))
  | .mpFree t b _ => inferInstanceAs (Decidable ((t, b) ∈ s.live))
  | .mpRealloc P t b h newSize =>
    inferInstanceAs (Decidable (P ≠ 0 ∧ (t, b) ∈ s.live ∧ HeaderAt s.heap b h ∧
      (s.heap.mem (h + 16) < newSize → HeaderIn s.heap b h newSize)))
  | .flushPool P => inferInstanceAs (Decidable (P ≠ 0))
  | .mpReset P => inferInstanceAs (Decidable (P ≠ 0))
  | .write t b a _ =>
    inferInstanceAs (Decidable ((t, b) ∈ s.live ∧ b + blockHdr ≤ a ∧ a < b + span s.heap.mem b))

def consOpt {α : Type} (o : Option α) (l : List α) : List α :=
  match o with
  | none => l
  | some a => a :: l

def Sys.next (cfg : Nat → Cfg) (s : Sys) : Op → Sys
  | .addArena P size self => { s with heap := s.heap.addArena P size self }
  | .tlsfAlloc P req os₀ os₁ =>
    let r := SharedTlsf.tlsfAlloc (cfg P) s.heap P req os₀ os₁
    ⟨r.1, s.tls, consOpt r.2 s.live⟩
  | .tlsfFree t b =>
    ⟨s.heap.put t (SharedTlsf.tlsfFree s.heap.mem (s.heap.tp t) b), s.tls, s.live.erase (t, b)⟩
  | .tlsfExpand P t b h newSize =>
    { s with heap := (tlsfTryInplaceExpand (cfg P) s.heap t b h newSize).1 }
  | .mpAlloc P size os₀ os₁ arenaServes =>
    let r := mpAllocTlsf (cfg P) s.heap s.tls P size os₀ os₁ arenaServes
    ⟨r.1.1, r.1.2, consOpt r.2 s.live⟩
  | .mpFree t b usable =>
    let r := mpFreeTlsf s.heap s.tls t b usable
    ⟨r.1, r.2, s.live.erase (t, b)⟩
  | .mpRealloc P t b h newSize =>
    let r := mpReallocInPlace (cfg P) s.heap s.tls P t b h newSize
    ⟨r.1.1, r.1.2, s.live⟩
  | .flushPool P =>
    let r := tlsCacheFlushPool s.heap s.tls P
    ⟨r.1, r.2, s.live⟩
  | .mpReset P =>
    let r := mpResetTlsf s.heap s.tls P
    ⟨r.1, r.2, s.live.filter fun p => (s.heap.tp p.1).owner ≠ P⟩
  | .write _ _ a v => { s with heap := { s.heap with mem := s.heap.mem.setByte a v } }

/-- No arena yet, an empty cache, any memory. -/
def start (m : Mem) : Sys :=
  ⟨⟨m, fun _ => emptyIndex 0 0 0, []⟩, ⟨0, fun _ => 0, fun _ => 0, fun _ => ⟨0, 0, 0⟩⟩, []⟩

def system (cfg : Nat → Cfg) : LTS Sys Op :=
  .det (fun s => ∃ m, s = start m) (Sys.pre cfg) (Sys.next cfg)

end Cmem.L2.SharedTlsf

import Cmem.Core.LTS
import Cmem.L2Compress.Lz4

/-!
# The compressed store

`mp_compress_block`, `mp_decompress_block`, `mp_free_compressed` and
`mp_set_compressed_budget`, src/src/cmem_compress.c:237-454. The pool's own
allocator is outside this component: a call of `mp_alloc` answers with `NULL` or
with a block apart from all live ones, a call of `mp_free` ends a block, and both
may write anywhere outside the live blocks (`Heap.havoc`). The answers of the
calls made by one operation come with its label (`Env`), so a run ranges over all
of them.

A live block lies below `2 ^ 63`, the limit of a C object, so the sums of offsets
and sizes that the source forms in `size_t` do not wrap.
-/
namespace Cmem.L2.Compress

/-! ## The pool's blocks -/

structure Heap where
  mem : Buf
  live : List (Nat × Nat)
  /-- The calls of `mp_free`, the last one first. -/
  freed : List Nat

/-- `[a, a + n)` and `[b, b + m)` do not meet. -/
def Apart (a n b m : Nat) : Prop := a + n ≤ b ∨ b + m ≤ a

instance decApart (a n b m : Nat) : Decidable (Apart a n b m) :=
  inferInstanceAs (Decidable (a + n ≤ b ∨ b + m ≤ a))

def covered (live : List (Nat × Nat)) (i : Nat) : Bool := live.any fun b => b.1 ≤ i && i < b.1 + b.2

/-- Everything outside the live blocks becomes `junk`. -/
def Heap.havoc (h : Heap) (junk : Buf) : Heap :=
  { h with mem := fun i => if covered h.live i then h.mem i else junk i }

/-- What `mp_alloc` may answer. -/
def Heap.Grants (h : Heap) (size : Nat) : Option Nat → Prop
  | none => True
  | some a => a ≠ 0 ∧ a + size ≤ 2 ^ 63 ∧ ∀ b ∈ h.live, b.1 ≠ a ∧ Apart a size b.1 b.2

instance decGrants (h : Heap) (size : Nat) : (ans : Option Nat) → Decidable (h.Grants size ans)
  | none => .isTrue trivial
  | some a =>
    inferInstanceAs (Decidable (a ≠ 0 ∧ a + size ≤ 2 ^ 63 ∧ ∀ b ∈ h.live, b.1 ≠ a ∧
      Apart a size b.1 b.2))

/-- `mp_alloc`, with its answer. -/
def Heap.mpAlloc (h : Heap) (size : Nat) (ans : Option Nat) (junk : Buf) : Heap :=
  match ans with
  | none => h.havoc junk
  | some a => { h.havoc junk with live := (a, size) :: h.live }

def Heap.mpFree (h : Heap) (p : Nat) (junk : Buf) : Heap :=
  { h with live := h.live.filter fun b => b.1 ≠ p, freed := p :: h.freed }.havoc junk

/-! ## The table -/

def slotSize : Nat := 4096
def defaultBudget : Nat := 16 * 1024 * 1024
def maxEntries : Nat := 4096

/-- mirrors `cmem_compressed_entry_t`, src/src/cmem_internal.h:258-265 -/
structure Entry where
  originalSize : Nat
  compOffset : Nat
  compSize : Nat
  generation : Nat
  allocSeq : Nat
  used : Bool

/-- The `compressed_*` fields of `memory_pool_t`. -/
structure Pool where
  entries : Nat → Entry
  capacity : Nat
  seq : Nat
  budget : Nat
  usedBytes : Nat
  area : Option Nat
  areaSize : Nat

/-- The answers of the calls that `mp_compress_block` and
`mp_set_compressed_budget` make. -/
structure Env where
  /-- `mp_expand_pool` -/
  expand : Bool
  /-- `mp_alloc` for the area -/
  area : Option Nat
  /-- `calloc` for the table -/
  table : Bool
  /-- `malloc` for the scratch buffer, with its contents -/
  scratch : Option Buf
  allocJunk : Buf
  undoJunk : Buf
  freeJunk : Buf

/-- mirrors `cmem_compress_ensure_area`, src/src/cmem_compress.c:244-273 -/
def ensureArea (p : Pool) (h : Heap) (e : Env) : Pool × Heap × Bool :=
  match p.area with
  | some _ => (p, h, true)
  | none =>
    let want := if p.budget = 0 then defaultBudget else p.budget
    let p := { p with budget := want }
    if e.expand then
      match e.area with
      | none => (p, h.mpAlloc want none e.allocJunk, false)
      | some a =>
        let h := h.mpAlloc want (some a) e.allocJunk
        if e.table then
          ({ p with entries := fun _ => ⟨0, 0, 0, 0, 0, false⟩, capacity := maxEntries,
                    area := some a, areaSize := want }, h, true)
        else (p, h.mpFree a e.undoJunk, false)
    else (p, h.havoc e.allocJunk, false)

def handleOf (slot generation : Nat) : Nat := slot * 2 ^ 32 + generation

/-- An entry leaves the table: `used = false; generation++; compressed_used -= comp_size`. -/
def Pool.drop (p : Pool) (i : Nat) : Pool :=
  { p with entries := Function.update p.entries i
             { p.entries i with
               used := false, generation := ((p.entries i).generation + 1) % 2 ^ 32 }
           usedBytes := p.usedBytes - (p.entries i).compSize }

/-- The scan for the used entry with the least `alloc_seq`. -/
def oldestOf (entries : Nat → Entry) (is : List Nat) : Nat × Option Nat :=
  is.foldl
    (fun o i =>
      if (entries i).used && (entries i).allocSeq < o.1 then ((entries i).allocSeq, some i) else o)
    (2 ^ 32 - 1, none)

/-- mirrors `cmem_compress_evict_oldest`, src/src/cmem_compress.c:275-293; also
returns the handle that was evicted -/
def evictOldest (p : Pool) : Pool × List Nat :=
  match (oldestOf p.entries (List.range p.capacity)).2 with
  | none => (p, [])
  | some i => (p.drop i, [handleOf i (p.entries i).generation])

/-- The eviction loop, src/src/cmem_compress.c:326-333. -/
def makeRoom (clen : Nat) : Nat → Pool → Pool × List Nat × Bool
  | 0, p => (p, [], true)
  | fuel + 1, p =>
    if p.budget < p.usedBytes + clen then
      let (p', ev) := evictOldest p
      if p'.usedBytes = p.usedBytes then (p', ev, false)
      else
        let (p'', ev', ok) := makeRoom clen fuel p'
        (p'', ev ++ ev', ok)
    else (p, [], true)

/-- Some used entry meets `[off, off + aligned)`. -/
def Pool.busy (p : Pool) (off aligned : Nat) : Bool :=
  (List.range p.capacity).any fun i =>
    (p.entries i).used && (p.entries i).compOffset < off + aligned &&
    off < (p.entries i).compOffset + (p.entries i).compSize

/-- The placement loop, src/src/cmem_compress.c:356-371. -/
def firstFit (p : Pool) (aligned : Nat) : Nat → Nat → Nat
  | 0, off => off
  | fuel + 1, off =>
    if off + aligned ≤ p.areaSize ∧ p.busy off aligned = true then
      firstFit p aligned fuel (off + slotSize)
    else off

def alignSlot (clen : Nat) : Nat :=
  let aligned := (clen + (slotSize - 1)) / slotSize * slotSize
  if aligned = 0 then slotSize else aligned

/-- The entry that a store fills in. -/
def Pool.put (p : Pool) (slot size off clen : Nat) : Pool :=
  { p with entries := Function.update p.entries slot
             ⟨size, off, clen, ((p.entries slot).generation + 1) % 2 ^ 32, p.seq, true⟩
           seq := (p.seq + 1) % 2 ^ 32
           usedBytes := p.usedBytes + clen }

structure Stored where
  pool : Pool
  heap : Heap
  handle : Nat
  evicted : List Nat

/-- The part of `mp_compress_block` behind the codec, src/src/cmem_compress.c:324-393. -/
def place (p : Pool) (h : Heap) (area data size clen : Nat) (scratch freeJunk : Buf) : Stored :=
  let (p, ev, ok) := makeRoom clen (p.usedBytes + 1) p
  if ok then
    match (List.range p.capacity).find? fun i => !(p.entries i).used with
    | none => ⟨p, h, 0, ev⟩
    | some slot =>
      let off := firstFit p (alignSlot clen) (p.areaSize / slotSize + 1) 0
      if p.areaSize < off + alignSlot clen then ⟨p, h, 0, ev⟩
      else
        let h := { h with mem := h.mem.copy scratch (area + off) 0 clen }
        let p := p.put slot size off clen
        ⟨p, h.mpFree data freeJunk, handleOf slot (p.entries slot).generation, ev⟩
  else ⟨p, h, 0, ev⟩

/-- mirrors `mp_compress_block`, src/src/cmem_compress.c:295-393 -/
def mpCompressBlock (p : Pool) (h : Heap) (data size : Nat) (e : Env) : Stored :=
  if data = 0 ∨ size = 0 ∨ size < 64 ∨ 2 ^ 31 - 1 < size then ⟨p, h, 0, []⟩
  else
    let (p, h, ok) := ensureArea p h e
    match ok, p.area with
    | true, some area =>
      if p.budget = 0 then ⟨p, h, 0, []⟩
      else
        match e.scratch with
        | none => ⟨p, h, 0, []⟩
        | some scratch =>
          match cmemLz4Compress (fun i => h.mem (data + i)) scratch size size with
          | (_, none) => ⟨p, h, 0, []⟩
          | (scratch, some clen) =>
            if size ≤ clen then ⟨p, h, 0, []⟩ else place p h area data size clen scratch e.freeJunk
    | _, _ => ⟨p, h, 0, []⟩

/-- The entry a handle names, if it is in use under that generation. A handle has
64 bits, so `handle >> 32` is its upper half. -/
def Pool.lookup (p : Pool) (handle : Nat) : Option Nat :=
  if handle = 0 then none
  else
    let slot := handle / 2 ^ 32
    if p.capacity ≤ slot then none
    else if (p.entries slot).used = true ∧ (p.entries slot).generation = handle % 2 ^ 32 then
      some slot
    else none

/-- mirrors `mp_decompress_block`, src/src/cmem_compress.c:395-422 -/
def mpDecompressBlock (p : Pool) (h : Heap) (handle : Nat) (ans : Option Nat)
    (junk undoJunk : Buf) : Heap × Option Nat :=
  match p.lookup handle with
  | none => (h, none)
  | some slot =>
    let entry := p.entries slot
    let h := h.mpAlloc entry.originalSize ans junk
    match ans with
    | none => (h, none)
    | some out =>
      let base := p.area.getD 0 + entry.compOffset
      let (buf, r) :=
        cmemLz4Decompress (fun i => h.mem (base + i)) (fun i => h.mem (out + i)) entry.compSize
        entry.originalSize
      let h := { h with mem := fun i => if out ≤ i then buf (i - out) else h.mem i }
      if r = some entry.originalSize then (h, some out) else (h.mpFree out undoJunk, none)

/-- mirrors `mp_free_compressed`, src/src/cmem_compress.c:424-442 -/
def mpFreeCompressed (p : Pool) (handle : Nat) : Pool × Bool :=
  match p.lookup handle with
  | none => (p, false)
  | some slot => (p.drop slot, true)

/-- mirrors `mp_set_compressed_budget`, src/src/cmem_compress.c:444-454 -/
def mpSetCompressedBudget (p : Pool) (h : Heap) (maxBytes : Nat) (e : Env) : Pool × Heap × Bool :=
  let p := { p with budget := maxBytes }
  if 0 < maxBytes then ensureArea p h e else (p, h, true)

/-! ## Runs -/

/-- The pool, its blocks, and the history: which handles were returned, and the
bytes of those neither freed nor evicted. -/
structure Sys where
  pool : Pool
  heap : Heap
  stored : Nat → Option (List UInt8)
  returned : List Nat

inductive Act where
  | compress (data size : Nat) (e : Env)
  | decompress (handle : Nat) (ans : Option Nat) (junk undoJunk : Buf)
  | freeCompressed (handle : Nat)
  | setBudget (maxBytes : Nat) (e : Env)
  -- what the caller does with its own blocks
  | alloc (size : Nat) (ans : Option Nat) (junk : Buf)
  | free (p : Nat) (junk : Buf)
  | write (i : Nat) (v : UInt8)

/-- The block that `mp_alloc` is asked for the area. -/
def areaWant (budget : Nat) : Nat := if budget = 0 then defaultBudget else budget

def Sys.pre (s : Sys) : Act → Prop
  | .compress data size e =>
    (data = 0 ∨ ∃ b ∈ s.heap.live, s.pool.area ≠ some b.1 ∧ b.1 = data ∧ size ≤ b.2) ∧
      s.heap.Grants (areaWant s.pool.budget) e.area
  | .decompress handle ans _ _ =>
    ∀ slot ∈ s.pool.lookup handle, s.heap.Grants (s.pool.entries slot).originalSize ans
  | .freeCompressed _ => True
  | .setBudget maxBytes e => s.heap.Grants (areaWant maxBytes) e.area
  | .alloc size ans _ => s.heap.Grants size ans
  | .free p _ => ∃ b ∈ s.heap.live, s.pool.area ≠ some b.1 ∧ b.1 = p
  | .write i _ => ∃ b ∈ s.heap.live, s.pool.area ≠ some b.1 ∧ b.1 ≤ i ∧ i < b.1 + b.2

instance decStorePre (s : Sys) : (l : Act) → Decidable (s.pre l)
  | .compress data size e =>
    inferInstanceAs (Decidable
      ((data = 0 ∨ ∃ b ∈ s.heap.live, s.pool.area ≠ some b.1 ∧ b.1 = data ∧ size ≤ b.2) ∧
        s.heap.Grants (areaWant s.pool.budget) e.area))
  | .decompress handle ans _ _ =>
    inferInstanceAs (Decidable
      (∀ slot ∈ s.pool.lookup handle, s.heap.Grants (s.pool.entries slot).originalSize ans))
  | .freeCompressed _ => inferInstanceAs (Decidable True)
  | .setBudget maxBytes e => inferInstanceAs (Decidable (s.heap.Grants (areaWant maxBytes) e.area))
  | .alloc size ans _ => inferInstanceAs (Decidable (s.heap.Grants size ans))
  | .free p _ => inferInstanceAs (Decidable (∃ b ∈ s.heap.live, s.pool.area ≠ some b.1 ∧ b.1 = p))
  | .write i _ =>
    inferInstanceAs (Decidable (∃ b ∈ s.heap.live, s.pool.area ≠ some b.1 ∧ b.1 ≤ i ∧
      i < b.1 + b.2))

def Sys.step (s : Sys) : Act → Sys
  | .compress data size e =>
    let r := mpCompressBlock s.pool s.heap data size e
    { pool := r.pool
      heap := r.heap
      stored := fun k =>
        if r.handle ≠ 0 ∧ k = r.handle then some (slice s.heap.mem data size)
        else if k ∈ r.evicted then none
        else s.stored k
      returned := if r.handle ≠ 0 then r.handle :: s.returned else s.returned }
  | .decompress handle ans junk undoJunk =>
    { s with heap := (mpDecompressBlock s.pool s.heap handle ans junk undoJunk).1 }
  | .freeCompressed handle =>
    let r := mpFreeCompressed s.pool handle
    { s with pool := r.1, stored := if r.2 then Function.update s.stored handle none else s.stored }
  | .setBudget maxBytes e =>
    let r := mpSetCompressedBudget s.pool s.heap maxBytes e
    { s with pool := r.1, heap := r.2.1 }
  | .alloc size ans junk => { s with heap := s.heap.mpAlloc size ans junk }
  | .free p junk => { s with heap := s.heap.mpFree p junk }
  | .write i v => { s with heap := { s.heap with mem := Function.update s.heap.mem i v } }

/-- A pool without a compression area. -/
def Sys.init (mem : Buf) : Sys :=
  ⟨⟨fun _ => ⟨0, 0, 0, 0, 0, false⟩, 0, 0, 0, 0, none, 0⟩, ⟨mem, [], []⟩, fun _ => none, []⟩

def storeSystem : LTS Sys Act := .det (fun s => ∃ mem, s = Sys.init mem) Sys.pre Sys.step

end Cmem.L2.Compress

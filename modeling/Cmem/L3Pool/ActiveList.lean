import Mathlib
import Cmem.Core.Bytes
import Cmem.Core.Links
import Cmem.Core.LTS
import Cmem.L3Pool.BatchFree
import Cmem.L3Pool.SlotLive

/-!
# The active list in memory

`active_list_add` and `active_list_remove` (src/src/cmem_lifecycle.c:478-508), the header that
`mp_aligned_alloc` and `mp_alloc_batch` move while it is linked (src/src/cmem_alloc.c:1651-1677
and 944-971), `mp_isolate_bad_block` (src/src/cmem_guard.c:63-87), and the walks of `mp_ptr_valid`
(src/src/cmem_alloc.c:1836-1861) and `mp_audit_heap` (src/src/cmem_diag.c:43-97), on bytes. The
links of a header lie in the block itself, behind its other fields, and blocks that were freed
keep what stood in theirs.

Which memory a block gets is left to the tiers: a block comes with a step, apart from those in
use. So do all writes of the tiers and of the user, who may change every byte but the magic and
the links of the blocks in use. A block has the size it was last asked for, which is also in its
header as long as no write changes it there.

Results, of a pool without `MP_FLAG_FAST_PATH`:
* `active_list_exact`: whatever the order of the steps, the list is linked both ways, holds the
  headers of the blocks in use and no others, and `mp_ptr_valid` is right about every pointer.
* `isolated`: `mp_isolate_bad_block` takes one block out, and the other pointers stay valid.
* `sizes_recorded`: when the writes leave the sizes too, every header has that of its block.
* `audit_exact`: `mp_audit_heap` finds every magic and every canary that has been written over, and
  no others, as long as the links and the sizes are left.

A pool with the flag keeps no list (`no_list`), and its audit says nothing.
-/
namespace Cmem.L3.ActiveList

open Cmem.L3.Pool (wrap headerSize isPow2 alignUp alignUp_bounds classCount slabPageSize pageHeader)
open Cmem.L3.BatchFree (header magicHead typeSlab)

/-- `CMEM_FREED_MAGIC` -/
def freedMagic : Nat := 0xDEADBEEF

/-- `MP_CANARY_BYTE` -/
def canaryByte : UInt8 := 0xDE

/-- `flags` of the pool -/
structure Flags where
  fastPath : Bool
  canary : Bool

/-- A block in use: its memory is `[lo, hi)`, and `requested` is what it was last asked for. -/
structure Block where
  lo : Nat
  hi : Nat
  header : Nat
  requested : Nat
  pos : 0 < lo
  low : lo ≤ header
  room : header + headerSize ≤ hi
  top : hi < 2 ^ 64
  deriving DecidableEq

namespace Block

/-- The pointer the user has. -/
def ptr (b : Block) : Nat := b.header + headerSize

def Apart (b c : Block) : Prop := b.hi ≤ c.lo ∨ c.hi ≤ b.lo

instance : Std.Symm Apart := ⟨fun _ _ => Or.symm⟩

/-- The block with its header at another place. -/
def moved (b : Block) (new size : Nat) : Block :=
  if h : b.lo ≤ new ∧ new + headerSize ≤ b.hi then
    ⟨b.lo, b.hi, new, size, b.pos, h.1, h.2, b.top⟩
  else b

/-- The block when it is resized in place. -/
def resized (b : Block) (hi size : Nat) : Block :=
  if h : b.header + headerSize ≤ hi ∧ hi < 2 ^ 64 then
    ⟨b.lo, hi, b.header, size, b.pos, b.low, h.1, h.2⟩
  else b

end Block

structure Pool where
  mem : Bytes
  activeHead : Nat
  live : List Block

namespace Pool

/-! ## The code -/

/-- `header->magic` -/
def magic (s : Pool) (h : Nat) : Nat := s.mem.le h 4

/-- `header->prev` -/
def prev (s : Pool) (h : Nat) : Nat := s.mem.le (h + 136) 8

/-- `header->requested_size` -/
def sizeOf (s : Pool) (h : Nat) : Nat := s.mem.le (h + 8) 8

/-- `header->next` -/
def next (s : Pool) (h : Nat) : Nat := s.mem.le (h + 144) 8

def setPrev (s : Pool) (h v : Nat) : Pool := { s with mem := s.mem.store (h + 136) 8 v }

def setNext (s : Pool) (h v : Nat) : Pool := { s with mem := s.mem.store (h + 144) 8 v }

/-- mirrors `active_list_add`, src/src/cmem_lifecycle.c:478-486 -/
def activeListAdd (s : Pool) (h : Nat) : Pool :=
  let s := (s.setNext h s.activeHead).setPrev h 0
  let s := if s.activeHead ≠ 0 then s.setPrev s.activeHead h else s
  { s with activeHead := h }

/-- mirrors `active_list_remove`, src/src/cmem_lifecycle.c:493-508 -/
def activeListRemove (s : Pool) (h : Nat) : Pool :=
  if h = 0 then s
  else
    let s :=
      if s.prev h ≠ 0 then s.setNext (s.prev h) (s.next h) else { s with activeHead := s.next h }
    let s := if s.next h ≠ 0 then s.setPrev (s.next h) (s.prev h) else s
    (s.setPrev h 0).setNext h 0

/-- Where an aligned header goes. -/
def alignedHeader (h alignment : Nat) : Nat :=
  wrap (alignUp (h + headerSize) alignment + 2 ^ 64 - headerSize)

/-- `*new_header = *orig_header; new_header->requested_size = size;` -/
def copyHeader (s : Pool) (h new size : Nat) : Pool :=
  { s with mem := (s.mem.copy new h headerSize).store (new + 8) 8 size }

/-- The header moves to its aligned place, src/src/cmem_alloc.c:1651-1677 and 944-966. -/
def moveHeader (s : Pool) (h alignment size : Nat) : Pool :=
  let new := alignedHeader h alignment
  if new ≠ h then
    let s := s.copyHeader h new size
    let s := if s.prev h ≠ 0 then s.setNext (s.prev h) new
      else if s.activeHead = h then { s with activeHead := new } else s
    if s.next h ≠ 0 then s.setPrev (s.next h) new else s
  else { s with mem := s.mem.store (new + 8) 8 size }

/-- The walk for a header, `while (curr) { if (curr == header) ... curr = curr->next; }`. -/
def walk (s : Pool) (h : Nat) : Nat → Nat → Option Bool
  | 0, curr => if curr = 0 then some false else none
  | n + 1, curr =>
    if curr = 0 then some false else if curr = h then some true else walk s h n (s.next curr)

/-- `(mp_block_header_t *)((uint8_t *)ptr - sizeof(mp_block_header_t))` -/
def headerOf (p : Nat) : Nat := wrap (p + 2 ^ 64 - headerSize)

/-- mirrors `mp_fastpath_slot_live`, src/src/cmem_alloc.c:1731-1769, with the fields of a page where
`mp_slab_page_t` has them -/
def mpFastpathSlotLive (s : Pool) (p : Nat) : Bool :=
  let h := header s.mem p
  let page := p / slabPageSize * slabPageSize
  let totalSlots := s.mem.le (page + 16) 2
  let freeCount := s.mem.le (page + 8) 8
  if h.allocType ≠ typeSlab then h.rawBase ≠ 0
  else if classCount ≤ h.slabClass ∨ h.rawBase ≠ headerOf p then false
  else if p - page ≤ pageHeader then false
  else if s.mem.le page 1 ≠ h.slabClass ∨ totalSlots = 0 then false
  else if totalSlots < freeCount then false
  else !SlotLive.World.walk s.mem (headerOf p) (s.mem.le (page + 24) 8) freeCount

/-- mirrors `mp_ptr_valid`, src/src/cmem_alloc.c:1836-1861 -/
def mpPtrValid (f : Flags) (n p : Nat) (s : Pool) : Option Bool :=
  if p = 0 then some false
  else if s.magic (headerOf p) ≠ magicHead then some false
  else if f.fastPath then some (s.mpFastpathSlotLive p)
  else s.walk (headerOf p) n s.activeHead

/-- mirrors `mp_isolate_bad_block`, src/src/cmem_guard.c:63-87 -/
def mpIsolateBadBlock (f : Flags) (s : Pool) (p : Nat) : Pool × Bool :=
  if p = 0 then (s, false)
  else if f.fastPath ∨ s.magic (headerOf p) ≠ magicHead then (s, false)
  else
    let s := s.activeListRemove (headerOf p)
    ({ s with mem := s.mem.store (headerOf p) 4 freedMagic }, true)

/-- `healthy` behind the two checks of a block, src/src/cmem_diag.c:60-84. -/
def auditBlock (s : Pool) (f : Flags) (curr : Nat) (healthy : Bool) : Bool :=
  let payload := wrap (curr + headerSize)
  let healthy := if s.magic curr ≠ magicHead then false else healthy
  if f.canary then
    if s.mem (wrap (payload + s.sizeOf curr)) ≠ canaryByte then false else healthy
  else healthy

/-- The loop of `mp_audit_heap`. -/
def auditLoop (s : Pool) (f : Flags) : Nat → Nat → Bool → Option Bool
  | 0, curr, healthy => if curr = 0 then some healthy else none
  | n + 1, curr, healthy =>
    if curr = 0 then some healthy else auditLoop s f n (s.next curr) (s.auditBlock f curr healthy)

/-- mirrors `mp_audit_heap`, src/src/cmem_diag.c:43-97 -/
def mpAuditHeap (f : Flags) (n : Nat) (s : Pool) : Option Bool :=
  if f.fastPath then some true else s.auditLoop f n s.activeHead true

/-! ## The system -/

/-- A block is taken or given back, with the memory as the tier has left it before the list is
changed; a header is aligned; a block is resized in place; the user or a tier writes. -/
inductive Act where
  | alloc (b : Block) (m : Bytes)
  | align (b : Block) (alignment size : Nat)
  | resize (b : Block) (hi size : Nat) (m : Bytes)
  | free (b : Block) (m : Bytes)
  | isolate (p : Nat)
  | reset
  | write (m : Bytes)

/-- `m` has the magic of the header at `h` still. -/
def KeepsMagic (s : Pool) (m : Bytes) (h : Nat) : Prop := ∀ j < 4, m (h + j) = s.mem (h + j)

/-- `m` has the size in the header at `h` still. -/
def KeepsSize (s : Pool) (m : Bytes) (h : Nat) : Prop := ∀ j < 8, m (h + 8 + j) = s.mem (h + 8 + j)

/-- `m` has the links of the header at `h` still. -/
def KeepsLinks (s : Pool) (m : Bytes) (h : Nat) : Prop :=
  ∀ j < 16, m (h + 136 + j) = s.mem (h + 136 + j)

/-- `if (!(pool->flags & MP_FLAG_FAST_PATH))` around the two calls. -/
def enlist (f : Flags) (s : Pool) (h : Nat) : Pool := if f.fastPath then s else s.activeListAdd h

def delist (f : Flags) (s : Pool) (h : Nat) : Pool := if f.fastPath then s else s.activeListRemove h

/-- `b` has become `c`. -/
def change (bs : List Block) (b c : Block) : List Block := bs.map fun x => if x = b then c else x

def step (f : Flags) (s : Pool) : Act → Pool
  | .alloc b m => { ({ s with mem := m }).enlist f b.header with live := b :: s.live }
  | .align b alignment size =>
    { s.moveHeader b.header alignment size with
      live := change s.live b (b.moved (alignedHeader b.header alignment) size) }
  | .resize b hi size m => { s with mem := m, live := change s.live b (b.resized hi size) }
  | .free b m => { ({ s with mem := m }).delist f b.header with live := s.live.erase b }
  | .isolate p =>
    { (s.mpIsolateBadBlock f p).1 with
      live := if (s.mpIsolateBadBlock f p).2 then s.live.filter (·.ptr ≠ p) else s.live }
  | .reset => { s with activeHead := 0, live := [] }
  | .write m => { s with mem := m }

/-- A new block is apart from those in use, and so is one that grows in place; both have their size
in the header. A block that is aligned was asked for with the alignment and a header more, and this
sum is below its end; each block is freed once; only blocks in use are isolated. -/
def pre (s : Pool) : Act → Prop
  | .alloc b m =>
    (∀ c ∈ s.live, b.Apart c) ∧
    (m.le b.header 4 = magicHead ∧ m.le (b.header + 8) 8 = b.requested) ∧
      ∀ c ∈ s.live, s.KeepsMagic m c.header ∧ s.KeepsLinks m c.header
  | .align b alignment size => b ∈ s.live ∧ (isPow2 alignment = true ∧ 8 ≤ alignment) ∧
      b.ptr + (size + alignment + headerSize) ≤ b.hi
  | .resize b hi size m => b ∈ s.live ∧ (b.header + headerSize ≤ hi ∧ hi < 2 ^ 64) ∧
      (∀ c ∈ s.live, c ≠ b → (b.resized hi size).Apart c) ∧ m.le (b.header + 8) 8 = size ∧
      ∀ c ∈ s.live, s.KeepsMagic m c.header ∧ s.KeepsLinks m c.header
  | .free b m =>
    b ∈ s.live ∧ ∀ c ∈ s.live, (c ≠ b → s.KeepsMagic m c.header) ∧ s.KeepsLinks m c.header
  | .isolate p => p < 2 ^ 64 ∧ (p = 0 ∨ s.magic (headerOf p) ≠ magicHead ∨ ∃ b ∈ s.live, p = b.ptr)
  | .reset => True
  | .write m => ∀ c ∈ s.live, s.KeepsMagic m c.header ∧ s.KeepsLinks m c.header

def system (f : Flags) : LTS Pool Act := .det (fun s => s.activeHead = 0 ∧ s.live = []) pre (step f)

/-- The writes of a step leave the sizes of the blocks in use. -/
def Spares (s : Pool) : Act → Prop
  | .alloc _ m | .write m => ∀ c ∈ s.live, s.KeepsSize m c.header
  | .resize b _ _ m | .free b m => ∀ c ∈ s.live, c ≠ b → s.KeepsSize m c.header
  | .align _ _ _ | .isolate _ | .reset => True

end Pool

open Cmem.L3.ActiveList.Pool (headerOf alignedHeader)

/-! ## What the code does to the list -/

/-- The list as the links of the headers have it. -/
def Pool.view (s : Pool) : DL Nat := ⟨s.next, s.prev, s.activeHead⟩

/-- The headers of `l` lie apart, in front of the end of memory. -/
structure Spread (l : List Nat) : Prop where
  apart : ∀ x ∈ l, ∀ y ∈ l, x = y ∨ Bytes.Apart x headerSize y headerSize
  top : ∀ x ∈ l, x < 2 ^ 64

/-- The memory shows the links `D` at the headers of `l`, and differs from `m` in links of `l`
only. -/
structure Shows (m : Bytes) (l : List Nat) (D : DL Nat) (s : Pool) : Prop where
  head : s.activeHead = D.head
  next : ∀ x ∈ l, s.next x = D.next x
  prev : ∀ x ∈ l, s.prev x = D.prev x
  rest : ∀ i, (∀ x ∈ l, i < x + 136 ∨ x + 152 ≤ i) → s.mem i = m i

section Shows
variable {s : Pool} {m : Bytes} {D : DL Nat} {l xs ys : List Nat} {a h v o k : Nat}

theorem Shows.refl (s : Pool) (l : List Nat) : Shows s.mem l s.view s :=
  ⟨rfl, fun _ _ => rfl, fun _ _ => rfl, fun _ _ => rfl⟩

theorem next_lt (s : Pool) (h : Nat) : s.next h < 2 ^ 64 := Bytes.le_lt s.mem (h + 144) 8

theorem prev_lt (s : Pool) (h : Nat) : s.prev h < 2 ^ 64 := Bytes.le_lt s.mem (h + 136) 8

theorem Shows.setNext (hs : Shows m l D s) (hl : Spread l) (ha : a ∈ l) (hv : v < 2 ^ 64) :
    Shows m l { D with next := Function.update D.next a v } (s.setNext a v) := by
  refine ⟨hs.head, fun x hx => ?_, fun x hx => ?_, fun i hi => ?_⟩
  · show (s.setNext a v).next x = Function.update D.next a v x
    by_cases he : x = a
    · rw [he, Function.update_self]
      exact Bytes.le_store hv
    · rw [Function.update_of_ne he, ← hs.next x hx]
      refine Bytes.le_store_apart ?_
      have := (hl.apart a ha x hx).resolve_left (Ne.symm he)
      simp only [Bytes.Apart, headerSize] at this ⊢
      omega
  · rw [← hs.prev x hx]
    refine Bytes.le_store_apart ?_
    have := hl.apart a ha x hx
    simp only [Bytes.Apart, headerSize] at this ⊢
    omega
  · rw [← hs.rest i hi]
    exact Bytes.store_apart (by have := hi a ha; simp only [Bytes.Apart]; omega)

theorem Shows.setPrev (hs : Shows m l D s) (hl : Spread l) (ha : a ∈ l) (hv : v < 2 ^ 64) :
    Shows m l { D with prev := Function.update D.prev a v } (s.setPrev a v) := by
  refine ⟨hs.head, fun x hx => ?_, fun x hx => ?_, fun i hi => ?_⟩
  · rw [← hs.next x hx]
    refine Bytes.le_store_apart ?_
    have := hl.apart a ha x hx
    simp only [Bytes.Apart, headerSize] at this ⊢
    omega
  · show (s.setPrev a v).prev x = Function.update D.prev a v x
    by_cases he : x = a
    · rw [he, Function.update_self]
      exact Bytes.le_store hv
    · rw [Function.update_of_ne he, ← hs.prev x hx]
      refine Bytes.le_store_apart ?_
      have := (hl.apart a ha x hx).resolve_left (Ne.symm he)
      simp only [Bytes.Apart, headerSize] at this ⊢
      omega
  · rw [← hs.rest i hi]
    exact Bytes.store_apart (by have := hi a ha; simp only [Bytes.Apart]; omega)

theorem Shows.setHead (hs : Shows m l D s) (v : Nat) :
    Shows m l { D with head := v } { s with activeHead := v } :=
  ⟨rfl, hs.next, hs.prev, hs.rest⟩

/-- The neighbours of a listed header are listed. -/
theorem neighbours (h : D.Is (xs ++ a :: ys)) :
    (D.prev a ≠ 0 → D.prev a ∈ xs) ∧ (D.next a ≠ 0 → D.next a ∈ ys) := by
  obtain ⟨t, hs⟩ := h
  obtain ⟨h', t', hx, rfl, -, hp, hy⟩ := Seg.append_iff.mp hs
  constructor
  · intro h0
    rcases hx.last_eq_or_mem with ⟨-, e, -⟩ | hm
    · exact absurd (hp.trans e) h0
    · rwa [hp]
  · intro h0
    rcases hy.head_eq_or_mem with ⟨-, -, e⟩ | hm
    · exact absurd e h0
    · exact hm

/-- A header is linked in front. -/
theorem Shows.add (hs : Shows m (h :: l) D s) (hl : Spread (h :: l)) (hD : D.Is l) :
    Shows m (h :: l) (D.push h) (s.activeListAdd h) := by
  have hmem : h ∈ h :: l := List.mem_cons_self
  have hhead : D.head ≠ 0 → D.head ∈ h :: l := fun h0 => by
    obtain ⟨t, rfl, -⟩ := hD.chain.exists_cons h0
    exact List.mem_cons_of_mem _ List.mem_cons_self
  have hlt : s.activeHead < 2 ^ 64 := by
    rw [hs.head]
    by_cases h0 : D.head = 0
    · rw [h0]
      decide
    · exact hl.top _ (hhead h0)
  have hlinks := (hs.setNext hl hmem hlt).setPrev hl hmem (v := 0) (by decide)
  rw [hs.head] at hlinks
  unfold Pool.activeListAdd DL.push
  rw [hs.head]
  have hsame : ((s.setNext h D.head).setPrev h 0).activeHead = D.head := hs.head
  dsimp only
  rw [hsame]
  split
  · rename_i h0
    exact (hlinks.setPrev hl (hhead h0) (hl.top h hmem)).setHead h
  · exact hlinks.setHead h

/-- A header is taken out; its own links become null. -/
theorem Shows.remove (hs : Shows m l D s) (hl : Spread l) (hD : D.Is (xs ++ a :: ys))
    (hsub : xs ++ a :: ys ⊆ l) : ∃ D', D'.Is (xs ++ ys) ∧ Shows m l D' (s.activeListRemove a) := by
  have ha : a ∈ l := hsub (List.mem_append_right _ List.mem_cons_self)
  have h0 : a ≠ 0 := fun e => hD.zero_notMem (e ▸ List.mem_append_right _ List.mem_cons_self)
  obtain ⟨hprev, hnext⟩ := neighbours hD
  have hprev' : D.prev a ≠ 0 → D.prev a ∈ l := fun h => hsub (List.mem_append_left _ (hprev h))
  have hnext' : D.next a ≠ 0 → D.next a ∈ l := fun h =>
    hsub (List.mem_append_right _ (List.mem_cons_of_mem _ (hnext h)))
  have hnot : a ∉ xs ++ ys := (List.nodup_middle.mp hD.nodup).notMem
  refine ⟨⟨Function.update (D.unlink a).next a 0, Function.update (D.unlink a).prev a 0,
    (D.unlink a).head⟩, hD.unlink.congr rfl fun x hx => ?_, ?_⟩
  · have hx := ne_of_mem_of_not_mem hx hnot
    exact ⟨Function.update_of_ne hx _ _, Function.update_of_ne hx _ _⟩
  -- the first write, past the header
  obtain ⟨s₁, D₁, hs₁, hD₁, hshow₁⟩ : ∃ s₁ D₁,
      s₁ =
        (if s.prev a ≠ 0 then s.setNext (s.prev a) (s.next a)
          else { s with activeHead := s.next a }) ∧
      D₁ = (if D.prev a ≠ 0 then { D with next := Function.update D.next (D.prev a) (D.next a) }
        else { D with head := D.next a }) ∧ Shows m l D₁ s₁ := by
    refine ⟨_, _, rfl, rfl, ?_⟩
    have hlt := next_lt s a
    rw [hs.next a ha] at hlt
    rw [hs.prev a ha, hs.next a ha]
    split
    · rename_i hp
      exact hs.setNext hl (hprev' hp) hlt
    · exact hs.setHead _
  -- the second one, back past it
  obtain ⟨s₂, D₂, hs₂, hD₂, hshow₂⟩ : ∃ s₂ D₂,
      s₂ = (if s₁.next a ≠ 0 then s₁.setPrev (s₁.next a) (s₁.prev a) else s₁) ∧
      D₂ =
        (if D₁.next a ≠ 0 then { D₁ with prev := Function.update D₁.prev (D₁.next a) (D₁.prev a) }
          else D₁) ∧
      Shows m l D₂ s₂ := by
    refine ⟨_, _, rfl, rfl, ?_⟩
    have hlt := prev_lt s₁ a
    have hn : D₁.next a ≠ 0 → D₁.next a ∈ l := fun h => by
      have hself : D₁.next a = D.next a := by
        rw [hD₁]
        split
        · by_cases he : a = D.prev a
          · rw [← he]
            exact Function.update_self ..
          · exact Function.update_of_ne he _ _
        · rfl
      rw [hself] at h ⊢
      exact hnext' h
    rw [hshow₁.prev a ha] at hlt
    rw [hshow₁.next a ha, hshow₁.prev a ha]
    split
    · rename_i h
      exact hshow₁.setPrev hl (hn h) hlt
    · exact hshow₁
  have hun : D.unlink a = D₂ := by
    rw [hD₂, hD₁]
    rfl
  have hrem : s.activeListRemove a = (s₂.setPrev a 0).setNext a 0 := by
    unfold Pool.activeListRemove
    rw [if_neg h0, hs₂, hs₁]
  rw [hrem, hun]
  exact (hshow₂.setPrev hl ha (by decide)).setNext hl ha (by decide)

/-- The first header has no other in front of it. -/
theorem head_of_prev (h : D.Is (xs ++ a :: ys)) (h0 : D.prev a = 0) : D.head = a := by
  have hz := h.zero_notMem
  obtain ⟨t, hs⟩ := h
  obtain ⟨h', t', hx, rfl, -, hp, -⟩ := Seg.append_iff.mp hs
  rcases hx.last_eq_or_mem with ⟨-, -, e⟩ | hm
  · exact e
  · rw [← hp, h0] at hm
    exact absurd (List.mem_append_left _ hm) hz

/-- A header is moved; the copy has its links. -/
theorem Shows.move {new : Nat} (hs : Shows m (new :: l) D s) (hl : Spread (new :: l)) (hD : D.Is l)
    (he : l = xs ++ a :: ys) (hn : D.next new = D.next a) (hp : D.prev new = D.prev a) :
    Shows m (new :: l) (D.link new (D.prev a) (D.next a))
      (let s := if s.prev a ≠ 0 then s.setNext (s.prev a) new
          else if s.activeHead = a then { s with activeHead := new } else s
        if s.next a ≠ 0 then s.setPrev (s.next a) new else s) := by
  subst he
  have ha : a ∈ new :: (xs ++ a :: ys) :=
    List.mem_cons_of_mem _ (List.mem_append_right _ List.mem_cons_self)
  have hnew := hl.top new List.mem_cons_self
  obtain ⟨hprev, hnext⟩ := neighbours hD
  have hprev' : D.prev a ≠ 0 → D.prev a ∈ new :: (xs ++ a :: ys) := fun h =>
    List.mem_cons_of_mem _ (List.mem_append_left _ (hprev h))
  have hnext' : D.next a ≠ 0 → D.next a ∈ new :: (xs ++ a :: ys) := fun h =>
    List.mem_cons_of_mem _ (List.mem_append_right _ (List.mem_cons_of_mem _ (hnext h)))
  have hself : Function.update D.next new (D.next a) = D.next ∧
    Function.update D.prev new (D.prev a) = D.prev :=
    ⟨by rw [← hn, Function.update_eq_self], by rw [← hp, Function.update_eq_self]⟩
  -- the write past the header, or the new head
  obtain ⟨s₁, D₁, hs₁, hD₁, hshow₁⟩ : ∃ s₁ D₁,
      s₁ = (if s.prev a ≠ 0 then s.setNext (s.prev a) new
        else if s.activeHead = a then { s with activeHead := new } else s) ∧
      D₁ =
        (if D.prev a ≠ 0 then { D with next := Function.update D.next (D.prev a) new }
          else { D with head := new }) ∧
      Shows m (new :: (xs ++ a :: ys)) D₁ s₁ := by
    refine ⟨_, _, rfl, rfl, ?_⟩
    rw [hs.prev a ha]
    split
    · rename_i h
      exact hs.setNext hl (hprev' h) hnew
    · rename_i h
      rw [if_pos (hs.head.trans (head_of_prev hD (not_not.mp h)))]
      exact hs.setHead new
  have hnext₁ : D₁.next a = D.next a := by
    rw [hD₁]
    split
    · rename_i h
      refine Function.update_of_ne (fun e => ?_) _ _
      have hnd := (List.nodup_middle.mp hD.nodup).notMem
      exact hnd (List.mem_append_left _ (e ▸ hprev h))
    · rfl
  have hlink : D.link new (D.prev a) (D.next a) =
      if D₁.next a ≠ 0 then { D₁ with prev := Function.update D₁.prev (D₁.next a) new }
      else D₁ := by
    unfold DL.link
    rw [hself.1, hself.2, hnext₁, hD₁]
  rw [hlink]
  dsimp only
  rw [← hs₁, hshow₁.next a ha]
  split
  · rename_i h
    exact hshow₁.setPrev hl (hnext₁ ▸ hnext' (hnext₁ ▸ h)) hnew
  · exact hshow₁

/-- The fields in front of the links are not written. -/
theorem Shows.field (hs : Shows m l D s) (hl : Spread l) (ha : a ∈ l) (hok : o + k ≤ 136) :
    s.mem.le (a + o) k = m.le (a + o) k := by
  refine Bytes.le_congr fun i h1 h2 => hs.rest i fun x hx => ?_
  have := hl.apart a ha x hx
  simp only [Bytes.Apart, headerSize] at this
  omega

theorem Shows.is (hs : Shows m l D s) (hD : D.Is xs) (hsub : xs ⊆ l) : s.view.Is xs :=
  hD.congr hs.head fun x hx => ⟨hs.next x (hsub hx), hs.prev x (hsub hx)⟩

end Shows

/-! ## The invariant -/

structure Inv (s : Pool) : Prop where
  links : s.view.Is (s.live.map (·.header))
  magic : ∀ b ∈ s.live, s.magic b.header = magicHead
  apart : s.live.Pairwise Block.Apart

/-- Every header has the size of its block. -/
def Sized (s : Pool) : Prop := ∀ b ∈ s.live, s.sizeOf b.header = b.requested

/-- The list is that of the blocks, and in front of the links their headers are as in `m`. -/
structure Relinked (m : Bytes) (s : Pool) : Prop where
  apart : s.live.Pairwise Block.Apart
  links : s.view.Is (s.live.map (·.header))
  field : ∀ b ∈ s.live, ∀ o k, o + k ≤ 136 → s.mem.le (b.header + o) k = m.le (b.header + o) k

section Without
variable {α : Type} {b c : α} {l₁ l₂ : List α}

theorem mem_with (hc : c ∈ l₁ ++ l₂) : c ∈ l₁ ++ b :: l₂ :=
  (List.Sublist.append_left (List.sublist_cons_self b l₂) l₁).subset hc

theorem mem_without (hc : c ∈ l₁ ++ b :: l₂) (hne : c ≠ b) : c ∈ l₁ ++ l₂ := by
  rcases List.mem_append.mp hc with h1 | h2
  · exact List.mem_append_left _ h1
  · exact List.mem_append_right _ ((List.mem_cons.mp h2).resolve_left hne)

end Without

section Steps
variable {f : Flags} {s s' : Pool} {b c : Block} {bs l₁ l₂ : List Block} {m : Bytes}
  {p n alignment size new hi h o k x : Nat}

theorem Relinked.inv (h : Relinked m s)
    (hm : ∀ b ∈ s.live, m.le b.header 4 = magicHead) : Inv s where
  links := h.links
  magic b hb := by
    have hfield := h.field b hb 0 4 (by decide)
    rw [Nat.add_zero] at hfield
    exact hfield.trans (hm b hb)
  apart := h.apart

theorem Relinked.sized (h : Relinked m s)
    (hm : ∀ b ∈ s.live, m.le (b.header + 8) 8 = b.requested) : Sized s :=
  fun b hb => (h.field b hb 8 8 (by decide)).trans (hm b hb)

theorem Block.header_pos (b : Block) : b.header ≠ 0 := by
  have := b.pos
  have := b.low
  omega

/-- The headers of two blocks that are apart. -/
theorem headers_apart (h : b.Apart c) : Bytes.Apart b.header headerSize c.header headerSize := by
  have := b.low
  have := b.room
  have := c.low
  have := c.room
  unfold Block.Apart at h
  unfold Bytes.Apart
  omega

theorem spread (h : bs.Pairwise Block.Apart) : Spread (bs.map (·.header)) where
  apart x hx y hy := by
    obtain ⟨b, hb, rfl⟩ := List.mem_map.mp hx
    obtain ⟨c, hc, rfl⟩ := List.mem_map.mp hy
    by_cases he : b = c
    · exact .inl (congrArg _ he)
    · exact .inr (headers_apart (h.forall hb hc he))
  top x hx := by
    obtain ⟨b, -, rfl⟩ := List.mem_map.mp hx
    have := b.room
    have := b.top
    omega

theorem nodup (h : bs.Pairwise Block.Apart) : bs.Nodup := h.imp fun {x y} hxy => by
  rintro rfl
  have := x.low
  have := x.room
  unfold Block.Apart at hxy
  simp only [headerSize] at this
  omega

theorem Pool.KeepsLinks.same (h : s.KeepsLinks m p) :
    ({ s with mem := m } : Pool).next p = s.next p ∧
    ({ s with mem := m } : Pool).prev p = s.prev p := by
  constructor
  · refine Bytes.le_congr fun i h1 h2 => ?_
    have := h (i - (p + 136)) (by omega)
    rwa [Nat.add_sub_cancel' (by omega)] at this
  · refine Bytes.le_congr fun i h1 h2 => ?_
    have := h (i - (p + 136)) (by omega)
    rwa [Nat.add_sub_cancel' (by omega)] at this

theorem Pool.KeepsMagic.same (h : s.KeepsMagic m p) : m.le p 4 = s.magic p := by
  refine Bytes.le_congr fun i h1 h2 => ?_
  have := h (i - p) (by omega)
  rwa [Nat.add_sub_cancel' (by omega)] at this

theorem Pool.KeepsSize.same (h : s.KeepsSize m p) : m.le (p + 8) 8 = s.sizeOf p := by
  refine Bytes.le_congr fun i h1 h2 => ?_
  have := h (i - (p + 8)) (by omega)
  rwa [Nat.add_sub_cancel' (by omega)] at this

/-- The list does not see what is written elsewhere. -/
theorem links_write (h : Inv s) (hm : ∀ c ∈ s.live, s.KeepsLinks m c.header) :
    ({ s with mem := m } : Pool).view.Is (s.live.map (·.header)) := by
  refine h.links.congr rfl fun x hx => ?_
  obtain ⟨c, hc, rfl⟩ := List.mem_map.mp hx
  exact (hm c hc).same

theorem write_relinked (h : Inv s) (hm : ∀ c ∈ s.live, s.KeepsLinks m c.header) :
    Relinked m { s with mem := m } :=
  ⟨h.apart, links_write h hm, fun _ _ _ _ _ => rfl⟩

theorem alloc_relinked (hf : f.fastPath = false) (h : Inv s) (hp : s.pre (.alloc b m)) :
    Relinked m (s.step f (.alloc b m)) := by
  obtain ⟨hb, -, hm⟩ := hp
  have hpair : (b :: s.live).Pairwise Block.Apart := List.pairwise_cons.mpr ⟨hb, h.apart⟩
  have hl : Spread (b.header :: s.live.map (·.header)) := spread hpair
  have hD := links_write h fun c hc => (hm c hc).2
  have hs := (Shows.refl { s with mem := m } (b.header :: s.live.map (·.header))).add hl hD
  have hnot : b.header ∉ s.live.map (·.header) := fun hx => by
    obtain ⟨c, hc, he⟩ := List.mem_map.mp hx
    have := headers_apart (hb c hc)
    simp only [Bytes.Apart, headerSize] at this
    omega
  have hlist :
    ({ s with mem := m } : Pool).enlist f b.header =
      ({ s with mem := m } : Pool).activeListAdd b.header :=
    if_neg (ne_true_of_eq_false hf)
  show Relinked m { ({ s with mem := m } : Pool).enlist f b.header with live := b :: s.live }
  rw [hlist]
  exact ⟨hpair, hs.is (hD.push b.header_pos hnot) (List.Subset.refl _),
    fun c hc _ _ hok => hs.field hl (List.mem_map_of_mem hc) hok⟩

theorem mem_alloc (hp : s.pre (.alloc b m)) (hc : c ∈ b :: s.live) :
    c ∈ s.live ∨ (m.le c.header 4 = magicHead ∧ m.le (c.header + 8) 8 = c.requested) := by
  rcases List.mem_cons.mp hc with rfl | hc
  · exact .inr hp.2.1
  · exact .inl hc

/-- A block leaves the list. -/
theorem leave_relinked (h : Inv s) (he : s.live = l₁ ++ b :: l₂)
    (hm : ∀ c ∈ s.live, s.KeepsLinks m c.header) :
    Relinked m { ({ s with mem := m } : Pool).activeListRemove b.header with
      live := l₁ ++ l₂ } := by
  have hl := spread h.apart
  have hD := links_write h hm
  have hmap : s.live.map (·.header) = l₁.map (·.header) ++ b.header :: l₂.map (·.header) := by
    rw [he, List.map_append, List.map_cons]
  have hsub : ∀ c ∈ l₁ ++ l₂, c ∈ s.live := fun c hc => by
    rw [he]
    exact mem_with hc
  rw [hmap] at hD
  obtain ⟨D, hIs, hs⟩ := (Shows.refl { s with mem := m } (s.live.map (·.header))).remove hl hD
    (by rw [hmap]; exact List.Subset.refl _)
  have hlinks := hs.is hIs (by rw [← List.map_append]; exact List.map_subset _ hsub)
  rw [← List.map_append] at hlinks
  have hpair := h.apart
  rw [he] at hpair
  exact ⟨hpair.sublist (List.Sublist.append_left (List.sublist_cons_self b l₂) l₁), hlinks,
    fun c hc _ _ hok => hs.field hl (List.mem_map_of_mem (hsub c hc)) hok⟩

/-- A block that is left is in use, and another one. -/
theorem mem_leave (h : Inv s) (he : s.live = l₁ ++ b :: l₂) (hc : c ∈ l₁ ++ l₂) :
    c ∈ s.live ∧ c ≠ b := by
  refine ⟨he ▸ mem_with hc, ?_⟩
  rintro rfl
  exact (List.nodup_middle.mp (he ▸ nodup h.apart)).notMem hc

theorem free_relinked (hf : f.fastPath = false) (h : Inv s) (hp : s.pre (.free b m)) :
    Relinked m (s.step f (.free b m)) ∧ ∀ c ∈ (s.step f (.free b m)).live, c ∈ s.live ∧ c ≠ b := by
  obtain ⟨hb, hm⟩ := hp
  obtain ⟨l₁, l₂, -, he, herase⟩ := List.exists_erase_eq hb
  have hlist :
    ({ s with mem := m } : Pool).delist f b.header =
      ({ s with mem := m } : Pool).activeListRemove b.header :=
    if_neg (ne_true_of_eq_false hf)
  have hstep : s.step f (.free b m) =
      { ({ s with mem := m } : Pool).activeListRemove b.header with live := l₁ ++ l₂ } := by
    show ({ ({ s with mem := m } : Pool).delist f b.header with live := s.live.erase b } : Pool) = _
    rw [hlist, herase]
  rw [hstep]
  exact ⟨leave_relinked h he fun c hc => (hm c hc).2, fun c hc => mem_leave h he hc⟩

theorem headerOf_ptr (b : Block) : headerOf b.ptr = b.header := by
  have := b.room
  have := b.top
  unfold headerOf Block.ptr wrap
  simp only [headerSize] at *
  omega

theorem ptr_of_headerOf (hp : p < 2 ^ 64) (h : headerOf p = b.header) : p = b.ptr := by
  have := b.room
  have := b.top
  unfold headerOf wrap at h
  unfold Block.ptr
  simp only [headerSize] at *
  omega

/-- A block out of the list of blocks that are apart. -/
theorem filter_ptr (h : (l₁ ++ b :: l₂).Pairwise Block.Apart) :
    (l₁ ++ b :: l₂).filter (·.ptr ≠ b.ptr) = l₁ ++ l₂ := by
  have hne : ∀ c ∈ l₁ ++ l₂, c.ptr ≠ b.ptr := fun c hc he => by
    have hcb : c ≠ b := ne_of_mem_of_not_mem hc (List.nodup_middle.mp (nodup h)).notMem
    have := headers_apart (h.forall (mem_with hc) (List.mem_append_right _ List.mem_cons_self) hcb)
    unfold Block.ptr at he
    simp only [Bytes.Apart, headerSize] at this he
    omega
  rw [List.filter_append, List.filter_cons_of_neg (by simp), ← List.filter_append]
  exact List.filter_eq_self.mpr fun c hc => decide_eq_true (hne c hc)

/-- The mark of a freed header is seen in no block in use. -/
theorem Relinked.mark (h : Relinked m s) {a v : Nat}
    (ha : ∀ c ∈ s.live, Bytes.Apart a headerSize c.header headerSize) :
    Relinked m { s with mem := s.mem.store a 4 v } where
  apart := h.apart
  links := h.links.congr rfl fun x hx => by
    obtain ⟨c, hc, rfl⟩ := List.mem_map.mp hx
    have := ha c hc
    simp only [Bytes.Apart, headerSize] at this
    constructor <;> exact Bytes.le_store_apart (by unfold Bytes.Apart; omega)
  field c hc o k hok := by
    have := ha c hc
    simp only [Bytes.Apart, headerSize] at this
    exact (Bytes.le_store_apart (by unfold Bytes.Apart; omega)).trans (h.field c hc o k hok)

theorem Block.ptr_ne_zero (b : Block) : b.ptr ≠ 0 := by
  have := b.header_pos
  unfold Block.ptr
  omega

/-- What `mp_isolate_bad_block` does with a pointer that is no block's. -/
theorem isolate_none (hp : s.pre (.isolate p)) (hb : ¬∃ b ∈ s.live, p = b.ptr) :
    s.mpIsolateBadBlock f p = (s, false) := by
  unfold Pool.mpIsolateBadBlock
  split
  · rfl
  · rename_i h0
    exact if_pos (.inr ((hp.2.resolve_left h0).resolve_right hb))

theorem isolate_block (hf : f.fastPath = false) (h : Inv s) (hb : b ∈ s.live) :
    s.mpIsolateBadBlock f b.ptr =
      ({ s.activeListRemove b.header with
        mem := (s.activeListRemove b.header).mem.store b.header 4 freedMagic }, true) := by
  unfold Pool.mpIsolateBadBlock
  rw [headerOf_ptr, if_neg b.ptr_ne_zero, if_neg]
  rintro (hfast | hmagic)
  · exact Bool.false_ne_true (hf.symm.trans hfast)
  · exact hmagic (h.magic b hb)

theorem isolate_relinked (hf : f.fastPath = false) (h : Inv s) (hp : s.pre (.isolate p)) :
    Relinked s.mem (s.step f (.isolate p)) ∧ ∀ c ∈ (s.step f (.isolate p)).live, c ∈ s.live := by
  show Relinked s.mem { (s.mpIsolateBadBlock f p).1 with
      live := if (s.mpIsolateBadBlock f p).2 then s.live.filter (·.ptr ≠ p) else s.live } ∧
    ∀ c ∈ if (s.mpIsolateBadBlock f p).2 then s.live.filter (·.ptr ≠ p) else s.live, c ∈ s.live
  by_cases hb : ∃ b ∈ s.live, p = b.ptr
  · obtain ⟨b, hb, rfl⟩ := hb
    obtain ⟨l₁, l₂, he⟩ := List.append_of_mem hb
    have hpair := he ▸ h.apart
    rw [isolate_block hf h hb, if_pos rfl, he, filter_ptr hpair]
    refine ⟨(leave_relinked h he fun _ _ _ _ => rfl).mark fun c hc => headers_apart ?_,
      fun c hc => mem_with hc⟩
    exact hpair.forall (List.mem_append_right _ List.mem_cons_self) (mem_with hc)
      (ne_of_mem_of_not_mem hc (List.nodup_middle.mp (nodup hpair)).notMem).symm
  · rw [isolate_none hp hb, if_neg Bool.false_ne_true]
    exact ⟨⟨h.apart, h.links, fun _ _ _ _ _ => rfl⟩, fun _ hc => hc⟩

/-- One block of those that are apart has become another. -/
theorem change_eq (h : (l₁ ++ b :: l₂).Pairwise Block.Apart) (c : Block) :
    Pool.change (l₁ ++ b :: l₂) b c = l₁ ++ c :: l₂ := by
  have hid : ∀ l : List Block, (∀ x ∈ l, x ∈ l₁ ++ l₂) →
    (l.map fun x => if x = b then c else x) = l :=
    fun l hl => (List.map_congr_left fun x hx => if_neg
      (ne_of_mem_of_not_mem (hl x hx) (List.nodup_middle.mp (nodup h)).notMem)).trans
        (List.map_id l)
  unfold Pool.change
  rw [List.map_append, List.map_cons, if_pos rfl, hid l₁ fun x hx => List.mem_append_left _ hx,
    hid l₂ fun x hx => List.mem_append_right _ hx]

theorem apart_change (h : (l₁ ++ b :: l₂).Pairwise Block.Apart) (hc : ∀ x ∈ l₁ ++ l₂, c.Apart x) :
    (l₁ ++ c :: l₂).Pairwise Block.Apart :=
  (List.pairwise_middle Or.symm).mpr
    (List.pairwise_cons.mpr ⟨hc, (List.pairwise_cons.mp ((List.pairwise_middle Or.symm).mp h)).2⟩)

/-- The aligned header is behind the old one, in the block. -/
theorem alignedHeader_bounds (ha : 0 < alignment)
    (hb : b.ptr + (size + alignment + headerSize) ≤ b.hi) :
    b.header + headerSize ≤ alignedHeader b.header alignment ∧
      alignedHeader b.header alignment + headerSize ≤ b.hi := by
  have htop := b.top
  have hbounds :=
    alignUp_bounds (b.header + headerSize) alignment ha (by unfold Block.ptr at hb; omega)
  unfold Block.ptr at hb
  unfold alignedHeader wrap
  simp only [headerSize] at *
  omega

/-- A place for a header in the block `b` behind its own is apart from every header. -/
theorem apart_of_room (hpair : (l₁ ++ b :: l₂).Pairwise Block.Apart)
    (hfrom : b.header + headerSize ≤ new) (hto : new + headerSize ≤ b.hi) (hc : c ∈ l₁ ++ b :: l₂) :
    Bytes.Apart new headerSize c.header headerSize := by
  by_cases hcb : c = b
  · rw [hcb]
    exact .inr hfrom
  · have := hpair.forall (List.mem_append_right _ List.mem_cons_self) hc (Ne.symm hcb)
    have := b.low
    have := c.low
    have := c.room
    unfold Block.Apart at *
    unfold Bytes.Apart
    omega

theorem Spread.cons {l : List Nat} (hl : Spread l) (hnew : new < 2 ^ 64)
    (hap : ∀ x ∈ l, Bytes.Apart new headerSize x headerSize) : Spread (new :: l) where
  apart x hx y hy := by
    rcases List.mem_cons.mp hx with rfl | hx' <;> rcases List.mem_cons.mp hy with rfl | hy'
    · exact .inl rfl
    · exact .inr (hap y hy')
    · exact .inr (hap x hx').symm
    · exact hl.apart x hx' y hy'
  top x hx := by
    rcases List.mem_cons.mp hx with rfl | hx'
    · exact hnew
    · exact hl.top x hx'

/-- The copy has every field but the size. -/
theorem copyHeader_new (s : Pool) (h new size : Nat) (hok : o + k ≤ headerSize)
    (hfield : o + k ≤ 8 ∨ 16 ≤ o) :
    (s.copyHeader h new size).mem.le (new + o) k = s.mem.le (h + o) k :=
  (Bytes.le_store_apart (by unfold Bytes.Apart; omega)).trans (Bytes.le_copy hok)

/-- Another header is not written. -/
theorem copyHeader_other (s : Pool) (h size : Nat) (hap : Bytes.Apart new headerSize x headerSize)
    (hok : o + k ≤ headerSize) :
    (s.copyHeader h new size).mem.le (x + o) k = s.mem.le (x + o) k := by
  unfold Bytes.Apart at hap
  simp only [headerSize] at hap hok
  exact (Bytes.le_store_apart (by unfold Bytes.Apart; omega)).trans
    (Bytes.le_congr fun i h1 h2 => Bytes.copy_apart (by simp only [Bytes.Apart, headerSize]; omega))

theorem copyHeader_magic : (s.copyHeader h new size).mem.le new 4 = s.magic h := by
  have := copyHeader_new s h new size (o := 0) (k := 4) (by decide) (by decide)
  rwa [Nat.add_zero, Nat.add_zero] at this

/-- What a moved header does to the memory and the list. -/
theorem move_shows (size : Nat) (h : Inv s) (he : s.live = l₁ ++ b :: l₂)
    (hnew : alignedHeader b.header alignment = new) (hfrom : b.header + headerSize ≤ new)
    (hto : new + headerSize ≤ b.hi) :
    ∃ D, D.Is (l₁.map (·.header) ++ new :: l₂.map (·.header)) ∧
      Shows (s.copyHeader b.header new size).mem (new :: s.live.map (·.header)) D
        (s.moveHeader b.header alignment size) := by
  have hpair := he ▸ h.apart
  have hb : b ∈ s.live := he ▸ List.mem_append_right _ List.mem_cons_self
  have hap : ∀ c ∈ s.live, Bytes.Apart new headerSize c.header headerSize := fun c hc =>
    apart_of_room hpair hfrom hto (he ▸ hc)
  have hmap : s.live.map (·.header) = l₁.map (·.header) ++ b.header :: l₂.map (·.header) := by
    rw [he, List.map_append, List.map_cons]
  have hl : Spread (new :: s.live.map (·.header)) :=
    (spread h.apart).cons (by have := b.top; omega) fun x hx => by
    obtain ⟨c, hc, rfl⟩ := List.mem_map.mp hx
    exact hap c hc
  have hD : (s.copyHeader b.header new size).view.Is (s.live.map (·.header)) :=
    h.links.congr rfl fun x hx => by
    obtain ⟨c, hc, rfl⟩ := List.mem_map.mp hx
    exact ⟨copyHeader_other _ _ _ (hap c hc) (by decide),
      copyHeader_other _ _ _ (hap c hc) (by decide)⟩
  have hs :=
    (Shows.refl (s.copyHeader b.header new size) (new :: s.live.map (·.header))).move hl hD hmap
    ((copyHeader_new _ _ _ _ (by decide) (by decide)).trans
      (copyHeader_other _ _ _ (hap b hb) (by decide)).symm)
    ((copyHeader_new _ _ _ _ (by decide) (by decide)).trans
      (copyHeader_other _ _ _ (hap b hb) (by decide)).symm)
  have hne : new ≠ b.header := by
    simp only [headerSize] at hfrom
    omega
  have hnot : new ∉ l₁.map (·.header) ++ l₂.map (·.header) := fun hx => by
    rw [← List.map_append] at hx
    obtain ⟨c, hc, hce⟩ := List.mem_map.mp hx
    have := hap c (he ▸ mem_with hc)
    simp only [Bytes.Apart, headerSize] at this
    omega
  refine ⟨_, (hmap ▸ hD).replace (by simp only [headerSize] at hfrom; omega) hnot, ?_⟩
  unfold Pool.moveHeader
  rw [hnew, if_pos hne]
  exact hs

theorem Block.moved_eq (hlo : b.lo ≤ new) (hto : new + headerSize ≤ b.hi) (size : Nat) :
    b.moved new size = ⟨b.lo, b.hi, new, size, b.pos, hlo, hto, b.top⟩ := dif_pos ⟨hlo, hto⟩

theorem align_relinked (h : Inv s) (hb : b ∈ s.live) (hnew : alignedHeader b.header alignment = new)
    (hfrom : b.header + headerSize ≤ new) (hto : new + headerSize ≤ b.hi) :
    Relinked (s.copyHeader b.header new size).mem (s.step f (.align b alignment size)) := by
  obtain ⟨l₁, l₂, he⟩ := List.append_of_mem hb
  have hpair := he ▸ h.apart
  have hlo : b.lo ≤ new := by
    have := b.low
    omega
  have hmoved := Block.moved_eq hlo hto size
  have hlive : Pool.change s.live b (b.moved new size) = l₁ ++ b.moved new size :: l₂ := by
    rw [he, change_eq hpair]
  obtain ⟨D, hIs, hs⟩ := move_shows size h he hnew hfrom hto
  have hap : ∀ c ∈ s.live, Bytes.Apart new headerSize c.header headerSize := fun c hc =>
    apart_of_room hpair hfrom hto (he ▸ hc)
  have hl : Spread (new :: s.live.map (·.header)) :=
    (spread h.apart).cons (by have := b.top; omega) fun x hx => by
    obtain ⟨c, hc, rfl⟩ := List.mem_map.mp hx
    exact hap c hc
  have hheads : (l₁ ++ b.moved new size :: l₂).map (·.header) = l₁.map (·.header) ++ new ::
    l₂.map (·.header) := by
    rw [List.map_append, List.map_cons, hmoved]
  have hsub : (l₁ ++ b.moved new size :: l₂).map (·.header) ⊆ new :: s.live.map (·.header) :=
    fun x hx => by
    rw [hheads] at hx
    by_cases hxn : x = new
    · exact List.mem_cons.mpr (.inl hxn)
    · refine List.mem_cons_of_mem _ ?_
      rw [he, List.map_append, List.map_cons]
      exact mem_with (mem_without hx hxn)
  show Relinked _ { s.moveHeader b.header alignment size with
    live := Pool.change s.live b (b.moved (alignedHeader b.header alignment) size) }
  rw [hnew, hlive]
  -- the moved state as a name of its own, which is not computed
  obtain ⟨t, ht⟩ : ∃ t, s.moveHeader b.header alignment size = t := ⟨_, rfl⟩
  rw [ht] at hs ⊢
  refine ⟨apart_change hpair fun x hx => ?_, ?_, fun c hc o k hok => ?_⟩
  · have := hpair.forall (List.mem_append_right _ List.mem_cons_self) (mem_with hx)
      (ne_of_mem_of_not_mem hx (List.nodup_middle.mp (nodup hpair)).notMem).symm
    rw [hmoved]
    exact this
  · show t.view.Is ((l₁ ++ b.moved new size :: l₂).map (·.header))
    rw [hheads]
    exact hs.is hIs (hheads ▸ hsub)
  · exact hs.field hl (hsub (List.mem_map_of_mem hc)) hok

/-- The changed block and the others. -/
theorem mem_change {d : Block} (hd : d ∈ Pool.change bs b c) : d = c ∨ d ∈ bs ∧ d ≠ b := by
  obtain ⟨y, hy, rfl⟩ := List.mem_map.mp hd
  by_cases he : y = b
  · exact .inl (if_pos he)
  · rw [if_neg he]
    exact .inr ⟨hy, he⟩

theorem resize_relinked (h : Inv s) (hp : s.pre (.resize b hi size m)) :
    Relinked m (s.step f (.resize b hi size m)) ∧
    b.resized hi size = ⟨b.lo, hi, b.header, size, b.pos, b.low, hp.2.1.1, hp.2.1.2⟩ := by
  obtain ⟨hb, hroom, hap, -, hm⟩ := hp
  have hresized : b.resized hi size = ⟨b.lo, hi, b.header, size, b.pos, b.low, hroom.1, hroom.2⟩ :=
    dif_pos hroom
  refine ⟨?_, hresized⟩
  obtain ⟨l₁, l₂, he⟩ := List.append_of_mem hb
  have hpair := he ▸ h.apart
  have hlive : Pool.change s.live b (b.resized hi size) = l₁ ++ b.resized hi size :: l₂ := by
    rw [he, change_eq hpair]
  have hheads : (l₁ ++ b.resized hi size :: l₂).map (·.header) = s.live.map (·.header) := by
    rw [he, List.map_append, List.map_cons, List.map_append, List.map_cons, hresized]
  show Relinked m { s with mem := m, live := Pool.change s.live b (b.resized hi size) }
  rw [hlive]
  refine ⟨apart_change hpair fun x hx => ?_, ?_, fun _ _ _ _ _ => rfl⟩
  · obtain ⟨hx, hne⟩ := mem_leave h he hx
    exact hap x hx hne
  · show ({ s with mem := m } : Pool).view.Is ((l₁ ++ b.resized hi size :: l₂).map (·.header))
    rw [hheads]
    exact links_write h fun c hc => (hm c hc).2

theorem align_bounds (hp : s.pre (.align b alignment size)) :
    b.header + headerSize ≤ alignedHeader b.header alignment ∧
      alignedHeader b.header alignment + headerSize ≤ b.hi ∧ size < 2 ^ 64 := by
  obtain ⟨-, ⟨-, hal⟩, hroom⟩ := hp
  obtain ⟨hfrom, hto⟩ := alignedHeader_bounds (by omega) hroom
  have := b.top
  exact ⟨hfrom, hto, by omega⟩

/-- The magic and the size of the headers behind an aligned one. -/
theorem align_field (h : Inv s) (hb : b ∈ s.live) (hfrom : b.header + headerSize ≤ new)
    (hto : new + headerSize ≤ b.hi) (hc : c ∈ s.live) (hok : o + k ≤ headerSize) :
    (s.copyHeader b.header new size).mem.le (c.header + o) k = s.mem.le (c.header + o) k := by
  obtain ⟨l₁, l₂, he⟩ := List.append_of_mem hb
  exact copyHeader_other _ _ _ (apart_of_room (he ▸ h.apart) hfrom hto (he ▸ hc)) hok

theorem inductive_inv (hf : f.fastPath = false) : (Pool.system f).Inductive Inv where
  init s hs := by
    obtain ⟨h0, hl⟩ := hs
    refine ⟨?_, ?_, ?_⟩
    · rw [hl]
      exact DL.is_nil_iff.mpr h0
    · rw [hl]
      exact fun _ hc => absurd hc List.not_mem_nil
    · rw [hl]
      exact .nil
  step := by
    rintro s l s' h ⟨hp, rfl⟩
    cases l with
    | alloc b m =>
      refine (alloc_relinked hf h hp).inv fun c hc => ?_
      rcases mem_alloc hp hc with hc | hc
      · exact (hp.2.2 c hc).1.same.trans (h.magic c hc)
      · exact hc.1
    | align b alignment size =>
      obtain ⟨hfrom, hto, -⟩ := align_bounds hp
      refine (align_relinked h hp.1 rfl hfrom hto).inv fun c hc => ?_
      rcases mem_change hc with rfl | ⟨hc, -⟩
      · rw [Block.moved_eq (by have := b.low; omega) hto]
        exact copyHeader_magic.trans (h.magic b hp.1)
      · have hfield :
            (s.copyHeader b.header (alignedHeader b.header alignment) size).mem.le (c.header + 0)
              4 = s.mem.le (c.header + 0) 4 := align_field h hp.1 hfrom hto hc (by decide)
        exact hfield.trans (h.magic c hc)
    | resize b hi size m =>
      obtain ⟨hr, he⟩ := resize_relinked (f := f) h hp
      refine hr.inv fun c hc => ?_
      rcases mem_change hc with rfl | ⟨hc, -⟩
      · rw [he]
        exact (hp.2.2.2.2 b hp.1).1.same.trans (h.magic b hp.1)
      · exact (hp.2.2.2.2 c hc).1.same.trans (h.magic c hc)
    | free b m =>
      obtain ⟨hr, hmem⟩ := free_relinked hf h hp
      refine hr.inv fun c hc => ?_
      obtain ⟨hc, hne⟩ := hmem c hc
      exact ((hp.2 c hc).1 hne).same.trans (h.magic c hc)
    | isolate p =>
      obtain ⟨hr, hmem⟩ := isolate_relinked hf h hp
      exact hr.inv fun c hc => h.magic c (hmem c hc)
    | reset => exact ⟨DL.is_nil_iff.mpr rfl, nofun, .nil⟩
    | write m =>
      refine (write_relinked h fun c hc => (hp c hc).2).inv fun c hc => ?_
      exact (hp c hc).1.same.trans (h.magic c hc)

/-- The sizes stand in every run whose writes spare them. -/
theorem inductive_sized (hf : f.fastPath = false) :
    ((Pool.system f).guard Pool.Spares).Inductive fun s => Inv s ∧ Sized s where
  init s hs := by
    refine ⟨(inductive_inv hf).init s hs, ?_⟩
    unfold Sized
    rw [hs.2]
    exact fun _ hc => absurd hc List.not_mem_nil
  step := by
    rintro s l s' ⟨h, hs⟩ ⟨hstep, hspare⟩
    refine ⟨(inductive_inv hf).step s l s' h hstep, ?_⟩
    obtain ⟨hp, rfl⟩ := hstep
    cases l with
    | alloc b m =>
      refine (alloc_relinked hf h hp).sized fun c hc => ?_
      rcases mem_alloc hp hc with hc | hc
      · exact (hspare c hc).same.trans (hs c hc)
      · exact hc.2
    | align b alignment size =>
      obtain ⟨hfrom, hto, hlt⟩ := align_bounds hp
      refine (align_relinked h hp.1 rfl hfrom hto).sized fun c hc => ?_
      rcases mem_change hc with rfl | ⟨hc, -⟩
      · rw [Block.moved_eq (by have := b.low; omega) hto]
        exact Bytes.le_store hlt
      · exact (align_field h hp.1 hfrom hto hc (by decide)).trans (hs c hc)
    | resize b hi size m =>
      obtain ⟨hr, he⟩ := resize_relinked (f := f) h hp
      refine hr.sized fun c hc => ?_
      rcases mem_change hc with rfl | ⟨hc, hne⟩
      · rw [he]
        exact hp.2.2.2.1
      · exact (hspare c hc hne).same.trans (hs c hc)
    | free b m =>
      obtain ⟨hr, hmem⟩ := free_relinked hf h hp
      refine hr.sized fun c hc => ?_
      obtain ⟨hc, hne⟩ := hmem c hc
      exact (hspare c hc hne).same.trans (hs c hc)
    | isolate p =>
      obtain ⟨hr, hmem⟩ := isolate_relinked hf h hp
      exact hr.sized fun c hc => hs c (hmem c hc)
    | reset => exact nofun
    | write m =>
      refine (write_relinked h fun c hc => (hp c hc).2).sized fun c hc => ?_
      exact (hspare c hc).same.trans (hs c hc)

end Steps

/-! ## The results -/

section Results
variable {f : Flags} {s : Pool} {b : Block} {m : Bytes} {n p h curr : Nat} {l : List Nat}

theorem walk_eq (hc : Chain s.next curr l) (hlen : l.length ≤ n) :
    s.walk h n curr = some (decide (h ∈ l)) := by
  induction l generalizing curr n with
  | nil =>
    have h0 : curr = 0 := hc
    cases n with
    | zero => exact if_pos h0
    | succ n => exact if_pos h0
  | cons a l ih =>
    obtain ⟨rfl, h0, hl⟩ := hc
    obtain ⟨n, rfl⟩ : ∃ k, n = k + 1 := ⟨n - 1, by simp only [List.length_cons] at hlen; omega⟩
    unfold Pool.walk
    rw [if_neg h0]
    by_cases he : curr = h
    · rw [if_pos he, decide_eq_true (List.mem_cons.mpr (.inl he.symm))]
    · rw [if_neg he, ih hl (Nat.le_of_succ_le_succ hlen)]
      congr 1
      exact decide_eq_decide.mpr (by rw [List.mem_cons, or_iff_right (Ne.symm he)])

theorem walk_live (bs : List Block) :
    ({ s with live := bs } : Pool).walk h n curr = s.walk h n curr := by
  induction n generalizing curr with
  | zero => rfl
  | succ n ih =>
    unfold Pool.walk
    rw [ih]
    rfl

theorem valid_live (hf : f.fastPath = false) (bs : List Block) :
    ({ s with live := bs } : Pool).mpPtrValid f n p = s.mpPtrValid f n p := by
  unfold Pool.mpPtrValid
  rw [walk_live, hf]
  rfl

/-- A pointer is valid just when it is that of a block in use. -/
theorem Inv.valid (hf : f.fastPath = false) (hi : Inv s) (hp : p < 2 ^ 64)
    (hn : s.live.length ≤ n) : s.mpPtrValid f n p = some (decide (∃ b ∈ s.live, p = b.ptr)) := by
  have hheader : (headerOf p ∈ s.live.map (·.header)) ↔ ∃ b ∈ s.live, p = b.ptr := by
    constructor
    · intro hm
      obtain ⟨b, hb, he⟩ := List.mem_map.mp hm
      exact ⟨b, hb, ptr_of_headerOf hp he.symm⟩
    · rintro ⟨b, hb, rfl⟩
      rw [headerOf_ptr]
      exact List.mem_map_of_mem hb
  unfold Pool.mpPtrValid
  split
  · rename_i h0
    refine congrArg some (decide_eq_false ?_).symm
    rintro ⟨b, -, he⟩
    exact b.ptr_ne_zero (he.symm.trans h0)
  · split
    · rename_i hmagic
      refine congrArg some (decide_eq_false ?_).symm
      rintro ⟨b, hb, rfl⟩
      rw [headerOf_ptr] at hmagic
      exact hmagic (hi.magic b hb)
    · have hchain : Chain s.next s.activeHead (s.live.map (·.header)) := hi.links.chain
      rw [hf, if_neg Bool.false_ne_true, walk_eq hchain (by rw [List.length_map]; exact hn)]
      exact congrArg some (decide_eq_decide.mpr hheader)

/-- **The active list is exact**: in every reachable state of a pool without FAST_PATH it is linked
in both directions and has the headers of the blocks in use, the last first, and the walk of
`mp_ptr_valid` ends and is right about every pointer. -/
theorem active_list_exact (hf : f.fastPath = false) (hr : (Pool.system f).Reachable s) :
    s.view.Is (s.live.map (·.header)) ∧
      ∀ p n, p < 2 ^ 64 → s.live.length ≤ n →
      s.mpPtrValid f n p = some (decide (∃ b ∈ s.live, p = b.ptr)) :=
  have hi := (inductive_inv hf).reachable hr
  ⟨hi.links, fun _ _ hp hn => hi.valid hf hp hn⟩

/-- `mp_isolate_bad_block` takes its block out of the list, and no other. -/
theorem isolated (hf : f.fastPath = false) (hr : (Pool.system f).Reachable s) (hb : b ∈ s.live)
    (hp : p < 2 ^ 64) (hn : s.live.length ≤ n) : (s.mpIsolateBadBlock f b.ptr).2 = true ∧
      (s.mpIsolateBadBlock f b.ptr).1.mpPtrValid f n p =
        some (decide (p ≠ b.ptr ∧ ∃ c ∈ s.live, p = c.ptr)) := by
  have hi := (inductive_inv hf).reachable hr
  have hptr : b.ptr < 2 ^ 64 := by
    have := b.room
    have := b.top
    unfold Block.ptr
    omega
  have hdone : (s.mpIsolateBadBlock f b.ptr).2 = true := by rw [isolate_block hf hi hb]
  refine ⟨hdone, ?_⟩
  have hpre : s.pre (.isolate b.ptr) := ⟨hptr, .inr (.inr ⟨b, hb, rfl⟩)⟩
  have hnext := (inductive_inv hf).step s (.isolate b.ptr) _ hi ⟨hpre, rfl⟩
  have hstep : s.step f (.isolate b.ptr) =
      { (s.mpIsolateBadBlock f b.ptr).1 with live := s.live.filter (·.ptr ≠ b.ptr) } := by
    show ({ (s.mpIsolateBadBlock f b.ptr).1 with
      live :=
        if (s.mpIsolateBadBlock f b.ptr).2 then s.live.filter (·.ptr ≠ b.ptr)
        else s.live } : Pool) = _
    rw [if_pos hdone]
  rw [hstep] at hnext
  have hvalid := hnext.valid hf hp (Nat.le_trans (List.length_filter_le _ _) hn)
  rw [valid_live hf] at hvalid
  rw [hvalid]
  refine congrArg some (decide_eq_decide.mpr ?_)
  constructor
  · rintro ⟨c, hc, rfl⟩
    obtain ⟨hc, hne⟩ := List.mem_filter.mp hc
    exact ⟨of_decide_eq_true hne, c, hc, rfl⟩
  · rintro ⟨hne, c, hc, rfl⟩
    exact ⟨c, List.mem_filter.mpr ⟨hc, decide_eq_true hne⟩, rfl⟩

theorem moveHeader_head {alignment size : Nat} (hne : s.activeHead ≠ h) :
    (s.moveHeader h alignment size).activeHead = s.activeHead := by
  have hcopy : ∀ new, (s.copyHeader h new size).activeHead = s.activeHead := fun _ => rfl
  have hprev : ∀ (t : Pool) a v, (t.setPrev a v).activeHead = t.activeHead := fun _ _ _ => rfl
  have hnext : ∀ (t : Pool) a v, (t.setNext a v).activeHead = t.activeHead := fun _ _ _ => rfl
  unfold Pool.moveHeader
  simp only [apply_ite Pool.activeHead, hcopy, hprev, hnext, if_neg hne, ite_self]

theorem isolate_fast (hf : f.fastPath = true) : s.mpIsolateBadBlock f p = (s, false) := by
  unfold Pool.mpIsolateBadBlock
  split
  · rfl
  · exact if_pos (.inl hf)

theorem inductive_no_list (hf : f.fastPath = true) :
    (Pool.system f).Inductive fun s => s.activeHead = 0 where
  init _ hs := hs.1
  step := by
    rintro s l s' h ⟨hp, rfl⟩
    cases l with
    | alloc b m =>
      show (({ s with mem := m } : Pool).enlist f b.header).activeHead = 0
      unfold Pool.enlist
      rw [if_pos hf]
      exact h
    | align b alignment size =>
      have hhead : (s.moveHeader b.header alignment size).activeHead = s.activeHead :=
        moveHeader_head fun he => b.header_pos (he.symm.trans h)
      -- the moved state as a name of its own, which is not computed
      obtain ⟨t, ht⟩ : ∃ t, s.moveHeader b.header alignment size = t := ⟨_, rfl⟩
      have hstep : s.step f (.align b alignment size) = { t with
          live := Pool.change s.live b (b.moved (alignedHeader b.header alignment) size) } := by
        rw [← ht]
        rfl
      rw [hstep]
      exact (ht ▸ hhead).trans h
    | resize b hi size m => exact h
    | free b m =>
      show (({ s with mem := m } : Pool).delist f b.header).activeHead = 0
      unfold Pool.delist
      rw [if_pos hf]
      exact h
    | isolate p =>
      show (s.mpIsolateBadBlock f p).1.activeHead = 0
      rw [isolate_fast hf]
      exact h
    | reset => rfl
    | write m => exact h

/-- A pool with FAST_PATH keeps no list. -/
theorem no_list (hf : f.fastPath = true) (hr : (Pool.system f).Reachable s) : s.activeHead = 0 :=
  (inductive_no_list hf).reachable hr

/-- Every header has the size of its block, after writes that left the sizes. -/
theorem sizes_recorded (hf : f.fastPath = false)
    (hr : ((Pool.system f).guard Pool.Spares).Reachable s) :
    ∀ b ∈ s.live, s.sizeOf b.header = b.requested :=
  ((inductive_sized hf).reachable hr).2

/-- The magic of a block, and the byte behind what it was asked for, are as `mp_alloc` has left
them. -/
def Intact (f : Flags) (m : Bytes) (b : Block) : Prop :=
  m.le b.header 4 = magicHead ∧ (f.canary = true → m (wrap (b.ptr + b.requested)) = canaryByte)

instance (f : Flags) (m : Bytes) (b : Block) : Decidable (Intact f m b) :=
  inferInstanceAs (Decidable (_ ∧ (_ → _)))

theorem auditBlock_eq (healthy : Bool) (hb : s.sizeOf b.header = b.requested) :
    s.auditBlock f b.header healthy = (healthy && decide (Intact f s.mem b)) := by
  have hptr : wrap (b.header + headerSize) = b.ptr := by
    have := b.room
    have := b.top
    unfold Block.ptr wrap
    omega
  unfold Pool.auditBlock Intact
  rw [hptr, hb]
  by_cases hm : s.magic b.header = magicHead
  · have hm' : s.mem.le b.header 4 = magicHead := hm
    by_cases hc : f.canary = true
    · simp [hm, hm', hc, Bool.and_comm]
    · simp [hm, hm', hc]
  · have hm' : s.mem.le b.header 4 ≠ magicHead := hm
    simp [hm, hm']

theorem auditLoop_eq {healthy : Bool} {bs : List Block} (hc : Chain s.next curr (bs.map (·.header)))
    (hbs : ∀ b ∈ bs, s.sizeOf b.header = b.requested) (hn : bs.length ≤ n) :
    s.auditLoop f n curr healthy = some (healthy && decide (∀ b ∈ bs, Intact f s.mem b)) := by
  induction bs generalizing curr n healthy with
  | nil =>
    have h0 : curr = 0 := hc
    have hall : decide (∀ b ∈ ([] : List Block), Intact f s.mem b) = true := decide_eq_true nofun
    rw [hall, Bool.and_true]
    cases n with
    | zero => exact if_pos h0
    | succ n => exact if_pos h0
  | cons b bs ih =>
    obtain ⟨rfl, h0, hl⟩ := hc
    obtain ⟨n, rfl⟩ : ∃ k, n = k + 1 := ⟨n - 1, by simp only [List.length_cons] at hn; omega⟩
    obtain ⟨hb, hbs⟩ := List.forall_mem_cons.mp hbs
    unfold Pool.auditLoop
    rw [if_neg h0, auditBlock_eq _ hb, ih hl hbs (Nat.le_of_succ_le_succ hn),
      Bool.and_assoc, ← Bool.decide_and]
    exact congrArg (fun p => some (healthy && p)) (decide_eq_decide.mpr List.forall_mem_cons.symm)

/-- **The audit is exact**: whatever has been written since, but to the links and the sizes of the
blocks in use, it visits each of them and is healthy just when all have their magic and, with the
flag, the canary behind the size they were last asked for. -/
theorem audit_exact (hf : f.fastPath = false) (hr : (Pool.system f).Reachable s)
    (hm : ∀ b ∈ s.live, s.KeepsLinks m b.header ∧ m.le (b.header + 8) 8 = b.requested)
    (hn : s.live.length ≤ n) :
    ({ s with mem := m } : Pool).mpAuditHeap f n = some (decide (∀ b ∈ s.live, Intact f m b)) := by
  have hlinks := links_write ((inductive_inv hf).reachable hr) fun b hb => (hm b hb).1
  unfold Pool.mpAuditHeap
  rw [if_neg (ne_true_of_eq_false hf)]
  exact auditLoop_eq hlinks.chain (fun b hb => (hm b hb).2) hn

end Results

/-! ### A run -/

instance (b c : Block) : Decidable (b.Apart c) := inferInstanceAs (Decidable (_ ∨ _))

instance (s : Pool) (m : Bytes) (h : Nat) : Decidable (s.KeepsMagic m h) :=
  inferInstanceAs (Decidable (∀ _ < _, _))

instance (s : Pool) (m : Bytes) (h : Nat) : Decidable (s.KeepsLinks m h) :=
  inferInstanceAs (Decidable (∀ _ < _, _))

instance decPre (s : Pool) : (l : Pool.Act) → Decidable (s.pre l)
  | .alloc _ _ => inferInstanceAs (Decidable (_ ∧ (_ ∧ _) ∧ ∀ _ ∈ _, _ ∧ _))
  | .align _ _ _ => inferInstanceAs (Decidable (_ ∧ (_ ∧ _) ∧ _))
  | .resize _ _ _ _ =>
    inferInstanceAs (Decidable (_ ∧ (_ ∧ _) ∧ (∀ _ ∈ _, _ → _) ∧ _ ∧ ∀ _ ∈ _, _ ∧ _))
  | .free _ _ => inferInstanceAs (Decidable (_ ∧ ∀ _ ∈ _, _ ∧ _))
  | .isolate _ => inferInstanceAs (Decidable (_ ∧ (_ ∨ _ ∨ ∃ _ ∈ _, _)))
  | .reset => inferInstanceAs (Decidable True)
  | .write _ => inferInstanceAs (Decidable (∀ _ ∈ _, _ ∧ _))

def blockA : Block := ⟨4096, 8192, 4128, 316, by decide, by decide, by decide, by decide⟩

def blockB : Block := ⟨8192, 9216, 8192, 700, by decide, by decide, by decide, by decide⟩

/-- The magic and the size are written to a header. -/
def stamp (m : Bytes) (b : Block) : Bytes :=
  (m.store b.header 4 magicHead).store (b.header + 8) 8 b.requested

/-- A pool with canaries. -/
def guarded : Flags := ⟨false, true⟩

/-- A block is taken, and its header is aligned. -/
def alignedPool : Pool :=
  [Pool.Act.alloc blockA (stamp (fun _ => 0) blockA), .align blockA 64 100].foldl
    (Pool.step guarded) ⟨fun _ => 0, 0, []⟩

/-- It is asked for 120 bytes. -/
def resizedPool : Pool := alignedPool.step guarded
  (.resize (blockA.moved 4328 100) 8192 120 ((alignedPool.mem.store 4336 8 120).store 4600 1 0xDE))

/-- A second block is taken. -/
def secondPool : Pool := resizedPool.step guarded (.alloc blockB (stamp resizedPool.mem blockB))

/-- The second block is freed. -/
def activePool : Pool := secondPool.step guarded (.free blockB secondPool.mem)

theorem alignedPool_reachable : (Pool.system guarded).Reachable alignedPool :=
  have hr : ((Pool.system guarded).guard fun _ _ => True).Reachable ⟨fun _ => 0, 0, []⟩ :=
    .init ⟨rfl, rfl⟩
  .of_guard (hr.run (by decide +kernel))

theorem activePool_reachable : (Pool.system guarded).Reachable activePool :=
  have hresized : (Pool.system guarded).Reachable resizedPool :=
    .step
      (.resize (blockA.moved 4328 100) 8192 120
        ((alignedPool.mem.store 4336 8 120).store 4600 1 0xDE))
      alignedPool_reachable ⟨by decide +kernel, rfl⟩
  have hsecond : (Pool.system guarded).Reachable secondPool :=
    .step (.alloc blockB (stamp resizedPool.mem blockB)) hresized ⟨by decide +kernel, rfl⟩
  .step (.free blockB secondPool.mem) hsecond ⟨by decide +kernel, rfl⟩

/-- The aligned block is valid; its first header, whose magic is still there, and the freed block
are not. -/
theorem active_list_exact_run : activePool.mpPtrValid guarded 1 4480 = some true ∧
    activePool.mpPtrValid guarded 1 4280 = some false ∧
    activePool.mpPtrValid guarded 1 8344 = some false := by
  have hvalid := (active_list_exact (f := guarded) rfl activePool_reachable).2
  refine ⟨(hvalid 4480 1 (by decide) (by decide +kernel)).trans ?_,
    (hvalid 4280 1 (by decide) (by decide +kernel)).trans ?_,
    (hvalid 8344 1 (by decide) (by decide +kernel)).trans ?_⟩ <;> decide +kernel

/-- The user writes in the 120 bytes of the aligned block, and then behind them. -/
theorem audit_exact_run :
    ({ activePool with mem := activePool.mem.store 4599 1 7 } : Pool).mpAuditHeap guarded 1 =
      some true ∧ ({ activePool with mem := activePool.mem.store 4599 2 7 } : Pool).mpAuditHeap
        guarded 1 = some false := by
  constructor
  · rw [audit_exact (f := guarded) rfl activePool_reachable (by decide +kernel) (by decide +kernel)]
    decide +kernel
  · rw [audit_exact (f := guarded) rfl activePool_reachable (by decide +kernel) (by decide +kernel)]
    decide +kernel

end Cmem.L3.ActiveList

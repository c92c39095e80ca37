import Cmem.Core.Bytes
import Cmem.L3Pool.Pages

/-!
# The canary flag, reloaded

`MP_FLAG_DEBUG_CANARY` is read when a page is carved and laid out anew, when a block
is stamped (`mp_alloc`, `mp_aligned_alloc`, `mp_realloc`), and when it is checked
(`mp_verify_free_canary`, src/src/cmem_alloc.c:1174-1190). `mp_reparse_env_flags`
(src/src/cmem_config.c:259-275) may set it between any two of these.

Payloads and canaries lie in one memory, which the users write inside their payloads and
the pool anywhere outside the live ones. Every store of a canary byte is recorded with the
block it belongs to. The tiers give blocks apart from the live ones, unless `mp_reset` has laid
out anew what a queue or another thread's cache still holds: such a block is free twice.
-/
namespace Cmem.L3.Pool

/-! ## The environment -/

/-- `strstr` -/
def contains (env key : String) : Bool := env.toList.tails.any fun l => key.toList.isPrefixOf l

/-- mirrors `mp_parse_env_flags`, src/src/cmem_config.c:26-61, as far as `Config` has
the flags; `none` when `CMEM_CONF` is not set -/
def mpParseEnvFlags (c : Config) : Option String → Config
  | none => c
  | some env =>
    { c with canary := c.canary || contains env "canary=1" || contains env "canary=on"
             cacheAligned := c.cacheAligned || contains env "aligned=1" || contains env "aligned=on"
             guardPages := c.guardPages || contains env "guard=1" || contains env "guard=on"
             hugePages := c.hugePages || contains env "hugepages=1" || contains env "hugepages=on" }

/-! ## Blocks -/

/-- A live block, with what its header says. -/
structure Marked where
  ptr : Nat
  lo : Nat
  hi : Nat
  tier : Tier
  requested : Nat
  usable : Nat
  deriving DecidableEq

/-- `MP_CANARY_BYTE` -/
def canaryByte : UInt8 := 0xDE

/-- A store of a canary byte, and the block it is for. -/
structure Store where
  addr : Nat
  lo : Nat
  hi : Nat
  deriving DecidableEq

structure Heap where
  cfg : Config
  pages : List Page
  mem : Bytes
  live : List Marked
  /-- The blocks freed and not handed out since. -/
  freed : List (Nat × Nat)
  /-- The blocks that are free twice. -/
  doubled : List (Nat × Nat)
  isDirty : Bool
  stores : List Store
  /-- The blocks `mp_free` reported. -/
  reports : List Marked

/-- `if (flags & MP_FLAG_DEBUG_CANARY) *canary = MP_CANARY_BYTE` -/
def Heap.stamp (h : Heap) (b : Marked) : Heap :=
  if h.cfg.canary then
    { h with mem := Function.update h.mem (b.ptr + b.requested) canaryByte
             stores := ⟨b.ptr + b.requested, b.lo, b.hi⟩ :: h.stores }
  else h

/-- What the pool writes, its headers and lists, is outside the payloads. -/
def Heap.havoc (h : Heap) (junk : Bytes) : Heap :=
  { h with mem := fun i => if h.live.any fun b => b.ptr ≤ i && i < b.hi then h.mem i else junk i }

/-- The answer of the tiers: which of them it was, the payload and its block. A slab
slot comes with its page. -/
structure Answer where
  tier : Tier
  ptr : Nat
  lo : Nat
  hi : Nat
  page : Nat

/-- A block joins the live ones. -/
def Heap.add (h : Heap) (b : Marked) : Heap :=
  { h with live := b :: h.live, freed := h.freed.filter fun d => b.hi ≤ d.1 ∨ d.2 ≤ b.lo }

/-- The pages with those the slab tier creates for a request of `n` bytes. -/
def Heap.refill (h : Heap) (n : Nat) (fresh : List Nat) : Heap :=
  if h.cfg.tierOf n = .slab then
    { h with pages := fresh.map (slabCreatePage h.cfg (h.cfg.classIndex n)) ++ h.pages }
  else h

/-- A pool that was found damaged serves no request, src/src/cmem_alloc.c:95. -/
def Heap.refuses (h : Heap) : Bool := h.isDirty && !h.cfg.fallback

/-- `mp_alloc` with `mp_aligned_alloc`, src/src/cmem_alloc.c:89-518 and 1628-1685, and whether
it returns a block. The block of a CACHE_ALIGNED pool is stamped twice, before and behind the
move. -/
def Heap.alloc (h : Heap) (size : Nat) (fresh : List Nat) (ans : Option Answer) (junk : Bytes) :
    Heap × Bool :=
  if size = 0 ∨ h.refuses then (h, false)
  else
    let n := h.cfg.chargeOf size
    let h := (h.refill n fresh).havoc junk
    match ans with
    | none => (h, false)
    | some a =>
      let b : Marked := ⟨a.ptr, a.lo, a.hi, a.tier, n, h.cfg.usableOf n a.tier⟩
      let h := h.stamp b
      if h.cfg.cacheAligned then
        let b := { b with ptr := alignUp b.ptr 64, requested := size }
        ((h.stamp b).add b, true)
      else (h.add b, true)

/-- The canary of the block is not what `mp_free` expects, src/src/cmem_alloc.c:1174-1178. -/
def Heap.Damaged (h : Heap) (b : Marked) : Prop :=
  h.cfg.canary = true ∧ h.mem (b.ptr + b.requested) ≠ canaryByte

instance (h : Heap) (b : Marked) : Decidable (h.Damaged b) := inferInstanceAs (Decidable (_ ∧ _))

/-- `mp_free`: the check, src/src/cmem_alloc.c:1174-1190, and the release. -/
def Heap.free (h : Heap) (b : Marked) (junk : Bytes) : Heap :=
  { h with live := h.live.erase b
           freed := (b.lo, b.hi) :: h.freed
           isDirty := h.isDirty || h.Damaged b
           reports := if h.Damaged b then b :: h.reports else h.reports }.havoc junk

/-- The header of a live block changes in place. -/
def Heap.resize (h : Heap) (b b' : Marked) : Heap :=
  { h.stamp b' with live := b' :: h.live.erase b }

/-- mirrors `mp_realloc`, src/src/cmem_alloc.c:1420-1545, of a live block; what is copied is `junk`
-/
def Heap.realloc (h : Heap) (b : Marked) (newSize : Nat) (grow : Option Grown) (fresh : List Nat)
    (ans : Option Answer) (junk : Bytes) : Heap :=
  if newSize = 0 then h.free b junk
  else if newSize ≤ b.usable then h.resize b { b with requested := newSize }
  else
    match (if b.tier = .tlsf then grow else none) with
    | some g =>
      (h.havoc junk).resize b { b with requested := newSize, usable := g.usable, hi := g.hi }
    | none =>
      let r := h.alloc newSize fresh ans junk
      if r.2 then r.1.free b junk else r.1

/-- mirrors `mp_reset`, src/src/cmem_lifecycle.c:127-212: the layout of the pages. It does not look
into `remote_free_queue`, nor into the caches of other threads: `left` is what they hold. -/
def Heap.reset (h : Heap) (idle : List Nat) (left : List (Nat × Nat)) (junk : Bytes) : Heap :=
  { h with pages := h.pages.map fun p =>
             if p.base ∈ idle then p else { p with stride := h.cfg.slotTotal p.cls }
           mem := junk
           live := []
           freed := left
           doubled := left ++ h.doubled }

inductive HeapAct where
  | alloc (size : Nat) (fresh : List Nat) (ans : Option Answer) (junk : Bytes)
  | free (b : Marked) (junk : Bytes)
  | realloc (b : Marked) (newSize : Nat) (grow : Option Grown) (fresh : List Nat)
    (ans : Option Answer) (junk : Bytes)
  | write (b : Marked) (i : Nat) (v : UInt8)
  | reset (idle : List Nat) (left : List (Nat × Nat)) (junk : Bytes)
  | reparseEnvFlags (env : Option String)

def Heap.step (h : Heap) : HeapAct → Heap
  | .alloc size fresh ans junk => (h.alloc size fresh ans junk).1
  | .free b junk => h.free b junk
  | .realloc b newSize grow fresh ans junk => h.realloc b newSize grow fresh ans junk
  | .write b i v => { h with mem := Function.update h.mem (b.ptr + i) v }
  | .reset idle left junk => h.reset idle left junk
  | .reparseEnvFlags env => { h with cfg := mpParseEnvFlags h.cfg env }

/-! ## The tiers -/

/-- The sizes that `sys_mem_alloc` computes do not wrap. -/
def Config.OsPlain (c : Config) (n : Nat) : Prop :=
  n + headerSize + c.canaryLen + (if c.guardPages then 3 * 2 ^ c.pageShift else 0) < 2 ^ 64

/-- What the tiers give for `n` bytes: a slot of a page of the class, a TLSF block of
`total_needed` bytes, memory of the system of the size asked for, or the emergency
buffer. -/
structure Answer.Honest (c : Config) (pages : List Page) (n : Nat) (a : Answer) : Prop where
  space : a.hi ≤ 2 ^ 64
  tier : a.tier = .emergency ∨ a.tier = c.tierOf n
  slab : a.tier = .slab → a.ptr = a.lo + headerSize ∧
    ∃ p ∈ pages, p.base = a.page ∧ p.cls = c.classIndex n ∧ a.hi = a.lo + p.stride
  tlsf : a.tier = .tlsf → a.ptr = a.lo + (32 + headerSize) ∧ a.lo + c.tlsfTotal n ≤ a.hi
  os : a.tier = .os →
    a.ptr = a.lo + headerSize ∧ (c.OsPlain n → a.lo + (n + headerSize + c.canaryLen) ≤ a.hi)
  emergency : a.tier = .emergency → a.ptr = a.lo + headerSize ∧ a.hi = a.lo + c.emergencySize ∧
    wrap (n + headerSize + c.canaryLen) ≤ c.emergencySize

/-- `[lo, hi)` is apart from the blocks `bs`, or it is from what is free twice. -/
def Heap.Spare (h : Heap) (lo hi : Nat) (bs : List Marked) : Prop :=
  (∃ d ∈ h.doubled, d.1 < hi ∧ lo < d.2) ∨ ∀ c ∈ bs, hi ≤ c.lo ∨ c.hi ≤ lo

/-- A request for `size` bytes, and the answer to it. -/
def Heap.Answers (h : Heap) (size : Nat) (fresh : List Nat) (ans : Option Answer) : Prop :=
  size < 2 ^ 64 ∧ (∀ base ∈ fresh, base + slabPageSize ≤ 2 ^ 64) ∧
    ∀ a ∈ ans, a.Honest h.cfg (h.refill (h.cfg.chargeOf size) fresh).pages (h.cfg.chargeOf size) ∧
      h.Spare a.lo a.hi h.live

def Heap.pre (h : Heap) : HeapAct → Prop
  | .alloc size fresh ans _ => h.Answers size fresh ans
  | .free b _ => b ∈ h.live
  | .realloc b newSize grow fresh ans _ =>
    b ∈ h.live ∧ h.Answers newSize fresh ans ∧ ∀ g ∈ grow, h.Spare b.lo g.hi (h.live.erase b)
  | .write b i _ => b ∈ h.live ∧ i < b.requested
  | .reset _ left _ => ∀ d ∈ left, d ∈ h.freed
  | .reparseEnvFlags _ => True

/-- No size that a tier computes for `n` bytes wraps, and a slab request has a class, of
which a page has a slot. -/
def Config.Serves (c : Config) (n : Nat) : Prop :=
  n + headerSize + c.canaryLen < 2 ^ 64 ∧
    (c.tierOf n = .slab → c.classIndex n < classCount ∧ c.HasSlot (c.classIndex n)) ∧
    (c.tierOf n = .tlsf → 32 + headerSize + n + c.canaryLen + 7 < 2 ^ 64) ∧
    (c.tierOf n = .os → c.OsPlain n)

/-- ... nor does one that a request for `size` bytes is computed with. -/
def Config.Sane (c : Config) (size : Nat) : Prop :=
  (c.cacheAligned = true → size + 64 + headerSize + c.canaryLen < 2 ^ 64) ∧
  c.Serves (c.chargeOf size)

/-- A resize in place stays inside the block, with its canary. -/
def Config.Leaves (c : Config) (b : Marked) (newSize hi : Nat) : Prop :=
  b.ptr + newSize + c.canaryLen ≤ hi

/-- The canary is switched on before the pool has a live block or a page without room
for it, sizes do not wrap, resizing in place leaves room for the canary, and `mp_reset` finds
every free block. -/
def Careful (h : Heap) : HeapAct → Prop
  | .alloc size _ _ _ => h.cfg.Sane size
  | .realloc b newSize grow _ _ _ =>
    newSize ≠ 0 →
      if newSize ≤ b.usable then h.cfg.Leaves b newSize b.hi
      else
        match (if b.tier = .tlsf then grow else none) with
        | some g => h.cfg.Leaves b newSize g.hi
        | none => h.cfg.Sane newSize
  | .reset _ left _ => left = []
  | .reparseEnvFlags env =>
    h.cfg.canary = false → (mpParseEnvFlags h.cfg env).canary = true →
      h.live = [] ∧ ∀ p ∈ h.pages, (mpParseEnvFlags h.cfg env).Keeps p
  | _ => True

section Decidable
variable (c : Config) (pages : List Page) (n : Nat) (a : Answer) (h : Heap)

instance decOsPlain : Decidable (c.OsPlain n) := by unfold Config.OsPlain; exact inferInstance
instance decServes : Decidable (c.Serves n) := by unfold Config.Serves; exact inferInstance
instance decSane : Decidable (c.Sane n) := by unfold Config.Sane; exact inferInstance
instance decLeaves (b : Marked) (newSize hi : Nat) : Decidable (c.Leaves b newSize hi) := by
  unfold Config.Leaves; exact inferInstance

instance decHonest : Decidable (a.Honest c pages n) :=
  decidable_of_iff
    (a.hi ≤ 2 ^ 64 ∧ (a.tier = .emergency ∨ a.tier = c.tierOf n) ∧
      (a.tier = .slab → a.ptr = a.lo + headerSize ∧
        ∃ p ∈ pages, p.base = a.page ∧ p.cls = c.classIndex n ∧ a.hi = a.lo + p.stride) ∧
      (a.tier = .tlsf → a.ptr = a.lo + (32 + headerSize) ∧ a.lo + c.tlsfTotal n ≤ a.hi) ∧
      (a.tier = .os →
        a.ptr = a.lo + headerSize ∧ (c.OsPlain n → a.lo + (n + headerSize + c.canaryLen) ≤ a.hi)) ∧
      (a.tier = .emergency → a.ptr = a.lo + headerSize ∧ a.hi = a.lo + c.emergencySize ∧
        wrap (n + headerSize + c.canaryLen) ≤ c.emergencySize))
    ⟨fun ⟨h1, h2, h3, h4, h5, h6⟩ => ⟨h1, h2, h3, h4, h5, h6⟩,
      fun ⟨h1, h2, h3, h4, h5, h6⟩ => ⟨h1, h2, h3, h4, h5, h6⟩⟩

instance decSpare (lo hi : Nat) (bs : List Marked) : Decidable (h.Spare lo hi bs) := by
  unfold Heap.Spare; exact inferInstance

instance decAnswers (fresh : List Nat) (ans : Option Answer) :
    Decidable (h.Answers n fresh ans) := by
  unfold Heap.Answers; exact inferInstance

instance decHeapPre : (l : HeapAct) → Decidable (h.pre l)
  | .alloc size fresh ans _ => decAnswers size h fresh ans
  | .free b _ => inferInstanceAs (Decidable (b ∈ h.live))
  | .realloc b newSize grow fresh ans _ =>
    inferInstanceAs (Decidable (b ∈ h.live ∧ h.Answers newSize fresh ans ∧
      ∀ g ∈ grow, h.Spare b.lo g.hi (h.live.erase b)))
  | .write b i _ => inferInstanceAs (Decidable (b ∈ h.live ∧ i < b.requested))
  | .reset _ left _ => inferInstanceAs (Decidable (∀ d ∈ left, d ∈ h.freed))
  | .reparseEnvFlags _ => .isTrue trivial

instance decCareful : (l : HeapAct) → Decidable (Careful h l)
  | .alloc size _ _ _ => decSane h.cfg size
  | .realloc b newSize grow _ _ _ =>
    have : Decidable (match (if b.tier = .tlsf then grow else none) with
        | some g => h.cfg.Leaves b newSize g.hi
        | none => h.cfg.Sane newSize) :=
      match (if b.tier = .tlsf then grow else none) with
      | some g => decLeaves h.cfg b newSize g.hi
      | none => decSane h.cfg newSize
    inferInstanceAs (Decidable (newSize ≠ 0 →
      if newSize ≤ b.usable then h.cfg.Leaves b newSize b.hi else _))
  | .reset _ left _ => inferInstanceAs (Decidable (left = []))
  | .reparseEnvFlags env =>
    inferInstanceAs (Decidable (h.cfg.canary = false → (mpParseEnvFlags h.cfg env).canary = true →
      h.live = [] ∧ ∀ p ∈ h.pages, (mpParseEnvFlags h.cfg env).Keeps p))
  | .free .. | .write .. => .isTrue trivial

end Decidable

/-- The store lies in its block. -/
def Store.Inside (w : Store) : Prop := w.lo ≤ w.addr ∧ w.addr < w.hi

/-- Every canary byte is stored in its block, no intact block is reported, and
`mp_reset` links only slots inside their page. -/
structure Heap.Sound (h : Heap) : Prop where
  stores : ∀ w ∈ h.stores, w.Inside
  reports : h.reports = []
  links : ∀ p ∈ h.pages, h.cfg.LinksInside p

/-! ## The invariant -/

/-- Two blocks do not meet. -/
def Marked.Apart (b c : Marked) : Prop := b.hi ≤ c.lo ∨ c.hi ≤ b.lo

theorem Marked.Apart.symm {b c : Marked} (h : b.Apart c) : c.Apart b := Or.symm h

/-- The payload and the canary lie in the block, behind its header. -/
structure Marked.Roomy (len : Nat) (b : Marked) : Prop where
  base : b.lo ≤ b.ptr
  room : b.ptr + b.requested + len ≤ b.hi

structure Heap.Inv (h : Heap) : Prop where
  full : h.cfg.Full
  laid : ∀ p ∈ h.pages, Laid h.cfg p
  roomy : ∀ b ∈ h.live, b.Roomy h.cfg.canaryLen
  apart : h.live.Pairwise Marked.Apart
  once : h.doubled = []
  stamped : h.cfg.canary = true → ∀ b ∈ h.live, h.mem (b.ptr + b.requested) = canaryByte
  stores : ∀ w ∈ h.stores, w.Inside
  reports : h.reports = []

theorem Heap.Inv.sound {h : Heap} (hi : h.Inv) : h.Sound :=
  ⟨hi.stores, hi.reports, fun p hp => (hi.laid p hp).linksInside⟩

section Room
variable {c : Config} {pages : List Page} {size : Nat} {a : Answer}

theorem canaryLen_on (h : c.canary = true) : c.canaryLen = 1 := if_pos h

/-- The block has room for the bytes charged and the canary. -/
theorem Answer.Honest.room (h : a.Honest c pages (c.chargeOf size)) (hs : c.Sane size) (hf : c.Full)
    (hl : ∀ p ∈ pages, Laid c p) :
    a.lo ≤ a.ptr ∧ a.ptr + (c.chargeOf size + c.canaryLen) ≤ a.hi := by
  obtain ⟨-, hplain, hslab, htlsf, hos⟩ := hs
  rcases h.tier with he | he
  · obtain ⟨h1, h2, h3⟩ := h.emergency he
    rw [wrap, Nat.mod_eq_of_lt (by omega)] at h3
    omega
  · cases ht : c.tierOf (c.chargeOf size) with
    | slab =>
      rw [ht] at he
      obtain ⟨h1, p, hp, -, hcls, h2⟩ := h.slab he
      obtain ⟨hlt, hcp, -⟩ := hslab ht
      have h3 := classIndex_spec hf hlt
      have h4 := extent_le hcp
      have h5 := (hl p hp).keeps.2
      rw [hcls] at h5
      omega
    | tlsf =>
      rw [ht] at he
      obtain ⟨h1, h2⟩ := h.tlsf he
      have h3 :
        32 + headerSize + c.chargeOf size + c.canaryLen ≤ c.tlsfTotal (c.chargeOf size) := by
        unfold Config.tlsfTotal wrap
        rw [Nat.mod_eq_of_lt (htlsf ht)]
        omega
      omega
    | os =>
      rw [ht] at he
      obtain ⟨h1, h2⟩ := h.os he
      have := h2 (hos ht)
      omega
    | emergency => exact absurd ht (by unfold Config.tierOf; split <;> [decide; split <;> decide])

/-- An aligned payload lies in the memory that was charged for it. -/
theorem alignUp_room {ptr hi : Nat} (hroom : ptr + (size + 64 + headerSize) ≤ hi)
    (hhi : hi ≤ 2 ^ 64) : ptr ≤ alignUp ptr 64 ∧ alignUp ptr 64 + size < hi := by
  unfold alignUp wrap headerSize at *
  rw [Nat.mod_eq_of_lt (by omega)]
  omega

end Room

section Step
variable {h : Heap} {b : Marked} {size : Nat} {fresh : List Nat} {ans : Option Answer}
  {junk : Bytes}

@[simp] theorem stamp_cfg (h : Heap) (b : Marked) : (h.stamp b).cfg = h.cfg := by
  unfold Heap.stamp; split <;> rfl
@[simp] theorem stamp_pages (h : Heap) (b : Marked) : (h.stamp b).pages = h.pages := by
  unfold Heap.stamp; split <;> rfl
@[simp] theorem stamp_live (h : Heap) (b : Marked) : (h.stamp b).live = h.live := by
  unfold Heap.stamp; split <;> rfl
@[simp] theorem stamp_doubled (h : Heap) (b : Marked) : (h.stamp b).doubled = h.doubled := by
  unfold Heap.stamp; split <;> rfl
@[simp] theorem stamp_reports (h : Heap) (b : Marked) : (h.stamp b).reports = h.reports := by
  unfold Heap.stamp; split <;> rfl

theorem stamp_mem (hc : h.cfg.canary = true) :
    (h.stamp b).mem (b.ptr + b.requested) = canaryByte := by
  unfold Heap.stamp
  rw [if_pos hc]
  exact Function.update_self ..

theorem stamp_mem_ne {i : Nat} (hi : i ≠ b.ptr + b.requested) : (h.stamp b).mem i = h.mem i := by
  unfold Heap.stamp
  split
  · exact Function.update_of_ne hi ..
  · rfl

/-- The byte behind the payload is in the block while canaries are on. -/
theorem Marked.Roomy.lt (hb : b.Roomy h.cfg.canaryLen) (hc : h.cfg.canary = true) :
    b.ptr + b.requested < b.hi := by
  have h1 := hb.room
  rw [canaryLen_on hc] at h1
  exact h1

/-- A store into one block leaves the canaries of the others alone. -/
theorem Marked.Roomy.ne {c : Marked} (hb : b.Roomy h.cfg.canaryLen) (hc : c.Roomy h.cfg.canaryLen)
    (ha : b.Apart c) (hon : h.cfg.canary = true) {i : Nat} (hi : i ≤ b.requested) :
    c.ptr + c.requested ≠ b.ptr + i := by
  have h1 := hb.lt hon
  have h2 := hc.lt hon
  have h3 := hb.base
  have h4 := hc.base
  unfold Marked.Apart at ha
  omega

/-- A block that is stamped joins blocks that were live. -/
theorem Heap.Inv.stampAdd (hi : h.Inv) {bs : List Marked} {freed : List (Nat × Nat)}
    (hbs : ∀ c ∈ bs, c ∈ h.live) (hap : (b :: bs).Pairwise Marked.Apart)
    (hb : b.Roomy h.cfg.canaryLen) :
    Heap.Inv { h.stamp b with live := b :: bs, freed := freed } where
  full := by rw [stamp_cfg]; exact hi.full
  laid := by rw [stamp_cfg, stamp_pages]; exact hi.laid
  roomy c hc := by
    rw [stamp_cfg]
    rcases List.mem_cons.mp hc with rfl | hc
    · exact hb
    · exact hi.roomy c (hbs c hc)
  apart := hap
  once := by rw [stamp_doubled]; exact hi.once
  stamped hon c hc := by
    rw [stamp_cfg] at hon
    rcases List.mem_cons.mp hc with rfl | hc
    · exact stamp_mem hon
    · have hne :=
        hb.ne (hi.roomy c (hbs c hc)) (List.rel_of_pairwise_cons hap hc) hon (Nat.le_refl _)
      exact (stamp_mem_ne hne).trans (hi.stamped hon c (hbs c hc))
  stores w hw := by
    dsimp only at hw
    unfold Heap.stamp at hw
    split at hw
    · rename_i hon
      rcases List.mem_cons.mp hw with rfl | hw
      · exact ⟨Nat.le_add_right_of_le hb.base, hb.lt hon⟩
      · exact hi.stores w hw
    · exact hi.stores w hw
  reports := by rw [stamp_reports]; exact hi.reports

/-- What the pool writes does not reach a canary. -/
theorem Heap.Inv.havoc (hi : h.Inv) (junk : Bytes) : (h.havoc junk).Inv where
  full := hi.full
  laid := hi.laid
  roomy := hi.roomy
  apart := hi.apart
  once := hi.once
  stamped hon b hb := by
    have hin :
      h.live.any (fun c => c.ptr ≤ b.ptr + b.requested && b.ptr + b.requested < c.hi) = true :=
      List.any_eq_true.mpr ⟨b, hb, by simpa using (hi.roomy b hb).lt hon⟩
    exact (if_pos hin).trans (hi.stamped hon b hb)
  stores := hi.stores
  reports := hi.reports

/-- Fewer blocks are live. -/
theorem Heap.Inv.sublist (hi : h.Inv) {bs : List Marked} (hs : bs.Sublist h.live)
    {freed : List (Nat × Nat)} {dirty : Bool} :
    Heap.Inv { h with live := bs, freed := freed, isDirty := dirty } :=
  ⟨hi.full, hi.laid, fun b hb => hi.roomy b (hs.subset hb), hi.apart.sublist hs, hi.once,
    fun hon b hb => hi.stamped hon b (hs.subset hb), hi.stores, hi.reports⟩

theorem refill_cfg (h : Heap) (n : Nat) (fresh : List Nat) : (h.refill n fresh).cfg = h.cfg := by
  unfold Heap.refill
  split <;> rfl

theorem refill_live (h : Heap) (n : Nat) (fresh : List Nat) : (h.refill n fresh).live = h.live := by
  unfold Heap.refill
  split <;> rfl

theorem Heap.Inv.refill (hi : h.Inv) (hs : h.cfg.Sane size)
    (hf : ∀ base ∈ fresh, base + slabPageSize ≤ 2 ^ 64) :
    (h.refill (h.cfg.chargeOf size) fresh).Inv := by
  unfold Heap.refill
  split
  · rename_i ht
    obtain ⟨-, hcp⟩ := hs.2.2.1 ht
    refine { hi with laid := fun p hm => ?_ }
    rcases List.mem_append.mp hm with hm | hm
    · obtain ⟨base, hb, rfl⟩ := List.mem_map.mp hm
      exact slabCreatePage_laid hcp (hf base hb)
    · exact hi.laid p hm
  · exact hi

/-- Nothing is free twice. -/
theorem Heap.Inv.spare (hi : h.Inv) {lo top : Nat} {bs : List Marked} (hs : h.Spare lo top bs) :
    ∀ c ∈ bs, top ≤ c.lo ∨ c.hi ≤ lo := by
  rcases hs with ⟨d, hd, -⟩ | hs
  · rw [hi.once] at hd
    cases hd
  · exact hs

/-- `mp_alloc` behind the refill: the block is stamped as the tier gave it, and again
where it is moved. -/
theorem Heap.Inv.place (hi : h.Inv) {a : Answer} (ha : a.Honest h.cfg h.pages (h.cfg.chargeOf size))
    (hspare : h.Spare a.lo a.hi h.live) (hs : h.cfg.Sane size) (u : Nat) :
    let b : Marked := ⟨a.ptr, a.lo, a.hi, a.tier, h.cfg.chargeOf size, u⟩
    let b' : Marked := { b with ptr := alignUp b.ptr 64, requested := size }
    ((h.stamp b).add b).Inv ∧
    (h.cfg.cacheAligned = true → (((h.stamp b).stamp b').add b').Inv) := by
  intro b b'
  obtain ⟨hlo, hroom⟩ := ha.room hs hi.full hi.laid
  have hap : ∀ c ∈ h.live, b.Apart c := hi.spare hspare
  have hb : b.Roomy h.cfg.canaryLen := ⟨hlo, by show a.ptr + h.cfg.chargeOf size + _ ≤ a.hi; omega⟩
  have hfirst : Heap.Inv { h.stamp b with live := b :: h.live } :=
    hi.stampAdd (fun _ hc => hc) (List.pairwise_cons.mpr ⟨hap, hi.apart⟩) hb
  constructor
  · unfold Heap.add
    rw [stamp_live]
    exact hfirst.sublist (List.Sublist.refl _)
  · intro hal
    have hn : h.cfg.chargeOf size = size + 64 + headerSize + h.cfg.canaryLen := by
      unfold Config.chargeOf
      rw [if_pos hal, wrap, Nat.mod_eq_of_lt (hs.1 hal)]
    obtain ⟨h1, h2⟩ := alignUp_room (show a.ptr + (size + 64 + headerSize) ≤ a.hi by omega) ha.space
    have hcan : h.cfg.canaryLen ≤ 1 := by
      unfold Config.canaryLen
      split <;> omega
    have hb' : b'.Roomy h.cfg.canaryLen := by
      refine ⟨?_, ?_⟩
      · show a.lo ≤ alignUp a.ptr 64
        omega
      · show alignUp a.ptr 64 + size + _ ≤ a.hi
        omega
    have hone : Heap.Inv (h.stamp b) := by
      have hsame : ({ h.stamp b with live := h.live } : Heap) = h.stamp b := by
        rw [← stamp_live h b]
      rw [← hsame]
      exact hfirst.sublist (List.sublist_cons_self b h.live)
    unfold Heap.add
    rw [stamp_live, stamp_live]
    exact hone.stampAdd (fun c hc => by rwa [stamp_live]) (List.pairwise_cons.mpr ⟨hap, hi.apart⟩)
      (by rwa [stamp_cfg])

theorem Heap.Inv.alloc (hi : h.Inv) (ha : h.Answers size fresh ans) (hs : h.cfg.Sane size)
    (junk : Bytes) : (h.alloc size fresh ans junk).1.Inv := by
  obtain ⟨-, hspace, hans⟩ := ha
  have hr := (hi.refill hs hspace).havoc junk
  have hcfg : ((h.refill (h.cfg.chargeOf size) fresh).havoc junk).cfg = h.cfg := refill_cfg ..
  have hlive : ((h.refill (h.cfg.chargeOf size) fresh).havoc junk).live = h.live := refill_live ..
  unfold Heap.alloc
  split
  · exact hi
  · cases ans with
    | none => exact hr
    | some a =>
      obtain ⟨hh, hspare⟩ := hans a rfl
      rw [← hcfg] at hs
      have hspare : ((h.refill (h.cfg.chargeOf size) fresh).havoc junk).Spare a.lo a.hi
          ((h.refill (h.cfg.chargeOf size) fresh).havoc junk).live :=
        .inr (by rw [hlive]; exact hi.spare hspare)
      obtain ⟨hplain, haligned⟩ := hr.place (a := a) (by rw [hcfg]; exact hh) hspare hs
        (h.cfg.usableOf (h.cfg.chargeOf size) a.tier)
      simp only [hcfg] at hplain haligned
      simp only [stamp_cfg, hcfg]
      split
      · exact haligned ‹_›
      · exact hplain

theorem Heap.Inv.free (hi : h.Inv) (hb : b ∈ h.live) (junk : Bytes) : (h.free b junk).Inv := by
  have hno : ¬ h.Damaged b := fun ⟨hc, hne⟩ => hne (hi.stamped hc b hb)
  unfold Heap.free
  rw [if_neg hno]
  exact Heap.Inv.havoc (hi.sublist List.erase_sublist) junk

/-- An allocation leaves the live blocks live. -/
theorem mem_alloc (hb : b ∈ h.live) (junk : Bytes) : b ∈ (h.alloc size fresh ans junk).1.live := by
  have hr : b ∈ ((h.refill (h.cfg.chargeOf size) fresh).havoc junk).live := by
    show b ∈ (h.refill (h.cfg.chargeOf size) fresh).live
    rwa [refill_live]
  unfold Heap.alloc
  split
  · exact hb
  · cases ans with
    | none => exact hr
    | some a =>
      dsimp only
      split <;> simp only [Heap.add, stamp_live] <;> exact List.mem_cons_of_mem _ hr

/-- A resize in place. -/
theorem Heap.Inv.resize (hi : h.Inv) (hb : b ∈ h.live) {b' : Marked} (hlo : b'.lo = b.lo)
    (hptr : b'.ptr = b.ptr) (hap : ∀ c ∈ h.live.erase b, b'.hi ≤ c.lo ∨ c.hi ≤ b'.lo)
    (hroom : b'.ptr + b'.requested + h.cfg.canaryLen ≤ b'.hi) : (h.resize b b').Inv := by
  refine hi.stampAdd (fun c hc => List.mem_of_mem_erase hc) (List.pairwise_cons.mpr ⟨hap, ?_⟩)
    ⟨?_, hroom⟩
  · exact hi.apart.sublist List.erase_sublist
  · have := (hi.roomy b hb).base
    omega

/-- The other blocks are apart from a live one. -/
theorem Heap.Inv.others (hi : h.Inv) (hb : b ∈ h.live) : ∀ c ∈ h.live.erase b, b.Apart c := by
  have := (List.perm_cons_erase hb).pairwise hi.apart fun hbc => hbc.symm
  exact (List.pairwise_cons.mp this).1

theorem Heap.Inv.realloc (hi : h.Inv) {newSize : Nat} {grow : Option Grown}
    (hp : h.pre (.realloc b newSize grow fresh ans junk))
    (hc : Careful h (.realloc b newSize grow fresh ans junk)) :
    (h.realloc b newSize grow fresh ans junk).Inv := by
  obtain ⟨hb, ha, hgrow⟩ := hp
  unfold Heap.realloc
  split
  · exact hi.free hb junk
  · rename_i hne
    have hc := hc hne
    split
    · rename_i hle
      rw [if_pos hle] at hc
      exact hi.resize hb rfl rfl (hi.others hb) hc
    · rename_i hgt
      rw [if_neg hgt] at hc
      cases hg : (if b.tier = .tlsf then grow else none) with
      | some g =>
        rw [hg] at hc
        have hg : grow = some g := by
          split at hg
          · exact hg
          · cases hg
        exact (hi.havoc junk).resize hb rfl rfl (hi.spare (hgrow g hg)) hc
      | none =>
        -- the new block, and then the old one goes
        rw [hg] at hc
        have hn := hi.alloc ha hc junk
        dsimp only
        split
        · exact hn.free (mem_alloc hb junk) junk
        · exact hn

/-- A user stays in the payload. -/
theorem Heap.Inv.write (hi : h.Inv) (hb : b ∈ h.live) {i : Nat} (hlt : i < b.requested)
    (v : UInt8) : Heap.Inv { h with mem := Function.update h.mem (b.ptr + i) v } := by
  refine { hi with stamped := fun hon c hc => ?_ }
  have hne : c.ptr + c.requested ≠ b.ptr + i := by
    by_cases e : c = b
    · subst e
      omega
    · have hc' : c ∈ h.live.erase b := (List.mem_erase_of_ne e).mpr hc
      exact (hi.roomy b hb).ne (hi.roomy c hc) (hi.others hb c hc') hon (by omega)
  exact (Function.update_of_ne hne ..).trans (hi.stamped hon c hc)

theorem Heap.Inv.reset (hi : h.Inv) (idle : List Nat) (junk : Bytes) :
    (h.reset idle [] junk).Inv := by
  refine ⟨hi.full, fun p hm => ?_, nofun, .nil, hi.once, fun _ => nofun, hi.stores, hi.reports⟩
  obtain ⟨p, hp, rfl⟩ := List.mem_map.mp hm
  split
  · exact hi.laid p hp
  · exact (hi.laid p hp).relay

end Step

section Reparse
variable {h : Heap} {env : Option String}

theorem mpParseEnvFlags_classes (c : Config) (env : Option String) :
    (mpParseEnvFlags c env).customClasses = c.customClasses := by cases env <;> rfl

/-- No flag is cleared. -/
theorem mpParseEnvFlags_canary {c : Config} (h : c.canary = true) :
    (mpParseEnvFlags c env).canary = true := by
  cases env with
  | none => exact h
  | some env => simp [mpParseEnvFlags, h]

/-- The layout of a page is that of the class table and the canary flag. -/
theorem Config.Keeps.congr {c c' : Config} {p : Page} (h : c.Keeps p)
    (hs : c'.customClasses = c.customClasses) (hc : c'.canary = c.canary) : c'.Keeps p := by
  unfold Config.Keeps Config.Plain Config.slotTotal Config.classSize Config.canaryLen at *
  rwa [hs, hc]

theorem Heap.Inv.reparse (hi : h.Inv) (hc : Careful h (.reparseEnvFlags env)) :
    Heap.Inv { h with cfg := mpParseEnvFlags h.cfg env } := by
  have hs := mpParseEnvFlags_classes h.cfg env
  have hfull : (mpParseEnvFlags h.cfg env).Full := fun l hl => hi.full l (hs ▸ hl)
  by_cases hsame : (mpParseEnvFlags h.cfg env).canary = h.cfg.canary
  · have hlen : (mpParseEnvFlags h.cfg env).canaryLen = h.cfg.canaryLen := by
      unfold Config.canaryLen
      rw [hsame]
    refine { hi with full := hfull, laid := fun p hp => ?_, roomy := fun b hb => ?_,
                     stamped := fun hon => ?_ }
    · exact { hi.laid p hp with keeps := (hi.laid p hp).keeps.congr hs hsame }
    · rw [hlen]
      exact hi.roomy b hb
    · exact hi.stamped (hsame ▸ hon)
  · -- switched on: no block is live, and every page has the room
    cases hoff : h.cfg.canary with
    | true => exact absurd ((mpParseEnvFlags_canary hoff).trans hoff.symm) hsame
    | false =>
      have hon : (mpParseEnvFlags h.cfg env).canary = true := by simpa [hoff] using hsame
      obtain ⟨hnone, hkeep⟩ := hc hoff hon
      have hno : ∀ b, b ∉ h.live := fun b hb => by
        rw [show h.live = [] from hnone] at hb
        cases hb
      exact { hi with
        full := hfull
        laid := fun p hp => { hi.laid p hp with keeps := hkeep p hp }
        roomy := fun b hb => absurd hb (hno b)
        stamped := fun _ b hb => absurd hb (hno b) }

end Reparse

/-! ## Runs -/

end Cmem.L3.Pool

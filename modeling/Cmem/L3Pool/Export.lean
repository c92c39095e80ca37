import Cmem.L1Layout.Snapshot
import Cmem.L3Pool.Fast
import Cmem.L3Pool.Backing

/-!
# What a snapshot says of a pool

The active list of a pool beside its memory (`Cmem.L3Pool.Backing`), with the place in the
source that each block was allocated at, and the snapshot that
`mp_export_binary_snapshot` writes of it (`Cmem.L1Layout.Snapshot`). To the steps of
`Backing` come the batches and `mp_reset`.

A header that is resized keeps its place in the active list, one that is allocated goes in
front. The header of the file has the atomic `total_pool_size`, which is not told of the
arenas of `mp_create` and `mp_expand_pool`; `snapshot_round_trip_iff` says when that matters.

The links of the list lie in the headers, which are private here. A block that is handed out
twice, a page that goes with a slot of it, an arena of a size that TLSF has no class for, and a
canary behind its block all change them: `Careful` are the runs without.
-/
namespace Cmem.L3.Pool

open L1.Snapshot (CString Entry Image RoundTrip)
open Backing (Supply)

/-! ## Batches and resets of the memory of a pool -/

namespace Backing

/-- A batch asks its tier for one element after the other, src/src/cmem_alloc.c:748-932. -/
def allocBatch (t : Backing) (size count : Nat) (as : List (Option Place))
    (sups : List Supply) : Backing :=
  let w := t.pool.route
  let charge := (t.cfg w).chargeOf size
  let t' := if count ≠ 0 ∧ size ≠ 0 ∧ Tiers.reaches t.pool w charge = true
    then sups.foldl (fun t sup => t.serve w charge sup) t else t
  t'.enter w charge (mpAllocBatch t.pool size count as).1

/-- mirrors `flush_slab_block`, src/src/cmem_alloc.c:1024-1097; with each block goes the
slot that finds no place in a cache -/
def flushSlabBlock (t : Backing) (hdrs : List (Block × Option (Nat × Nat))) : Backing :=
  { t with pool := Pool.flushSlabBlock t.pool (hdrs.map Prod.fst) }.onHold .master fun h =>
    { h with pages := (hdrs.filterMap Prod.snd).foldl PageLists.give h.pages }

/-- The pages of a class after `mp_reset`, src/src/cmem_lifecycle.c:149-186: all slots are
linked, also those that are somewhere else. -/
def resetPages (s : PageLists) : PageLists :=
  ⟨(s.fulls.reverse ++ s.partials).map fun p => { p with free := p.total, since := 0 }, [],
    s.empties⟩

/-- mirrors `mp_reset`, src/src/cmem_lifecycle.c:127-212, of one pool: the caches give
their slots back, the arena of the thread is retired, and no block is live any more. The
regions stay. -/
def resetPool (t : Backing) (w : Who) (gives : List (Nat × Nat)) : Backing :=
  let t := t.onHold w fun h => { h with pages := gives.foldl PageLists.give h.pages }
  let t :=
    ((t.hold w).arenas.filter fun a => !a.retired).foldl
      (fun t a => t.tlsfArenaRetire w a.region.base) t
  let p := t.pool.pool w
  let s := t.pool.set w { p with activeBytes := 0, activeAllocations := 0, osAllocatedBytes := 0 }
  { t with pool := { s with live := s.live.filter fun b => b.owner ≠ w } }.onHold w fun h =>
    { h with pages := resetPages h.pages }

/-- A pool is reset with its child. -/
def mpReset (t : Backing) (w : Who) (gives childGives : List (Nat × Nat)) : Backing :=
  if w = .master ∧ t.pool.arenas = true then (t.resetPool .child childGives).resetPool .master gives
  else t.resetPool w gives

end Backing

/-! ## The active list -/

/-- `alloc_line`, `alloc_file` and `alloc_func` of a header. -/
structure Site where
  line : Nat
  file : Option CString
  func : Option CString

/-- The functions without `_loc` leave the place out. -/
def Site.untracked : Site := ⟨0, none, none⟩

/-- A header in the active list. -/
structure Listed where
  block : Block
  site : Site

/-- `mp_alloc_type_t` -/
def Tier.code : Tier → Nat
  | .slab => 1
  | .tlsf => 2
  | .os => 3
  | .emergency => 4

/-- mirrors the loop of `mp_export_binary_snapshot`, src/src/cmem_diag.c:433-451 -/
def Listed.entry (h : Listed) : Entry :=
  ⟨h.block.ptr, h.block.requested, h.block.tier.code, h.site.line, h.site.file, h.site.func⟩

/-- The first header of block `b` is now that of `b'`. -/
def restamp (b b' : Block) (site : Option Site) : List Listed → List Listed
  | [] => []
  | h :: l => if h.block = b then ⟨b', site.getD h.site⟩ :: l else h :: restamp b b' site l

/-- `Grown` in the header: `requested_size` and `usable_size`. -/
def Block.resized (b : Block) (newSize : Nat) (grow : Option Grown) : Block :=
  if newSize ≤ b.usable then { b with requested := newSize }
  else
    match grow with
    | some g => { b with requested := newSize, usable := g.usable, hi := g.hi }
    | none => b

structure Export where
  back : Backing
  active : Who → List Listed

namespace Export

/-- What the writer reads. -/
def image (x : Export) (w : Who) : Image :=
  ⟨(x.back.hold w).total, (x.back.pool.pool w).activeBytes, (x.back.pool.pool w).activeAllocations,
    (x.active w).map Listed.entry⟩

/-- The blocks in front of the live ones of `s'` that are not in `s`. -/
def fresh (s s' : State) : List Block := s'.live.take (s'.live.length - s.live.length)

/-- mirrors `active_list_add`, src/src/cmem_lifecycle.c:478-486, for the blocks of one call,
the last of them first -/
def activeListAdd (x : Export) (bs : List Block) (site : Site) : Who → List Listed := fun w =>
  if (x.back.cfg w).fastPath then x.active w
  else ((bs.filter fun b => b.owner = w).map fun b => ⟨b, site⟩) ++ x.active w

/-- mirrors `active_list_remove`, src/src/cmem_lifecycle.c:493-509 -/
def activeListRemove (active : Who → List Listed) (b : Block) : Who → List Listed :=
  Function.update active (b.home .master) ((active (b.home .master)).eraseP fun h => h.block = b)

def enlist (x : Export) (back : Backing) (site : Option Site) : Export :=
  ⟨back, x.activeListAdd (fresh x.back.pool back.pool) (site.getD .untracked)⟩

def alloc (x : Export) (size : Nat) (ans : Option Place) (sup : Supply)
    (site : Option Site) : Export :=
  x.enlist (x.back.alloc size ans sup) site

def alignedAlloc (x : Export) (alignment size : Nat) (ans : Option Place) (sup : Supply) : Export :=
  x.enlist (x.back.alignedAlloc alignment size ans sup) .none

def allocBatch (x : Export) (size count : Nat) (as : List (Option Place))
    (sups : List Supply) : Export :=
  x.enlist (x.back.allocBatch size count as sups) .none

def release (x : Export) (b : Block) (intact : Bool) (back : Option (Nat × Nat)) : Export :=
  ⟨x.back.release b intact back, activeListRemove x.active b⟩

def free (x : Export) (ptr : Nat) (intact : Bool) (back : Option (Nat × Nat)) : Export :=
  if ptr = 0 then x
  else
    match x.back.pool.find ptr with
    | none => x
    | some b => x.release b intact back

def flush (x : Export) (hdrs : List (Block × Option (Nat × Nat))) : Export :=
  ⟨x.back.flushSlabBlock hdrs, (hdrs.map Prod.fst).foldl activeListRemove x.active⟩

/-- mirrors `mp_free_batch`, src/src/cmem_alloc.c:1105-1148 -/
def freeBatch : List (Nat × Bool × Option (Nat × Nat)) → List (Block × Option (Nat × Nat)) →
  Export → Export
  | [], hdrs, x => x.flush hdrs
  | (ptr, intact, back) :: ptrs, hdrs, x =>
    if ptr = 0 then freeBatch ptrs hdrs x
    else
      match x.back.pool.find ptr with
      | none => freeBatch ptrs hdrs x
      | some b =>
        if b.batchable then
          if hdrs.length + 1 = 256 then freeBatch ptrs [] (x.flush (hdrs ++ [(b, back)]))
          else freeBatch ptrs (hdrs ++ [(b, back)]) x
        else freeBatch ptrs hdrs (x.release b intact back)

/-- mirrors `mp_realloc` and `mp_realloc_loc`, src/src/cmem_alloc.c:1420-1545 and
src/src/cmem.c:456-487 -/
def realloc (x : Export) (ptr newSize : Nat) (grow : Option Grown) (ans : Option Place)
    (intact : Bool) (sup : Supply) (back : Option (Nat × Nat)) (site : Option Site) : Export :=
  if ptr = 0 then x.alloc newSize ans sup site
  else if newSize = 0 then x.free ptr intact back
  else
    match x.back.pool.find ptr with
    | none => x
    | some b =>
      if b.usable < newSize ∧ (if b.tier = .tlsf then grow else none).isNone then
        if (mpAlloc x.back.pool newSize ans).2.isSome then
          (x.alloc newSize ans sup site).release b intact back
        else x.alloc newSize ans sup site
      else
        ⟨x.back.realloc ptr newSize grow ans intact sup back, Function.update x.active b.owner
          (restamp b (b.resized newSize (if b.tier = .tlsf then grow else none)) site
            (x.active b.owner))⟩

/-- mirrors `mp_reset`, src/src/cmem_lifecycle.c:127-212 -/
def mpReset (x : Export) (w : Who) (gives childGives : List (Nat × Nat)) : Export :=
  ⟨x.back.mpReset w gives childGives, fun v =>
    if v = w ∨ w = .master ∧ x.back.pool.arenas = true then [] else x.active v⟩

/-! ## Runs -/

/-- A reset comes with the slots that it does not find, in a `remote_free_queue` or in the
cache of another thread: they stay there, and are on the list of their page as well. -/
inductive Act where
  | alloc (size : Nat) (ans : Option Place) (sup : Supply) (site : Option Site)
  | alignedAlloc (alignment size : Nat) (ans : Option Place) (sup : Supply)
  | allocBatch (size count : Nat) (as : List (Option Place)) (sups : List Supply)
  | realloc (ptr newSize : Nat) (grow : Option Grown) (ans : Option Place) (intact : Bool)
      (sup : Supply)
      (back : Option (Nat × Nat)) (site : Option Site)
  | free (ptr : Nat) (intact : Bool) (back : Option (Nat × Nat))
  | freeBatch (ptrs : List (Nat × Bool × Option (Nat × Nat)))
  | reset (w : Who) (gives childGives : List (Nat × Nat)) (left : List Nat)
  | create (capacity : Nat) (ans : Option Nat)
  | expand (bytes : Nat) (ans : Option Nat)
  | compact (now : Nat)
  | reclaim (now : Nat) (gives : List (Nat × Nat))
  | flush (w : Who) (gives : List (Nat × Nat)) (arena : Option Nat)
  | reparseEnvFlags (env : Option String)

def next (x : Export) : Act → Export
  | .alloc size ans sup site => x.alloc size ans sup site
  | .alignedAlloc alignment size ans sup => x.alignedAlloc alignment size ans sup
  | .allocBatch size count as sups => x.allocBatch size count as sups
  | .realloc ptr newSize grow ans intact sup back site =>
    x.realloc ptr newSize grow ans intact sup back site
  | .free ptr intact back => x.free ptr intact back
  | .freeBatch ptrs => freeBatch ptrs [] x
  | .reset w gives childGives _ => x.mpReset w gives childGives
  | .create capacity ans => { x with back := x.back.mpCreate capacity ans }
  | .expand bytes ans => { x with back := x.back.mpExpandPool bytes ans }
  | .compact now => { x with back := (x.back.mpCompact now).1 }
  | .reclaim now gives => { x with back := (x.back.mpReclaimIdlePages now gives).1 }
  | .flush w gives arena => { x with back := x.back.tlsCacheFlush w gives arena }
  | .reparseEnvFlags env => { x with back := x.back.mpReparseEnvFlags env }

/-- A pool is created once, sizes are `size_t`s, and only live pointers are freed or
resized. -/
def pre (x : Export) : Act → Prop
  | .alloc size ans _ _ => x.back.stage = .running ∧ x.back.pool.pre (.alloc size ans)
  | .alignedAlloc alignment size ans _ =>
    x.back.stage = .running ∧ x.back.pool.pre (.alignedAlloc alignment size ans)
  | .allocBatch size count as _ =>
    x.back.stage = .running ∧ x.back.pool.pre (.allocBatch size count as)
  | .realloc ptr newSize grow ans intact _ _ _ =>
    x.back.stage = .running ∧ x.back.pool.pre (.realloc ptr newSize grow ans intact)
  | .free ptr intact _ => x.back.stage = .running ∧ x.back.pool.pre (.free ptr intact)
  | .freeBatch ptrs =>
    x.back.stage = .running ∧ x.back.pool.pre (.freeBatch (ptrs.map fun q => (q.1, q.2.1)))
  | .create capacity _ => x.back.stage = .fresh ∧ capacity < 2 ^ 64
  | .expand bytes _ => x.back.stage = .running ∧ bytes < 2 ^ 64
  | .reset .. | .compact _ | .reclaim .. | .flush .. | .reparseEnvFlags _ => x.back.stage = .running

/-- What the system has handed out lies in the address space, and so do the blocks. -/
def Mapped (x : Export) : Prop := x.back.Mapped ∧ ∀ b ∈ x.back.pool.live, b.ptr < 2 ^ 64

def start (c : Config) (arenas : Bool) (v : Vtable) (i : IdleReclaim)
    (quotaBytes quotaCount : Nat) : Export :=
  ⟨.start c arenas v i quotaBytes quotaCount, fun _ => []⟩

def system (c : Config) (arenas : Bool) (v : Vtable) (i : IdleReclaim) : LTS Export Act :=
  .det (fun x => ∃ q n, x = start c arenas v i q n) (fun x l => x.pre l ∧ (x.next l).Mapped) next

/-! ## Runs that leave the headers alone -/

/-- `mp_realloc` keeps a block of `b` to its memory, with the canary, or moves it. -/
def Moves (x : Export) (b : Block) (newSize : Nat) (grow : Option Grown) : Prop :=
  if newSize ≤ b.usable then b.Inside (x.back.cfg .master) newSize b.hi
  else
    match (if b.tier = .tlsf then grow else none) with
    | some g => b.Inside (x.back.cfg .master) newSize g.hi
    | none => (x.back.cfg x.back.pool.route).Sane newSize

/-- A page that is released has all its slots. -/
def Unused (i : IdleReclaim) (now : Nat) (s : PageLists) : Prop :=
  ∀ p ∈ s.partials, p.shouldFree i now = true → p.free = p.total

/-- The slots of every page have room for what is behind them now. -/
def Roomy (c c' : Config) (s : PageLists) : Prop :=
  ∀ p ∈ s.partials ++ s.fulls ++ s.empties, c'.slotTotal p.cls ≤ c.slotTotal p.cls

/-- The arena for `bytes` is one that TLSF can serve. -/
def Arena (bytes : Nat) : Prop := bytes = 0 ∨ 49 ≤ bytes ∧ bytes ≤ 2 ^ 30 + 24

/-- No step writes over the header of another block or hands a block out twice. -/
def Careful (x : Export) : Act → Prop
  | .alloc size .. | .allocBatch size .. => (x.back.cfg x.back.pool.route).Sane size
  | .alignedAlloc alignment size .. =>
    size + alignment + headerSize + (x.back.cfg .master).canaryLen < 2 ^ 64 ∧
      (x.back.cfg .master).Serves (size + alignment + headerSize + (x.back.cfg .master).canaryLen)
  | .realloc ptr newSize grow .. =>
    if ptr = 0 then (x.back.cfg x.back.pool.route).Sane newSize
    else newSize ≠ 0 → ∀ b ∈ x.back.pool.live, b.ptr = ptr → x.Moves b newSize grow
  | .free .. | .freeBatch _ | .flush .. => True
  | .reset _ _ _ left => left = []
  | .create bytes _ | .expand bytes _ => Arena bytes
  | .compact now => Unused x.back.idle now (x.back.hold .master).pages
  | .reclaim now gives =>
    Unused x.back.idle now (gives.foldl PageLists.give (x.back.hold .master).pages)
  | .reparseEnvFlags env =>
    Roomy (x.back.cfg .master) (mpParseEnvFlags (x.back.cfg .master) env)
      (x.back.hold .master).pages

end Export

/-! ## The atomic total is a `size_t` -/

namespace Backing

structure Sized (t : Backing) : Prop where
  total : ∀ w, (t.hold w).total < 2 ^ 64

section Sized
variable {t t' : Backing} {w : Who} {f : Holding → Holding}

theorem Sized.onHold (h : Sized t) (hf : (f (t.hold w)).total < 2 ^ 64) : Sized (t.onHold w f) := by
  refine ⟨fun v => ?_⟩
  unfold Backing.onHold
  dsimp only
  by_cases e : v = w
  · subst e
    rw [Function.update_self]
    exact hf
  · rw [Function.update_of_ne e]
    exact h.total v

/-- Only the holdings matter. -/
theorem Sized.congr (h : Sized t) (hh : t'.hold = t.hold) : Sized t' := ⟨by
  rw [hh]
  exact h.total⟩

theorem Sized.obtain (h : Sized t) {size base : Nat} {g : Region → Holding → Holding}
    (hg : ∀ r, (g r (t.hold w)).total < 2 ^ 64) : Sized (t.obtain w size base g) :=
  (h.onHold (hg _)).congr rfl

theorem Sized.tlsfArenaInit (h : Sized t) (w : Who) (base : Nat) (made : Bool) :
    Sized (t.tlsfArenaInit w base made) := by
  unfold Backing.tlsfArenaInit
  split
  · exact h.obtain fun _ => wrap_lt _
  · have hk : Sized (t.obtain w arenaSize base fun _ h => h) := h.obtain fun _ => h.total w
    exact hk.congr rfl

theorem Sized.tlsfGrow (h : Sized t) (w : Who) (size base : Nat) :
    Sized (t.tlsfGrow w size base) := by
  unfold Backing.tlsfGrow Backing.tlsfCreatePool
  exact h.obtain fun _ => wrap_lt _

theorem Sized.tlsfAlloc (h : Sized t) (w : Who) (size : Nat) (root more : Option Nat) :
    Sized (t.tlsfAlloc w size root more) :=
  tlsfAlloc_keeps (fun h _ base => h.tlsfGrow w _ base) h size root more

theorem Sized.serve (h : Sized t) (w : Who) (size : Nat) (sup : Supply) :
    Sized (t.serve w size sup) := by
  unfold Backing.serve
  split
  · exact h.onHold (wrap_lt _)
  · dsimp only
    refine Sized.tlsfAlloc ?_ w size sup.root sup.more
    split
    · exact h
    · exact h.tlsfArenaInit ..
  · exact h
  · exact h

theorem Sized.enter (h : Sized t) (w : Who) (charge : Nat) (s : State) :
    Sized (t.enter w charge s) := by
  have hall (bs : List Block) : Sized (bs.foldl (Backing.obtainOs w charge) t) := by
    induction bs generalizing t with
    | nil => exact h
    | cons b bs ih =>
      refine ih ?_
      unfold Backing.obtainOs
      split
      · exact h.obtain fun _ => wrap_lt _
      · exact h
  exact (hall _).congr rfl

theorem Sized.alloc (h : Sized t) (size : Nat) (ans : Option Place) (sup : Supply) :
    Sized (t.alloc size ans sup) := by
  unfold Backing.alloc
  dsimp only
  split
  · exact (h.serve ..).enter ..
  · exact h.enter ..

theorem Sized.alignedAlloc (h : Sized t) (alignment size : Nat) (ans : Option Place)
    (sup : Supply) : Sized (t.alignedAlloc alignment size ans sup) := by
  unfold Backing.alignedAlloc
  dsimp only
  split
  · exact (h.serve ..).enter ..
  · exact h.enter ..

theorem Sized.serves (h : Sized t) (w : Who) (size : Nat) (sups : List Supply) :
    Sized (sups.foldl (fun t sup => t.serve w size sup) t) := by
  induction sups generalizing t with
  | nil => exact h
  | cons sup sups ih => exact ih (h.serve ..)

theorem Sized.allocBatch (h : Sized t) (size count : Nat) (as : List (Option Place))
    (sups : List Supply) : Sized (t.allocBatch size count as sups) := by
  unfold Backing.allocBatch
  dsimp only
  split
  · exact (h.serves ..).enter ..
  · exact h.enter ..

theorem Sized.tlsfArenaCleanup (h : Sized t) (w : Who) (a : ThreadArena) :
    Sized (t.tlsfArenaCleanup w a) := by
  have hk : Sized (t.onHold w fun h => { h with
    arenas := h.arenas.eraseP fun x => x.region = a.region, total :=
      wrap (h.total + (2 ^ 64 - arenaSize)) }) :=
    h.onHold (wrap_lt _)
  exact hk.congr rfl

theorem Sized.tlsfArenaRetire (h : Sized t) (w : Who) (base : Nat) :
    Sized (t.tlsfArenaRetire w base) := by
  unfold Backing.tlsfArenaRetire
  split
  · split
    · exact h.tlsfArenaCleanup ..
    · exact h.onHold (h.total w)
  · exact h

theorem Sized.release (h : Sized t) (b : Block) (intact : Bool) (back : Option (Nat × Nat)) :
    Sized (t.release b intact back) := by
  have h' : Sized { t with pool := t.pool.release b intact } := h.congr rfl
  unfold Backing.release
  dsimp only
  split
  · exact h'.onHold (h'.total _)
  · split
    · unfold Backing.reapArena
      split
      · split
        · exact h'.tlsfArenaCleanup ..
        · exact h'
      · exact h'
    · exact h'
  · unfold Backing.freeOs
    dsimp only
    have hk :
      Sized (Backing.onHold { t with pool := t.pool.release b intact } (b.home .master) fun h =>
        { h with total := wrap (h.total +
          (2 ^ 64 - osSize (Backing.cfg { t with pool := t.pool.release b intact }
          (b.home .master)) b.requested)) }) := h'.onHold (wrap_lt _)
    split
    · rename_i r _
      have hk' :=
        hk.onHold (w := b.home .master) (f := fun h => { h with os := h.os.erase r }) (hk.total _)
      exact hk'.congr rfl
    · exact hk
  · exact h'

theorem lessPages_le (n k : Nat) : lessPage^[n] k ≤ k := by
  induction n generalizing k with
  | zero => exact Nat.le_refl k
  | succ n ih =>
    rw [Function.iterate_succ_apply]
    refine (ih _).trans ?_
    unfold lessPage
    split <;> omega

theorem Sized.resetPool (h : Sized t) (w : Who) (gives : List (Nat × Nat)) :
    Sized (t.resetPool w gives) := by
  have hretire (l : List ThreadArena) {t : Backing} (h : Sized t) :
      Sized (l.foldl (fun t a => t.tlsfArenaRetire w a.region.base) t) := by
    induction l generalizing t with
    | nil => exact h
    | cons a l ih => exact ih (h.tlsfArenaRetire ..)
  have hgives :
    Sized (t.onHold w fun h => { h with pages := gives.foldl PageLists.give h.pages }) :=
    h.onHold (h.total w)
  unfold Backing.resetPool
  dsimp only
  generalize t.onHold w (fun h => { h with pages := gives.foldl PageLists.give h.pages }) = t₁
    at hgives ⊢
  have hk := hretire ((t₁.hold w).arenas.filter fun a => !a.retired) hgives
  exact Sized.onHold (hk.congr rfl) (hk.total w)

end Sized

end Backing

/-! ## Blocks that come and go -/

/-- The blocks `bs` of pool `w` are live now and counted, and no other pool notices. -/
structure Enters (s s' : State) (w : Who) (bs : List Block) : Prop where
  live : s'.live = bs ++ s.live
  cfg : ∀ v, (s'.pool v).cfg = (s.pool v).cfg
  count : ∀ n, (s.pool w).activeAllocations = wrap n →
    (s'.pool w).activeAllocations = wrap (n + bs.length)
  other : ∀ v, v ≠ w → (s'.pool v).activeAllocations = (s.pool v).activeAllocations
  bytes : ∀ v, (s.pool v).activeBytes < 2 ^ 64 → (s'.pool v).activeBytes < 2 ^ 64
  blocks : ∀ b ∈ bs, b.counted = true ∧ b.owner = w ∧
    (b.tier = .emergency → (s.pool w).cfg.emergencyBuf ≠ 0 ∨ (s.pool w).cfg.limit ≠ 0)

/-- The blocks `bs` of pool `w` are not live any more. -/
structure Leaves (s s' : State) (w : Who) (bs : List Block) : Prop where
  live : s'.live = bs.foldl List.erase s.live
  cfg : ∀ v, (s'.pool v).cfg = (s.pool v).cfg
  count : ∀ n, (s.pool w).activeAllocations = wrap (n + bs.length) →
    (s'.pool w).activeAllocations = wrap n
  other : ∀ v, v ≠ w → (s'.pool v).activeAllocations = (s.pool v).activeAllocations
  bytes : ∀ v, (s.pool v).activeBytes < 2 ^ 64 → (s'.pool v).activeBytes < 2 ^ 64

section Counts
variable {s s' : State} {w : Who} {b : Block} {bs : List Block} {p q : Counters} {size n : Nat}

theorem activeAllocations_of_tally (h : q.tally = p.tally) :
    q.activeAllocations = p.activeAllocations :=
  congrArg (fun t => t.2.1) h

theorem SameAccount.enters (h : SameAccount s s') (w : Who) : Enters s s' w [] :=
  ⟨h.live, h.cfg, fun _ hn => (activeAllocations_of_tally (h.tally w)).trans hn,
    fun v _ => activeAllocations_of_tally (h.tally v), fun v hv => (h.active v).symm ▸ hv, nofun⟩

theorem Charged.enters (h : Charged s s' w size) : ∃ b, Enters s s' w [b] := by
  obtain ⟨hsame, b, hl, hc, ho, he⟩ := h
  have hcfg (v : Who) : (s'.pool v).cfg = (s.pool v).cfg :=
    Backing.charged_cfg ⟨hsame, b, hl, hc, ho, he⟩ v
  refine ⟨b, hl, hcfg, fun n hn => ?_, fun v e => ?_, fun v hv => ?_, fun c hm => ?_⟩
  · refine (activeAllocations_of_tally (hsame.tally w)).trans ?_
    rw [set_self]
    show wrap ((s.pool w).activeAllocations + 1) = wrap (n + 1)
    rw [hn, wrap_wrap_add]
  · refine (activeAllocations_of_tally (hsame.tally v)).trans ?_
    rw [set_ne _ _ e]
  · have hv' := hsame.active v
    by_cases e : v = w
    · subst e
      rw [set_self, charge_activeBytes] at hv'
      exact hv' ▸ wrap_lt _
    · rw [set_ne _ _ e] at hv'
      exact hv'.symm ▸ hv
  · rw [List.mem_singleton.mp hm]
    refine ⟨hc, ho, fun ht => .inl fun h0 => ?_⟩
    have hfits := he ht
    unfold Counters.emergencyFits at hfits
    simp [h0] at hfits

theorem chargeAll_activeAllocations (p : Counters) (n charge hist : Nat) :
    (p.chargeAll n charge hist).activeAllocations = wrap (p.activeAllocations + n) := by
  unfold Counters.chargeAll
  dsimp only
  rw [activeAllocations_of_tally (events_tally _ _)]
  split
  · exact activeAllocations_of_tally (bucket_tally ..)
  · rfl

theorem mpAllocBatch_enters (s : State) (size count : Nat) (as : List (Option Place)) :
    ∃ bs, Enters s (mpAllocBatch s size count as).1 s.route bs := by
  rcases batchOn_form s s.route size count as with hs | ⟨s₁, bs, k, hs, heq, hb⟩
  · exact ⟨[], hs.enters _⟩
  · have hp (v : Who) : ((mpAllocBatch s size count as).1.pool v) =
        (s₁.set s.route
          ((s₁.pool s.route).chargeAll bs.length ((s.pool s.route).cfg.chargeOf size) k)).pool
            v := by
      show (batchOn s s.route size count as).1.pool v = _
      rw [heq]
    refine ⟨bs, congrArg State.live heq, fun v => ?_, fun n hn => ?_, fun v e => ?_, fun v hv => ?_,
      fun b hm =>
      ⟨(hb b hm).1, (hb b hm).2.1, fun ht => .inr fun h0 => (hb b hm).2.2 h0 ht⟩⟩
    · rw [hp]
      by_cases e : v = s.route
      · subst e
        rw [set_self, chargeAll_cfg]
        exact hs.cfg _
      · rw [set_ne _ _ e]
        exact hs.cfg v
    · rw [hp, set_self, chargeAll_activeAllocations, activeAllocations_of_tally (hs.tally _), hn,
        wrap_wrap_add]
    · rw [hp, set_ne _ _ e]
      exact activeAllocations_of_tally (hs.tally v)
    · rw [hp]
      by_cases e : v = s.route
      · subst e
        rw [set_self, chargeAll_activeBytes]
        exact wrap_lt _
      · rw [set_ne _ _ e]
        exact (hs.active v).symm ▸ hv

/-! ### Requested sizes -/

/-- What is new was asked for with `size` bytes. -/
def Asked (s s' : State) (size : Nat) : Prop := ∀ b ∈ s'.live, b ∈ s.live ∨ b.requested = size

theorem asked_of_live (h : s'.live = s.live) (size : Nat) : Asked s s' size :=
  fun _ hb => .inl (h ▸ hb)

theorem asked_of_cons (h : s'.live = b :: s.live) (hb : b.requested = size) : Asked s s' size := by
  intro c hc
  rw [h] at hc
  rcases List.mem_cons.mp hc with rfl | hc
  · exact .inr hb
  · exact .inl hc

theorem relink_requested {c : Config} (h : b.requested = c.chargeOf size) :
    (c.relink size b).requested = size := by
  unfold Config.relink
  unfold Config.chargeOf at h
  split
  · rfl
  · rename_i hc
    rw [h, if_neg hc]

theorem mpAlloc_asked (s : State) (size : Nat) (ans : Option Place) :
    Asked s (mpAlloc s size ans).1 size := by
  by_cases h0 : size = 0
  · unfold mpAlloc
    rw [if_pos h0]
    exact asked_of_live rfl size
  · rw [mpAlloc_eq h0]
    have hspec := mpAllocInternal_spec s s.route ((s.pool s.route).cfg.chargeOf size) ans
    generalize mpAllocInternal s s.route ((s.pool s.route).cfg.chargeOf size) ans = q at hspec
    obtain ⟨s₁, _ | b⟩ := q
    · exact asked_of_live hspec.live size
    · refine asked_of_cons ?_ (relink_requested (hspec.block b rfl).2.1)
      show _ :: ((s₁.settle s.route size)).live = _
      rw [(settle_same ..).live, hspec.live]

theorem mpAlignedAlloc_asked (s : State) (w : Who) (alignment size : Nat) (ans : Option Place) :
    Asked s (mpAlignedAlloc s w alignment size ans).1 size := by
  unfold mpAlignedAlloc
  split
  · exact asked_of_live rfl size
  · dsimp only
    have hspec :=
      mpAllocInternal_spec s w (wrap (size + alignment + headerSize + (s.pool w).cfg.canaryLen)) ans
    generalize mpAllocInternal s w (wrap (size + alignment + headerSize + (s.pool w).cfg.canaryLen))
      ans = q at hspec
    obtain ⟨s₁, _ | b⟩ := q
    · exact asked_of_live hspec.live size
    · refine asked_of_cons
        (b := { b with ptr := alignUp b.ptr alignment, requested := size }) ?_ rfl
      show _ :: ((s₁.settle w size)).live = _
      rw [(settle_same ..).live, hspec.live]

theorem mpAllocBatch_asked (s : State) (size count : Nat) (as : List (Option Place)) :
    Asked s (mpAllocBatch s size count as).1 size := by
  unfold mpAllocBatch
  dsimp only
  split
  · exact asked_of_live rfl size
  · generalize htot : (s.pool s.route).cfg.chargeOf size = total
    generalize batchPlan (s.pool s.route) total total count = plan
    have hcfg :
        ((s.set s.route ((List.replicate plan.oomCount (Event.oom total)).foldl Counters.event
        (s.pool s.route))).pool s.route).cfg = (s.pool s.route).cfg := by
      rw [set_self, events_cfg]
    generalize hs₁ :
      s.set s.route ((List.replicate plan.oomCount (Event.oom total)).foldl Counters.event
      (s.pool s.route)) = s₁ at hcfg
    have hlive₁ : s₁.live = s.live := by
      rw [← hs₁]
      rfl
    split
    · exact asked_of_live hlive₁ size
    · obtain ⟨hsame, bs, es, hblocks, -, -, -, -, hall, hemer⟩ :=
        batchRun_spec s.route total size plan as s₁
      generalize batchRun s.route total size plan as s₁ = q at hsame hblocks
      obtain ⟨r, em⟩ := q
      dsimp only at hsame hblocks ⊢
      unfold batchFinish
      split
      · exact asked_of_live (hsame.live.trans hlive₁) size
      · intro b hb
        rcases List.mem_append.mp hb with hb | hb
        · right
          obtain ⟨c, hc, rfl⟩ := List.mem_map.mp (List.mem_reverse.mp hb)
          refine relink_requested ?_
          rw [hsame.cfg, hcfg, htot]
          rw [hblocks] at hc
          rcases List.mem_append.mp hc with hc | hc
          · exact (hall c hc).2.1
          · exact (hemer c hc).2.1
        · exact .inl (hlive₁ ▸ hsame.live ▸ hb)

/-! ### Releases -/

theorem pay_activeAllocations (hb : b.counted = true) (h : p.activeAllocations = wrap (n + 1)) :
    (p.pay b).activeAllocations = wrap n := by
  unfold Counters.pay
  rw [if_pos hb]
  show wrap (p.activeAllocations + (2 ^ 64 - 1)) = wrap n
  rw [h]
  unfold wrap
  omega

theorem pay_bytes_lt (h : p.activeBytes < 2 ^ 64) : (p.pay b).activeBytes < 2 ^ 64 := by
  unfold Counters.pay
  split
  · exact wrap_lt _
  · exact h

theorem release_leaves (intact : Bool) (hb : b.counted = true) (hh : b.home .master = w) :
    Leaves s (s.release b intact) w [b] := by
  have hp (v : Who) :
    (s.release b intact).pool v = (s.set w ((s.pool w).release b intact)).pool v := by
    unfold State.release
    rw [hh]
  refine ⟨rfl, fun v => Backing.release_cfg s b intact v, fun n hn => ?_, fun v e => ?_,
    fun v hv => ?_⟩
  · rw [hp, set_self, activeAllocations_of_tally (release_tally ..)]
    exact pay_activeAllocations hb hn
  · rw [hp, set_ne _ _ e]
  · rw [hp]
    by_cases e : v = w
    · subst e
      rw [set_self, (release_counters ..).1]
      refine pay_bytes_lt ?_
      rw [(verifyCanary_same ..).1]
      exact hv
    · rw [set_ne _ _ e]
      exact hv

theorem foldl_pay_activeAllocations (hb : ∀ b ∈ bs, b.counted = true)
    (h : p.activeAllocations = wrap (n + bs.length)) :
    (bs.foldl Counters.pay p).activeAllocations = wrap n := by
  induction bs generalizing p with
  | nil => exact h
  | cons b bs ih =>
    rw [List.length_cons, ← Nat.add_assoc] at h
    exact ih (fun c hc => hb c (List.mem_cons_of_mem _ hc))
      (pay_activeAllocations (hb b List.mem_cons_self) h)

theorem foldl_pay_bytes_lt (h : p.activeBytes < 2 ^ 64) :
    (bs.foldl Counters.pay p).activeBytes < 2 ^ 64 := by
  induction bs generalizing p with
  | nil => exact h
  | cons b bs ih => exact ih (pay_bytes_lt h)

theorem flushSlabBlock_leaves (hb : ∀ b ∈ bs, b.counted = true) :
    Leaves s (flushSlabBlock s bs) .master bs := by
  have hp (v : Who) :
      (flushSlabBlock s bs).pool v = (s.set .master ((bs.map fun b => Event.free b.requested).foldl
      Counters.event (bs.foldl Counters.pay (s.pool .master)))).pool v := by
    unfold flushSlabBlock
    simp only [foldl_event_map]
    rfl
  refine ⟨rfl, fun v => ?_, fun n hn => ?_, fun v e => ?_, fun v hv => ?_⟩
  · rw [hp]
    by_cases e : v = .master
    · subst e
      rw [set_self, events_cfg, foldl_pay_cfg]
    · rw [set_ne _ _ e]
  · rw [hp, set_self, activeAllocations_of_tally (events_tally ..)]
    exact foldl_pay_activeAllocations hb hn
  · rw [hp, set_ne _ _ e]
  · rw [hp]
    by_cases e : v = .master
    · subst e
      rw [set_self, events_activeBytes]
      exact foldl_pay_bytes_lt hv
    · rw [set_ne _ _ e]
      exact hv

end Counts

/-! ## The invariant -/

namespace Export

/-- The active list of each pool has the headers of its live blocks, `active_allocations`
is its length, and the fields are `size_t`s. -/
structure Inv (x : Export) : Prop where
  plain : ∀ w, (x.back.cfg w).fastPath = false
  spare : (x.back.cfg .child).emergencyBuf = 0 ∧ (x.back.cfg .child).limit = 0
  sized : x.back.Sized
  bytes : ∀ w, (x.back.pool.pool w).activeBytes < 2 ^ 64
  count : ∀ w, (x.back.pool.pool w).activeAllocations = wrap (x.active w).length
  listed : ∀ w, ((x.active w).map Listed.block).Perm (x.back.pool.live.filter fun b => b.owner = w)
  blocks : ∀ b ∈ x.back.pool.live, b.counted = true ∧ b.requested < 2 ^ 64 ∧
    (b.tier = .emergency → b.owner = .master)

section Inv
variable {x : Export} {back : Backing} {w : Who} {b : Block} {bs : List Block} {size : Nat}

theorem Inv.home (h : Inv x) (hb : b ∈ x.back.pool.live) : b.home .master = b.owner := by
  unfold Block.home
  split
  · rename_i ht
    exact ((h.blocks b hb).2.2 ht).symm
  · rfl

theorem fresh_eq {s s' : State} (h : s'.live = bs ++ s.live) : fresh s s' = bs := by
  rw [fresh, h, List.length_append, Nat.add_sub_cancel, List.take_left']
  rfl

theorem Inv.enlist (h : Inv x) (he : Enters x.back.pool back.pool w bs)
    (ha : Asked x.back.pool back.pool size) (hs : back.Sized) (hlt : size < 2 ^ 64)
    (site : Option Site) : Inv (x.enlist back site) := by
  have hmem (b : Block) (hb : b ∈ bs) : b.owner = w := (he.blocks b hb).2.1
  have hself : (bs.filter fun b => b.owner = w) = bs :=
    List.filter_eq_self.mpr fun b hb => by simpa using hmem b hb
  have hother (v : Who) (e : v ≠ w) : (bs.filter fun b => b.owner = v) = [] :=
    List.filter_eq_nil_iff.mpr fun b hb => by simpa [hmem b hb] using e.symm
  have hactive (v : Who) : (x.enlist back site).active v =
      ((bs.filter fun b => b.owner = v).map fun b => ⟨b, site.getD .untracked⟩) ++ x.active v := by
    show (if _ then _ else _) = _
    rw [if_neg (by simp [h.plain v]), fresh_eq he.live]
  refine ⟨fun v => ?_, ?_, hs, fun v => he.bytes v (h.bytes v), fun v => ?_, fun v => ?_,
    fun b hb => ?_⟩
  · exact (congrArg Config.fastPath (he.cfg v)).trans (h.plain v)
  · exact ⟨(congrArg Config.emergencyBuf (he.cfg .child)).trans h.spare.1,
      (congrArg Config.limit (he.cfg .child)).trans h.spare.2⟩
  · rw [hactive, List.length_append, List.length_map, Nat.add_comm]
    by_cases e : v = w
    · subst e
      rw [hself]
      exact he.count _ (h.count v)
    · rw [hother v e]
      exact (he.other v e).trans (h.count v)
  · have hlive : (x.enlist back site).back.pool.live = bs ++ x.back.pool.live := he.live
    rw [hactive, List.map_append, List.map_map, hlive, List.filter_append]
    simpa [Function.comp_def] using (h.listed v).append_left _
  · have hlive : (x.enlist back site).back.pool.live = bs ++ x.back.pool.live := he.live
    have hreq : b.requested < 2 ^ 64 := by
      rcases ha b hb with hb | hb
      · exact (h.blocks b hb).2.1
      · exact hb ▸ hlt
    rw [hlive] at hb
    rcases List.mem_append.mp hb with hb | hb
    · obtain ⟨hc, ho, ht⟩ := he.blocks b hb
      refine ⟨hc, hreq, fun hem => ?_⟩
      rw [ho]
      cases w with
      | master => rfl
      | child =>
        rcases ht hem with h0 | h0
        · exact absurd h.spare.1 h0
        · exact absurd h.spare.2 h0
    · exact ⟨(h.blocks b hb).1, hreq, (h.blocks b hb).2.2⟩

theorem Inv.alloc (h : Inv x) (hlt : size < 2 ^ 64) (ans : Option Place) (sup : Supply)
    (site : Option Site) : Inv (x.alloc size ans sup site) := by
  obtain ⟨w, bs, he⟩ : ∃ w bs, Enters x.back.pool (mpAlloc x.back.pool size ans).1 w bs := by
    rcases mpAlloc_form x.back.pool size ans with hs | ⟨-, -, hc⟩
    · exact ⟨.master, [], hs.enters _⟩
    · exact ⟨_, _, hc.enters.choose_spec⟩
  exact h.enlist he (mpAlloc_asked x.back.pool size ans) (h.sized.alloc ..) hlt site

theorem Inv.alignedAlloc (h : Inv x) (alignment : Nat) (hlt : size < 2 ^ 64) (ans : Option Place)
    (sup : Supply) : Inv (x.alignedAlloc alignment size ans sup) := by
  obtain ⟨bs, he⟩ :
    ∃ bs,
    Enters x.back.pool (mpAlignedAlloc x.back.pool .master alignment size ans).1 .master bs := by
    rcases mpAlignedAlloc_form x.back.pool .master alignment size ans with hs | ⟨n, -, hc⟩
    · exact ⟨[], hs.enters _⟩
    · exact ⟨_, hc.enters.choose_spec⟩
  exact h.enlist he (mpAlignedAlloc_asked x.back.pool .master alignment size ans)
    (h.sized.alignedAlloc ..) hlt none

theorem Inv.allocBatch (h : Inv x) (count : Nat) (hlt : size < 2 ^ 64) (as : List (Option Place))
    (sups : List Supply) : Inv (x.allocBatch size count as sups) := by
  obtain ⟨bs, he⟩ := mpAllocBatch_enters x.back.pool size count as
  exact h.enlist he (mpAllocBatch_asked x.back.pool size count as) (h.sized.allocBatch ..) hlt none

/-! ### Headers that leave the list -/

theorem map_eraseP (l : List Listed) (b : Block) :
    (l.eraseP fun h => h.block = b).map Listed.block = (l.map Listed.block).erase b := by
  rw [List.erase_eq_eraseP, List.eraseP_map]
  congr 2
  funext h
  exact (decide_eq_decide.mpr eq_comm).trans (beq_eq_decide ..).symm

/-- The headers of blocks of pool `w` leave its list and no other. -/
theorem foldl_activeListRemove (active : Who → List Listed) (hb : ∀ b ∈ bs, b.home .master = w) :
    (bs.foldl activeListRemove active w).map Listed.block =
      bs.foldl List.erase ((active w).map Listed.block) ∧ ∀ v, v ≠ w →
      bs.foldl activeListRemove active v = active v := by
  induction bs generalizing active with
  | nil => exact ⟨rfl, fun _ _ => rfl⟩
  | cons b bs ih =>
    obtain ⟨h1, h2⟩ := ih (activeListRemove active b) fun c hc => hb c (List.mem_cons_of_mem _ hc)
    have hw := hb b List.mem_cons_self
    refine ⟨?_, fun v e => (h2 v e).trans ?_⟩
    · rw [List.foldl_cons, h1, activeListRemove, hw, Function.update_self, map_eraseP,
        List.foldl_cons]
    · rw [activeListRemove, hw, Function.update_of_ne e]

theorem Inv.leave (h : Inv x) (hl : Leaves x.back.pool back.pool w bs) (ho : ∀ b ∈ bs, b.owner = w)
    (hper : ∃ rest, (bs ++ rest).Perm x.back.pool.live) (hs : back.Sized) :
    Inv ⟨back, bs.foldl activeListRemove x.active⟩ := by
  obtain ⟨rest, hper⟩ := hper
  have hrest : back.pool.live.Perm rest := hl.live ▸ foldl_erase_perm hper
  have hsub (b : Block) (hb : b ∈ back.pool.live) : b ∈ x.back.pool.live :=
    hper.subset (List.mem_append_right _ (hrest.subset hb))
  have hhome (b : Block) (hb : b ∈ bs) : b.home .master = w :=
    (h.home (hper.subset (List.mem_append_left _ hb))).trans (ho b hb)
  obtain ⟨hw, hother⟩ := foldl_activeListRemove x.active hhome
  have hlisted (v : Who) : ((bs.foldl activeListRemove x.active v).map Listed.block).Perm
      (rest.filter fun b => b.owner = v) := by
    have hfilter := hper.filter fun b => decide (b.owner = v)
    rw [List.filter_append] at hfilter
    by_cases e : v = w
    · subst e
      rw [List.filter_eq_self.mpr fun b hb => by simpa using ho b hb] at hfilter
      rw [hw]
      exact foldl_erase_perm (hfilter.trans (h.listed v).symm)
    · rw [List.filter_eq_nil_iff.mpr fun b hb => by simpa [ho b hb] using Ne.symm e,
        List.nil_append] at hfilter
      rw [hother v e]
      exact (h.listed v).trans hfilter.symm
  refine ⟨fun v => ?_, ?_, hs, fun v => hl.bytes v (h.bytes v), fun v => ?_, fun v => ?_,
    fun b hb => h.blocks b (hsub b hb)⟩
  · exact (congrArg Config.fastPath (hl.cfg v)).trans (h.plain v)
  · exact ⟨(congrArg Config.emergencyBuf (hl.cfg .child)).trans h.spare.1,
      (congrArg Config.limit (hl.cfg .child)).trans h.spare.2⟩
  · by_cases e : v = w
    · subst e
      refine hl.count _ ((h.count v).trans ?_)
      have hold := (h.listed v).length_eq
      have hnew := (hlisted v).length_eq
      have hsum := (hper.filter fun b => decide (b.owner = v)).length_eq
      rw [List.filter_append, List.filter_eq_self.mpr fun b hb => by simpa using ho b hb,
        List.length_append] at hsum
      rw [List.length_map] at hold hnew
      rw [hold, hnew, ← hsum, Nat.add_comm]
    · refine (hl.other v e).trans ((h.count v).trans ?_)
      dsimp only
      rw [hother v e]
  · exact (hlisted v).trans (hrest.symm.filter _)

theorem Inv.release (h : Inv x) (hb : b ∈ x.back.pool.live) (intact : Bool)
    (back : Option (Nat × Nat)) : Inv (x.release b intact back) := by
  have hl : Leaves x.back.pool (x.back.release b intact back).pool b.owner [b] := by
    rw [Backing.release_pool]
    exact release_leaves intact (h.blocks b hb).1 (h.home hb)
  exact h.leave hl (fun c hc => by rw [List.mem_singleton.mp hc])
    ⟨_, (List.perm_cons_erase hb).symm⟩
    (h.sized.release ..)

theorem Inv.free (h : Inv x) (ptr : Nat) (intact : Bool) (back : Option (Nat × Nat)) :
    Inv (x.free ptr intact back) := by
  unfold Export.free
  split
  · exact h
  · split
    · exact h
    · rename_i b hb
      exact h.release (find_spec hb).1 intact back

theorem Inv.flush (h : Inv x) {hdrs : List (Block × Option (Nat × Nat))}
    (hb : ∀ b ∈ hdrs.map Prod.fst, b.batchable = true)
    (hper : ∃ rest, (hdrs.map Prod.fst ++ rest).Perm x.back.pool.live) : Inv (x.flush hdrs) := by
  have hmem (b : Block) (hm : b ∈ hdrs.map Prod.fst) : b ∈ x.back.pool.live := by
    obtain ⟨rest, hper⟩ := hper
    exact hper.subset (List.mem_append_left _ hm)
  refine h.leave (flushSlabBlock_leaves fun b hm => (h.blocks b (hmem b hm)).1)
    (fun b hm => ?_) hper ?_
  · have := hb b hm
    unfold Block.batchable at this
    simp only [Bool.and_eq_true, decide_eq_true_eq] at this
    exact this.2
  · have hk :
      Backing.Sized { x.back with pool := Pool.flushSlabBlock x.back.pool (hdrs.map Prod.fst) } :=
      h.sized.congr rfl
    exact hk.onHold (hk.total _)

/-- The blocks collected so far are live, and no later pointer is one of theirs. -/
theorem Inv.freeBatch {ptrs : List (Nat × Bool × Option (Nat × Nat))}
    {hdrs : List (Block × Option (Nat × Nat))} (h : Inv x)
    (hnd : ((ptrs.map Prod.fst).filter (· ≠ 0)).Nodup)
    (hb : ∀ b ∈ hdrs.map Prod.fst, b.batchable = true)
    (hper : ∃ rest, (hdrs.map Prod.fst ++ rest).Perm x.back.pool.live)
    (hfresh : ∀ b ∈ hdrs.map Prod.fst, ∀ q ∈ ptrs, q.1 ≠ 0 → q.1 ≠ b.ptr) :
    Inv (freeBatch ptrs hdrs x) := by
  induction ptrs generalizing hdrs x with
  | nil => exact h.flush hb hper
  | cons q ptrs ih =>
    obtain ⟨ptr, intact, back⟩ := q
    have hnd' : ((ptrs.map Prod.fst).filter (· ≠ 0)).Nodup := by
      refine List.Nodup.sublist ?_ hnd
      rw [List.map_cons]
      exact (List.sublist_cons_self _ _).filter _
    have hfresh' : ∀ b ∈ hdrs.map Prod.fst, ∀ q ∈ ptrs, q.1 ≠ 0 → q.1 ≠ b.ptr := fun b hb q hq =>
      hfresh b hb q (List.mem_cons_of_mem _ hq)
    unfold Export.freeBatch
    split
    · exact ih h hnd' hb hper hfresh'
    · rename_i h0
      split
      · exact ih h hnd' hb hper hfresh'
      · rename_i b hfind
        obtain ⟨hm, hptr⟩ := find_spec hfind
        obtain ⟨rest, hper⟩ := hper
        have hnew : b ∉ hdrs.map Prod.fst :=
          fun hm => hfresh b hm (ptr, intact, back) List.mem_cons_self h0 hptr.symm
        have hrest : b ∈ rest := (List.mem_append.mp (hper.mem_iff.mpr hm)).resolve_left hnew
        have hlater : ∀ q ∈ ptrs, q.1 ≠ 0 → q.1 ≠ b.ptr := by
          intro q hq hq0 he
          rw [List.map_cons, List.filter_cons_of_pos (by simpa using h0)] at hnd
          refine (List.nodup_cons.mp hnd).1 (List.mem_filter.mpr ⟨?_, by simpa using h0⟩)
          exact List.mem_map.mpr ⟨q, hq, he.trans hptr⟩
        have hper' :
          ((hdrs ++ [(b, back)]).map Prod.fst ++ rest.erase b).Perm x.back.pool.live := by
          rw [List.map_append, List.append_assoc]
          exact ((List.perm_cons_erase hrest).symm.append_left _).trans hper
        split
        · rename_i hbat
          have hb' : ∀ c ∈ (hdrs ++ [(b, back)]).map Prod.fst, c.batchable = true := fun c hc => by
            rw [List.map_append] at hc
            rcases List.mem_append.mp hc with hc | hc
            · exact hb c hc
            · rw [List.mem_singleton.mp hc]
              exact hbat
          split
          · exact ih (h.flush hb' ⟨_, hper'⟩) hnd' nofun ⟨_, .refl _⟩ nofun
          · refine ih h hnd' hb' ⟨_, hper'⟩ fun c hc => ?_
            rw [List.map_append] at hc
            rcases List.mem_append.mp hc with hc | hc
            · exact hfresh' c hc
            · rw [List.mem_singleton.mp hc]
              exact hlater
        · refine ih (h.release hm intact back) hnd' hb ⟨rest.erase b, ?_⟩ hfresh'
          have hlive : (x.release b intact back).back.pool.live = x.back.pool.live.erase b :=
            congrArg State.live (Backing.release_pool ..)
          rw [hlive]
          have := hper.erase b
          rwa [List.erase_append_right _ hnew] at this

/-! ### Headers that change -/

/-- A block that is resized in place, and a note of it. -/
theorem mpRealloc_resized {s : State} {ptr newSize : Nat} {grow : Option Grown} {ans : Option Place}
    {intact : Bool} (h0 : ptr ≠ 0) (h1 : newSize ≠ 0) (hf : s.find ptr = some b)
    (hstay : ¬(b.usable < newSize ∧ (if b.tier = .tlsf then grow else none).isNone)) :
    (mpRealloc s ptr newSize grow ans intact).1 =
      (s.resize b (b.resized newSize (if b.tier = .tlsf then grow else none))).set .master
        ((s.pool .master).event (.realloc newSize)) := by
  unfold mpRealloc Block.resized
  rw [if_neg h0, if_neg h1, hf]
  dsimp only
  generalize (if b.tier = .tlsf then grow else none) = g at hstay ⊢
  by_cases hle : newSize ≤ b.usable
  · rw [if_pos hle, if_pos hle]
    rfl
  · rw [if_neg hle, if_neg hle]
    cases g with
    | none => exact absurd ⟨Nat.lt_of_not_le hle, rfl⟩ hstay
    | some g => rfl

theorem resized_fields (b : Block) (newSize : Nat) (grow : Option Grown) :
    (b.resized newSize grow).counted = b.counted ∧ (b.resized newSize grow).owner = b.owner ∧
      (b.resized newSize grow).tier = b.tier ∧
      ((b.resized newSize grow).requested = newSize ∨ b.resized newSize grow = b) := by
  unfold Block.resized
  split
  · exact ⟨rfl, rfl, rfl, .inl rfl⟩
  · cases grow with
    | none => exact ⟨rfl, rfl, rfl, .inr rfl⟩
    | some g => exact ⟨rfl, rfl, rfl, .inl rfl⟩

theorem restamp_map {b' : Block} (site : Option Site) {l : List Listed}
    (hb : b ∈ l.map Listed.block) :
    ((restamp b b' site l).map Listed.block).Perm (b' :: (l.map Listed.block).erase b) := by
  induction l with
  | nil => exact absurd hb List.not_mem_nil
  | cons h l ih =>
    unfold restamp
    by_cases e : h.block = b
    · rw [if_pos e, List.map_cons, List.map_cons, e, List.erase_cons_head]
    · rw [if_neg e, List.map_cons, List.map_cons, List.erase_cons_tail (by simpa using e)]
      rw [List.map_cons] at hb
      exact ((ih ((List.mem_cons.mp hb).resolve_left (Ne.symm e))).cons _).trans (.swap ..)

theorem Inv.resize (h : Inv x) (hb : b ∈ x.back.pool.live) {newSize : Nat} (hlt : newSize < 2 ^ 64)
    (grow : Option Grown)
    (hp : back.pool = (x.back.pool.resize b (b.resized newSize grow)).set .master
      ((x.back.pool.pool .master).event (.realloc newSize))) (hs : back.Sized)
        (site : Option Site) :
    Inv ⟨back,
      Function.update x.active b.owner
        (restamp b (b.resized newSize grow) site (x.active b.owner))⟩ := by
  obtain ⟨hc, ho, ht, hr⟩ := resized_fields b newSize grow
  generalize b.resized newSize grow = b' at hc ho ht hr hp
  have hsame : SameAccount (x.back.pool.resize b b') back.pool :=
    hp ▸ set_same (by rw [event_activeBytes]; rfl)
    (by rw [event_cfg]; rfl) (by rw [event_tally]; rfl)
  have hlive : back.pool.live = b' :: x.back.pool.live.erase b := hsame.live
  have hmem : b ∈ (x.active b.owner).map Listed.block :=
    (h.listed b.owner).mem_iff.mpr (List.mem_filter.mpr ⟨hb, by simp⟩)
  have hlisted (v : Who) :
      ((Function.update x.active b.owner (restamp b b' site (x.active b.owner)) v).map
      Listed.block).Perm (back.pool.live.filter fun b => b.owner = v) := by
    have hold := (h.listed v).trans ((List.perm_cons_erase hb).filter fun b => decide (b.owner = v))
    rw [hlive, List.filter_cons, ho]
    rw [List.filter_cons] at hold
    by_cases e : v = b.owner
    · subst e
      rw [Function.update_self]
      simp only [decide_true, if_true] at hold ⊢
      refine (restamp_map site hmem).trans (List.Perm.cons _ ?_)
      have := hold.erase b
      rwa [List.erase_cons_head] at this
    · rw [Function.update_of_ne e]
      simpa [Ne.symm e] using hold
  refine ⟨fun v => ?_, ?_, hs, fun v => ?_, fun v => ?_, hlisted, fun c hm => ?_⟩
  · exact (congrArg Config.fastPath (hsame.cfg v)).trans (h.plain v)
  · exact ⟨(congrArg Config.emergencyBuf (hsame.cfg .child)).trans h.spare.1,
      (congrArg Config.limit (hsame.cfg .child)).trans h.spare.2⟩
  · exact (hsame.active v).symm ▸ h.bytes v
  · refine (activeAllocations_of_tally (hsame.tally v)).trans ((h.count v).trans (congrArg wrap ?_))
    have hnew := (hlisted v).length_eq
    have hold :=
      ((h.listed v).trans
        ((List.perm_cons_erase hb).filter fun b => decide (b.owner = v))).length_eq
    rw [List.length_map] at hnew hold
    dsimp only
    rw [hnew, hold, hlive, List.filter_cons, List.filter_cons, ho]
    split <;> rfl
  · have hm : c ∈ b' :: x.back.pool.live.erase b := hlive ▸ hm
    rcases List.mem_cons.mp hm with rfl | hm
    · obtain ⟨h1, h2, h3⟩ := h.blocks b hb
      refine ⟨hc.trans h1, ?_, fun he => ho.trans (h3 (ht ▸ he))⟩
      rcases hr with hr | rfl
      · exact hr ▸ hlt
      · exact h2
    · exact h.blocks c (List.mem_of_mem_erase hm)

theorem Inv.realloc (h : Inv x) {ptr newSize : Nat} (hlt : newSize < 2 ^ 64) (grow : Option Grown)
    (ans : Option Place) (intact : Bool) (sup : Supply) (back : Option (Nat × Nat))
    (site : Option Site) : Inv (x.realloc ptr newSize grow ans intact sup back site) := by
  unfold Export.realloc
  split
  · exact h.alloc hlt ans sup site
  · rename_i h0
    split
    · exact h.free ptr intact back
    · rename_i h1
      split
      · exact h
      · rename_i b hf
        have hb := (find_spec hf).1
        by_cases hmove : b.usable < newSize ∧ (if b.tier = .tlsf then grow else none).isNone
        · rw [if_pos hmove]
          split
          · refine (h.alloc hlt ans sup site).release ?_ intact back
            obtain ⟨bs, hadds⟩ := Tiers.mpAlloc_adds x.back.pool newSize ans
            have hlive : (x.alloc newSize ans sup site).back.pool.live = bs ++ x.back.pool.live :=
              hadds.live
            rw [hlive]
            exact List.mem_append_right _ hb
          · exact h.alloc hlt ans sup site
        · rw [if_neg hmove]
          have hback : x.back.realloc ptr newSize grow ans intact sup back =
              { x.back with pool := (mpRealloc x.back.pool ptr newSize grow ans intact).1 } := by
            unfold Backing.realloc
            rw [if_neg h0, if_neg h1, hf]
            dsimp only
            rw [if_neg hmove]
          have hs :
            Backing.Sized
              { x.back with pool := (mpRealloc x.back.pool ptr newSize grow ans intact).1 } :=
            h.sized.congr rfl
          rw [hback]
          exact h.resize hb hlt _ (mpRealloc_resized h0 h1 hf hmove) hs site

/-! ### A list that is emptied -/

theorem tlsfArenaRetire_pool (t : Backing) (w : Who) (base : Nat) :
    (t.tlsfArenaRetire w base).pool = t.pool := by
  unfold Backing.tlsfArenaRetire
  split
  · split <;> rfl
  · rfl

theorem resetPool_pool (t : Backing) (w : Who) (gives : List (Nat × Nat)) :
    (t.resetPool w gives).pool =
      { t.pool.set w { t.pool.pool w with activeBytes := 0, activeAllocations := 0,
                                          osAllocatedBytes := 0 } with
        live := t.pool.live.filter fun b => b.owner ≠ w } := by
  have hretire (l : List ThreadArena) (t : Backing) :
      (l.foldl (fun t a => t.tlsfArenaRetire w a.region.base) t).pool = t.pool := by
    induction l generalizing t with
    | nil => rfl
    | cons a l ih => exact (ih _).trans (tlsfArenaRetire_pool ..)
  unfold Backing.resetPool Backing.onHold
  dsimp only
  rw [hretire]
  rfl

theorem Inv.resetPool (h : Inv x) (w : Who) (gives : List (Nat × Nat)) :
    Inv ⟨x.back.resetPool w gives, Function.update x.active w []⟩ := by
  have hp := resetPool_pool x.back w gives
  have hother (v : Who) (e : v ≠ w) :
    (x.back.resetPool w gives).pool.pool v = x.back.pool.pool v := by
    rw [hp]
    exact set_ne _ _ e
  have hself : (x.back.resetPool w gives).pool.pool w =
      { x.back.pool.pool w with
        activeBytes := 0, activeAllocations := 0, osAllocatedBytes := 0 } := by
    rw [hp]
    exact set_self ..
  have hcfg (v : Who) : (x.back.resetPool w gives).cfg v = x.back.cfg v := by
    unfold Backing.cfg
    by_cases e : v = w
    · subst e
      rw [hself]
    · rw [hother v e]
  have hlive : (x.back.resetPool w gives).pool.live = x.back.pool.live.filter fun b => b.owner ≠
    w := by rw [hp]
  refine ⟨fun v => (congrArg Config.fastPath (hcfg v)).trans (h.plain v), ?_, h.sized.resetPool ..,
    fun v => ?_,
    fun v => ?_, fun v => ?_, fun b hb => ?_⟩
  · exact ⟨(congrArg Config.emergencyBuf (hcfg .child)).trans h.spare.1,
      (congrArg Config.limit (hcfg .child)).trans h.spare.2⟩
  · by_cases e : v = w
    · subst e
      rw [hself]
      exact Nat.two_pow_pos 64
    · rw [hother v e]
      exact h.bytes v
  · dsimp only
    by_cases e : v = w
    · subst e
      rw [hself, Function.update_self]
      rfl
    · rw [hother v e, Function.update_of_ne e]
      exact h.count v
  · dsimp only
    rw [hlive, List.filter_filter]
    by_cases e : v = w
    · subst e
      rw [Function.update_self, List.filter_eq_nil_iff.mpr fun b _ => by simp]
      exact .refl _
    · rw [Function.update_of_ne e]
      refine (h.listed v).trans (.of_eq (List.filter_congr fun b _ => ?_))
      by_cases ho : b.owner = v
      · simp [ho, e]
      · simp [ho]
  · have hb : b ∈ x.back.pool.live.filter fun b => b.owner ≠ w := hlive ▸ hb
    exact h.blocks b (List.mem_of_mem_filter hb)

theorem Inv.mpReset (h : Inv x) (w : Who) (gives childGives : List (Nat × Nat)) :
    Inv (x.mpReset w gives childGives) := by
  unfold Export.mpReset Backing.mpReset
  by_cases hc : w = .master ∧ x.back.pool.arenas = true
  · have hboth := (h.resetPool .child childGives).resetPool .master gives
    have hnil :
        (fun v => if v = w ∨ w = .master ∧ x.back.pool.arenas = true then [] else x.active v) =
          Function.update (Function.update x.active .child []) .master [] := by
      funext v
      cases v <;> simp [hc, Function.update]
    rw [if_pos hc, hnil]
    exact hboth
  · have hnil :
        (fun v => if v = w ∨ w = .master ∧ x.back.pool.arenas = true then [] else x.active v) =
          Function.update x.active w [] := by
      funext v
      simp only [hc, or_false, Function.update_apply]
    rw [if_neg hc, hnil]
    exact h.resetPool w gives

/-! ### Calls that touch no block -/

theorem Inv.upkeep (h : Inv x) (hp : back.pool = x.back.pool) (hs : back.Sized) :
    Inv { x with back := back } := by
  have hcfg (v : Who) : back.cfg v = x.back.cfg v := congrArg (fun s : State => (s.pool v).cfg) hp
  refine ⟨fun v => ?_, ?_, hs, ?_, ?_, ?_, ?_⟩
  · exact (congrArg Config.fastPath (hcfg v)).trans (h.plain v)
  · exact ⟨(congrArg Config.emergencyBuf (hcfg .child)).trans h.spare.1,
      (congrArg Config.limit (hcfg .child)).trans h.spare.2⟩
  · rw [hp]
    exact h.bytes
  · rw [hp]
    exact h.count
  · rw [hp]
    exact h.listed
  · rw [hp]
    exact h.blocks

theorem Inv.create (h : Inv x) (capacity : Nat) (ans : Option Nat) :
    Inv { x with back := x.back.mpCreate capacity ans } := by
  unfold Backing.mpCreate Backing.tlsfCreatePool
  dsimp only
  have hs : Backing.Sized { x.back with stage := .running } := h.sized.congr rfl
  split
  · exact h.upkeep rfl hs
  · cases ans with
    | none => exact h.upkeep rfl hs
    | some base => exact h.upkeep rfl (hs.obtain fun _ => hs.total _)

theorem Inv.expand (h : Inv x) (bytes : Nat) (ans : Option Nat) :
    Inv { x with back := x.back.mpExpandPool bytes ans } := by
  unfold Backing.mpExpandPool Backing.tlsfCreatePool
  split
  · exact h
  · cases ans with
    | none => exact h
    | some base => exact h.upkeep rfl (h.sized.obtain fun _ => h.sized.total _)

theorem Inv.reclaim (h : Inv x) (now : Nat) (gives : List (Nat × Nat)) :
    Inv { x with back := (x.back.mpReclaimIdlePages now gives).1 } := by
  refine h.upkeep rfl ?_
  unfold Backing.mpReclaimIdlePages
  dsimp only
  generalize ((gives.foldl PageLists.give (x.back.hold .master).pages).empties.length +
    (_ - _) : Nat) = n
  refine h.sized.onHold ?_
  exact Nat.lt_of_le_of_lt (Backing.lessPages_le n _) (h.sized.total .master)

theorem Inv.tlsFlush (h : Inv x) (w : Who) (gives : List (Nat × Nat)) (arena : Option Nat) :
    Inv { x with back := x.back.tlsCacheFlush w gives arena } := by
  have hs :
    (x.back.onHold w fun h => { h with pages := gives.foldl PageLists.give h.pages }).Sized :=
    h.sized.onHold (h.sized.total w)
  unfold Backing.tlsCacheFlush
  dsimp only
  split
  · exact h.upkeep (tlsfArenaRetire_pool ..) (hs.tlsfArenaRetire ..)
  · exact h.upkeep rfl hs

/-- The environment sets none of the flags the active list depends on. -/
theorem Inv.reparseEnvFlags (h : Inv x) (env : Option String) :
    Inv { x with back := x.back.mpReparseEnvFlags env } := by
  have hflag (c : Config) : (mpParseEnvFlags c env).fastPath = c.fastPath := by cases env <;> rfl
  have hsame (v : Who) :
      ((x.back.mpReparseEnvFlags env).pool.pool v).activeBytes = (x.back.pool.pool v).activeBytes ∧
      ((x.back.mpReparseEnvFlags env).pool.pool v).activeAllocations =
        (x.back.pool.pool v).activeAllocations := by
    show ((x.back.pool.set .master _).pool v).activeBytes = _ ∧
      ((x.back.pool.set .master _).pool v).activeAllocations = _
    by_cases e : v = .master
    · subst e
      rw [set_self]
      exact ⟨rfl, rfl⟩
    · rw [set_ne _ _ e]
      exact ⟨rfl, rfl⟩
  refine ⟨fun v => ?_, ?_, h.sized.congr rfl, fun v => (hsame v).1.symm ▸ h.bytes v,
    fun v => (hsame v).2.trans (h.count v), h.listed, h.blocks⟩
  · show (((x.back.pool.set .master _).pool v).cfg).fastPath = false
    cases v with
    | master =>
      rw [set_self]
      exact (hflag _).trans (h.plain .master)
    | child =>
      rw [set_ne _ _ (by decide)]
      exact h.plain .child
  · show (((x.back.pool.set .master _).pool .child).cfg).emergencyBuf = 0 ∧ _ = 0
    rw [set_ne _ _ (by decide)]
    exact h.spare

theorem Inv.step (h : Inv x) {l : Act} (hpre : x.pre l) : Inv (x.next l) := by
  cases l with
  | alloc size ans sup site => exact h.alloc hpre.2 ans sup site
  | alignedAlloc alignment size ans sup => exact h.alignedAlloc alignment hpre.2.2 ans sup
  | allocBatch size count as sups => exact h.allocBatch count hpre.2.1 as sups
  | realloc ptr newSize grow ans intact sup back site =>
    exact h.realloc hpre.2.1 grow ans intact sup back site
  | free ptr intact back => exact h.free ptr intact back
  | freeBatch ptrs =>
    have hnd : ((ptrs.map Prod.fst).filter (· ≠ 0)).Nodup := by
      have := hpre.2.1
      rwa [List.map_map] at this
    exact h.freeBatch hnd nofun ⟨_, .refl _⟩ nofun
  | reset w gives childGives _ => exact h.mpReset w gives childGives
  | create capacity ans => exact h.create capacity ans
  | expand bytes ans => exact h.expand bytes ans
  | compact now =>
    refine h.upkeep rfl ?_
    unfold Backing.mpCompact
    dsimp only
    refine h.sized.onHold ?_
    exact h.sized.total .master
  | reclaim now gives => exact h.reclaim now gives
  | flush w gives arena => exact h.tlsFlush w gives arena
  | reparseEnvFlags env => exact h.reparseEnvFlags env

end Inv

/-! ## Which snapshots are read back -/

section Run
variable {c : Config} {arenas : Bool} {v : Vtable} {i : IdleReclaim} {x : Export}

theorem inv_start (hc : c.fastPath = false) (q n : Nat) : Inv (start c arenas v i q n) where
  plain w := by cases w <;> exact hc
  spare := ⟨rfl, rfl⟩
  sized := ⟨fun _ => Nat.two_pow_pos 64⟩
  bytes w := by cases w <;> exact Nat.two_pow_pos 64
  count w := by cases w <;> rfl
  listed _ := .refl _
  blocks := nofun

theorem inductive_inv (hc : c.fastPath = false) :
    (system c arenas v i).Inductive fun x => Inv x ∧ ∀ b ∈ x.back.pool.live, b.ptr < 2 ^ 64 where
  init := by
    rintro x ⟨q, n, rfl⟩
    exact ⟨inv_start hc q n, nofun⟩
  step := by
    rintro x l x' ⟨h, -⟩ ⟨⟨hpre, hm⟩, rfl⟩
    exact ⟨h.step hpre, hm.2⟩

/-- The totals of the header are plausible: the active bytes are at most the total size, and
that is at most a terabyte. -/
def Covers (x : Export) (w : Who) : Prop :=
  (x.back.pool.pool w).activeBytes ≤ (x.back.hold w).total ∧ (x.back.hold w).total ≤ 2 ^ 40

instance decCovers (x : Export) (w : Who) : Decidable (x.Covers w) := by
  unfold Covers; exact inferInstance

/-- **A snapshot of a pool is read back** exactly when the atomic total covers the active
bytes. -/
theorem snapshot_round_trip_iff (hc : c.fastPath = false)
    (hr : ((system c arenas v i).guard Careful).Reachable x) (w : Who)
    (hlive : (x.back.pool.live.filter fun b => b.owner = w).length ≤ 2 ^ 20)
    (hline : ∀ h ∈ x.active w, h.site.line ≤ 1000000) : RoundTrip (x.image w) ↔ x.Covers w := by
  obtain ⟨h, hptr⟩ := (inductive_inv hc).reachable hr.of_guard
  have hlen := (h.listed w).length_eq
  rw [List.length_map] at hlen
  have hcount : (x.back.pool.pool w).activeAllocations = (x.active w).length :=
    (h.count w).trans (Nat.mod_eq_of_lt (by omega))
  have hmem (e : Listed) (he : e ∈ x.active w) : e.block ∈ x.back.pool.live :=
    List.mem_of_mem_filter ((h.listed w).subset (List.mem_map_of_mem he))
  have hfits : (x.image w).Fits := by
    refine ⟨h.sized.total w, h.bytes w, ?_, fun e he => ?_⟩
    · show (x.back.pool.pool w).activeAllocations < 2 ^ 64
      omega
    · obtain ⟨e, hm, rfl⟩ := List.mem_map.mp he
      refine ⟨hptr _ (hmem e hm), (h.blocks _ (hmem e hm)).2.1, ?_, hline e hm⟩
      show e.block.tier.code ≤ 8
      cases e.block.tier <;> decide
  rw [L1.Snapshot.roundTrip_iff hfits]
  unfold Covers image
  dsimp only
  rw [List.length_map, hcount]
  constructor
  · rintro ⟨h1, h2, -, -⟩
    exact ⟨h1, h2⟩
  · rintro ⟨h1, h2⟩
    exact ⟨h1, h2, Nat.le_refl _, by omega⟩

instance decPre (x : Export) : (l : Act) → Decidable (x.pre l)
  | .alloc size ans _ _ =>
    inferInstanceAs (Decidable (x.back.stage = .running ∧ x.back.pool.pre (.alloc size ans)))
  | .alignedAlloc alignment size ans _ =>
    inferInstanceAs (Decidable
      (x.back.stage = .running ∧ x.back.pool.pre (.alignedAlloc alignment size ans)))
  | .allocBatch size count as _ =>
    inferInstanceAs (Decidable
      (x.back.stage = .running ∧ x.back.pool.pre (.allocBatch size count as)))
  | .realloc ptr newSize grow ans intact _ _ _ =>
    inferInstanceAs (Decidable
      (x.back.stage = .running ∧ x.back.pool.pre (.realloc ptr newSize grow ans intact)))
  | .free ptr intact _ =>
    inferInstanceAs (Decidable (x.back.stage = .running ∧ x.back.pool.pre (.free ptr intact)))
  | .freeBatch ptrs => inferInstanceAs (Decidable (x.back.stage = .running ∧
      x.back.pool.pre (.freeBatch (ptrs.map fun q => (q.1, q.2.1)))))
  | .create capacity _ => inferInstanceAs (Decidable (x.back.stage = .fresh ∧ capacity < 2 ^ 64))
  | .expand bytes _ => inferInstanceAs (Decidable (x.back.stage = .running ∧ bytes < 2 ^ 64))
  | .reset .. | .compact _ | .reclaim .. | .flush .. | .reparseEnvFlags _ =>
    inferInstanceAs (Decidable (x.back.stage = .running))

instance decMapped (x : Export) : Decidable x.Mapped := by unfold Mapped; exact inferInstance

section Careful
variable (x : Export) (s : PageLists)

instance decUnused (i : IdleReclaim) (now : Nat) : Decidable (Unused i now s) := by
  unfold Unused; exact inferInstance

instance decRoomy (c c' : Config) : Decidable (Roomy c c' s) := by unfold Roomy; exact inferInstance

instance decArena (bytes : Nat) : Decidable (Arena bytes) := by unfold Arena; exact inferInstance

instance decMoves (b : Block) (newSize : Nat) (grow : Option Grown) :
    Decidable (x.Moves b newSize grow) := by
  unfold Moves
  split
  · exact inferInstance
  · split <;> exact inferInstance

instance decCareful : (l : Act) → Decidable (x.Careful l)
  | .alloc size .. | .allocBatch size .. => decSane (x.back.cfg x.back.pool.route) size
  | .alignedAlloc alignment size .. =>
    inferInstanceAs (Decidable
      (size + alignment + headerSize + (x.back.cfg .master).canaryLen < 2 ^ 64 ∧
        (x.back.cfg .master).Serves
          (size + alignment + headerSize + (x.back.cfg .master).canaryLen)))
  | .realloc ptr newSize grow .. =>
    inferInstanceAs (Decidable (if ptr = 0 then (x.back.cfg x.back.pool.route).Sane newSize
      else newSize ≠ 0 → ∀ b ∈ x.back.pool.live, b.ptr = ptr → x.Moves b newSize grow))
  | .free .. | .freeBatch _ | .flush .. => .isTrue trivial
  | .reset _ _ _ left => inferInstanceAs (Decidable (left = []))
  | .create bytes _ | .expand bytes _ => decArena bytes
  | .compact now => decUnused (x.back.hold .master).pages x.back.idle now
  | .reclaim now gives =>
    decUnused (gives.foldl PageLists.give (x.back.hold .master).pages) x.back.idle now
  | .reparseEnvFlags env =>
    decRoomy (x.back.hold .master).pages (x.back.cfg .master)
      (mpParseEnvFlags (x.back.cfg .master) env)

end Careful

/-- `f` in `m.c` allocates 100 bytes in line 42, on a new slab page. -/
def onPage : List Act :=
  [.create 0 none,
    .alloc 100 (some ⟨0x100e0, 0x10048, 0x10160, false⟩) ⟨[], [some 0x10000], none, none, none⟩
    (some ⟨42, some ⟨[109, 46, 99], by decide⟩, some ⟨[102], by decide⟩⟩)]

def noFns : Vtable := ⟨false, false⟩
def noReclaim : IdleReclaim := ⟨false, 0, 0⟩

theorem snapshot_round_trip_page :
    RoundTrip ((onPage.foldl next (start plain false noFns noReclaim 0 0)).image .master) := by
  have hr : ((system plain false noFns noReclaim).guard Careful).Reachable
      (onPage.foldl next (start plain false noFns noReclaim 0 0)) :=
    LTS.Reachable.run (.init ⟨0, 0, rfl⟩) (by decide +kernel)
  exact (snapshot_round_trip_iff rfl hr .master (by decide +kernel) (by decide +kernel)).mpr
    (by decide +kernel)

/-- 1000 bytes in the arena of an initial capacity of 1 MiB. -/
def inCapacity : List Act :=
  [.create 1048576 (some 0x100000),
    .alloc 1000 (some ⟨0x105b80, 0x105ac8, 0x105f68, false⟩) ⟨[], [], none, none, none⟩ none]

/-- **Defect.** The initial capacity is not in the total that the snapshot tells, so that a
block in it makes the snapshot implausible. -/
theorem capacity_snapshot_refused : ∃ x,
    ((system plain false noFns noReclaim).guard Careful).Reachable x ∧ x.back.stage = .running ∧
    (x.back.pool.live.filter fun b => b.owner = .master).length ≤ 2 ^ 20 ∧
    (∀ h ∈ x.active .master, h.site.line ≤ 1000000) ∧ ¬RoundTrip (x.image .master) := by
  have hr : ((system plain false noFns noReclaim).guard Careful).Reachable
      (inCapacity.foldl next (start plain false noFns noReclaim 0 0)) :=
    LTS.Reachable.run (.init ⟨0, 0, rfl⟩) (by decide +kernel)
  refine ⟨_, hr, by decide +kernel, by decide +kernel, by decide +kernel, fun h => ?_⟩
  exact absurd h.1 (by decide +kernel)

end Run

end Export

end Cmem.L3.Pool

import Mathlib
import Cmem.Core.LTS
import Cmem.L2Slab.Transit

/-!
# Compaction

`mp_freeable` (src/src/cmem_config.c:214-236) and `mp_compact` (src/src/cmem_sys.c:722-776) of a
pool whose slab pages are taken from, given back to, reset and reclaimed. The steps are those on
a page list, in any order; which slots are in blocks and which wait in a thread cache, a per-CPU
list or a queue of remote frees is kept beside the lists. A page is on the partial list or the
empty list when all its slots are free, and both scans go through the partial lists only:
`compaction_exact_iff` says that they are complete just when the empty lists have no page.
-/
namespace Cmem.L3.Compact
open Cmem.L2.Slab

/-- `SLAB_CLASS_COUNT` classes -/
def classes : List Nat := List.range 12

structure Pool where
  /-- `MP_FLAG_STATIC_BUFFER` -/
  isStatic : Bool
  /-- `idle_reclaim_enabled` -/
  idleReclaim : Bool
  /-- `idle_reclaim_min_pages` -/
  minPages : Nat
  cls : Nat → SlabClass
  /-- the mapped pages of a class -/
  pages : Nat → List Nat
  /-- the slots of a class in blocks -/
  live : Nat → List Nat
  /-- the slots of a class in caches and queues -/
  waiting : Nat → List Nat

namespace Pool

/-- A pool without pages. -/
def start (isStatic canary : Bool) (sizes : Nat → Nat) : Pool where
  isStatic := isStatic
  idleReclaim := false
  minPages := 0
  cls i :=
    ⟨sizes i, canary, 0, 0, 0, 0, fun _ => 0, fun _ => 0, fun _ => 0, fun _ => 0, fun _ => 0,
      fun _ => 0⟩
  pages _ := []
  live _ := []
  waiting _ := []

/-- New fields for a class. -/
def setClass (s : Pool) (i : Nat) (c : SlabClass) : Pool :=
  { s with cls := Function.update s.cls i c }

/-- The page of a turn, with what the system answers; the third phase of a refill does not link a
new one. -/
def pageFor (s : Pool) (i : Nat) (linked : Bool) (answer : Option Nat) : Refill × Nat :=
  let x : Refill := ⟨s.cls i, ⟨0, 0⟩, 0, []⟩
  if linked then x.drainPage fun _ => answer else x.directPage fun _ => answer

/-- One turn of `tls_cache_drain_slots`, `percpu_refill`, `slab_alloc_batch` or `slab_alloc_slot`
(src/src/cmem_slab.c:1150-1203, 1557-1608, 1324-1376 and 889-943), or the third phase of
`slab_alloc_with_tls_refill`. -/
def take (s : Pool) (i : Nat) (linked : Bool) (answer : Option Nat) (cached : Bool) : Pool :=
  let (x, page) := s.pageFor i linked answer
  let s := { s with pages := Function.update s.pages i (x.made ++ s.pages i) }
  if page = 0 then s.setClass i x.cls
  else
    match x.cls.takeSlot page with
    | none => s.setClass i x.cls
    | some (c, slot) =>
      if cached then
        { s.setClass i c with waiting := Function.update s.waiting i (slot :: s.waiting i) }
      else { s.setClass i c with live := Function.update s.live i (slot :: s.live i) }

/-- A slot of a block goes to a cache or a queue. -/
def cache (s : Pool) (i slot : Nat) : Pool :=
  { s with
    live := Function.update s.live i ((s.live i).erase slot)
    waiting := Function.update s.waiting i (slot :: s.waiting i) }

/-- A block is made of a slot that waits. -/
def uncache (s : Pool) (i slot : Nat) : Pool :=
  { s with
    live := Function.update s.live i (slot :: s.live i)
    waiting := Function.update s.waiting i ((s.waiting i).erase slot) }

/-- The first word of a slot that is out is written. -/
def write (s : Pool) (i slot v : Nat) : Pool :=
  s.setClass i { s.cls i with slotNext := Function.update (s.cls i).slotNext slot v }

/-- `slab_free` of a block or of a slot that waits. -/
def give (s : Pool) (i slot : Nat) (cached : Bool) : Pool :=
  let s := s.setClass i ((s.cls i).slabFree slot)
  if cached then { s with waiting := Function.update s.waiting i ((s.waiting i).erase slot) }
  else { s with live := Function.update s.live i ((s.live i).erase slot) }

def resetClasses (n : Nat) : List Nat → Pool → Option Pool
  | [], s => some s
  | i :: is, s =>
    match (s.cls i).reset n with
    | none => none
    | some c => resetClasses n is (s.setClass i c)

/-- mirrors `mp_reset`, src/src/cmem_lifecycle.c:127-213, behind the flushes of the thread cache and
the per-CPU lists, on the slab pages: the blocks of before are none -/
def mpReset (n : Nat) (s : Pool) : Option Pool :=
  (s.resetClasses n classes).map fun s => { s with live := fun _ => [] }

section Scan
-- whether the pages have been idle for `idle_reclaim_timeout_ms`
variable (due : Nat → Bool)

/-- The scan of a class, of its empty list too when it is one of `mp_reclaim_idle_pages`. -/
def scanClass (empties : Bool) (minPages n : Nat) (c : SlabClass) (freed idle : Nat) :
    Option Sweep :=
  match if empties then sweepEmpties n ⟨c, [], freed, idle⟩ else some ⟨c, [], freed, idle⟩ with
  | none => none
  | some x => sweepPartials due minPages n x.cls.partialPages x

/-- The class and its pages after a scan. -/
def settle (s : Pool) (i : Nat) (x : Sweep) : Pool :=
  { s.setClass i x.cls with pages := Function.update s.pages i (remain (s.pages i) x.gone) }

def scanClasses (empties : Bool) (minPages n : Nat) : List Nat → Pool → Nat → Nat →
  Option (Pool × Nat)
  | [], s, freed, _ => some (s, freed)
  | i :: is, s, freed, idle =>
    match scanClass (fun p => s.idleReclaim && due p) empties minPages n (s.cls i) freed idle with
    | none => none
    | some x => scanClasses empties minPages n is (s.settle i x) x.freedBytes x.idleCount

/-- mirrors `mp_compact`, src/src/cmem_sys.c:722-776, with `freed_bytes` -/
def mpCompact (n : Nat) (s : Pool) : Option (Pool × Nat) :=
  if s.isStatic then some (s, 0) else s.scanClasses due false 0 n classes 0 0

/-- mirrors `mp_reclaim_idle_pages`, src/src/cmem_lifecycle.c:248-334, behind the flushes -/
def mpReclaimIdlePages (n : Nat) (s : Pool) : Option (Pool × Nat) :=
  if s.isStatic then some (s, 0) else s.scanClasses due true s.minPages n classes 0 0

end Scan

def freeableClasses (n : Nat) : List Nat → Pool → Nat → Option Nat
  | [], _, bytes => some bytes
  | i :: is, s, bytes =>
    match visited (s.cls i).next n (s.cls i).partialPages with
    | none => none
    | some l =>
      freeableClasses n is s
        (l.foldl
          (fun b p => if (s.cls i).freeCount p = (s.cls i).totalSlots p then b + 65536 else b) bytes)

/-- mirrors `mp_freeable`, src/src/cmem_config.c:214-236 -/
def mpFreeable (n : Nat) (s : Pool) : Option Nat := s.freeableClasses n classes 0

/-- `MADV_DONTNEED` on the free pages of a class: what is in whole pages of the system reads as 0
afterwards, src/src/cmem_sys.c:812-831. -/
def purgeClass (pageSz : Nat) (c : SlabClass) (l : List Nat) : SlabClass :=
  { c with
    slotNext := fun a =>
      if l.any fun p => c.freeCount p = c.totalSlots p ∧
          (p + 72 + pageSz - 1) / pageSz * pageSz ≤ a ∧ a < (p + 65536) / pageSz * pageSz then 0
      else c.slotNext a }

def purgeClasses (pageSz n : Nat) : List Nat → Pool → Option Pool
  | [], s => some s
  | i :: is, s =>
    match visited (s.cls i).next n (s.cls i).partialPages with
    | none => none
    | some l => purgeClasses pageSz n is (s.setClass i (purgeClass pageSz (s.cls i) l))

/-- mirrors `mp_purge_lazy`, src/src/cmem_sys.c:788-841 -/
def mpPurgeLazy (pageSz n : Nat) (s : Pool) : Option Pool :=
  if s.isStatic then some s else s.purgeClasses pageSz n classes

end Pool

/-! ## The system -/

inductive Act where
  | take (i : Nat) (linked : Bool) (answer : Option Nat) (cached : Bool)
  | cache (i slot : Nat)
  | uncache (i slot : Nat)
  | write (i slot v : Nat)
  | give (i slot : Nat) (cached : Bool)
  | reset (n : Nat)
  | compact (due : Nat → Bool) (n : Nat)
  | reclaim (due : Nat → Bool) (n : Nat)
  | purge (pageSz n : Nat)
  | setIdle (enable : Bool) (minPages : Nat)
  | setSlabClasses (sizes : Nat → Nat)

namespace Pool

def next (s : Pool) : Act → Pool
  | .take i linked answer cached => s.take i linked answer cached
  | .cache i slot => s.cache i slot
  | .uncache i slot => s.uncache i slot
  | .write i slot v => s.write i slot v
  | .give i slot cached => s.give i slot cached
  | .reset n => (s.mpReset n).getD s
  | .compact due n => ((s.mpCompact due n).map Prod.fst).getD s
  | .reclaim due n => ((s.mpReclaimIdlePages due n).map Prod.fst).getD s
  | .purge pageSz n => (s.mpPurgeLazy pageSz n).getD s
  | .setIdle enable minPages => { s with idleReclaim := enable, minPages := minPages }
  | .setSlabClasses sizes => { s with cls := fun i => { s.cls i with slotSize := sizes i } }

/-- So many turns suffice for every loop. -/
def turns (s : Pool) : Nat := (classes.map fun i => (s.pages i).length).sum

/-- Pools with a static buffer have no slabs; the system gives pages that are aligned and new; a
slot is used from where it is; a call has come to its end. -/
def pre (s : Pool) : Act → Prop
  | .take i _ answer _ => s.isStatic = false ∧ i ∈ classes ∧
      ∀ p ∈ answer, p ≠ 0 ∧ p % 65536 = 0 ∧ ∀ j ∈ classes, ∀ q ∈ s.pages j, L2.Slab.Apart p q
  | .cache i slot => i ∈ classes ∧ slot ∈ s.live i
  | .uncache i slot => i ∈ classes ∧ slot ∈ s.waiting i
  | .write i slot _ => i ∈ classes ∧ (slot ∈ s.live i ∨ slot ∈ s.waiting i)
  | .give i slot cached => i ∈ classes ∧ slot ∈ if cached then s.waiting i else s.live i
  | .reset n => s.turns ≤ n ∧ (s.mpReset n).isSome
  | .compact due n => s.turns ≤ n ∧ (s.mpCompact due n).isSome
  | .reclaim due n => s.turns ≤ n ∧ (s.mpReclaimIdlePages due n).isSome
  | .purge pageSz n => s.turns ≤ n ∧ (s.mpPurgeLazy pageSz n).isSome
  | .setIdle _ _ => True
  | .setSlabClasses _ => True

/-- The slots of each class fit a page. -/
def Fits (s : Pool) : Prop := ∀ i ∈ classes, 0 < (s.cls i).carved

instance (s : Pool) : Decidable s.Fits := inferInstanceAs (Decidable (∀ _ ∈ _, _))

end Pool

def system : LTS Pool Act :=
  .det (fun s => ∃ isStatic canary sizes, s = .start isStatic canary sizes ∧ s.Fits)
    Pool.pre Pool.next

/-- The third phase of a refill gets no page that the drain could not; nothing waits at a reset;
idle reclaim is off in a scan; no page is purged of its free list; and the classes are set before
there are pages. -/
def Quiet (s : Pool) : Act → Prop
  | .take i linked answer _ =>
    linked = true ∨ answer = none ∨ (s.cls i).partialPages ≠ 0 ∨ (s.cls i).emptyPages ≠ 0
  | .reset _ => ∀ i ∈ classes, s.waiting i = []
  | .compact _ _ => s.idleReclaim = false
  | .reclaim _ _ => s.idleReclaim = false
  | .purge _ _ => ∀ i ∈ classes, ∀ p ∈ s.pages i, (s.cls i).freeCount p ≠ (s.cls i).totalSlots p
  | .setSlabClasses sizes =>
    ∀ i ∈ classes, s.pages i = [] ∧ 0 < { s.cls i with slotSize := sizes i : SlabClass }.carved
  | _ => True

instance decApart (p q : Nat) : Decidable (L2.Slab.Apart p q) := inferInstanceAs (Decidable (_ ∨ _))

instance decPre (s : Pool) : (l : Act) → Decidable (s.pre l)
  | .take _ _ answer _ => inferInstanceAs (Decidable (_ ∧ _ ∧
      ∀ p ∈ answer, p ≠ 0 ∧ p % 65536 = 0 ∧ ∀ j ∈ classes, ∀ q ∈ s.pages j, L2.Slab.Apart p q))
  | .cache _ _ | .uncache _ _ | .give _ _ _ => inferInstanceAs (Decidable (_ ∧ _ ∈ _))
  | .write _ _ _ => inferInstanceAs (Decidable (_ ∧ (_ ∨ _)))
  | .reset _ | .compact _ _ | .reclaim _ _ | .purge _ _ => inferInstanceAs (Decidable (_ ∧ _))
  | .setIdle _ _ | .setSlabClasses _ => inferInstanceAs (Decidable True)

instance decQuiet (s : Pool) : (l : Act) → Decidable (Quiet s l)
  | .take _ _ answer _ =>
    have : Decidable (answer = none) :=
      decidable_of_iff (answer.isNone = true) Option.isNone_iff_eq_none
    inferInstanceAs (Decidable (_ ∨ _ ∨ _ ∨ _))
  | .reset _ | .purge _ _ | .setSlabClasses _ => by unfold Quiet; exact inferInstance
  | .compact _ _ | .reclaim _ _ => inferInstanceAs (Decidable (_ = _))
  | .cache _ _ | .uncache _ _ | .write _ _ _ | .give _ _ _ | .setIdle _ _ =>
    inferInstanceAs (Decidable True)

/-! ## Completeness -/

/-- A page is on a list. -/
def On (L : DL Nat) (p : Nat) : Prop := ∃ l, L.Is l ∧ p ∈ l

/-- A page keeps its place on the lists, its free list and its count. -/
structure Keeps (c c' : SlabClass) (p : Nat) : Prop where
  partials : On c.partials p ↔ On c'.partials p
  fulls : On c.fulls p ↔ On c'.fulls p
  empties : On c.empties p ↔ On c'.empties p
  freeList : ∀ l, Chain c.slotNext (c.freeList p) l ↔ Chain c'.slotNext (c'.freeList p) l
  freeCount : c'.freeCount p = c.freeCount p

/-- `ws i` are the pages of class `i` all of whose slots are on their own free list. -/
def FreePages (s : Pool) (ws : Nat → List Nat) : Prop :=
  ∀ i ∈ classes, (ws i).Nodup ∧ ∀ p, p ∈ ws i ↔ p ∈ s.pages i ∧ AllFree (s.cls i) p

/-- No free page remains, and the other pages are as they were. -/
structure Compacted (s s' : Pool) : Prop where
  none : ∀ i ∈ classes, ∀ p ∈ s'.pages i, ¬AllFree (s'.cls i) p
  others : ∀ i ∈ classes, ∀ p ∈ s.pages i, ¬AllFree (s.cls i) p →
    p ∈ s'.pages i ∧ Keeps (s.cls i) (s'.cls i) p

/-- **Complete and exact**: `mp_freeable` counts the pages that are free, and `mp_compact` gives
just them back. -/
def Exact (s : Pool) : Prop :=
  ∃ ws, FreePages s ws ∧
  ∃ n₀, ∀ n ≥ n₀, s.mpFreeable n = some (65536 * (classes.map fun i => (ws i).length).sum) ∧
    ∀ due, ∃ s', s.mpCompact due n = some (s', 65536 * (classes.map fun i => (ws i).length).sum) ∧
    Compacted s s'

/-! ## The invariant -/

def ClassOk (s : Pool) (i : Nat) : Prop :=
  ∃ ps fs es, Sound (s.cls i) (s.pages i) ps fs es (s.live i ++ s.waiting i)

structure Ok (s : Pool) : Prop where
  sound : ∀ i ∈ classes, ClassOk s i
  static : s.isStatic = true → ∀ i ∈ classes, s.pages i = []

section Steps
variable {s s' : Pool} {c : SlabClass} {pages ps fs es out : List Nat} {i j slot v n : Nat}
  {linked cached : Bool}
  {answer : Option Nat}

/-- Another class of a pool. -/
theorem ClassOk.congr (h : ClassOk s i) (hc : s'.cls i = s.cls i) (hp : s'.pages i = s.pages i)
    (hl : s'.live i = s.live i) (hw : s'.waiting i = s.waiting i) : ClassOk s' i := by
  unfold ClassOk
  rw [hc, hp, hl, hw]
  exact h

/-- The page a turn takes its slot from is the first partial one then. -/
theorem pageFor_spec (h : Sound (s.cls i) (s.pages i) ps fs es out)
    (hf : ∀ p ∈ answer, p ≠ 0 ∧ p % 65536 = 0 ∧ ∀ q ∈ s.pages i, L2.Slab.Apart p q)
    (hq : linked = true ∨ answer = none ∨ (s.cls i).partialPages ≠ 0 ∨ (s.cls i).emptyPages ≠ 0) :
    ∃ x page, s.pageFor i linked answer = (x, page) ∧
      ((page = 0 ∧ x.cls = s.cls i ∧ x.made = []) ∨
        page ≠ 0 ∧ ∃ ps' es', Sound x.cls (x.made ++ s.pages i) (page :: ps') fs es' out) := by
  have hps : (s.cls i).partialPages = 0 ↔ ps = [] := h.lists.partials.head_eq_zero_iff
  have hes : (s.cls i).emptyPages = 0 ↔ es = [] := h.lists.empties.head_eq_zero_iff
  unfold Pool.pageFor Refill.drainPage Refill.directPage
  dsimp only
  by_cases hp0 : (s.cls i).partialPages = 0
  · by_cases he0 : (s.cls i).emptyPages = 0
    · rw [if_neg (not_not_intro hp0), if_neg (not_not_intro he0), if_neg (not_not_intro hp0),
        if_neg (not_not_intro he0)]
      unfold Refill.createPage
      dsimp only
      cases answer with
      | none =>
        exact ⟨⟨s.cls i, ⟨0, 0⟩, 1, []⟩, 0, by cases linked <;> rfl, .inl ⟨rfl, rfl, rfl⟩⟩
      | some p =>
        obtain ⟨h0, hal, hap⟩ := hf p rfl
        have hlinked : linked = true := hq.resolve_right (by
          rintro (hn | hn | hn)
          · cases hn
          · exact hn hp0
          · exact hn he0)
        subst hlinked
        refine ⟨_, p, by rw [if_pos rfl, if_neg h0], .inr ⟨h0, ps, es, ?_⟩⟩
        exact h.newPage h0 hal hap
    · rw [if_neg (not_not_intro hp0), if_pos he0, if_neg (not_not_intro hp0), if_pos he0]
      obtain ⟨q, es', rfl⟩ := List.exists_cons_of_ne_nil fun hn => he0 (hes.mpr hn)
      obtain ⟨rfl, hs⟩ := h.reuseEmpty
      exact ⟨_, _, by cases linked <;> rfl, .inr ⟨he0, ps, es', hs⟩⟩
  · rw [if_pos hp0, if_pos hp0]
    obtain ⟨q, ps', rfl⟩ := List.exists_cons_of_ne_nil fun hn => hp0 (hps.mpr hn)
    have hhead : (s.cls i).partialPages = q := h.lists.partials.chain.1
    exact ⟨_, _, by cases linked <;> rfl, .inr ⟨hp0, ps', es, hhead ▸ h⟩⟩

/-- A class changes and the others do not. -/
theorem Ok.setClass (h : Ok s) (hi : ClassOk s' i) (hs : s'.isStatic = s.isStatic)
    (hst : s.isStatic = true → s'.pages i = [])
    (hc : ∀ j, j ≠ i → s'.cls j = s.cls j ∧ s'.pages j = s.pages j ∧ s'.live j = s.live j ∧
    s'.waiting j = s.waiting j) : Ok s' where
  sound j hj := by
    by_cases he : j = i
    · exact he ▸ hi
    · obtain ⟨h1, h2, h3, h4⟩ := hc j he
      exact (h.sound j hj).congr h1 h2 h3 h4
  static ht j hj := by
    rw [hs] at ht
    by_cases he : j = i
    · exact he ▸ hst ht
    · rw [(hc j he).2.1]
      exact h.static ht j hj

theorem Ok.take (h : Ok s) (hp : s.pre (.take i linked answer cached))
    (hq : Quiet s (.take i linked answer cached)) : Ok (s.take i linked answer cached) := by
  obtain ⟨hst, hi, hf⟩ := hp
  obtain ⟨ps, fs, es, hs⟩ := h.sound i hi
  obtain ⟨x, page, hpage, hres⟩ := pageFor_spec hs (fun p hm => by
    obtain ⟨h0, hal, hap⟩ := hf p hm
    exact ⟨h0, hal, hap i hi⟩) hq
  have hother : ∀ j, j ≠ i → (s.take i linked answer cached).cls j = s.cls j ∧
      (s.take i linked answer cached).pages j = s.pages j ∧
      (s.take i linked answer cached).live j = s.live j ∧
      (s.take i linked answer cached).waiting j = s.waiting j := fun j hj => by
    unfold Pool.take
    rw [hpage]
    dsimp only
    split
    · exact ⟨Function.update_of_ne hj _ _, Function.update_of_ne hj _ _, rfl, rfl⟩
    · split
      · exact ⟨Function.update_of_ne hj _ _, Function.update_of_ne hj _ _, rfl, rfl⟩
      · split
        · exact ⟨Function.update_of_ne hj _ _, Function.update_of_ne hj _ _, rfl,
            Function.update_of_ne hj _ _⟩
        · exact ⟨Function.update_of_ne hj _ _, Function.update_of_ne hj _ _,
            Function.update_of_ne hj _ _, rfl⟩
  refine h.setClass ?_ ?_ (fun ht => absurd (hst.symm.trans ht) nofun) hother
  · unfold ClassOk Pool.take
    rw [hpage]
    dsimp only
    rcases hres with ⟨rfl, hc, hm⟩ | ⟨h0, ps', es', hs'⟩
    · rw [if_pos rfl, hc, hm]
      refine ⟨ps, fs, es, ?_⟩
      show Sound (Function.update s.cls i (s.cls i) i)
        (Function.update s.pages i ([] ++ s.pages i) i) ps fs es _
      rw [Function.update_self, Function.update_self]
      exact hs
    · obtain ⟨c', ps'', fs'', htake, hs''⟩ := hs'.take
      rw [if_neg h0, htake]
      refine ⟨ps'', fs'', es', ?_⟩
      dsimp only
      split
      · show Sound (Function.update s.cls i c' i) (Function.update s.pages i _ i) ps'' fs'' es'
          (s.live i ++ Function.update s.waiting i _ i)
        rw [Function.update_self, Function.update_self, Function.update_self]
        exact hs''.perm List.perm_middle.symm
      · show Sound (Function.update s.cls i c' i) (Function.update s.pages i _ i) ps'' fs'' es'
          (Function.update s.live i _ i ++ s.waiting i)
        rw [Function.update_self, Function.update_self, Function.update_self]
        exact hs''
  · unfold Pool.take
    rw [hpage]
    dsimp only
    split
    · rfl
    · split
      · rfl
      · split <;> rfl

/-- The slots that are out move between blocks and caches. -/
theorem Ok.move (h : Ok s) (hi : i ∈ classes) {live waiting : List Nat}
    (hp : (s.live i ++ s.waiting i).Perm (live ++ waiting)) :
    Ok { s with live := Function.update s.live i live,
                waiting := Function.update s.waiting i waiting } := by
  obtain ⟨ps, fs, es, hs⟩ := h.sound i hi
  refine h.setClass (i := i) ⟨ps, fs, es, ?_⟩ rfl (fun ht => h.static ht i hi) fun j hj =>
    ⟨rfl, rfl, Function.update_of_ne hj _ _, Function.update_of_ne hj _ _⟩
  show Sound (s.cls i) (s.pages i) ps fs es
    (Function.update s.live i live i ++ Function.update s.waiting i waiting i)
  rw [Function.update_self, Function.update_self]
  exact hs.perm hp

theorem Ok.cache (h : Ok s) (hi : i ∈ classes) (hm : slot ∈ s.live i) : Ok (s.cache i slot) :=
  h.move hi ((List.Perm.append_right _ (List.perm_cons_erase hm)).trans List.perm_middle.symm)

theorem Ok.uncache (h : Ok s) (hi : i ∈ classes) (hm : slot ∈ s.waiting i) :
    Ok (s.uncache i slot) :=
  h.move hi ((List.Perm.append_left _ (List.perm_cons_erase hm)).trans List.perm_middle)

theorem Ok.write (h : Ok s) (hi : i ∈ classes) (hm : slot ∈ s.live i ∨ slot ∈ s.waiting i) :
    Ok (s.write i slot v) := by
  obtain ⟨ps, fs, es, hs⟩ := h.sound i hi
  refine h.setClass (i := i) ⟨ps, fs, es, ?_⟩ rfl (fun ht => h.static ht i hi) fun j hj =>
    ⟨Function.update_of_ne hj _ _, rfl, rfl, rfl⟩
  show Sound (Function.update s.cls i _ i) _ ps fs es _
  rw [Function.update_self]
  exact hs.write (List.mem_append.mpr hm) v

theorem Ok.give (h : Ok s) (hi : i ∈ classes)
    (hm : slot ∈ if cached then s.waiting i else s.live i) : Ok (s.give i slot cached) := by
  obtain ⟨ps, fs, es, hs⟩ := h.sound i hi
  have hout : slot ∈ s.live i ++ s.waiting i := by
    cases cached with
    | true => exact List.mem_append_right _ hm
    | false => exact List.mem_append_left _ hm
  obtain ⟨ps', fs', es', hs', -⟩ := hs.give hout
  have herase := (List.perm_cons_erase hout).symm
  have hother : ∀ j, j ≠ i →
      (s.give i slot cached).cls j = s.cls j ∧ (s.give i slot cached).pages j = s.pages j ∧
      (s.give i slot cached).live j = s.live j ∧ (s.give i slot cached).waiting j = s.waiting j :=
    fun j hj => by
    unfold Pool.give
    dsimp only
    split
    · exact ⟨Function.update_of_ne hj _ _, rfl, rfl, Function.update_of_ne hj _ _⟩
    · exact ⟨Function.update_of_ne hj _ _, rfl, Function.update_of_ne hj _ _, rfl⟩
  have hfix :
    (s.give i slot cached).isStatic = s.isStatic ∧ (s.give i slot cached).pages = s.pages := by
    unfold Pool.give
    cases cached <;> exact ⟨rfl, rfl⟩
  refine h.setClass ⟨ps', fs', es', ?_⟩ hfix.1 (fun ht => hfix.2 ▸ h.static ht i hi) hother
  rw [hfix.2]
  unfold Pool.give
  cases cached with
  | true =>
    show Sound (Function.update s.cls i _ i) _ ps' fs' es'
      (s.live i ++ Function.update s.waiting i _ i)
    rw [Function.update_self, Function.update_self]
    refine hs'.perm (List.Perm.cons_inv (herase.trans ?_))
    exact (List.Perm.append_left _ (List.perm_cons_erase hm)).trans List.perm_middle
  | false =>
    show Sound (Function.update s.cls i _ i) _ ps' fs' es'
      (Function.update s.live i _ i ++ s.waiting i)
    rw [Function.update_self, Function.update_self]
    refine hs'.perm (List.Perm.cons_inv (herase.trans ?_))
    exact List.Perm.append_right _ (List.perm_cons_erase hm)

/-! ## Calls over all classes -/

theorem length_le_turns (hi : i ∈ classes) : (s.pages i).length ≤ s.turns :=
  List.le_sum_of_mem (List.mem_map_of_mem (f := fun i => (s.pages i).length) hi)

theorem resetClasses_spec (is : List Nat) (hnd : is.Nodup)
    (h : ∀ j ∈ is, (s.pages j).length ≤ n ∧
    ∃ ps fs es out, Sound (s.cls j) (s.pages j) ps fs es out) :
    ∃ s', s.resetClasses n is = some s' ∧
    (∀ j ∈ is, ∃ ps fs es, Sound (s'.cls j) (s.pages j) ps fs es []) ∧
      (∀ j, j ∉ is → s'.cls j = s.cls j) ∧ s' = { s with cls := s'.cls } := by
  induction is generalizing s with
  | nil => exact ⟨s, rfl, nofun, fun _ _ => rfl, rfl⟩
  | cons i is ih =>
    obtain ⟨hi, hnd⟩ := List.nodup_cons.mp hnd
    obtain ⟨hlen, ps, fs, es, out, hs⟩ := h i List.mem_cons_self
    obtain ⟨c, hres, hs'⟩ := hs.reset hlen
    obtain ⟨s', hrest, hdone, hother, hframe⟩ := ih (s := s.setClass i c) hnd fun j hj => by
      have hne := ne_of_mem_of_not_mem hj hi
      have hcls : (s.setClass i c).cls j = s.cls j := Function.update_of_ne hne _ _
      rw [hcls]
      exact h j (List.mem_cons_of_mem _ hj)
    refine ⟨s', ?_, fun j hj => ?_, fun j hj => ?_, hframe⟩
    · rw [Pool.resetClasses, hres]
      exact hrest
    · rcases List.mem_cons.mp hj with rfl | hj
      · rw [hother j hi]
        have hcls : (s.setClass j c).cls j = c := Function.update_self ..
        rw [hcls]
        exact ⟨_, _, _, hs'⟩
      · exact hdone j hj
    · rw [List.mem_cons, not_or] at hj
      exact (hother j hj.2).trans (Function.update_of_ne hj.1 _ _)

theorem Ok.reset (h : Ok s) (hn : s.turns ≤ n) (hw : ∀ i ∈ classes, s.waiting i = []) :
    ∃ s', s.mpReset n = some s' ∧ Ok s' := by
  obtain ⟨s', hres, hdone, -, hframe⟩ :=
    resetClasses_spec (s := s) (n := n) classes (by decide) fun j hj => by
    obtain ⟨ps, fs, es, hs⟩ := h.sound j hj
    exact ⟨(length_le_turns hj).trans hn, ps, fs, es, _, hs⟩
  refine ⟨{ s' with live := fun _ => [] }, ?_, fun i hi => ?_, fun hst i hi => ?_⟩
  · rw [Pool.mpReset, hres]
    rfl
  · obtain ⟨ps, fs, es, hs⟩ := hdone i hi
    refine ⟨ps, fs, es, ?_⟩
    show Sound (s'.cls i) (s'.pages i) ps fs es ([] ++ s'.waiting i)
    rw [hframe]
    show Sound (s'.cls i) (s.pages i) ps fs es ([] ++ s.waiting i)
    rw [hw i hi]
    exact hs
  · rw [hframe] at hst ⊢
    exact h.static hst i hi

theorem scanClass_ok (empties : Bool) (minPages freed idle : Nat) (h : Sound c pages ps fs es out)
    (hn : pages.length ≤ n) :
    ∃ x ps' es', Pool.scanClass (fun _ => false) empties minPages n c freed idle = some x ∧
      Sound x.cls (remain pages x.gone) ps' fs es' out := by
  have hlen := h.lists.split.length_eq
  rw [List.length_append, List.length_append] at hlen
  unfold Pool.scanClass
  cases empties with
  | false =>
    obtain ⟨x, keep, drop, hres, hs⟩ := sweepPartials_spec (fun _ => false) minPages
      (x := ⟨c, [], freed, idle⟩) (n := n) [] h.lists.partials h.lists.partials.chain (by omega)
    refine ⟨x, keep, es, hres, ?_⟩
    have hgone : remain pages x.gone = remain pages drop := remain_congr fun p => by
      rw [hs.gone, List.append_nil, List.mem_reverse]
    rw [hgone]
    exact Swept.sound h hs
  | true =>
    obtain ⟨x₁, hres₁, hs₁⟩ :=
      sweepEmpties_spec (x := ⟨c, [], freed, idle⟩) (n := n) h.lists.empties h.lists.count
      (by omega)
    have h₁ := Emptied.sound h hs₁
    obtain ⟨x, keep, drop, hres, hs⟩ := sweepPartials_spec (fun _ => false) minPages
      (n := n) [] h₁.lists.partials h₁.lists.partials.chain (by omega)
    refine ⟨x, keep, [], ?_, ?_⟩
    · rw [if_pos rfl, hres₁]
      exact hres
    · have hgone : remain pages x.gone = remain (remain pages es) drop := by
        rw [remain_remain]
        refine remain_congr fun p => ?_
        rw [hs.gone, hs₁.gone, List.append_nil, List.mem_append, List.mem_append, List.mem_reverse,
          List.mem_reverse]
      rw [hgone]
      exact Swept.sound h₁ hs

theorem scanClasses_ok (due : Nat → Bool) (empties : Bool) (minPages freed idle : Nat)
    {is : List Nat} (h : Ok s) (hidle : s.idleReclaim = false) (his : ∀ i ∈ is, i ∈ classes)
    (hn : s.turns ≤ n) : ∃ r, s.scanClasses due empties minPages n is freed idle = some r ∧
    Ok r.1 := by
  have hlen : ∀ i ∈ classes, (s.pages i).length ≤ n := fun i hi => (length_le_turns hi).trans hn
  clear hn
  induction is generalizing s freed idle with
  | nil => exact ⟨_, rfl, h⟩
  | cons i is ih =>
    have hi := his i List.mem_cons_self
    obtain ⟨ps, fs, es, hs⟩ := h.sound i hi
    obtain ⟨x, ps', es', hres, hs'⟩ := scanClass_ok empties minPages freed idle hs (hlen i hi)
    have hok : Ok (s.settle i x) := by
      refine h.setClass (i := i) ⟨ps', fs, es', ?_⟩ rfl (fun ht => ?_) fun j hj =>
        ⟨Function.update_of_ne hj _ _, Function.update_of_ne hj _ _, rfl, rfl⟩
      · show Sound (Function.update s.cls i x.cls i) (Function.update s.pages i _ i) ps' fs es' _
        rw [Function.update_self, Function.update_self]
        exact hs'
      · show Function.update s.pages i _ i = []
        rw [Function.update_self, h.static ht i hi]
        rfl
    have hdue : (fun p => s.idleReclaim && due p) = fun _ => false := by
      funext p
      rw [hidle, Bool.false_and]
    rw [Pool.scanClasses, hdue, hres]
    refine ih x.freedBytes x.idleCount hok hidle (fun j hj => his j (List.mem_cons_of_mem _ hj))
      fun j hj => ?_
    show (Function.update s.pages i (remain (s.pages i) x.gone) j).length ≤ n
    by_cases he : j = i
    · rw [he, Function.update_self]
      exact (List.length_filter_le _ _).trans (hlen i hi)
    · rw [Function.update_of_ne he]
      exact hlen j hj

/-- Without a free page nothing is purged. -/
theorem purgeClasses_eq {pageSz : Nat} {is : List Nat} (h : Ok s) (his : ∀ i ∈ is, i ∈ classes)
    (hn : s.turns ≤ n)
    (hq : ∀ i ∈ classes, ∀ p ∈ s.pages i, (s.cls i).freeCount p ≠ (s.cls i).totalSlots p) :
    s.purgeClasses pageSz n is = some s := by
  induction is with
  | nil => rfl
  | cons i is ih =>
    have hi := his i List.mem_cons_self
    obtain ⟨ps, fs, es, hs⟩ := h.sound i hi
    have hlen := hs.lists.split.length_eq
    rw [List.length_append, List.length_append] at hlen
    have hle := (length_le_turns hi).trans hn
    have hvisit : visited (s.cls i).next n (s.cls i).partialPages = some ps :=
      visited_eq hs.lists.partials.chain (by omega)
    have hsame : Pool.purgeClass pageSz (s.cls i) ps = s.cls i := by
      unfold Pool.purgeClass
      have hany : ∀ a, (ps.any fun p => decide ((s.cls i).freeCount p = (s.cls i).totalSlots p ∧
          (p + 72 + pageSz - 1) / pageSz * pageSz ≤ a ∧
          a < (p + 65536) / pageSz * pageSz)) = false := fun a =>
        List.any_eq_false.mpr fun p hp hd => hq i hi p
          (hs.lists.split.mem_iff.mp (List.mem_append_left _ (List.mem_append_left _ hp)))
            (of_decide_eq_true hd).1
      simp only [hany]
      rfl
    rw [Pool.purgeClasses, hvisit]
    dsimp only
    have hset : s.setClass i (s.cls i) = s := by
      rw [Pool.setClass, Function.update_eq_self]
    rw [hsame, hset]
    exact ih fun j hj => his j (List.mem_cons_of_mem _ hj)

/-- Without pages the sizes of the slots may change. -/
theorem Ok.setSlabClasses {sizes : Nat → Nat} (h : Ok s)
    (hq : ∀ i ∈ classes, s.pages i = [] ∧
    0 < { s.cls i with slotSize := sizes i : SlabClass }.carved) :
    Ok { s with cls := fun i => { s.cls i with slotSize := sizes i } } where
  sound i hi := by
    obtain ⟨ps, fs, es, hs⟩ := h.sound i hi
    obtain ⟨hp, hfits⟩ := hq i hi
    have hnil : ps = [] ∧ fs = [] ∧ es = [] := by
      have hperm := hs.lists.split
      rw [hp] at hperm
      simpa [and_assoc] using hperm.eq_nil
    obtain ⟨rfl, rfl, rfl⟩ := hnil
    refine ⟨[], [], [],
      ⟨hs.lists.split, hs.lists.partials, hs.lists.fulls, hs.lists.empties, hs.lists.apart, nofun,
        nofun, nofun, hs.lists.count, fun p hm => ?_⟩, hfits, fun p hm => ?_, hs.slots.aligned,
        fun p hm => ?_, hs.slots.out⟩
    · exact absurd (hp ▸ hm) List.not_mem_nil
    · exact absurd (hp ▸ hm) List.not_mem_nil
    · exact absurd (hp ▸ hm) List.not_mem_nil
  static := h.static

theorem Ok.next {l : Act} (h : Ok s) (hp : s.pre l) (hq : Quiet s l) : Ok (s.next l) := by
  cases l with
  | take i linked answer cached => exact h.take hp hq
  | cache i slot => exact h.cache hp.1 hp.2
  | uncache i slot => exact h.uncache hp.1 hp.2
  | write i slot v => exact h.write hp.1 hp.2
  | give i slot cached => exact h.give hp.1 hp.2
  | reset n =>
    obtain ⟨s', hres, hok⟩ := h.reset hp.1 hq
    show Ok ((s.mpReset n).getD s)
    rw [hres]
    exact hok
  | compact due n =>
    show Ok (((s.mpCompact due n).map Prod.fst).getD s)
    unfold Pool.mpCompact
    split
    · exact h
    · obtain ⟨r, hres, hok⟩ := scanClasses_ok due false 0 0 0 h hq (fun _ => id) hp.1
      rw [hres]
      exact hok
  | reclaim due n =>
    show Ok (((s.mpReclaimIdlePages due n).map Prod.fst).getD s)
    unfold Pool.mpReclaimIdlePages
    split
    · exact h
    · obtain ⟨r, hres, hok⟩ := scanClasses_ok due true s.minPages 0 0 h hq (fun _ => id) hp.1
      rw [hres]
      exact hok
  | purge pageSz n =>
    show Ok ((s.mpPurgeLazy pageSz n).getD s)
    unfold Pool.mpPurgeLazy
    split
    · exact h
    · rw [purgeClasses_eq h (fun _ => id) hp.1 hq]
      exact h
  | setIdle enable minPages => exact ⟨h.sound, h.static⟩
  | setSlabClasses sizes => exact h.setSlabClasses hq

theorem inductive_ok : (system.guard Quiet).Inductive Ok where
  init := by
    rintro s ⟨isStatic, canary, sizes, rfl, hfits⟩
    refine ⟨fun i hi => ⟨[], [], [], ?_⟩, fun _ _ _ => rfl⟩
    exact ⟨⟨.refl _, DL.is_nil_iff.mpr rfl, DL.is_nil_iff.mpr rfl, DL.is_nil_iff.mpr rfl, .nil,
      nofun, nofun, nofun, rfl, nofun⟩, hfits i hi, nofun, nofun, nofun, nofun⟩
  step := by
    rintro s l s' h ⟨⟨hp, rfl⟩, hq⟩
    exact h.next hp hq

end Steps

/-! ## Compaction -/

section Compaction
variable {s s' : Pool} {c c' : SlabClass} {pages pages' ps fs es out l : List Nat}
  {i p n freed idle : Nat}
  {due : Nat → Bool}

/-- The pages of a list that have all their slots. -/
def whole (c : SlabClass) (ps : List Nat) : List Nat :=
  ps.filter fun p => c.freeCount p = c.totalSlots p

theorem mem_whole : p ∈ whole c ps ↔ p ∈ ps ∧ c.freeCount p = c.totalSlots p := by
  rw [whole, List.mem_filter, decide_eq_true_iff]

theorem foldl_whole (c : SlabClass) (l : List Nat) (bytes : Nat) :
    l.foldl (fun b p => if c.freeCount p = c.totalSlots p then b + 65536 else b) bytes =
      bytes + 65536 * (whole c l).length := by
  induction l generalizing bytes with
  | nil => rfl
  | cons p l ih =>
    rw [List.foldl_cons, ih, whole, whole, List.filter_cons]
    by_cases hp : c.freeCount p = c.totalSlots p
    · rw [if_pos hp, if_pos (decide_eq_true hp), List.length_cons]
      omega
    · rw [if_neg hp, if_neg (by simpa using hp)]

/-- A class whose pages are on these lists, and the number of turns that its loops are given. -/
structure Known (s : Pool) (n : Nat) (ps fs es out : Nat → List Nat) (i : Nat) : Prop where
  sound : Sound (s.cls i) (s.pages i) (ps i) (fs i) (es i) (out i)
  turns : (s.pages i).length ≤ n

variable {psOf fsOf esOf outOf : Nat → List Nat} {is : List Nat}

theorem freeableClasses_eq (h : ∀ i ∈ is, Known s n psOf fsOf esOf outOf i) (bytes : Nat) :
    s.freeableClasses n is bytes =
      some (bytes + 65536 * (is.map fun i => (whole (s.cls i) (psOf i)).length).sum) := by
  induction is generalizing bytes with
  | nil => rfl
  | cons i is ih =>
    obtain ⟨hs, hn⟩ := h i List.mem_cons_self
    have hlen := hs.lists.split.length_eq
    rw [List.length_append, List.length_append] at hlen
    have hvisit : visited (s.cls i).next n (s.cls i).partialPages = some (psOf i) :=
      visited_eq hs.lists.partials.chain (by omega)
    rw [Pool.freeableClasses, hvisit]
    dsimp only
    rw [foldl_whole, ih fun j hj => h j (List.mem_cons_of_mem _ hj), List.map_cons, List.sum_cons,
      Nat.mul_add, Nat.add_assoc]

/-- A class after a compaction: the partial pages that had all their slots are gone. -/
def Thinned (c : SlabClass) (pages ps fs es out : List Nat) (c' : SlabClass)
    (pages' : List Nat) : Prop :=
  ∃ keep, Sound c' pages' keep fs es out ∧ Relinked c c' ∧
  (∀ p, p ∈ keep ↔ p ∈ ps ∧ c.freeCount p ≠ c.totalSlots p) ∧
    ∀ p, p ∈ pages' ↔ p ∈ pages ∧ p ∉ whole c ps

theorem compactClass_spec (freed idle : Nat) (h : Sound c pages ps fs es out)
    (hn : pages.length ≤ n) : ∃ x, Pool.scanClass (fun _ => false) false 0 n c freed idle = some x ∧
      x.freedBytes = freed + 65536 * (whole c ps).length ∧
      Thinned c pages ps fs es out x.cls (remain pages x.gone) := by
  have hlen := h.lists.split.length_eq
  rw [List.length_append, List.length_append] at hlen
  obtain ⟨x, keep, drop, hres, hs⟩ := sweepPartials_spec (fun _ => false) 0
    (x := ⟨c, [], freed, idle⟩) (n := n) [] h.lists.partials h.lists.partials.chain (by omega)
  have hdrop : ∀ p ∈ drop, c.freeCount p = c.totalSlots p :=
    fun p hp => (hs.idle p hp).resolve_right nofun
  have hkeep : ∀ p ∈ keep, c.freeCount p ≠ c.totalSlots p :=
    fun p hp he => hs.kept (Nat.zero_le 1) p hp (.inl he)
  have hwhole : (whole c ps).Perm drop := by
    have hfilter := (hs.split.filter fun p => decide (c.freeCount p = c.totalSlots p)).symm
    have h1 : (keep.filter fun p => decide (c.freeCount p = c.totalSlots p)) = [] :=
      List.filter_eq_nil_iff.mpr fun p hp hd => hkeep p hp (of_decide_eq_true hd)
    have h2 : (drop.filter fun p => decide (c.freeCount p = c.totalSlots p)) = drop :=
      List.filter_eq_self.mpr fun p hp => decide_eq_true (hdrop p hp)
    rw [List.filter_append, h1, h2] at hfilter
    exact hfilter
  have hgone : remain pages x.gone = remain pages drop := remain_congr fun p => by
    rw [hs.gone, List.append_nil, List.mem_reverse]
  refine ⟨x, hres, ?_, keep, ?_, hs.relinked, fun p => ?_, fun p => ?_⟩
  · rw [hs.bytes, hwhole.length_eq]
  · rw [hgone]
    exact Swept.sound h hs
  · constructor
    · exact fun hp => ⟨hs.split.mem_iff.mp (List.mem_append_left _ hp), hkeep p hp⟩
    · rintro ⟨hp, hne⟩
      exact (List.mem_append.mp (hs.split.mem_iff.mpr hp)).resolve_right fun hd => hne (hdrop p hd)
  · rw [hgone, mem_remain, hwhole.mem_iff]

theorem compactClasses_spec (due : Nat → Bool) (freed idle : Nat) (hidle : s.idleReclaim = false)
    (hnd : is.Nodup) (h : ∀ i ∈ is, Known s n psOf fsOf esOf outOf i) :
    ∃ s', s.scanClasses due false 0 n is freed idle =
        some (s', freed + 65536 * (is.map fun i => (whole (s.cls i) (psOf i)).length).sum) ∧
      (∀ i ∈ is, Thinned (s.cls i) (s.pages i) (psOf i) (fsOf i) (esOf i) (outOf i) (s'.cls i)
        (s'.pages i)) ∧
      ∀ j, j ∉ is → s'.cls j = s.cls j ∧ s'.pages j = s.pages j := by
  induction is generalizing s freed idle with
  | nil => exact ⟨s, rfl, nofun, fun _ _ => ⟨rfl, rfl⟩⟩
  | cons i is ih =>
    obtain ⟨hi, hnd⟩ := List.nodup_cons.mp hnd
    obtain ⟨hs, hn⟩ := h i List.mem_cons_self
    obtain ⟨x, hres, hbytes, hthin⟩ := compactClass_spec freed idle hs hn
    have hsame : ∀ j, j ≠ i → (s.settle i x).cls j = s.cls j ∧ (s.settle i x).pages j = s.pages j :=
      fun j hj =>
      ⟨Function.update_of_ne hj _ _, Function.update_of_ne hj _ _⟩
    obtain ⟨s', hrest, hdone, hother⟩ := ih (s := s.settle i x) x.freedBytes x.idleCount hidle hnd
      fun j hj => by
        obtain ⟨h1, h2⟩ := hsame j (ne_of_mem_of_not_mem hj hi)
        obtain ⟨h3, h4⟩ := h j (List.mem_cons_of_mem _ hj)
        exact ⟨by rw [h1, h2]; exact h3, by rw [h2]; exact h4⟩
    have hdue : (fun p => s.idleReclaim && due p) = fun _ => false := by
      funext p
      rw [hidle, Bool.false_and]
    refine ⟨s', ?_, fun j hj => ?_, fun j hj => ?_⟩
    · have hmap : (is.map fun j => (whole ((s.settle i x).cls j) (psOf j)).length) =
          is.map fun j => (whole (s.cls j) (psOf j)).length := List.map_congr_left fun j hj => by
        rw [(hsame j (ne_of_mem_of_not_mem hj hi)).1]
      rw [Pool.scanClasses, hdue, hres]
      dsimp only
      rw [hrest, hbytes, hmap, List.map_cons, List.sum_cons, Nat.mul_add, Nat.add_assoc]
    · rcases List.mem_cons.mp hj with rfl | hj
      · obtain ⟨h1, h2⟩ := hother j hi
        have h3 : (s.settle j x).cls j = x.cls := Function.update_self ..
        have h4 : (s.settle j x).pages j = remain (s.pages j) x.gone := Function.update_self ..
        rw [h1, h2, h3, h4]
        exact hthin
      · obtain ⟨h1, h2⟩ := hsame j (ne_of_mem_of_not_mem hj hi)
        have hd := hdone j hj
        rw [h1, h2] at hd
        exact hd
    · rw [List.mem_cons, not_or] at hj
      obtain ⟨h1, h2⟩ := hother j hj.2
      obtain ⟨h3, h4⟩ := hsame j hj.1
      exact ⟨h1.trans h3, h2.trans h4⟩

theorem on_iff {L : DL Nat} (h : L.Is l) : On L p ↔ p ∈ l := by
  constructor
  · rintro ⟨l', h', hp⟩
    rwa [h.chain.unique h'.chain]
  · exact fun hp => ⟨l, h, hp⟩

/-- Without empty pages a compaction takes all that is free. -/
theorem Thinned.compacted (h : Sound c pages ps fs [] out)
    (ht : Thinned c pages ps fs [] out c' pages') :
    (∀ p ∈ pages', ¬AllFree c' p) ∧ ∀ p ∈ pages, ¬AllFree c p → p ∈ pages' ∧ Keeps c c' p := by
  obtain ⟨keep, hs, hr, hkeep, hpages⟩ := ht
  refine ⟨fun p hp hall => ?_, fun p hp hall => ?_⟩
  · have hfull := (hs.slots.allFree_iff hp).mp hall
    have hwhere := hs.lists.split.mem_iff.mpr hp
    rw [List.append_nil] at hwhere
    rcases List.mem_append.mp hwhere with hk | hf
    · rw [hr.freeCount, hr.totalSlots] at hfull
      exact ((hkeep p).mp hk).2 hfull
    · have h0 := hs.lists.spent p hf
      have := hs.slots.carved p hp
      have := hs.slots.fits
      omega
  · have hfull : c.freeCount p ≠ c.totalSlots p := fun he => hall ((h.slots.allFree_iff hp).mpr he)
    refine ⟨(hpages p).mpr ⟨hp, fun hm => hfull (mem_whole.mp hm).2⟩, ?_, ?_, ?_, fun l => ?_, ?_⟩
    · rw [on_iff h.lists.partials, on_iff hs.lists.partials, hkeep]
      exact (and_iff_left hfull).symm
    · rw [on_iff h.lists.fulls, on_iff hs.lists.fulls]
    · rw [on_iff h.lists.empties, on_iff hs.lists.empties]
    · rw [hr.slotNext, hr.freeList]
    · rw [hr.freeCount]

theorem Ok.known (h : Ok s) :
    ∃ ps fs es out : Nat → List Nat, ∀ i ∈ classes, ∀ n, s.turns ≤ n →
    Known s n ps fs es out i := by
  have hex : ∀ i, ∃ ps fs es, i ∈ classes →
    Sound (s.cls i) (s.pages i) ps fs es (s.live i ++ s.waiting i) := fun i => by
    by_cases hi : i ∈ classes
    · obtain ⟨ps, fs, es, hs⟩ := h.sound i hi
      exact ⟨ps, fs, es, fun _ => hs⟩
    · exact ⟨[], [], [], fun hm => absurd hm hi⟩
  choose ps fs es hs using hex
  exact ⟨ps, fs, es, _, fun i hi n hn => ⟨hs i hi, (length_le_turns hi).trans hn⟩⟩

/-- What `mp_compact` returns, for static pools too. -/
theorem Ok.compact (h : Ok s) (hidle : s.idleReclaim = false)
    (hk : ∀ i ∈ classes, Known s n psOf fsOf esOf outOf i) (due : Nat → Bool) :
    ∃ s', s.mpCompact due n =
      some (s', 65536 * (classes.map fun i => (whole (s.cls i) (psOf i)).length).sum) ∧
      ∀ i ∈ classes, Thinned (s.cls i) (s.pages i) (psOf i) (fsOf i) (esOf i) (outOf i) (s'.cls i)
        (s'.pages i) := by
  by_cases hst : s.isStatic = true
  · have hnil : ∀ i ∈ classes, psOf i = [] := fun i hi => by
      have hperm := (hk i hi).sound.lists.split
      rw [h.static hst i hi, List.append_assoc] at hperm
      exact (List.append_eq_nil_iff.mp hperm.eq_nil).1
    have hsum : (classes.map fun i => (whole (s.cls i) (psOf i)).length).sum = 0 :=
      List.sum_eq_zero_iff_forall_eq_nat.mpr fun m hm => by
        obtain ⟨i, hi, rfl⟩ := List.mem_map.mp hm
        rw [hnil i hi]
        rfl
    refine ⟨s, by rw [Pool.mpCompact, if_pos hst, hsum], fun i hi => ?_⟩
    have hs := (hk i hi).sound
    rw [hnil i hi] at hs ⊢
    refine ⟨[], hs, ⟨rfl, rfl, rfl, rfl, rfl, rfl⟩, fun p => ?_, fun p => ?_⟩
    · simp only [List.not_mem_nil, false_and]
    · exact (and_iff_left List.not_mem_nil).symm
  · obtain ⟨s', hres, hthin, -⟩ := compactClasses_spec due 0 0 hidle (by decide) hk
    rw [Nat.zero_add] at hres
    exact ⟨s', by rw [Pool.mpCompact, if_neg hst]; exact hres, hthin⟩

/-- A page on an empty list is free and stays. -/
theorem Exact.empties (he : Exact s) (h : Ok s) (hidle : s.idleReclaim = false) (hi : i ∈ classes) :
    (s.cls i).emptyPages = 0 := by
  by_contra h0
  obtain ⟨ps, fs, es, out, hknown⟩ := h.known
  obtain ⟨ws, -, n₀, hall⟩ := he
  have hn : s.turns ≤ max n₀ s.turns := Nat.le_max_right ..
  have hk : ∀ i ∈ classes, Known s (max n₀ s.turns) ps fs es out i := fun i hi => hknown i hi _ hn
  have hs := (hk i hi).sound
  obtain ⟨p, es', hes⟩ :=
    List.exists_cons_of_ne_nil fun hnil => h0 (hs.lists.empties.head_eq_zero_iff.mpr hnil)
  have hp : p ∈ es i := hes ▸ List.mem_cons_self
  have hpages : p ∈ s.pages i := hs.lists.split.mem_iff.mp (List.mem_append_right _ hp)
  obtain ⟨s', hres, hcompact⟩ := (hall _ (Nat.le_max_left ..)).2 fun _ => false
  obtain ⟨s'', hres', hthin⟩ := h.compact hidle hk fun _ => false
  obtain rfl : s' = s'' := (Prod.mk.inj (Option.some.inj (hres.symm.trans hres'))).1
  obtain ⟨keep, hs', hr, -, hleft⟩ := hthin i hi
  have hnot : p ∉ whole (s.cls i) (ps i) := fun hm =>
    List.disjoint_of_nodup_append hs.lists.nodup (List.mem_append_left _ (mem_whole.mp hm).1) hp
  have hmem := (hleft p).mpr ⟨hpages, hnot⟩
  refine hcompact.none i hi p hmem ((hs'.slots.allFree_iff hmem).mpr ?_)
  rw [hr.freeCount, hr.totalSlots]
  exact (hs.lists.whole p hp).1

/-- **Compaction** is complete and exact, in every reachable state whose pool does not reclaim idle
pages, just when no class has a page on its empty list. -/
theorem compaction_exact_iff (hr : (system.guard Quiet).Reachable s)
    (hidle : s.idleReclaim = false) : Exact s ↔ ∀ i ∈ classes, (s.cls i).emptyPages = 0 := by
  have h := inductive_ok.reachable hr
  refine ⟨fun he i hi => he.empties h hidle hi, fun hnone => ?_⟩
  obtain ⟨ps, fs, es, out, hknown⟩ := h.known
  have hes : ∀ i ∈ classes, es i = [] := fun i hi =>
    (hknown i hi _ (Nat.le_refl _)).sound.lists.empties.head_eq_zero_iff.mp (hnone i hi)
  refine ⟨fun i => whole (s.cls i) (ps i), fun i hi => ?_, s.turns, fun n hn => ⟨?_, fun due => ?_⟩⟩
  · have hs := (hknown i hi _ (Nat.le_refl _)).sound
    have hnd := hs.lists.nodup
    refine ⟨(List.nodup_append.mp (List.nodup_append.mp hnd).1).1.filter _, fun p => ?_⟩
    rw [mem_whole]
    constructor
    · rintro ⟨hp, hfull⟩
      have hpages := hs.lists.split.mem_iff.mp (List.mem_append_left _ (List.mem_append_left _ hp))
      exact ⟨hpages, (hs.slots.allFree_iff hpages).mpr hfull⟩
    · rintro ⟨hp, hall⟩
      have hfull := (hs.slots.allFree_iff hp).mp hall
      have hwhere := hs.lists.split.mem_iff.mpr hp
      rw [hes i hi, List.append_nil] at hwhere
      refine ⟨(List.mem_append.mp hwhere).resolve_right fun hf => ?_, hfull⟩
      have h0 := hs.lists.spent p hf
      have := hs.slots.carved p hp
      have := hs.slots.fits
      omega
  · rw [Pool.mpFreeable, freeableClasses_eq (fun i hi => hknown i hi n hn), Nat.zero_add]
  · obtain ⟨s', hres, hthin⟩ := h.compact hidle (fun i hi => hknown i hi n hn) due
    have hboth : ∀ i ∈ classes, (∀ p ∈ s'.pages i, ¬AllFree (s'.cls i) p) ∧
        ∀ p ∈ s.pages i, ¬AllFree (s.cls i) p → p ∈ s'.pages i ∧ Keeps (s.cls i) (s'.cls i) p :=
      fun i hi => by
      have hs := (hknown i hi n hn).sound
      have ht := hthin i hi
      rw [hes i hi] at hs ht
      exact ht.compacted hs
    exact ⟨s', hres, fun i hi => (hboth i hi).1, fun i hi => (hboth i hi).2⟩

end Compaction

/-! ## Two runs -/

/-- A new pool with the classes of the table. -/
def newPool : Pool :=
  .start false false fun i => [8, 16, 24, 32, 48, 64, 96, 128, 192, 256, 384, 512].getD i 512

/-- A slot of 512 bytes is taken, and the pool reset: the page goes back to the partial list. -/
def resetRun : List Act := [.take 11 true (some 65536) false, .reset 1]

/-- The slot is given back: the page goes to the empty list. -/
def parkRun : List Act := [.take 11 true (some 65536) false, .give 11 65608 false]

theorem newPool_reachable : (system.guard Quiet).Reachable newPool :=
  .init ⟨false, false, _, rfl, by decide⟩

theorem compaction_exact_reset : Exact (resetRun.foldl Pool.next newPool) :=
  (compaction_exact_iff (newPool_reachable.run (by decide +kernel)) (by decide +kernel)).mpr
    (by decide +kernel)

/-- A page that became free with its last slot is neither counted nor given back. -/
theorem parked_page_stays :
    (system.guard Quiet).Reachable (parkRun.foldl Pool.next newPool) ∧
      (parkRun.foldl Pool.next newPool).idleReclaim = false ∧
      ¬Exact (parkRun.foldl Pool.next newPool) := by
  have hr : (system.guard Quiet).Reachable (parkRun.foldl Pool.next newPool) :=
    newPool_reachable.run (by decide +kernel)
  have hidle : (parkRun.foldl Pool.next newPool).idleReclaim = false := by decide +kernel
  refine ⟨hr, hidle, fun he => ?_⟩
  have h0 := he.empties (inductive_ok.reachable hr) hidle (i := 11) (by decide)
  exact absurd h0 (by decide +kernel)

end Cmem.L3.Compact

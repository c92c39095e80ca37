import Mathlib
import Cmem.L2Slab.Refill

/-!
# The pages of a class between its lists

`slab_free_nolock` and the transitions of `slab_free` (src/src/cmem_slab.c:1017-1131), the part of
`mp_reset` on a class (src/src/cmem_lifecycle.c:149-187), and the scan of `mp_compact` and
`mp_reclaim_idle_pages` (src/src/cmem_sys.c:732-770, src/src/cmem_lifecycle.c:262-330). A `while`
loop over pages is given a number of turns, and has no result when they do not suffice.

The invariant, `Sound`, has a list of the slots that are out: the others of a page are its free
list.
-/
namespace Cmem.L2.Slab

/-- `page_base` -/
def pageBase (slot : Nat) : Nat := slot / 65536 * 65536

namespace SlabClass

/-- mirrors `slab_free_nolock`, src/src/cmem_slab.c:1017-1042: whether the page was full, and
whether it is empty now -/
def slabFreeNolock (c : SlabClass) (slot : Nat) : SlabClass × Bool × Bool :=
  let page := pageBase slot
  let wasFull := decide (c.freeCount page = 0)
  let c := { c with
    slotNext := Function.update c.slotNext slot (c.freeList page)
    freeList := Function.update c.freeList page slot
    freeCount := Function.update c.freeCount page ((c.freeCount page + 1) % 2 ^ 16) }
  (c, wasFull, decide (c.freeCount page = c.totalSlots page))

/-- `SLAB_TRANS_FULL_TO_PARTIAL`, src/src/cmem_slab.c:1085-1103 -/
def fullToPartial (c : SlabClass) (page : Nat) : SlabClass :=
  let F := c.fulls.unlink page
  let P := (⟨F.next, F.prev, c.partialPages⟩ : DL Nat).push page
  { c with next := P.next, prev := P.prev, fullPages := F.head, partialPages := P.head }

/-- `SLAB_TRANS_PARTIAL_TO_EMPTY`, src/src/cmem_slab.c:1104-1124 -/
def partialToEmpty (c : SlabClass) (page : Nat) : SlabClass :=
  let P := c.partials.unlink page
  let E := (⟨P.next, P.prev, c.emptyPages⟩ : DL Nat).push page
  { c with
    next := E.next, prev := E.prev, partialPages := P.head, emptyPages := E.head,
    emptyPageCount := c.emptyPageCount + 1 }

/-- mirrors `slab_free`, src/src/cmem_slab.c:1058-1131; the rounds of `remote_free_harvest` and
`remote_free_harvest_all` do the same to each slot -/
def slabFree (c : SlabClass) (slot : Nat) : SlabClass :=
  let (c, wasFull, willBeEmpty) := c.slabFreeNolock slot
  let c := if wasFull then c.fullToPartial (pageBase slot) else c
  if willBeEmpty then c.partialToEmpty (pageBase slot) else c

/-- The full pages go on the partial list, src/src/cmem_lifecycle.c:152-163. -/
def resetFulls : Nat → SlabClass → Option SlabClass
  | 0, c => if c.fullPages = 0 then some c else none
  | n + 1, c =>
    if c.fullPages = 0 then some c
    else resetFulls n ({ c with fullPages := c.next c.fullPages }.linkPartial c.fullPages)

/-- The free list of a page is made anew, src/src/cmem_lifecycle.c:174-184. -/
def relay (c : SlabClass) (page : Nat) : SlabClass :=
  { c with
    freeCount := Function.update c.freeCount page (c.totalSlots page)
    freeList := Function.update c.freeList page (page + 72)
    slotNext :=
      linkSlots (page + 72) c.slotTotal (c.totalSlots page) c.slotNext (c.totalSlots page) }

/-- The loop over the partial pages, src/src/cmem_lifecycle.c:173-186. -/
def resetPartials : Nat → SlabClass → Nat → Option SlabClass
  | 0, c, page => if page = 0 then some c else none
  | n + 1, c, page => if page = 0 then some c else resetPartials n (c.relay page) (c.next page)

/-- The part of `mp_reset` on a class, src/src/cmem_lifecycle.c:149-187. -/
def reset (n : Nat) (c : SlabClass) : Option SlabClass :=
  match c.resetFulls n with
  | none => none
  | some c => c.resetPartials n c.partialPages

/-- A page is taken off the partial list, src/src/cmem_sys.c:750-758. -/
def unlinkPartial (c : SlabClass) (page : Nat) : SlabClass :=
  let P := c.partials.unlink page
  { c with next := P.next, prev := P.prev, partialPages := P.head }

/-- The first page is taken off the empty list, src/src/cmem_lifecycle.c:266-273. -/
def popEmpty (c : SlabClass) : SlabClass :=
  let E := c.empties.pop c.emptyPages
  { c with
    next := E.next, prev := E.prev, emptyPages := E.head
    emptyPageCount := if 0 < c.emptyPageCount then c.emptyPageCount - 1 else c.emptyPageCount }

end SlabClass

/-- The pages that a loop `while (curr) curr = curr->next` visits. -/
def visited (next : Nat → Nat) : Nat → Nat → Option (List Nat)
  | 0, curr => if curr = 0 then some [] else none
  | n + 1, curr => if curr = 0 then some [] else (visited next n (next curr)).map (curr :: ·)

/-- What a scan works on: the class, the pages it has unmapped, `freed_bytes` and `idle_count`. -/
structure Sweep where
  cls : SlabClass
  gone : List Nat
  freedBytes : Nat
  idleCount : Nat

/-- `munmap` of a page. -/
def Sweep.unmap (x : Sweep) (c : SlabClass) (page : Nat) : Sweep :=
  { x with cls := c, gone := page :: x.gone, freedBytes := x.freedBytes + 65536 }

section Scan
-- the pages that have been idle for too long
variable (due : Nat → Bool)

/-- The scan of the partial pages, src/src/cmem_lifecycle.c:286-325, from `curr` on. -/
def sweepPartials (minPages : Nat) : Nat → Nat → Sweep → Option Sweep
  | 0, curr, x => if curr = 0 then some x else none
  | n + 1, curr, x =>
    if curr = 0 then some x
    else
      let next := x.cls.next curr
      if x.cls.freeCount curr = x.cls.totalSlots curr ∨ due curr then
        let x := { x with idleCount := x.idleCount + 1 }
        if x.idleCount < minPages then sweepPartials minPages n next x
        else sweepPartials minPages n next (x.unmap (x.cls.unlinkPartial curr) curr)
      else sweepPartials minPages n next x

end Scan

/-- The loop over the empty pages, src/src/cmem_lifecycle.c:265-284. -/
def sweepEmpties : Nat → Sweep → Option Sweep
  | 0, x => if x.cls.emptyPages = 0 then some x else none
  | n + 1, x =>
    if x.cls.emptyPages = 0 then some x
    else sweepEmpties n (x.unmap x.cls.popEmpty x.cls.emptyPages)

/-! ## The invariant -/

/-- The addresses of the slots of a page. -/
def SlabClass.slotsOf (c : SlabClass) (p : Nat) : List Nat :=
  (List.range (c.totalSlots p)).map fun i => p + 72 + i * c.slotTotal

/-- All slots of a page are on its free list. -/
def AllFree (c : SlabClass) (p : Nat) : Prop :=
  ∃ l, Chain c.slotNext (c.freeList p) l ∧ l.Perm (c.slotsOf p)

/-- The slots of a page are its free list and those that are out. -/
structure Slots (c : SlabClass) (pages out : List Nat) : Prop where
  fits : 0 < c.carved
  carved : ∀ p ∈ pages, c.totalSlots p = c.carved
  aligned : ∀ p ∈ pages, p % 65536 = 0
  split : ∀ p ∈ pages, ∃ l, Chain c.slotNext (c.freeList p) l ∧ l.length = c.freeCount p ∧
    (l ++ out.filter (pageBase · = p)).Perm (c.slotsOf p)
  out : ∀ a ∈ out, pageBase a ∈ pages

structure Sound (c : SlabClass) (pages ps fs es out : List Nat) : Prop where
  lists : Lists c pages ps fs es
  slots : Slots c pages out

section Slots
variable {c c' : SlabClass} {pages ps fs es out l : List Nat} {p q a v : Nat}

theorem mem_slotsOf (h : c.totalSlots p = c.carved) (ha : a ∈ c.slotsOf p) :
    p + 72 ≤ a ∧ a < p + 65536 := by
  obtain ⟨i, hi, rfl⟩ := List.mem_map.mp ha
  have hfit := carved_fits c
  have hi := List.mem_range.mp hi
  have hs := slotTotal_pos (c := c) (by omega)
  have hle : (i + 1) * c.slotTotal ≤ c.carved * c.slotTotal := Nat.mul_le_mul_right _ (h ▸ hi)
  rw [Nat.add_mul, Nat.one_mul] at hle
  omega

theorem nodup_slotsOf (h0 : 0 < c.carved) (p : Nat) : (c.slotsOf p).Nodup := by
  have hs := slotTotal_pos h0
  refine List.nodup_range.map fun i j hij => ?_
  exact Nat.eq_of_mul_eq_mul_right hs (Nat.add_left_cancel hij)

theorem length_slotsOf (c : SlabClass) (p : Nat) : (c.slotsOf p).length = c.totalSlots p := by
  rw [SlabClass.slotsOf, List.length_map, List.length_range]

/-- The page of a slot is found from its address. -/
theorem pageBase_eq (hp : p % 65536 = 0) (ha : p ≤ a) (ha' : a < p + 65536) : pageBase a = p := by
  unfold pageBase
  omega

theorem filter_here (h : pageBase a = p) (out : List Nat) :
    (a :: out).filter (pageBase · = p) = a :: out.filter (pageBase · = p) := by
  simp [h]

theorem filter_elsewhere (h : pageBase a ≠ p) (out : List Nat) :
    (a :: out).filter (pageBase · = p) = out.filter (pageBase · = p) := by
  simp [h]

namespace Slots

theorem mem (h : Slots c pages out) (hp : p ∈ pages) (ha : a ∈ c.slotsOf p) : pageBase a = p := by
  have := mem_slotsOf (h.carved p hp) ha
  exact pageBase_eq (h.aligned p hp) (by omega) (by omega)

theorem freeOk (h : Slots c pages out) (hp : p ∈ pages) : FreeOk c p := by
  obtain ⟨l, hch, hlen, hperm⟩ := h.split p hp
  refine ⟨l, hch, hlen, fun a ha => ?_⟩
  have := mem_slotsOf (h.carved p hp) (hperm.mem_iff.mp (List.mem_append_left _ ha))
  omega

/-- A page has all its slots when none is out. -/
theorem allFree_iff (h : Slots c pages out) (hp : p ∈ pages) :
    AllFree c p ↔ c.freeCount p = c.totalSlots p := by
  obtain ⟨l, hch, hlen, hperm⟩ := h.split p hp
  have hsum := hperm.length_eq
  rw [List.length_append, length_slotsOf] at hsum
  constructor
  · rintro ⟨l', hch', hperm'⟩
    rw [hch'.unique hch] at hperm'
    rw [← hlen, hperm'.length_eq, length_slotsOf]
  · intro he
    have hnil : out.filter (pageBase · = p) = [] := List.length_eq_zero_iff.mp (by omega)
    rw [hnil, List.append_nil] at hperm
    exact ⟨l, hch, hperm⟩

theorem none_out (h : Slots c pages out) (hp : p ∈ pages) (hf : c.freeCount p = c.totalSlots p)
    (ha : a ∈ out) : pageBase a ≠ p := by
  rintro rfl
  obtain ⟨l, hch, hlen, hperm⟩ := h.split _ hp
  have hsum := hperm.length_eq
  have hpos : 0 < (out.filter (pageBase · = pageBase a)).length :=
    List.length_pos_of_mem (List.mem_filter.mpr ⟨ha, decide_eq_true rfl⟩)
  rw [List.length_append, length_slotsOf] at hsum
  omega

theorem relinked (h : Slots c pages out) (hr : Relinked c c') : Slots c' pages out where
  fits := hr.carved ▸ h.fits
  carved p hp := by rw [hr.totalSlots, hr.carved, h.carved p hp]
  aligned := h.aligned
  split p hp := by
    rw [SlabClass.slotsOf, hr.slotNext, hr.freeList, hr.freeCount, hr.totalSlots, hr.slotTotal]
    exact h.split p hp
  out := h.out

theorem perm (h : Slots c pages out) {out' : List Nat} (hp : out.Perm out') :
    Slots c pages out' where
  fits := h.fits
  carved := h.carved
  aligned := h.aligned
  split p hm := by
    obtain ⟨l, hch, hlen, hperm⟩ := h.split p hm
    exact ⟨l, hch, hlen, (List.Perm.append_left l (hp.filter _).symm).trans hperm⟩
  out a ha := h.out a (hp.mem_iff.mpr ha)

/-- Pages with no slot out are given back. -/
theorem sublist (h : Slots c pages out) {pages' : List Nat} (hs : pages' ⊆ pages)
    (ho : ∀ a ∈ out, pageBase a ∈ pages') : Slots c pages' out :=
  ⟨h.fits, fun p hp => h.carved p (hs hp), fun p hp => h.aligned p (hs hp),
    fun p hp => h.split p (hs hp), ho⟩

/-- A slot that is out is not on a free list. -/
theorem notMem (h : Slots c pages out) (ha : a ∈ out) (hp : p ∈ pages)
    (hch : Chain c.slotNext (c.freeList p) l) : a ∉ l := by
  obtain ⟨l', hch', -, hperm⟩ := h.split p hp
  obtain rfl := hch.unique hch'
  intro hal
  have hbase := h.mem hp (hperm.mem_iff.mp (List.mem_append_left _ hal))
  have hd := List.disjoint_of_nodup_append (hperm.nodup_iff.mpr (nodup_slotsOf h.fits p))
  exact hd hal (List.mem_filter.mpr ⟨ha, decide_eq_true hbase⟩)

/-- The program and the caches write to slots that are out. -/
theorem write (h : Slots c pages out) (ha : a ∈ out) (v : Nat) :
    Slots { c with slotNext := Function.update c.slotNext a v } pages out where
  fits := h.fits
  carved := h.carved
  aligned := h.aligned
  split p hp := by
    obtain ⟨l, hch, hlen, hperm⟩ := h.split p hp
    exact ⟨l, hch.update (h.notMem ha hp hch), hlen, hperm⟩
  out := h.out

theorem head (h : Slots c pages out) (hp : p ∈ pages) (h0 : 0 < c.freeCount p) :
    pageBase (c.freeList p) = p := by
  obtain ⟨l, hch, hlen, hperm⟩ := h.split p hp
  cases l with
  | nil => exact absurd hlen (by rw [List.length_nil]; omega)
  | cons a l =>
    obtain ⟨rfl, -⟩ := hch
    exact h.mem hp (hperm.mem_iff.mp (List.mem_append_left _ List.mem_cons_self))

/-- A slot is taken off the free list of its page. -/
theorem pop (h : Slots c pages out) (hp : p ∈ pages) (h0 : 0 < c.freeCount p) :
    Slots (c.popSlot p) pages (c.freeList p :: out) where
  fits := h.fits
  carved := h.carved
  aligned := h.aligned
  split q hq := by
    obtain ⟨l, hch, hlen, hperm⟩ := h.split q hq
    have hbase := h.head hp h0
    by_cases hqp : q = p
    · subst hqp
      cases l with
      | nil => exact absurd hlen (by rw [List.length_nil]; omega)
      | cons a l =>
        obtain ⟨rfl, -, hl⟩ := hch
        refine ⟨l, ?_, ?_, ?_⟩
        · show Chain _ (Function.update c.freeList q _ q) l
          rw [Function.update_self]
          exact hl
        · show l.length = Function.update c.freeCount q _ q
          rw [Function.update_self, if_neg (by omega), ← hlen, List.length_cons, Nat.add_sub_cancel]
        · rw [filter_here hbase]
          exact List.perm_middle.trans hperm
    · refine ⟨l, ?_, ?_, ?_⟩
      · show Chain _ (Function.update c.freeList p _ q) l
        rwa [Function.update_of_ne hqp]
      · show l.length = Function.update c.freeCount p _ q
        rwa [Function.update_of_ne hqp]
      · rw [filter_elsewhere (fun e => hqp (e.symm.trans hbase))]
        exact hperm
  out a ha := by
    rcases List.mem_cons.mp ha with rfl | ha
    · rw [h.head hp h0]
      exact hp
    · exact h.out a ha

/-- A slot that is out goes back on the free list of its page, which was not complete. -/
theorem push (h : Slots c pages out) (ha : a ∈ out) :
    Slots (c.slabFreeNolock a).1 pages (out.erase a) ∧
    c.freeCount (pageBase a) < c.totalSlots (pageBase a) ∧
      (c.slabFreeNolock a).1.freeCount =
        Function.update c.freeCount (pageBase a) (c.freeCount (pageBase a) + 1) := by
  have hp := h.out a ha
  have herase := List.perm_cons_erase ha
  obtain ⟨l, hch, hlen, hperm⟩ := h.split _ hp
  have hfilter := herase.filter (pageBase · = pageBase a)
  rw [filter_here rfl] at hfilter
  have hperm' := (List.Perm.append_left l hfilter).symm.trans hperm
  have hsum := hperm'.length_eq
  rw [List.length_append, List.length_cons, length_slotsOf] at hsum
  have htotal : c.totalSlots (pageBase a) < 2 ^ 16 := by
    rw [h.carved _ hp]
    exact Nat.mod_lt _ (by decide)
  have hcount : (c.slabFreeNolock a).1.freeCount =
      Function.update c.freeCount (pageBase a) (c.freeCount (pageBase a) + 1) := by
    show Function.update c.freeCount (pageBase a) ((c.freeCount (pageBase a) + 1) % 2 ^ 16) = _
    rw [Nat.mod_eq_of_lt (by omega)]
  have hslots : ∀ q, (c.slabFreeNolock a).1.slotsOf q = c.slotsOf q := fun q => rfl
  refine ⟨⟨h.fits, h.carved, h.aligned, fun q hq => ?_,
    fun b hb => h.out b (List.mem_of_mem_erase hb)⟩, by omega, hcount⟩
  rw [hcount, hslots]
  by_cases hqp : q = pageBase a
  · subst hqp
    have ha0 : a ≠ 0 := by
      have :=
        mem_slotsOf (h.carved _ hp) (hperm'.mem_iff.mp (List.mem_append_right _ List.mem_cons_self))
      omega
    refine ⟨a :: l, ?_, ?_, ?_⟩
    · show Chain (Function.update c.slotNext a (c.freeList (pageBase a)))
        (Function.update c.freeList (pageBase a) a (pageBase a)) (a :: l)
      rw [Function.update_self]
      exact hch.push ha0 (h.notMem ha hp hch)
    · rw [Function.update_self, List.length_cons, hlen]
    · exact List.perm_middle.symm.trans hperm'
  · obtain ⟨l', hch', hlen', hperm''⟩ := h.split q hq
    refine ⟨l', ?_, ?_, ?_⟩
    · show Chain (Function.update c.slotNext a _) (Function.update c.freeList (pageBase a) a q) l'
      rw [Function.update_of_ne hqp]
      exact hch'.update (h.notMem ha hq hch')
    · rwa [Function.update_of_ne hqp]
    · have hother := herase.filter (pageBase · = q)
      rw [filter_elsewhere (Ne.symm hqp)] at hother
      exact (List.Perm.append_left l' hother.symm).trans hperm''

end Slots

theorem Lists.write (h : Lists c pages ps fs es)
    (hs : Slots { c with slotNext := Function.update c.slotNext a v } pages out) :
    Lists { c with slotNext := Function.update c.slotNext a v } pages ps fs es :=
  ⟨h.split, h.partials, h.fulls, h.empties, h.apart, h.left, h.spent, h.whole, h.count,
    fun _ hp => hs.freeOk hp⟩

end Slots

/-! ## Taking a slot -/

section Take
variable {c c' : SlabClass} {pages ps fs es out : List Nat} {p a v : Nat}

theorem Sound.perm (h : Sound c pages ps fs es out) {out' : List Nat} (hp : out.Perm out') :
    Sound c pages ps fs es out' := ⟨h.lists, h.slots.perm hp⟩

theorem Sound.write (h : Sound c pages ps fs es out) (ha : a ∈ out) (v : Nat) :
    Sound { c with slotNext := Function.update c.slotNext a v } pages ps fs es out :=
  ⟨h.lists.write (h.slots.write ha v), h.slots.write ha v⟩

theorem Sound.reuseEmpty (h : Sound c pages ps fs (p :: es) out) :
    c.emptyPages = p ∧ Sound c.reuseEmpty pages (p :: ps) fs es out := by
  obtain ⟨he, hl⟩ := h.lists.reuseEmpty
  exact ⟨he, hl, h.slots.relinked ⟨rfl, rfl, rfl, rfl, rfl, rfl⟩⟩

/-- A page from the system, whose slots are all free. -/
theorem Sound.newPage (h : Sound c pages ps fs es out) (h0 : p ≠ 0) (hal : p % 65536 = 0)
    (hp : ∀ q ∈ pages, Apart p q) :
    Sound ((c.createPage p).linkPartial p) (p :: pages) (p :: ps) fs es out := by
  have hfits := h.slots.fits
  have hcount : (c.createPage p).freeCount p = c.carved := Function.update_self ..
  refine ⟨(h.lists.createPage hp).linkPartial h0 hp (createPage_free hfits) (hcount ▸ hfits), ?_⟩
  refine Slots.relinked (c := c.createPage p) ⟨hfits, fun q hq => ?_, fun q hq => ?_,
    fun q hq => ?_, fun a ha =>
    List.mem_cons_of_mem _ (h.slots.out a ha)⟩ ⟨rfl, rfl, rfl, rfl, rfl, rfl⟩
  · rcases List.mem_cons.mp hq with rfl | hq
    · exact Function.update_self ..
    · exact (Function.update_of_ne (hp q hq).ne.symm _ _).trans (h.slots.carved q hq)
  · rcases List.mem_cons.mp hq with rfl | hq
    · exact hal
    · exact h.slots.aligned q hq
  · rcases List.mem_cons.mp hq with rfl | hq
    · have htotal : (c.createPage q).totalSlots q = c.carved := Function.update_self ..
      have hnil : out.filter (pageBase · = q) = [] := List.filter_eq_nil_iff.mpr fun a ha hb =>
        (hp _ (h.slots.out a ha)).ne (of_decide_eq_true hb).symm
      refine ⟨(c.createPage q).slotsOf q, ?_, ?_, ?_⟩
      · have hlist : (c.createPage q).freeList q = q + 72 := Function.update_self ..
        rw [hlist, SlabClass.slotsOf, htotal]
        exact linkSlots_chain (by omega) (slotTotal_pos hfits) hfits
      · rw [length_slotsOf, htotal, hcount]
      · rw [hnil, List.append_nil]
    · obtain ⟨l, hch, hlen, hperm⟩ := h.slots.split q hq
      have hne := (hp q hq).ne.symm
      refine ⟨l, ?_, hlen.trans (Function.update_of_ne hne _ _).symm, ?_⟩
      · have hlist : (c.createPage p).freeList q = c.freeList q := Function.update_of_ne hne _ _
        rw [hlist]
        refine hch.congr fun a ha => ?_
        have hin := mem_slotsOf (h.slots.carved q hq) (hperm.mem_iff.mp (List.mem_append_left _ ha))
        have hap := hp q hq
        unfold Apart at hap
        have hfit := carved_fits c
        refine (linkSlots_other fun i hi => ?_).trans (if_neg (by omega))
        have hle : (i + 1) * c.slotTotal ≤ c.carved * c.slotTotal := Nat.mul_le_mul_right _ hi
        have hs := slotTotal_pos hfits
        rw [Nat.add_mul, Nat.one_mul] at hle
        omega
      · have htotal : (c.createPage p).totalSlots q = c.totalSlots q :=
          Function.update_of_ne hne _ _
        rw [SlabClass.slotsOf, htotal]
        exact hperm

/-- The first partial page gives a slot, which is out then. -/
theorem Sound.take (h : Sound c pages (p :: ps) fs es out) :
    ∃ c' ps' fs', c.takeSlot p = some (c', c.freeList p) ∧
    Sound c' pages ps' fs' es (c.freeList p :: out) := by
  have hp : p ∈ pages := h.lists.split.mem_iff.mp (by simp)
  obtain ⟨c', ps', fs', htake, -, hlists, -, hframe⟩ := h.lists.take
  have hl := hlists (c'.slotNext (c.freeList p))
  rw [Function.update_eq_self] at hl
  exact ⟨c', ps', fs', htake, hl,
    (h.slots.pop hp (h.lists.left p List.mem_cons_self)).relinked hframe⟩

end Take

/-! ## Giving a slot back -/

/-- The links of the pages, whatever their counts. -/
structure Linked (c : SlabClass) (pages ps fs es : List Nat) : Prop where
  split : (ps ++ fs ++ es).Perm pages
  partials : c.partials.Is ps
  fulls : c.fulls.Is fs
  empties : c.empties.Is es
  apart : pages.Pairwise Apart
  count : c.emptyPageCount = es.length

section Give
variable {c c' : SlabClass} {pages ps fs es xs ys out : List Nat} {p a : Nat}

theorem Linked.nodup (h : Linked c pages ps fs es) : (ps ++ fs ++ es).Nodup :=
  h.split.nodup_iff.mpr (h.apart.imp Apart.ne)

theorem Linked.fullToPartial (h : Linked c pages ps (xs ++ p :: ys) es) :
    Linked (c.fullToPartial p) pages (p :: ps) (xs ++ ys) es := by
  have hn := h.nodup
  have hn' : (xs ++ p :: ys ++ ps).Nodup :=
    List.perm_append_comm.nodup_iff.mp (List.nodup_append.mp hn).1
  have hes : ∀ q ∈ es, q ∉ xs ++ p :: ys ++ ps := fun q hq hm =>
    List.disjoint_of_nodup_append hn (List.mem_append.mpr (List.mem_append.mp hm).symm) hq
  obtain ⟨hf, hp, hframe⟩ := DL.Is.moveFrom (h := c.partialPages) h.fulls h.partials hn' rfl
  refine ⟨?_, hp, hf, h.empties.congr rfl fun q hq => hframe q (hes q hq), h.apart, h.count⟩
  refine List.Perm.trans (List.Perm.append_right es ?_) h.split
  rw [List.cons_append, ← List.append_assoc, ← List.append_assoc]
  exact List.perm_middle.symm

theorem Linked.partialToEmpty (h : Linked c pages (xs ++ p :: ys) fs es) :
    Linked (c.partialToEmpty p) pages (xs ++ ys) fs (p :: es) := by
  have hn := h.nodup
  have hn' : (xs ++ p :: ys ++ es).Nodup := by
    rw [List.append_assoc] at hn
    exact hn.sublist (List.Sublist.append_left (List.sublist_append_right fs es) _)
  have hfs : ∀ q ∈ fs, q ∉ xs ++ p :: ys ++ es := by
    intro q hq hm
    rcases List.mem_append.mp hm with hm | hm
    · exact List.disjoint_of_nodup_append (List.nodup_append.mp hn).1 hm hq
    · exact List.disjoint_of_nodup_append hn (List.mem_append_right _ hq) hm
  obtain ⟨hp, he, hframe⟩ := DL.Is.moveFrom (h := c.emptyPages) h.partials h.empties hn' rfl
  refine ⟨?_, hp, h.fulls.congr rfl fun q hq => hframe q (hfs q hq), he, h.apart, ?_⟩
  · have hp : ((p :: (xs ++ ys)) ++ fs ++ es).Perm (xs ++ p :: ys ++ fs ++ es) :=
      List.Perm.append_right es (List.Perm.append_right fs List.perm_middle.symm)
    exact (List.perm_middle.trans hp).trans h.split
  · show c.emptyPageCount + 1 = _
    rw [h.count, List.length_cons]

/-- Links that are right for the counts are sound. -/
theorem Linked.sound (h : Linked c pages ps fs es) (hs : Slots c pages out)
    (left : ∀ q ∈ ps, 0 < c.freeCount q) (spent : ∀ q ∈ fs, c.freeCount q = 0)
    (whole : ∀ q ∈ es, c.freeCount q = c.totalSlots q ∧ 0 < c.freeCount q) :
    Sound c pages ps fs es out :=
  ⟨⟨h.split, h.partials, h.fulls, h.empties, h.apart, left, spent, whole, h.count,
    fun _ hp => hs.freeOk hp⟩, hs⟩

/-- The first move: a page that had no free slot goes from the full to the partial list, any other
one with slots out is there already. -/
theorem Linked.refill {n : Nat → Nat} (h : Linked c pages ps fs es) (hp : p ∈ pages)
    (hes : p ∉ es) (left : ∀ q ∈ ps, 0 < n q) (spent : ∀ q ∈ fs, n q = 0) :
    ∃ xs ys fs₁, Linked (if n p = 0 then c.fullToPartial p else c) pages (xs ++ p :: ys) fs₁ es ∧
      (∀ q ∈ xs ++ ys, 0 < n q) ∧ ∀ q ∈ fs₁, n q = 0 := by
  have hwhere : p ∈ ps ++ fs :=
    (List.mem_append.mp (h.split.mem_iff.mpr hp)).resolve_right hes
  by_cases h0 : n p = 0
  · obtain ⟨xs, ys, rfl⟩ := List.append_of_mem <| (List.mem_append.mp hwhere).resolve_left
      fun hm => by have := left _ hm; omega
    rw [if_pos h0]
    exact ⟨[], ps, xs ++ ys, h.fullToPartial, left, fun q hq =>
      spent q (List.mem_append.mpr ((List.mem_append.mp hq).imp_right (List.mem_cons_of_mem _)))⟩
  · obtain ⟨xs, ys, rfl⟩ := List.append_of_mem <| (List.mem_append.mp hwhere).resolve_right
      fun hm => h0 (spent _ hm)
    rw [if_neg h0]
    exact ⟨xs, ys, fs, h, fun q hq =>
      left q (List.mem_append.mpr ((List.mem_append.mp hq).imp_right (List.mem_cons_of_mem _))),
      spent⟩

theorem relinked_refill (c : SlabClass) (p k : Nat) :
    Relinked c (if k = 0 then c.fullToPartial p else c) := by
  split <;> exact ⟨rfl, rfl, rfl, rfl, rfl, rfl⟩

/-- **A slot is given back**: its page goes where its new `free_count` calls for, and with its last
slot to the empty list. -/
theorem Sound.give (h : Sound c pages ps fs es out) (ha : a ∈ out) :
    ∃ ps' fs' es', Sound (c.slabFree a) pages ps' fs' es' (out.erase a) ∧
    (es' = es ∨ es' = pageBase a :: es) := by
  obtain ⟨hslots, hlt, hcount⟩ := h.slots.push ha
  have hnotEs : pageBase a ∉ es := fun hm => by
    have := (h.lists.whole _ hm).1
    omega
  have hlinked : Linked (c.slabFreeNolock a).1 pages ps fs es :=
    ⟨h.lists.split, h.lists.partials, h.lists.fulls, h.lists.empties, h.lists.apart, h.lists.count⟩
  obtain ⟨xs, ys, fs₁, hl₁, hleft₁, hspent₁⟩ :=
    hlinked.refill (h.slots.out a ha) hnotEs h.lists.left h.lists.spent
  have hr := relinked_refill (c.slabFreeNolock a).1 (pageBase a) (c.freeCount (pageBase a))
  have hfree : c.slabFree a =
      if c.freeCount (pageBase a) + 1 = c.totalSlots (pageBase a) then
        (if c.freeCount (pageBase a) = 0 then (c.slabFreeNolock a).1.fullToPartial (pageBase a)
          else (c.slabFreeNolock a).1).partialToEmpty (pageBase a)
      else if c.freeCount (pageBase a) = 0 then (c.slabFreeNolock a).1.fullToPartial (pageBase a)
        else (c.slabFreeNolock a).1 := by
    have hself : (c.slabFreeNolock a).1.freeCount (pageBase a) = c.freeCount (pageBase a) + 1 := by
      rw [hcount, Function.update_self]
    have hfull : (c.slabFreeNolock a).2.1 = decide (c.freeCount (pageBase a) = 0) := rfl
    have hempty : (c.slabFreeNolock a).2.2 =
        decide (c.freeCount (pageBase a) + 1 = c.totalSlots (pageBase a)) := by
      rw [← hself]
      rfl
    simp only [SlabClass.slabFree, hfull, hempty, decide_eq_true_eq]
  rw [hfree]
  generalize (if c.freeCount (pageBase a) = 0 then
    (c.slabFreeNolock a).1.fullToPartial (pageBase a) else (c.slabFreeNolock a).1) = c₁ at *
  -- the counts of the other pages are as before
  have hne : ∀ q, q ∈ xs ++ ys ∨ q ∈ fs₁ ∨ q ∈ es → q ≠ pageBase a := by
    rintro q hq rfl
    have hperm : (pageBase a :: (xs ++ ys) ++ fs₁ ++ es).Nodup :=
      (List.Perm.append_right es
        (List.Perm.append_right fs₁ List.perm_middle)).nodup_iff.mp hl₁.nodup
    rw [List.cons_append, List.cons_append, List.nodup_cons, List.mem_append, List.mem_append]
      at hperm
    exact hperm.1 (or_assoc.mpr hq)
  have hcounts : ∀ q, q ∈ xs ++ ys ∨ q ∈ fs₁ ∨ q ∈ es → c₁.freeCount q = c.freeCount q :=
    fun q hq => by rw [hr.freeCount, hcount, Function.update_of_ne (hne q hq)]
  have hself : c₁.freeCount (pageBase a) = c.freeCount (pageBase a) + 1 := by
    rw [hr.freeCount, hcount, Function.update_self]
  have htotals : c₁.totalSlots = c.totalSlots := hr.totalSlots
  have hslots₁ := hslots.relinked hr
  have hwhole : ∀ q ∈ es, c₁.freeCount q = c₁.totalSlots q ∧ 0 < c₁.freeCount q := fun q hq => by
    rw [hcounts q (.inr (.inr hq)), htotals]
    exact h.lists.whole q hq
  by_cases hlast : c.freeCount (pageBase a) + 1 = c.totalSlots (pageBase a)
  · rw [if_pos hlast]
    refine ⟨xs ++ ys, fs₁, pageBase a :: es, ?_, .inr rfl⟩
    refine hl₁.partialToEmpty.sound (hslots₁.relinked ⟨rfl, rfl, rfl, rfl, rfl, rfl⟩)
      (fun q hq => ?_) (fun q hq => ?_) (fun q hq => ?_)
    · exact (hcounts q (.inl hq)).symm ▸ hleft₁ q hq
    · exact (hcounts q (.inr (.inl hq))).trans (hspent₁ q hq)
    · rcases List.mem_cons.mp hq with rfl | hq
      · show c₁.freeCount _ = c₁.totalSlots _ ∧ 0 < c₁.freeCount _
        rw [htotals, hself]
        exact ⟨hlast, Nat.succ_pos _⟩
      · exact hwhole q hq
  · rw [if_neg hlast]
    refine ⟨xs ++ pageBase a :: ys, fs₁, es, ?_, .inl rfl⟩
    refine hl₁.sound hslots₁ (fun q hq => ?_)
      (fun q hq => (hcounts q (.inr (.inl hq))).trans (hspent₁ q hq)) hwhole
    have hq' : q = pageBase a ∨ q ∈ xs ++ ys := by
      rcases List.mem_append.mp hq with hq | hq
      · exact .inr (List.mem_append_left _ hq)
      · exact (List.mem_cons.mp hq).imp_right (List.mem_append_right _)
    rcases hq' with rfl | hq'
    · omega
    · exact (hcounts q (.inl hq')).symm ▸ hleft₁ q hq'

end Give

/-! ## A reset -/

section Reset
variable {c c' : SlabClass} {pages ps fs es out l : List Nat} {p q n : Nat}

theorem resetFulls_spec (hf : Chain c.next c.fullPages fs) (hp : c.partials.Is ps)
    (he : c.empties.Is es) (hn : (ps ++ fs ++ es).Nodup) (hlen : fs.length ≤ n) :
    ∃ c', c.resetFulls n = some c' ∧ c'.partials.Is (fs.reverse ++ ps) ∧ c'.fullPages = 0 ∧
    c'.empties.Is es ∧
      c'.emptyPageCount = c.emptyPageCount ∧ Relinked c c' := by
  induction fs generalizing c ps n with
  | nil =>
    have h0 : c.fullPages = 0 := hf
    refine ⟨c, ?_, hp, h0, he, rfl, ⟨rfl, rfl, rfl, rfl, rfl, rfl⟩⟩
    cases n with
    | zero => exact if_pos h0
    | succ n => exact if_pos h0
  | cons p fs ih =>
    obtain ⟨rfl, h0, hf⟩ := hf
    cases n with
    | zero => exact absurd hlen (Nat.not_succ_le_zero _)
    | succ n =>
      rw [SlabClass.resetFulls, if_neg h0]
      have hn' : (c.fullPages :: (ps ++ fs ++ es)).Nodup :=
        (List.Perm.append_right es List.perm_middle).nodup_iff.mp hn
      obtain ⟨hnot, hnd⟩ := List.nodup_cons.mp hn'
      simp only [List.mem_append, not_or] at hnot
      have hdis : ∀ q, q ∈ fs ∨ q ∈ es → q ∉ ps := by
        rw [List.append_assoc] at hnd
        exact fun q hq hm => List.disjoint_of_nodup_append hnd hm (List.mem_append.mpr hq)
      have hlink : ∀ q, q ∈ fs ∨ q ∈ es → (c.partials.push c.fullPages).next q = c.next q ∧
          (c.partials.push c.fullPages).prev q = c.prev q := fun q hq => by
        have hqp : q ≠ c.fullPages := by
          rintro rfl
          exact hq.elim hnot.1.2 hnot.2
        exact ⟨DL.push_next hqp, hp.push_prev hqp (hdis q hq)⟩
      have hpush : (c.partials.push c.fullPages).Is (c.fullPages :: ps) := hp.push h0 hnot.1.1
      obtain ⟨c', hres, h1, h2, h3, h4, hr⟩ := ih
        (c := SlabClass.linkPartial { c with fullPages := c.next c.fullPages } c.fullPages)
        (hf.congr fun q hq => (hlink q (.inl hq)).1) hpush
          (he.congr rfl fun q hq => hlink q (.inr hq)) hn'
        (Nat.le_of_succ_le_succ hlen)
      refine ⟨c', hres, ?_, h2, h3, h4,
        ⟨hr.slotSize, hr.canary, hr.totalSlots, hr.freeCount, hr.freeList, hr.slotNext⟩⟩
      rw [List.reverse_cons, List.append_assoc]
      exact h1

theorem resetPartials_eq (h : Chain c.next p l) (hlen : l.length ≤ n) :
    c.resetPartials n p = some (l.foldl SlabClass.relay c) := by
  induction l generalizing c p n with
  | nil =>
    have h0 : p = 0 := h
    cases n with
    | zero => exact if_pos h0
    | succ n => exact if_pos h0
  | cons q l ih =>
    obtain ⟨rfl, h0, hl⟩ := h
    cases n with
    | zero => exact absurd hlen (Nat.not_succ_le_zero _)
    | succ n =>
      rw [SlabClass.resetPartials, if_neg h0, List.foldl_cons]
      exact ih (c := c.relay p) hl (Nat.le_of_succ_le_succ hlen)

/-- The free list of a page is all its slots, and its count is right. -/
def Complete (c : SlabClass) (p : Nat) : Prop :=
  ∃ l, Chain c.slotNext (c.freeList p) l ∧ l.length = c.freeCount p ∧ l.Perm (c.slotsOf p)

theorem relay_complete (h0 : 0 < c.carved) (ht : c.totalSlots p = c.carved) :
    Complete (c.relay p) p := by
  refine ⟨c.slotsOf p, ?_, ?_, List.Perm.refl _⟩
  · have hlist : (c.relay p).freeList p = p + 72 := Function.update_self ..
    rw [hlist, SlabClass.slotsOf]
    exact linkSlots_chain (by omega) (slotTotal_pos h0) (ht ▸ h0)
  · rw [length_slotsOf]
    exact (Function.update_self p (c.totalSlots p) c.freeCount).symm

theorem relay_other (h0 : 0 < c.carved) (ht : c.totalSlots p = c.carved)
    (hq : c.totalSlots q = c.carved) (hap : Apart p q) (h : Complete c q) :
    Complete (c.relay p) q := by
  obtain ⟨l, hch, hlen, hperm⟩ := h
  have hlist : (c.relay p).freeList q = c.freeList q := Function.update_of_ne hap.ne.symm _ _
  refine ⟨l, ?_, hlen.trans (Function.update_of_ne hap.ne.symm _ _).symm, hperm⟩
  rw [hlist]
  refine hch.congr fun a ha => linkSlots_other fun i hi => ?_
  have hin := mem_slotsOf hq (hperm.mem_iff.mp ha)
  have hfit := carved_fits c
  have hs := slotTotal_pos h0
  have hle : (i + 1) * c.slotTotal ≤ c.carved * c.slotTotal := Nat.mul_le_mul_right _ (ht ▸ hi)
  unfold Apart at hap
  rw [Nat.add_mul, Nat.one_mul] at hle
  omega

/-- The pages that have been gone through are complete, and those that were before. -/
theorem relays_complete (h0 : 0 < c.carved) (ht : ∀ q ∈ pages, c.totalSlots q = c.carved)
    (hap : pages.Pairwise Apart) (hl : ∀ q ∈ l, q ∈ pages) (hp : p ∈ pages)
    (h : p ∉ l → Complete c p) : Complete (l.foldl SlabClass.relay c) p := by
  induction l generalizing c with
  | nil => exact h List.not_mem_nil
  | cons q l ih =>
    rw [List.foldl_cons]
    refine ih (c := c.relay q) h0 ht (fun r hr => hl r (List.mem_cons_of_mem _ hr)) fun hpl => ?_
    have hq := hl q List.mem_cons_self
    by_cases hpq : p = q
    · subst hpq
      exact relay_complete h0 (ht p hp)
    · exact relay_other h0 (ht q hq) (ht p hp) (hap.forall hq hp (Ne.symm hpq))
        (h fun hm => (List.mem_cons.mp hm).elim hpq hpl)

theorem relays_links (c : SlabClass) (l : List Nat) :
    (l.foldl SlabClass.relay c).partials = c.partials ∧
    (l.foldl SlabClass.relay c).fulls = c.fulls ∧
      (l.foldl SlabClass.relay c).empties = c.empties ∧
      (l.foldl SlabClass.relay c).emptyPageCount = c.emptyPageCount ∧
      (l.foldl SlabClass.relay c).carved = c.carved ∧
      (l.foldl SlabClass.relay c).totalSlots = c.totalSlots := by
  induction l generalizing c with
  | nil => exact ⟨rfl, rfl, rfl, rfl, rfl, rfl⟩
  | cons q l ih => exact ih (c.relay q)

/-- **After a reset** no page is full and each page has all its slots; the empty list stays. -/
theorem Sound.reset (h : Sound c pages ps fs es out) (hn : pages.length ≤ n) :
    ∃ c', c.reset n = some c' ∧ Sound c' pages (fs.reverse ++ ps) [] es [] := by
  have hlen := h.lists.split.length_eq
  rw [List.length_append, List.length_append] at hlen
  obtain ⟨c₁, h1, hp, hf0, he, hcount, hr⟩ :=
    resetFulls_spec h.lists.fulls.chain h.lists.partials h.lists.empties h.lists.nodup (n := n)
      (by omega)
  have hrest :=
    resetPartials_eq hp.chain (n := n) (by rw [List.length_append, List.length_reverse]; omega)
  refine ⟨(fs.reverse ++ ps).foldl SlabClass.relay c₁, ?_, ?_⟩
  · rw [SlabClass.reset, h1]
    exact hrest
  have hs := h.slots.relinked hr
  have hperm : (fs.reverse ++ ps ++ [] ++ es).Perm pages := by
    rw [List.append_nil]
    refine List.Perm.trans (List.Perm.append_right es ?_) h.lists.split
    exact (List.Perm.append_right ps (List.reverse_perm fs)).trans List.perm_append_comm
  have hcomplete : ∀ q ∈ pages, Complete ((fs.reverse ++ ps).foldl SlabClass.relay c₁) q := by
    intro q hq
    refine relays_complete hs.fits hs.carved h.lists.apart (fun r hr' => hperm.mem_iff.mp ?_) hq
      fun hnot => ?_
    · exact List.mem_append_left _ (List.mem_append_left _ hr')
    · have hqe : q ∈ es := by
        have hm := hperm.mem_iff.mpr hq
        rw [List.append_nil] at hm
        exact (List.mem_append.mp hm).resolve_left hnot
      obtain ⟨l, hch, hll, hpl⟩ := hs.split q hq
      have hall : c₁.freeCount q = c₁.totalSlots q := by
        rw [hr.freeCount, hr.totalSlots]
        exact (h.lists.whole q hqe).1
      have hsum := hpl.length_eq
      rw [List.length_append, length_slotsOf] at hsum
      rw [List.length_eq_zero_iff.mp (show (out.filter (pageBase · = q)).length = 0 by omega),
        List.append_nil] at hpl
      exact ⟨l, hch, hll, hpl⟩
  obtain ⟨e1, e2, e3, e4, e5, e6⟩ := relays_links c₁ (fs.reverse ++ ps)
  have hcarved : ∀ q ∈ pages, ((fs.reverse ++ ps).foldl SlabClass.relay c₁).totalSlots q =
      ((fs.reverse ++ ps).foldl SlabClass.relay c₁).carved := fun q hq => by
    rw [e6, e5]
    exact hs.carved q hq
  generalize (fs.reverse ++ ps).foldl SlabClass.relay c₁ = c₂ at *
  have hslots : Slots c₂ pages [] := by
    refine ⟨e5 ▸ hs.fits, hcarved, hs.aligned, fun q hq => ?_, nofun⟩
    obtain ⟨l, hch, hll, hpl⟩ := hcomplete q hq
    exact ⟨l, hch, hll, by rw [List.filter_nil, List.append_nil]; exact hpl⟩
  have hfree : ∀ q ∈ pages, c₂.freeCount q = c₂.totalSlots q ∧ 0 < c₂.freeCount q := fun q hq => by
    obtain ⟨l, -, hll, hpl⟩ := hcomplete q hq
    rw [← hll, hpl.length_eq, length_slotsOf, hcarved q hq]
    exact ⟨rfl, hslots.fits⟩
  have hin : ∀ q, q ∈ fs.reverse ++ ps ∨ q ∈ es → q ∈ pages := fun q hq => hperm.mem_iff.mp (by
    rw [List.append_nil]
    exact List.mem_append.mpr hq)
  refine Linked.sound ⟨hperm, e1 ▸ hp, ?_, e3 ▸ he, h.lists.apart, ?_⟩ hslots
    (fun q hq => (hfree q (hin q (.inl hq))).2)
    nofun fun q hq => hfree q (hin q (.inr hq))
  · rw [e2]
    exact DL.is_nil_iff.mpr hf0
  · rw [e4, hcount, h.lists.count]

end Reset

/-! ## The scans -/

section Sweeps
variable {c : SlabClass} {due : Nat → Bool} {minPages : Nat} {x x' : Sweep}
  {pages ps fs es out done rest keep drop l : List Nat} {p n curr : Nat}

theorem visited_eq {next : Nat → Nat} (h : Chain next p l) (hlen : l.length ≤ n) :
    visited next n p = some l := by
  induction l generalizing p n with
  | nil =>
    have h0 : p = 0 := h
    cases n with
    | zero => exact if_pos h0
    | succ n => exact if_pos h0
  | cons q l ih =>
    obtain ⟨rfl, h0, hl⟩ := h
    cases n with
    | zero => exact absurd hlen (Nat.not_succ_le_zero _)
    | succ n => rw [visited, if_neg h0, ih hl (Nat.le_of_succ_le_succ hlen), Option.map_some]

/-- A page that a scan takes for idle. -/
def Idle (due : Nat → Bool) (c : SlabClass) (p : Nat) : Prop :=
  c.freeCount p = c.totalSlots p ∨ due p

/-- What a scan of the partial pages `rest` behind `done` does: it keeps some and unmaps the
others. -/
structure Swept (due : Nat → Bool) (minPages : Nat) (done rest keep drop : List Nat)
    (x x' : Sweep) : Prop where
  partials : x'.cls.partials.Is (done ++ keep)
  split : (keep ++ drop).Perm rest
  idle : ∀ p ∈ drop, Idle due x.cls p
  kept : minPages ≤ 1 → ∀ p ∈ keep, ¬Idle due x.cls p
  gone : x'.gone = drop.reverse ++ x.gone
  bytes : x'.freedBytes = x.freedBytes + 65536 * drop.length
  heads : x'.cls.fullPages = x.cls.fullPages ∧ x'.cls.emptyPages = x.cls.emptyPages ∧
    x'.cls.emptyPageCount = x.cls.emptyPageCount
  others : ∀ q, q ∉ done ++ rest → x'.cls.next q = x.cls.next q ∧ x'.cls.prev q = x.cls.prev q
  relinked : Relinked x.cls x'.cls

theorem sweepPartials_spec (due : Nat → Bool) (minPages : Nat) (done : List Nat)
    (h : x.cls.partials.Is (done ++ rest)) (hc : Chain x.cls.next curr rest)
    (hlen : rest.length ≤ n) :
    ∃ x' keep drop, sweepPartials due minPages n curr x = some x' ∧
    Swept due minPages done rest keep drop x x' := by
  induction rest generalizing done x n curr with
  | nil =>
    have h0 : curr = 0 := hc
    refine ⟨x, [], [], ?_, h, .refl _, nofun, fun _ => nofun, rfl, rfl, ⟨rfl, rfl, rfl⟩,
      fun _ _ => ⟨rfl, rfl⟩, ⟨rfl, rfl, rfl, rfl, rfl, rfl⟩⟩
    cases n with
    | zero => exact if_pos h0
    | succ n => exact if_pos h0
  | cons p rest ih =>
    obtain ⟨rfl, h0, hc⟩ := hc
    cases n with
    | zero => exact absurd hlen (Nat.not_succ_le_zero _)
    | succ n =>
      have hlen' := Nat.le_of_succ_le_succ hlen
      have hperm : ∀ {l : List Nat}, l.Perm rest → (curr :: l).Perm (curr :: rest) :=
        fun hl => hl.cons _
      -- the page stays on the list
      have hstay : ∀ idle, (minPages ≤ 1 → ¬Idle due x.cls curr) →
          ∃ x' keep drop,
          sweepPartials due minPages n (x.cls.next curr) { x with idleCount := idle } = some x' ∧
            Swept due minPages done (curr :: rest) keep drop x x' := by
        intro idle hk
        obtain ⟨x', keep, drop, hres, hs⟩ := ih (x := { x with idleCount := idle }) (done ++ [curr])
          (by rw [List.append_assoc]; exact h) hc hlen'
        refine ⟨x', curr :: keep, drop, hres, ?_, hperm hs.split, hs.idle, fun hm q hq => ?_,
          hs.gone, hs.bytes, hs.heads,
          fun q hq => hs.others q (by rw [List.append_assoc]; exact hq), hs.relinked⟩
        · have hp := hs.partials
          rw [List.append_assoc] at hp
          exact hp
        · rcases List.mem_cons.mp hq with rfl | hq
          · exact hk hm
          · exact hs.kept hm q hq
      rw [sweepPartials, if_neg h0]
      dsimp only
      by_cases hidle : x.cls.freeCount curr = x.cls.totalSlots curr ∨ due curr
      · rw [if_pos hidle]
        by_cases hskip : x.idleCount + 1 < minPages
        · rw [if_pos hskip]
          exact hstay _ fun hm => absurd hskip (by omega)
        · rw [if_neg hskip]
          have hun : (x.cls.unlinkPartial curr).partials.Is (done ++ rest) := h.unlink
          have hc' : Chain (x.cls.unlinkPartial curr).next (x.cls.next curr) rest := by
            obtain ⟨h', hch⟩ := hun.chain.of_append
            rwa [hc.head_eq, ← hch.head_eq]
          obtain ⟨x', keep, drop, hres, hs⟩ :=
            ih (x := Sweep.unmap { x with idleCount := x.idleCount + 1 }
            (x.cls.unlinkPartial curr) curr) done hun hc' hlen'
          refine ⟨x', keep, curr :: drop, hres, hs.partials,
            List.perm_middle.trans (hperm hs.split), fun q hq => ?_, hs.kept, ?_, ?_, hs.heads,
            fun q hq => ?_, ⟨hs.relinked.slotSize, hs.relinked.canary, hs.relinked.totalSlots,
              hs.relinked.freeCount, hs.relinked.freeList, hs.relinked.slotNext⟩⟩
          · rcases List.mem_cons.mp hq with rfl | hq
            · exact hidle
            · exact hs.idle q hq
          · rw [hs.gone, List.reverse_cons, List.append_assoc]
            rfl
          · rw [hs.bytes, List.length_cons]
            show x.freedBytes + 65536 + _ = _
            omega
          · obtain ⟨h1, h2⟩ := hs.others q fun hm => hq (List.mem_append.mpr
              ((List.mem_append.mp hm).imp_right (List.mem_cons_of_mem _)))
            obtain ⟨h3, h4⟩ := h.unlink_other hq
            exact ⟨h1.trans h3, h2.trans h4⟩
      · rw [if_neg hidle]
        exact hstay x.idleCount fun _ => hidle

/-- The pages that are left. -/
def remain (pages drop : List Nat) : List Nat := pages.filter (· ∉ drop)

theorem mem_remain : p ∈ remain pages drop ↔ p ∈ pages ∧ p ∉ drop := by
  rw [remain, List.mem_filter, decide_eq_true_iff]

theorem remain_congr (h : ∀ p, p ∈ drop ↔ p ∈ l) : remain pages drop = remain pages l :=
  List.filter_congr fun p _ => decide_eq_decide.mpr (not_congr (h p))

theorem remain_remain : remain (remain pages l) drop = remain pages (drop ++ l) := by
  rw [remain, remain, List.filter_filter]
  refine List.filter_congr fun p _ => ?_
  rw [← Bool.decide_and, decide_eq_decide, List.mem_append, not_or]

/-- Pages that are on the lists but dropped are none of those that are kept. -/
theorem remain_perm (hn : pages.Nodup) (hp : (drop ++ l).Perm pages) :
    l.Perm (remain pages drop) := by
  have hn' := hp.nodup_iff.mpr hn
  have hd := List.disjoint_of_nodup_append hn'
  have hfilter := hp.filter (· ∉ drop)
  have h1 : drop.filter (· ∉ drop) = [] :=
    List.filter_eq_nil_iff.mpr fun q hq hm => of_decide_eq_true hm hq
  have h2 : l.filter (· ∉ drop) = l :=
    List.filter_eq_self.mpr fun q hq => decide_eq_true fun hm => hd hm hq
  rw [List.filter_append, h1, h2] at hfilter
  exact hfilter

/-- Complete pages are given back to the system. -/
theorem Sound.remain (h : Sound c pages ps fs es out)
    (hd : ∀ p ∈ drop, p ∈ pages ∧ c.freeCount p = c.totalSlots p) {c' : SlabClass}
    (hr : Relinked c c') {ps' es' : List Nat}
    (hl : (ps' ++ fs ++ es').Perm (remain pages drop) → Linked c' (remain pages drop) ps' fs es')
    (hp : (drop ++ (ps' ++ fs ++ es')).Perm (ps ++ fs ++ es)) (hps : ∀ p ∈ ps', p ∈ ps)
    (hes : ∀ p ∈ es', p ∈ es) : Sound c' (Slab.remain pages drop) ps' fs es' out := by
  have hperm := remain_perm (h.lists.apart.imp Apart.ne) (hp.trans h.lists.split)
  have hslots : Slots c (Slab.remain pages drop) out :=
    h.slots.sublist (List.filter_subset_self _) fun a ha =>
    mem_remain.mpr ⟨h.slots.out a ha, fun hm => h.slots.none_out (hd _ hm).1 (hd _ hm).2 ha rfl⟩
  refine (hl hperm).sound (hslots.relinked hr) (fun q hq => ?_) (fun q hq => ?_) fun q hq => ?_
  · exact hr.freeCount ▸ h.lists.left q (hps q hq)
  · exact hr.freeCount ▸ h.lists.spent q hq
  · rw [hr.freeCount, hr.totalSlots]
    exact h.lists.whole q (hes q hq)

theorem Swept.sound (h : Sound x.cls pages ps fs es out)
    (hs : Swept (fun _ => false) minPages [] ps keep drop x x') :
    Sound x'.cls (Slab.remain pages drop) keep fs es out := by
  have hn := h.lists.nodup
  have hin : ∀ p ∈ drop, p ∈ ps := fun p hp => hs.split.mem_iff.mp (List.mem_append_right _ hp)
  have hlink : ∀ q, q ∈ fs ∨ q ∈ es → x'.cls.next q = x.cls.next q ∧ x'.cls.prev q = x.cls.prev q :=
    fun q hq =>
    hs.others q fun hm => by
      rw [List.append_assoc] at hn
      exact List.disjoint_of_nodup_append hn hm (List.mem_append.mpr hq)
  obtain ⟨hf, he, hc⟩ := hs.heads
  refine h.remain (fun p hp => ⟨?_, ?_⟩) hs.relinked
    (fun hp => ⟨hp, hs.partials, ?_, ?_, h.lists.apart.filter _, ?_⟩) ?_
    (fun p hp => hs.split.mem_iff.mp (List.mem_append_left _ hp)) fun _ => id
  · exact h.lists.split.mem_iff.mp (List.mem_append_left _ (List.mem_append_left _ (hin p hp)))
  · exact (hs.idle p hp).resolve_right nofun
  · exact h.lists.fulls.congr hf fun q hq => hlink q (.inl hq)
  · exact h.lists.empties.congr he fun q hq => hlink q (.inr hq)
  · rw [hc, h.lists.count]
  · rw [← List.append_assoc, ← List.append_assoc]
    exact List.Perm.append_right es
      (List.Perm.append_right fs (List.perm_append_comm.trans hs.split))

/-- The empty list is given back to the system. -/
structure Emptied (es : List Nat) (x x' : Sweep) : Prop where
  empties : x'.cls.emptyPages = 0 ∧ x'.cls.emptyPageCount = 0
  gone : x'.gone = es.reverse ++ x.gone
  heads : x'.cls.partialPages = x.cls.partialPages ∧ x'.cls.fullPages = x.cls.fullPages
  others : ∀ q, q ∉ es → x'.cls.next q = x.cls.next q ∧ x'.cls.prev q = x.cls.prev q
  relinked : Relinked x.cls x'.cls

theorem sweepEmpties_spec (h : x.cls.empties.Is es) (hcount : x.cls.emptyPageCount = es.length)
    (hlen : es.length ≤ n) : ∃ x', sweepEmpties n x = some x' ∧ Emptied es x x' := by
  induction es generalizing x n with
  | nil =>
    have h0 : x.cls.emptyPages = 0 := DL.is_nil_iff.mp h
    refine ⟨x, ?_, ⟨h0, hcount⟩, rfl, ⟨rfl, rfl⟩, fun _ _ => ⟨rfl, rfl⟩,
      ⟨rfl, rfl, rfl, rfl, rfl, rfl⟩⟩
    cases n with
    | zero => exact if_pos h0
    | succ n => exact if_pos h0
  | cons p es ih =>
    have hhead : x.cls.emptyPages = p := h.chain.1
    subst hhead
    cases n with
    | zero => exact absurd hlen (Nat.not_succ_le_zero _)
    | succ n =>
      have h0 : x.cls.emptyPages ≠ 0 := h.chain.2.1
      have hcount' : x.cls.popEmpty.emptyPageCount = es.length := by
        show (if 0 < x.cls.emptyPageCount then x.cls.emptyPageCount - 1 else x.cls.emptyPageCount) =
          es.length
        rw [hcount, List.length_cons, if_pos (Nat.succ_pos _), Nat.add_sub_cancel]
      obtain ⟨x', hres, hs⟩ := ih (x := x.unmap x.cls.popEmpty x.cls.emptyPages) h.pop hcount'
        (Nat.le_of_succ_le_succ hlen)
      refine ⟨x', ?_, hs.empties, ?_, hs.heads, fun q hq => ?_,
        ⟨hs.relinked.slotSize, hs.relinked.canary, hs.relinked.totalSlots, hs.relinked.freeCount,
          hs.relinked.freeList, hs.relinked.slotNext⟩⟩
      · rw [sweepEmpties, if_neg h0]
        exact hres
      · rw [hs.gone, List.reverse_cons, List.append_assoc]
        rfl
      · obtain ⟨h1, h2⟩ := hs.others q fun hm => hq (List.mem_cons_of_mem _ hm)
        have hpop := DL.Is.unlink_other (show _ from h : DL.Is _ ([] ++ _ :: _)) hq
        rw [← h.pop_eq] at hpop
        exact ⟨h1.trans hpop.1, h2.trans hpop.2⟩

theorem Emptied.sound (h : Sound x.cls pages ps fs es out) (hs : Emptied es x x') :
    Sound x'.cls (Slab.remain pages es) ps fs [] out := by
  have hn := h.lists.nodup
  have hlink : ∀ q, q ∈ ps ∨ q ∈ fs → x'.cls.next q = x.cls.next q ∧ x'.cls.prev q = x.cls.prev q :=
    fun q hq =>
    hs.others q (List.disjoint_of_nodup_append hn (List.mem_append.mpr hq))
  refine h.remain (fun p hp => ⟨?_, (h.lists.whole p hp).1⟩) hs.relinked
    (fun hp => ⟨hp, ?_, ?_, DL.is_nil_iff.mpr hs.empties.1, h.lists.apart.filter _, hs.empties.2⟩)
      ?_ (fun _ => id) nofun
  · exact h.lists.split.mem_iff.mp (List.mem_append_right _ hp)
  · exact h.lists.partials.congr hs.heads.1 fun q hq => hlink q (.inl hq)
  · exact h.lists.fulls.congr hs.heads.2 fun q hq => hlink q (.inr hq)
  · rw [List.append_nil]
    exact List.perm_append_comm

end Sweeps

end Cmem.L2.Slab

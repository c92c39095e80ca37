import Mathlib
import Cmem.Core.Links

/-!
# Refilling a thread cache from the pages of a class

`slab_create_page`, `tls_cache_drain_slots` and `slab_alloc_with_tls_refill`
(src/src/cmem_slab.c:787-858, 1146-1208 and 1248-1312) under the lock of a class. A page is on
the partial, the full or the empty list of its class as its `free_count` says. The call may make
pages twice: while it drains slots into the cache, and once more when that has given nothing.
Whether the system gives a page is answered anew each time.
-/
namespace Cmem.L2.Slab

/-- `mp_slab_class_t`, the fields of its pages and the links of slots, by address. -/
structure SlabClass where
  slotSize : Nat
  /-- `MP_FLAG_DEBUG_CANARY` of the pool -/
  canary : Bool
  partialPages : Nat
  fullPages : Nat
  emptyPages : Nat
  emptyPageCount : Nat
  next : Nat → Nat
  prev : Nat → Nat
  totalSlots : Nat → Nat
  freeCount : Nat → Nat
  freeList : Nat → Nat
  slotNext : Nat → Nat

/-- The thread cache of the class. -/
structure ThreadCache where
  slots : Nat
  count : Nat

namespace SlabClass

/-- `total_slot_size` -/
def slotTotal (c : SlabClass) : Nat := (152 + c.slotSize + c.canary.toNat + 7) % 2 ^ 64 / 8 * 8

/-- The slots of a new page; a class whose slots do not fit has none. -/
def carved (c : SlabClass) : Nat := (65536 - 72) / c.slotTotal % 2 ^ 16

/-- The links after so many turns of the loop of `slab_create_page`. -/
def linkSlots (ptr size total : Nat) (m : Nat → Nat) : Nat → Nat → Nat
  | 0 => m
  | i + 1 =>
    Function.update (linkSlots ptr size total m i) (ptr + i * size)
      (if i + 1 < total then ptr + (i + 1) * size else 0)

/-- mirrors `slab_create_page`, src/src/cmem_slab.c:787-858, on zeroed memory at `p` -/
def createPage (c : SlabClass) (p : Nat) : SlabClass :=
  { c with
    next := Function.update c.next p 0
    prev := Function.update c.prev p 0
    totalSlots := Function.update c.totalSlots p c.carved
    freeCount := Function.update c.freeCount p c.carved
    freeList := Function.update c.freeList p (p + 72)
    slotNext := linkSlots (p + 72) c.slotTotal c.carved
      (fun a => if p ≤ a ∧ a < p + 65536 then 0 else c.slotNext a) c.carved }

def partials (c : SlabClass) : DL Nat := ⟨c.next, c.prev, c.partialPages⟩
def fulls (c : SlabClass) : DL Nat := ⟨c.next, c.prev, c.fullPages⟩
def empties (c : SlabClass) : DL Nat := ⟨c.next, c.prev, c.emptyPages⟩

/-- A new page goes on the partial list, src/src/cmem_slab.c:1172-1177. -/
def linkPartial (c : SlabClass) (page : Nat) : SlabClass :=
  let P := c.partials.push page
  { c with next := P.next, prev := P.prev, partialPages := P.head }

/-- The first empty page goes on the partial list, src/src/cmem_slab.c:1155-1166 and 1269-1280. -/
def reuseEmpty (c : SlabClass) : SlabClass :=
  let E := c.empties.pop c.emptyPages
  let P := (⟨E.next, E.prev, c.partialPages⟩ : DL Nat).push c.emptyPages
  { c with
    next := P.next, prev := P.prev, partialPages := P.head, emptyPages := E.head,
    emptyPageCount := c.emptyPageCount - 1 }

/-- A page without a free slot goes on the full list, src/src/cmem_slab.c:1187-1197 and
1291-1301. The partial list goes on behind it. -/
def retire (c : SlabClass) (page : Nat) : SlabClass :=
  let P := c.partials.pop page
  let F := (⟨P.next, P.prev, c.fullPages⟩ : DL Nat).push page
  { c with next := F.next, prev := F.prev, partialPages := P.head, fullPages := F.head }

/-- The first free slot of a page is taken off its free list. -/
def popSlot (c : SlabClass) (page : Nat) : SlabClass :=
  { c with
    freeList := Function.update c.freeList page (c.slotNext (c.freeList page))
    freeCount :=
      Function.update c.freeCount page
        (if c.freeCount page = 0 then 65535 else c.freeCount page - 1) }

/-- One slot of a page, src/src/cmem_slab.c:1184-1197 and 1288-1301; `none` when a null pointer is
read. -/
def takeSlot (c : SlabClass) (page : Nat) : Option (SlabClass × Nat) :=
  if c.freeList page = 0 then none
  else
    some
      (if (c.popSlot page).freeCount page = 0 then (c.popSlot page).retire page else c.popSlot page,
        c.freeList page)

end SlabClass

/-- What a call works on: the class, the thread cache, how often it has asked for a page, and the
pages it has made. -/
structure Refill where
  cls : SlabClass
  cache : ThreadCache
  asked : Nat
  made : List Nat

section Calls
variable (answers : Nat → Option Nat)

/-- `slab_create_page`, with the next answer of the system; `0` is NULL. -/
def Refill.createPage (x : Refill) : Refill × Nat :=
  match answers x.asked with
  | none => ({ x with asked := x.asked + 1 }, 0)
  | some p => ({ x with cls := x.cls.createPage p, asked := x.asked + 1, made := p :: x.made }, p)

/-- The page a turn of the drain takes its slot from, src/src/cmem_slab.c:1152-1182. -/
def Refill.drainPage (x : Refill) : Refill × Nat :=
  if x.cls.partialPages ≠ 0 then (x, x.cls.partialPages)
  else if x.cls.emptyPages ≠ 0 then ({ x with cls := x.cls.reuseEmpty }, x.cls.emptyPages)
  else
    let (x, page) := x.createPage answers
    if page = 0 then (x, 0) else ({ x with cls := x.cls.linkPartial page }, page)

/-- The page of the third phase, src/src/cmem_slab.c:1265-1286; a new one is not linked. -/
def Refill.directPage (x : Refill) : Refill × Nat :=
  if x.cls.partialPages ≠ 0 then (x, x.cls.partialPages)
  else if x.cls.emptyPages ≠ 0 then ({ x with cls := x.cls.reuseEmpty }, x.cls.emptyPages)
  else x.createPage answers

/-- A slot goes to the front of the thread cache. -/
def Refill.cacheSlot (x : Refill) (c : SlabClass) (slot : Nat) : Refill :=
  { x with
    cls := { c with slotNext := Function.update c.slotNext slot x.cache.slots }
    cache := ⟨slot, x.cache.count + 1⟩ }

/-- mirrors `tls_cache_drain_slots`, src/src/cmem_slab.c:1146-1208; the number of turns is that of
the slots asked for -/
def tlsCacheDrainSlots : Nat → Refill → Option Refill
  | 0, x => some x
  | n + 1, x =>
    let (x, page) := x.drainPage answers
    if page = 0 then some x
    else
      match x.cls.takeSlot page with
      | none => none
      | some (c, slot) => tlsCacheDrainSlots n (x.cacheSlot c slot)

/-- The third phase, src/src/cmem_slab.c:1263-1304. -/
def Refill.direct (x : Refill) : Option (Refill × Nat) :=
  let (x, page) := x.directPage answers
  if page = 0 then some (x, 0)
  else
    match x.cls.takeSlot page with
    | none => none
    | some (c, slot) => some ({ x with cls := c }, slot)

/-- mirrors `slab_alloc_with_tls_refill`, src/src/cmem_slab.c:1248-1312 -/
def slabAllocWithTlsRefill (x : Refill) : Option (Refill × Nat) :=
  match tlsCacheDrainSlots answers 64 x with
  | none => none
  | some x =>
    if 0 < x.cache.count then
      if x.cache.slots = 0 then none
      else some
        ({ x with cache := ⟨x.cls.slotNext x.cache.slots, x.cache.count - 1⟩ }, x.cache.slots)
    else x.direct answers

end Calls

/-! ## The invariant of a class -/

/-- The bytes of two pages are apart. -/
def Apart (p q : Nat) : Prop := p + 65536 ≤ q ∨ q + 65536 ≤ p

/-- The free list of a page ends, is in the page, and has `free_count` slots. -/
def FreeOk (c : SlabClass) (p : Nat) : Prop :=
  ∃ l, Chain c.slotNext (c.freeList p) l ∧ l.length = c.freeCount p ∧ ∀ a ∈ l, p ≤ a ∧ a < p + 65536

/-- The pages of a class are those of its three lists; `ps` may have a page with all its slots. -/
structure Lists (c : SlabClass) (pages ps fs es : List Nat) : Prop where
  split : (ps ++ fs ++ es).Perm pages
  partials : c.partials.Is ps
  fulls : c.fulls.Is fs
  empties : c.empties.Is es
  apart : pages.Pairwise Apart
  left : ∀ p ∈ ps, 0 < c.freeCount p
  spent : ∀ p ∈ fs, c.freeCount p = 0
  whole : ∀ p ∈ es, c.freeCount p = c.totalSlots p ∧ 0 < c.freeCount p
  count : c.emptyPageCount = es.length
  free : ∀ p ∈ pages, FreeOk c p

/-- **The page lists are sound**: each page is on the list its `free_count` calls for. -/
def PagesOk (c : SlabClass) (pages : List Nat) : Prop :=
  ∃ ps fs es, Lists c pages ps fs es ∧ ∀ p ∈ ps, c.freeCount p < c.totalSlots p

/-- The pages the system may give are new, and apart from each other. -/
def Fresh (answers : Nat → Option Nat) (pages : List Nat) : Prop :=
  ∀ i p, answers i = some p → p ≠ 0 ∧ (∀ q ∈ pages, Apart p q) ∧ ∀ j q, answers j = some q →
  i ≠ j → Apart p q

/-- The call has not read a null pointer, the pages it has made are on the lists with the others,
and when it has no slot nothing has changed. -/
def RefillSound (c : SlabClass) (pages : List Nat) : Option (Refill × Nat) → Prop
  | none => False
  | some (x, slot) => PagesOk x.cls (x.made ++ pages) ∧ (slot = 0 → x.cls = c ∧ x.made = [])

section Lists
variable {c c' : SlabClass} {pages ps fs es l : List Nat} {p q : Nat}

instance : Std.Symm Apart := ⟨fun _ _ => Or.symm⟩

theorem Apart.ne (h : Apart p q) : p ≠ q := by
  rintro rfl
  unfold Apart at h
  omega

theorem Lists.nodup (h : Lists c pages ps fs es) : (ps ++ fs ++ es).Nodup :=
  h.split.nodup_iff.mpr (h.apart.imp Apart.ne)

/-- The pages have other links, and the slots they had. -/
structure Relinked (c c' : SlabClass) : Prop where
  slotSize : c'.slotSize = c.slotSize
  canary : c'.canary = c.canary
  totalSlots : c'.totalSlots = c.totalSlots
  freeCount : c'.freeCount = c.freeCount
  freeList : c'.freeList = c.freeList
  slotNext : c'.slotNext = c.slotNext

theorem Relinked.slotTotal (h : Relinked c c') : c'.slotTotal = c.slotTotal := by
  rw [SlabClass.slotTotal, SlabClass.slotTotal, h.slotSize, h.canary]

theorem Relinked.carved (h : Relinked c c') : c'.carved = c.carved := by
  rw [SlabClass.carved, SlabClass.carved, h.slotTotal]

/-- The free list of a page is read in its own bytes only. -/
theorem FreeOk.congr (h : FreeOk c p) (hl : c'.freeList p = c.freeList p)
    (hc : c'.freeCount p = c.freeCount p)
    (hs : ∀ a, p ≤ a → a < p + 65536 → c'.slotNext a = c.slotNext a) : FreeOk c' p := by
  obtain ⟨l, hch, hlen, hin⟩ := h
  refine ⟨l, ?_, hlen.trans hc.symm, hin⟩
  rw [hl]
  exact hch.congr fun a ha => hs a (hin a ha).1 (hin a ha).2

/-! ## A new page -/

theorem carved_fits (c : SlabClass) : c.carved * c.slotTotal ≤ 65536 - 72 :=
  Nat.le_trans (Nat.mul_le_mul_right _ (Nat.mod_le ..)) (Nat.div_mul_le_self ..)

theorem slotTotal_pos (h : 0 < c.carved) : 0 < c.slotTotal := by
  rcases Nat.eq_zero_or_pos c.slotTotal with h0 | h0
  · rw [SlabClass.carved, h0, Nat.div_zero] at h
    exact absurd h (by decide)
  · exact h0

theorem linkSlots_other {ptr size total n a : Nat} {m : Nat → Nat}
    (h : ∀ i < n, a ≠ ptr + i * size) : SlabClass.linkSlots ptr size total m n a = m a := by
  induction n with
  | zero => rfl
  | succ n ih =>
    exact (Function.update_of_ne (h n (Nat.lt_succ_self n)) _ _).trans
      (ih fun i hi => h i (Nat.lt_succ_of_lt hi))

theorem linkSlots_at {ptr size total n j : Nat} {m : Nat → Nat} (hs : 0 < size) (hj : j < n) :
    SlabClass.linkSlots ptr size total m n (ptr + j * size) =
      if j + 1 < total then ptr + (j + 1) * size else 0 := by
  induction n with
  | zero => omega
  | succ n ih =>
    by_cases he : j = n
    · subst he
      exact Function.update_self ..
    · have hne : ptr + j * size ≠ ptr + n * size := fun h =>
        he (Nat.eq_of_mul_eq_mul_right hs (Nat.add_left_cancel h))
      exact (Function.update_of_ne hne _ _).trans (ih (by omega))

/-- The slots that are linked follow each other. -/
theorem linkSlots_chain {ptr size n : Nat} {m : Nat → Nat} (hp : 0 < ptr) (hs : 0 < size)
    (hn : 0 < n) :
    Chain (SlabClass.linkSlots ptr size n m n) ptr
      ((List.range n).map fun i => ptr + i * size) := by
  have hchain : Chain (SlabClass.linkSlots ptr size n m n) (ptr + 0 * size)
      ((List.range' 0 (n - 1 + 1)).map fun i => ptr + i * size) :=
    Chain.range (n := n) (f := fun i => ptr + i * size) (fun i hi => ?_) (fun i hi => ?_)
      (fun i _ => by omega)
      (n - 1) 0 (by omega)
  · rw [Nat.sub_add_cancel hn, ← List.range_eq_range', Nat.zero_mul, Nat.add_zero] at hchain
    exact hchain
  · exact (linkSlots_at hs (Nat.lt_of_succ_lt hi)).trans (if_pos hi)
  · exact (linkSlots_at hs (by omega)).trans (if_neg (by omega))

/-- The slots of a new page are its free list. -/
theorem createPage_free (h0 : 0 < c.carved) : FreeOk (c.createPage p) p := by
  have hfit := carved_fits c
  have hs := slotTotal_pos h0
  refine ⟨(List.range c.carved).map fun i => p + 72 + i * c.slotTotal, ?_, ?_, fun a ha => ?_⟩
  · have hlist : (c.createPage p).freeList p = p + 72 := Function.update_self ..
    rw [hlist]
    exact linkSlots_chain (by omega) hs h0
  · rw [List.length_map, List.length_range]
    exact (Function.update_self p c.carved c.freeCount).symm
  · obtain ⟨i, hi, rfl⟩ := List.mem_map.mp ha
    have hi := List.mem_range.mp hi
    have hle : (i + 1) * c.slotTotal ≤ c.carved * c.slotTotal := Nat.mul_le_mul_right _ hi
    rw [Nat.add_mul, Nat.one_mul] at hle
    omega

theorem createPage_other (hq : Apart p q) (h : FreeOk c q) : FreeOk (c.createPage p) q := by
  have hfit := carved_fits c
  refine h.congr (Function.update_of_ne hq.ne.symm _ _) (Function.update_of_ne hq.ne.symm _ _)
    fun a h1 h2 => ?_
  unfold Apart at hq
  refine (linkSlots_other fun i hi => ?_).trans (if_neg (by omega))
  have hs := slotTotal_pos (c := c) (by omega)
  have hle : (i + 1) * c.slotTotal ≤ c.carved * c.slotTotal := Nat.mul_le_mul_right _ hi
  rw [Nat.add_mul, Nat.one_mul] at hle
  omega

/-- A page that does not have one free slot stays where it is when one is taken. -/
theorem takeSlot_stays (hl : c.freeList p ≠ 0) (hc : c.freeCount p ≠ 1) :
    c.takeSlot p = some (c.popSlot p, c.freeList p) ∧ (c.popSlot p).freeCount p ≠ 0 := by
  have hself : (c.popSlot p).freeCount p = if c.freeCount p = 0 then 65535 else c.freeCount p - 1 :=
    Function.update_self ..
  have hne : (c.popSlot p).freeCount p ≠ 0 := by
    rw [hself]
    split <;> omega
  refine ⟨?_, hne⟩
  rw [SlabClass.takeSlot, if_neg hl, if_neg hne]

/-- The memory of a page without slots is zero. -/
theorem createPage_empty (h0 : c.carved = 0) : (c.createPage p).slotNext (p + 72) = 0 := by
  show SlabClass.linkSlots _ _ _ _ c.carved _ = 0
  rw [h0]
  exact if_pos (by omega)

/-- The other pages stay as they are. -/
theorem Lists.createPage (h : Lists c pages ps fs es) (hp : ∀ q ∈ pages, Apart p q) :
    Lists (c.createPage p) pages ps fs es := by
  have hne : ∀ q ∈ ps ++ fs ++ es, q ≠ p := fun q hq => (hp q (h.split.mem_iff.mp hq)).ne.symm
  have hcount : ∀ q ∈ ps ++ fs ++ es, (c.createPage p).freeCount q = c.freeCount q ∧
      (c.createPage p).totalSlots q = c.totalSlots q := fun q hq =>
    ⟨Function.update_of_ne (hne q hq) _ _, Function.update_of_ne (hne q hq) _ _⟩
  have hlink : ∀ q ∈ ps ++ fs ++ es, (c.createPage p).next q = c.next q ∧
      (c.createPage p).prev q = c.prev q := fun q hq =>
    ⟨Function.update_of_ne (hne q hq) _ _, Function.update_of_ne (hne q hq) _ _⟩
  simp only [List.mem_append] at hcount hlink
  refine ⟨h.split, h.partials.congr rfl fun q hq => hlink q (.inl (.inl hq)),
    h.fulls.congr rfl fun q hq => hlink q (.inl (.inr hq)),
    h.empties.congr rfl fun q hq => hlink q (.inr hq), h.apart,
    fun q hq => ?_, fun q hq => ?_, fun q hq => ?_, h.count,
      fun q hq => createPage_other (hp q hq) (h.free q hq)⟩
  · rw [(hcount q (.inl (.inl hq))).1]
    exact h.left q hq
  · rw [(hcount q (.inl (.inr hq))).1]
    exact h.spent q hq
  · rw [(hcount q (.inr hq)).1, (hcount q (.inr hq)).2]
    exact h.whole q hq

/-- A page that is on no list goes on the partial list. -/
theorem Lists.linkPartial (h : Lists c pages ps fs es) (h0 : p ≠ 0) (hp : ∀ q ∈ pages, Apart p q)
    (hf : FreeOk c p) (hc : 0 < c.freeCount p) :
    Lists (c.linkPartial p) (p :: pages) (p :: ps) fs es := by
  have hno : p ∉ ps ++ fs ++ es := fun hm => (hp p (h.split.mem_iff.mp hm)).ne rfl
  simp only [List.mem_append, not_or] at hno
  obtain ⟨⟨hps, hfs⟩, hes⟩ := hno
  have hdis : ∀ q, q ∈ fs ∨ q ∈ es → q ∉ ps := by
    have hn := h.nodup
    rw [List.append_assoc] at hn
    exact fun q hq hm => List.disjoint_of_nodup_append hn hm (List.mem_append.mpr hq)
  have hlink : ∀ q, q ∈ fs ∨ q ∈ es →
      (c.partials.push p).next q = c.next q ∧ (c.partials.push p).prev q = c.prev q := by
    intro q hq
    have hqp : q ≠ p := by
      rintro rfl
      exact hq.elim hfs hes
    exact ⟨DL.push_next hqp, h.partials.push_prev hqp (hdis q hq)⟩
  refine ⟨h.split.cons p, h.partials.push h0 hps, h.fulls.congr rfl fun q hq => hlink q (.inl hq),
    h.empties.congr rfl fun q hq => hlink q (.inr hq), List.pairwise_cons.mpr ⟨hp, h.apart⟩,
    fun q hq => ?_, h.spent, h.whole, h.count, fun q hq => ?_⟩
  · rcases List.mem_cons.mp hq with rfl | hq
    · exact hc
    · exact h.left q hq
  · rcases List.mem_cons.mp hq with rfl | hq
    · exact hf
    · exact h.free q hq

/-- The first empty page goes on the partial list. -/
theorem Lists.reuseEmpty (h : Lists c pages ps fs (p :: es)) :
    c.emptyPages = p ∧ Lists c.reuseEmpty pages (p :: ps) fs es := by
  have hhead : c.emptyPages = p := h.empties.chain.1
  subst hhead
  have hn := h.nodup
  have hn' : ((c.emptyPages :: es) ++ ps).Nodup :=
    List.perm_append_comm.nodup_iff.mp
      (hn.sublist (List.Sublist.append_right (List.sublist_append_left ps fs) _))
  have hfs : ∀ q ∈ fs, q ∉ c.emptyPages :: es ++ ps := by
    intro q hq hm
    rcases List.mem_append.mp hm with hm | hm
    · exact List.disjoint_of_nodup_append hn (List.mem_append_right ps hq) hm
    · exact List.disjoint_of_nodup_append (List.nodup_append.mp hn).1 hm hq
  obtain ⟨he, hp, hframe⟩ := DL.Is.move (h := c.partialPages) h.empties h.partials hn' rfl
  refine ⟨rfl, ?_, hp, h.fulls.congr rfl fun q hq => hframe q (hfs q hq), he, h.apart,
    fun q hq => ?_, h.spent,
    fun q hq => h.whole q (List.mem_cons_of_mem _ hq), ?_, h.free⟩
  · refine List.Perm.trans ?_ h.split
    rw [List.cons_append]
    exact List.perm_middle.symm
  · rcases List.mem_cons.mp hq with rfl | hq
    · exact (h.whole _ List.mem_cons_self).2
    · exact h.left q hq
  · show c.emptyPageCount - 1 = es.length
    rw [h.count, List.length_cons, Nat.add_sub_cancel]

/-! ## A slot is taken -/

/-- The free slots of some pages. -/
def freeSlots (c : SlabClass) (pages : List Nat) : Nat := (pages.map c.freeCount).sum

theorem freeSlots_popSlot (hn : pages.Nodup) (hp : p ∈ pages) (h0 : 0 < c.freeCount p) :
    freeSlots (c.popSlot p) pages + 1 = freeSlots c pages := by
  have hself : (c.popSlot p).freeCount p = c.freeCount p - 1 := by
    show Function.update _ p _ p = _
    rw [Function.update_self, if_neg (by omega)]
  have hother : ∀ q, q ≠ p → (c.popSlot p).freeCount q = c.freeCount q := fun q hq =>
    Function.update_of_ne hq _ _
  unfold freeSlots
  induction pages with
  | nil => exact absurd hp List.not_mem_nil
  | cons q pages ih =>
    obtain ⟨hq, hn⟩ := List.nodup_cons.mp hn
    rw [List.map_cons, List.map_cons, List.sum_cons, List.sum_cons]
    rcases List.mem_cons.mp hp with rfl | hp
    · have hsame : pages.map (c.popSlot p).freeCount = pages.map c.freeCount :=
        List.map_congr_left fun r hr => hother r (ne_of_mem_of_not_mem hr hq)
      rw [hself, hsame]
      omega
    · have := ih hn hp
      rw [hother q (ne_of_mem_of_not_mem hp hq).symm]
      omega

/-- A page with a free slot gives one that is not 0, and the free lists stay sound when the slot is
linked elsewhere. -/
theorem Lists.popSlot (h : Lists c pages ps fs es) (hp : p ∈ pages) (h0 : 0 < c.freeCount p) :
    c.freeList p ≠ 0 ∧ ∀ v, ∀ q ∈ pages,
      FreeOk { c.popSlot p with slotNext := Function.update c.slotNext (c.freeList p) v } q := by
  obtain ⟨l, hch, hlen, hin⟩ := h.free p hp
  cases l with
  | nil => exact absurd hlen.symm (by rw [List.length_nil]; omega)
  | cons a l =>
    have hnd := hch.nodup
    obtain ⟨rfl, ha0, hl⟩ := hch
    refine ⟨ha0, fun v q hq => ?_⟩
    obtain ⟨hal, -⟩ := List.nodup_cons.mp hnd
    by_cases hqp : q = p
    · subst hqp
      refine ⟨l, ?_, ?_, fun b hb => hin b (List.mem_cons_of_mem _ hb)⟩
      · show Chain _ (Function.update c.freeList q (c.slotNext (c.freeList q)) q) l
        rw [Function.update_self]
        exact hl.update hal
      · show l.length = Function.update c.freeCount q _ q
        rw [Function.update_self, if_neg (by omega), ← hlen, List.length_cons, Nat.add_sub_cancel]
    · have hap : Apart p q := h.apart.forall hp hq (Ne.symm hqp)
      refine (h.free q hq).congr (Function.update_of_ne hqp _ _) (Function.update_of_ne hqp _ _)
        fun b h1 h2 => ?_
      refine Function.update_of_ne (fun e => ?_) _ _
      have ha := hin _ List.mem_cons_self
      unfold Apart at hap
      omega

/-- The first partial page gives a slot, and goes on the full list with its last one. -/
theorem Lists.take (h : Lists c pages (p :: ps) fs es) :
    ∃ c' ps' fs', c.takeSlot p = some (c', c.freeList p) ∧ c.freeList p ≠ 0 ∧
      (∀ v, Lists { c' with slotNext := Function.update c'.slotNext (c.freeList p) v } pages
        ps' fs' es) ∧
      (ps' = ps ∨ ps' = p :: ps) ∧ Relinked (c.popSlot p) c' := by
  have hp : p ∈ pages := h.split.mem_iff.mp (by simp)
  have h0 := h.left p List.mem_cons_self
  obtain ⟨hne, hfree⟩ := h.popSlot hp h0
  have hn := h.nodup
  have hself : (c.popSlot p).freeCount p = c.freeCount p - 1 := by
    show Function.update _ p _ p = _
    rw [Function.update_self, if_neg (by omega)]
  have hother : ∀ q, q ≠ p → (c.popSlot p).freeCount q = c.freeCount q :=
    fun q hq => Function.update_of_ne hq _ _
  have hnot : ∀ q, q ∈ ps ∨ q ∈ fs ∨ q ∈ es → q ≠ p := by
    rintro q hq rfl
    rw [List.cons_append, List.cons_append, List.nodup_cons, List.mem_append, List.mem_append] at hn
    exact hn.1 (or_assoc.mpr hq)
  unfold SlabClass.takeSlot
  rw [if_neg hne, hself]
  by_cases h1 : c.freeCount p - 1 = 0
  · -- its last slot
    rw [if_pos h1]
    refine ⟨_, ps, p :: fs, rfl, hne, fun v => ?_, .inl rfl, ⟨rfl, rfl, rfl, rfl, rfl, rfl⟩⟩
    have hn' : (p :: ps ++ fs).Nodup := (List.nodup_append.mp hn).1
    have hes : ∀ q ∈ es, q ∉ p :: ps ++ fs := fun q hq hm => List.disjoint_of_nodup_append hn hm hq
    obtain ⟨hps, hfs, hframe⟩ := DL.Is.move (h := c.fullPages) h.partials h.fulls hn' rfl
    refine ⟨?_, hps, hfs, h.empties.congr rfl fun q hq => hframe q (hes q hq), h.apart,
      fun q hq => ?_,
      fun q hq => ?_, fun q hq => ?_, h.count, hfree v⟩
    · exact (List.Perm.append_right es List.perm_middle).trans h.split
    · exact (hother q (hnot q (.inl hq))).symm ▸ h.left q (List.mem_cons_of_mem _ hq)
    · rcases List.mem_cons.mp hq with rfl | hq
      · exact hself.trans h1
      · exact (hother q (hnot q (.inr (.inl hq)))).trans (h.spent q hq)
    · show (c.popSlot p).freeCount q = c.totalSlots q ∧ 0 < (c.popSlot p).freeCount q
      rw [hother q (hnot q (.inr (.inr hq)))]
      exact h.whole q hq
  · rw [if_neg h1]
    refine ⟨_, p :: ps, fs, rfl, hne,
      fun v => ⟨h.split, h.partials, h.fulls, h.empties, h.apart, fun q hq => ?_,
      fun q hq => ?_, fun q hq => ?_, h.count, hfree v⟩, .inr rfl, ⟨rfl, rfl, rfl, rfl, rfl, rfl⟩⟩
    · show 0 < (c.popSlot p).freeCount q
      rcases List.mem_cons.mp hq with rfl | hq
      · omega
      · rw [hother q (hnot q (.inl hq))]
        exact h.left q (List.mem_cons_of_mem _ hq)
    · exact (hother q (hnot q (.inr (.inl hq)))).trans (h.spent q hq)
    · show (c.popSlot p).freeCount q = c.totalSlots q ∧ 0 < (c.popSlot p).freeCount q
      rw [hother q (hnot q (.inr (.inr hq)))]
      exact h.whole q hq

/-- On sound lists a slot less is free behind it, and they stay sound. -/
theorem Lists.takeSlot (h : Lists c pages (p :: ps) fs es)
    (hs : ∀ q ∈ ps, c.freeCount q < c.totalSlots q) (hle : c.freeCount p ≤ c.totalSlots p) :
    ∃ c', c.takeSlot p = some (c', c.freeList p) ∧ c.freeList p ≠ 0 ∧
      (∀ v, PagesOk { c' with slotNext := Function.update c'.slotNext (c.freeList p) v } pages) ∧
      freeSlots c' pages + 1 = freeSlots c pages ∧ c'.carved = c.carved := by
  have hp : p ∈ pages := h.split.mem_iff.mp (by simp)
  have h0 := h.left p List.mem_cons_self
  have hpops : ∀ q ∈ ps, (c.popSlot p).freeCount q = c.freeCount q := fun q hq =>
    Function.update_of_ne (ne_of_mem_of_not_mem hq (List.nodup_cons.mp
      ((List.nodup_append.mp (List.nodup_append.mp h.nodup).1).1)).1) _ _
  have hself : (c.popSlot p).freeCount p = c.freeCount p - 1 := by
    show Function.update _ p _ p = _
    rw [Function.update_self, if_neg (by omega)]
  obtain ⟨c', ps', fs', htake, hne, hlists, hps, hframe⟩ := h.take
  have hcount := hframe.freeCount
  have htotal := hframe.totalSlots
  refine ⟨c', htake, hne, fun v => ⟨ps', fs', es, hlists v, fun q hq => ?_⟩, ?_, ?_⟩
  · show c'.freeCount q < c'.totalSlots q
    rw [hcount, htotal]
    show (c.popSlot p).freeCount q < c.totalSlots q
    have hq' : q ∈ p :: ps := by
      rcases hps with rfl | rfl
      · exact List.mem_cons_of_mem _ hq
      · exact hq
    rcases List.mem_cons.mp hq' with rfl | hq'
    · omega
    · rw [hpops q hq']
      exact hs q hq'
  · have hsum : freeSlots c' pages = freeSlots (c.popSlot p) pages := by
      rw [freeSlots, hcount, freeSlots]
    rw [hsum]
    exact freeSlots_popSlot (h.apart.imp Apart.ne) hp h0
  · exact hframe.carved

theorem Lists.freeSlots_eq_zero (h : Lists c pages ps fs es) :
    freeSlots c pages = 0 ↔ c.partialPages = 0 ∧ c.emptyPages = 0 := by
  have hp : c.partialPages = 0 ↔ ps = [] := h.partials.head_eq_zero_iff
  have he : c.emptyPages = 0 ↔ es = [] := h.empties.head_eq_zero_iff
  have hsum : freeSlots c pages = freeSlots c (ps ++ fs ++ es) :=
    (h.split.map c.freeCount).sum_eq.symm
  rw [hp, he, hsum, freeSlots, List.sum_eq_zero_iff_forall_eq_nat]
  constructor
  · intro h0
    refine ⟨List.eq_nil_iff_forall_not_mem.mpr fun q hq => ?_,
      List.eq_nil_iff_forall_not_mem.mpr fun q hq => ?_⟩
    · have :=
        h0 _
          (List.mem_map_of_mem (f := c.freeCount)
            (List.mem_append_left es (List.mem_append_left fs hq)))
      have := h.left q hq
      omega
    · have := h0 _ (List.mem_map_of_mem (f := c.freeCount) (List.mem_append_right (ps ++ fs) hq))
      have := (h.whole q hq).2
      omega
  · rintro ⟨rfl, rfl⟩ n hn
    obtain ⟨q, hq, rfl⟩ := List.mem_map.mp hn
    simp only [List.nil_append, List.append_nil] at hq
    exact h.spent q hq

end Lists

/-! ## The drain -/

section Drain
variable {answers : Nat → Option Nat} {pages : List Nat} {x x' : Refill} {p n : Nat}

/-- What holds between the turns: the lists are sound, and the pages made are those the system
has given. -/
structure Ready (answers : Nat → Option Nat) (pages : List Nat) (x : Refill) : Prop where
  ok : PagesOk x.cls (x.made ++ pages)
  made : ∀ p ∈ x.made, ∃ i < x.asked, answers i = some p

/-- No page has a free slot, and the system gives none. -/
def Stuck (answers : Nat → Option Nat) (x : Refill) : Prop :=
  x.cls.partialPages = 0 ∧ x.cls.emptyPages = 0 ∧ answers x.asked = none

theorem Ready.fresh (h : Ready answers pages x) (hf : Fresh answers pages)
    (hp : answers x.asked = some p) : p ≠ 0 ∧ ∀ q ∈ x.made ++ pages, Apart p q := by
  obtain ⟨h0, hold, hnew⟩ := hf _ p hp
  refine ⟨h0, fun q hq => ?_⟩
  rcases List.mem_append.mp hq with hq | hq
  · obtain ⟨i, hi, hiq⟩ := h.made q hq
    exact hnew i q hiq (by omega)
  · exact hold q hq

/-- The page of a turn is the first partial one, and has a slot. -/
theorem Ready.drainPage (h : Ready answers pages x) (hf : Fresh answers pages)
    (hns : ¬Stuck answers x) (hg : 0 < x.cls.carved ∨ 0 < freeSlots x.cls (x.made ++ pages)) :
    ∃ x' p ps fs es, x.drainPage answers = (x', p) ∧ p ≠ 0 ∧
    Lists x'.cls (x'.made ++ pages) (p :: ps) fs es ∧
      (∀ q ∈ ps, x'.cls.freeCount q < x'.cls.totalSlots q) ∧
      x'.cls.freeCount p ≤ x'.cls.totalSlots p ∧ x'.cache = x.cache ∧ x'.cls.carved = x.cls.carved ∧
      (∀ p ∈ x'.made, ∃ i < x'.asked, answers i = some p) ∧
      (x'.asked = x.asked ∧
        freeSlots x'.cls (x'.made ++ pages) = freeSlots x.cls (x.made ++ pages) ∨
        0 < x.cls.carved) := by
  obtain ⟨ps, fs, es, hl, hs⟩ := h.ok
  unfold Refill.drainPage
  by_cases hp : x.cls.partialPages = 0
  · have hps : ps = [] := hl.partials.head_eq_zero_iff.mp hp
    subst hps
    rw [if_neg (not_not_intro hp)]
    by_cases he : x.cls.emptyPages = 0
    · -- a page is made
      have hes : es = [] := hl.empties.head_eq_zero_iff.mp he
      subst hes
      rw [if_neg (not_not_intro he)]
      have hcarved : 0 < x.cls.carved := hg.resolve_right fun h0 => by
        have := hl.freeSlots_eq_zero.mpr ⟨hp, he⟩
        omega
      cases ha : answers x.asked with
      | none => exact absurd ⟨hp, he, ha⟩ hns
      | some p =>
        obtain ⟨h0, hap⟩ := h.fresh hf ha
        have hself : (x.cls.createPage p).freeCount p = x.cls.carved := Function.update_self ..
        have htotal : (x.cls.createPage p).totalSlots p = x.cls.carved := Function.update_self ..
        have hcreate : x.createPage answers =
            ({ x with cls := x.cls.createPage p, asked := x.asked + 1, made := p :: x.made },
              p) := by
          rw [Refill.createPage, ha]
        rw [hcreate]
        dsimp only
        rw [if_neg h0]
        refine ⟨_, p, [], fs, [], rfl, h0,
          (hl.createPage hap).linkPartial h0 hap (createPage_free hcarved) ?_, nofun, ?_, rfl, rfl,
          fun q hq => ?_, .inr hcarved⟩
        · rw [hself]
          exact hcarved
        · exact Nat.le_of_eq (hself.trans htotal.symm)
        · rcases List.mem_cons.mp hq with rfl | hq
          · exact ⟨x.asked, Nat.lt_succ_self _, ha⟩
          · obtain ⟨i, hi, hiq⟩ := h.made q hq
            exact ⟨i, Nat.lt_succ_of_lt hi, hiq⟩
    · -- an empty page is used again
      rw [if_pos he]
      obtain ⟨es', rfl, -⟩ := hl.empties.chain.exists_cons he
      obtain ⟨-, hl'⟩ := hl.reuseEmpty
      exact ⟨_, x.cls.emptyPages, [], fs, es', rfl, he, hl', nofun,
        Nat.le_of_eq (hl.whole _ List.mem_cons_self).1, rfl, rfl, h.made, .inl ⟨rfl, rfl⟩⟩
  · rw [if_pos hp]
    obtain ⟨ps', rfl, -⟩ := hl.partials.chain.exists_cons hp
    exact ⟨x, x.cls.partialPages, ps', fs, es, rfl, hp, hl,
      fun q hq => hs q (List.mem_cons_of_mem _ hq), Nat.le_of_lt (hs _ List.mem_cons_self), rfl,
        rfl, h.made, .inl ⟨rfl, rfl⟩⟩

/-- One turn. -/
theorem Ready.turn (h : Ready answers pages x) (hf : Fresh answers pages) (hns : ¬Stuck answers x)
    (hg : 0 < x.cls.carved ∨ 0 < freeSlots x.cls (x.made ++ pages)) (n : Nat) :
    ∃ x', tlsCacheDrainSlots answers (n + 1) x = tlsCacheDrainSlots answers n x' ∧
    Ready answers pages x' ∧
      0 < x'.cache.count ∧ x'.cache.slots ≠ 0 ∧ x'.cls.carved = x.cls.carved ∧
      (x'.asked = x.asked ∧
        freeSlots x'.cls (x'.made ++ pages) + 1 = freeSlots x.cls (x.made ++ pages) ∨
        0 < x.cls.carved) := by
  obtain ⟨x', p, ps, fs, es, hd, hp, hl, hs, hle, hcache, hcarved, hmade, hslots⟩ :=
    h.drainPage hf hns hg
  obtain ⟨c, htake, hslot, hok, hsum, hc⟩ := hl.takeSlot hs hle
  refine ⟨x'.cacheSlot c (x'.cls.freeList p), ?_, ⟨hok _, hmade⟩, Nat.succ_pos _, hslot,
    hc.trans hcarved, ?_⟩
  · rw [tlsCacheDrainSlots, hd]
    dsimp only
    rw [if_neg hp, htake]
  · refine hslots.imp_left fun h => ⟨h.1, ?_⟩
    rw [← h.2]
    exact hsum

/-- A turn that is stuck is the last one. -/
theorem drain_stuck (h : Stuck answers x) :
    tlsCacheDrainSlots answers (n + 1) x = some { x with asked := x.asked + 1 } := by
  obtain ⟨hp, he, ha⟩ := h
  rw [tlsCacheDrainSlots, Refill.drainPage, if_neg (not_not_intro hp), if_neg (not_not_intro he),
    Refill.createPage, ha]
  rfl

theorem Ready.has_slot (h : Ready answers pages x) (hns : ¬Stuck answers x)
    (ha : answers x.asked = none) : 0 < freeSlots x.cls (x.made ++ pages) := by
  obtain ⟨ps, fs, es, hl, -⟩ := h.ok
  refine Nat.pos_of_ne_zero fun h0 => hns ?_
  obtain ⟨hp, he⟩ := hl.freeSlots_eq_zero.mp h0
  exact ⟨hp, he, ha⟩

/-- A drain that is not stuck at once fills the cache and keeps the lists sound, when it makes no
page that has no slots. -/
theorem drain_ok (hf : Fresh answers pages) (h : Ready answers pages x) (hns : ¬Stuck answers x)
    (hg : 0 < x.cls.carved ∨ n + 1 ≤ freeSlots x.cls (x.made ++ pages) ∨ answers x.asked = none) :
    ∃ x', tlsCacheDrainSlots answers (n + 1) x = some x' ∧ Ready answers pages x' ∧
    0 < x'.cache.count ∧
      x'.cache.slots ≠ 0 := by
  have hfirst : 0 < x.cls.carved ∨ 0 < freeSlots x.cls (x.made ++ pages) :=
    hg.imp_right fun h' => h'.elim (fun hle => by omega) (h.has_slot hns)
  induction n generalizing x with
  | zero =>
    obtain ⟨x', he, hr, h1, h2, -⟩ := h.turn hf hns hfirst 0
    exact ⟨x', he, hr, h1, h2⟩
  | succ n ih =>
    obtain ⟨x', he, hr, h1, h2, hc, hslots⟩ := h.turn hf hns hfirst (n + 1)
    rw [he]
    by_cases hns' : Stuck answers x'
    · rw [drain_stuck hns']
      exact ⟨_, rfl,
        ⟨hr.ok, fun p hp => (hr.made p hp).imp fun i hi => ⟨Nat.lt_succ_of_lt hi.1, hi.2⟩⟩, h1, h2⟩
    · have hg' : 0 < x'.cls.carved ∨ n + 1 ≤ freeSlots x'.cls (x'.made ++ pages) ∨
        answers x'.asked = none := by
        rw [hc]
        rcases hslots with ⟨hask, hsum⟩ | hpos
        · rw [hask]
          exact hg.imp_right (Or.imp_left fun h => by omega)
        · exact .inl hpos
      exact ih hr hns' hg'
        (hg'.imp_right fun h' => h'.elim (fun hle => by omega) (hr.has_slot hns'))

/-- A page without slots is on the lists with 65535 free ones. -/
def Broken (pages : List Nat) (c : SlabClass) : Prop :=
  ∃ p ∈ pages, c.freeList p = 0 ∧ c.freeCount p ≠ 0

theorem Broken.not_ok {c : SlabClass} (h : Broken pages c) : ¬PagesOk c pages := by
  rintro ⟨ps, fs, es, hl, -⟩
  obtain ⟨p, hp, h0, hc⟩ := h
  obtain ⟨l, hch, hlen, -⟩ := hl.free p hp
  rw [h0] at hch
  rw [hch.eq_nil_of_zero] at hlen
  exact hc hlen.symm

/-- A partial page without a free slot is read through a null pointer. -/
theorem drain_null (hp : x.cls.partialPages = p) (h0 : p ≠ 0) (hl : x.cls.freeList p = 0) :
    tlsCacheDrainSlots answers (n + 1) x = none := by
  have hd : x.drainPage answers = (x, p) := by
    rw [Refill.drainPage, hp, if_pos h0]
  have ht : x.cls.takeSlot p = none := if_pos hl
  rw [tlsCacheDrainSlots, hd]
  dsimp only
  rw [if_neg h0, ht]

/-- A drain that makes a page without slots reads a null pointer, or ends with such a page. -/
theorem drain_bad (hf : Fresh answers pages) (h : Ready answers pages x) (h0 : x.cls.carved = 0)
    (hlt : freeSlots x.cls (x.made ++ pages) < n) (ha : answers x.asked = some p) :
    ∀ x', tlsCacheDrainSlots answers n x = some x' →
      Broken (x'.made ++ pages) x'.cls ∧ 0 < x'.cache.count ∧ x'.cache.slots ≠ 0 := by
  induction n generalizing x with
  | zero => omega
  | succ n ih =>
    have hns : ¬Stuck answers x := fun hs => by
      rw [hs.2.2] at ha
      cases ha
    by_cases hfree : freeSlots x.cls (x.made ++ pages) = 0
    · -- the page is made in this turn
      obtain ⟨ps, fs, es, hl, -⟩ := h.ok
      obtain ⟨hp, he⟩ := hl.freeSlots_eq_zero.mp hfree
      obtain ⟨hp0, -⟩ := h.fresh hf ha
      have hcreate : x.createPage answers =
          ({ x with cls := x.cls.createPage p, asked := x.asked + 1, made := p :: x.made }, p) := by
        rw [Refill.createPage, ha]
      generalize hc : (x.cls.createPage p).linkPartial p = c
      have hfirst : c.partialPages = p := by
        rw [← hc]
        show ((x.cls.createPage p).partials.push p).head = p
        unfold DL.push
        split <;> rfl
      have hlist : c.freeList p = p + 72 := by
        rw [← hc]
        exact Function.update_self ..
      have hcount : c.freeCount p = 0 := by
        rw [← hc, ← h0]
        exact Function.update_self ..
      have hzero : (c.popSlot p).freeList p = 0 := by
        show Function.update c.freeList p (c.slotNext (c.freeList p)) p = 0
        rw [Function.update_self, hlist, ← hc]
        exact createPage_empty h0
      obtain ⟨htake, hne⟩ := takeSlot_stays (c := c) (p := p) (by omega) (by omega)
      have hturn : tlsCacheDrainSlots answers (n + 1) x = tlsCacheDrainSlots answers n
          (({ x with cls := c, asked := x.asked + 1, made := p :: x.made } : Refill).cacheSlot
            (c.popSlot p) (p + 72)) := by
        rw [tlsCacheDrainSlots, Refill.drainPage, if_neg (not_not_intro hp),
          if_neg (not_not_intro he), hcreate]
        dsimp only
        rw [if_neg hp0]
        dsimp only
        rw [if_neg hp0, hc, htake, hlist]
      rw [hturn]
      intro x' hx
      cases n with
      | zero =>
        obtain rfl := Option.some.inj hx
        exact ⟨⟨p, List.mem_append_left _ List.mem_cons_self, hzero, hne⟩, Nat.succ_pos _,
          Nat.succ_ne_zero _⟩
      | succ n =>
        rw [drain_null hfirst hp0 hzero] at hx
        cases hx
    · obtain ⟨x', he, hr, -, -, hc, hslots⟩ := h.turn hf hns (.inr (Nat.pos_of_ne_zero hfree)) n
      rw [he]
      obtain ⟨hask, hsum⟩ := hslots.resolve_right (by omega)
      exact ih hr (hc.trans h0) (by omega) (hask ▸ ha)

/-! ## The call -/

variable {c : SlabClass} {t : ThreadCache}

/-- A page made on the full list of a class without other pages to take from: one with one slot
goes there at once. -/
theorem takeSlot_new (hp : c.partialPages = 0) (h1 : c.carved = 1) :
    (c.createPage p).takeSlot p = ((c.createPage p).linkPartial p).takeSlot p := by
  have hlink : (c.createPage p).linkPartial p = { c.createPage p with partialPages := p } := by
    unfold SlabClass.linkPartial DL.push
    have hhead : (c.createPage p).partials.head = 0 := hp
    simp only [hhead, ne_eq, not_true_eq_false, if_false]
    refine congrArg₂
      (fun n m => { c.createPage p with next := n, prev := m, partialPages := p }) ?_ ?_
    · exact Function.update_idem ..
    · exact Function.update_idem ..
  have hone : (c.createPage p).freeCount p = 1 := (Function.update_self ..).trans h1
  rw [hlink]
  unfold SlabClass.takeSlot
  have hcount : ∀ d : SlabClass, d.freeCount p = 1 → (d.popSlot p).freeCount p = 0 := fun d hd => by
    show Function.update d.freeCount p _ p = 0
    rw [Function.update_self, hd]
    rfl
  rw [if_pos (hcount _ hone), if_pos (hcount { c.createPage p with partialPages := p } hone)]
  rfl

/-- The third phase, when no page has a free slot: a page that is made is not on a list, unless its
one slot is taken. -/
theorem direct_iff (h : PagesOk c pages) (hf : Fresh answers pages) (hp : c.partialPages = 0)
    (he : c.emptyPages = 0) : RefillSound c pages (Refill.direct answers ⟨c, t, 1, []⟩) ↔
    answers 1 = none ∨ c.carved = 1 := by
  have hpage :
    Refill.directPage answers ⟨c, t, 1, []⟩ = Refill.createPage answers ⟨c, t, 1, []⟩ := by
    rw [Refill.directPage, if_neg (not_not_intro hp), if_neg (not_not_intro he)]
  unfold Refill.direct
  rw [hpage]
  cases ha : answers 1 with
  | none =>
    have hcreate : Refill.createPage answers ⟨c, t, 1, []⟩ = (⟨c, t, 2, []⟩, 0) := by
      rw [Refill.createPage, ha]
    rw [hcreate]
    exact iff_of_true ⟨h, fun _ => ⟨rfl, rfl⟩⟩ (.inl rfl)
  | some p =>
    obtain ⟨hp0, hap, -⟩ := hf 1 p ha
    have hcreate : Refill.createPage answers ⟨c, t, 1, []⟩ = (⟨c.createPage p, t, 2, [p]⟩, p) := by
      rw [Refill.createPage, ha]
    rw [hcreate]
    dsimp only
    rw [if_neg hp0, or_iff_right (by nofun)]
    have hlist : (c.createPage p).freeList p = p + 72 := Function.update_self ..
    have hcount : (c.createPage p).freeCount p = c.carved := Function.update_self ..
    have htotal : (c.createPage p).totalSlots p = c.carved := Function.update_self ..
    by_cases h1 : c.carved = 1
    · obtain ⟨ps, fs, es, hl, -⟩ := h
      obtain rfl : ps = [] := hl.partials.head_eq_zero_iff.mp hp
      obtain ⟨c', htake, hslot, hok, -⟩ := ((hl.createPage hap).linkPartial hp0 hap
        (createPage_free (by omega)) (by omega)).takeSlot nofun
          (Nat.le_of_eq (hcount.trans htotal.symm))
      rw [takeSlot_new hp h1, htake]
      refine iff_of_true ⟨?_, fun h0 => absurd h0 hslot⟩ h1
      have hsame := hok (c'.slotNext (((c.createPage p).linkPartial p).freeList p))
      rw [Function.update_eq_self] at hsame
      exact hsame
    · obtain ⟨htake, hne⟩ := takeSlot_stays (c := c.createPage p) (p := p) (by omega) (by omega)
      rw [htake]
      refine iff_of_false ?_ h1
      -- the page would have to be on the full list
      rintro ⟨⟨ps, fs, es, hl, -⟩, -⟩
      have hps : ps = [] := hl.partials.head_eq_zero_iff.mp hp
      have hes : es = [] := hl.empties.head_eq_zero_iff.mp he
      have hmem : p ∈ ps ++ fs ++ es := hl.split.mem_iff.mpr List.mem_cons_self
      rw [hps, hes, List.nil_append, List.append_nil] at hmem
      exact hne (hl.spent p hmem)

/-- **A refill keeps the page lists sound** unless it makes a page without slots, or makes a page
that has another slot after it could not make one. -/
theorem refill_sound_iff (h : PagesOk c pages) (hf : Fresh answers pages)
    (ht : t.count ≠ 0 → t.slots ≠ 0) :
    RefillSound c pages (slabAllocWithTlsRefill answers ⟨c, t, 0, []⟩) ↔
      ¬((c.carved = 0 ∧ freeSlots c pages < 64 ∧ answers 0 ≠ none) ∨
        (c.carved ≠ 1 ∧ t.count = 0 ∧ c.partialPages = 0 ∧ c.emptyPages = 0 ∧ answers 0 = none ∧
          answers 1 ≠ none)) := by
  have hready : Ready answers pages ⟨c, t, 0, []⟩ := ⟨h, nofun⟩
  unfold slabAllocWithTlsRefill
  by_cases hs : Stuck answers ⟨c, t, 0, []⟩
  · obtain ⟨hp, he, ha⟩ := hs
    dsimp only at hp he ha
    rw [drain_stuck ⟨hp, he, ha⟩]
    dsimp only
    by_cases hc : t.count = 0
    · rw [hc, if_neg (Nat.lt_irrefl 0), direct_iff h hf hp he, ha, hp, he]
      by_cases h1 : c.carved = 1 <;> by_cases h2 : answers 1 = none <;> simp [h1, h2]
    · rw [if_pos (Nat.pos_of_ne_zero hc), if_neg (ht hc)]
      refine iff_of_true ⟨h, fun h0 => absurd h0 (ht hc)⟩ ?_
      rintro (⟨-, -, h0⟩ | ⟨-, h0, -⟩)
      · exact h0 ha
      · exact hc h0
  · have hright :
        ¬(c.carved ≠ 1 ∧ t.count = 0 ∧ c.partialPages = 0 ∧ c.emptyPages = 0 ∧ answers 0 = none ∧
          answers 1 ≠ none) := fun ⟨_, _, hp, he, ha, _⟩ => hs ⟨hp, he, ha⟩
    rw [or_iff_left hright]
    by_cases hb : c.carved = 0 ∧ freeSlots c pages < 64 ∧ answers 0 ≠ none
    · obtain ⟨p, hp⟩ := Option.ne_none_iff_exists'.mp hb.2.2
      have hbad := drain_bad (n := 64) hf hready hb.1 hb.2.1 hp
      refine iff_of_false ?_ (not_not_intro hb)
      cases hd : tlsCacheDrainSlots answers 64 ⟨c, t, 0, []⟩ with
      | none => exact id
      | some x' =>
        obtain ⟨hbroken, h1, h2⟩ := hbad x' hd
        dsimp only
        rw [if_pos h1, if_neg h2]
        exact fun hsound => hbroken.not_ok hsound.1
    · have hg : 0 < c.carved ∨ 63 + 1 ≤ freeSlots c pages ∨ answers 0 = none := by
        by_cases h0 : c.carved = 0
        · by_cases ha : answers 0 = none
          · exact .inr (.inr ha)
          · exact .inr (.inl (Nat.le_of_not_lt fun hlt => hb ⟨h0, hlt, ha⟩))
        · exact .inl (Nat.pos_of_ne_zero h0)
      obtain ⟨x', hd, hr, h1, h2⟩ := drain_ok hf hready hs hg
      rw [hd]
      dsimp only
      rw [if_pos h1, if_neg h2]
      exact iff_of_true ⟨hr.ok, fun h0 => absurd h0 h2⟩ hb

/-- A class of 64 bytes without pages. -/
def newClass : SlabClass :=
  ⟨64, false, 0, 0, 0, 0, fun _ => 0, fun _ => 0, fun _ => 0, fun _ => 0, fun _ => 0, fun _ => 0⟩

theorem newClass_ok : PagesOk newClass [] :=
  ⟨[], [], [],
    ⟨.refl _, DL.is_nil_iff.mpr rfl, DL.is_nil_iff.mpr rfl, DL.is_nil_iff.mpr rfl, .nil, nofun,
      nofun, nofun, rfl, nofun⟩, nofun⟩

/-- The system always gives the next page. -/
def giving (i : Nat) : Option Nat := some (65536 * (i + 1))

theorem refill_sound_giving :
    RefillSound newClass [] (slabAllocWithTlsRefill giving ⟨newClass, ⟨0, 0⟩, 0, []⟩) := by
  have hf : Fresh giving [] := by
    intro i p hp
    obtain rfl := Option.some.inj hp
    refine ⟨by omega, nofun, fun j q hq hne => ?_⟩
    obtain rfl := Option.some.inj hq
    unfold Apart
    omega
  have hiff := refill_sound_iff (t := ⟨0, 0⟩) newClass_ok hf fun h => absurd rfl h
  rw [hiff]
  rintro (⟨h0, -⟩ | ⟨-, -, -, -, h0, -⟩)
  · exact absurd h0 (by decide +kernel)
  · cases h0

/-- The system has no page for the drain, and one right afterwards. -/
def easing : Nat → Option Nat
  | 1 => some 65536
  | _ => none

/-- The page that is made at the second try is on no list. -/
theorem eased_refill_leaks :
    PagesOk newClass [] ∧ Fresh easing [] ∧
      ¬RefillSound newClass [] (slabAllocWithTlsRefill easing ⟨newClass, ⟨0, 0⟩, 0, []⟩) := by
  have hone : ∀ {i p}, easing i = some p → i = 1 ∧ p = 65536 := by
    intro i p hp
    unfold easing at hp
    split at hp
    · exact ⟨rfl, (Option.some.inj hp).symm⟩
    · cases hp
  have hf : Fresh easing [] := by
    intro i p hp
    obtain ⟨rfl, rfl⟩ := hone hp
    exact ⟨by decide, nofun, fun j q hq hne => absurd (hone hq).1.symm hne⟩
  have hcarved : newClass.carved ≠ 1 := by decide +kernel
  refine ⟨newClass_ok, hf, fun h => ?_⟩
  rw [slabAllocWithTlsRefill, drain_stuck ⟨rfl, rfl, rfl⟩] at h
  dsimp only at h
  rw [if_neg (Nat.lt_irrefl 0)] at h
  exact ((direct_iff newClass_ok hf rfl rfl).mp h).elim nofun hcarved

end Drain

end Cmem.L2.Slab

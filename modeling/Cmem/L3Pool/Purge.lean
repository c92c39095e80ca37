import Cmem.L3Pool.Enumerate

/-!
# Purging and trimming

`mp_purge_lazy` (src/src/cmem_sys.c:788-841) gives the memory of a free page back to the system and
keeps the page. The links of its free list are in that memory. `mp_trim`
(src/src/cmem_sys.c:902-925) compacts and purges a pool, and then the pools under it.

Results:
* `purge_exact`: the slots that are out and the other pages are kept. A purged page gives the slots
  up to the first link that is gone, and then a null pointer is read: its count is still that of
  all its slots. The pool is sound just when all of them are left.
* `purge_breaks`: with slots small next to a page of the system, that is when nothing is purged.
* `trim_exact`: `mp_trim` compacts each pool once, and its purges find nothing.
-/
namespace Cmem.L3.Compact
open Cmem.L2.Slab

/-! ## The code -/

/-- From `aligned_start` to `aligned_end`, src/src/cmem_sys.c:814-817. -/
def Discarded (pageSz p a : Nat) : Prop :=
  (p + 72 + pageSz - 1) / pageSz * pageSz ≤ a ∧ a < (p + 65536) / pageSz * pageSz

instance (pageSz p a : Nat) : Decidable (Discarded pageSz p a) :=
  inferInstanceAs (Decidable (_ ∧ _))

/-- `purge_sz` of a page, 0 when it is not purged. -/
def purgeSz (pageSz : Nat) (c : SlabClass) (p : Nat) : Nat :=
  if c.freeCount p = c.totalSlots p then
    (p + 65536) / pageSz * pageSz - (p + 72 + pageSz - 1) / pageSz * pageSz
  else 0

namespace Pool

def purgedClasses (pageSz n : Nat) : List Nat → Pool → Nat → Option Nat
  | [], _, bytes => some bytes
  | i :: is, s, bytes =>
    match visited (s.cls i).next n (s.cls i).partialPages with
    | none => none
    | some l =>
      purgedClasses pageSz n is s (l.foldl (fun b p => b + purgeSz pageSz (s.cls i) p) bytes)

/-- `purged_bytes` of `mp_purge_lazy`, src/src/cmem_sys.c:788-841 -/
def purgedBytes (pageSz n : Nat) (s : Pool) : Option Nat :=
  if s.isStatic then some 0 else s.purgedClasses pageSz n classes 0

end Pool

/-- So many slots are taken from a page, one after the other; `none` when a null pointer is read. -/
def takes (page : Nat) : Nat → SlabClass → Option SlabClass
  | 0, c => some c
  | k + 1, c =>
    match c.takeSlot page with
    | none => none
    | some (c, _) => takes page k c

/-- A pool and its children, from `first_child` on. -/
inductive Tree where
  | node (pool : Pool) (children : List Tree)

section Trim
variable (due : Nat → Bool) (pageSz n : Nat)

mutual

/-- mirrors `mp_trim`, src/src/cmem_sys.c:902-925 -/
def mpTrim : Tree → Option (Tree × Nat)
  | .node s children => do
    let (s, freed) ← s.mpCompact due n
    let purged ← s.purgedBytes pageSz n
    let s ← s.mpPurgeLazy pageSz n
    let (children, reclaimed) ← trimChildren children
    return (.node s children, freed + purged + reclaimed)

/-- The loop over the children, src/src/cmem_sys.c:914-921. -/
def trimChildren : List Tree → Option (List Tree × Nat)
  | [] => some ([], 0)
  | t :: ts => do
    let (t, freed) ← mpTrim t
    let (ts, reclaimed) ← trimChildren ts
    return (t :: ts, freed + reclaimed)

end

end Trim

/-! ## What is gone -/

/-- The slots of a free list that are left: it ends with the first link that is gone. -/
def remaining (pageSz p : Nat) (l : List Nat) : List Nat :=
  l.take (l.findIdx (fun a => Discarded pageSz p a) + 1)

/-- The slots that are out, the lists and the counts are kept, and the free lists of the pages that
are not purged; a page that is purged gives the slots that are left, and no more. -/
structure Purged (pageSz : Nat) (s s' : Pool) : Prop where
  used : ∀ i ∈ classes, ∀ a, a ∈ s.live i ∨ a ∈ s.waiting i →
    (s'.cls i).slotNext a = (s.cls i).slotNext a
  lists :
    ∀ i ∈ classes, (s'.cls i).partials = (s.cls i).partials ∧ (s'.cls i).fulls = (s.cls i).fulls ∧
    (s'.cls i).empties = (s.cls i).empties ∧ (s'.cls i).freeCount = (s.cls i).freeCount
  others : ∀ i ∈ classes, ∀ p ∈ s.pages i, ¬(On (s.cls i).partials p ∧ AllFree (s.cls i) p) →
    Keeps (s.cls i) (s'.cls i) p
  serves : ∀ i ∈ classes, ∀ p, On (s.cls i).partials p → AllFree (s.cls i) p →
    ∀ l, Chain (s.cls i).slotNext ((s.cls i).freeList p) l →
      ∀ k ≤ l.length, (takes p k (s'.cls i)).isSome ↔ k ≤ (remaining pageSz p l).length

/-- No free page has a link that is gone, but its last one. -/
def Spares (pageSz : Nat) (s : Pool) : Prop :=
  ∀ i ∈ classes, ∀ p, On (s.cls i).partials p → AllFree (s.cls i) p →
    ∀ l, Chain (s.cls i).slotNext ((s.cls i).freeList p) l → remaining pageSz p l = l

section Cut
variable {c c' : SlabClass} {pages ps fs es out l : List Nat} {pageSz p a k : Nat}
  {P Q : Nat → Bool}

theorem Discarded.bounds (h : Discarded pageSz p a) (h0 : 0 < pageSz) :
    p + 72 ≤ a ∧ a < p + 65536 := by
  obtain ⟨hlo, hhi⟩ := h
  have hup : p + 72 + pageSz - 1 < (p + 72 + pageSz - 1) / pageSz * pageSz + pageSz :=
    Nat.lt_div_mul_add h0
  have hdown : (p + 65536) / pageSz * pageSz ≤ p + 65536 := Nat.div_mul_le_self ..
  omega

/-- The links that are gone in a class whose partial pages are `ps`. -/
def gone (pageSz : Nat) (c : SlabClass) (ps : List Nat) (a : Nat) : Bool :=
  ps.any fun p => c.freeCount p = c.totalSlots p ∧ Discarded pageSz p a

theorem purgeClass_eq (pageSz : Nat) (c : SlabClass) (ps : List Nat) :
    Pool.purgeClass pageSz c ps =
      { c with slotNext := fun a => if gone pageSz c ps a then 0 else c.slotNext a } := rfl

/-- The links that are gone are in pages with all their slots. -/
theorem gone_iff (h : Sound c pages ps fs es out) (h0 : 0 < pageSz) :
    gone pageSz c ps a = true ↔ pageBase a ∈ whole c ps ∧ Discarded pageSz (pageBase a) a := by
  rw [gone, List.any_eq_true, mem_whole]
  constructor
  · rintro ⟨q, hq, hd⟩
    obtain ⟨hfull, hd⟩ := of_decide_eq_true hd
    have hb := hd.bounds h0
    have hqp : q ∈ pages :=
      h.lists.split.mem_iff.mp (List.mem_append_left _ (List.mem_append_left _ hq))
    rw [pageBase_eq (h.slots.aligned q hqp) (by omega) hb.2]
    exact ⟨⟨hq, hfull⟩, hd⟩
  · rintro ⟨⟨hq, hfull⟩, hd⟩
    exact ⟨_, hq, decide_eq_true ⟨hfull, hd⟩⟩

theorem take_findIdx_congr (h : ∀ a ∈ l, P a = Q a) :
    l.take (l.findIdx P + 1) = l.take (l.findIdx Q + 1) := by
  rw [Nat.le_antisymm (List.findIdx_le_findIdx (l := l) fun a ha hq => (h a ha).trans hq)
    (List.findIdx_le_findIdx fun a ha hp => (h a ha).symm.trans hp)]

theorem take_findIdx_none (h : ∀ a ∈ l, P a = false) : l.take (l.findIdx P + 1) = l := by
  rw [List.findIdx_eq_length_of_false h]
  exact List.take_of_length_le (Nat.le_succ _)

/-- The free list of a page after the purge. -/
theorem cut_of_page (h : Sound c pages ps fs es out) (h0 : 0 < pageSz) (hp : p ∈ pages)
    (hc : Chain c.slotNext (c.freeList p) l) :
    l.take (l.findIdx (gone pageSz c ps) + 1) =
      if p ∈ whole c ps then remaining pageSz p l else l := by
  obtain ⟨l', hch, -, hin⟩ := h.slots.freeOk hp
  obtain rfl := hc.unique hch
  have hbase : ∀ a ∈ l, pageBase a = p :=
    fun a ha => pageBase_eq (h.slots.aligned p hp) (hin a ha).1 (hin a ha).2
  split
  · rename_i hw
    refine take_findIdx_congr fun a ha => Bool.eq_iff_iff.mpr ?_
    rw [gone_iff h h0, decide_eq_true_iff, hbase a ha, and_iff_right hw]
  · rename_i hw
    refine take_findIdx_none fun a ha => Bool.eq_false_iff.mpr fun hg => hw ?_
    exact hbase a ha ▸ ((gone_iff h h0).mp hg).1

/-- A class stays sound when no free list is cut. -/
theorem cleared_sound (h : Sound c pages ps fs es out)
    (hP : ∀ p ∈ pages, ∀ l, Chain c.slotNext (c.freeList p) l → l.take (l.findIdx P + 1) = l) :
    Sound { c with slotNext := fun a => if P a then 0 else c.slotNext a } pages ps fs es out := by
  have hs : Slots { c with slotNext := fun a => if P a then 0 else c.slotNext a } pages out :=
    ⟨h.slots.fits, h.slots.carved, h.slots.aligned, fun p hp => by
      obtain ⟨l, hch, hlen, hperm⟩ := h.slots.split p hp
      have hcut := hch.cut P
      rw [hP p hp l hch] at hcut
      exact ⟨l, hcut, hlen, hperm⟩, h.slots.out⟩
  exact ⟨⟨h.lists.split, h.lists.partials, h.lists.fulls, h.lists.empties, h.lists.apart,
    h.lists.left, h.lists.spent, h.lists.whole, h.lists.count, fun p hp => hs.freeOk hp⟩, hs⟩

/-- When it is sound, no free list has been cut. -/
theorem uncut_of_sound (h : Sound c pages ps fs es out) {ps' fs' es' out' : List Nat}
    (h' : Sound { c with slotNext := fun a => if P a then 0 else c.slotNext a } pages ps' fs' es'
    out') (hp : p ∈ pages)
    (hc : Chain c.slotNext (c.freeList p) l) : l.take (l.findIdx P + 1) = l := by
  obtain ⟨l₁, hch₁, hlen₁, -⟩ := h.slots.freeOk hp
  obtain ⟨l₂, hch₂, hlen₂, -⟩ := h'.slots.freeOk hp
  obtain rfl := hc.unique hch₁
  obtain rfl := (hc.cut P).unique hch₂
  have hle := hlen₁.trans hlen₂.symm
  rw [List.length_take] at hle
  exact List.take_of_length_le (by omega)

/-- A page gives the slots of its free list, when its count has them. -/
theorem takes_isSome (hc : Chain c.slotNext (c.freeList p) l) (hk : k ≤ c.freeCount p) :
    (takes p k c).isSome ↔ k ≤ l.length := by
  induction k generalizing c l with
  | zero => exact ⟨fun _ => Nat.zero_le _, fun _ => rfl⟩
  | succ k ih =>
    cases l with
    | nil =>
      have h0 : c.freeList p = 0 := hc
      rw [takes, SlabClass.takeSlot, if_pos h0]
      exact ⟨fun h => absurd h Bool.false_ne_true, fun h => absurd h (Nat.not_succ_le_zero k)⟩
    | cons a l =>
      obtain ⟨he, h0, hl⟩ := hc
      have hcount : (c.popSlot p).freeCount p = c.freeCount p - 1 :=
        (Function.update_self ..).trans (if_neg (by omega))
      have hlist : (c.popSlot p).freeList p = c.slotNext a :=
        (Function.update_self ..).trans (congrArg _ he)
      rw [takes, SlabClass.takeSlot, if_neg (he ▸ h0), List.length_cons, Nat.succ_le_succ_iff]
      dsimp only
      split
      · exact ih (c := (c.popSlot p).retire p) (hlist ▸ hl) (by
          show k ≤ (c.popSlot p).freeCount p
          omega)
      · exact ih (hlist ▸ hl) (by omega)

end Cut

/-! ## A purge of the pool -/

section Purge
variable {s s' : Pool} {psOf fsOf esOf outOf : Nat → List Nat} {is l : List Nat}
  {pageSz n i p : Nat}

theorem Known.visited (h : Known s n psOf fsOf esOf outOf i) :
    visited (s.cls i).next n (s.cls i).partialPages = some (psOf i) := by
  have hlen := h.sound.lists.split.length_eq
  have := h.turns
  rw [List.length_append, List.length_append] at hlen
  exact visited_eq h.sound.lists.partials.chain (by omega)

theorem purgeClasses_spec (pageSz : Nat) (hnd : is.Nodup)
    (h : ∀ i ∈ is, Known s n psOf fsOf esOf outOf i) : ∃ s', s.purgeClasses pageSz n is = some s' ∧
      (∀ i ∈ is, s'.cls i = Pool.purgeClass pageSz (s.cls i) (psOf i)) ∧
      (∀ j, j ∉ is → s'.cls j = s.cls j) ∧ s' = { s with cls := s'.cls } := by
  induction is generalizing s with
  | nil => exact ⟨s, rfl, nofun, fun _ _ => rfl, rfl⟩
  | cons i is ih =>
    obtain ⟨hi, hnd⟩ := List.nodup_cons.mp hnd
    have hsame :
      ∀ j, j ≠ i → (s.setClass i (Pool.purgeClass pageSz (s.cls i) (psOf i))).cls j = s.cls j :=
      fun j hj => Function.update_of_ne hj _ _
    obtain ⟨s', hres, hdone, hother, hframe⟩ :=
      ih (s := s.setClass i (Pool.purgeClass pageSz (s.cls i) (psOf i))) hnd fun j hj => by
        obtain ⟨hs, ht⟩ := h j (List.mem_cons_of_mem _ hj)
        exact ⟨(hsame j (ne_of_mem_of_not_mem hj hi)).symm ▸ hs, ht⟩
    refine ⟨s', ?_, fun j hj => ?_, fun j hj => ?_, hframe⟩
    · rw [Pool.purgeClasses, (h i List.mem_cons_self).visited]
      exact hres
    · rcases List.mem_cons.mp hj with rfl | hj
      · exact (hother j hi).trans (Function.update_self ..)
      · rw [hdone j hj, hsame j (ne_of_mem_of_not_mem hj hi)]
    · rw [List.mem_cons, not_or] at hj
      rw [hother j hj.2, hsame j hj.1]

/-- A page with all its slots that is on the partial list. -/
theorem mem_whole_iff (h : Known s n psOf fsOf esOf outOf i) :
    p ∈ whole (s.cls i) (psOf i) ↔ On (s.cls i).partials p ∧ AllFree (s.cls i) p := by
  rw [mem_whole, on_iff h.sound.lists.partials]
  refine and_congr_right fun hp => (h.sound.slots.allFree_iff ?_).symm
  exact h.sound.lists.split.mem_iff.mp (List.mem_append_left _ (List.mem_append_left _ hp))

/-- What a purge does, and the classes it leaves. -/
theorem Ok.purge (h : Ok s) (hst : s.isStatic = false) (h0 : 0 < pageSz) (hn : s.turns ≤ n) :
    ∃ s', s.mpPurgeLazy pageSz n = some s' ∧ Purged pageSz s s' ∧ (Ok s' ↔ Spares pageSz s) := by
  obtain ⟨ps, fs, es, hknown⟩ := h.lists
  have hk := fun i hi => hknown i hi n hn
  obtain ⟨s', hres, hdone, -, hframe⟩ := purgeClasses_spec pageSz (by decide) hk
  have hcls : ∀ i ∈ classes, s'.cls i =
      { s.cls i with
        slotNext := fun a => if gone pageSz (s.cls i) (ps i) a then 0 else (s.cls i).slotNext a } :=
    fun i hi => (hdone i hi).trans (purgeClass_eq ..)
  have hcut :
      ∀ i ∈ classes, ∀ p ∈ s.pages i, ∀ l, Chain (s.cls i).slotNext ((s.cls i).freeList p) l →
      Chain (s'.cls i).slotNext ((s'.cls i).freeList p)
        (if p ∈ whole (s.cls i) (ps i) then remaining pageSz p l else l) := fun i hi p hp l hc => by
    rw [hcls i hi, ← cut_of_page (hk i hi).sound h0 hp hc]
    exact hc.cut _
  have hpage : ∀ i ∈ classes, ∀ p, p ∈ whole (s.cls i) (ps i) → p ∈ s.pages i := fun i hi p hp =>
    (hk i hi).sound.lists.split.mem_iff.mp
      (List.mem_append_left _ (List.mem_append_left _ (mem_whole.mp hp).1))
  refine ⟨s', by rw [Pool.mpPurgeLazy, hst]; exact hres,
    ⟨fun i hi a ha => ?_, fun i hi => ?_, fun i hi p hp hnot => ?_,
    fun i hi p hon hall l hc k hkl => ?_⟩, fun h' i hi p hon hall l hc => ?_,
      fun hsp => ⟨fun i hi => ?_, ?_⟩⟩
  · rw [hcls i hi]
    refine if_neg fun hg => ?_
    have hw := ((gone_iff (hk i hi).sound h0).mp hg).1
    exact (hk i hi).sound.slots.none_out (hpage i hi _ hw) (mem_whole.mp hw).2
      (List.mem_append.mpr ha) rfl
  · rw [hcls i hi]
    exact ⟨rfl, rfl, rfl, rfl⟩
  · obtain ⟨l₀, hc₀, -⟩ := (hk i hi).sound.slots.freeOk hp
    have hc₀' := hcut i hi p hp l₀ hc₀
    rw [if_neg ((mem_whole_iff (hk i hi)).not.mpr hnot)] at hc₀'
    have hsame := hcls i hi
    refine ⟨by rw [hsame]; rfl, by rw [hsame]; rfl, by rw [hsame]; rfl,
      fun l => ⟨fun hc => ?_, fun hc => ?_⟩, by rw [hsame]⟩
    · exact hc₀.unique hc ▸ hc₀'
    · exact hc₀'.unique hc ▸ hc₀
  · have hw := (mem_whole_iff (hk i hi)).mpr ⟨hon, hall⟩
    have hc' := hcut i hi p (hpage i hi p hw) l hc
    rw [if_pos hw] at hc'
    refine takes_isSome hc' ?_
    obtain ⟨l', hch, hlen, -⟩ := (hk i hi).sound.slots.freeOk (hpage i hi p hw)
    rw [hcls i hi, ← hlen, ← hc.unique hch]
    exact hkl
  · have hw := (mem_whole_iff (hk i hi)).mpr ⟨hon, hall⟩
    obtain ⟨ps', fs', es', hs'⟩ := h'.sound i hi
    rw [hcls i hi, hframe] at hs'
    have hun := uncut_of_sound (hk i hi).sound hs' (hpage i hi p hw) hc
    rwa [cut_of_page (hk i hi).sound h0 (hpage i hi p hw) hc, if_pos hw] at hun
  · refine ⟨ps i, fs i, es i, ?_⟩
    rw [hcls i hi, hframe]
    refine cleared_sound (hk i hi).sound fun p hp l hc => ?_
    rw [cut_of_page (hk i hi).sound h0 hp hc]
    split
    · rename_i hw
      obtain ⟨hon, hall⟩ := (mem_whole_iff (hk i hi)).mp hw
      exact hsp i hi p hon hall l hc
    · rfl
  · rw [hframe]
    exact h.static

/-- With slots small next to a page of the system, two links are gone. -/
theorem remaining_short {c : SlabClass} {pages ps fs es out : List Nat}
    (h : Sound c pages ps fs es out) (hp : p ∈ pages) (hl : l.Perm (c.slotsOf p))
    (hdvd : pageSz ∣ 65536) (hsize : 3 * c.slotTotal + pageSz + 72 ≤ 65536) :
    remaining pageSz p l ≠ l := by
  intro he
  have h0 : 0 < pageSz := Nat.pos_of_dvd_of_pos hdvd (by decide)
  have hs := slotTotal_pos h.slots.fits
  have hal := h.slots.aligned p hp
  have htotal := h.slots.carved p hp
  have hup : 65464 < 65464 / c.slotTotal * c.slotTotal + c.slotTotal := Nat.lt_div_mul_add hs
  have hthree : 3 ≤ 65464 / c.slotTotal := (Nat.le_div_iff_mul_le hs).mpr (by omega)
  have hcarved : c.carved = 65464 / c.slotTotal :=
    Nat.mod_eq_of_lt ((Nat.div_le_self ..).trans_lt (by decide))
  obtain ⟨m, hm⟩ : ∃ m, c.carved = m + 2 := ⟨c.carved - 2, by omega⟩
  rw [← hcarved, hm, Nat.add_mul] at hup
  -- the last two slots
  have hgone : ∀ j, m ≤ j → j < m + 2 →
      p + 72 + j * c.slotTotal ∈ l ∧ Discarded pageSz p (p + 72 + j * c.slotTotal) := by
    intro j h1 h2
    have hmem : p + 72 + j * c.slotTotal ∈ c.slotsOf p :=
      List.mem_map.mpr ⟨j, List.mem_range.mpr (by omega), rfl⟩
    have hin := mem_slotsOf htotal hmem
    have hmul : m * c.slotTotal ≤ j * c.slotTotal := Nat.mul_le_mul_right _ h1
    have hdown : (p + 72 + pageSz - 1) / pageSz * pageSz ≤ p + 72 + pageSz - 1 :=
      Nat.div_mul_le_self ..
    have hend : (p + 65536) / pageSz * pageSz = p + 65536 :=
      Nat.div_mul_cancel (Nat.dvd_add (hdvd.trans (Nat.dvd_of_mod_eq_zero hal)) hdvd)
    exact ⟨hl.mem_iff.mpr hmem, by omega, by omega⟩
  -- a link that is gone is the last one
  have hlast : ∀ a ∈ l, Discarded pageSz p a → l.getLast? = some a := by
    intro a ha hd
    obtain ⟨k, hk, rfl⟩ := List.mem_iff_getElem.mp ha
    have hlen := (List.take_eq_self_iff l).mp he
    have hle : l.findIdx (fun a => Discarded pageSz p a) ≤ k := by
      by_contra hlt
      exact absurd (decide_eq_true hd)
        (Bool.eq_false_iff.mp (List.not_of_lt_findIdx (Nat.lt_of_not_le hlt)))
    rw [List.getLast?_eq_getElem?, show l.length - 1 = k by omega, List.getElem?_eq_getElem hk]
  have h1 := hgone m (by omega) (by omega)
  have h2 := hgone (m + 1) (by omega) (by omega)
  have heq := Option.some.inj ((hlast _ h1.1 h1.2).symm.trans (hlast _ h2.1 h2.2))
  rw [Nat.add_mul] at heq
  omega

end Purge

/-! ## Trimming -/

mutual

/-- The pools of a tree. -/
def Tree.pools : Tree → List Pool
  | .node s ts => s :: poolsOf ts

def poolsOf : List Tree → List Pool
  | [] => []
  | t :: ts => t.pools ++ poolsOf ts

end

mutual

/-- A change of each pool. -/
def Tree.map (f : Pool → Pool) : Tree → Tree
  | .node s ts => .node (f s) (mapAll f ts)

def mapAll (f : Pool → Pool) : List Tree → List Tree
  | [] => []
  | t :: ts => t.map f :: mapAll f ts

end

section Trims
variable {s : Pool} {is : List Nat} {pageSz n : Nat} {due : Nat → Bool}

/-- What `mp_freeable` says of a list of pools. -/
def freeable (n : Nat) (ss : List Pool) : Nat := (ss.map fun s => (s.mpFreeable n).getD 0).sum

/-- The pages a scan visits, none of which has all its slots. -/
def Spent (s : Pool) (n i : Nat) : Prop :=
  ∃ l, visited (s.cls i).next n (s.cls i).partialPages = some l ∧
    ∀ p ∈ l, (s.cls i).freeCount p ≠ (s.cls i).totalSlots p

theorem purgeClasses_spent (h : ∀ i ∈ is, Spent s n i) : s.purgeClasses pageSz n is = some s := by
  induction is with
  | nil => rfl
  | cons i is ih =>
    obtain ⟨l, hv, hl⟩ := h i List.mem_cons_self
    have hgone : ∀ a, gone pageSz (s.cls i) l a = false := fun a =>
      List.any_eq_false.mpr fun p hp hd => hl p hp (of_decide_eq_true hd).1
    have hsame : Pool.purgeClass pageSz (s.cls i) l = s.cls i := by
      rw [purgeClass_eq]
      simp only [hgone]
      rfl
    have hset : s.setClass i (s.cls i) = s := by
      rw [Pool.setClass, Function.update_eq_self]
    rw [Pool.purgeClasses, hv]
    dsimp only
    rw [hsame, hset]
    exact ih fun j hj => h j (List.mem_cons_of_mem _ hj)

theorem purgedClasses_spent (h : ∀ i ∈ is, Spent s n i) (bytes : Nat) :
    s.purgedClasses pageSz n is bytes = some bytes := by
  induction is generalizing bytes with
  | nil => rfl
  | cons i is ih =>
    obtain ⟨l, hv, hl⟩ := h i List.mem_cons_self
    have hfold : ∀ b, l.foldl (fun b p => b + purgeSz pageSz (s.cls i) p) b = b := by
      clear hv
      induction l with
      | nil => exact fun _ => rfl
      | cons p l ihl =>
        intro b
        rw [List.foldl_cons, purgeSz, if_neg (hl p List.mem_cons_self)]
        exact ihl (fun q hq => hl q (List.mem_cons_of_mem _ hq)) b
    rw [Pool.purgedClasses, hv]
    dsimp only
    rw [hfold]
    exact ih (fun j hj => h j (List.mem_cons_of_mem _ hj)) bytes

/-- After a compaction a purge finds nothing. -/
theorem Thinned.spent {s' : Pool} {psOf fsOf esOf outOf : Nat → List Nat} {i : Nat}
    (hk : Known s n psOf fsOf esOf outOf i)
    (ht : Thinned (s.cls i) (s.pages i) (psOf i) (fsOf i) (esOf i) (outOf i) (s'.cls i)
    (s'.pages i)) :
    Spent s' n i := by
  obtain ⟨keep, hs, hr, hkeep, -⟩ := ht
  have hnd : keep.Nodup := (List.nodup_append.mp (List.nodup_append.mp hs.lists.nodup).1).1
  have hsub : keep.length ≤ (psOf i).length :=
    hnd.length_le_of_subset fun p hp => ((hkeep p).mp hp).1
  have hlen := hk.sound.lists.split.length_eq
  have := hk.turns
  rw [List.length_append, List.length_append] at hlen
  refine ⟨keep, visited_eq hs.lists.partials.chain (by omega), fun p hp => ?_⟩
  rw [hr.freeCount, hr.totalSlots]
  exact ((hkeep p).mp hp).2

/-- A pool without its children. -/
theorem Ok.trim (h : Ok s) (hidle : s.idleReclaim = false) (hn : s.turns ≤ n) (pageSz : Nat)
    (due : Nat → Bool) :
    s.mpCompact due n = some (s.next (.compact due n), (s.mpFreeable n).getD 0) ∧
      (s.next (.compact due n)).purgedBytes pageSz n = some 0 ∧
      (s.next (.compact due n)).mpPurgeLazy pageSz n = some (s.next (.compact due n)) := by
  obtain ⟨ps, fs, es, out, hknown⟩ := h.known
  have hk : ∀ i ∈ classes, Known s n ps fs es out i := fun i hi => hknown i hi n hn
  obtain ⟨s', hres, hthin⟩ := h.compact hidle hk due
  have hnext : s.next (.compact due n) = s' := by
    show ((s.mpCompact due n).map Prod.fst).getD s = s'
    rw [hres]
    rfl
  have hspent : ∀ i ∈ classes, Spent s' n i := fun i hi => (hthin i hi).spent (hk i hi)
  rw [hnext]
  refine ⟨?_, ?_, ?_⟩
  · rw [hres, Pool.mpFreeable, freeableClasses_eq hk, Nat.zero_add]
    rfl
  · unfold Pool.purgedBytes
    split
    · rfl
    · exact purgedClasses_spent hspent 0
  · unfold Pool.mpPurgeLazy
    split
    · rfl
    · exact purgeClasses_spent hspent

/-- A pool that a trim may go through. -/
structure Quieted (n : Nat) (s : Pool) : Prop where
  ok : Ok s
  idle : s.idleReclaim = false
  turns : s.turns ≤ n

mutual

theorem mpTrim_eq : ∀ t : Tree, (∀ s ∈ t.pools, Quieted n s) →
    mpTrim due pageSz n t = some (t.map (·.next (.compact due n)), freeable n t.pools)
  | .node s ts, h => by
    have hs := h s (by rw [Tree.pools]; exact List.mem_cons_self)
    obtain ⟨h1, h2, h3⟩ := hs.ok.trim hs.idle hs.turns pageSz due
    have hts :=
      trimChildren_eq ts fun q hq => h q (by rw [Tree.pools]; exact List.mem_cons_of_mem _ hq)
    rw [mpTrim, h1]
    show ((s.next (.compact due n)).purgedBytes pageSz n).bind _ = _
    rw [h2]
    show ((s.next (.compact due n)).mpPurgeLazy pageSz n).bind _ = _
    rw [h3]
    show (trimChildren due pageSz n ts).bind _ = _
    rw [hts]
    rfl

theorem trimChildren_eq : ∀ ts : List Tree, (∀ s ∈ poolsOf ts, Quieted n s) →
    trimChildren due pageSz n ts =
      some (mapAll (·.next (.compact due n)) ts, freeable n (poolsOf ts))
  | [], _ => rfl
  | t :: ts, h => by
    have ht := mpTrim_eq t fun q hq => h q (by rw [poolsOf]; exact List.mem_append_left _ hq)
    have hts :=
      trimChildren_eq ts fun q hq => h q (by rw [poolsOf]; exact List.mem_append_right _ hq)
    rw [trimChildren, ht]
    show (trimChildren due pageSz n ts).bind _ = _
    rw [hts, poolsOf, freeable, freeable, freeable, List.map_append, List.sum_append]
    rfl

end

end Trims

/-! ## The results -/

section Results
variable {s : Pool} {pageSz n : Nat}

/-- **A purge** of a sound pool keeps what is out, the lists, the counts and the pages it does not
purge; each page it purges gives as many slots as are left and no more, and the pool is sound
afterwards just when all of them are. -/
theorem purge_exact (hr : (system.guard Quiet).Reachable s) (hst : s.isStatic = false)
    (h0 : 0 < pageSz) (hn : s.turns ≤ n) :
    ∃ s', s.mpPurgeLazy pageSz n = some s' ∧ Purged pageSz s s' ∧ (Ok s' ↔ Spares pageSz s) :=
  (inductive_ok.reachable hr).purge hst h0 hn

/-- **A purge breaks the pages it purges**: their counts are still those of all their slots, and as
many cannot be taken. -/
theorem purge_breaks (hr : (system.guard Quiet).Reachable s) (hst : s.isStatic = false)
    (hdvd : pageSz ∣ 65536) (hsize : ∀ i ∈ classes, 3 * (s.cls i).slotTotal + pageSz + 72 ≤ 65536)
    (hn : s.turns ≤ n) : ∃ s', s.mpPurgeLazy pageSz n = some s' ∧
      (∀ i ∈ classes, ∀ p, On (s.cls i).partials p → AllFree (s.cls i) p →
        takes p ((s'.cls i).freeCount p) (s'.cls i) = none) ∧
      (Ok s' ↔ ∀ i ∈ classes, ∀ p, On (s.cls i).partials p → ¬AllFree (s.cls i) p) := by
  have h := inductive_ok.reachable hr
  obtain ⟨s', hres, hp, hok⟩ := h.purge hst (Nat.pos_of_dvd_of_pos hdvd (by decide)) hn
  have hshort : ∀ i ∈ classes, ∀ p, On (s.cls i).partials p → AllFree (s.cls i) p →
      ∃ l, Chain (s.cls i).slotNext ((s.cls i).freeList p) l ∧ l.length = (s.cls i).freeCount p ∧
        remaining pageSz p l ≠ l := fun i hi p hon hall => by
    obtain ⟨ps, fs, es, hs⟩ := h.sound i hi
    have hpage : p ∈ s.pages i := hs.lists.split.mem_iff.mp
      (List.mem_append_left _ (List.mem_append_left _ ((on_iff hs.lists.partials).mp hon)))
    obtain ⟨l, hc, hl⟩ := hall
    obtain ⟨l', hc', hlen, -⟩ := hs.slots.freeOk hpage
    exact ⟨l, hc, hc.unique hc' ▸ hlen, remaining_short hs hpage hl hdvd (hsize i hi)⟩
  refine ⟨s', hres, fun i hi p hon hall => ?_, hok.trans
    ⟨fun hsp i hi p hon hall => ?_, fun hnone i hi p hon hall => ?_⟩⟩
  · obtain ⟨l, hc, hlen, hne⟩ := hshort i hi p hon hall
    rw [(hp.lists i hi).2.2.2, ← hlen]
    refine Option.not_isSome_iff_eq_none.mp fun hsome => hne (List.take_of_length_le ?_)
    have hle := (hp.serves i hi p hon hall l hc l.length (Nat.le_refl _)).mp hsome
    rw [remaining, List.length_take] at hle
    omega
  · obtain ⟨l, hc, -, hne⟩ := hshort i hi p hon hall
    exact hne (hsp i hi p hon hall l hc)
  · exact absurd hall (hnone i hi p hon)

/-- **A trim** compacts each pool of the tree, once, and returns what was freeable in them; no page
is purged. -/
theorem trim_exact {t : Tree} (due : Nat → Bool) (pageSz : Nat)
    (h : ∀ s ∈ t.pools, (system.guard Quiet).Reachable s ∧ s.idleReclaim = false ∧ s.turns ≤ n) :
    mpTrim due pageSz n t =
      some (t.map (·.next (.compact due n)), (t.pools.map fun s => (s.mpFreeable n).getD 0).sum) :=
  mpTrim_eq t fun s hs => ⟨inductive_ok.reachable (h s hs).1, (h s hs).2.1, (h s hs).2.2⟩

end Results

/-! ### Runs -/

instance decChain (next : Nat → Nat) : (h : Nat) → (l : List Nat) → Decidable (Chain next h l)
  | h, [] => inferInstanceAs (Decidable (h = 0))
  | h, a :: l =>
    have := decChain next (next a) l
    inferInstanceAs (Decidable (h = a ∧ a ≠ 0 ∧ _))

/-- The slots of the page of `resetRun`, which is on the partial list with all of them. -/
theorem reset_page :
    let s := resetRun.foldl Pool.next newPool
    Chain (s.cls 11).slotNext ((s.cls 11).freeList 65536) ((s.cls 11).slotsOf 65536) ∧
      On (s.cls 11).partials 65536 := by
  intro s
  refine ⟨by decide +kernel, [65536], ⟨65536, ?_⟩, List.mem_cons_self⟩
  exact ⟨by decide +kernel, by decide, by decide +kernel, by decide +kernel, rfl⟩

/-- After a purge the page of `resetRun` has 8 of its 98 slots. -/
theorem purge_exact_reset :
    let s := resetRun.foldl Pool.next newPool
    ∃ s', s.mpPurgeLazy 4096 1 = some s' ∧ (takes 65536 8 (s'.cls 11)).isSome ∧
    ¬(takes 65536 9 (s'.cls 11)).isSome ∧
      ¬Ok s' := by
  intro s
  obtain ⟨s', hres, hp, hok⟩ :=
    purge_exact (s := s) (n := 1) (newPool_reachable.run (by decide +kernel))
    (by decide +kernel) (by decide : 0 < 4096) (by decide +kernel)
  obtain ⟨hc, hon⟩ := reset_page
  have hall : AllFree (s.cls 11) 65536 := ⟨_, hc, .refl _⟩
  have hserves := hp.serves 11 (by decide) 65536 hon hall _ hc
  refine ⟨s', hres, (hserves 8 (by decide +kernel)).mpr (by decide +kernel),
    fun h => absurd ((hserves 9 (by decide +kernel)).mp h) (by decide +kernel), fun h => ?_⟩
  exact absurd (hok.mp h 11 (by decide) 65536 hon hall _ hc) (by decide +kernel)

theorem purge_breaks_reset :
    let s := resetRun.foldl Pool.next newPool
    ∃ s', s.mpPurgeLazy 4096 1 = some s' ∧
    takes 65536 ((s'.cls 11).freeCount 65536) (s'.cls 11) = none := by
  intro s
  obtain ⟨s', hres, hnone, -⟩ :=
    purge_breaks (s := s) (n := 1) (newPool_reachable.run (by decide +kernel))
    (by decide +kernel) (by decide : 4096 ∣ 65536) (by decide +kernel) (by decide +kernel)
  obtain ⟨hc, hon⟩ := reset_page
  exact ⟨s', hres, hnone 11 (by decide) 65536 hon ⟨_, hc, .refl _⟩⟩

/-- The parked page of the second pool is not given back. -/
theorem trim_exact_two :
    (mpTrim (fun _ => false) 4096 1
      (.node (resetRun.foldl Pool.next newPool) [.node (parkRun.foldl Pool.next newPool) []])).map
        Prod.snd =
      some 65536 := by
  rw [trim_exact (n := 1)]
  · decide +kernel
  · intro s hs
    rcases List.mem_cons.mp hs with rfl | hs
    · exact ⟨newPool_reachable.run (by decide +kernel), by decide +kernel, by decide +kernel⟩
    · rcases List.mem_cons.mp hs with rfl | hs
      · exact ⟨newPool_reachable.run (by decide +kernel), by decide +kernel, by decide +kernel⟩
      · exact absurd hs List.not_mem_nil

end Cmem.L3.Compact

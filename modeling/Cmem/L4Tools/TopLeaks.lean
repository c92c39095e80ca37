import Mathlib
import Cmem.L1Layout.Snapshot

/-!
# The largest leaks of a snapshot

`cmem_analyze_top_leaks`, `cmem_analyze_free_leaks` and the strings of
`cmem_analyze_read_leaks` (src/tools/cmem-analyze/cmem-analyze-parser.c:30-46 and 103-220), on a
heap of allocated objects. An object is a string or an array of entries; an entry has pointers
to its strings. A pointer is freed only while its object is allocated.

The entries that are returned are copies, and the strings are freed with the array they are
copied from. `top_leaks_owned_iff` says when the caller does not notice: when no entry that is
returned has a string.
-/
namespace Cmem.L4.TopLeaks
open Cmem.L1.Snapshot

/-! ## The heap -/

/-- A `cmem_leak_entry_t` in memory: `file` and `func` are pointers, 0 for NULL. -/
structure Slot where
  address : Nat
  size : Nat
  usableSize : Nat
  tier : Nat
  file : Nat
  line : Nat
  func : Nat
  timestamp : Nat
  backtraceDepth : Nat

inductive Cell where
  | text (s : List UInt8)
  | entries (l : List Slot)

/-- The objects that are allocated; those from `next` on are not. -/
structure Heap where
  next : Nat
  cells : Nat → Option Cell
  pos : 0 < next
  null : cells 0 = none
  fresh : ∀ p, next ≤ p → cells p = none

namespace Heap

def alloc (h : Heap) (c : Cell) : Heap × Nat :=
  (⟨h.next + 1, Function.update h.cells h.next (some c), Nat.succ_pos _,
    (Function.update_of_ne (Nat.ne_of_lt h.pos) _ _).trans h.null,
    fun p hp => (Function.update_of_ne (by omega) _ _).trans (h.fresh p (by omega))⟩, h.next)

/-- `free`; `none` when there is no such object. -/
def free (h : Heap) (p : Nat) : Option Heap :=
  if p = 0 then some h
  else if (h.cells p).isNone then none
  else some ⟨h.next, Function.update h.cells p none, h.pos, by
    by_cases h0 : 0 = p
    · rw [h0, Function.update_self]
    · rw [Function.update_of_ne h0, h.null], fun q hq => by
    by_cases he : q = p
    · rw [he, Function.update_self]
    · rw [Function.update_of_ne he, h.fresh q hq]⟩

/-- New contents for an object. -/
def write (h : Heap) (p : Nat) (c : Cell) : Heap :=
  if hp : (h.cells p).isSome then
    ⟨h.next, Function.update h.cells p (some c), h.pos, by
      have hne : (0 : Nat) ≠ p := by
        rintro rfl
        rw [h.null] at hp
        cases hp
      exact (Function.update_of_ne hne _ _).trans h.null, fun q hq => by
      have hne : q ≠ p := by
        rintro rfl
        rw [h.fresh q hq] at hp
        cases hp
      exact (Function.update_of_ne hne _ _).trans (h.fresh q hq)⟩
  else h

/-- The entries of an array. -/
def slotsAt (h : Heap) (p : Nat) : List Slot :=
  match h.cells p with
  | some (.entries l) => l
  | _ => []

end Heap

/-! ## The program -/

/-- mirrors `read_fixed_string`, src/tools/cmem-analyze/cmem-analyze-parser.c:30-46, with what
`malloc` answers -/
def storeString (give : Bool) (s : Option (List UInt8)) (h : Heap) : Heap × Nat :=
  match s with
  | none => (h, 0)
  | some s => if give then h.alloc (.text s) else (h, 0)

/-- The loop of `cmem_analyze_read_leaks`,
src/tools/cmem-analyze/cmem-analyze-parser.c:133-154, from record `i` on. -/
def readSlots (gives : Nat → Bool) : Nat → List LeakEntry → Heap → Heap × List Slot
  | _, [], h => (h, [])
  | i, e :: es, h =>
    let (h, file) := storeString (gives (2 * i)) e.file h
    let (h, func) := storeString (gives (2 * i + 1)) e.func h
    let (h, slots) := readSlots gives (i + 1) es h
    (h, ⟨e.address, e.size, e.usableSize, e.tier, file, e.line, func, e.timestamp,
      e.backtraceDepth⟩ :: slots)

/-- The entries of the loop `free`s of `cmem_analyze_free_leaks`. -/
def freeSlots : List Slot → Heap → Option Heap
  | [], h => some h
  | s :: l, h =>
    match h.free s.file with
    | none => none
    | some h =>
      match h.free s.func with
      | none => none
      | some h => freeSlots l h

/-- mirrors `cmem_analyze_free_leaks`, src/tools/cmem-analyze/cmem-analyze-parser.c:163-173 -/
def cmemAnalyzeFreeLeaks (h : Heap) (entries count : Nat) : Option Heap :=
  if entries = 0 then some h
  else
    match h.cells entries with
    | some (.entries l) =>
      match freeSlots (l.take count) h with
      | none => none
      | some h => h.free entries
    | _ => none

/-- What the allocator answers: for the array of all entries, for that of the top entries and for
the strings. -/
structure Answers where
  all : Bool
  top : Bool
  strings : Nat → Bool

/-- mirrors `cmem_analyze_read_leaks`, src/tools/cmem-analyze/cmem-analyze-parser.c:103-161: the
array and its length -/
def readLeaks (file : List UInt8) (ans : Answers) (h : Heap) : Option (Heap × Nat × Nat) :=
  match cmemAnalyzeReadLeaks file with
  | none => none
  | some es =>
    if ans.all = false then none
    else
      let (h, p) := h.alloc (.entries [])
      let (h, slots) := readSlots ans.strings 0 es h
      some (h.write p (.entries slots), p, slots.length)

/-- The elements at the places that a list of sizes gives. -/
def sortBy {α : Type} (order : List Nat → List Nat) (size : α → Nat) (l : List α) : List α :=
  (order (l.map size)).filterMap (l[·]?)

/-- `show` -/
def showCount (n : Int) (total : Nat) : Nat := if 0 < n ∧ n.toNat < total then n.toNat else total

section Program
-- `qsort` with `compare_leaks_by_size_desc`: the places of the entries in their new order
variable (order : List Nat → List Nat)

/-- mirrors `cmem_analyze_top_leaks`, src/tools/cmem-analyze/cmem-analyze-parser.c:188-220: the
array and its length, nothing when it returns false -/
def cmemAnalyzeTopLeaks (file : List UInt8) (n : Int) (ans : Answers) (h : Heap) :
    Option (Heap × Option (Nat × Nat)) :=
  match readLeaks file ans h with
  | none => some (h, none)
  | some (h, all, total) =>
    if total = 0 then some (h, some (0, 0))
    else
      let sorted := sortBy order Slot.size (h.slotsAt all)
      let h := h.write all (.entries sorted)
      if ans.top = false then (cmemAnalyzeFreeLeaks h all total).map fun h => (h, none)
      else
        let (h, top) := h.alloc (.entries (sorted.take (showCount n total)))
        (cmemAnalyzeFreeLeaks h all total).map fun h => (h, some (top, showCount n total))

/-- `qsort` is correct for the comparison: a permutation with falling sizes. -/
structure SortsDescending : Prop where
  perm : ∀ sizes, (order sizes).Perm (List.range sizes.length)
  falling : ∀ sizes, ((order sizes).filterMap (sizes[·]?)).Pairwise (· ≥ ·)

/-- The entries that are to be returned. -/
def topOf (n : Int) (all : List LeakEntry) : List LeakEntry :=
  (sortBy order LeakEntry.size all).take (showCount n all.length)

/-- The string of a pointer: NULL when there is none, or allocated with its text. -/
def TextAt (h : Heap) (p : Nat) : Option (List UInt8) → Prop
  | none => p = 0
  | some s => p ≠ 0 ∧ h.cells p = some (.text s)

/-- An entry in memory is what was recorded, with its strings. -/
structure Holds (h : Heap) (e : LeakEntry) (s : Slot) : Prop where
  address : s.address = e.address
  size : s.size = e.size
  tier : s.tier = e.tier
  line : s.line = e.line
  file : TextAt h s.file e.file
  func : TextAt h s.func e.func

/-- **Ownership**: the call returns the largest entries with their strings, and freeing them frees
each object once and leaves the heap as it was before the call. -/
structure Owned (file : List UInt8) (n : Int) (ans : Answers) (h : Heap)
    (all : List LeakEntry) : Prop where
  sorted : (sortBy order LeakEntry.size all).Perm all ∧
    (sortBy order LeakEntry.size all).Pairwise fun a b => a.size ≥ b.size
  returned :
    ∃ h' top,
    cmemAnalyzeTopLeaks order file n ans h = some (h', some (top, (topOf order n all).length)) ∧
    List.Forall₂ (Holds h') (topOf order n all) (h'.slotsAt top) ∧
    ∃ h'', cmemAnalyzeFreeLeaks h' top (topOf order n all).length = some h'' ∧ h''.cells = h.cells

/-- There are records, both arrays are granted, and no record that is returned has a string. -/
structure Textless (n : Int) (ans : Answers) (all : List LeakEntry) : Prop where
  some_ : all ≠ []
  arrays : ans.all = true ∧ ans.top = true
  texts : ∀ e ∈ topOf order n all, e.file = none ∧ e.func = none

end Program

/-! ## Steps of the heap -/

section Steps
variable {h h' h'' : Heap} {p : Nat} {c : Cell} {ps qs : List Nat}

theorem free_null (h : Heap) : h.free 0 = some h := if_pos rfl

theorem free_some (h0 : p ≠ 0) (hp : h.cells p ≠ none) :
    ∃ h', h.free p = some h' ∧ h'.cells = Function.update h.cells p none := by
  unfold Heap.free
  rw [if_neg h0, if_neg (by simpa using hp)]
  exact ⟨_, rfl, rfl⟩

theorem write_cells (hp : h.cells p ≠ none) (c : Cell) :
    (h.write p c).next = h.next ∧ (h.write p c).cells = Function.update h.cells p (some c) := by
  unfold Heap.write
  rw [dif_pos (Option.isSome_iff_ne_none.mpr hp)]
  exact ⟨rfl, rfl⟩

/-- From `h` to `h'` the objects `ps` have been allocated, one after another. -/
structure Grown (h h' : Heap) (ps : List Nat) : Prop where
  le : h.next ≤ h'.next
  ptrs : ps = List.range' h.next (h'.next - h.next)
  kept : ∀ p < h.next, h'.cells p = h.cells p
  made : ∀ p ∈ ps, h'.cells p ≠ none

theorem Grown.refl (h : Heap) : Grown h h [] :=
  ⟨Nat.le_refl _, by rw [Nat.sub_self]; rfl, fun _ _ => rfl, nofun⟩

theorem Grown.trans (h1 : Grown h h' ps) (h2 : Grown h' h'' qs) : Grown h h'' (ps ++ qs) where
  le := Nat.le_trans h1.le h2.le
  ptrs := by
    obtain ⟨k, hk⟩ := Nat.exists_eq_add_of_le h1.le
    obtain ⟨k', hk'⟩ := Nat.exists_eq_add_of_le h2.le
    rw [h1.ptrs, h2.ptrs, hk', hk, Nat.add_sub_cancel_left, Nat.add_sub_cancel_left,
      List.range'_append_1, Nat.add_assoc, Nat.add_sub_cancel_left]
  kept p hp := (h2.kept p (Nat.lt_of_lt_of_le hp h1.le)).trans (h1.kept p hp)
  made p hp := by
    rcases List.mem_append.mp hp with hp | hp
    · have hlt : p < h'.next := by
        have := h1.le
        rw [h1.ptrs, List.mem_range'_1] at hp
        omega
      rw [h2.kept p hlt]
      exact h1.made p hp
    · exact h2.made p hp

theorem Grown.nodup (hg : Grown h h' ps) : ps.Nodup := by
  rw [hg.ptrs]
  exact List.nodup_range'

theorem Grown.mem (hg : Grown h h' ps) (hp : p ∈ ps) : h.next ≤ p ∧ p < h'.next := by
  have := hg.le
  rw [hg.ptrs, List.mem_range'_1] at hp
  omega

theorem alloc_grown (h : Heap) (c : Cell) : Grown h (h.alloc c).1 [h.next] where
  le := Nat.le_succ _
  ptrs := by
    show [h.next] = List.range' h.next (h.next + 1 - h.next)
    rw [Nat.add_sub_cancel_left]
    rfl
  kept p hp := Function.update_of_ne (Nat.ne_of_lt hp) _ _
  made p hp := by
    obtain rfl := List.mem_singleton.mp hp
    show Function.update h.cells h.next (some c) h.next ≠ none
    rw [Function.update_self]
    exact nofun

/-- The pointers of entries, without NULL. -/
def ptrs (l : List Slot) : List Nat := l.flatMap fun s => [s.file, s.func].filter (· ≠ 0)

theorem storeString_grown (give : Bool) (s : Option (List UInt8)) (h : Heap) :
    Grown h (storeString give s h).1 ([(storeString give s h).2].filter (· ≠ 0)) ∧
      (s = none → (storeString give s h).2 = 0) := by
  have hnull : Grown h h ([0].filter (· ≠ 0)) := Grown.refl h
  unfold storeString
  cases s with
  | none => exact ⟨hnull, fun _ => rfl⟩
  | some s =>
    dsimp only
    split
    · have hpos : h.next ≠ 0 := Nat.pos_iff_ne_zero.mp h.pos
      refine ⟨?_, nofun⟩
      have hfilter : [(h.alloc (.text s)).2].filter (· ≠ 0) = [h.next] :=
        List.filter_cons_of_pos (p := (· ≠ 0)) (decide_eq_true hpos)
      rw [hfilter]
      exact alloc_grown h _
    · exact ⟨hnull, nofun⟩

/-- An entry in memory, as far as it has no strings. -/
structure Copies (e : LeakEntry) (s : Slot) : Prop where
  address : s.address = e.address
  size : s.size = e.size
  tier : s.tier = e.tier
  line : s.line = e.line
  file : e.file = none → s.file = 0
  func : e.func = none → s.func = 0

theorem readSlots_spec (gives : Nat → Bool) (i : Nat) (es : List LeakEntry) (h : Heap) :
    Grown h (readSlots gives i es h).1 (ptrs (readSlots gives i es h).2) ∧
      List.Forall₂ Copies es (readSlots gives i es h).2 := by
  induction es generalizing i h with
  | nil => exact ⟨Grown.refl h, .nil⟩
  | cons e es ih =>
    obtain ⟨g1, n1⟩ := storeString_grown (gives (2 * i)) e.file h
    rw [readSlots]
    generalize storeString (gives (2 * i)) e.file h = r1 at *
    obtain ⟨g2, n2⟩ := storeString_grown (gives (2 * i + 1)) e.func r1.1
    dsimp only
    generalize storeString (gives (2 * i + 1)) e.func r1.1 = r2 at *
    obtain ⟨g3, hall⟩ := ih (i + 1) r2.1
    refine ⟨?_, .cons ⟨rfl, rfl, rfl, rfl, n1, n2⟩ hall⟩
    have hp : ∀ r : Slot, ptrs (r :: (readSlots gives (i + 1) es r2.1).2) =
        [r.file].filter (· ≠ 0) ++
          ([r.func].filter (· ≠ 0) ++ ptrs (readSlots gives (i + 1) es r2.1).2) := fun r => by
      rw [ptrs, List.flatMap_cons, ← List.append_assoc, ← List.filter_append]
      rfl
    rw [hp]
    exact g1.trans (g2.trans g3)

/-- **Freeing** the strings of entries frees what their pointers point to. -/
theorem freeSlots_spec {l : List Slot} (hn : (ptrs l).Nodup) (ha : ∀ p ∈ ptrs l, h.cells p ≠ none) :
    ∃ h', freeSlots l h = some h' ∧ ∀ p, h'.cells p = if p ∈ ptrs l then none else h.cells p := by
  -- one pointer of an entry
  have hone : ∀ (h : Heap) (p : Nat), (p ≠ 0 → h.cells p ≠ none) →
      ∃ h', h.free p = some h' ∧
      ∀ q, h'.cells q = if q ∈ [p].filter (· ≠ 0) then none else h.cells q := by
    intro h p hp
    by_cases h0 : p = 0
    · subst h0
      exact ⟨h, free_null h, fun q => by simp⟩
    · obtain ⟨h', he, hc⟩ := free_some h0 (hp h0)
      refine ⟨h', he, fun q => ?_⟩
      rw [hc, List.filter_cons_of_pos (by simpa using h0), List.filter_nil]
      by_cases hq : q = p
      · rw [hq, Function.update_self, if_pos List.mem_cons_self]
      · rw [Function.update_of_ne hq, if_neg (by simpa using hq)]
  induction l generalizing h with
  | nil => exact ⟨h, rfl, fun p => rfl⟩
  | cons s l ih =>
    have hp : ptrs (s :: l) = [s.file].filter (· ≠ 0) ++ ([s.func].filter (· ≠ 0) ++ ptrs l) := by
      rw [ptrs, List.flatMap_cons, ← List.append_assoc, ← List.filter_append]
      rfl
    rw [hp] at hn ha ⊢
    obtain ⟨-, hn', hd⟩ := List.nodup_append.mp hn
    obtain ⟨-, hn'', hd'⟩ := List.nodup_append.mp hn'
    obtain ⟨h1, e1, c1⟩ := hone h s.file fun h0 => ha _ (List.mem_append_left _ (by simpa using h0))
    have hleft : ∀ q ∈ [s.func].filter (· ≠ 0) ++ ptrs l, h1.cells q = h.cells q := fun q hq => by
      rw [c1, if_neg fun hf => hd q hf q hq rfl]
    obtain ⟨h2, e2, c2⟩ := hone h1 s.func fun h0 => by
      have hm : s.func ∈ [s.func].filter (· ≠ 0) ++ ptrs l :=
        List.mem_append_left _ (by simpa using h0)
      rw [hleft _ hm]
      exact ha _ (List.mem_append_right _ hm)
    obtain ⟨h3, e3, c3⟩ := ih hn'' fun q hq => by
      rw [c2, if_neg fun hf => hd' q hf q hq rfl, hleft q (List.mem_append_right _ hq)]
      exact ha q (List.mem_append_right _ (List.mem_append_right _ hq))
    refine ⟨h3, ?_, fun q => ?_⟩
    · rw [freeSlots, e1]
      dsimp only
      rw [e2]
      exact e3
    · rw [c3, c2, c1]
      simp only [List.mem_append]
      split_ifs <;> first | rfl | tauto

end Steps

/-! ## Sorting -/

section Sorting
variable {order : List Nat → List Nat} {α β : Type} {l : List α} {l' : List β}

theorem filterMap_range (l : List α) : (List.range l.length).filterMap (l[·]?) = l := by
  induction l using List.reverseRecOn with
  | nil => rfl
  | append_singleton l a ih =>
    rw [List.length_append, List.length_singleton, List.range_succ, List.filterMap_append]
    have hleft :
      (List.range l.length).filterMap ((l ++ [a])[·]?) = (List.range l.length).filterMap (l[·]?) :=
      List.filterMap_congr fun i hi => List.getElem?_append_left (List.mem_range.mp hi)
    rw [hleft, ih]
    simp

theorem sortBy_perm (hs : SortsDescending order) (size : α → Nat) (l : List α) :
    (sortBy order size l).Perm l := by
  have h := (hs.perm (l.map size)).filterMap (l[·]?)
  rw [List.length_map, filterMap_range] at h
  exact h

theorem sortBy_falling (hs : SortsDescending order) (size : α → Nat) (l : List α) :
    (sortBy order size l).Pairwise fun a b => size a ≥ size b := by
  have h := hs.falling (l.map size)
  have hmap :
    (order (l.map size)).filterMap ((l.map size)[·]?) = (sortBy order size l).map size := by
    rw [sortBy, List.map_filterMap]
    refine List.filterMap_congr fun i _ => ?_
    rw [List.getElem?_map]
  rw [hmap, List.pairwise_map] at h
  exact h

theorem filterMap_forall₂ {R : α → β → Prop} (h : List.Forall₂ R l l') (is : List Nat) :
    List.Forall₂ R (is.filterMap (l[·]?)) (is.filterMap (l'[·]?)) := by
  induction is with
  | nil => exact .nil
  | cons i is ih =>
    have hlen := h.length_eq
    by_cases hi : i < l.length
    · have hi' : i < l'.length := hlen ▸ hi
      rw [List.filterMap_cons_some (List.getElem?_eq_getElem hi),
        List.filterMap_cons_some (List.getElem?_eq_getElem hi')]
      exact .cons (h.get hi hi') ih
    · rw [List.filterMap_cons_none (List.getElem?_eq_none (by omega)),
        List.filterMap_cons_none (List.getElem?_eq_none (by omega))]
      exact ih

/-- The entries in memory and those that were recorded are put in the same order. -/
theorem sortBy_copies {es : List LeakEntry} {slots : List Slot} (h : List.Forall₂ Copies es slots) :
    List.Forall₂ Copies (sortBy order LeakEntry.size es) (sortBy order Slot.size slots) := by
  have hsizes : es.map LeakEntry.size = slots.map Slot.size := by
    induction h with
    | nil => rfl
    | cons hc _ ih => rw [List.map_cons, List.map_cons, hc.size, ih]
  unfold sortBy
  rw [hsizes]
  exact filterMap_forall₂ h _

theorem ptrs_perm {l l' : List Slot} (h : l.Perm l') : (ptrs l).Perm (ptrs l') := h.flatMap_right _

theorem length_topOf (hs : SortsDescending order) (n : Int) (all : List LeakEntry) :
    (topOf order n all).length = showCount n all.length := by
  rw [topOf, List.length_take, (sortBy_perm hs _ _).length_eq, showCount]
  split <;> omega

end Sorting

/-! ## The call -/

section Call
variable {order : List Nat → List Nat} {file : List UInt8} {n : Int} {ans : Answers} {h : Heap}
  {all : List LeakEntry}

theorem readLeaks_refused (ha : ans.all ≠ true) : readLeaks file ans h = none := by
  unfold readLeaks
  split
  · rfl
  · exact if_pos (Bool.eq_false_iff.mpr ha)

theorem readLeaks_eq (hread : cmemAnalyzeReadLeaks file = some all) (ha : ans.all = true) :
    readLeaks file ans h =
      let r := readSlots ans.strings 0 all (h.alloc (.entries [])).1
      some (r.1.write h.next (.entries r.2), h.next, r.2.length) := by
  rw [readLeaks, hread]
  dsimp only
  rw [ha, if_neg nofun]
  rfl

/-- What a call leaves that returns entries: the array of copies, and no string. -/
structure Returned (order : List Nat → List Nat) (n : Int) (h : Heap) (all : List LeakEntry)
    (h' : Heap) (top : Nat) : Prop where
  slots : List.Forall₂ Copies (topOf order n all) (h'.slotsAt top)
  array : top ≠ 0 ∧ h.cells top = none ∧ h'.cells top = some (.entries (h'.slotsAt top))
  dangling : ∀ s ∈ h'.slotsAt top, (s.file ≠ 0 → h'.cells s.file = none) ∧
    (s.func ≠ 0 → h'.cells s.func = none)
  others : ∀ p, p ≠ top → h'.cells p = h.cells p

/-- The array of all entries lies at the first new place, and their strings behind it. -/
structure Loaded (h : Heap) (slots : List Slot) (h' : Heap) : Prop where
  array : h'.cells h.next = some (.entries slots)
  le : h.next < h'.next
  nodup : (ptrs slots).Nodup
  mem : ∀ p, p ∈ ptrs slots ↔ h.next < p ∧ p < h'.next
  made : ∀ p ∈ ptrs slots, h'.cells p ≠ none
  kept : ∀ p < h.next, h'.cells p = h.cells p

theorem readLeaks_loaded (hread : cmemAnalyzeReadLeaks file = some all) (ha : ans.all = true) :
    ∃ h' slots, readLeaks file ans h = some (h', h.next, slots.length) ∧ Loaded h slots h' ∧
      List.Forall₂ Copies all slots := by
  obtain ⟨g1, hcopies⟩ := readSlots_spec ans.strings 0 all (h.alloc (.entries [])).1
  have g0 := alloc_grown h (.entries [])
  have hmade : (h.alloc (.entries [])).1.cells h.next ≠ none := g0.made _ List.mem_cons_self
  have hnext : (h.alloc (.entries [])).1.next = h.next + 1 := rfl
  rw [readLeaks_eq hread ha]
  generalize (h.alloc (.entries [])).1 = h1 at *
  dsimp only
  generalize readSlots ans.strings 0 all h1 = r at *
  obtain ⟨h2, slots⟩ := r
  dsimp only at *
  have hle := g1.le
  obtain ⟨hn, hc⟩ := write_cells (h := h2) (p := h.next)
    (by rw [g1.kept _ (by omega)]; exact hmade) (.entries slots)
  refine ⟨_, slots, rfl, ⟨?_, ?_, g1.nodup, fun p => ?_, fun p hp => ?_, fun p hp => ?_⟩, hcopies⟩
  · rw [hc, Function.update_self]
  · omega
  · rw [g1.ptrs, List.mem_range'_1]
    omega
  · have := g1.mem hp
    rw [hc, Function.update_of_ne (by omega)]
    exact g1.made p hp
  · rw [hc, Function.update_of_ne (Nat.ne_of_lt hp), g1.kept p (by omega), g0.kept p hp]

/-- The array is put in another order. -/
theorem Loaded.permute {h' : Heap} {slots sorted : List Slot} (hl : Loaded h slots h')
    (hp : sorted.Perm slots) : Loaded h sorted (h'.write h.next (.entries sorted)) := by
  obtain ⟨hn, hc⟩ := write_cells (h := h') (p := h.next) (by rw [hl.array]; exact nofun)
    (.entries sorted)
  have hmem (p : Nat) : p ∈ ptrs sorted ↔ p ∈ ptrs slots := (ptrs_perm hp).mem_iff
  refine ⟨?_, hn ▸ hl.le, (ptrs_perm hp).nodup_iff.mpr hl.nodup, fun p => ?_, fun p hp' => ?_,
    fun p hp' => ?_⟩
  · rw [hc, Function.update_self]
  · rw [hmem, hl.mem, hn]
  · have := (hl.mem p).mp ((hmem p).mp hp')
    rw [hc, Function.update_of_ne (by omega)]
    exact hl.made p ((hmem p).mp hp')
  · rw [hc, Function.update_of_ne (Nat.ne_of_lt hp')]
    exact hl.kept p hp'

/-- **Freeing the array** behind one more allocation leaves that object alone. -/
theorem Loaded.free {h' : Heap} {slots : List Slot} (hl : Loaded h slots h') (c : Cell) :
    ∃ h'', cmemAnalyzeFreeLeaks (h'.alloc c).1 h.next slots.length = some h'' ∧
      h''.cells = Function.update h.cells h'.next (some c) := by
  have hle := hl.le
  have hcells : (h'.alloc c).1.cells = Function.update h'.cells h'.next (some c) := rfl
  generalize (h'.alloc c).1 = h1 at *
  have harr : h1.cells h.next = some (.entries slots) := by
    rw [hcells, Function.update_of_ne (by omega)]
    exact hl.array
  obtain ⟨h2, e2, c2⟩ := freeSlots_spec (h := h1) hl.nodup fun p hp => by
    have := (hl.mem p).mp hp
    rw [hcells, Function.update_of_ne (by omega)]
    exact hl.made p hp
  have hself : h.next ∉ ptrs slots := fun hp => by
    have := (hl.mem _).mp hp
    omega
  have hpos : h.next ≠ 0 := Nat.pos_iff_ne_zero.mp h.pos
  obtain ⟨h3, e3, c3⟩ := free_some (h := h2) hpos (by rw [c2, if_neg hself, harr]; exact nofun)
  refine ⟨h3, ?_, ?_⟩
  · rw [cmemAnalyzeFreeLeaks, if_neg hpos, harr]
    dsimp only
    rw [List.take_length, e2]
    exact e3
  funext p
  by_cases hp : p = h.next
  · rw [hp, c3, Function.update_self, Function.update_of_ne (by omega), h.fresh _ (Nat.le_refl _)]
  rw [c3, Function.update_of_ne hp, c2]
  split
  · rename_i hin
    have := (hl.mem p).mp hin
    rw [Function.update_of_ne (by omega), h.fresh p (by omega)]
  · rename_i hout
    rw [hcells]
    by_cases hn : p = h'.next
    · rw [hn, Function.update_self, Function.update_self]
    rw [Function.update_of_ne hn, Function.update_of_ne hn]
    by_cases hlt : p < h.next
    · exact hl.kept p hlt
    -- behind the strings nothing is allocated
    have hge : h'.next ≤ p := Nat.le_of_not_lt fun h1 => hout ((hl.mem p).mpr ⟨by omega, h1⟩)
    rw [h.fresh p (by omega), h'.fresh p hge]

theorem topLeaks_returns (hs : SortsDescending order) (hread : cmemAnalyzeReadLeaks file = some all)
    (h0 : all ≠ []) (ha : ans.all = true) (ht : ans.top = true) :
    ∃ h' top,
    cmemAnalyzeTopLeaks order file n ans h = some (h', some (top, showCount n all.length)) ∧
      Returned order n h all h' top := by
  obtain ⟨h1, slots, hres, hl, hcopies⟩ := readLeaks_loaded (h := h) hread ha
  have hlen : slots.length = all.length := hcopies.length_eq.symm
  have hperm : (sortBy order Slot.size slots).Perm slots := sortBy_perm hs _ _
  have hsorted := hl.permute hperm
  have hslots : h1.slotsAt h.next = slots := by rw [Heap.slotsAt, hl.array]
  unfold cmemAnalyzeTopLeaks
  rw [hres]
  dsimp only
  rw [if_neg (by rw [hlen]; exact fun h2 => h0 (List.length_eq_zero_iff.mp h2)), ht, if_neg nofun,
    hslots]
  generalize hsrt : sortBy order Slot.size slots = sorted at *
  generalize h1.write h.next (.entries sorted) = h2 at *
  -- the copy of the front of the sorted array
  obtain ⟨h3, hfree, hcells⟩ := hsorted.free (.entries (sorted.take (showCount n slots.length)))
  rw [hperm.length_eq] at hfree
  have hle := hsorted.le
  have htop : h3.cells h2.next = some (.entries (sorted.take (showCount n slots.length))) := by
    rw [hcells, Function.update_self]
  have hfront : h3.slotsAt h2.next = sorted.take (showCount n slots.length) := by
    rw [Heap.slotsAt, htop]
  have hgone : ∀ p ∈ ptrs sorted, h3.cells p = none := fun p hp => by
    have := (hsorted.mem p).mp hp
    rw [hcells, Function.update_of_ne (by omega), h.fresh p (by omega)]
  refine ⟨h3, h2.next, ?_, ⟨?_, ⟨by omega, h.fresh _ (by omega), ?_⟩, fun s hm => ?_,
    fun p hp => by rw [hcells, Function.update_of_ne hp]⟩⟩
  · rw [hfree, hlen]
    rfl
  · rw [hfront, hlen, topOf, ← hsrt]
    exact List.forall₂_take _ (sortBy_copies hcopies)
  · rw [hfront]
    exact htop
  · rw [hfront] at hm
    have hin : ∀ p, p ∈ [s.file, s.func] → p ≠ 0 → p ∈ ptrs sorted := fun p hp h0 =>
      List.mem_flatMap.mpr ⟨s, List.mem_of_mem_take hm, List.mem_filter.mpr ⟨hp, decide_eq_true h0⟩⟩
    exact ⟨fun h0 => hgone _ (hin _ (by simp) h0), fun h0 => hgone _ (hin _ (by simp) h0)⟩

/-- A string that is returned would still be allocated. -/
theorem Owned.texts (ho : Owned order file n ans h all) (hs : SortsDescending order)
    (hread : cmemAnalyzeReadLeaks file = some all) (h0 : all ≠ []) (ha : ans.all = true)
    (ht : ans.top = true) : ∀ e ∈ topOf order n all, e.file = none ∧ e.func = none := by
  obtain ⟨h', top, hres, hholds, -⟩ := ho.returned
  obtain ⟨h₁, top₁, hres₁, hr⟩ := topLeaks_returns (n := n) (h := h) hs hread h0 ha ht
  rw [length_topOf hs, hres₁] at hres
  obtain ⟨rfl, hp⟩ := Prod.mk.inj (Option.some.inj hres)
  obtain ⟨rfl, -⟩ := Prod.mk.inj (Option.some.inj hp)
  have hnone : ∀ {p : Nat} {s : Option (List UInt8)}, TextAt h₁ p s → (p ≠ 0 → h₁.cells p = none) →
    s = none := by
    intro p s htext hd
    cases s with
    | none => rfl
    | some s => exact absurd (htext.2.symm.trans (hd htext.1)) nofun
  intro e he
  obtain ⟨i, hi, rfl⟩ := List.getElem_of_mem he
  have hi' : i < (h₁.slotsAt top₁).length := hholds.length_eq ▸ hi
  have hhold := hholds.get hi hi'
  obtain ⟨d1, d2⟩ := hr.dangling _ (List.getElem_mem hi')
  exact ⟨hnone hhold.file d1, hnone hhold.func d2⟩

/-- Without records the array is not returned, and not freed. -/
theorem topLeaks_none (hread : cmemAnalyzeReadLeaks file = some []) (n : Int) :
    ¬Owned order file n ans h [] := by
  rintro ⟨-, h', top, hres, -, h'', hfree, hcells⟩
  unfold cmemAnalyzeTopLeaks at hres
  by_cases ha : ans.all = true
  · rw [readLeaks_eq hread ha] at hres
    change some ((h.alloc (.entries [])).1.write h.next (.entries []), some (0, 0)) = _ at hres
    obtain ⟨rfl, ht⟩ := Prod.mk.inj (Option.some.inj hres)
    obtain ⟨rfl, -⟩ := Prod.mk.inj (Option.some.inj ht)
    obtain rfl := Option.some.inj hfree
    have hmade : (h.alloc (.entries [])).1.cells h.next ≠ none :=
      (alloc_grown h _).made _ List.mem_cons_self
    have hkept := (write_cells hmade (.entries [])).2
    have hnow := congrFun hcells h.next
    rw [hkept, Function.update_self, h.fresh _ (Nat.le_refl _)] at hnow
    cases hnow
  · rw [readLeaks_refused ha] at hres
    cases (Prod.mk.inj (Option.some.inj hres)).2

/-- The returned array is freed; there is nothing else. -/
theorem Returned.free {h' : Heap} {top : Nat} (hr : Returned order n h all h' top)
    (hz : ∀ s ∈ h'.slotsAt top, s.file = 0 ∧ s.func = 0) :
    ∃ h'', cmemAnalyzeFreeLeaks h' top (topOf order n all).length = some h'' ∧
    h''.cells = h.cells := by
  obtain ⟨htop, hnone, harr⟩ := hr.array
  have hptrs : ptrs (h'.slotsAt top) = [] := by
    refine List.flatMap_eq_nil_iff.mpr fun s hs => ?_
    rw [(hz s hs).1, (hz s hs).2]
    rfl
  obtain ⟨h1, e1, c1⟩ :=
    freeSlots_spec (l := h'.slotsAt top) (h := h') (by rw [hptrs]; exact List.nodup_nil)
    (by rw [hptrs]; exact nofun)
  simp only [hptrs, List.not_mem_nil, if_false] at c1
  obtain ⟨h2, e2, c2⟩ := free_some htop (h := h1) (by rw [c1, harr]; exact nofun)
  refine ⟨h2, ?_, ?_⟩
  · rw [cmemAnalyzeFreeLeaks, if_neg htop, harr]
    dsimp only
    rw [List.take_of_length_le (Nat.le_of_eq hr.slots.length_eq.symm), e1]
    exact e2
  · funext p
    rw [c2]
    by_cases hp : p = top
    · rw [hp, Function.update_self, hnone]
    · rw [Function.update_of_ne hp, c1, hr.others p hp]

/-- **Top leaks.** The call returns entries that own their strings when there are entries and none
that is returned has a string, and only then. -/
theorem top_leaks_owned_iff (hs : SortsDescending order)
    (hread : cmemAnalyzeReadLeaks file = some all) : Owned order file n ans h all ↔
    Textless order n ans all := by
  constructor
  · intro ho
    have h0 : all ≠ [] := by
      rintro rfl
      exact topLeaks_none hread n ho
    obtain ⟨h', top, hres, -⟩ := ho.returned
    have ha : ans.all = true := by
      by_contra hf
      rw [cmemAnalyzeTopLeaks, readLeaks_refused hf] at hres
      cases (Prod.mk.inj (Option.some.inj hres)).2
    have ht : ans.top = true := by
      by_contra hf
      have htotal : (readSlots ans.strings 0 all (h.alloc (.entries [])).1).2.length ≠ 0 := by
        rw [← (readSlots_spec ..).2.length_eq]
        exact fun hl => h0 (List.length_eq_zero_iff.mp hl)
      rw [cmemAnalyzeTopLeaks, readLeaks_eq hread ha] at hres
      dsimp only at hres
      rw [if_neg htotal, if_pos (Bool.eq_false_iff.mpr hf)] at hres
      obtain ⟨h2, -, he⟩ := Option.map_eq_some_iff.mp hres
      cases (Prod.mk.inj he).2
    exact ⟨h0, ⟨ha, ht⟩, ho.texts hs hread h0 ha ht⟩
  · rintro ⟨h0, ⟨ha, ht⟩, htexts⟩
    obtain ⟨h', top, hres, hr⟩ := topLeaks_returns (n := n) (h := h) hs hread h0 ha ht
    have hboth :
        List.Forall₂ (fun e s => (e.file = none ∧ e.func = none) ∧ Copies e s) (topOf order n all)
        (h'.slotsAt top) := (List.forall₂_and_left _ _).mpr ⟨htexts, hr.slots⟩
    have hholds : List.Forall₂ (Holds h') (topOf order n all) (h'.slotsAt top) :=
      hboth.imp fun e s hc => by
      obtain ⟨⟨hf, hg⟩, hc⟩ := hc
      refine ⟨hc.address, hc.size, hc.tier, hc.line, ?_, ?_⟩
      · rw [hf]
        exact hc.file hf
      · rw [hg]
        exact hc.func hg
    refine ⟨⟨sortBy_perm hs _ _, sortBy_falling hs _ _⟩, h', top,
      by rw [length_topOf hs]; exact hres, hholds, ?_⟩
    refine hr.free fun s hs' => ?_
    obtain ⟨i, hi, rfl⟩ := List.getElem_of_mem hs'
    have hc := hboth.get (hboth.length_eq ▸ hi) hi
    exact ⟨hc.2.file hc.1.1, hc.2.func hc.1.2⟩

end Call

/-! ## Two files -/

/-- Places by falling size. -/
def fallingOrder (sizes : List Nat) : List Nat :=
  (List.range sizes.length).insertionSort fun i j => sizes.getD j 0 ≤ sizes.getD i 0

theorem fallingOrder_sorts : SortsDescending fallingOrder where
  perm sizes := List.perm_insertionSort _ _
  falling sizes := by
    have : Std.Total fun i j => sizes.getD j 0 ≤ sizes.getD i 0 := ⟨fun _ _ => Nat.le_total _ _⟩
    have : IsTrans Nat fun i j => sizes.getD j 0 ≤ sizes.getD i 0 :=
      ⟨fun _ _ _ h1 h2 => Nat.le_trans h2 h1⟩
    have hsorted : (fallingOrder sizes).Pairwise fun i j => sizes.getD j 0 ≤ sizes.getD i 0 :=
      List.pairwise_insertionSort _ _
    refine List.pairwise_filterMap.mpr (hsorted.imp fun {i j} hij a ha b hb => ?_)
    rw [List.getD_eq_getElem?_getD, List.getD_eq_getElem?_getD, ha, hb] at hij
    exact hij

/-- Blocks without a call site, and blocks of the file `a.c`. -/
def silent : Entry := ⟨70000, 24, 1, 0, none, none⟩
def wide : Entry := ⟨80000, 700, 2, 0, none, none⟩
def named : Entry := ⟨70000, 24, 1, 7, some ⟨[97, 46, 99], by decide⟩, none⟩
def narrow : Entry := ⟨90000, 8, 1, 7, some ⟨[97, 46, 99], by decide⟩, none⟩

def fileOf (es : List Entry) : List UInt8 :=
  mpExportBinarySnapshot ⟨65536, (es.map Entry.requested).sum, es.length, es⟩

theorem readLeaks_fileOf {es : List Entry} (h : ∀ e ∈ es, e.Fits) (hlen : es.length ≤ 2 ^ 20)
    (hsum : (es.map Entry.requested).sum ≤ 65536) :
    cmemAnalyzeReadLeaks (fileOf es) = some (es.map fun e => readRecord e.record) := by
  have hparse := parseHeader_export (i := ⟨65536, (es.map Entry.requested).sum, es.length, es⟩)
    ⟨by simp, Nat.lt_of_le_of_lt hsum (by decide), Nat.lt_of_le_of_lt hlen (by decide), h⟩
  rw [if_pos ⟨by simp, hsum, hlen⟩] at hparse
  rw [cmemAnalyzeReadLeaks, fileOf, hparse]
  show some (readRecords (min es.length 1048576) (es.flatMap Entry.record)) = _
  rw [readRecords_records, List.take_of_length_le (by omega)]

/-- Nothing is allocated. -/
def emptyHeap : Heap := ⟨1, fun _ => none, Nat.one_pos, rfl, fun _ _ => rfl⟩

/-- Every allocation succeeds. -/
def granted : Answers := ⟨true, true, fun _ => true⟩

/-- The two largest of three records are asked for, and the third one has a file name. -/
theorem top_leaks_owned_silent :
    Owned fallingOrder (fileOf [silent, narrow, wide]) 2 granted emptyHeap
    ([silent, narrow, wide].map fun e => readRecord e.record) := by
  have hfits : ∀ e ∈ [silent, narrow, wide], e.Fits :=
    List.forall_mem_cons.mpr ⟨⟨by decide, by decide, by decide, by decide⟩,
      List.forall_mem_cons.mpr ⟨⟨by decide, by decide, by decide, by decide⟩,
        List.forall_mem_singleton.mpr ⟨by decide, by decide, by decide, by decide⟩⟩⟩
  have hread := readLeaks_fileOf hfits (by decide) (by decide)
  exact (top_leaks_owned_iff fallingOrder_sorts hread).mpr ⟨List.cons_ne_nil _ _, ⟨rfl, rfl⟩,
    by decide +kernel⟩

/-- The one entry is returned with a pointer to its file name, which has been freed. -/
theorem named_leak_dangles :
    cmemAnalyzeReadLeaks (fileOf [named]) = some [readRecord named.record] ∧
      ¬Owned fallingOrder (fileOf [named]) 0 granted emptyHeap [readRecord named.record] := by
  have hfits : ∀ e ∈ [named], e.Fits :=
    List.forall_mem_singleton.mpr ⟨by decide, by decide, by decide, by decide⟩
  have hread : cmemAnalyzeReadLeaks (fileOf [named]) = some [readRecord named.record] :=
    readLeaks_fileOf hfits (by decide) (by decide)
  refine ⟨hread, fun ho => ?_⟩
  have htop : topOf fallingOrder 0 [readRecord named.record] = [readRecord named.record] := by
    rw [topOf, List.perm_singleton.mp (sortBy_perm fallingOrder_sorts _ _)]
    rfl
  have htexts := ho.texts fallingOrder_sorts hread (List.cons_ne_nil _ _) rfl rfl
  rw [htop] at htexts
  exact absurd (htexts _ List.mem_cons_self).1 (by decide +kernel)

end Cmem.L4.TopLeaks

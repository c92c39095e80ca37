import Cmem.L3Pool.Compact

/-!
# The regions of a pool, and its hot pages

`mp_enumerate_regions` (src/src/cmem_alloc.c:1770-1828), `mp_mark_page_hot`, `mp_mark_page_cold`
and the counts of hot and cold pages (src/src/cmem_slab.c:1711-1925) of a pool whose slab pages
come and go as in `Cmem.L3.Compact`. All of them walk the partial and the full lists of the
classes. A page whose slots are all free waits on a third list, which none of them reads: it is
not reported, cannot be marked and is not counted, and it keeps its mark until it is used again.

Results:
* `enumerate_exact`: for a buffer of any size, the regions are the first of one list, whose pages
  do not meet; it has every page but those that wait, the arenas and the reserve, and each slot of
  a block or a cache is in a page of it. Hot and cold pages are counted as it has them.
* `mark_exact`: a mark succeeds just for the pages that are reported, and changes one region.
-/
namespace Cmem.L3.Compact
open Cmem.L2.Slab

/-- `mp_alloc_type_t` of a region -/
inductive RegionType where
  | slab
  | tlsf
  | emergency
  deriving DecidableEq

/-- `mp_region_info_t` -/
structure Region where
  base : Nat
  size : Nat
  type : RegionType
  slabClass : Nat
  isHot : Bool
  deriving DecidableEq

structure Regions where
  slabs : Pool
  /-- `is_hot` of a page -/
  isHot : Nat → Bool
  /-- `raw_area` and `raw_size` of the arenas, from `tlsf_root` on -/
  arenas : List (Nat × Nat)
  /-- `emergency_buf`; 0 is NULL -/
  emergencyBuf : Nat
  emergencySize : Nat
  /-- `MP_FLAG_HOT_COLD_SEPARATION` -/
  separation : Bool

namespace Regions

/-! ## The code -/

/-- What is reported of a page. -/
def page (s : Regions) (cls p : Nat) : Region := ⟨p, 65536, .slab, cls, s.isHot p⟩

/-- `while (curr && count < max_regions)` -/
def pageLoop (s : Regions) (max cls : Nat) : Nat → Nat → List Region → Option (List Region)
  | 0, curr, rs => if curr = 0 ∨ max ≤ rs.length then some rs else none
  | n + 1, curr, rs =>
    if curr = 0 ∨ max ≤ rs.length then some rs
    else pageLoop s max cls n ((s.slabs.cls cls).next curr) (rs ++ [s.page cls curr])

def classLoop (s : Regions) (max n : Nat) : List Nat → List Region → Option (List Region)
  | [], rs => some rs
  | i :: is, rs =>
    if max ≤ rs.length then some rs
    else
      match s.pageLoop max i n (s.slabs.cls i).partialPages rs with
      | none => none
      | some rs =>
        match s.pageLoop max i n (s.slabs.cls i).fullPages rs with
        | none => none
        | some rs => classLoop s max n is rs

def arenaLoop (max : Nat) : List (Nat × Nat) → List Region → List Region
  | [], rs => rs
  | (base, size) :: l, rs =>
    if max ≤ rs.length then rs else arenaLoop max l (rs ++ [⟨base, size, .tlsf, 0, false⟩])

/-- mirrors `mp_enumerate_regions`, src/src/cmem_alloc.c:1770-1828 -/
def mpEnumerateRegions (max n : Nat) (s : Regions) : Option (List Region) :=
  if max = 0 then some []
  else
    match s.classLoop max n classes [] with
    | none => none
    | some rs =>
      let rs := arenaLoop max s.arenas rs
      if s.emergencyBuf ≠ 0 ∧ rs.length < max then
        some (rs ++ [⟨s.emergencyBuf, s.emergencySize, .emergency, 0, false⟩])
      else some rs

/-- The loop that looks for a page on a list. -/
def findPage (s : Regions) (cls p : Nat) : Nat → Nat → Option Bool
  | 0, curr => if curr = 0 then some false else none
  | n + 1, curr =>
    if curr = 0 then some false
    else if curr = p then some true
    else findPage s cls p n ((s.slabs.cls cls).next curr)

def findClasses (s : Regions) (p n : Nat) : List Nat → Option Bool
  | [] => some false
  | i :: is =>
    match s.findPage i p n (s.slabs.cls i).partialPages with
    | none => none
    | some true => some true
    | some false =>
      match s.findPage i p n (s.slabs.cls i).fullPages with
      | none => none
      | some true => some true
      | some false => findClasses s p n is

/-- The search, and the mark. -/
def markPage (v : Bool) (p n : Nat) (s : Regions) : Option (Regions × Bool) :=
  if p = 0 then some (s, false)
  else
    match s.findClasses p n classes with
    | none => none
    | some true => some ({ s with isHot := Function.update s.isHot p v }, true)
    | some false => some (s, false)

/-- mirrors `mp_mark_page_hot`, src/src/cmem_slab.c:1711-1750 -/
def mpMarkPageHot : Nat → Nat → Regions → Option (Regions × Bool) := markPage true

/-- mirrors `mp_mark_page_cold`, src/src/cmem_slab.c:1762-1801 -/
def mpMarkPageCold : Nat → Nat → Regions → Option (Regions × Bool) := markPage false

/-- The loops over all pages that a count makes. -/
def foldPages {α : Type} (s : Regions) (f : α → Nat → α) (n : Nat) : List Nat → α → Option α
  | [], count => some count
  | i :: is, count =>
    match visited (s.slabs.cls i).next n (s.slabs.cls i).partialPages with
    | none => none
    | some ps =>
      match visited (s.slabs.cls i).next n (s.slabs.cls i).fullPages with
      | none => none
      | some fs => foldPages s f n is (fs.foldl f (ps.foldl f count))

/-- mirrors `mp_get_hot_page_count`, src/src/cmem_slab.c:1809-1836 -/
def mpGetHotPageCount (n : Nat) (s : Regions) : Option Nat :=
  s.foldPages (fun count p => if s.isHot p then count + 1 else count) n classes 0

/-- mirrors `mp_get_cold_page_count`, src/src/cmem_slab.c:1847-1879, with `total` and `hot` -/
def mpGetColdPageCount (n : Nat) (s : Regions) : Option Nat :=
  (s.foldPages (fun (total, hot) p => (total + 1, if s.isHot p then hot + 1 else hot)) n classes
    (0, 0)).map
    fun (total, hot) => if hot < total then total - hot else 0

/-- mirrors `mp_separate_hot_cold_pages`, src/src/cmem_slab.c:1891-1923 -/
def mpSeparateHotColdPages (n : Nat) (s : Regions) : Option Nat :=
  if s.separation = false then some 0
  else s.foldPages (fun count p => if s.isHot p then count else count + 1) n classes 0

/-! ## The system -/

/-- A step of the slab pages, a mark, an arena, and the reserve. -/
inductive Act where
  | slab (l : Compact.Act)
  | mark (v : Bool) (p n : Nat)
  | addArena (base size : Nat)
  | setReserve (base size : Nat)

/-- A page the system has just given is cold. -/
def next (s : Regions) : Act → Regions
  | .slab l =>
    let slabs := s.slabs.next l
    { s with
      slabs
      isHot := fun p => s.isHot p &&
        !classes.any fun i => decide (p ∈ slabs.pages i ∧ p ∉ s.slabs.pages i) }
  | .mark v p n => ((s.markPage v p n).map Prod.fst).getD s
  | .addArena base size => { s with arenas := (base, size) :: s.arenas }
  | .setReserve base size => { s with emergencyBuf := base, emergencySize := size }

def pre (s : Regions) : Act → Prop
  | .slab l => s.slabs.pre l
  | .mark v p n => (s.markPage v p n).isSome
  | .addArena _ _ | .setReserve _ _ => True

def Quiet (s : Regions) : Act → Prop
  | .slab l => Compact.Quiet s.slabs l
  | _ => True

def system : LTS Regions Act :=
  .det (fun s => ∃ isStatic canary sizes separation,
    s = ⟨.start isStatic canary sizes, fun _ => false, [], 0, 0, separation⟩ ∧
    s.slabs.Fits) pre next

end Regions

/-! ## What the loops do -/

section Loops
variable {s : Regions} {l : List Nat} {rs : List Region} {max cls curr n p : Nat} {α : Type}

/-- A buffer that is full is left alone. -/
theorem take_append_take {β : Type} (l k : List β) :
    ((l.take max) ++ k).take max = (l ++ k).take max := by
  rw [List.take_append, List.take_append, List.take_take, Nat.min_self, List.length_take]
  by_cases h : l.length ≤ max
  · rw [Nat.min_eq_right h]
  · rw [Nat.min_eq_left (by omega), show max - l.length = 0 by omega, Nat.sub_self]

theorem take_full {β : Type} {l : List β} (k : List β) (h : l.length = max) :
    (l ++ k).take max = l := by
  rw [List.take_append_of_le_length (Nat.le_of_eq h.symm), List.take_of_length_le (Nat.le_of_eq h)]

theorem pageLoop_eq (h : Chain (s.slabs.cls cls).next curr l) (hlen : l.length ≤ n)
    (hrs : rs.length ≤ max) :
    s.pageLoop max cls n curr rs = some ((rs ++ l.map (s.page cls)).take max) := by
  induction l generalizing curr n rs with
  | nil =>
    have h0 : curr = 0 := h
    rw [List.map_nil, List.append_nil, List.take_of_length_le hrs]
    cases n with
    | zero => exact if_pos (.inl h0)
    | succ n => exact if_pos (.inl h0)
  | cons q l ih =>
    obtain ⟨rfl, h0, hl⟩ := h
    obtain ⟨n, rfl⟩ : ∃ k, n = k + 1 := ⟨n - 1, by simp only [List.length_cons] at hlen; omega⟩
    unfold Regions.pageLoop
    by_cases hfull : max ≤ rs.length
    · rw [if_pos (.inr hfull), take_full _ (by omega)]
    · rw [if_neg (by simp only [h0, hfull, or_self, not_false_eq_true]),
        ih hl (Nat.le_of_succ_le_succ hlen)
          (by rw [List.length_append, List.length_singleton]; omega),
        List.append_assoc, List.map_cons]
      rfl

theorem arenaLoop_eq (l : List (Nat × Nat)) (hrs : rs.length ≤ max) :
    Regions.arenaLoop max l rs =
      (rs ++ l.map fun a => (⟨a.1, a.2, .tlsf, 0, false⟩ : Region)).take max := by
  induction l generalizing rs with
  | nil => rw [List.map_nil, List.append_nil, List.take_of_length_le hrs]; rfl
  | cons a l ih =>
    unfold Regions.arenaLoop
    by_cases hfull : max ≤ rs.length
    · rw [if_pos hfull, take_full _ (by omega)]
    · rw [if_neg hfull, ih (by rw [List.length_append, List.length_singleton]; omega),
        List.append_assoc, List.map_cons]
      rfl

theorem findPage_eq (h : Chain (s.slabs.cls cls).next curr l) (hlen : l.length ≤ n) :
    s.findPage cls p n curr = some (decide (p ∈ l)) := by
  induction l generalizing curr n with
  | nil =>
    have h0 : curr = 0 := h
    cases n with
    | zero => exact if_pos h0
    | succ n => exact if_pos h0
  | cons q l ih =>
    obtain ⟨rfl, h0, hl⟩ := h
    obtain ⟨n, rfl⟩ : ∃ k, n = k + 1 := ⟨n - 1, by simp only [List.length_cons] at hlen; omega⟩
    unfold Regions.findPage
    rw [if_neg h0]
    by_cases hp : curr = p
    · rw [if_pos hp, decide_eq_true (List.mem_cons.mpr (.inl hp.symm))]
    · rw [if_neg hp, ih hl (Nat.le_of_succ_le_succ hlen)]
      congr 1
      exact decide_eq_decide.mpr (by rw [List.mem_cons, or_iff_right (Ne.symm hp)])

variable {ps fs es out : Nat → List Nat} {is : List Nat}

/-- The lists of a class fit the turns. -/
theorem Known.lists {q : Pool} {i : Nat} (h : Known q n ps fs es out i) :
    Chain (q.cls i).next (q.cls i).partialPages (ps i) ∧
    Chain (q.cls i).next (q.cls i).fullPages (fs i) ∧
      (ps i).length ≤ n ∧ (fs i).length ≤ n := by
  have hlen := h.sound.lists.split.length_eq
  have hn := h.turns
  rw [List.length_append, List.length_append] at hlen
  exact ⟨h.sound.lists.partials.chain, h.sound.lists.fulls.chain, by omega, by omega⟩

theorem classLoop_eq (h : ∀ i ∈ is, Known s.slabs n ps fs es out i) (hrs : rs.length ≤ max) :
    s.classLoop max n is rs =
      some ((rs ++ is.flatMap fun i => (ps i ++ fs i).map (s.page i)).take max) := by
  induction is generalizing rs with
  | nil => rw [List.flatMap_nil, List.append_nil, List.take_of_length_le hrs]; rfl
  | cons i is ih =>
    obtain ⟨hps, hfs, hlps, hlfs⟩ := (h i List.mem_cons_self).lists
    unfold Regions.classLoop
    by_cases hfull : max ≤ rs.length
    · rw [if_pos hfull, take_full _ (by omega)]
    · rw [if_neg hfull, pageLoop_eq hps hlps hrs]
      dsimp only
      rw [pageLoop_eq hfs hlfs (List.length_take_le _ _)]
      dsimp only
      rw [ih (fun j hj => h j (List.mem_cons_of_mem _ hj)) (List.length_take_le _ _),
        take_append_take, List.append_assoc, take_append_take, List.flatMap_cons, List.map_append,
        List.append_assoc, List.append_assoc]

theorem findClasses_eq (h : ∀ i ∈ is, Known s.slabs n ps fs es out i) :
    s.findClasses p n is = some (decide (∃ i ∈ is, p ∈ ps i ++ fs i)) := by
  induction is with
  | nil => rw [decide_eq_false (by rintro ⟨i, hi, -⟩; cases hi)]; rfl
  | cons i is ih =>
    obtain ⟨hps, hfs, hlps, hlfs⟩ := (h i List.mem_cons_self).lists
    unfold Regions.findClasses
    rw [findPage_eq hps hlps, findPage_eq hfs hlfs, ih fun j hj => h j (List.mem_cons_of_mem _ hj)]
    by_cases hp : p ∈ ps i
    · have hex : ∃ j ∈ i :: is, p ∈ ps j ++ fs j :=
        ⟨i, List.mem_cons_self, List.mem_append_left _ hp⟩
      rw [decide_eq_true hp, decide_eq_true hex]
    · rw [decide_eq_false hp]
      by_cases hf : p ∈ fs i
      · have hex : ∃ j ∈ i :: is, p ∈ ps j ++ fs j :=
          ⟨i, List.mem_cons_self, List.mem_append_right _ hf⟩
        rw [decide_eq_true hf, decide_eq_true hex]
      · rw [decide_eq_false hf]
        dsimp only
        congr 1
        refine decide_eq_decide.mpr ?_
        rw [List.exists_mem_cons_iff, List.mem_append, or_iff_right (not_or.mpr ⟨hp, hf⟩)]

theorem foldPages_eq (f : α → Nat → α) (h : ∀ i ∈ is, Known s.slabs n ps fs es out i) (count : α) :
    s.foldPages f n is count = some ((is.flatMap fun i => ps i ++ fs i).foldl f count) := by
  induction is generalizing count with
  | nil => rfl
  | cons i is ih =>
    obtain ⟨hps, hfs, hlps, hlfs⟩ := (h i List.mem_cons_self).lists
    unfold Regions.foldPages
    rw [visited_eq hps hlps, visited_eq hfs hlfs]
    dsimp only
    rw [ih fun j hj => h j (List.mem_cons_of_mem _ hj), List.flatMap_cons, List.foldl_append,
      List.foldl_append]

end Loops

/-! ## Pages of different classes -/

section Pages
variable {s s' : Pool} {i j n p : Nat} {is : List Nat}

theorem pageFor_made {linked : Bool} {answer : Option Nat}
    (h : p ∈ (s.pageFor i linked answer).1.made) : answer = some p := by
  unfold Pool.pageFor Refill.drainPage Refill.directPage Refill.createPage at h
  cases answer with
  | none => cases linked <;> simp only at h <;> grind
  | some q => cases linked <;> simp only at h <;> grind

theorem pages_take {linked cached : Bool} {answer : Option Nat}
    (h : p ∈ (s.take i linked answer cached).pages j) :
    p ∈ s.pages j ∨ j = i ∧ answer = some p := by
  have hpages : (s.take i linked answer cached).pages j =
      Function.update s.pages i ((s.pageFor i linked answer).1.made ++ s.pages i) j := by
    unfold Pool.take
    dsimp only
    split
    · rfl
    · split
      · rfl
      · split <;> rfl
  rw [hpages] at h
  by_cases he : j = i
  · subst he
    rw [Function.update_self, List.mem_append] at h
    exact h.elim (fun hm => .inr ⟨rfl, pageFor_made hm⟩) .inl
  · rw [Function.update_of_ne he] at h
    exact .inl h

theorem resetClasses_pages (h : s.resetClasses n is = some s') : s'.pages = s.pages := by
  induction is generalizing s with
  | nil => rw [← Option.some.inj h]
  | cons i is ih =>
    unfold Pool.resetClasses at h
    split at h
    · cases h
    · exact (ih h).trans rfl

theorem purgeClasses_pages {pageSz : Nat} (h : s.purgeClasses pageSz n is = some s') :
    s'.pages = s.pages := by
  induction is generalizing s with
  | nil => rw [← Option.some.inj h]
  | cons i is ih =>
    unfold Pool.purgeClasses at h
    split at h
    · cases h
    · exact (ih h).trans rfl

theorem scanClasses_pages {due : Nat → Bool} {empties : Bool} {minPages freed idle : Nat}
    {r : Pool × Nat} (h : s.scanClasses due empties minPages n is freed idle = some r)
    (hp : p ∈ r.1.pages j) : p ∈ s.pages j := by
  induction is generalizing s freed idle with
  | nil => rwa [← Option.some.inj h] at hp
  | cons i is ih =>
    unfold Pool.scanClasses at h
    split at h
    · cases h
    · rename_i x _
      have hm : p ∈ Function.update s.pages i (remain (s.pages i) x.gone) j := ih h
      by_cases he : j = i
      · subst he
        rw [Function.update_self] at hm
        exact (mem_remain.mp hm).1
      · rwa [Function.update_of_ne he] at hm

/-- A step maps at most the page that the system gives it. -/
theorem pages_next {l : Compact.Act} (h : p ∈ (s.next l).pages j) :
    p ∈ s.pages j ∨ ∃ linked cached, l = .take j linked (some p) cached := by
  cases l with
  | take i linked answer cached =>
    rcases pages_take h with hm | ⟨rfl, rfl⟩
    · exact .inl hm
    · exact .inr ⟨linked, cached, rfl⟩
  | cache | uncache | write | setIdle | setSlabClasses => exact .inl h
  | give i slot cached =>
    refine .inl ?_
    change p ∈ (s.give i slot cached).pages j at h
    unfold Pool.give at h
    cases cached <;> exact h
  | reset n =>
    refine .inl ?_
    change p ∈ ((s.mpReset n).getD s).pages j at h
    unfold Pool.mpReset at h
    cases hres : s.resetClasses n classes with
    | none => rwa [hres] at h
    | some s' =>
      rw [hres] at h
      rw [← resetClasses_pages hres]
      exact h
  | compact due n =>
    refine .inl ?_
    change p ∈ (((s.mpCompact due n).map Prod.fst).getD s).pages j at h
    unfold Pool.mpCompact at h
    split at h
    · exact h
    · cases hres : s.scanClasses due false 0 n classes 0 0 with
      | none => rwa [hres] at h
      | some r =>
        rw [hres] at h
        exact scanClasses_pages hres h
  | reclaim due n =>
    refine .inl ?_
    change p ∈ (((s.mpReclaimIdlePages due n).map Prod.fst).getD s).pages j at h
    unfold Pool.mpReclaimIdlePages at h
    split at h
    · exact h
    · cases hres : s.scanClasses due true s.minPages n classes 0 0 with
      | none => rwa [hres] at h
      | some r =>
        rw [hres] at h
        exact scanClasses_pages hres h
  | purge pageSz n =>
    refine .inl ?_
    change p ∈ ((s.mpPurgeLazy pageSz n).getD s).pages j at h
    unfold Pool.mpPurgeLazy at h
    split at h
    · exact h
    · cases hres : s.purgeClasses pageSz n classes with
      | none => rwa [hres] at h
      | some s' =>
        rw [hres] at h
        rw [← purgeClasses_pages hres]
        exact h

/-- Pages of two classes do not meet. -/
def Distinct (s : Pool) : Prop :=
  ∀ i ∈ classes, ∀ j ∈ classes, i ≠ j → ∀ p ∈ s.pages i, ∀ q ∈ s.pages j, L2.Slab.Apart p q

theorem Distinct.next {l : Compact.Act} (h : Distinct s) (hp : s.pre l) : Distinct (s.next l) := by
  intro i hi j hj hne p hm q hq
  rcases pages_next hm with hold | ⟨linked, cached, rfl⟩
  · rcases pages_next hq with hq | ⟨linked, cached, rfl⟩
    · exact h i hi j hj hne p hold q hq
    · exact ((hp.2.2 q rfl).2.2 i hi p hold).symm
  · rcases pages_next hq with hq | ⟨linked, cached, he⟩
    · exact (hp.2.2 p rfl).2.2 j hj q hq
    · injection he with he
      exact absurd he hne

end Pages

/-! ## The results -/

structure Inv (s : Regions) : Prop where
  ok : Ok s.slabs
  distinct : Distinct s.slabs

theorem inductive_inv : (Regions.system.guard Regions.Quiet).Inductive Inv where
  init := by
    rintro s ⟨isStatic, canary, sizes, separation, rfl, hfits⟩
    exact ⟨inductive_ok.init _ ⟨isStatic, canary, sizes, rfl, hfits⟩,
      fun _ _ _ _ _ _ hp => absurd hp List.not_mem_nil⟩
  step := by
    rintro s l s' h ⟨⟨hp, rfl⟩, hq⟩
    cases l with
    | slab l => exact ⟨h.ok.next hp hq, h.distinct.next hp⟩
    | mark v p n =>
      have hslabs : (s.next (.mark v p n)).slabs = s.slabs := by
        change (((s.markPage v p n).map Prod.fst).getD s).slabs = s.slabs
        unfold Regions.markPage
        split
        · rfl
        · split <;> rfl
      exact ⟨hslabs ▸ h.ok, hslabs ▸ h.distinct⟩
    | addArena base size => exact ⟨h.ok, h.distinct⟩
    | setReserve base size => exact ⟨h.ok, h.distinct⟩

/-- What is reported besides the slab pages. -/
def Regions.others (s : Regions) : List Region :=
  s.arenas.map (fun a => ⟨a.1, a.2, .tlsf, 0, false⟩) ++
    if s.emergencyBuf ≠ 0 then [⟨s.emergencyBuf, s.emergencySize, .emergency, 0, false⟩] else []

/-- `all` is the list that the calls work from. -/
structure Enumerated (s : Regions) (all : List Region) : Prop where
  /-- a buffer gets as much of it as it holds -/
  runs : ∀ max n, s.slabs.turns ≤ n → s.mpEnumerateRegions max n = some (all.take max)
  /-- it has the pages that are on no empty list -/
  pages : ∀ r, r ∈ all ∧ r.type = .slab ↔
    ∃ i ∈ classes, ∃ p ∈ s.slabs.pages i, ¬On (s.slabs.cls i).empties p ∧ r = s.page i p
  apart : (all.filter (·.type = .slab)).Pairwise fun r q => L2.Slab.Apart r.base q.base
  rest : all.filter (·.type ≠ .slab) = s.others
  /-- a slot in a block or a cache is inside one of them -/
  slots : ∀ i ∈ classes, ∀ a ∈ s.slabs.live i ++ s.slabs.waiting i, ∃ r ∈ all, r.type = .slab ∧
    r.slabClass = i ∧ r.base + 72 ≤ a ∧ a + (s.slabs.cls i).slotTotal ≤ r.base + r.size
  hot : ∀ n, s.slabs.turns ≤ n → s.mpGetHotPageCount n = some (all.countP (·.isHot))
  cold : ∀ n, s.slabs.turns ≤ n →
    s.mpGetColdPageCount n = some (all.countP fun r => r.type = .slab ∧ r.isHot = false)
  separated : ∀ n, s.slabs.turns ≤ n → s.separation = true →
    s.mpSeparateHotColdPages n = s.mpGetColdPageCount n

section Results
variable {s s' : Regions} {c : SlabClass} {pages : List Nat} {ps fs es out : Nat → List Nat}
  {is l : List Nat}
  {i n p a : Nat}

/-- A slot ends in its page. -/
theorem slotsOf_end (h : c.totalSlots p = c.carved) (ha : a ∈ c.slotsOf p) :
    a + c.slotTotal ≤ p + 65536 := by
  obtain ⟨i, hi, rfl⟩ := List.mem_map.mp ha
  have hfit := carved_fits c
  have hi := List.mem_range.mp hi
  have hle : (i + 1) * c.slotTotal ≤ c.carved * c.slotTotal := Nat.mul_le_mul_right _ (h ▸ hi)
  rw [Nat.add_mul, Nat.one_mul] at hle
  omega

/-- The pages that the loops visit. -/
def reached (ps fs : Nat → List Nat) : List Nat := classes.flatMap fun i => ps i ++ fs i

/-- The regions of these pages, and the others. -/
def regionsOf (s : Regions) (ps fs : Nat → List Nat) : List Region :=
  (classes.flatMap fun i => (ps i ++ fs i).map (s.page i)) ++ s.others

theorem mem_others {r : Region} (h : r ∈ s.others) : r.type ≠ .slab ∧ r.isHot = false := by
  unfold Regions.others at h
  rcases List.mem_append.mp h with ha | he
  · obtain ⟨a, -, rfl⟩ := List.mem_map.mp ha
    exact ⟨nofun, rfl⟩
  · split at he
    · rw [List.mem_singleton.mp he]
      exact ⟨nofun, rfl⟩
    · cases he

theorem enumerate_eq (hk : ∀ i ∈ classes, Known s.slabs n ps fs es out i) (max : Nat) :
    s.mpEnumerateRegions max n = some ((regionsOf s ps fs).take max) := by
  unfold Regions.mpEnumerateRegions
  split
  · rename_i h0
    rw [h0, List.take_zero]
  · rw [classLoop_eq hk (Nat.zero_le _)]
    dsimp only
    rw [arenaLoop_eq _ (List.length_take_le _ _), take_append_take, List.nil_append]
    unfold regionsOf Regions.others
    rw [← List.append_assoc]
    generalize (classes.flatMap fun i => (ps i ++ fs i).map (s.page i)) ++ s.arenas.map _ = l
    by_cases h0 : s.emergencyBuf = 0
    · rw [if_neg fun h => h.1 h0, if_neg (not_not_intro h0), List.append_nil]
    · rw [if_pos h0]
      by_cases hlen : l.length < max
      · rw [List.take_of_length_le (Nat.le_of_lt hlen), if_pos ⟨h0, hlen⟩,
          List.take_of_length_le (by rw [List.length_append, List.length_singleton]; omega)]
      · rw [if_neg (by rw [List.length_take]; omega), List.take_append_of_le_length (by omega)]

/-- The lists of a sound pool; the slots that are out are those in blocks and those that wait. -/
theorem Ok.lists {q : Pool} (h : Ok q) : ∃ ps fs es : Nat → List Nat,
    ∀ i ∈ classes, ∀ n, q.turns ≤ n → Known q n ps fs es (fun i => q.live i ++ q.waiting i) i := by
  have hex : ∀ i, ∃ ps fs es, i ∈ classes →
      Sound (q.cls i) (q.pages i) ps fs es (q.live i ++ q.waiting i) := fun i => by
    by_cases hi : i ∈ classes
    · obtain ⟨ps, fs, es, hs⟩ := h.sound i hi
      exact ⟨ps, fs, es, fun _ => hs⟩
    · exact ⟨[], [], [], fun hm => absurd hm hi⟩
  choose ps fs es hs using hex
  exact ⟨ps, fs, es, fun i hi n hn => ⟨hs i hi, (length_le_turns hi).trans hn⟩⟩

/-- A page is visited unless it is on the empty list of its class. -/
theorem mem_reached (hk : Known s.slabs n ps fs es out i) :
    p ∈ ps i ++ fs i ↔ p ∈ s.slabs.pages i ∧ ¬On (s.slabs.cls i).empties p := by
  have hlists := hk.sound.lists
  rw [on_iff hlists.empties, ← hlists.split.mem_iff, List.mem_append (t := es i)]
  constructor
  · exact fun h => ⟨.inl h, List.disjoint_of_nodup_append hlists.nodup h⟩
  · exact fun h => h.1.resolve_right h.2

theorem slot_reached (hk : Known s.slabs n ps fs es out i) (ha : a ∈ out i) :
    ∃ p ∈ ps i ++ fs i, p + 72 ≤ a ∧ a + (s.slabs.cls i).slotTotal ≤ p + 65536 := by
  have hslots := hk.sound.slots
  have hpage := hslots.out a ha
  have hnot : pageBase a ∉ es i := fun he =>
    hslots.none_out hpage (hk.sound.lists.whole _ he).1 ha rfl
  obtain ⟨l, -, -, hperm⟩ := hslots.split _ hpage
  have hmem : a ∈ (s.slabs.cls i).slotsOf (pageBase a) :=
    hperm.mem_iff.mp (List.mem_append_right _ (List.mem_filter.mpr ⟨ha, decide_eq_true rfl⟩))
  refine ⟨pageBase a, (mem_reached hk).mpr ⟨hpage, ?_⟩,
    (mem_slotsOf (hslots.carved _ hpage) hmem).1, slotsOf_end (hslots.carved _ hpage) hmem⟩
  rwa [on_iff hk.sound.lists.empties]

/-- The regions of the pages do not meet. -/
theorem regions_apart (h : Distinct s.slabs) (hk : ∀ i ∈ classes, Known s.slabs n ps fs es out i) :
    (classes.flatMap fun i => (ps i ++ fs i).map (s.page i)).Pairwise fun r q =>
      L2.Slab.Apart r.base q.base := by
  refine List.pairwise_flatMap.mpr ⟨fun i hi => List.pairwise_map.mpr ?_, ?_⟩
  · have hlists := (hk i hi).sound.lists
    exact (List.pairwise_append.mp (hlists.split.pairwise_iff Or.symm |>.mpr hlists.apart)).1
  · have hne : classes.Pairwise (· ≠ ·) := by decide
    refine hne.imp_of_mem fun hi hj hij r hr q hq => ?_
    obtain ⟨p, hp, rfl⟩ := List.mem_map.mp hr
    obtain ⟨p', hp', rfl⟩ := List.mem_map.mp hq
    exact h _ hi _ hj hij p ((mem_reached (hk _ hi)).mp hp).1 p' ((mem_reached (hk _ hj)).mp hp').1

/-! ### Counting -/

theorem foldl_countP {f : Nat → Bool} (l : List Nat) (k : Nat) :
    l.foldl (fun count p => if f p then count + 1 else count) k = k + l.countP f := by
  induction l generalizing k with
  | nil => rfl
  | cons p l ih =>
    rw [List.foldl_cons, ih, List.countP_cons]
    split <;> omega

theorem foldl_hot (l : List Nat) (total k : Nat) :
    l.foldl (fun (total, hot) p => (total + 1, if s.isHot p then hot + 1 else hot)) (total, k) =
      (total + l.length, k + l.countP s.isHot) := by
  induction l generalizing total k with
  | nil => rfl
  | cons p l ih =>
    rw [List.foldl_cons, ih, List.countP_cons, List.length_cons]
    congr 1
    · omega
    · split <;> omega

/-- A count of regions is one of pages. -/
theorem countP_regions {f : Region → Bool} {g : Nat → Bool} (hpage : ∀ i p, f (s.page i p) = g p)
    (hrest : ∀ r ∈ s.others, f r = false) :
    (regionsOf s ps fs).countP f = (reached ps fs).countP g := by
  have hnone : s.others.countP f = 0 := List.countP_eq_zero.mpr fun r hr => by
    rw [hrest r hr]
    exact Bool.false_ne_true
  unfold regionsOf reached
  rw [List.countP_append, hnone, Nat.add_zero, List.countP_flatMap, List.countP_flatMap]
  congr 2
  funext i
  rw [Function.comp, List.countP_map]
  exact List.countP_congr fun p _ => by rw [Function.comp, hpage]

theorem hot_eq (hk : ∀ i ∈ classes, Known s.slabs n ps fs es out i) :
    s.mpGetHotPageCount n = some ((regionsOf s ps fs).countP (·.isHot)) := by
  have hcount : (regionsOf s ps fs).countP (·.isHot) = (reached ps fs).countP s.isHot :=
    countP_regions (fun _ _ => rfl) fun r hr => (mem_others hr).2
  rw [hcount, Regions.mpGetHotPageCount, foldPages_eq _ hk]
  exact congrArg some ((foldl_countP _ 0).trans (Nat.zero_add _))

theorem cold_eq (hk : ∀ i ∈ classes, Known s.slabs n ps fs es out i) :
    s.mpGetColdPageCount n = some ((reached ps fs).countP fun p => !s.isHot p) := by
  have hsum := (reached ps fs).length_eq_countP_add_countP s.isHot
  have hneg :
    (reached ps fs).countP (fun p => decide ¬s.isHot p) =
      (reached ps fs).countP fun p => !s.isHot p :=
    List.countP_congr fun p _ => by simp
  rw [Regions.mpGetColdPageCount, foldPages_eq _ hk]
  change some
    ((fun x : Nat × Nat => if x.2 < x.1 then x.1 - x.2 else 0) ((reached ps fs).foldl _ (0, 0))) = _
  rw [foldl_hot, Nat.zero_add, Nat.zero_add]
  dsimp only
  congr 1
  split <;> omega

theorem separated_eq (hk : ∀ i ∈ classes, Known s.slabs n ps fs es out i)
    (hs : s.separation = true) : s.mpSeparateHotColdPages n = s.mpGetColdPageCount n := by
  have hfun : (fun (count : Nat) p => if s.isHot p = true then count else count + 1) =
      fun count p => if (!s.isHot p) = true then count + 1 else count := by
    funext count p
    cases s.isHot p <;> rfl
  rw [cold_eq hk, Regions.mpSeparateHotColdPages, if_neg (by rw [hs]; decide),
    hfun, foldPages_eq _ hk]
  exact congrArg some ((foldl_countP _ 0).trans (Nat.zero_add _))

theorem enumerated (h : Inv s)
    (hk : ∀ i ∈ classes, ∀ n, s.slabs.turns ≤ n → Known s.slabs n ps fs es out i)
    (hout : ∀ i, out i = s.slabs.live i ++ s.slabs.waiting i) :
    Enumerated s (regionsOf s ps fs) := by
  have hk₀ : ∀ i ∈ classes, Known s.slabs s.slabs.turns ps fs es out i :=
    fun i hi => hk i hi _ (Nat.le_refl _)
  have hslab : ∀ r ∈ classes.flatMap fun i => (ps i ++ fs i).map (s.page i), r.type = .slab :=
    fun r hr => by
    obtain ⟨i, -, hm⟩ := List.mem_flatMap.mp hr
    obtain ⟨p, -, rfl⟩ := List.mem_map.mp hm
    rfl
  have hothers : s.others.filter (·.type = .slab) = [] :=
    List.filter_eq_nil_iff.mpr fun r hr hd => (mem_others hr).1 (of_decide_eq_true hd)
  constructor
  · exact fun max n hn => enumerate_eq (fun i hi => hk i hi n hn) max
  · intro r
    unfold regionsOf
    rw [List.mem_append]
    constructor
    · rintro ⟨hr | hr, htype⟩
      · obtain ⟨i, hi, hm⟩ := List.mem_flatMap.mp hr
        obtain ⟨p, hp, rfl⟩ := List.mem_map.mp hm
        obtain ⟨hp, hon⟩ := (mem_reached (hk₀ i hi)).mp hp
        exact ⟨i, hi, p, hp, hon, rfl⟩
      · exact absurd htype (mem_others hr).1
    · rintro ⟨i, hi, p, hp, hon, rfl⟩
      have hm := (mem_reached (hk₀ i hi)).mpr ⟨hp, hon⟩
      exact ⟨.inl (List.mem_flatMap.mpr ⟨i, hi, List.mem_map_of_mem hm⟩), rfl⟩
  · unfold regionsOf
    rw [List.filter_append, hothers, List.append_nil]
    exact (regions_apart h.distinct hk₀).sublist List.filter_sublist
  · unfold regionsOf
    have hnone :
      (classes.flatMap fun i => (ps i ++ fs i).map (s.page i)).filter (·.type ≠ .slab) = [] :=
      List.filter_eq_nil_iff.mpr fun r hr hd => (of_decide_eq_true hd : r.type ≠ .slab) (hslab r hr)
    rw [List.filter_append, hnone, List.nil_append]
    exact List.filter_eq_self.mpr fun r hr => decide_eq_true (mem_others hr).1
  · intro i hi a ha
    obtain ⟨p, hp, hfrom, hto⟩ := slot_reached (hk₀ i hi) (hout i ▸ ha)
    exact ⟨s.page i p,
      List.mem_append_left _ (List.mem_flatMap.mpr ⟨i, hi, List.mem_map_of_mem hp⟩), rfl, rfl,
      hfrom, hto⟩
  · exact fun n hn => hot_eq fun i hi => hk i hi n hn
  · intro n hn
    rw [cold_eq fun i hi => hk i hi n hn]
    refine congrArg some (countP_regions (fun i p => ?_) fun r hr => ?_).symm
    · show decide (RegionType.slab = .slab ∧ s.isHot p = false) = !s.isHot p
      cases s.isHot p <;> rfl
    · exact decide_eq_false fun hd => (mem_others hr).1 hd.1
  · exact fun n hn hs => separated_eq (fun i hi => hk i hi n hn) hs

/-- **Enumeration is exact**, in every reachable state and for every buffer: what
`mp_enumerate_regions` writes is the beginning of one list. -/
theorem enumerate_exact (hr : (Regions.system.guard Regions.Quiet).Reachable s) :
    ∃ all, Enumerated s all := by
  have h := inductive_inv.reachable hr
  obtain ⟨ps, fs, es, hk⟩ := h.ok.lists
  exact ⟨_, enumerated h hk fun _ => rfl⟩

/-! ### Marks -/

/-- A region after a mark of the page at `p`. -/
def Region.marked (v : Bool) (p : Nat) (r : Region) : Region :=
  if r.type = .slab ∧ r.base = p then { r with isHot := v } else r

theorem regionsOf_mark (s : Regions) (ps fs : Nat → List Nat) (v : Bool) (p : Nat) :
    regionsOf { s with isHot := Function.update s.isHot p v } ps fs =
      (regionsOf s ps fs).map (Region.marked v p) := by
  unfold regionsOf
  rw [List.map_append, List.map_flatMap]
  congr 1
  · refine List.flatMap_congr fun i _ => ?_
    rw [List.map_map]
    refine List.map_congr_left fun q _ => ?_
    show (⟨q, 65536, .slab, i, Function.update s.isHot p v q⟩ : Region) =
      Region.marked v p (s.page i q)
    unfold Region.marked
    by_cases hq : q = p
    · rw [if_pos ⟨rfl, hq⟩, hq, Function.update_self]
      rfl
    · rw [if_neg fun h => hq h.2, Function.update_of_ne hq]
      rfl
  · refine ((List.map_congr_left fun r hr => ?_).trans (List.map_id _)).symm
    exact if_neg fun h => (mem_others hr).1 h.1

/-- **A mark is exact**: it succeeds for the pages that are reported and no others, and changes what
is reported of that page alone. -/
theorem mark_exact (hr : (Regions.system.guard Regions.Quiet).Reachable s) :
    ∃ all, Enumerated s all ∧ ∀ v p n, s.slabs.turns ≤ n →
    ∃ s' found, s.markPage v p n = some (s', found) ∧
      (found = true ↔ ∃ r ∈ all, r.type = .slab ∧ r.base = p) ∧
      Enumerated s' (all.map (Region.marked v p)) := by
  have h := inductive_inv.reachable hr
  obtain ⟨ps, fs, es, hk⟩ := h.ok.lists
  have hall := enumerated h hk fun _ => rfl
  have hfound : ∀ p, (∃ i ∈ classes, p ∈ ps i ++ fs i) ↔
      ∃ r ∈ regionsOf s ps fs, r.type = .slab ∧ r.base = p := fun p => by
    constructor
    · rintro ⟨i, hi, hp⟩
      exact ⟨s.page i p,
        List.mem_append_left _ (List.mem_flatMap.mpr ⟨i, hi, List.mem_map_of_mem hp⟩), rfl, rfl⟩
    · rintro ⟨r, hm, htype, rfl⟩
      obtain ⟨i, hi, p, hp, hon, rfl⟩ := (hall.pages r).mp ⟨hm, htype⟩
      exact ⟨i, hi, (mem_reached (hk i hi _ (Nat.le_refl _))).mpr ⟨hp, hon⟩⟩
  have hsame : ∀ v p, (¬∃ r ∈ regionsOf s ps fs, r.type = .slab ∧ r.base = p) →
      (regionsOf s ps fs).map (Region.marked v p) = regionsOf s ps fs := fun v p hno => by
    refine (List.map_congr_left fun r hm => ?_).trans (List.map_id _)
    exact if_neg fun hd => hno ⟨r, hm, hd⟩
  refine ⟨_, hall, fun v p n hn => ?_⟩
  unfold Regions.markPage
  by_cases h0 : p = 0
  · have hno : ¬∃ r ∈ regionsOf s ps fs, r.type = .slab ∧ r.base = p := by
      rw [← hfound, h0]
      rintro ⟨i, hi, hp⟩
      have hlists := (hk i hi _ (Nat.le_refl _)).sound.lists
      exact (List.mem_append.mp hp).elim hlists.partials.zero_notMem hlists.fulls.zero_notMem
    exact ⟨s, false, if_pos h0, ⟨nofun, fun hex => absurd hex hno⟩, (hsame v p hno).symm ▸ hall⟩
  · rw [if_neg h0, findClasses_eq fun i hi => hk i hi n hn]
    by_cases hex : ∃ i ∈ classes, p ∈ ps i ++ fs i
    · rw [decide_eq_true hex]
      refine ⟨_, true, rfl, ⟨fun _ => (hfound p).mp hex, fun _ => rfl⟩, ?_⟩
      rw [← regionsOf_mark]
      exact enumerated ⟨h.ok, h.distinct⟩ hk fun _ => rfl
    · rw [decide_eq_false hex]
      have hno := mt (hfound p).mpr hex
      exact ⟨s, false, rfl, ⟨nofun, fun hex => absurd hex hno⟩, (hsame v p hno).symm ▸ hall⟩

end Results

/-! ### A run -/

namespace Regions

instance decPre (s : Regions) : (l : Act) → Decidable (s.pre l)
  | .slab l => Compact.decPre s.slabs l
  | .mark _ _ _ => inferInstanceAs (Decidable (_ = true))
  | .addArena _ _ | .setReserve _ _ => inferInstanceAs (Decidable True)

instance decQuiet (s : Regions) : (l : Act) → Decidable (s.Quiet l)
  | .slab l => Compact.decQuiet s.slabs l
  | .mark _ _ _ | .addArena _ _ | .setReserve _ _ => inferInstanceAs (Decidable True)

end Regions

/-- Two pages are used, the first is marked hot, and the second becomes free. -/
def enumerateRun : List Regions.Act :=
  [.addArena 1048576 65536, .slab (.take 11 true (some 65536) false),
    .slab (.take 10 true (some 131072) false), .mark true 65536 2, .slab (.give 10 131144 false)]

def enumerateState : Regions :=
  enumerateRun.foldl Regions.next ⟨newPool, fun _ => false, [], 0, 0, true⟩

theorem enumerateState_reachable : (Regions.system.guard Regions.Quiet).Reachable enumerateState :=
  LTS.Reachable.run (.init ⟨false, false, _, true, rfl, by decide⟩) (by decide +kernel)

/-- The free page is not reported. -/
theorem enumerate_exact_parked : (∃ all, Enumerated enumerateState all) ∧
    enumerateState.mpEnumerateRegions 8 2 =
      some [⟨65536, 65536, .slab, 11, true⟩, ⟨1048576, 65536, .tlsf, 0, false⟩] :=
  ⟨enumerate_exact enumerateState_reachable, by decide +kernel⟩

/-- It cannot be marked. -/
theorem mark_exact_parked : (∃ all, Enumerated enumerateState all ∧
    ∃ s' found, enumerateState.markPage true 131072 2 = some (s', found) ∧
      (found = true ↔ ∃ r ∈ all, r.type = .slab ∧ r.base = 131072) ∧
        Enumerated s' (all.map (Region.marked true 131072))) ∧
    (enumerateState.markPage true 131072 2).map Prod.snd = some false := by
  obtain ⟨all, hall, hmark⟩ := mark_exact enumerateState_reachable
  exact ⟨⟨all, hall, hmark true 131072 2 (by decide +kernel)⟩, by decide +kernel⟩

end Cmem.L3.Compact

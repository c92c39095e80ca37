import Mathlib
import Cmem.L2Slab.Refill
import Cmem.L3Pool.Pages

/-!
# The class a small request is served from

`get_slab_class_index` (src/src/cmem_internal.h:578-592) returns the first class that is large
enough, or the number of classes. The slab tier of `mp_alloc` (src/src/cmem_alloc.c:200-222) reads
its tables at this index, and takes a slot from the thread cache, the per-CPU list or the pages
of the class.

A table that `mp_set_slab_classes` accepts need not reach the 512 bytes of the tier, and a class
may be larger than a page. `TableFits` says when neither is the case.
-/
namespace Cmem.L3.Pool

open Cmem.L2.Slab

/-! ## The slab tier -/

/-- The tables the tier reads: the class table and the classes of the pool, the thread cache, and
the per-CPU lists of the CPU, if there are any. -/
structure SlabTier where
  cfg : Config
  classes : List SlabClass
  cache : List ThreadCache
  percpu : Option (List ThreadCache)

section Tier
variable (answers : Nat → Option Nat)

/-- The slots `percpu_refill` takes from the pages, src/src/cmem_slab.c:1558-1611. -/
def percpuFill : Nat → Refill → Option (Refill × List Nat)
  | 0, x => some (x, [])
  | n + 1, x =>
    let (x, page) := x.drainPage answers
    if page = 0 then some (x, [])
    else
      match x.cls.takeSlot page with
      | none => none
      | some (c, slot) => (percpuFill n { x with cls := c }).map fun r => (r.1, slot :: r.2)

/-- The links of a batch in front of a list. -/
def linkBatch (next : Nat → Nat) : List Nat → Nat → Nat → Nat
  | [], _ => next
  | [a], old => Function.update next a old
  | a :: b :: l, old => Function.update (linkBatch next (b :: l) old) a b

/-- The third tier: `slab_alloc_with_tls_refill` on the class `i`. -/
def SlabTier.refill (x : SlabTier) (i : Nat) (y : Refill) : Option (SlabTier × Nat) :=
  (slabAllocWithTlsRefill answers y).map fun r =>
    ({ x with classes := x.classes.set i r.1.cls, cache := x.cache.set i r.1.cache }, r.2)

/-- The slab tier, src/src/cmem_alloc.c:208-222; `none` when it reads behind one of its tables or
follows a null pointer. -/
def slabTier (x : SlabTier) (size : Nat) : Option (SlabTier × Nat) :=
  let i := x.cfg.classIndex size
  match x.cache[i]?, x.classes[i]? with
  | some t, some c =>
    if 0 < t.count then
      if t.slots = 0 then none
      else some ({ x with cache := x.cache.set i ⟨c.slotNext t.slots, t.count - 1⟩ }, t.slots)
    else
      match x.percpu with
      | none => x.refill answers i ⟨c, t, 0, []⟩
      | some entries =>
        match entries[i]? with
        | none => none
        | some e =>
          if e.slots ≠ 0 then
            some
              ({ x with percpu := some (entries.set i ⟨c.slotNext e.slots, e.count - 1⟩) }, e.slots)
          else if 8 < e.count then x.refill answers i ⟨c, t, 0, []⟩
          else
            match percpuFill answers 16 ⟨c, t, 0, []⟩ with
            | none => none
            | some (y, []) => x.refill answers i y
            | some (y, slot :: slots) =>
              let next := linkBatch y.cls.slotNext (slot :: slots) e.slots
              some ({ x with
                classes := x.classes.set i { y.cls with slotNext := next }
                percpu := some (entries.set i ⟨next slot, e.count + slots.length⟩) }, slot)
  | _, _ => none

/-- The tables are complete, the page lists are sound, and a list that counts slots has them. -/
structure SlabTier.Ok (x : SlabTier) : Prop where
  classes : x.classes.length = classCount
  cache : x.cache.length = classCount
  percpu : ∀ entries ∈ x.percpu, entries.length = classCount
  cls : ∀ i c, x.classes[i]? = some c → c.slotSize = x.cfg.classSize i ∧ c.canary = x.cfg.canary ∧
    ∃ pages, PagesOk c pages ∧ Fresh answers pages
  slots : ∀ t ∈ x.cache, t.count ≠ 0 → t.slots ≠ 0

end Tier

/-- A pool without pages, and an empty thread cache. -/
def SlabTier.fresh (c : Config) : SlabTier where
  cfg := c
  classes :=
    (List.range classCount).map fun i =>
      { newClass with slotSize := c.classSize i, canary := c.canary }
  cache := List.replicate classCount ⟨0, 0⟩
  percpu := none

section TierSafe
variable {answers : Nat → Option Nat} {pages : List Nat} {x : Refill} {n : Nat}

theorem drain_runs (hf : Fresh answers pages) (h : L2.Slab.Ready answers pages x)
    (hc : 0 < x.cls.carved) (n : Nat) :
    ∃ x', tlsCacheDrainSlots answers (n + 1) x = some x' ∧ L2.Slab.Ready answers pages x' ∧
      (0 < x'.cache.count ∧ x'.cache.slots ≠ 0 ∨ x'.cls = x.cls ∧ x'.cache = x.cache) := by
  by_cases hs : Stuck answers x
  · refine ⟨_, drain_stuck hs, ⟨h.ok, fun p hp => ?_⟩, .inr ⟨rfl, rfl⟩⟩
    obtain ⟨i, hi, ha⟩ := h.made p hp
    exact ⟨i, Nat.lt_succ_of_lt hi, ha⟩
  · obtain ⟨x', he, hr, h1, h2⟩ := drain_ok hf h hs (.inl hc)
    exact ⟨x', he, hr, .inl ⟨h1, h2⟩⟩

/-- A page whose class has slots has one when it is new. -/
theorem direct_runs (hf : Fresh answers pages) (h : L2.Slab.Ready answers pages x)
    (hc : 0 < x.cls.carved) : Refill.direct answers x ≠ none := by
  unfold Refill.direct Refill.directPage
  by_cases hp : x.cls.partialPages = 0
  · rw [if_neg (not_not_intro hp)]
    by_cases he : x.cls.emptyPages = 0
    · rw [if_neg (not_not_intro he), Refill.createPage]
      cases ha : answers x.asked with
      | none => exact Option.some_ne_none _
      | some p =>
        have hlist : (x.cls.createPage p).freeList p = p + 72 := Function.update_self ..
        dsimp only
        rw [if_neg (h.fresh hf ha).1, SlabClass.takeSlot, if_neg (by omega)]
        exact Option.some_ne_none _
    · obtain ⟨x', p, ps, fs, es, hd, hp0, hl, hs, hle, -⟩ :=
        h.drainPage hf (fun hs => he hs.2.1) (.inl hc)
      rw [Refill.drainPage, if_neg (not_not_intro hp), if_pos he] at hd
      rw [if_pos he, hd]
      obtain ⟨c', htake, -⟩ := hl.takeSlot hs hle
      dsimp only
      rw [if_neg hp0, htake]
      exact Option.some_ne_none _
  · obtain ⟨x', p, ps, fs, es, hd, hp0, hl, hs, hle, -⟩ :=
      h.drainPage hf (fun hs => hp hs.1) (.inl hc)
    rw [Refill.drainPage, if_pos hp] at hd
    rw [if_pos hp, hd]
    obtain ⟨c', htake, -⟩ := hl.takeSlot hs hle
    dsimp only
    rw [if_neg hp0, htake]
    exact Option.some_ne_none _

theorem refill_runs (hf : Fresh answers pages) (h : L2.Slab.Ready answers pages x)
    (hc : 0 < x.cls.carved) (ht : x.cache.count ≠ 0 → x.cache.slots ≠ 0) :
    slabAllocWithTlsRefill answers x ≠ none := by
  obtain ⟨x', he, hr, hx'⟩ := drain_runs hf h hc 63
  unfold slabAllocWithTlsRefill
  rw [he]
  dsimp only
  rcases hx' with ⟨h1, h2⟩ | ⟨hcls, hcache⟩
  · rw [if_pos h1, if_neg h2]
    exact Option.some_ne_none _
  · rw [hcache]
    by_cases h0 : 0 < x.cache.count
    · rw [if_pos h0, if_neg (ht (Nat.pos_iff_ne_zero.mp h0))]
      exact Option.some_ne_none _
    · rw [if_neg h0]
      exact direct_runs hf hr (hcls ▸ hc)

theorem percpuFill_runs (hf : Fresh answers pages) (h : L2.Slab.Ready answers pages x)
    (hc : 0 < x.cls.carved) (n : Nat) :
    ∃ y l, percpuFill answers n x = some (y, l) ∧ L2.Slab.Ready answers pages y ∧
    y.cls.carved = x.cls.carved ∧
      y.cache = x.cache := by
  induction n generalizing x with
  | zero => exact ⟨x, [], rfl, h, rfl, rfl⟩
  | succ n ih =>
    rw [percpuFill]
    by_cases hs : Stuck answers x
    · obtain ⟨hp, he, ha⟩ := hs
      rw [Refill.drainPage, if_neg (not_not_intro hp), if_neg (not_not_intro he),
        Refill.createPage, ha]
      refine ⟨_, [], rfl, ⟨h.ok, fun p hp => ?_⟩, rfl, rfl⟩
      obtain ⟨i, hi, hip⟩ := h.made p hp
      exact ⟨i, Nat.lt_succ_of_lt hi, hip⟩
    · obtain ⟨x', p, ps, fs, es, hd, hp0, hl, hs', hle, hcache, hcarved, hmade, -⟩ :=
        h.drainPage hf hs (.inl hc)
      obtain ⟨c, htake, -, hok, -, hc'⟩ := hl.takeSlot hs' hle
      have hsame := hok (c.slotNext (x'.cls.freeList p))
      rw [Function.update_eq_self] at hsame
      obtain ⟨y, l, hy, hr, h1, h2⟩ :=
        ih (x := { x' with cls := c }) ⟨hsame, hmade⟩ (by rw [hc', hcarved]; exact hc)
      rw [hd]
      dsimp only
      rw [if_neg hp0, htake]
      dsimp only
      rw [hy]
      exact ⟨y, _, rfl, hr, h1.trans (hc'.trans hcarved), h2.trans hcache⟩

theorem SlabTier.fresh_ok (c : Config) (hf : Fresh answers []) : (SlabTier.fresh c).Ok answers where
  classes := by rw [SlabTier.fresh, List.length_map, List.length_range]
  cache := by rw [SlabTier.fresh, List.length_replicate]
  percpu := nofun
  cls i d hd := by
    rw [SlabTier.fresh, List.getElem?_map] at hd
    obtain ⟨j, hj, rfl⟩ := Option.map_eq_some_iff.mp hd
    obtain ⟨hi, he⟩ := List.getElem?_eq_some_iff.mp hj
    rw [List.getElem_range] at he
    subst he
    refine ⟨rfl, rfl, [],
      ⟨[], [], [], ⟨.refl _, ?_, ?_, ?_, .nil, nofun, nofun, nofun, rfl, nofun⟩, nofun⟩, hf⟩
    all_goals exact DL.is_nil_iff.mpr rfl
  slots t ht h := absurd (congrArg ThreadCache.count (List.eq_of_mem_replicate ht)) h

/-- **The slab tier** stays in its tables and finds no null pointer, when the class exists and its
pages have slots. -/
theorem slabTier_runs {x : SlabTier} {size : Nat} (h : x.Ok answers)
    (hi : x.cfg.classIndex size < classCount)
    (hc : ∀ c, x.classes[x.cfg.classIndex size]? = some c → 0 < c.carved) :
    slabTier answers x size ≠ none := by
  unfold slabTier
  generalize x.cfg.classIndex size = i at *
  obtain ⟨t, ht⟩ : ∃ t, x.cache[i]? = some t :=
    ⟨_, List.getElem?_eq_getElem (by rw [h.cache]; exact hi)⟩
  obtain ⟨c, hcls⟩ : ∃ c, x.classes[i]? = some c :=
    ⟨_, List.getElem?_eq_getElem (by rw [h.classes]; exact hi)⟩
  obtain ⟨-, -, pages, hok, hf⟩ := h.cls i c hcls
  have hslots := h.slots t (List.mem_of_getElem? ht)
  have hready : L2.Slab.Ready answers pages ⟨c, t, 0, []⟩ := ⟨hok, nofun⟩
  have hrefill : x.refill answers i ⟨c, t, 0, []⟩ ≠ none :=
    fun hn => refill_runs hf hready (hc c hcls) hslots (Option.map_eq_none_iff.mp hn)
  dsimp only
  rw [ht, hcls]
  dsimp only
  split
  · rw [if_neg (hslots (by omega))]
    exact Option.some_ne_none _
  · cases hp : x.percpu with
    | none => exact hrefill
    | some entries =>
      obtain ⟨e, he⟩ : ∃ e, entries[i]? = some e :=
        ⟨_, List.getElem?_eq_getElem (by rw [h.percpu entries hp]; exact hi)⟩
      dsimp only
      rw [he]
      dsimp only
      split
      · exact Option.some_ne_none _
      · split
        · exact hrefill
        · obtain ⟨y, l, hy, hr, hcarved, hcache⟩ := percpuFill_runs hf hready (hc c hcls) 16
          rw [hy]
          cases l with
          | cons slot slots => exact Option.some_ne_none _
          | nil =>
            refine fun hn => refill_runs hf hr ?_ ?_ (Option.map_eq_none_iff.mp hn)
            · rw [hcarved]
              exact hc c hcls
            · rw [hcache]
              exact hslots

end TierSafe

/-! ## Tables -/

/-- A size of the slab tier has a class that is large enough and whose pages have slots, and the
tier serves it without a fault. -/
structure Served (c : Config) (size : Nat) : Prop where
  index : c.classIndex size < classCount
  large : size ≤ c.classSize (c.classIndex size)
  carves : ∀ base, 0 < (slabCreatePage c (c.classIndex size) base).total
  runs : ∀ answers x, x.cfg = c → SlabTier.Ok answers x → slabTier answers x size ≠ none

/-- A page has a slot of a class of this size: the slot fits, or its size wraps. -/
def Carves (c : Config) (v : Nat) : Prop :=
  v + c.canaryLen ≤ 65312 ∨ 2 ^ 64 + 8 ≤ v + c.canaryLen + 159

/-- The classes reach the sizes of the tier, with the first one that does no larger than a page:
one of the table, or one that doubling gives. -/
def TableFits (c : Config) (sizes : List Nat) : Prop :=
  (∃ n ∈ sizes, slabMaxSize ≤ n ∧ (∀ m ∈ sizes, slabMaxSize ≤ m → n ≤ m) ∧ Carves c n) ∨
    (∀ n ∈ sizes, n < slabMaxSize) ∧
    slabMaxSize ≤ sizes.getLastD 0 * 2 ^ (classCount - sizes.length)

section Tables
variable {c c' : Config} {sizes l : List Nat} {cls size v k : Nat}

/-- The table with the doubled classes. -/
def filled (sizes : List Nat) : List Nat :=
  sizes ++ (List.range (classCount - sizes.length)).map fun j =>
    wrap (sizes.getLastD 0 * 2 ^ (j + 1))

theorem foldl_double (h0 : sizes ≠ []) (hs : ∀ n ∈ sizes, n < 2 ^ 64) (m : Nat) :
    (List.range m).foldl (fun l _ => l ++ [wrap (l.getLastD 0 * 2)]) sizes =
      sizes ++ (List.range m).map fun j => wrap (sizes.getLastD 0 * 2 ^ (j + 1)) := by
  induction m with
  | zero => exact (List.append_nil _).symm
  | succ m ih =>
    rw [List.range_succ, List.foldl_append, ih, List.map_append, ← List.append_assoc]
    refine congrArg (_ ++ [·]) ?_
    have hlast :
        (sizes ++ (List.range m).map fun j => wrap (sizes.getLastD 0 * 2 ^ (j + 1))).getLastD 0 =
          wrap (sizes.getLastD 0 * 2 ^ m) := by
      cases m with
      | zero =>
        obtain ⟨a, l, rfl⟩ := List.exists_cons_of_ne_nil h0
        have hmem : (a :: l).getLastD 0 ∈ a :: l := by
          rw [List.getLastD_cons]
          exact List.getLastD_mem_cons
        rw [Nat.pow_zero, Nat.mul_one, wrap, Nat.mod_eq_of_lt (hs _ hmem)]
        exact congrArg (List.getLastD · 0) (List.append_nil _)
      | succ m =>
        rw [List.range_succ, List.map_append, ← List.append_assoc, List.map_singleton]
        exact List.getLastD_concat
    rw [hlast]
    unfold wrap
    rw [Nat.mod_mul_mod, Nat.mul_assoc, ← Nat.pow_succ]

theorem mpSetSlabClasses_some (hs : ∀ n ∈ sizes, n < 2 ^ 64)
    (h : mpSetSlabClasses c sizes = some c') :
    sizes ≠ [] ∧ sizes.length ≤ classCount ∧ sizes.Pairwise (· < ·) ∧
      c' = { c with customClasses := some (filled sizes) } := by
  unfold mpSetSlabClasses at h
  split at h
  · cases h
  · rename_i hok
    simp only [not_or, not_not, Nat.not_lt] at hok
    obtain ⟨h0, hlen, -, hp⟩ := hok
    rw [foldl_double h0 hs] at h
    exact ⟨h0, hlen, hp, (Option.some.inj h).symm⟩

theorem carves_iff (hv : v < 2 ^ 64) :
    0 < (slabPageSize - pageHeader) / (wrap (headerSize + v + c.canaryLen + 7) / 8 * 8) ↔
    Carves c v := by
  have hcan : c.canaryLen ≤ 1 := by
    unfold Config.canaryLen
    split <;> omega
  rw [Nat.div_pos_iff]
  unfold Carves wrap slabPageSize pageHeader headerSize
  omega

/-- What the class of the first size that is large enough looks like. -/
theorem classIndex_filled (c' : Config) (hc : c'.customClasses = some l)
    (hk : l.findIdx (slabMaxSize ≤ ·) < l.length) (hsize : size ≤ slabMaxSize) :
    c'.classIndex size ≤ l.findIdx (slabMaxSize ≤ ·) ∧
      (c'.classIndex size < l.findIdx (slabMaxSize ≤ ·) →
        c'.classSize (c'.classIndex size) < slabMaxSize) ∧
      size ≤ c'.classSize (c'.classIndex size) := by
  have hidx : c'.classIndex size = l.findIdx (size ≤ ·) := by
    unfold Config.classIndex
    rw [hc]
  have hcls : ∀ i (h : i < l.length), c'.classSize i = l[i] := fun i h => by
    rw [Config.classSize, hc, Option.getD_some, List.getElem?_eq_getElem h, Option.getD_some]
  have hle : l.findIdx (size ≤ ·) ≤ l.findIdx (slabMaxSize ≤ ·) :=
    List.findIdx_le_findIdx fun x _ hx => by
    simp only [decide_eq_true_eq] at *
    omega
  rw [hidx]
  refine ⟨hle, fun hlt => ?_, ?_⟩
  · rw [hcls _ (by omega)]
    simpa using List.not_of_lt_findIdx hlt
  · rw [hcls _ (by omega)]
    have hlt : l.findIdx (size ≤ ·) < l.length := Nat.lt_of_le_of_lt hle hk
    simpa using List.findIdx_getElem (w := hlt)

theorem filled_length (h : sizes.length ≤ classCount) : (filled sizes).length = classCount := by
  rw [filled, List.length_append, List.length_map, List.length_range]
  omega

theorem filled_lt (hs : ∀ n ∈ sizes, n < 2 ^ 64) : ∀ n ∈ filled sizes, n < 2 ^ 64 := by
  intro n hn
  rcases List.mem_append.mp hn with hn | hn
  · exact hs n hn
  · obtain ⟨j, -, rfl⟩ := List.mem_map.mp hn
    exact Nat.mod_lt _ (by decide)

/-- The first large class is one of the given ones. -/
theorem tableFits_given (hp : sizes.Pairwise (· < ·))
    (hk : sizes.findIdx (slabMaxSize ≤ ·) < sizes.length) :
    TableFits c sizes ↔ Carves c sizes[sizes.findIdx (slabMaxSize ≤ ·)] := by
  have hge : slabMaxSize ≤ sizes[sizes.findIdx (slabMaxSize ≤ ·)] := by
    simpa using List.findIdx_getElem (w := hk)
  have hmin : ∀ m ∈ sizes, slabMaxSize ≤ m → sizes[sizes.findIdx (slabMaxSize ≤ ·)] ≤ m := by
    intro m hm hle
    obtain ⟨j, hj, rfl⟩ := List.getElem_of_mem hm
    have hkj : sizes.findIdx (slabMaxSize ≤ ·) ≤ j := by
      by_contra hlt
      have := List.not_of_lt_findIdx (Nat.lt_of_not_le hlt)
      simp only [decide_eq_false_iff_not] at this
      exact this hle
    rcases Nat.eq_or_lt_of_le hkj with he | hlt
    · exact Nat.le_of_eq (by simp only [he])
    · exact Nat.le_of_lt (List.pairwise_iff_getElem.mp hp _ _ hk hj hlt)
  constructor
  · rintro (⟨n, hn, h512, hn', hc⟩ | ⟨hall, -⟩)
    · rwa [Nat.le_antisymm (hmin n hn h512) (hn' _ (List.getElem_mem hk) hge)]
    · exact absurd hge (Nat.not_le_of_lt (hall _ (List.getElem_mem hk)))
  · exact fun hc => .inl ⟨_, List.getElem_mem hk, hge, hmin, hc⟩

theorem filled_get {j : Nat} (h : sizes.length + j < (filled sizes).length) :
    (filled sizes)[sizes.length + j] = wrap (sizes.getLastD 0 * 2 ^ (j + 1)) := by
  refine (List.getElem_append_right (Nat.le_add_right ..)).trans ?_
  simp

theorem filled_left {i : Nat} (hi : i < sizes.length) (h : i < (filled sizes).length) :
    (filled sizes)[i] = sizes[i] :=
  List.getElem_append_left hi

/-- The first large class is one of the doubled ones, and then it is below 1024. -/
theorem tableFits_doubled (h0 : sizes ≠ []) (hlen : sizes.length ≤ classCount)
    (hsmall : ∀ n ∈ sizes, n < slabMaxSize) :
    TableFits c sizes ↔ ∃ hk : (filled sizes).findIdx (slabMaxSize ≤ ·) < (filled sizes).length,
      Carves c (filled sizes)[(filled sizes).findIdx (slabMaxSize ≤ ·)] := by
  have hfl := filled_length hlen
  have hlast : sizes.getLastD 0 < slabMaxSize := by
    obtain ⟨a, l, rfl⟩ := List.exists_cons_of_ne_nil h0
    refine hsmall _ ?_
    rw [List.getLastD_cons]
    exact List.getLastD_mem_cons
  have hright :
    TableFits c sizes ↔ slabMaxSize ≤ sizes.getLastD 0 * 2 ^ (classCount - sizes.length) := by
    constructor
    · rintro (⟨n, hn, hge, -⟩ | ⟨-, h⟩)
      · exact absurd hge (Nat.not_le_of_lt (hsmall n hn))
      · exact h
    · exact fun h => .inr ⟨hsmall, h⟩
  have hmono : ∀ {i j}, i ≤ j → sizes.getLastD 0 * 2 ^ i ≤ sizes.getLastD 0 * 2 ^ j := fun h =>
    Nat.mul_le_mul_left _ (Nat.pow_le_pow_right (by decide) h)
  generalize hd : sizes.getLastD 0 = d at *
  rw [hright]
  constructor
  · intro h
    -- the doubling that reaches 512 first
    have hex : ∃ j, slabMaxSize ≤ d * 2 ^ j := ⟨_, h⟩
    obtain ⟨j, hj⟩ : ∃ j, Nat.find hex = j + 1 := by
      refine Nat.exists_eq_succ_of_ne_zero fun hz => ?_
      have := Nat.find_spec hex
      rw [hz, Nat.pow_zero] at this
      omega
    have hspec := Nat.find_spec hex
    have hbelow : d * 2 ^ j < slabMaxSize := Nat.lt_of_not_le (Nat.find_min hex (by omega))
    have hle : Nat.find hex ≤ classCount - sizes.length := Nat.find_min' hex h
    rw [hj] at hspec hle
    have hdouble : d * 2 ^ (j + 1) < 1024 := by
      rw [Nat.pow_succ, ← Nat.mul_assoc]
      unfold slabMaxSize at hbelow
      omega
    have hk : sizes.length + j < (filled sizes).length := by omega
    have hval : (filled sizes)[sizes.length + j] = d * 2 ^ (j + 1) := by
      rw [filled_get hk, hd, wrap, Nat.mod_eq_of_lt (by omega)]
    have hidx : (filled sizes).findIdx (slabMaxSize ≤ ·) = sizes.length + j := by
      refine (List.findIdx_eq hk).mpr ⟨?_, fun i hi => ?_⟩
      · rw [hval]
        exact decide_eq_true hspec
      · refine decide_eq_false (Nat.not_le_of_lt ?_)
        by_cases hs : i < sizes.length
        · rw [filled_left hs]
          exact hsmall _ (List.getElem_mem hs)
        · obtain ⟨i', rfl⟩ := Nat.exists_eq_add_of_le (Nat.le_of_not_lt hs)
          rw [filled_get (by omega), hd]
          have hle := hmono (show i' + 1 ≤ j by omega)
          exact Nat.lt_of_le_of_lt (Nat.mod_le ..) (by omega)
    have hcan : c.canaryLen ≤ 1 := by
      unfold Config.canaryLen
      split <;> omega
    refine ⟨hidx ▸ hk, .inl ?_⟩
    simp only [hidx, hval]
    omega
  · rintro ⟨hk, -⟩
    have hge : slabMaxSize ≤ (filled sizes)[(filled sizes).findIdx (slabMaxSize ≤ ·)] := by
      simpa using List.findIdx_getElem (w := hk)
    generalize (filled sizes).findIdx (slabMaxSize ≤ ·) = k at *
    by_cases hs : k < sizes.length
    · rw [filled_left hs] at hge
      exact absurd hge (Nat.not_le_of_lt (hsmall _ (List.getElem_mem hs)))
    · obtain ⟨j, rfl⟩ := Nat.exists_eq_add_of_le (Nat.le_of_not_lt hs)
      rw [filled_get hk, hd] at hge
      exact Nat.le_trans hge (Nat.le_trans (Nat.mod_le ..) (hmono (by omega)))

/-- The first class that serves the largest size of the tier decides. -/
theorem tableFits_iff (h0 : sizes ≠ []) (hlen : sizes.length ≤ classCount)
    (hp : sizes.Pairwise (· < ·)) :
    TableFits c sizes ↔ ∃ hk : (filled sizes).findIdx (slabMaxSize ≤ ·) < (filled sizes).length,
      Carves c (filled sizes)[(filled sizes).findIdx (slabMaxSize ≤ ·)] := by
  by_cases hk : sizes.findIdx (slabMaxSize ≤ ·) < sizes.length
  · have hidx : (filled sizes).findIdx (slabMaxSize ≤ ·) = sizes.findIdx (slabMaxSize ≤ ·) := by
      rw [filled, List.findIdx_append, if_pos hk]
    have hlt : sizes.findIdx (slabMaxSize ≤ ·) < (filled sizes).length := by
      rw [filled, List.length_append]
      omega
    have hval :
      (filled sizes)[sizes.findIdx (slabMaxSize ≤ ·)] = sizes[sizes.findIdx (slabMaxSize ≤ ·)] :=
      filled_left hk hlt
    rw [tableFits_given hp hk]
    simp only [hidx, hval]
    exact ⟨fun h => ⟨hlt, h⟩, fun ⟨_, h⟩ => h⟩
  · refine tableFits_doubled h0 hlen fun n hn => ?_
    rw [List.findIdx_lt_length] at hk
    by_contra hge
    exact hk ⟨n, hn, decide_eq_true (Nat.le_of_not_lt hge)⟩

/-- The slots of a page in the two models of the class. -/
theorem carved_pos {d : SlabClass} (h1 : d.slotSize = c.classSize cls) (h2 : d.canary = c.canary)
    (base : Nat) (h : 0 < (slabCreatePage c cls base).total) : 0 < d.carved := by
  have htotal : d.slotTotal = c.slotTotal cls := by
    unfold SlabClass.slotTotal Config.slotTotal wrap headerSize Config.canaryLen
    rw [h1, h2]
    cases c.canary <;> rfl
  change 0 < (slabPageSize - pageHeader) / c.slotTotal cls at h
  have hpos := Nat.div_pos_iff.mp h
  have hle : (65536 - 72) / c.slotTotal cls ≤ 65536 - 72 := Nat.div_le_self _ _
  rw [SlabClass.carved, htotal, Nat.mod_eq_of_lt (by omega)]
  exact h

/-- **Class lookup.** Every size of the slab tier has a class that serves it when the first large
class of the table exists and a page has a slot of it, and only then. -/
theorem class_lookup_iff (hs : ∀ n ∈ sizes, n < 2 ^ 64) (h : mpSetSlabClasses c sizes = some c') :
    (∀ size, 0 < size → size ≤ slabMaxSize → Served c' size) ↔ TableFits c sizes := by
  obtain ⟨h0, hlen, hp, rfl⟩ := mpSetSlabClasses_some hs h
  have hfl := filled_length hlen
  have hcls : ∀ i (hi : i < (filled sizes).length),
      Config.classSize { c with customClasses := some (filled sizes) } i = (filled sizes)[i] :=
    fun i hi => by
    rw [Config.classSize, Option.getD_some, List.getElem?_eq_getElem hi, Option.getD_some]
  have hcarves : ∀ i (hi : i < (filled sizes).length) (base : Nat),
      0 < (slabCreatePage { c with customClasses := some (filled sizes) } i base).total ↔
        Carves c (filled sizes)[i] := fun i hi base => by
    rw [← carves_iff (filled_lt hs _ (List.getElem_mem hi)), ← hcls i hi]
    rfl
  rw [tableFits_iff h0 hlen hp]
  constructor
  · intro hserved
    have h512 := hserved slabMaxSize (by decide) (Nat.le_refl _)
    have hidx : (filled sizes).findIdx (slabMaxSize ≤ ·) < (filled sizes).length :=
      hfl.symm ▸ h512.index
    exact ⟨hidx, (hcarves _ hidx 0).mp (h512.carves 0)⟩
  · rintro ⟨hk, hc⟩ size - hsize
    obtain ⟨hle, hlt, hlarge⟩ :=
      classIndex_filled { c with customClasses := some (filled sizes) } rfl hk hsize
    have hi : Config.classIndex { c with customClasses := some (filled sizes) } size <
      (filled sizes).length := by omega
    have htotal : ∀ base, 0 < (slabCreatePage { c with customClasses := some (filled sizes) }
        (Config.classIndex { c with customClasses := some (filled sizes) } size) base).total :=
      fun base => by
      rw [hcarves _ hi]
      rcases Nat.eq_or_lt_of_le hle with he | hlt'
      · simpa only [he] using hc
      · have hcan : c.canaryLen ≤ 1 := by
          unfold Config.canaryLen
          split <;> omega
        have := hlt hlt'
        rw [hcls _ hi] at this
        exact .inl (by unfold slabMaxSize at this; omega)
    refine ⟨hfl ▸ hi, hlarge, htotal, fun answers x hx hok => ?_⟩
    refine slabTier_runs hok (by rw [hx]; exact hfl ▸ hi) fun d hd => ?_
    obtain ⟨h1, h2, -⟩ := hok.cls _ d hd
    rw [hx] at h1 h2
    exact carved_pos h1 h2 0 (htotal 0)

end Tables

/-- A table of one class: doubling gives the others. -/
theorem one_class_serves :
    mpSetSlabClasses plain [64] = some { plain with customClasses := some (filled [64]) } ∧
    ∀ size, 0 < size → size ≤ slabMaxSize →
    Served { plain with customClasses := some (filled [64]) } size := by
  have h :
    mpSetSlabClasses plain [64] = some { plain with customClasses := some (filled [64]) } := rfl
  exact ⟨h, (class_lookup_iff (by decide) h).mpr (.inr (by decide))⟩

/-- Twelve classes up to 96 bytes. -/
def smallTable : List Nat := [8, 16, 24, 32, 40, 48, 56, 64, 72, 80, 88, 96]

/-- **Defect.** The table is accepted, and a request of 500 bytes has no class. -/
theorem small_table_accepted :
    ¬ ∀ c sizes c', (∀ n ∈ sizes, n < 2 ^ 64) → mpSetSlabClasses c sizes = some c' →
      ∀ size, 0 < size → size ≤ slabMaxSize → Served c' size := by
  intro h
  have h500 := h plain smallTable { plain with customClasses := some smallTable } (by decide) rfl
    500 (by decide)
    (by decide)
  exact absurd h500.index (by decide)

end Cmem.L3.Pool

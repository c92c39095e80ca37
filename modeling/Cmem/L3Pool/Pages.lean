import Mathlib
import Cmem.L3Pool.Model

/-!
# Slab pages under a changing class table

`slab_create_page` (src/src/cmem_slab.c:787-858) carves a page into equal slots,
`mp_reset` (src/src/cmem_lifecycle.c:162-186) lays them out anew, and both take the
slot size from the class table and the canary flag of the moment; the number of
slots is that of the creation. `mp_set_slab_classes` (src/src/cmem_config.c:574-601)
replaces the table and leaves pages, caches and class lists as they are.

`stride` is the slot size a page was last laid out with. Which free slot of its class
an allocation gets is left to the caches; the slot belongs to some page of the class.
-/
namespace Cmem.L3.Pool

def slabPageSize : Nat := 65536

/-- `sizeof(mp_slab_page_t)`. -/
def pageHeader : Nat := 72

structure Page where
  base : Nat
  cls : Nat
  stride : Nat
  total : Nat
  deriving DecidableEq, Repr

/-- `slab_classes[cls].slot_size` -/
def Config.classSize (c : Config) (cls : Nat) : Nat :=
  ((c.customClasses.getD defaultClasses)[cls]?).getD 0

/-- `total_slot_size`: header, payload and canary, rounded up to eight bytes. -/
def Config.slotTotal (c : Config) (cls : Nat) : Nat :=
  wrap (headerSize + c.classSize cls + c.canaryLen + 7) / 8 * 8

/-- mirrors `slab_create_page`, src/src/cmem_slab.c:787-858. A slot size of 0, after a
wrap, is a division by zero there. -/
def slabCreatePage (c : Config) (cls base : Nat) : Page :=
  ⟨base, cls, c.slotTotal cls, (slabPageSize - pageHeader) / c.slotTotal cls⟩

/-- mirrors `mp_set_slab_classes`, src/src/cmem_config.c:574-601; `none` when the table
is not accepted. The remaining classes are doubled. -/
def mpSetSlabClasses (c : Config) (sizes : List Nat) : Option Config :=
  if sizes = [] ∨ classCount < sizes.length ∨ 0 ∈ sizes ∨ ¬ sizes.Pairwise (· < ·) then none
  else
    some { c with
      customClasses := some ((List.range (classCount - sizes.length)).foldl
        (fun l _ => l ++ [wrap (l.getLastD 0 * 2)]) sizes) }

/-- The slots `mp_reset` links in a page, src/src/cmem_lifecycle.c:176-183. The head of the free
list is set also when the page has no slots. -/
def Config.links (c : Config) (p : Page) : List Nat :=
  (List.range (max p.total 1)).map fun i => wrap (p.base + pageHeader + i * c.slotTotal p.cls)

/-- A live slab block: its slot, the page of the slot, and `requested_size`. -/
structure SlabBlock where
  slot : Nat
  page : Nat
  requested : Nat
  deriving DecidableEq, Repr

structure Slab where
  cfg : Config
  pages : List Page
  live : List SlabBlock

/-- The slab tier of `mp_alloc` and `mp_aligned_alloc`, src/src/cmem_alloc.c:200-260: `fresh`
are the bases of the pages the refill creates, `got` the slot that comes out and its
page. Beyond the last class the source reads behind its tables. -/
def Slab.alloc (s : Slab) (size : Nat) (fresh : List Nat) (got : Option (Nat × Nat)) : Slab :=
  let n := s.cfg.chargeOf size
  let cls := s.cfg.classIndex n
  if size = 0 ∨ s.cfg.tierOf n ≠ .slab ∨ classCount ≤ cls then s
  else
    let s := { s with pages := fresh.map (slabCreatePage s.cfg cls) ++ s.pages }
    match got with
    | none => s
    | some (slot, page) => { s with live := ⟨slot, page, size⟩ :: s.live }

/-- mirrors `mp_reset`, src/src/cmem_lifecycle.c:162-186: the pages on the lists of empty
pages, `idle`, are left alone -/
def Slab.reset (s : Slab) (idle : List Nat) : Slab :=
  { s with
    pages := s.pages.map fun p =>
      if p.base ∈ idle then p else { p with stride := s.cfg.slotTotal p.cls }
    live := [] }

inductive SlabAct where
  | alloc (size : Nat) (fresh : List Nat) (got : Option (Nat × Nat))
  | free (b : SlabBlock)
  | reset (idle : List Nat)
  | setSlabClasses (sizes : List Nat)

def Slab.step (s : Slab) : SlabAct → Slab
  | .alloc size fresh got => s.alloc size fresh got
  | .free b => { s with live := s.live.erase b }
  | .reset idle => s.reset idle
  | .setSlabClasses sizes => { s with cfg := (mpSetSlabClasses s.cfg sizes).getD s.cfg }

/-- New pages lie in the address space, and a slot comes from a page of the class the
size has. -/
def Slab.pre (s : Slab) : SlabAct → Prop
  | .alloc size fresh got =>
    size < 2 ^ 64 ∧ (∀ base ∈ fresh, base + slabPageSize ≤ 2 ^ 64) ∧
      ∀ q ∈ got, ∃ p ∈ (s.alloc size fresh none).pages,
        p.base = q.2 ∧ p.cls = s.cfg.classIndex (s.cfg.chargeOf size)
  | .free b => b ∈ s.live
  | .reset _ => True
  | .setSlabClasses sizes => ∀ n ∈ sizes, n < 2 ^ 64

/-- The slot size of a class does not wrap. -/
def Config.Plain (c : Config) (cls : Nat) : Prop :=
  headerSize + c.classSize cls + c.canaryLen + 7 < 2 ^ 64

/-- ... and a page has a slot of the class. -/
def Config.HasSlot (c : Config) (cls : Nat) : Prop :=
  c.Plain cls ∧ pageHeader + c.slotTotal cls ≤ slabPageSize

/-- The slots of a page are as large as its class now says, or larger. -/
def Config.Keeps (c : Config) (p : Page) : Prop := c.Plain p.cls ∧ c.slotTotal p.cls ≤ p.stride

/-- A new table keeps the slots of the existing pages large enough, and every slab
request has a class, of which a page has a slot. -/
def Settled (s : Slab) : SlabAct → Prop
  | .alloc size _ _ =>
    (s.cfg.cacheAligned = true → size + 64 + headerSize + s.cfg.canaryLen < 2 ^ 64) ∧
      (s.cfg.tierOf (s.cfg.chargeOf size) = .slab →
        s.cfg.classIndex (s.cfg.chargeOf size) < classCount ∧
        s.cfg.HasSlot (s.cfg.classIndex (s.cfg.chargeOf size)))
  | .setSlabClasses sizes => ∀ c ∈ mpSetSlabClasses s.cfg sizes, ∀ p ∈ s.pages, c.Keeps p
  | _ => True

instance decSlabPre (s : Slab) : (l : SlabAct) → Decidable (s.pre l)
  | .alloc size fresh got =>
    inferInstanceAs (Decidable (size < 2 ^ 64 ∧ (∀ base ∈ fresh, base + slabPageSize ≤ 2 ^ 64) ∧
      ∀ q ∈ got, ∃ p ∈ (s.alloc size fresh none).pages, p.base = q.2 ∧
      p.cls = s.cfg.classIndex (s.cfg.chargeOf size)))
  | .free b => inferInstanceAs (Decidable (b ∈ s.live))
  | .reset _ => .isTrue trivial
  | .setSlabClasses sizes => inferInstanceAs (Decidable (∀ n ∈ sizes, n < 2 ^ 64))

instance decPlain (c : Config) (cls : Nat) : Decidable (c.Plain cls) := by
  unfold Config.Plain; exact inferInstance
instance decHasSlot (c : Config) (cls : Nat) : Decidable (c.HasSlot cls) := by
  unfold Config.HasSlot; exact inferInstance
instance decKeeps (c : Config) (p : Page) : Decidable (c.Keeps p) := by
  unfold Config.Keeps; exact inferInstance

instance decSettled (s : Slab) : (l : SlabAct) → Decidable (Settled s l)
  | .alloc size _ _ =>
    inferInstanceAs (Decidable
      ((s.cfg.cacheAligned = true → size + 64 + headerSize + s.cfg.canaryLen < 2 ^ 64) ∧
        (s.cfg.tierOf (s.cfg.chargeOf size) = .slab → s.cfg.classIndex (s.cfg.chargeOf size) <
          classCount ∧ s.cfg.HasSlot (s.cfg.classIndex (s.cfg.chargeOf size)))))
  | .setSlabClasses sizes =>
    inferInstanceAs (Decidable (∀ c ∈ mpSetSlabClasses s.cfg sizes, ∀ p ∈ s.pages, c.Keeps p))
  | .free _ | .reset _ => .isTrue trivial

/-- The block, with its canary, fits in the slot of its page. -/
def Slab.Fits (s : Slab) (b : SlabBlock) : Prop :=
  ∃ p ∈ s.pages, p.base = b.page ∧ headerSize + b.requested + s.cfg.canaryLen ≤ p.stride

/-- The slots `mp_reset` would link lie in the page and not in one another. -/
def Config.LinksInside (c : Config) (p : Page) : Prop :=
  (∀ a ∈ c.links p, p.base ≤ a ∧
    a + (headerSize + c.classSize p.cls + c.canaryLen) ≤ p.base + slabPageSize) ∧
    (c.links p).Pairwise fun a a' => a + (headerSize + c.classSize p.cls + c.canaryLen) ≤ a'

/-! ## The invariant -/

/-- A page as it was laid out last. -/
structure Laid (c : Config) (p : Page) : Prop where
  keeps : c.Keeps p
  some : 0 < p.total
  inside : pageHeader + p.total * p.stride ≤ slabPageSize
  space : p.base + slabPageSize ≤ 2 ^ 64

section Laid
variable {c c' : Config} {p : Page} {cls base size : Nat}

theorem extent_le (h : c.Plain cls) :
    headerSize + c.classSize cls + c.canaryLen ≤ c.slotTotal cls := by
  unfold Config.slotTotal wrap
  rw [Nat.mod_eq_of_lt h]
  omega

theorem slabCreatePage_laid (h : c.HasSlot cls) (hb : base + slabPageSize ≤ 2 ^ 64) :
    Laid c (slabCreatePage c cls base) := by
  obtain ⟨hp, hfit⟩ := h
  have hpos : 0 < c.slotTotal cls := Nat.lt_of_lt_of_le (by unfold headerSize; omega) (extent_le hp)
  refine ⟨⟨hp, Nat.le_refl _⟩, Nat.div_pos (by omega) hpos, ?_, hb⟩
  have := Nat.div_mul_le_self (slabPageSize - pageHeader) (c.slotTotal cls)
  simp only [slabCreatePage, slabPageSize, pageHeader] at *
  omega

/-- A new layout of the page with smaller slots. -/
theorem Laid.relay (h : Laid c p) : Laid c { p with stride := c.slotTotal p.cls } := by
  refine ⟨⟨h.keeps.1, Nat.le_refl _⟩, h.some, ?_, h.space⟩
  have := Nat.mul_le_mul_left p.total h.keeps.2
  have := h.inside
  show pageHeader + p.total * c.slotTotal p.cls ≤ _
  omega

theorem Laid.linksInside (h : Laid c p) : c.LinksInside p := by
  have hext := extent_le h.keeps.1
  have hlast : ∀ i < p.total, i * c.slotTotal p.cls + c.slotTotal p.cls ≤ p.total * p.stride := by
    intro i hi
    rw [← Nat.succ_mul]
    exact Nat.mul_le_mul hi h.keeps.2
  have hin := h.inside
  have hsp := h.space
  have hpos : 0 < headerSize + c.classSize p.cls + c.canaryLen := by unfold headerSize; omega
  have hmax : max p.total 1 = p.total := Nat.max_eq_left h.some
  have hlink : ∀ i < p.total, wrap (p.base + pageHeader + i * c.slotTotal p.cls) =
    p.base + pageHeader + i * c.slotTotal p.cls := by
    intro i hi
    have := hlast i hi
    exact Nat.mod_eq_of_lt (by omega)
  unfold Config.LinksInside Config.links
  rw [hmax]
  constructor
  · intro a ha
    obtain ⟨i, hi, rfl⟩ := List.mem_map.mp ha
    rw [List.mem_range] at hi
    have := hlast i hi
    rw [hlink i hi]
    omega
  · rw [List.pairwise_map]
    refine List.Pairwise.imp_of_mem (R := (· < ·)) (fun {i j} hi hj hij => ?_)
      List.pairwise_lt_range
    rw [List.mem_range] at hi hj
    rw [hlink i hi, hlink j hj]
    have := Nat.mul_le_mul_right (c.slotTotal p.cls) (Nat.succ_le_of_lt hij)
    rw [Nat.succ_mul] at this
    omega

end Laid

/-! ## Classes -/

/-- A class for every index. -/
def Config.Full (c : Config) : Prop := ∀ l, c.customClasses = some l → l.length = classCount

theorem findIdx_le {l : List Nat} {n : Nat} (h : l.findIdx (n ≤ ·) < l.length) :
    n ≤ (l[l.findIdx (n ≤ ·)]?).getD 0 := by
  rw [List.getElem?_eq_getElem h]
  simpa using List.findIdx_getElem (w := h)

/-- The class of a size is large enough. -/
theorem classIndex_spec {c : Config} {n : Nat} (hf : c.Full) (h : c.classIndex n < classCount) :
    n ≤ c.classSize (c.classIndex n) := by
  unfold Config.classSize
  cases hc : c.customClasses with
  | some l =>
    have hi : c.classIndex n = l.findIdx (n ≤ ·) := by unfold Config.classIndex; rw [hc]
    rw [hi] at h ⊢
    exact findIdx_le (show l.findIdx (n ≤ ·) < l.length by rw [hf l hc]; exact h)
  | none =>
    have hi :
      c.classIndex n = if 0 < n ∧ n ≤ 512 then defaultClasses.findIdx (n ≤ ·) else classCount := by
      unfold Config.classIndex; rw [hc]
    rw [hi] at h ⊢
    split at h
    · rename_i hn
      rw [if_pos hn]
      exact findIdx_le h
    · exact absurd h (Nat.lt_irrefl _)

theorem mpSetSlabClasses_full {c c' : Config} {sizes : List Nat}
    (h : mpSetSlabClasses c sizes = some c') : c'.Full := by
  unfold mpSetSlabClasses at h
  split at h
  · cases h
  · rename_i hok
    obtain rfl := Option.some.inj h
    rintro l hl
    obtain rfl := Option.some.inj hl
    have hfold : ∀ (k : Nat) (l : List Nat),
        ((List.range k).foldl (fun l _ => l ++ [wrap (l.getLastD 0 * 2)]) l).length =
          l.length + k := by
      intro k l
      induction k with
      | zero => rfl
      | succ k ih =>
        rw [List.range_succ, List.foldl_append, List.foldl_cons, List.foldl_nil,
          List.length_append, ih]; rfl
    rw [hfold]
    omega

theorem mpSetSlabClasses_canaryLen {c c' : Config} {sizes : List Nat}
    (h : mpSetSlabClasses c sizes = some c') : c'.canaryLen = c.canaryLen := by
  unfold mpSetSlabClasses at h
  split at h
  · cases h
  · obtain rfl := Option.some.inj h
    rfl

/-! ## Runs -/

structure Slab.Inv (s : Slab) : Prop where
  full : s.cfg.Full
  laid : ∀ p ∈ s.pages, Laid s.cfg p
  fits : ∀ b ∈ s.live, s.Fits b

section Run
variable {s : Slab} {size : Nat} {fresh : List Nat} {got : Option (Nat × Nat)}

/-- A request the slab tier does not see. -/
def Slab.Passes (s : Slab) (size : Nat) : Prop :=
  size = 0 ∨ s.cfg.tierOf (s.cfg.chargeOf size) ≠ .slab ∨
  classCount ≤ s.cfg.classIndex (s.cfg.chargeOf size)

/-- The pages with the new ones. -/
def Slab.refill (s : Slab) (size : Nat) (fresh : List Nat) : List Page :=
  fresh.map (slabCreatePage s.cfg (s.cfg.classIndex (s.cfg.chargeOf size))) ++ s.pages

theorem alloc_eq (h : ¬ s.Passes size) : s.alloc size fresh got =
    ⟨s.cfg, s.refill size fresh, (got.map fun q => ⟨q.1, q.2, size⟩).toList ++ s.live⟩ := by
  refine (if_neg h).trans ?_
  cases got <;> rfl

theorem Slab.Fits.mono {s' : Slab} {b : SlabBlock} (h : s.Fits b) (hp : ∀ p ∈ s.pages, p ∈ s'.pages)
    (hc : s'.cfg.canaryLen = s.cfg.canaryLen) : s'.Fits b := by
  obtain ⟨p, hm, hb, hle⟩ := h
  exact ⟨p, hp p hm, hb, by rw [hc]; exact hle⟩

/-- What is charged covers what is asked for. -/
theorem covered_chargeOf {c : Config}
    (h : c.cacheAligned = true → size + 64 + headerSize + c.canaryLen < 2 ^ 64) :
    size ≤ c.chargeOf size := by
  unfold Config.chargeOf
  split
  · rename_i hc
    rw [wrap, Nat.mod_eq_of_lt (h hc)]
    omega
  · exact Nat.le_refl _

theorem Slab.Inv.alloc (h : s.Inv) (hp : s.pre (.alloc size fresh got))
    (hs : Settled s (.alloc size fresh got)) : (s.alloc size fresh got).Inv := by
  obtain ⟨-, hspace, hgot⟩ := hp
  obtain ⟨hw, hcls⟩ := hs
  by_cases hno : s.Passes size
  · have : s.alloc size fresh got = s := if_pos hno
    rw [this]
    exact h
  rw [alloc_eq hno] at hgot ⊢
  simp only [Slab.Passes, not_or, ne_eq, not_not, Nat.not_le] at hno
  obtain ⟨-, htier, hlt⟩ := hno
  have hslot := (hcls htier).2
  have hlaid : ∀ p ∈ s.refill size fresh, Laid s.cfg p := by
    intro p hm
    rcases List.mem_append.mp hm with hm | hm
    · obtain ⟨base, hb, rfl⟩ := List.mem_map.mp hm
      exact slabCreatePage_laid hslot (hspace base hb)
    · exact h.laid p hm
  refine ⟨h.full, hlaid, fun b hm => ?_⟩
  rcases List.mem_append.mp hm with hm | hm
  · -- the new block: its class is large enough, and so is its page
    obtain ⟨q, hq, rfl⟩ := Option.map_eq_some_iff.mp (Option.mem_toList.mp hm)
    obtain ⟨p, hp, hb, hc⟩ := hgot q hq
    refine ⟨p, hp, hb, ?_⟩
    have h1 := covered_chargeOf hw
    have h2 := classIndex_spec h.full hlt
    have h3 := extent_le hslot.1
    have h4 := (hlaid p hp).keeps.2
    rw [hc] at h4
    show headerSize + size + s.cfg.canaryLen ≤ p.stride
    omega
  · exact (h.fits b hm).mono (fun p hp => List.mem_append_right _ hp) rfl

theorem Slab.Inv.reset (h : s.Inv) (idle : List Nat) : (s.reset idle).Inv := by
  refine ⟨h.full, fun p hm => ?_, nofun⟩
  obtain ⟨p, hp, rfl⟩ := List.mem_map.mp hm
  split
  · exact h.laid p hp
  · exact (h.laid p hp).relay

theorem Slab.Inv.setSlabClasses (h : s.Inv) {sizes : List Nat}
    (hs : Settled s (.setSlabClasses sizes)) : (s.step (.setSlabClasses sizes)).Inv := by
  simp only [Slab.step]
  cases hc : mpSetSlabClasses s.cfg sizes with
  | none => exact h
  | some c =>
    refine ⟨mpSetSlabClasses_full hc, fun p hm => { h.laid p hm with keeps := hs c hc p hm },
      fun b hm => ?_⟩
    exact (h.fits b hm).mono (fun _ hp => hp) (mpSetSlabClasses_canaryLen hc)

end Run

end Cmem.L3.Pool

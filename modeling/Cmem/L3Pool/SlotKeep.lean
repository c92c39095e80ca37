import Mathlib
import Cmem.L3Pool.SlotLive

/-!
# What the slots of a page keep

A byte of a page belongs to one slot (`owned_unique`). `Inv` says of a run what its free
lists, live blocks and freed blocks look like in memory; the slots that an operation has in
its hands are in none of these. A write that no list and no header watches changes nothing
(`Inv.mem`), a slot in hand goes onto a list with its link (`Inv.put`) or to the caller
(`Inv.give`).
-/
namespace Cmem.L3.SlotLive

open Cmem.L3.Pool
  (Config Page wrap headerSize classCount defaultClasses slabPageSize pageHeader slabCreatePage)
open Cmem.L3.BatchFree (Header header magicHead typeSlab SlotOk)

/-! ## Slots -/

/-- A page lies at its number, and its slots hold a header and a payload of the class. -/
structure Laid (n : Nat) (p : Page) : Prop where
  base : p.base = slabPageSize * n
  pos : 0 < n
  top : n < 2 ^ 48
  cls : p.cls < classCount
  stride : headerSize + (defaultClasses[p.cls]?).getD 0 ≤ p.stride
  mult : p.stride % 8 = 0
  total : 0 < p.total
  fits : pageHeader + p.total * p.stride ≤ slabPageSize

theorem Laid.slot {n : Nat} {p : Page} (h : Laid n p) {s : Nat} (hs : s ∈ World.slotsOf p) :
    slabPageSize * n + pageHeader ≤ s ∧ s + p.stride ≤ slabPageSize * (n + 1) ∧ s % 8 = 0 ∧
    s / slabPageSize = n := by
  obtain ⟨i, hi, rfl⟩ := List.mem_map.mp hs
  have hi := List.mem_range.mp hi
  have hmul : (i + 1) * p.stride ≤ p.total * p.stride := Nat.mul_le_mul_right _ hi
  have hsucc : (i + 1) * p.stride = i * p.stride + p.stride := Nat.succ_mul ..
  have hmod : i * p.stride % 8 = 0 := by rw [Nat.mul_mod, h.mult, Nat.mul_zero, Nat.zero_mod]
  have hpos : 152 ≤ p.stride := Nat.le_trans (Nat.le_add_right _ _) h.stride
  have hfits := h.fits
  rw [h.base]
  generalize i * p.stride = x at *
  unfold slabPageSize pageHeader at *
  refine ⟨by omega, by omega, by omega, by omega⟩

theorem slotsOf_apart {p : Page} {s s' : Nat} (hs : s ∈ World.slotsOf p)
    (hs' : s' ∈ World.slotsOf p) (hne : s ≠ s') : s + p.stride ≤ s' ∨ s' + p.stride ≤ s := by
  obtain ⟨i, -, rfl⟩ := List.mem_map.mp hs
  obtain ⟨j, -, rfl⟩ := List.mem_map.mp hs'
  have hsucc (k : Nat) : (k + 1) * p.stride = k * p.stride + p.stride := Nat.succ_mul ..
  rcases Nat.lt_trichotomy i j with hij | rfl | hij
  · have : (i + 1) * p.stride ≤ j * p.stride := Nat.mul_le_mul_right _ hij
    have := hsucc i
    omega
  · exact absurd rfl hne
  · have : (j + 1) * p.stride ≤ i * p.stride := Nat.mul_le_mul_right _ hij
    have := hsucc j
    omega

theorem Laid.nodup {n : Nat} {p : Page} (h : Laid n p) : (World.slotsOf p).Nodup := by
  refine List.Nodup.map_on (fun i _ j _ hij => ?_) List.nodup_range
  have hpos : 0 < p.stride :=
    Nat.lt_of_lt_of_le (by decide) (Nat.le_trans (Nat.le_add_right 152 _) h.stride)
  exact Nat.eq_of_mul_eq_mul_right hpos (Nat.add_left_cancel hij)

namespace World

def IsSlot (w : World) (s : Nat) : Prop := ∃ p, w.pages (s / slabPageSize) = some p ∧ s ∈ slotsOf p

/-- `total_slot_size` of the page of a slot. -/
def stride (w : World) (s : Nat) : Nat := ((w.pages (s / slabPageSize)).map Page.stride).getD 0

/-- The byte lies in the slot. -/
def Owned (w : World) (s i : Nat) : Prop := s ≤ i ∧ i < s + w.stride s

def AllLaid (w : World) : Prop := ∀ n p, w.pages n = some p → Laid n p

end World

open World

section Slots
variable {w : World} {s s' i : Nat}

theorem stride_eq {p : Page} (hp : w.pages (s / slabPageSize) = some p) :
    w.stride s = p.stride := by
  unfold World.stride
  rw [hp]
  rfl

theorem IsSlot.bounds (hl : w.AllLaid) (hs : w.IsSlot s) :
    s + w.stride s ≤ slabPageSize * (s / slabPageSize + 1) ∧ s % 8 = 0 ∧
    headerSize + 8 ≤ w.stride s ∧
      slabPageSize ≤ s ∧ s < 2 ^ 64 := by
  obtain ⟨p, hp, hm⟩ := hs
  have h := hl _ _ hp
  obtain ⟨h1, h2, h3, h4⟩ := h.slot hm
  have hclass : 8 ≤ (defaultClasses[p.cls]?).getD 0 := by
    have : ∀ c < classCount, 8 ≤ (defaultClasses[c]?).getD 0 := by decide
    exact this _ h.cls
  have hstride := h.stride
  have hpos := h.pos
  have htop := h.top
  rw [stride_eq hp]
  unfold slabPageSize headerSize at *
  refine ⟨h2, h3, by omega, by omega, by omega⟩

/-- A byte of a page belongs to one slot. -/
theorem owned_unique (hl : w.AllLaid) (hs : w.IsSlot s) (hs' : w.IsSlot s') (hi : w.Owned s i)
    (hi' : w.Owned s' i) : s = s' := by
  by_contra hne
  have hb := IsSlot.bounds hl hs
  have hb' := IsSlot.bounds hl hs'
  obtain ⟨hi1, hi2⟩ := hi
  obtain ⟨hi3, hi4⟩ := hi'
  have hpage : s / slabPageSize = s' / slabPageSize := by
    unfold slabPageSize at *
    omega
  obtain ⟨p, hp, hm⟩ := hs
  obtain ⟨p', hp', hm'⟩ := hs'
  rw [stride_eq hp] at hi2
  rw [stride_eq hp'] at hi4
  rw [hpage, hp'] at hp
  obtain rfl := Option.some.inj hp
  have := slotsOf_apart hm hm' hne
  omega

theorem owned_page (hl : w.AllLaid) (hs : w.IsSlot s) (hi : w.Owned s i) :
    i / slabPageSize = s / slabPageSize := by
  have hb := IsSlot.bounds hl hs
  obtain ⟨h1, h2⟩ := hi
  unfold slabPageSize at *
  omega

end Slots

/-! ## The invariant -/

/-- The list is linked in memory. -/
def Chain (m : Bytes) : List Nat → Prop
  | [] => True
  | a :: l => m.le a 8 = l.headD 0 ∧ Chain m l

/-- A list only takes slots of its class, and that of a page those of the page. -/
def Spot.Takes (w : World) : Spot → Nat → Prop
  | .page n, s => s / slabPageSize = n
  | .cache c, s | .percpu _ _ c, s | .remote _ c, s =>
    ∃ p, w.pages (s / slabPageSize) = some p ∧ p.cls = c

/-- A block lies in its slot, with its header in front of it. -/
structure GivenOk (w : World) (b : Given) : Prop where
  slot : w.IsSlot b.slot
  plain : b.aligned = false → b.ptr = b.slot + headerSize
  moved : b.aligned = true → b.slot + 2 * headerSize ≤ b.ptr
  room : b.ptr + b.size ≤ b.slot + w.stride b.slot

/-- The header of a live block. -/
structure Stamped (w : World) (b : Given) : Prop where
  magic : (header w.mem b.ptr).magic = magicHead
  type : (header w.mem b.ptr).allocType = typeSlab
  cls : ∀ p, w.pages (b.slot / slabPageSize) = some p → (header w.mem b.ptr).slabClass = p.cls
  raw : (header w.mem b.ptr).rawBase = b.slot
  requested : (header w.mem b.ptr).requested = b.size

/-- What is left of the header of a freed one: a link, or a header away from its slot. -/
structure Dead (w : World) (b : Given) : Prop where
  plain : b.aligned = false → (w.mem b.slot).toNat % 8 = 0
  moved : b.aligned = true →
    (header w.mem b.ptr).allocType = typeSlab ∧ (header w.mem b.ptr).rawBase = b.slot

structure Inv (taken : List Nat) (w : World) : Prop where
  laid : w.AllLaid
  count : ∀ n p, w.pages n = some p → w.pageFreeCount n ≤ p.total
  idle : ∀ s, w.IsSlot s → ∀ i, s + 136 ≤ i → i < s + headerSize → w.mem i = 0
  takes : ∀ sp, ∀ s ∈ w.free sp, w.IsSlot s ∧ sp.Takes w s
  once : ∀ sp, (w.free sp).Nodup
  one : ∀ sp sp' s, s ∈ w.free sp → s ∈ w.free sp' → sp = sp'
  chain : ∀ sp, Chain w.mem (w.free sp)
  hands : taken.Nodup
  hand : ∀ s ∈ taken, w.IsSlot s ∧ ∀ sp, s ∉ w.free sp
  live : ∀ b ∈ w.live, GivenOk w b ∧ Stamped w b ∧ b.slot ∉ taken ∧ ∀ sp, b.slot ∉ w.free sp
  apart : (w.live.map Given.slot).Nodup
  freed : ∀ b ∈ w.freed, GivenOk w b ∧ Dead w b ∧ ∀ c ∈ w.live, c.slot ≠ b.slot

section Inv
variable {w w' : World} {b : Given} {s i : Nat} {sp : Spot} {hand l : List Nat} {m' : Bytes}

theorem Chain.congr {m m' : Bytes} (h : Chain m l)
    (hm : ∀ s ∈ l, ∀ i, s ≤ i → i < s + 8 → m' i = m i) :
    Chain m' l := by
  induction l with
  | nil => trivial
  | cons a l ih =>
    refine ⟨?_, ih h.2 fun s hs => hm s (List.mem_cons_of_mem _ hs)⟩
    rw [← h.1]
    exact Bytes.le_congr (hm a List.mem_cons_self)

theorem header_congr {m m' : Bytes} {p : Nat} (hp : headerSize ≤ p)
    (hm : ∀ i, p ≤ i + headerSize → i < p → m' i = m i) : header m' p = header m p := by
  have hle : ∀ a n, p ≤ a + headerSize → a + n ≤ p → m'.le a n = m.le a n := fun a n h1 h2 =>
    Bytes.le_congr fun i h3 h4 => hm i (by omega) (by omega)
  unfold headerSize at hp hle
  unfold header headerSize
  dsimp only
  rw [hle _ 4 (by omega) (by omega), hle (p - 152 + 4) 1 (by omega) (by omega),
    hle (p - 152 + 5) 1 (by omega) (by omega),
    hle _ 2 (by omega) (by omega), hle (p - 152 + 8) 8 (by omega) (by omega),
      hle (p - 152 + 16) 8 (by omega) (by omega),
    hle (p - 152 + 24) 8 (by omega) (by omega), hle (p - 152 + 32) 8 (by omega) (by omega)]

/-- Bytes of slot `s` that a list, a header or a freed pointer reads. -/
def Watched (w : World) (s i : Nat) : Prop :=
  ((∃ sp, s ∈ w.free sp) ∧ i < s + 8) ∨
  (∃ b ∈ w.live, b.slot = s ∧ b.ptr ≤ i + headerSize ∧ i < b.ptr) ∨
    (∃ b ∈ w.freed, b.slot = s ∧ (i = s ∨ b.aligned = true ∧ b.ptr ≤ i + headerSize ∧ i < b.ptr)) ∨
    s + 136 ≤ i ∧ i < s + headerSize

theorem GivenOk.ptr_ge (h : GivenOk w b) : b.slot + headerSize ≤ b.ptr := by
  cases ha : b.aligned with
  | false => exact Nat.le_of_eq (h.plain ha).symm
  | true => exact Nat.le_trans (by unfold headerSize; omega) (h.moved ha)

theorem GivenOk.owned (h : GivenOk w b) (h1 : b.ptr ≤ i + headerSize) (h2 : i < b.ptr) :
    w.Owned b.slot i := by
  have := h.ptr_ge
  have := h.room
  exact ⟨by omega, by omega⟩

theorem GivenOk.congr (h : GivenOk w b) (hp : w'.pages = w.pages) : GivenOk w' b := by
  refine ⟨?_, h.plain, h.moved, ?_⟩
  · unfold World.IsSlot
    rw [hp]
    exact h.slot
  · unfold World.stride
    rw [hp]
    exact h.room

theorem Stamped.congr (h : Stamped w b) (hp : w'.pages = w.pages)
    (hm : header w'.mem b.ptr = header w.mem b.ptr) : Stamped w' b :=
  ⟨by rw [hm]; exact h.magic, by rw [hm]; exact h.type, by rw [hm, hp]; exact h.cls,
    by rw [hm]; exact h.raw, by rw [hm]; exact h.requested⟩

/-- A write that nothing watches. -/
theorem Inv.mem (h : Inv hand w)
    (hm : ∀ i, m' i ≠ w.mem i → ∀ s, w.IsSlot s → w.Owned s i → ¬ Watched w s i) :
    Inv hand { w with mem := m' } := by
  have keep {s i : Nat} (hs : w.IsSlot s) (hi : w.Owned s i) (hw : Watched w s i) :
    m' i = w.mem i := by
    by_contra hne
    exact hm i hne s hs hi hw
  have head {b : Given} (hb : GivenOk w b) (hw : ∀ i, b.ptr ≤ i + headerSize → i < b.ptr →
      Watched w b.slot i) : header m' b.ptr = header w.mem b.ptr :=
    header_congr (Nat.le_trans (Nat.le_add_left _ _) hb.ptr_ge) fun i h1 h2 =>
      keep hb.slot (hb.owned h1 h2) (hw i h1 h2)
  refine { h with idle := ?_, chain := ?_, live := ?_, freed := ?_ }
  · intro s hs i h1 h2
    have hb := IsSlot.bounds h.laid hs
    exact (keep hs ⟨by omega, by omega⟩ (.inr (.inr (.inr ⟨h1, h2⟩)))).trans (h.idle s hs i h1 h2)
  · refine fun sp => (h.chain sp).congr fun s hs i h1 h2 => ?_
    have hs' := (h.takes sp s hs).1
    have hb := IsSlot.bounds h.laid hs'
    exact keep hs' ⟨h1, by unfold headerSize at hb; omega⟩ (.inl ⟨⟨sp, hs⟩, h2⟩)
  · intro b hb
    obtain ⟨h1, h2, h3⟩ := h.live b hb
    exact ⟨h1.congr rfl,
      h2.congr rfl (head h1 fun i hi1 hi2 => .inr (.inl ⟨b, hb, rfl, hi1, hi2⟩)), h3⟩
  · intro b hb
    obtain ⟨h1, h2, h3⟩ := h.freed b hb
    refine ⟨h1.congr rfl, ⟨fun ha => ?_, fun ha => ?_⟩, h3⟩
    · have hbd := IsSlot.bounds h.laid h1.slot
      show (m' b.slot).toNat % 8 = 0
      rw [keep h1.slot ⟨Nat.le_refl _, by unfold headerSize at hbd; omega⟩
        (.inr (.inr (.inl ⟨b, hb, rfl, .inl rfl⟩)))]
      exact h2.plain ha
    · have hd := head h1 fun i hi1 hi2 => .inr (.inr (.inl ⟨b, hb, rfl, .inr ⟨ha, hi1, hi2⟩⟩))
      show (header m' b.ptr).allocType = _ ∧ (header m' b.ptr).rawBase = _
      rw [hd]
      exact h2.moved ha

@[simp] theorem setFree_self : (w.setFree sp l).free sp = l := Function.update_self ..

theorem setFree_ne {sp' : Spot} (e : sp' ≠ sp) : (w.setFree sp l).free sp' = w.free sp' :=
  Function.update_of_ne e ..

theorem mem_setFree {x : Nat} {sp' : Spot} (hl : ∀ y ∈ l, y ∈ w.free sp)
    (hx : x ∈ (w.setFree sp l).free sp') : x ∈ w.free sp' := by
  by_cases e : sp' = sp
  · subst e
    rw [setFree_self] at hx
    exact hl x hx
  · rwa [setFree_ne e] at hx

theorem Chain.suffix {l' : List Nat} (h : Chain m' (l ++ l')) : Chain m' l' := by
  induction l with
  | nil => exact h
  | cons a l ih => exact ih h.2

/-- The first slots of a list are taken in hand. -/
theorem Inv.take {l' : List Nat} (h : Inv hand w) (hf : w.free sp = l ++ l') :
    Inv (l ++ hand) (w.setFree sp l') := by
  have hsub : ∀ y ∈ l', y ∈ w.free sp := fun y hy => hf ▸ List.mem_append_right l hy
  have hin : ∀ y ∈ l, y ∈ w.free sp := fun y hy => hf ▸ List.mem_append_left l' hy
  have hnd : (l ++ l').Nodup := hf ▸ h.once sp
  refine { h with takes := ?_, once := ?_, one := ?_, chain := ?_, hands := ?_, hand := ?_,
                  live := ?_, freed := ?_ }
  · intro sp' s hs
    exact h.takes sp' s (mem_setFree hsub hs)
  · intro sp'
    by_cases e : sp' = sp
    · subst e
      rw [setFree_self]
      exact (List.nodup_append.mp hnd).2.1
    · rw [setFree_ne e]
      exact h.once sp'
  · intro sp₁ sp₂ s h1 h2
    exact h.one sp₁ sp₂ s (mem_setFree hsub h1) (mem_setFree hsub h2)
  · intro sp'
    by_cases e : sp' = sp
    · subst e
      rw [setFree_self]
      exact Chain.suffix (l := l) (hf ▸ h.chain sp')
    · rw [setFree_ne e]
      exact h.chain sp'
  · refine List.nodup_append.mpr ⟨(List.nodup_append.mp hnd).1, h.hands, fun a ha b hb e => ?_⟩
    exact (h.hand b hb).2 sp (e ▸ hin a ha)
  · intro s hs
    rcases List.mem_append.mp hs with hs | hs
    · refine ⟨(h.takes sp s (hin s hs)).1, fun sp' hs' => ?_⟩
      obtain rfl := h.one sp' sp s (mem_setFree hsub hs') (hin s hs)
      rw [setFree_self] at hs'
      exact (List.nodup_append.mp hnd).2.2 s hs s hs' rfl
    · exact ⟨(h.hand s hs).1, fun sp' hs' => (h.hand s hs).2 sp' (mem_setFree hsub hs')⟩
  · intro b hb
    obtain ⟨h1, h2, h3, h4⟩ := h.live b hb
    refine ⟨h1.congr rfl, h2.congr rfl rfl, fun hm => ?_,
      fun sp' hs' => h4 sp' (mem_setFree hsub hs')⟩
    rcases List.mem_append.mp hm with hm | hm
    · exact h4 sp (hin _ hm)
    · exact h3 hm
  · intro b hb
    obtain ⟨h1, h2, h3⟩ := h.freed b hb
    exact ⟨h1.congr rfl, ⟨h2.plain, h2.moved⟩, h3⟩

/-- Slots in hand may be lost. -/
theorem Inv.drop {hand' : List Nat} (h : Inv hand w) (hs : hand'.Sublist hand) : Inv hand' w :=
  { h with
    hands := h.hands.sublist hs
    hand := fun s hm => h.hand s (hs.subset hm)
    live :=
      fun b hb => ⟨(h.live b hb).1, (h.live b hb).2.1, fun hm => (h.live b hb).2.2.1 (hs.subset hm),
        (h.live b hb).2.2.2⟩ }

section Link
variable {x : Nat} {sp' : Spot} (hm : ∀ i, m' i ≠ w.mem i → s ≤ i ∧ i < s + 32)
include hm

/-- A write to the first words of a slot changes no byte of another one. -/
theorem link_keeps (hl : w.AllLaid) (hs : w.IsSlot s) (hx : w.IsSlot x) (hi : w.Owned x i)
    (hne : x ≠ s) : m' i = w.mem i := by
  have hb := IsSlot.bounds hl hs
  by_contra hc
  obtain ⟨h1, h2⟩ := hm i hc
  exact hne (owned_unique hl hx hs hi ⟨h1, by unfold headerSize at hb; omega⟩)

theorem link_keeps_word (hl : w.AllLaid) (hs : w.IsSlot s) (hx : w.IsSlot x) (hne : x ≠ s)
    (h1 : x ≤ i) (h2 : i < x + 8) : m' i = w.mem i := by
  have hb := IsSlot.bounds hl hx
  exact link_keeps hm hl hs hx ⟨h1, by unfold headerSize at hb; omega⟩ hne

/-- Nor the header of a block that lies elsewhere, or was moved behind that of its slot. -/
theorem link_keeps_header (hl : w.AllLaid) (hs : w.IsSlot s) (hb : GivenOk w b)
    (hd : b.slot ≠ s ∨ b.aligned = true) : header m' b.ptr = header w.mem b.ptr := by
  refine header_congr (Nat.le_trans (Nat.le_add_left _ _) hb.ptr_ge) fun i h1 h2 => ?_
  by_contra hc
  have hbs := IsSlot.bounds hl hs
  have ho := hb.owned h1 h2
  obtain ⟨h3, h4⟩ := hm i hc
  have he := owned_unique hl hb.slot hs ho ⟨h3, by unfold headerSize at hbs; omega⟩
  rcases hd with hd | hd
  · exact hd he
  · have := hb.moved hd
    unfold headerSize at *
    omega

/-- A freed block of the slot now has its link in place of the magic. -/
theorem link_keeps_dead (hl : w.AllLaid) (hs : w.IsSlot s) (hb : GivenOk w b) (hd : Dead w b)
    (h8 : m'.le s 8 % 8 = 0) : Dead { w with mem := m' } b := by
  refine ⟨fun ha => ?_, fun ha => ?_⟩
  · show (m' b.slot).toNat % 8 = 0
    by_cases e : b.slot = s
    · have hbyte : m'.le s 8 % 256 = (m' s).toNat := Bytes.le_succ_mod m' s 7
      rw [e]
      omega
    · rw [link_keeps_word hm hl hs hb.slot e (Nat.le_refl _) (Nat.lt_add_of_pos_right (by decide))]
      exact hd.plain ha
  · show (header m' b.ptr).allocType = _ ∧ (header m' b.ptr).rawBase = _
    rw [link_keeps_header hm hl hs hb (.inr ha)]
    exact hd.moved ha

omit hm

theorem mem_setFree_cons (hx : x ∈ (w.setFree sp (s :: w.free sp)).free sp') :
    x = s ∧ sp' = sp ∨ x ∈ w.free sp' := by
  by_cases e : sp' = sp
  · subst e
    rw [setFree_self] at hx
    exact (List.mem_cons.mp hx).imp (fun h => ⟨h, rfl⟩) id
  · exact .inr (setFree_ne e ▸ hx)

end Link

/-- A slot in hand goes onto a list: it is linked, and no more than its first bytes change. -/
theorem Inv.put (h : Inv (s :: hand) w) (ht : sp.Takes w s)
    (hm : ∀ i, m' i ≠ w.mem i → s ≤ i ∧ i < s + 32) (hl : m'.le s 8 = (w.free sp).headD 0) :
    Inv hand { w.setFree sp (s :: w.free sp) with mem := m' } := by
  obtain ⟨hslot, hnot⟩ := h.hand s List.mem_cons_self
  obtain ⟨hsh, hnd⟩ := List.nodup_cons.mp h.hands
  have h8 : m'.le s 8 % 8 = 0 := by
    rw [hl]
    cases hf : w.free sp with
    | nil => rfl
    | cons a l => exact (IsSlot.bounds h.laid (h.takes sp a (hf ▸ List.mem_cons_self)).1).2.1
  have hchain (sp' : Spot) : Chain m' (w.free sp') := (h.chain sp').congr fun x hx i h1 h2 =>
    link_keeps_word hm h.laid hslot (h.takes sp' x hx).1 (fun e => hnot sp' (e ▸ hx)) h1 h2
  refine ⟨h.laid, h.count, ?_, ?_, ?_, ?_, ?_, hnd, ?_, ?_, h.apart, ?_⟩
  · intro x hx i h1 h2
    by_cases hd : x = s
    · subst hd
      by_contra hc
      have hz := h.idle x hx i h1 h2
      obtain ⟨h3, h4⟩ := hm i fun e => hc (e.trans hz)
      omega
    · have hb := IsSlot.bounds h.laid hx
      exact (link_keeps hm h.laid hslot hx ⟨by omega, by omega⟩ hd).trans (h.idle x hx i h1 h2)
  · intro sp' x hx
    rcases mem_setFree_cons hx with ⟨rfl, rfl⟩ | hx
    · exact ⟨hslot, ht⟩
    · exact h.takes sp' x hx
  · intro sp'
    by_cases e : sp' = sp
    · subst e
      show ((w.setFree sp' (s :: w.free sp')).free sp').Nodup
      rw [setFree_self]
      exact List.nodup_cons.mpr ⟨hnot sp', h.once sp'⟩
    · show ((w.setFree sp (s :: w.free sp)).free sp').Nodup
      rw [setFree_ne e]
      exact h.once sp'
  · intro sp₁ sp₂ x h1 h2
    rcases mem_setFree_cons h1 with ⟨rfl, rfl⟩ | k1
    · rcases mem_setFree_cons h2 with ⟨-, rfl⟩ | k2
      · rfl
      · exact absurd k2 (hnot sp₂)
    · rcases mem_setFree_cons h2 with ⟨rfl, rfl⟩ | k2
      · exact absurd k1 (hnot sp₁)
      · exact h.one sp₁ sp₂ x k1 k2
  · intro sp'
    by_cases e : sp' = sp
    · subst e
      show Chain m' ((w.setFree sp' (s :: w.free sp')).free sp')
      rw [setFree_self]
      exact ⟨hl, hchain sp'⟩
    · show Chain m' ((w.setFree sp (s :: w.free sp)).free sp')
      rw [setFree_ne e]
      exact hchain sp'
  · intro x hx
    refine ⟨(h.hand x (List.mem_cons_of_mem _ hx)).1, fun sp' hs' => ?_⟩
    rcases mem_setFree_cons hs' with ⟨rfl, -⟩ | hs'
    · exact hsh hx
    · exact (h.hand x (List.mem_cons_of_mem _ hx)).2 sp' hs'
  · intro b hb
    obtain ⟨h1, h2, h3, h4⟩ := h.live b hb
    have hd : b.slot ≠ s := fun e => h3 (e ▸ List.mem_cons_self)
    refine ⟨h1.congr rfl, h2.congr rfl (link_keeps_header hm h.laid hslot h1 (.inl hd)),
      fun hm => h3 (List.mem_cons_of_mem _ hm), fun sp' hs' => ?_⟩
    rcases mem_setFree_cons hs' with ⟨e, -⟩ | hs'
    · exact hd e
    · exact h4 sp' hs'
  · intro b hb
    obtain ⟨h1, h2, h3⟩ := h.freed b hb
    obtain ⟨h4, h5⟩ := link_keeps_dead hm h.laid hslot h1 h2 h8
    exact ⟨h1.congr rfl, ⟨h4, h5⟩, h3⟩

/-- A write into a slot in hand, apart from its links of the active list. -/
theorem Inv.scribble (h : Inv hand w) (hs : s ∈ hand) (hf : ∀ b ∈ w.freed, b.slot ≠ s)
    (hm : ∀ i, m' i ≠ w.mem i → w.Owned s i ∧ (i < s + 136 ∨ s + headerSize ≤ i)) :
    Inv hand { w with mem := m' } := by
  refine h.mem fun i hi s' hs' ho hw => ?_
  obtain ⟨hown, hout⟩ := hm i hi
  obtain rfl := owned_unique h.laid hs' (h.hand s hs).1 ho hown
  rcases hw with ⟨⟨sp, hsp⟩, -⟩ | ⟨b, hb, he, -⟩ | ⟨b, hb, he, -⟩ | hw
  · exact (h.hand _ hs).2 sp hsp
  · exact (h.live b hb).2.2.1 (he ▸ hs)
  · exact hf b hb he
  · omega

/-- The caller writes its block, and others write other memory. -/
theorem Inv.poke (h : Inv hand w) (hm : ∀ i, m' i ≠ w.mem i →
    w.pages (i / slabPageSize) = none ∨ ∃ b ∈ w.live, b.ptr ≤ i ∧ i < b.ptr + b.size) :
    Inv hand { w with mem := m' } := by
  refine h.mem fun i hi s' hs' ho hw => ?_
  rcases hm i hi with hn | ⟨b, hb, h1, h2⟩
  · rw [owned_page h.laid hs' ho] at hn
    obtain ⟨p, hp, -⟩ := hs'
    rw [hp] at hn
    cases hn
  · obtain ⟨hok, -, -, hfree⟩ := h.live b hb
    have hge := hok.ptr_ge
    have hroom := hok.room
    obtain rfl := owned_unique h.laid hs' hok.slot ho ⟨by omega, by omega⟩
    rcases hw with ⟨⟨sp, hsp⟩, -⟩ | ⟨c, hc, he, h3, h4⟩ | ⟨c, hc, he, -⟩ | hw
    · exact hfree sp hsp
    · obtain rfl := List.inj_on_of_nodup_map h.apart hc hb he
      omega
    · exact (h.freed c hc).2.2 b hb he.symm
    · omega

/-- The slot in hand becomes a live block. -/
theorem Inv.give (h : Inv (b.slot :: hand) w) (hb : GivenOk w b) (hs : Stamped w b)
    (hf : ∀ c ∈ w.freed, c.slot ≠ b.slot) :
    Inv hand { w with live := b :: w.live } := by
  obtain ⟨hslot, hnot⟩ := h.hand b.slot List.mem_cons_self
  obtain ⟨hsh, hnd⟩ := List.nodup_cons.mp h.hands
  refine { h with
    hands := hnd, hand := fun s hm => h.hand s (List.mem_cons_of_mem _ hm), live := ?_, apart :=
      ?_, freed := ?_ }
  · intro c hc
    rcases List.mem_cons.mp hc with rfl | hc
    · exact ⟨hb.congr rfl, hs.congr rfl rfl, hsh, hnot⟩
    · obtain ⟨h1, h2, h3, h4⟩ := h.live c hc
      exact ⟨h1.congr rfl, h2.congr rfl rfl, fun hm => h3 (List.mem_cons_of_mem _ hm), h4⟩
  · refine List.nodup_cons.mpr ⟨fun hm => ?_, h.apart⟩
    obtain ⟨c, hc, he⟩ := List.mem_map.mp hm
    exact (h.live c hc).2.2.1 (he ▸ List.mem_cons_self)
  · intro c hc
    obtain ⟨h1, h2, h3⟩ := h.freed c hc
    refine ⟨h1.congr rfl, ⟨h2.plain, h2.moved⟩, fun d hd => ?_⟩
    rcases List.mem_cons.mp hd with rfl | hd
    · exact (hf c hc).symm
    · exact h3 d hd

/-- Freed blocks are forgotten. -/
theorem Inv.forget (h : Inv hand w) (f : Given → Bool) :
    Inv hand { w with freed := w.freed.filter f } := by
  refine { h with live := fun b hb => ?_, freed := fun b hb => ?_ }
  · obtain ⟨h1, h2, h3⟩ := h.live b hb
    exact ⟨h1.congr rfl, h2.congr rfl rfl, h3⟩
  · obtain ⟨h1, h2, h3⟩ := h.freed b (List.mem_of_mem_filter hb)
    exact ⟨h1.congr rfl, ⟨h2.plain, h2.moved⟩, h3⟩

/-- The block is no longer live, and its slot in hand. -/
theorem Inv.unlive (h : Inv hand w) (hb : b ∈ w.live) :
    Inv (b.slot :: hand) { w with live := w.live.erase b } := by
  obtain ⟨h1, h2, h3, h4⟩ := h.live b hb
  have hsub : (w.live.erase b).Sublist w.live := List.erase_sublist
  refine { h with
    hands := List.nodup_cons.mpr ⟨h3, h.hands⟩, hand := ?_, live := ?_, apart :=
      h.apart.sublist (hsub.map _)
    freed := ?_ }
  · intro s hs
    rcases List.mem_cons.mp hs with rfl | hs
    · exact ⟨h1.slot, h4⟩
    · exact h.hand s hs
  · intro c hc
    obtain ⟨k1, k2, k3, k4⟩ := h.live c (hsub.subset hc)
    refine ⟨k1.congr rfl, k2.congr rfl rfl, fun hm => ?_, k4⟩
    rcases List.mem_cons.mp hm with he | hm
    · obtain rfl := List.inj_on_of_nodup_map h.apart (hsub.subset hc) hb he
      exact (List.Nodup.not_mem_erase (List.Nodup.of_map _ h.apart)) hc
    · exact k3 hm
  · intro c hc
    obtain ⟨k1, k2, k3⟩ := h.freed c hc
    exact ⟨k1.congr rfl, ⟨k2.plain, k2.moved⟩, fun d hd => k3 d (hsub.subset hd)⟩

/-- A freed block is kept in mind. -/
theorem Inv.mourn (h : Inv hand w) (hb : GivenOk w b) (hd : Dead w b)
    (hl : ∀ c ∈ w.live, c.slot ≠ b.slot) : Inv hand { w with freed := b :: w.freed } := by
  refine { h with live := fun c hc => ?_, freed := fun c hc => ?_ }
  · obtain ⟨h1, h2, h3⟩ := h.live c hc
    exact ⟨h1.congr rfl, h2.congr rfl rfl, h3⟩
  · rcases List.mem_cons.mp hc with rfl | hc
    · exact ⟨hb.congr rfl, ⟨hd.plain, hd.moved⟩, hl⟩
    · obtain ⟨k1, k2, k3⟩ := h.freed c hc
      exact ⟨k1.congr rfl, ⟨k2.plain, k2.moved⟩, k3⟩

/-- The free slots of a page are not more than its slots. -/
theorem Inv.free_le (h : Inv hand w) {n : Nat} {p : Page} (hp : w.pages n = some p) :
    (w.free (.page n)).length ≤ p.total := by
  have hsub : w.free (.page n) ⊆ slotsOf p := by
    intro s hs
    obtain ⟨⟨q, hq, hm⟩, ht⟩ := h.takes _ s hs
    rw [show s / slabPageSize = n from ht, hp] at hq
    obtain rfl := Option.some.inj hq
    exact hm
  have := (List.subperm_of_subset (h.once (.page n)) hsub).length_le
  rwa [slotsOf, List.length_map, List.length_range] at this

/-- The number of free slots is published. -/
theorem Inv.publish (h : Inv hand w) (n : Nat) :
    Inv hand
      { w with pageFreeCount := Function.update w.pageFreeCount n (w.free (.page n)).length } := by
  refine { h with count := fun k p hp => ?_, live := fun b hb => ?_, freed := fun b hb => ?_ }
  · show Function.update w.pageFreeCount n (w.free (.page n)).length k ≤ p.total
    by_cases e : k = n
    · subst e
      rw [Function.update_self]
      exact h.free_le hp
    · rw [Function.update_of_ne e]
      exact h.count k p hp
  · obtain ⟨h1, h2, h3⟩ := h.live b hb
    exact ⟨h1.congr rfl, h2.congr rfl rfl, h3⟩
  · obtain ⟨h1, h2, h3⟩ := h.freed b hb
    exact ⟨h1.congr rfl, ⟨h2.plain, h2.moved⟩, h3⟩

/-! ## A new page -/

theorem linkAll_apart {m : Bytes} (h : ∀ s ∈ l, i < s ∨ s + 8 ≤ i) : linkAll m l i = m i := by
  induction l with
  | nil => rfl
  | cons a l ih =>
    rw [linkAll, Bytes.store_apart, ih fun s hs => h s (List.mem_cons_of_mem _ hs)]
    have := h a List.mem_cons_self
    unfold Bytes.Apart
    omega

/-- The slots of a page are linked in their order. -/
theorem linkAll_chain (m : Bytes) (hn : l.Nodup)
    (ha : ∀ s ∈ l, ∀ s' ∈ l, s ≠ s' → s + 8 ≤ s' ∨ s' + 8 ≤ s) (ht : ∀ s ∈ l, s < 2 ^ 64) :
    Chain (linkAll m l) l := by
  induction l with
  | nil => trivial
  | cons a l ih =>
    obtain ⟨hal, hn⟩ := List.nodup_cons.mp hn
    refine ⟨Bytes.le_store ?_, (ih hn
      (fun s hs s' hs' => ha s (List.mem_cons_of_mem _ hs) s' (List.mem_cons_of_mem _ hs'))
      fun s hs => ht s (List.mem_cons_of_mem _ hs)).congr fun s hs i h1 h2 => Bytes.store_apart ?_⟩
    · cases l with
      | nil => exact Nat.pow_pos (by decide)
      | cons b l => exact ht b (by simp)
    · have := ha a List.mem_cons_self s (List.mem_cons_of_mem _ hs) fun e => hal (e ▸ hs)
      unfold Bytes.Apart
      omega

/-- Page `n` is laid out as `p`, and its slots are free. -/
structure Grows (w : World) (n : Nat) (p : Page) (w' : World) : Prop where
  fresh : w.pages n = none
  laid : Laid n p
  pages : w'.pages = Function.update w.pages n (some p)
  count : w'.pageFreeCount = Function.update w.pageFreeCount n p.total
  free : ∀ sp, w'.free sp = if sp = .page n then slotsOf p else w.free sp
  mem : w'.mem = w.mem
  live : w'.live = w.live
  freed : w'.freed = w.freed

section Grows
variable {n : Nat} {p : Page}

theorem Grows.page_ne (h : Grows w n p w') (hs : w.IsSlot s) : s / slabPageSize ≠ n := by
  rintro rfl
  obtain ⟨q, hq, -⟩ := hs
  rw [h.fresh] at hq
  cases hq

theorem Grows.page_eq (h : Grows w n p w') (hs : w.IsSlot s) :
    w'.pages (s / slabPageSize) = w.pages (s / slabPageSize) := by
  rw [h.pages]
  exact Function.update_of_ne (h.page_ne hs) ..

/-- The new slots were none before. -/
theorem Grows.not_slot (h : Grows w n p w') (hs : s ∈ slotsOf p) : ¬ w.IsSlot s :=
  fun ho => h.page_ne ho (h.laid.slot hs).2.2.2

theorem Grows.old_slot (h : Grows w n p w') (hs : w.IsSlot s) : w'.IsSlot s := by
  unfold World.IsSlot
  rw [h.page_eq hs]
  exact hs

theorem Grows.new_slot (h : Grows w n p w') (hs : s ∈ slotsOf p) : w'.IsSlot s := by
  refine ⟨p, ?_, hs⟩
  rw [h.pages, (h.laid.slot hs).2.2.2, Function.update_self]

theorem Grows.isSlot (h : Grows w n p w') (hs : w'.IsSlot s) : w.IsSlot s ∨ s ∈ slotsOf p := by
  obtain ⟨q, hq, hm⟩ := hs
  rw [h.pages] at hq
  by_cases e : s / slabPageSize = n
  · rw [e, Function.update_self] at hq
    obtain rfl := Option.some.inj hq
    exact .inr hm
  · rw [Function.update_of_ne e] at hq
    exact .inl ⟨q, hq, hm⟩

/-- A free slot is new and on the list of its page, or it was free before. -/
theorem Grows.mem_free (h : Grows w n p w') (hs : s ∈ w'.free sp) :
    sp = .page n ∧ s ∈ slotsOf p ∨ s ∈ w.free sp := by
  rw [h.free] at hs
  split at hs
  · exact .inl ⟨‹_›, hs⟩
  · exact .inr hs

theorem Grows.not_free (h : Grows w n p w') (hs : w.IsSlot s) (hf : ∀ sp, s ∉ w.free sp)
    (sp : Spot) : s ∉ w'.free sp := by
  intro hm
  rcases h.mem_free hm with ⟨-, hm⟩ | hm
  · exact h.not_slot hm hs
  · exact hf sp hm

theorem Grows.given (h : Grows w n p w') (hb : GivenOk w b) : GivenOk w' b := by
  refine ⟨h.old_slot hb.slot, hb.plain, hb.moved, ?_⟩
  unfold World.stride
  rw [h.page_eq hb.slot]
  exact hb.room

theorem Grows.stamped (h : Grows w n p w') (hb : GivenOk w b) (hs : Stamped w b) :
    Stamped w' b := by
  refine ⟨?_, ?_, fun q hq => ?_, ?_, ?_⟩
  · exact h.mem ▸ hs.magic
  · exact h.mem ▸ hs.type
  · rw [h.page_eq hb.slot] at hq
    exact h.mem ▸ hs.cls q hq
  · exact h.mem ▸ hs.raw
  · exact h.mem ▸ hs.requested

theorem Grows.takes (h : Grows w n p w') (hs : w.IsSlot s) (ht : sp.Takes w s) : sp.Takes w' s := by
  have hcls {c : Nat} (hc : ∃ q, w.pages (s / slabPageSize) = some q ∧ q.cls = c) :
      ∃ q, w'.pages (s / slabPageSize) = some q ∧ q.cls = c := by
    rw [h.page_eq hs]
    exact hc
  cases sp with
  | page k => exact ht
  | cache c => exact hcls ht
  | percpu q cpu c => exact hcls ht
  | remote q c => exact hcls ht

theorem Grows.allLaid (h : Grows w n p w') (hl : w.AllLaid) : w'.AllLaid := by
  intro k q hq
  rw [h.pages] at hq
  by_cases e : k = n
  · subst e
    rw [Function.update_self] at hq
    obtain rfl := Option.some.inj hq
    exact h.laid
  · rw [Function.update_of_ne e] at hq
    exact hl k q hq

theorem Grows.counted (h : Grows w n p w')
    (hc : ∀ k q, w.pages k = some q → w.pageFreeCount k ≤ q.total) :
    ∀ k q, w'.pages k = some q → w'.pageFreeCount k ≤ q.total := by
  intro k q hq
  rw [h.pages] at hq
  rw [h.count]
  by_cases e : k = n
  · subst e
    rw [Function.update_self] at hq ⊢
    exact Nat.le_of_eq (congrArg Page.total (Option.some.inj hq))
  · rw [Function.update_of_ne e] at hq ⊢
    exact hc k q hq

theorem Inv.grow (h : Inv hand w) (hg : Grows w n p w') (hc : Chain w.mem (slotsOf p))
    (hz : ∀ s ∈ slotsOf p, ∀ i, s + 136 ≤ i → i < s + headerSize → w.mem i = 0) :
    Inv hand w' where
  laid := hg.allLaid h.laid
  count := hg.counted h.count
  idle := by
    intro s hs i h1 h2
    rw [hg.mem]
    rcases hg.isSlot hs with hs | hs
    · exact h.idle s hs i h1 h2
    · exact hz s hs i h1 h2
  takes := by
    intro sp s hs
    rcases hg.mem_free hs with ⟨rfl, hm⟩ | hm
    · exact ⟨hg.new_slot hm, (hg.laid.slot hm).2.2.2⟩
    · obtain ⟨h1, h2⟩ := h.takes sp s hm
      exact ⟨hg.old_slot h1, hg.takes h1 h2⟩
  once := by
    intro sp
    rw [hg.free]
    split
    · exact hg.laid.nodup
    · exact h.once sp
  one := by
    intro sp sp' s h1 h2
    rcases hg.mem_free h1 with ⟨e, h1⟩ | h1
    · rcases hg.mem_free h2 with ⟨e', -⟩ | h2
      · exact e.trans e'.symm
      · exact absurd (h.takes sp' s h2).1 (hg.not_slot h1)
    · rcases hg.mem_free h2 with ⟨-, h2⟩ | h2
      · exact absurd (h.takes sp s h1).1 (hg.not_slot h2)
      · exact h.one sp sp' s h1 h2
  chain := by
    intro sp
    rw [hg.free, hg.mem]
    split
    · exact hc
    · exact h.chain sp
  hands := h.hands
  hand := by
    intro s hs
    obtain ⟨h1, h2⟩ := h.hand s hs
    exact ⟨hg.old_slot h1, hg.not_free h1 h2⟩
  live := by
    intro b hb
    obtain ⟨h1, h2, h3, h4⟩ := h.live b (hg.live ▸ hb)
    exact ⟨hg.given h1, hg.stamped h1 h2, h3, hg.not_free h1.slot h4⟩
  apart := by
    rw [hg.live]
    exact h.apart
  freed := by
    intro b hb
    obtain ⟨h1, h2, h3⟩ := h.freed b (hg.freed ▸ hb)
    refine ⟨hg.given h1, ⟨?_, ?_⟩, ?_⟩
    · exact hg.mem ▸ h2.plain
    · exact hg.mem ▸ h2.moved
    · rw [hg.live]
      exact h3

end Grows

/-- A page is added, whose slots are linked. -/
theorem Inv.addPage (h : Inv hand w) {n : Nat} {p : Page} (hn : w.pages n = none) (hp : Laid n p)
    (hc : Chain w.mem (slotsOf p))
    (hz : ∀ s ∈ slotsOf p, ∀ i, s + 136 ≤ i → i < s + headerSize → w.mem i = 0) :
    Inv hand { w.setFree (.page n) (slotsOf p) with
      pages := Function.update w.pages n (some p)
      pageFreeCount := Function.update w.pageFreeCount n p.total } := by
  refine h.grow ⟨hn, hp, rfl, rfl, fun sp => ?_, rfl, rfl, rfl⟩ hc hz
  split
  · rename_i e
    subst e
    exact setFree_self
  · exact setFree_ne ‹_›

end Inv

end Cmem.L3.SlotLive

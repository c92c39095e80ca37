import Mathlib
import Cmem.Core.Links

/-!
# `tlsf_block_t` in memory

The shared TLSF arenas and the per-thread arenas carve a region into blocks
that start with a `tlsf_block_t` (src/src/cmem_internal.h:271-276):
`size_and_flags`, `prev_physical`, `next_free`, `prev_free`, four 8-byte
words. Memory is a map from word addresses to words, so a write to one block
that reaches into another is visible. `0` is the null pointer.

* `blockSize`, `orFree`, ...: the flag bits in the low two bits of the size.
* `Walk m prev lo bs hi`: starting at `lo`, adding block sizes visits exactly
  `bs` and ends at the sentinel `hi`, and every `prev_physical`, the
  sentinel's included, is the true predecessor (`prev` for the first block).
* `unlinkBlock`, `linkBlock`: the free-list pointer code both allocators share.
-/
namespace Cmem

/-- Words by address. -/
abbrev Mem := Nat → Nat

def Mem.set (m : Mem) (a v : Nat) : Mem := Function.update m a v

@[simp] theorem Mem.set_self (m : Mem) (a v : Nat) : m.set a v a = v := Function.update_self ..

theorem Mem.set_ne (m : Mem) {a x : Nat} (v : Nat) (h : x ≠ a) : m.set a v x = m x :=
  Function.update_of_ne h ..

theorem Mem.set_apply (m : Mem) (a v x : Nat) : m.set a v x = if x = a then v else m x := by
  by_cases h : x = a
  · subst h; simp
  · simp [Mem.set_ne m v h, h]

/-- Store one byte, little-endian, in the word that holds it. -/
def Mem.setByte (m : Mem) (a v : Nat) : Mem :=
  let w := m (a / 8 * 8)
  let k := 256 ^ (a % 8)
  m.set (a / 8 * 8) (w / (k * 256) * (k * 256) + v * k + w % k)

theorem Mem.setByte_ne (m : Mem) {a x : Nat} (v : Nat) (h : x ≠ a / 8 * 8) :
    m.setByte a v x = m x :=
  Mem.set_ne _ _ h

/-- `memset`: `n` bytes `v` from `a` on. -/
def Mem.fill (m : Mem) (a v : Nat) : Nat → Mem
  | 0 => m
  | n + 1 => (m.fill a v n).setByte (a + n) v

theorem Mem.fill_of_outside (m : Mem) {a v n x : Nat} (lo hi : Nat) (hlo : 8 ∣ lo) (hhi : 8 ∣ hi)
    (ha : lo ≤ a) (hn : a + n ≤ hi) (hx : x < lo ∨ hi ≤ x) : m.fill a v n x = m x := by
  induction n with
  | zero => rfl
  | succ n ih => exact (Mem.setByte_ne _ _ (by omega)).trans (ih (by omega))

/-- `2^64`, the modulus of `size_t`. -/
def sizeMod : Nat := 2 ^ 64

/-- `a + b` in `size_t`. -/
@[irreducible] def sizeAdd (a b : Nat) : Nat := (a + b) % sizeMod

/-- `a - b` in `size_t`. -/
@[irreducible] def sizeSub (a b : Nat) : Nat := (a + sizeMod - b) % sizeMod

/-- `(a + 7) & ~7` in `size_t`. -/
@[irreducible] def sizeAlign8 (a : Nat) : Nat := (a + 7) % sizeMod / 8 * 8

theorem sizeAdd_of_lt {a b : Nat} (h : a + b < sizeMod) : sizeAdd a b = a + b := by
  unfold sizeAdd
  exact Nat.mod_eq_of_lt h

theorem sizeSub_of_le {a b : Nat} (h : b ≤ a) (ha : a < sizeMod) : sizeSub a b = a - b := by
  unfold sizeSub
  rw [show a + sizeMod - b = a - b + sizeMod by omega, Nat.add_mod_right,
    Nat.mod_eq_of_lt (by omega)]

theorem sizeAlign8_dvd (a : Nat) : 8 ∣ sizeAlign8 a := by
  unfold sizeAlign8
  exact ⟨_, Nat.mul_comm _ _⟩

/-- `MP_CANARY_BYTE`. -/
def canaryByte : Nat := 0xDE

/-- `sizeof(tlsf_block_t)`. -/
def blockHdr : Nat := 32

/-- `sizeof(mp_block_header_t)`: 152 bytes on a 64-bit target
(src/include/cmem.h:1121-1137). -/
def hdrSize : Nat := 152

/-- `TLSF_MIN_BLOCK_SIZE`. -/
def minBlock : Nat := 32

/-- The span of a block that holds `size` payload bytes behind its two headers,
and the canary byte if there is one; the same lines stand at
src/src/cmem_tlsf.c:338-345, 599-606 and src/src/cmem_alloc.c:267-272,
1476-1480. -/
def totalNeeded (size canary : Nat) : Nat :=
  let need := sizeAlign8 (sizeAdd (sizeAdd (blockHdr + hdrSize) size) canary)
  if need < minBlock then minBlock else need

theorem totalNeeded_dvd (n c : Nat) : 8 ∣ totalNeeded n c := by
  unfold totalNeeded
  dsimp only
  split
  · exact ⟨4, rfl⟩
  · exact sizeAlign8_dvd _

theorem le_totalNeeded (n c : Nat) : minBlock ≤ totalNeeded n c := by
  unfold totalNeeded
  dsimp only
  split <;> omega

/-- A size whose total does not wrap gets its room. -/
theorem totalNeeded_bounds {n c : Nat} (h : 184 + n + c + 7 < sizeMod) :
    184 + n + c ≤ totalNeeded n c ∧ totalNeeded n c < 184 + n + c + 8 := by
  have e : sizeAlign8 (sizeAdd (sizeAdd (blockHdr + hdrSize) n) c) = (184 + n + c + 7) / 8 * 8 := by
    rw [sizeAdd_of_lt (a := blockHdr + hdrSize) (by unfold blockHdr hdrSize; omega),
      sizeAdd_of_lt (by unfold blockHdr hdrSize; omega)]
    unfold sizeAlign8
    rw [Nat.mod_eq_of_lt (by unfold blockHdr hdrSize; omega)]
    rfl
  unfold totalNeeded
  simp only [e]
  unfold minBlock
  rw [if_neg (by omega)]
  omega

/-! ## `size_and_flags`

The masks of src/src/cmem_internal.h:198-201 in arithmetic form: FREE is the
bit of weight 1, PREV_FREE the bit of weight 2, the size the rest. -/

/-- `w & BLOCK_SIZE_MASK`. -/
def blockSize (w : Nat) : Nat := w / 4 * 4

/-- `w & BLOCK_STATE_FREE`, as a test. -/
def freeBit (w : Nat) : Bool := w % 2 == 1

/-- `w & BLOCK_STATE_PREV_FREE`, as a test. -/
def prevFreeBit (w : Nat) : Bool := w / 2 % 2 == 1

/-- `w & BLOCK_STATE_PREV_FREE`, as a word. -/
def andPrevFree (w : Nat) : Nat := w / 2 % 2 * 2

/-- `w | BLOCK_STATE_FREE`. -/
def orFree (w : Nat) : Nat := w / 2 * 2 + 1

/-- `w & ~BLOCK_STATE_FREE`. -/
def clearFree (w : Nat) : Nat := w / 2 * 2

/-- `w | BLOCK_STATE_PREV_FREE`. -/
def orPrevFree (w : Nat) : Nat := w / 4 * 4 + 2 + w % 2

/-- `w & ~BLOCK_STATE_PREV_FREE`. -/
def clearPrevFree (w : Nat) : Nat := w / 4 * 4 + w % 2

section Bits
variable {w s : Nat}

@[simp] theorem blockSize_orFree : blockSize (orFree w) = blockSize w := by
  unfold blockSize orFree; omega
@[simp] theorem blockSize_clearFree : blockSize (clearFree w) = blockSize w := by
  unfold blockSize clearFree; omega
@[simp] theorem blockSize_orPrevFree : blockSize (orPrevFree w) = blockSize w := by
  unfold blockSize orPrevFree; omega
@[simp] theorem blockSize_clearPrevFree : blockSize (clearPrevFree w) = blockSize w := by
  unfold blockSize clearPrevFree; omega
@[simp] theorem freeBit_orFree : freeBit (orFree w) = true := by
  simp only [freeBit, orFree, beq_iff_eq]; omega
@[simp] theorem freeBit_clearFree : freeBit (clearFree w) = false := by
  simp only [freeBit, clearFree, beq_eq_false_iff_ne]; omega
@[simp] theorem freeBit_orPrevFree : freeBit (orPrevFree w) = freeBit w := by
  unfold freeBit orPrevFree; congr 1; omega
@[simp] theorem freeBit_clearPrevFree : freeBit (clearPrevFree w) = freeBit w := by
  unfold freeBit clearPrevFree; congr 1; omega
@[simp] theorem prevFreeBit_orFree : prevFreeBit (orFree w) = prevFreeBit w := by
  unfold prevFreeBit orFree; congr 1; omega
@[simp] theorem prevFreeBit_clearFree : prevFreeBit (clearFree w) = prevFreeBit w := by
  unfold prevFreeBit clearFree; congr 1; omega
@[simp] theorem prevFreeBit_orPrevFree : prevFreeBit (orPrevFree w) = true := by
  simp only [prevFreeBit, orPrevFree, beq_iff_eq]; omega
@[simp] theorem prevFreeBit_clearPrevFree : prevFreeBit (clearPrevFree w) = false := by
  simp only [prevFreeBit, clearPrevFree, beq_eq_false_iff_ne]; omega

theorem blockSize_add_prevFree (h : 8 ∣ s) : blockSize (s + andPrevFree w) = s := by
  unfold blockSize andPrevFree; omega
theorem freeBit_add_prevFree (h : 8 ∣ s) : freeBit (s + andPrevFree w) = false := by
  simp only [freeBit, andPrevFree, beq_eq_false_iff_ne]; omega
theorem prevFreeBit_add_prevFree (h : 8 ∣ s) : prevFreeBit (s + andPrevFree w) = prevFreeBit w := by
  unfold prevFreeBit andPrevFree; congr 1; omega
theorem blockSize_of_dvd (h : 8 ∣ s) : blockSize s = s := by unfold blockSize; omega
theorem freeBit_of_dvd (h : 8 ∣ s) : freeBit s = false := by
  simp only [freeBit, beq_eq_false_iff_ne]; omega
theorem prevFreeBit_of_dvd (h : 8 ∣ s) : prevFreeBit s = false := by
  simp only [prevFreeBit, beq_eq_false_iff_ne]; omega

end Bits

/-! ## Fields -/

/-- `block->prev_physical`. -/
def prevPhysical (m : Mem) (b : Nat) : Nat := m (b + 8)

/-- `block->next_free`. -/
def nextFree (m : Mem) (b : Nat) : Nat := m (b + 16)

/-- `block->prev_free`. -/
def prevFree (m : Mem) (b : Nat) : Nat := m (b + 24)

/-- mirrors `tlsf_arena_span`, src/src/cmem_slab.c:91-94 -/
def span (m : Mem) (b : Nat) : Nat := blockSize (m b)

def isFree (m : Mem) (b : Nat) : Bool := freeBit (m b)

def setSize (m : Mem) (b v : Nat) : Mem := m.set b v
def setPrevPhysical (m : Mem) (b v : Nat) : Mem := m.set (b + 8) v
def setNextFree (m : Mem) (b v : Nat) : Mem := m.set (b + 16) v
def setPrevFree (m : Mem) (b v : Nat) : Mem := m.set (b + 24) v

/-! ## The physical chain -/

/-- An open stretch of the physical chain: from `lo` the blocks `bs` lead to
`hi`, entered from `prev`; `last` is the last block (`prev` if none). -/
def Stretch (m : Mem) : Nat → Nat → List Nat → Nat → Nat → Prop
  | prev, lo, [], hi, last => lo = hi ∧ last = prev
  | prev, lo, a :: bs, hi, last =>
    a = lo ∧ prevPhysical m a = prev ∧ minBlock ≤ span m a ∧ 8 ∣ span m a ∧
      Stretch m a (a + span m a) bs hi last

/-- The physical chain up to the sentinel at `hi`. -/
def Walk (m : Mem) : Nat → Nat → List Nat → Nat → Prop
  | prev, lo, [], hi => lo = hi ∧ prevPhysical m hi = prev
  | prev, lo, a :: bs, hi =>
    a = lo ∧ prevPhysical m a = prev ∧ minBlock ≤ span m a ∧ 8 ∣ span m a ∧
      Walk m a (a + span m a) bs hi

section Chain
variable {m m' : Mem} {prev lo hi last x : Nat} {bs xs ys : List Nat}

theorem Walk.append_iff : Walk m prev lo (xs ++ ys) hi ↔
    ∃ mid t, Stretch m prev lo xs mid t ∧ Walk m t mid ys hi := by
  induction xs generalizing prev lo with
  | nil =>
    constructor
    · intro h; exact ⟨lo, prev, ⟨rfl, rfl⟩, h⟩
    · rintro ⟨mid, t, ⟨rfl, rfl⟩, h⟩; exact h
  | cons a xs ih =>
    constructor
    · rintro ⟨h1, h2, h3, h4, h⟩
      obtain ⟨mid, t, hx, hy⟩ := ih.mp h
      exact ⟨mid, t, ⟨h1, h2, h3, h4, hx⟩, hy⟩
    · rintro ⟨mid, t, ⟨h1, h2, h3, h4, hx⟩, hy⟩
      exact ⟨h1, h2, h3, h4, ih.mpr ⟨mid, t, hx, hy⟩⟩

theorem Stretch.append_iff : Stretch m prev lo (xs ++ ys) hi last ↔
    ∃ mid t, Stretch m prev lo xs mid t ∧ Stretch m t mid ys hi last := by
  induction xs generalizing prev lo with
  | nil =>
    constructor
    · intro h; exact ⟨lo, prev, ⟨rfl, rfl⟩, h⟩
    · rintro ⟨mid, t, ⟨rfl, rfl⟩, h⟩; exact h
  | cons a xs ih =>
    constructor
    · rintro ⟨h1, h2, h3, h4, h⟩
      obtain ⟨mid, t, hx, hy⟩ := ih.mp h
      exact ⟨mid, t, ⟨h1, h2, h3, h4, hx⟩, hy⟩
    · rintro ⟨mid, t, ⟨h1, h2, h3, h4, hx⟩, hy⟩
      exact ⟨h1, h2, h3, h4, ih.mpr ⟨mid, t, hx, hy⟩⟩

theorem Stretch.le (h : Stretch m prev lo bs hi last) : lo ≤ hi := by
  induction bs generalizing prev lo with
  | nil => exact Nat.le_of_eq h.1
  | cons a bs ih => obtain ⟨rfl, -, -, -, h⟩ := h; have := ih h; omega

theorem Walk.le (h : Walk m prev lo bs hi) : lo ≤ hi := by
  induction bs generalizing prev lo with
  | nil => exact Nat.le_of_eq h.1
  | cons a bs ih => obtain ⟨rfl, -, -, -, h⟩ := h; have := ih h; omega

/-- Where the blocks of a stretch lie. -/
theorem Stretch.mem_bounds (h : Stretch m prev lo bs hi last) {a : Nat} (ha : a ∈ bs) :
    lo ≤ a ∧ a + span m a ≤ hi ∧ minBlock ≤ span m a ∧ 8 ∣ span m a := by
  induction bs generalizing prev lo with
  | nil => cases ha
  | cons b bs ih =>
    obtain ⟨rfl, -, h3, h4, h⟩ := h
    rcases List.mem_cons.mp ha with rfl | ha
    · exact ⟨Nat.le_refl _, h.le, h3, h4⟩
    · have := ih h ha; exact ⟨by omega, this.2⟩

theorem Walk.mem_bounds (h : Walk m prev lo bs hi) {a : Nat} (ha : a ∈ bs) :
    lo ≤ a ∧ a + span m a ≤ hi ∧ minBlock ≤ span m a ∧ 8 ∣ span m a := by
  induction bs generalizing prev lo with
  | nil => cases ha
  | cons b bs ih =>
    obtain ⟨rfl, -, h3, h4, h⟩ := h
    rcases List.mem_cons.mp ha with rfl | ha
    · exact ⟨Nat.le_refl _, h.le, h3, h4⟩
    · have := ih h ha; exact ⟨by omega, this.2⟩

/-- Blocks come in address order and do not overlap. -/
theorem Walk.pairwise (h : Walk m prev lo bs hi) :
    bs.Pairwise fun a b => a + span m a ≤ b := by
  induction bs generalizing prev lo with
  | nil => exact List.Pairwise.nil
  | cons a bs ih =>
    obtain ⟨rfl, -, -, -, h⟩ := h
    exact List.pairwise_cons.mpr ⟨fun b hb => (h.mem_bounds hb).1, ih h⟩

theorem Stretch.pairwise (h : Stretch m prev lo bs hi last) :
    bs.Pairwise fun a b => a + span m a ≤ b := by
  induction bs generalizing prev lo with
  | nil => exact List.Pairwise.nil
  | cons a bs ih =>
    obtain ⟨rfl, -, -, -, h⟩ := h
    exact List.pairwise_cons.mpr ⟨fun b hb => (h.mem_bounds hb).1, ih h⟩

theorem Stretch.length_le (h : Stretch m prev lo bs hi last) : lo + 32 * bs.length ≤ hi := by
  induction bs generalizing prev lo with
  | nil => simp [h.1]
  | cons a bs ih =>
    obtain ⟨rfl, -, h3, -, h⟩ := h
    have := ih h
    simp only [List.length_cons]
    unfold minBlock at h3; omega

theorem Walk.length_le (h : Walk m prev lo bs hi) : lo + 32 * bs.length ≤ hi := by
  induction bs generalizing prev lo with
  | nil => simp [h.1]
  | cons a bs ih =>
    obtain ⟨rfl, -, h3, -, h⟩ := h
    have := ih h
    simp only [List.length_cons]
    unfold minBlock at h3; omega

theorem Stretch.congr (h : Stretch m prev lo bs hi last)
    (hag : ∀ a ∈ bs, span m' a = span m a ∧ prevPhysical m' a = prevPhysical m a) :
    Stretch m' prev lo bs hi last := by
  induction bs generalizing prev lo with
  | nil => exact h
  | cons a bs ih =>
    obtain ⟨rfl, h2, h3, h4, h⟩ := h
    have ha := hag a List.mem_cons_self
    refine ⟨rfl, ha.2.trans h2, ha.1 ▸ h3, ha.1 ▸ h4, ?_⟩
    rw [ha.1]
    exact ih h fun b hb => hag b (List.mem_cons_of_mem _ hb)

theorem Walk.congr (h : Walk m prev lo bs hi)
    (hag : ∀ a ∈ bs, span m' a = span m a ∧ prevPhysical m' a = prevPhysical m a)
    (hhi : prevPhysical m' hi = prevPhysical m hi) : Walk m' prev lo bs hi := by
  induction bs generalizing prev lo with
  | nil => exact ⟨h.1, hhi.trans h.2⟩
  | cons a bs ih =>
    obtain ⟨rfl, h2, h3, h4, h⟩ := h
    have ha := hag a List.mem_cons_self
    refine ⟨rfl, ha.2.trans h2, ha.1 ▸ h3, ha.1 ▸ h4, ?_⟩
    rw [ha.1]
    exact ih h fun b hb => hag b (List.mem_cons_of_mem _ hb)

/-- Rewriting the back-link of whatever starts at `lo` (a block or the
sentinel) changes only from where the walk is entered. -/
theorem Walk.setPrev (h : Walk m prev lo bs hi) (y : Nat) :
    Walk (setPrevPhysical m lo y) y lo bs hi := by
  cases bs with
  | nil => obtain ⟨rfl, -⟩ := h; exact ⟨rfl, by simp [prevPhysical, setPrevPhysical]⟩
  | cons a bs =>
    obtain ⟨rfl, -, h3, h4, h⟩ := h
    have hs : span (setPrevPhysical m a y) a = span m a := by
      simp [span, setPrevPhysical, Mem.set_ne]
    refine ⟨rfl, by simp [prevPhysical, setPrevPhysical], hs ▸ h3, hs ▸ h4, ?_⟩
    rw [hs]
    have hlt : ∀ c, a + span m a ≤ c → c + 8 ≠ a + 8 ∧ c ≠ a + 8 := by
      intro c hc; unfold minBlock at h3; omega
    refine h.congr (fun c hc => ?_) ?_
    · have := hlt c (h.mem_bounds hc).1
      exact ⟨congrArg blockSize (Mem.set_ne _ _ this.2), Mem.set_ne _ _ this.1⟩
    · exact Mem.set_ne _ _ (hlt hi h.le).1

/-- Block addresses keep the alignment of the region. -/
theorem Walk.aligned (h : Walk m prev lo bs hi) (hlo : 8 ∣ lo) {a : Nat} (ha : a ∈ bs) : 8 ∣ a := by
  induction bs generalizing prev lo with
  | nil => cases ha
  | cons b bs ih =>
    obtain ⟨rfl, -, -, h4, h⟩ := h
    rcases List.mem_cons.mp ha with rfl | ha
    · exact hlo
    · exact ih h (Nat.dvd_add hlo h4) ha

theorem Walk.entry (h : Walk m prev lo bs hi) : prevPhysical m lo = prev := by
  cases bs with
  | nil => obtain ⟨rfl, h⟩ := h; exact h
  | cons a bs => obtain ⟨rfl, h, -⟩ := h; exact h

/-- The walk from `lo` on after writes that touch only flags, and the back-link
at `lo`. -/
theorem Walk.reenter (h : Walk m prev lo bs hi) (hs : ∀ a ∈ bs, span m' a = span m a)
    (hp : ∀ a ∈ bs ++ [hi], a ≠ lo → prevPhysical m' a = prevPhysical m a) :
    Walk m' (prevPhysical m' lo) lo bs hi := by
  cases bs with
  | nil => obtain ⟨rfl, -⟩ := h; exact ⟨rfl, rfl⟩
  | cons a bs =>
    obtain ⟨rfl, -, h3, h4, h⟩ := h
    have ha := hs a List.mem_cons_self
    refine ⟨rfl, rfl, ha ▸ h3, ha ▸ h4, ?_⟩
    rw [ha]
    unfold minBlock at h3
    refine h.congr (fun c hc => ⟨hs c (by simp [hc]), hp c (by simp [hc]) ?_⟩) (hp hi (by simp) ?_)
    · have := (h.mem_bounds hc).1; omega
    · have := h.le; omega

end Chain

/-! ## Free-list links -/

/-- The doubly linked list threaded through `next_free` / `prev_free`. -/
def freeDL (m : Mem) (head : Nat) : DL Nat := ⟨nextFree m, prevFree m, head⟩

/-- Any two different members are at least a `tlsf_block_t` apart. -/
def Apart (l : List Nat) : Prop := ∀ a ∈ l, ∀ b ∈ l, a = b ∨ a + 32 ≤ b ∨ b + 32 ≤ a

/-- Take `b` out of the list headed by `head`; returns memory and new head.
mirrors src/src/cmem_slab.c:98-105 and src/src/cmem_tlsf.c:255-263 -/
def unlinkBlock (m : Mem) (head b : Nat) : Mem × Nat :=
  let (m₁, head₁) := if prevFree m b ≠ 0 then (setNextFree m (prevFree m b) (nextFree m b), head)
    else (m, nextFree m b)
  let m₂ := if nextFree m₁ b ≠ 0 then setPrevFree m₁ (nextFree m₁ b) (prevFree m₁ b) else m₁
  (m₂, head₁)

/-- Put `b` between `p` and `c` (either may be null).
mirrors src/src/cmem_slab.c:138-147; with `p = 0` and `c` the head it is the
push of src/src/cmem_tlsf.c:216-221 -/
def linkBlock (m : Mem) (head b p c : Nat) : Mem × Nat :=
  let m₁ := setPrevFree (setNextFree m b c) b p
  let (m₂, head₂) := if p ≠ 0 then (setNextFree m₁ p b, head) else (m₁, b)
  let m₃ := if c ≠ 0 then setPrevFree m₂ c b else m₂
  (m₃, head₂)

section Links
variable {m : Mem} {head b p c : Nat} {xs ys : List Nat}

theorem Apart.mono {l l' : List Nat} (h : Apart l) (hs : ∀ a ∈ l', a ∈ l) : Apart l' :=
  fun x hx y hy => h x (hs x hx) y (hs y hy)

theorem Apart.of_pairwise {l : List Nat} (h : l.Pairwise fun a b => a + 32 ≤ b) : Apart l := by
  have hs : l.Pairwise fun a b => a = b ∨ a + 32 ≤ b ∨ b + 32 ≤ a := h.imp fun h => .inr (.inl h)
  have hf : l.Pairwise (flip fun a b => a = b ∨ a + 32 ≤ b ∨ b + 32 ≤ a) :=
    h.imp fun h => .inr (.inr h)
  intro a ha c hc
  exact hs.forall_of_forall_of_flip (fun x _ => .inl rfl) hf ha hc

/-- The links of a node are null or other members of its list. -/
theorem freeDL_neighbours (h : (freeDL m head).Is (xs ++ b :: ys)) :
    (prevFree m b = 0 ∨ prevFree m b ∈ xs) ∧ (nextFree m b = 0 ∨ nextFree m b ∈ ys) := by
  obtain ⟨t, hs⟩ := h
  obtain ⟨h', t', hx, rfl, -, hp, hy⟩ := Seg.append_iff.mp hs
  constructor
  · rcases hx.last_eq_or_mem with ⟨-, e, -⟩ | hm
    · exact .inl (hp.trans e)
    · exact .inr (Eq.mpr (congrArg (· ∈ xs) hp) hm)
  · rcases hy.head_eq_or_mem with ⟨-, -, e⟩ | hm
    · exact .inl e
    · exact .inr hm

theorem freeDL_next (h : (freeDL m head).Is (xs ++ b :: ys)) : nextFree m b = ys.head?.getD 0 := by
  obtain ⟨t, hs⟩ := h
  obtain ⟨h', t', -, rfl, -, -, hy⟩ := Seg.append_iff.mp hs
  exact hy.head_eq

theorem freeDL_prev (h : (freeDL m head).Is (xs ++ b :: ys)) :
    prevFree m b = xs.getLast?.getD 0 := by
  obtain ⟨t, hs⟩ := h
  obtain ⟨h', t', hx, rfl, -, hp, -⟩ := Seg.append_iff.mp hs
  exact hp.trans hx.last_eq

/-! What each link write does to the two link fields of an apart node. -/

theorem nextFree_setNextFree (m : Mem) (a c v : Nat) :
    nextFree (setNextFree m c v) a = Function.update (nextFree m) c v a := by
  simp [nextFree, setNextFree, Mem.set_apply, Function.update_apply]

theorem prevFree_setPrevFree (m : Mem) (a c v : Nat) :
    prevFree (setPrevFree m c v) a = Function.update (prevFree m) c v a := by
  simp [prevFree, setPrevFree, Mem.set_apply, Function.update_apply]

theorem nextFree_setPrevFree (m : Mem) {a c : Nat} (v : Nat)
    (h : a = c ∨ a + 32 ≤ c ∨ c + 32 ≤ a) : nextFree (setPrevFree m c v) a = nextFree m a :=
  Mem.set_ne _ _ (by omega)

theorem prevFree_setNextFree (m : Mem) {a c : Nat} (v : Nat)
    (h : a = c ∨ a + 32 ≤ c ∨ c + 32 ≤ a) : prevFree (setNextFree m c v) a = prevFree m a :=
  Mem.set_ne _ _ (by omega)

theorem unlinkBlock_is (h : (freeDL m head).Is (xs ++ b :: ys)) (hap : Apart (xs ++ b :: ys)) :
    (freeDL (unlinkBlock m head b).1 (unlinkBlock m head b).2).Is (xs ++ ys) := by
  obtain ⟨hp, hn⟩ := freeDL_neighbours h
  have hbm : b ∈ xs ++ b :: ys := by simp
  have sepP : ∀ a ∈ xs ++ b :: ys, prevFree m b ≠ 0 →
      a = prevFree m b ∨ a + 32 ≤ prevFree m b ∨ prevFree m b + 32 ≤ a :=
    fun a ha h0 => hap a ha _ (by simp [hp.resolve_left h0])
  have sepN : ∀ a ∈ xs ++ b :: ys, nextFree m b ≠ 0 →
      a = nextFree m b ∨ a + 32 ≤ nextFree m b ∨ nextFree m b + 32 ≤ a :=
    fun a ha h0 => hap a ha _ (by simp [hn.resolve_left h0])
  have hne : prevFree m b ≠ 0 → b ≠ prevFree m b := by
    intro h0 e
    have hx := hp.resolve_left h0
    rw [← e] at hx
    exact (List.disjoint_of_nodup_append h.nodup) hx List.mem_cons_self
  refine h.unlink.congr ?_ fun a ha => ?_
  · by_cases hp0 : prevFree m b = 0
    · simp only [unlinkBlock, DL.unlink, freeDL, hp0, ne_eq, not_true_eq_false, if_false]
      split <;> rfl
    · simp only [unlinkBlock, DL.unlink, freeDL, hp0, ne_eq, not_false_eq_true, if_true]
      split <;> rfl
  · have ha' : a ∈ xs ++ b :: ys := by
      simp only [List.mem_append, List.mem_cons] at ha ⊢; tauto
    by_cases hp0 : prevFree m b = 0
    · simp only [unlinkBlock, DL.unlink, freeDL, hp0, ne_eq, not_true_eq_false, if_false]
      by_cases hn0 : nextFree m b = 0
      · simp [hn0]
      · simp only [hn0, not_false_eq_true, if_true]
        exact ⟨nextFree_setPrevFree _ _ (sepN a ha' hn0), prevFree_setPrevFree ..⟩
    · have e1 : nextFree (setNextFree m (prevFree m b) (nextFree m b)) b = nextFree m b := by
        rw [nextFree_setNextFree, Function.update_of_ne (hne hp0)]
      have e2 : prevFree (setNextFree m (prevFree m b) (nextFree m b)) b = prevFree m b :=
        prevFree_setNextFree _ _ (sepP b hbm hp0)
      simp only [unlinkBlock, DL.unlink, freeDL, hp0, ne_eq, not_false_eq_true, if_true, e1, e2,
        Function.update_of_ne (hne hp0)]
      by_cases hn0 : nextFree m b = 0
      · simp only [hn0, not_true_eq_false, if_false]
        exact ⟨nextFree_setNextFree .., prevFree_setNextFree _ _ (sepP a ha' hp0)⟩
      · simp only [hn0, not_false_eq_true, if_true]
        refine ⟨?_, ?_⟩
        · rw [nextFree_setPrevFree _ _ (sepN a ha' hn0), nextFree_setNextFree]
        · rw [prevFree_setPrevFree]
          simp only [Function.update_apply, prevFree_setNextFree _ _ (sepP a ha' hp0)]

/-- The words `unlinkBlock` may change: the links of the other members. -/
theorem unlinkBlock_frame (h : (freeDL m head).Is (xs ++ b :: ys)) {x : Nat}
    (hx : ∀ c ∈ xs ++ ys, x ≠ c + 16 ∧ x ≠ c + 24) : (unlinkBlock m head b).1 x = m x := by
  obtain ⟨hp, hn⟩ := freeDL_neighbours h
  have step : ∀ m' : Mem, nextFree m' b = nextFree m b →
      (if nextFree m' b ≠ 0 then setPrevFree m' (nextFree m' b) (prevFree m' b) else m') x
        = m' x := by
    intro m' he
    split
    · rename_i h0
      rw [he] at h0 ⊢
      exact Mem.set_ne _ _ (hx _ (List.mem_append_right _ (hn.resolve_left h0))).2
    · rfl
  by_cases hp0 : prevFree m b = 0
  · have := step m rfl
    simp only [unlinkBlock, hp0, ne_eq, not_true_eq_false, if_false] at this ⊢
    exact this
  · have hpx := hp.resolve_left hp0
    have hne : b ≠ prevFree m b := fun e =>
      (List.disjoint_of_nodup_append h.nodup) (Eq.mpr (congrArg (· ∈ xs) e) hpx)
        List.mem_cons_self
    simp only [unlinkBlock, hp0, ne_eq, not_false_eq_true, if_true]
    refine (step _ ?_).trans (Mem.set_ne _ _ (hx _ (List.mem_append_left _ hpx)).1)
    rw [nextFree_setNextFree, Function.update_of_ne hne]

theorem linkBlock_is (h : (freeDL m head).Is (xs ++ ys)) (hap : Apart (xs ++ b :: ys))
    (h0 : b ≠ 0) (hb : b ∉ xs ++ ys) (hp : p = xs.getLast?.getD 0) (hc : c = ys.head?.getD 0) :
    (freeDL (linkBlock m head b p c).1 (linkBlock m head b p c).2).Is (xs ++ b :: ys) := by
  have hbm : b ∈ xs ++ b :: ys := by simp
  have hpm : p ≠ 0 → p ∈ xs ++ b :: ys := by
    intro hp0
    cases e : xs.getLast? with
    | none => rw [e] at hp; exact absurd hp hp0
    | some y => rw [e] at hp; subst hp; exact List.mem_append_left _ (List.mem_of_getLast? e)
  have hcm : c ≠ 0 → c ∈ xs ++ b :: ys := by
    intro hc0
    cases e : ys.head? with
    | none => rw [e] at hc; exact absurd hc hc0
    | some y =>
      rw [e] at hc; subst hc
      exact List.mem_append_right _ (List.mem_cons_of_mem _ (List.mem_of_mem_head? e))
  refine (h.link h0 hb hp hc).congr ?_ fun a ha => ?_
  · simp only [linkBlock, DL.link, freeDL]
    split <;> split <;> rfl
  · have sb := hap a ha b hbm
    have e1 : nextFree (setPrevFree (setNextFree m b c) b p) a
        = Function.update (nextFree m) b c a := by
      rw [nextFree_setPrevFree _ _ sb, nextFree_setNextFree]
    have e2 : prevFree (setPrevFree (setNextFree m b c) b p) a
        = Function.update (prevFree m) b p a := by
      rw [prevFree_setPrevFree]
      simp only [Function.update_apply, prevFree_setNextFree _ _ sb]
    by_cases hp0 : p = 0
    · by_cases hc0 : c = 0
      · simp only [linkBlock, DL.link, freeDL, hp0, hc0, ne_eq, not_true_eq_false, if_false]
          at e1 e2 ⊢
        exact ⟨e1, e2⟩
      · simp only [linkBlock, DL.link, freeDL, hp0, hc0, ne_eq, not_true_eq_false,
          not_false_eq_true, if_false, if_true] at e1 e2 ⊢
        refine ⟨(nextFree_setPrevFree _ _ (hap a ha c (hcm hc0))).trans e1, ?_⟩
        rw [prevFree_setPrevFree]
        simp only [Function.update_apply] at e2 ⊢
        rw [e2]
    · have e3 : nextFree (setNextFree (setPrevFree (setNextFree m b c) b p) p b) a
          = Function.update (Function.update (nextFree m) b c) p b a := by
        rw [nextFree_setNextFree]
        simp only [Function.update_apply] at e1 ⊢
        rw [e1]
      have e4 := (prevFree_setNextFree (setPrevFree (setNextFree m b c) b p) b
        (hap a ha p (hpm hp0))).trans e2
      by_cases hc0 : c = 0
      · simp only [linkBlock, DL.link, freeDL, hp0, hc0, ne_eq, not_true_eq_false,
          not_false_eq_true, if_false, if_true] at e3 e4 ⊢
        exact ⟨e3, e4⟩
      · simp only [linkBlock, DL.link, freeDL, hp0, hc0, ne_eq, not_false_eq_true, if_true]
        refine ⟨(nextFree_setPrevFree _ _ (hap a ha c (hcm hc0))).trans e3, ?_⟩
        rw [prevFree_setPrevFree]
        simp only [Function.update_apply] at e4 ⊢
        rw [e4]

/-- The words `linkBlock` may change: the links of the three nodes. -/
theorem linkBlock_frame {x : Nat} (hb : x ≠ b + 16 ∧ x ≠ b + 24)
    (hp : p ≠ 0 → x ≠ p + 16) (hc : c ≠ 0 → x ≠ c + 24) : (linkBlock m head b p c).1 x = m x := by
  have e1 : setPrevFree (setNextFree m b c) b p x = m x :=
    (Mem.set_ne _ _ hb.2).trans (Mem.set_ne _ _ hb.1)
  by_cases hp0 : p = 0 <;> by_cases hc0 : c = 0 <;> simp only [linkBlock, hp0, hc0, ne_eq,
    not_true_eq_false, not_false_eq_true, if_true, if_false] at e1 ⊢
  · exact e1
  · exact (Mem.set_ne _ _ (hc hc0)).trans e1
  · exact (Mem.set_ne _ _ (hp hp0)).trans e1
  · exact (Mem.set_ne _ _ (hc hc0)).trans ((Mem.set_ne _ _ (hp hp0)).trans e1)

end Links

/-! ## The `mp_block_header_t` of a block

Right behind the `tlsf_block_t`, unless the block serves an aligned request. -/

/-- `header->requested_size` -/
def requestedSize (m : Mem) (b : Nat) : Nat := m (b + blockHdr + 8)

/-- `header->usable_size` -/
def usableSize (m : Mem) (b : Nat) : Nat := m (b + blockHdr + 16)

/-- What the header says of the block; with `k` it says all of it. -/
structure Stamp (k : Prop) (m : Mem) (b : Nat) : Prop where
  fits : requestedSize m b ≤ usableSize m b
  room : usableSize m b + (blockHdr + hdrSize) ≤ span m b
  exact : k → usableSize m b + (blockHdr + hdrSize) = span m b

theorem Stamp.congr {k : Prop} {m m' : Mem} {b : Nat} (h : Stamp k m b)
    (h1 : requestedSize m' b = requestedSize m b) (h2 : usableSize m' b = usableSize m b)
    (h3 : span m' b = span m b) : Stamp k m' b := by
  obtain ⟨f, r, e⟩ := h
  exact ⟨by omega, by omega, fun hk => by have := e hk; omega⟩

/-- A request for `total` bytes cuts the block, or needs all of it. -/
def Splits (m : Mem) (total b : Nat) : Prop :=
  minBlock + blockHdr ≤ span m b - total ∨ span m b = total

instance (m : Mem) (total b : Nat) : Decidable (Splits m total b) :=
  inferInstanceAs (Decidable (_ ∨ _))

end Cmem

import Cmem.L1Layout.Flags
import Cmem.L2Arena.Model

/-!
# Free-list insertion keeps the arena tiled

`Tiled k A as`: the blocks `as` tile the region from `raw` to the sentinel
with true back-links, the free list is exactly the FREE blocks in address
order, and no two FREE blocks are neighbours. The parameter `k` says whether
PREV_FREE is claimed to be right as well: the same proofs then serve the
conservation results (`k` false) and the validator (`k` true).

`Floating k A pre b post` is the state in which `tlsf_arena_insert_free` is
called: `b` carries FREE but is on no list, and what follows `b` may still
have a stale back-link and a stale PREV_FREE bit. The two merges keep it
(`mergeForward_spec`, `mergeBackward_spec`), linking ends it
(`linkFree_spec`), and `insertFree_spec` is their composition.
-/
namespace Cmem.L2.ThreadArena

/-- **The arena's structural invariant.** -/
structure Tiled (k : Prop) (A : Arena) (as : List Nat) : Prop where
  pos : 0 < A.raw
  walk : Walk A.mem 0 A.raw as A.sentinel
  fits : A.sentinel + 32 ≤ A.raw + A.size
  sent : A.mem A.sentinel = 0
  list : (freeDL A.mem A.freeList).Is (as.filter (isFree A.mem))
  flags : Flags k A.mem false as

/-- The blocks `pre` and `post` tile the region but for the gap `[lo, hi)`,
whose predecessor is recorded at `lo`. What follows the gap may have a stale
back-link and a stale PREV_FREE bit. -/
structure Gap (k : Prop) (A : Arena) (pre : List Nat) (lo hi : Nat) (post : List Nat) : Prop where
  pos : 0 < A.raw
  left : Stretch A.mem 0 A.raw pre lo (prevPhysical A.mem lo)
  room : lo + 32 ≤ hi
  dvd : 8 ∣ hi - lo
  right : ∃ p, Walk A.mem p hi post A.sentinel
  fits : A.sentinel + 32 ≤ A.raw + A.size
  sent : A.mem A.sentinel = 0
  flagsL : Flags k A.mem false pre
  flagsR : FlagsTail k A.mem post

/-- `b` fills the gap: it is FREE but on no list. -/
structure Floating (k : Prop) (A : Arena) (pre : List Nat) (b : Nat) (post : List Nat) : Prop
    extends Gap k A pre b (b + span A.mem b) post where
  list : (freeDL A.mem A.freeList).Is ((pre ++ post).filter (isFree A.mem))
  free : isFree A.mem b = true
  pflag : k → prevFreeBit (A.mem b) = false

/-- Everything but the memory and the list head is as before. -/
def Kept (A A' : Arena) : Prop := A' = { A with mem := A'.mem, freeList := A'.freeList }

namespace Kept
variable {A B C : Arena}

theorem refl (A : Arena) : Kept A A := rfl

theorem trans (h : Kept A B) (h' : Kept B C) : Kept A C := by
  unfold Kept at *; rw [h', h]

theorem setMem (A : Arena) (m : Mem) : Kept A { A with mem := m } := rfl

theorem raw (h : Kept A B) : B.raw = A.raw := by rw [h]
theorem size (h : Kept A B) : B.size = A.size := by rw [h]
theorem sentinel (h : Kept A B) : B.sentinel = A.sentinel := by rw [h]
theorem remoteFree (h : Kept A B) : B.remoteFree = A.remoteFree := by rw [h]
theorem liveBytes (h : Kept A B) : B.liveBytes = A.liveBytes := by rw [h]
theorem retired (h : Kept A B) : B.retired = A.retired := by rw [h]
theorem cleanupClaimed (h : Kept A B) : B.cleanupClaimed = A.cleanupClaimed := by rw [h]

end Kept

/-- The blocks of a list that are not FREE. -/
def usedOf (m : Mem) (l : List Nat) : List Nat := l.filter fun a => !isFree m a

/-- Blocks in use keep their state, their span and their mailbox link. -/
def KeepsUsed (m m' : Mem) (l : List Nat) : Prop :=
  ∀ a ∈ l, isFree m a = false →
    isFree m' a = false ∧ span m' a = span m a ∧ nextFree m' a = nextFree m a

section Lists
variable {m m' : Mem} {l : List Nat}

theorem filter_isFree_congr (h : ∀ a ∈ l, m' a = m a) :
    l.filter (isFree m') = l.filter (isFree m) :=
  List.filter_congr fun a ha => by simp [isFree, h a ha]

theorem usedOf_congr (h : ∀ a ∈ l, isFree m' a = isFree m a) : usedOf m' l = usedOf m l :=
  List.filter_congr fun a ha => by rw [h a ha]

theorem usedOf_append (xs ys : List Nat) : usedOf m (xs ++ ys) = usedOf m xs ++ usedOf m ys :=
  List.filter_append ..

theorem usedOf_cons_free {a : Nat} (h : isFree m a = true) : usedOf m (a :: l) = usedOf m l := by
  simp [usedOf, h]

end Lists

/-! ## Geometry -/

section Geometry
variable {k : Prop} {A A' B : Arena} {pre post as : List Nat} {lo hi c : Nat}

theorem Gap.below (h : Gap k A pre lo hi post) {a : Nat} (ha : a ∈ pre) :
    A.raw ≤ a ∧ a + span A.mem a ≤ lo ∧ a + 32 ≤ lo := by
  obtain ⟨h1, h2, h3, -⟩ := h.left.mem_bounds ha
  unfold minBlock at h3
  omega

theorem Gap.above (h : Gap k A pre lo hi post) {a : Nat} (ha : a ∈ post) :
    hi ≤ a ∧ a + 32 ≤ A.sentinel := by
  obtain ⟨p, hw⟩ := h.right
  obtain ⟨h1, h2, h3, -⟩ := hw.mem_bounds ha
  unfold minBlock at *
  omega

theorem Gap.hi_le (h : Gap k A pre lo hi post) : hi ≤ A.sentinel := by
  obtain ⟨p, hw⟩ := h.right
  exact hw.le

theorem Gap.raw_le (h : Gap k A pre lo hi post) : A.raw ≤ lo := h.left.le

/-- Members of either side and the sentinel lie outside the gap. -/
theorem Gap.outside (h : Gap k A pre lo hi post) {a : Nat}
    (ha : a ∈ pre ++ post ++ [A.sentinel]) : a + 32 ≤ lo ∨ hi ≤ a := by
  simp only [List.mem_append, List.mem_singleton] at ha
  rcases ha with (ha | ha) | rfl
  · exact .inl (h.below ha).2.2
  · exact .inr (h.above ha).1
  · exact .inr h.hi_le

theorem Gap.sorted (h : Gap k A pre lo hi post) :
    (pre ++ post ++ [A.sentinel]).Pairwise fun a c => a + 32 ≤ c := by
  have hpre : pre.Pairwise fun a c => a + 32 ≤ c :=
    h.left.pairwise.imp_of_mem fun ha _ hs => by
      have := (h.left.mem_bounds ha).2.2.1
      unfold minBlock at this; omega
  obtain ⟨p, hw⟩ := h.right
  have hpost : post.Pairwise fun a c => a + 32 ≤ c :=
    hw.pairwise.imp_of_mem fun ha _ hs => by
      have := (hw.mem_bounds ha).2.2.1
      unfold minBlock at this; omega
  have hle := h.hi_le
  have hroom := h.room
  simp only [List.append_assoc, List.pairwise_append, List.mem_append, List.mem_singleton]
  refine ⟨hpre, ⟨hpost, by simp, ?_⟩, ?_⟩
  · rintro x hx y rfl
    exact (h.above hx).2
  · rintro x hx y (hy | rfl)
    · have := h.below hx; have := h.above hy; omega
    · have := h.below hx; omega

theorem Gap.apart (h : Gap k A pre lo hi post) : Apart (pre ++ post ++ [A.sentinel]) :=
  Apart.of_pairwise h.sorted

theorem Gap.length_le (h : Gap k A pre lo hi post) : (pre ++ post).length ≤ A.size := by
  obtain ⟨p, hw⟩ := h.right
  have h1 := h.left.length_le
  have h2 := hw.length_le
  have h3 := h.fits
  have h4 := h.room
  simp only [List.length_append]
  omega

/-- Only the headers of the two sides and the back-link at `lo` matter. -/
theorem Gap.congr (h : Gap k A pre lo hi post) (hk : Kept A B)
    (hw : ∀ a ∈ pre ++ post ++ [A.sentinel],
      B.mem a = A.mem a ∧ prevPhysical B.mem a = prevPhysical A.mem a)
    (hlo : prevPhysical B.mem lo = prevPhysical A.mem lo) : Gap k B pre lo hi post := by
  have hl : ∀ a ∈ pre, B.mem a = A.mem a := fun a ha => (hw a (by simp [ha])).1
  have hr : ∀ a ∈ post, B.mem a = A.mem a := fun a ha => (hw a (by simp [ha])).1
  obtain ⟨p, hwk⟩ := h.right
  refine ⟨hk.raw ▸ h.pos, ?_, h.room, h.dvd, ⟨p, ?_⟩, ?_, ?_, h.flagsL.congr hl, h.flagsR.congr hr⟩
  · rw [hlo, hk.raw]
    exact h.left.congr fun a ha => ⟨congrArg blockSize (hl a ha), (hw a (by simp [ha])).2⟩
  · rw [hk.sentinel]
    exact hwk.congr (fun a ha => ⟨congrArg blockSize (hr a ha), (hw a (by simp [ha])).2⟩)
      (hw _ (by simp)).2
  · rw [hk.sentinel, hk.raw, hk.size]; exact h.fits
  · rw [hk.sentinel]; exact (hw _ (by simp)).1.trans h.sent

/-- Writes inside the gap do not disturb it, its back-link word apart. -/
theorem Gap.write (h : Gap k A pre lo hi post) {m' : Mem}
    (hm : ∀ x, x < lo ∨ hi ≤ x → m' x = A.mem x)
    (hlo : prevPhysical m' lo = prevPhysical A.mem lo) :
    Gap k { A with mem := m' } pre lo hi post := by
  refine h.congr (B := { A with mem := m' }) rfl (fun a ha => ?_) hlo
  have := h.outside ha
  exact ⟨hm a (by omega), hm (a + 8) (by omega)⟩

/-- The gap swallows the block after it. -/
theorem Gap.takeNext (h : Gap k A pre lo hi (c :: post)) :
    c = hi ∧ Gap k A pre lo (hi + span A.mem c) post := by
  obtain ⟨p, rfl, -, h3, h4, hw⟩ := h.right
  refine ⟨rfl, h.pos, h.left, ?_, ?_, ⟨_, hw⟩, h.fits, h.sent, h.flagsL, ?_⟩
  · have := h.room; omega
  · have h1 := h.dvd; have h2 := h.room; omega
  · have ht : Flags k A.mem (isFree A.mem c) post := h.flagsR
    exact ht.tail

/-- The gap swallows the block before it. -/
theorem Gap.takePrev (h : Gap k A (pre ++ [c]) lo hi post) :
    c + span A.mem c = lo ∧ Gap k A pre c hi post := by
  obtain ⟨mid, t, hx, hy⟩ := Stretch.append_iff.mp h.left
  obtain ⟨rfl, rfl, h3, h4, h5, -⟩ := hy
  refine ⟨h5, h.pos, hx, ?_, ?_, h.right, h.fits, h.sent, h.flagsL.append.1, h.flagsR⟩
  · have := h.room; unfold minBlock at h3; omega
  · have h1 := h.dvd; have h2 := h.room; omega

theorem Tiled.sorted (h : Tiled k A as) : (as ++ [A.sentinel]).Pairwise fun a c => a + 32 ≤ c := by
  refine List.pairwise_append.mpr ⟨h.walk.pairwise.imp_of_mem fun ha _ hs => ?_, by simp, ?_⟩
  · have := (h.walk.mem_bounds ha).2.2.1
    unfold minBlock at this; omega
  · rintro x hx y hy
    rw [List.mem_singleton.mp hy]
    have := h.walk.mem_bounds hx
    unfold minBlock at this; omega

theorem Tiled.apart (h : Tiled k A as) : Apart (as ++ [A.sentinel]) := Apart.of_pairwise h.sorted

theorem Tiled.length_le (h : Tiled k A as) : as.length ≤ A.size := by
  have := h.walk.length_le
  have := h.fits
  omega

end Geometry

/-! ## Unlinking -/

section Unlink
variable {A : Arena} {xs ys : List Nat} {b : Nat}

theorem unlinkFree_kept (A : Arena) (b : Nat) : Kept A (tlsfArenaUnlinkFree A b) := rfl

theorem unlinkFree_is (h : (freeDL A.mem A.freeList).Is (xs ++ b :: ys))
    (hap : Apart (xs ++ b :: ys)) :
    (freeDL (tlsfArenaUnlinkFree A b).mem (tlsfArenaUnlinkFree A b).freeList).Is (xs ++ ys) := by
  refine (unlinkBlock_is h hap).congr rfl fun a ha => ?_
  -- the node's own links are cleared, and it is no longer a member
  have hm : a ∈ xs ++ b :: ys := by
    simp only [List.mem_append, List.mem_cons] at ha ⊢; tauto
  have hne : a ≠ b := by
    rintro rfl
    have := h.nodup
    rw [List.nodup_middle] at this
    exact (List.nodup_cons.mp this).1 ha
  have := hap a hm b (by simp)
  constructor
  · exact (Mem.set_ne _ _ (by omega)).trans (Mem.set_ne _ _ (by omega))
  · exact (Mem.set_ne _ _ (by omega)).trans (Mem.set_ne _ _ (by omega))

theorem unlinkFree_frame (h : (freeDL A.mem A.freeList).Is (xs ++ b :: ys)) {x : Nat}
    (hx : ∀ c ∈ xs ++ b :: ys, x ≠ c + 16 ∧ x ≠ c + 24) :
    (tlsfArenaUnlinkFree A b).mem x = A.mem x := by
  have hb := hx b (by simp)
  refine (Mem.set_ne _ _ hb.2).trans
    ((Mem.set_ne _ _ hb.1).trans (unlinkBlock_frame h fun c hc => ?_))
  refine hx c ?_
  simp only [List.mem_append, List.mem_cons] at hc ⊢; tauto

end Unlink

/-! ## The merges -/

/-- `A'` differs from `A` in links and free blocks only: the blocks in use among
`l` are those among `l'`, untouched. -/
structure Preserves (A A' : Arena) (l l' : List Nat) : Prop where
  kept : Kept A A'
  used : usedOf A'.mem l' = usedOf A.mem l
  keeps : KeepsUsed A.mem A'.mem l

theorem mem_usedOf {m : Mem} {l : List Nat} {a : Nat} :
    a ∈ usedOf m l ↔ a ∈ l ∧ isFree m a = false := by
  simp [usedOf]

theorem Preserves.refl (A : Arena) (l : List Nat) : Preserves A A l l :=
  ⟨Kept.refl A, rfl, fun _ _ h => ⟨h, rfl, rfl⟩⟩

theorem Preserves.trans {A B C : Arena} {l l' l'' : List Nat} (h : Preserves A B l l')
    (h' : Preserves B C l' l'') : Preserves A C l l'' := by
  refine ⟨h.kept.trans h'.kept, h'.used.trans h.used, fun a ha hf => ?_⟩
  obtain ⟨h1, h2, h3⟩ := h.keeps a ha hf
  have hm : a ∈ usedOf B.mem l' := h.used ▸ mem_usedOf.mpr ⟨ha, hf⟩
  obtain ⟨h1', h2', h3'⟩ := h'.keeps a (mem_usedOf.mp hm).1 h1
  exact ⟨h1', h2'.trans h2, h3'.trans h3⟩

section Merge
variable {k : Prop} {A : Arena} {pre post as xs ys : List Nat} {lo hi b c prev curr : Nat}

/-- Unlinking a block that has become part of the gap. -/
theorem Gap.unlink (h : Gap k A pre lo hi post)
    (hl : (freeDL A.mem A.freeList).Is (xs ++ c :: ys))
    (hxy : xs ++ ys = (pre ++ post).filter (isFree A.mem))
    (hc : lo ≤ c ∧ c + 32 ≤ hi) (hcl : c = lo ∨ lo + 32 ≤ c) :
    let A' := tlsfArenaUnlinkFree A c
    Gap k A' pre lo hi post ∧
    (freeDL A'.mem A'.freeList).Is ((pre ++ post).filter (isFree A'.mem)) ∧
      (∀ a ∈ pre ++ post ++ [A.sentinel], A'.mem a = A.mem a) ∧
      (∀ x, lo ≤ x → x < lo + 16 → A'.mem x = A.mem x) ∧
      Preserves A A' (pre ++ post) (pre ++ post) := by
  intro A'
  have hmem : ∀ x ∈ xs ++ c :: ys, x = c ∨ x ∈ (pre ++ post).filter (isFree A.mem) := by
    intro x hx
    rw [← hxy]
    simp only [List.mem_append, List.mem_cons] at hx ⊢; tauto
  have hap' : Apart (xs ++ c :: ys) := by
    have hap := h.apart
    intro x hx y hy
    have hout : ∀ z ∈ (pre ++ post).filter (isFree A.mem), z + 32 ≤ c ∨ c + 32 ≤ z := by
      intro z hz
      have := h.outside (List.mem_append_left [A.sentinel] (List.mem_filter.mp hz).1)
      omega
    rcases hmem x hx with rfl | hx' <;> rcases hmem y hy with rfl | hy'
    · exact .inl rfl
    · have := hout y hy'; omega
    · have := hout x hx'; omega
    · exact hap x (List.mem_append_left _ (List.mem_filter.mp hx').1)
        y (List.mem_append_left _ (List.mem_filter.mp hy').1)
  -- the words that stay: headers of both sides, and mailbox links of blocks in use
  have hstay : ∀ a ∈ pre ++ post ++ [A.sentinel], A'.mem a = A.mem a ∧
      prevPhysical A'.mem a = prevPhysical A.mem a ∧
      (isFree A.mem a = false → nextFree A'.mem a = nextFree A.mem a) := by
    intro a ha
    have hac := h.outside ha
    have hsep : ∀ x ∈ xs ++ c :: ys, a = x ∨ a + 32 ≤ x ∨ x + 32 ≤ a := by
      intro x hx
      rcases hmem x hx with rfl | hx'
      · omega
      · exact h.apart a ha x (List.mem_append_left _ (List.mem_filter.mp hx').1)
    refine ⟨unlinkFree_frame hl fun x hx => ?_, unlinkFree_frame hl fun x hx => ?_, fun hf =>
      unlinkFree_frame hl fun x hx => ?_⟩
    · have := hsep x hx; omega
    · have := hsep x hx; omega
    · have hne : a ≠ x := by
        rintro rfl
        rcases hmem a hx with rfl | hx'
        · omega
        · rw [(List.mem_filter.mp hx').2] at hf; cases hf
      have := hsep x hx; omega
  have hlow : ∀ x, lo ≤ x → x < lo + 16 → A'.mem x = A.mem x := by
    intro x hx1 hx2
    refine unlinkFree_frame hl fun y hy => ?_
    rcases hmem y hy with rfl | hy'
    · omega
    · have := h.outside (List.mem_append_left [A.sentinel] (List.mem_filter.mp hy').1)
      have := h.room
      omega
  have hbl : ∀ a ∈ pre ++ post, A'.mem a = A.mem a := fun a ha =>
    (hstay a (List.mem_append_left _ ha)).1
  refine ⟨h.congr rfl (fun a ha => ⟨(hstay a ha).1, (hstay a ha).2.1⟩)
    (hlow _ (by omega) (by omega)), ?_, fun a ha => (hstay a ha).1, hlow, rfl, ?_,
    fun a ha hf => ?_⟩
  · rw [filter_isFree_congr hbl, ← hxy]
    exact unlinkFree_is hl hap'
  · exact usedOf_congr fun a ha => congrArg freeBit (hbl a ha)
  · exact ⟨(congrArg freeBit (hbl a ha)).trans hf, congrArg blockSize (hbl a ha),
      (hstay a (List.mem_append_left _ ha)).2.2 hf⟩

theorem span_setSize_orFree (m : Mem) (b : Nat) {s : Nat} (hs : 8 ∣ s) :
    span (setSize m b (orFree s)) b = s := by
  simp [span, setSize, blockSize_of_dvd hs]

/-- Stamp the whole gap as one FREE block. -/
theorem Gap.stamp (h : Gap k A pre lo hi post)
    (hl : (freeDL A.mem A.freeList).Is ((pre ++ post).filter (isFree A.mem))) {s : Nat}
    (hs : lo + s = hi) :
    let A' := stampFree A lo s
    Floating k A' pre lo post ∧ (∀ a ∈ pre ++ post, A'.mem a = A.mem a) ∧
      Preserves A A' (pre ++ post) (pre ++ post) := by
  intro A'
  have hd : 8 ∣ s := by have := h.dvd; rwa [← hs, Nat.add_sub_cancel_left] at this
  have hsp : span A'.mem lo = s := span_setSize_orFree _ _ hd
  have hout : ∀ a ∈ pre ++ post, a + 32 ≤ lo ∨ hi ≤ a := fun a ha =>
    h.outside (List.mem_append_left _ ha)
  have hroom := h.room
  have hbl : ∀ a ∈ pre ++ post, A'.mem a = A.mem a := fun a ha =>
    Mem.set_ne _ _ (by have := hout a ha; omega)
  have hlink : ∀ a ∈ pre ++ post, nextFree A'.mem a = nextFree A.mem a ∧
      prevFree A'.mem a = prevFree A.mem a := fun a ha => by
    have := hout a ha
    exact ⟨Mem.set_ne _ _ (by omega), Mem.set_ne _ _ (by omega)⟩
  have hg : Gap k A' pre lo hi post :=
    h.write (fun x hx => Mem.set_ne _ _ (by omega)) (Mem.set_ne _ _ (by omega))
  refine ⟨⟨?_, ?_, ?_, fun _ => ?_⟩, hbl, rfl, ?_, fun a ha hf => ?_⟩
  · rw [hsp, hs]; exact hg
  · rw [filter_isFree_congr hbl]
    exact hl.congr rfl fun a ha => hlink a (List.mem_filter.mp ha).1
  · simp [isFree, A', stampFree, setSize]
  · simp [A', stampFree, setSize, prevFreeBit_of_dvd hd]
  · exact usedOf_congr fun a ha => congrArg freeBit (hbl a ha)
  · exact ⟨(congrArg freeBit (hbl a ha)).trans hf, congrArg blockSize (hbl a ha), (hlink a ha).1⟩

theorem mergeForward_spec (curr : Nat) (h : Floating k A pre b post)
    (hc : curr = (post.filter (isFree A.mem)).head?.getD 0) :
    let r := mergeForward A b curr
    ∃ post', Floating k r.1 pre b post' ∧ headFree r.1.mem post' = false ∧
      r.2 = (post'.filter (isFree r.1.mem)).head?.getD 0 ∧
      (∀ a ∈ pre, r.1.mem a = A.mem a) ∧ Preserves A r.1 (pre ++ post) (pre ++ post') := by
  intro r
  by_cases hcond : curr ≠ 0 ∧ b + span A.mem b = curr
  · -- the first free block after `b` is `b`'s neighbour
    obtain ⟨c, post, rfl⟩ : ∃ c l, post = c :: l := by
      cases post with
      | nil => exact absurd hc hcond.1
      | cons c l => exact ⟨c, l, rfl⟩
    obtain ⟨rfl, hgap⟩ := h.toGap.takeNext
    have hf : isFree A.mem (b + span A.mem b) = true := by
      by_contra hf
      rw [List.filter_cons_of_neg hf] at hc
      cases hh : (post.filter (isFree A.mem)).head? with
      | none => rw [hh] at hc; exact hcond.1 hc
      | some d =>
        rw [hh] at hc
        have hd : d ∈ post := (List.mem_filter.mp (List.mem_of_mem_head? hh)).1
        have h1 := (hgap.above hd).1
        have h2 := h.toGap.takeNext.2.room
        obtain ⟨p, -, -, h3, -⟩ := h.right
        simp only [Option.getD_some] at hc
        unfold minBlock at h3
        omega
    have hlist := h.list
    simp only [List.filter_append, List.filter_cons_of_pos hf] at hlist
    obtain ⟨p, -, -, h3, -⟩ := h.right
    have h4 := h.room
    unfold minBlock at h3
    obtain ⟨g1, l1, w1, b1, p1⟩ := hgap.unlink hlist (List.filter_append ..).symm
      ⟨by omega, by omega⟩ (.inr h4)
    obtain ⟨f2, w2, p2⟩ := g1.stamp l1 (s := span A.mem b + span A.mem (b + span A.mem b))
      (by omega)
    have hr : r = (stampFree (tlsfArenaUnlinkFree A (b + span A.mem b)) b
        (span A.mem b + span A.mem (b + span A.mem b)), nextFree A.mem (b + span A.mem b)) := by
      simp only [r, mergeForward, ← hcond.2]
      rw [if_pos ⟨by omega, trivial⟩]
    rw [hr]
    have hwords : ∀ a ∈ pre ++ post, (stampFree (tlsfArenaUnlinkFree A (b + span A.mem b)) b
        (span A.mem b + span A.mem (b + span A.mem b))).mem a = A.mem a := fun a ha =>
      (w2 a ha).trans (w1 a (List.mem_append_left _ ha))
    have hfl : Flags k A.mem true post := by
      have := h.flagsR
      simpa only [FlagsTail, hf] using this
    refine ⟨post, f2, ?_, ?_, fun a ha => hwords a (List.mem_append_left _ ha), ?_⟩
    · rw [headFree_congr fun a ha => hwords a (List.mem_append_right _ ha)]
      exact hfl.head_not
    · rw [filter_isFree_congr fun a ha => hwords a (List.mem_append_right _ ha)]
      exact freeDL_next hlist
    · have hskip : Preserves A A (pre ++ (b + span A.mem b) :: post) (pre ++ post) := by
        refine ⟨Kept.refl A, ?_, fun a _ hfa => ⟨hfa, rfl, rfl⟩⟩
        rw [usedOf_append, usedOf_append, usedOf_cons_free hf]
      exact (hskip.trans p1).trans p2
  · have hr : r = (A, curr) := by simp only [r, mergeForward]; rw [if_neg hcond]
    rw [hr]
    refine ⟨post, h, ?_, hc, fun _ _ => rfl, Preserves.refl ..⟩
    cases post with
    | nil => rfl
    | cons c post =>
      by_contra hf
      have hf : isFree A.mem c = true := by simpa [headFree] using hf
      rw [List.filter_cons_of_pos hf] at hc
      obtain ⟨rfl, -⟩ := h.toGap.takeNext
      have := h.room
      exact hcond ⟨by simp [hc]; omega, by simp [hc]⟩

theorem mergeBackward_spec (prev : Nat) (h : Floating k A pre b post)
    (hp : prev = (pre.filter (isFree A.mem)).getLast?.getD 0) :
    let r := mergeBackward A b prev
    ∃ pre', Floating k r.1 pre' r.2.1 post ∧ lastFree r.1.mem pre' = false ∧
      r.2.2 = (pre'.filter (isFree r.1.mem)).getLast?.getD 0 ∧
      (∀ a ∈ post, r.1.mem a = A.mem a) ∧ Preserves A r.1 (pre ++ post) (pre' ++ post) := by
  intro r
  by_cases hcond : prev ≠ 0 ∧ prev + span A.mem prev = b
  · -- the last free block before `b` is `b`'s neighbour
    obtain ⟨pre, c, rfl⟩ : ∃ l c, pre = l ++ [c] := by
      rcases List.eq_nil_or_concat pre with rfl | ⟨l, c, rfl⟩
      · exact absurd hp hcond.1
      · exact ⟨l, c, List.concat_eq_append⟩
    obtain ⟨hcb, hgap⟩ := h.toGap.takePrev
    have hcs : c + 32 ≤ b := (h.below (a := c) (by simp)).2.2
    have hf : isFree A.mem c = true := by
      by_contra hf
      rw [List.filter_append, List.filter_cons_of_neg hf, List.filter_nil, List.append_nil] at hp
      cases hh : (pre.filter (isFree A.mem)).getLast? with
      | none => rw [hh] at hp; exact hcond.1 hp
      | some d =>
        rw [hh] at hp
        have hd : d ∈ pre := (List.mem_filter.mp (List.mem_of_getLast? hh)).1
        have h1 := (hgap.below hd).2.1
        simp only [Option.getD_some] at hp
        rw [← hp] at h1
        omega
    have hlist := h.list
    simp only [List.append_assoc, List.filter_append, List.cons_append, List.nil_append,
      List.filter_cons_of_pos hf] at hlist
    have hpc : prev = c := by
      rw [hp]
      simp [List.filter_append, hf]
    subst hpc
    have hroom := h.room
    obtain ⟨g1, l1, w1, b1, p1⟩ := hgap.unlink hlist (List.filter_append ..).symm
      ⟨Nat.le_refl _, by omega⟩ (.inl rfl)
    obtain ⟨f2, w2, p2⟩ := g1.stamp l1 (s := span A.mem prev + span A.mem b) (by omega)
    have hr : r = (stampFree (tlsfArenaUnlinkFree A prev) prev (span A.mem prev + span A.mem b),
        prev, prevFree A.mem prev) := by
      simp only [r, mergeBackward]
      rw [if_pos hcond]
    rw [hr]
    have hwords : ∀ a ∈ pre ++ post, (stampFree (tlsfArenaUnlinkFree A prev) prev
        (span A.mem prev + span A.mem b)).mem a = A.mem a := fun a ha =>
      (w2 a ha).trans (w1 a (List.mem_append_left _ ha))
    refine ⟨pre, f2, ?_, ?_, fun a ha => hwords a (List.mem_append_right _ ha), ?_⟩
    · rw [lastFree_congr fun a ha => hwords a (List.mem_append_left _ ha)]
      have := h.flagsL.append.2.1
      rw [hf] at this
      simpa using this
    · rw [filter_isFree_congr fun a ha => hwords a (List.mem_append_left _ ha)]
      exact freeDL_prev hlist
    · have hskip : Preserves A A (pre ++ [prev] ++ post) (pre ++ post) := by
        refine ⟨Kept.refl A, ?_, fun a _ hfa => ⟨hfa, rfl, rfl⟩⟩
        rw [List.append_assoc, usedOf_append, usedOf_append, List.cons_append, List.nil_append,
          usedOf_cons_free hf]
      exact (hskip.trans p1).trans p2
  · have hr : r = (A, b, prev) := by simp only [r, mergeBackward]; rw [if_neg hcond]
    rw [hr]
    refine ⟨pre, h, ?_, hp, fun _ _ => rfl, Preserves.refl ..⟩
    rcases List.eq_nil_or_concat pre with rfl | ⟨l, c, rfl⟩
    · rfl
    · rw [List.concat_eq_append] at *
      by_contra hf
      have hf : isFree A.mem c = true := by simpa [lastFree] using hf
      have hpc : prev = c := by rw [hp]; simp [List.filter_append, hf]
      have h1 := h.toGap.takePrev.1
      have h2 := (h.below (a := c) (by simp)).1
      have h3 := h.pos
      exact hcond ⟨by omega, by rw [hpc]; exact h1⟩

/-- `linkBlock` between the free neighbours: the list gains `b`, no header
changes and no mailbox link either. -/
theorem Floating.link (h : Floating k A pre b post)
    (hp : prev = (pre.filter (isFree A.mem)).getLast?.getD 0)
    (hc : curr = (post.filter (isFree A.mem)).head?.getD 0) :
    let r := linkBlock A.mem A.freeList b prev curr
    (freeDL r.1 r.2).Is ((pre ++ b :: post).filter (isFree A.mem)) ∧
      ∀ a ∈ pre ++ b :: post ++ [A.sentinel], r.1 a = A.mem a ∧
        prevPhysical r.1 a = prevPhysical A.mem a ∧
        (isFree A.mem a = false → nextFree r.1 a = nextFree A.mem a) := by
  intro r
  have hroom := h.room
  have hmem : ∀ a ∈ pre ++ b :: post ++ [A.sentinel], a = b ∨ a + 32 ≤ b ∨ b + 32 ≤ a := by
    intro a ha
    have ha' : a = b ∨ a ∈ pre ++ post ++ [A.sentinel] := by
      simp only [List.mem_append, List.mem_cons] at ha ⊢; tauto
    rcases ha' with rfl | ha'
    · exact .inl rfl
    · have := h.outside ha'; omega
  have hap : Apart (pre ++ b :: post ++ [A.sentinel]) := by
    intro x hx y hy
    have hsplit : ∀ z ∈ pre ++ b :: post ++ [A.sentinel], z = b ∨
      z ∈ pre ++ post ++ [A.sentinel] := by
      intro z hz
      simp only [List.mem_append, List.mem_cons] at hz ⊢; tauto
    rcases hsplit x hx with rfl | hx'
    · have := hmem y hy; omega
    · rcases hsplit y hy with rfl | hy'
      · exact hmem x hx
      · exact h.apart x hx' y hy'
  have hflt : (pre ++ b :: post).filter (isFree A.mem)
      = pre.filter (isFree A.mem) ++ b :: post.filter (isFree A.mem) := by
    rw [List.filter_append, List.filter_cons_of_pos h.free]
  have hnot : b ∉ pre.filter (isFree A.mem) ++ post.filter (isFree A.mem) := by
    rw [← List.filter_append]
    intro hb
    have := h.outside (List.mem_append_left [A.sentinel] (List.mem_filter.mp hb).1)
    omega
  have hlist := h.list
  rw [List.filter_append] at hlist
  have hpm : prev ≠ 0 → prev ∈ pre ∧ isFree A.mem prev = true := by
    intro h0
    cases e : (pre.filter (isFree A.mem)).getLast? with
    | none => rw [e] at hp; exact absurd hp h0
    | some y => rw [e] at hp; subst hp; exact List.mem_filter.mp (List.mem_of_getLast? e)
  have hcm : curr ≠ 0 → curr ∈ post ∧ isFree A.mem curr = true := by
    intro h0
    cases e : (post.filter (isFree A.mem)).head? with
    | none => rw [e] at hc; exact absurd hc h0
    | some y => rw [e] at hc; subst hc; exact List.mem_filter.mp (List.mem_of_mem_head? e)
  refine ⟨?_, fun a ha => ?_⟩
  · rw [hflt]
    refine linkBlock_is hlist (hap.mono fun x hx => ?_) ?_ hnot hp hc
    · rw [← hflt] at hx
      exact List.mem_append_left _ (List.mem_filter.mp hx).1
    · have := h.raw_le; have := h.pos; omega
  · have hsb := hmem a ha
    have hsp : prev ≠ 0 → a = prev ∨ a + 32 ≤ prev ∨ prev + 32 ≤ a := fun h0 =>
      hap a ha prev (by simp [(hpm h0).1])
    have hsc : curr ≠ 0 → a = curr ∨ a + 32 ≤ curr ∨ curr + 32 ≤ a := fun h0 =>
      hap a ha curr (by simp [(hcm h0).1])
    refine ⟨linkBlock_frame (by omega) (fun h0 => ?_) (fun h0 => ?_),
      linkBlock_frame (by omega) (fun h0 => ?_) (fun h0 => ?_), fun hf =>
      linkBlock_frame ?_ (fun h0 => ?_) (fun h0 => ?_)⟩
    · have := hsp h0; omega
    · have := hsc h0; omega
    · have := hsp h0; omega
    · have := hsc h0; omega
    · have : a ≠ b := by rintro rfl; rw [h.free] at hf; cases hf
      omega
    · have : a ≠ prev := by rintro rfl; rw [(hpm h0).2] at hf; cases hf
      have := hsp h0; omega
    · have := hsc h0; omega

/-- What the successor's update writes. -/
theorem stampAfter_words (A : Arena) (b : Nat) :
    let m' := (stampAfter A b).mem
    let after := b + span A.mem b
    (∀ x, x ≠ after → x ≠ after + 8 → m' x = A.mem x) ∧
      span m' after = span A.mem after ∧ isFree m' after = isFree A.mem after ∧
      (after ≠ A.sentinel → prevFreeBit (m' after) = true) ∧
      (after = A.sentinel → m' after = A.mem after) ∧ prevPhysical m' after = b := by
  intro m' after
  have e0 : m' after = if after ≠ A.sentinel then orPrevFree (A.mem after) else A.mem after := by
    have : m' after = (if after ≠ A.sentinel then
        setSize A.mem after (orPrevFree (A.mem after)) else A.mem) after :=
      Mem.set_ne _ _ (by omega)
    rw [this]
    split
    · exact Mem.set_self ..
    · rfl
  refine ⟨fun x h1 h2 => ?_, ?_, ?_, fun h => ?_, fun h => ?_, Mem.set_self ..⟩
  · refine (Mem.set_ne _ _ h2).trans ?_
    split
    · exact Mem.set_ne _ _ h1
    · rfl
  · unfold span; rw [e0]; split <;> simp
  · unfold isFree; rw [e0]; split <;> simp
  · rw [e0, if_pos h]; simp
  · rw [e0, if_neg (by simpa using h)]

/-- The gap is filled by the block `b` once the successor of `b` has the right
back-link and PREV_FREE bit. -/
theorem Gap.close (h : Gap k A pre b (b + span A.mem b) post) {B : Arena} (hk : Kept A B)
    (hw : ∀ a ∈ pre ++ b :: post ++ [A.sentinel], a ≠ b + span A.mem b →
      B.mem a = A.mem a ∧ prevPhysical B.mem a = prevPhysical A.mem a)
    (hsp : span B.mem (b + span A.mem b) = span A.mem (b + span A.mem b))
    (hfr : isFree B.mem (b + span A.mem b) = isFree A.mem (b + span A.mem b))
    (hse : b + span A.mem b = A.sentinel → B.mem (b + span A.mem b) = A.mem (b + span A.mem b))
    (hpp : prevPhysical B.mem (b + span A.mem b) = b)
    (hpf : k → b + span A.mem b ≠ A.sentinel →
      prevFreeBit (B.mem (b + span A.mem b)) = isFree A.mem b)
    (hl : isFree A.mem b = true → lastFree A.mem pre = false)
    (hh : isFree A.mem b = true → headFree A.mem post = false)
    (hb : k → prevFreeBit (A.mem b) = lastFree A.mem pre)
    (hlist : (freeDL B.mem B.freeList).Is ((pre ++ b :: post).filter (isFree A.mem))) :
    Tiled k B (pre ++ b :: post) := by
  have hroom := h.room
  have hpre : ∀ a ∈ pre, B.mem a = A.mem a ∧ prevPhysical B.mem a = prevPhysical A.mem a :=
    fun a ha => hw a (by simp [ha]) (by have := h.below ha; omega)
  have hbb := hw b (by simp) (by omega)
  have hspb : span B.mem b = span A.mem b := congrArg blockSize hbb.1
  obtain ⟨p, hwk⟩ := h.right
  -- the walk beyond `b`, entered from `b`
  have hwalk : Walk B.mem b (b + span A.mem b) post A.sentinel := by
    refine (hwk.setPrev b).congr (fun a ha => ?_) ?_
    · by_cases e : a = b + span A.mem b
      · subst e
        refine ⟨hsp.trans (congrArg blockSize (Mem.set_ne _ _ (by omega))).symm, hpp.trans ?_⟩
        exact (Mem.set_self ..).symm
      · have h1 := hw a (by simp [ha]) e
        have h2 := h.above ha
        have h3 := h.apart
        have h4 : prevPhysical (setPrevPhysical A.mem (b + span A.mem b) b) a
            = prevPhysical A.mem a := Mem.set_ne _ _ (by omega)
        refine ⟨congrArg blockSize (h1.1.trans (Mem.set_ne _ _ ?_).symm), h1.2.trans h4.symm⟩
        rcases post with _ | ⟨c, post⟩
        · cases ha
        · have hc := (h.takeNext).1
          have := h3 a (by simp only [List.mem_append]; tauto) c (by simp)
          omega
    · by_cases e : A.sentinel = b + span A.mem b
      · rw [e, hpp]; exact (Mem.set_self ..).symm
      · have h4 : prevPhysical (setPrevPhysical A.mem (b + span A.mem b) b) A.sentinel
            = prevPhysical A.mem A.sentinel := Mem.set_ne _ _ (by omega)
        exact (hw A.sentinel (by simp) e).2.trans h4.symm
  have hflags : Flags k B.mem (isFree A.mem b) post := by
    cases post with
    | nil => trivial
    | cons c post =>
      obtain ⟨rfl, hg⟩ := h.takeNext
      have hne : b + span A.mem b ≠ A.sentinel := by
        have := h.above (a := b + span A.mem b) (by simp); omega
      refine ⟨?_, fun hk' => hpf hk' hne, ?_⟩
      · rw [hfr]
        rintro ⟨h1, h2⟩
        have := hh h1
        simp [headFree, h2] at this
      · rw [hfr]
        refine Flags.congr (m := A.mem) h.flagsR fun a ha => ?_
        obtain ⟨p, -, -, h3, -⟩ := h.right
        unfold minBlock at h3
        exact (hw a (by simp [ha]) (by have := hg.above ha; omega)).1
  have hisf : isFree B.mem b = isFree A.mem b := congrArg freeBit hbb.1
  have hfree : ∀ a ∈ pre ++ b :: post, isFree B.mem a = isFree A.mem a := by
    intro a ha
    by_cases e : a = b + span A.mem b
    · rw [e]; exact hfr
    · exact congrArg freeBit (hw a (List.mem_append_left _ ha) e).1
  refine ⟨hk.raw ▸ h.pos, ?_, ?_, ?_, ?_, ?_⟩
  · rw [hk.raw, hk.sentinel]
    refine Walk.append_iff.mpr ⟨b, prevPhysical A.mem b, ?_, rfl, hbb.2, ?_, ?_, ?_⟩
    · exact h.left.congr fun a ha => ⟨congrArg blockSize (hpre a ha).1, (hpre a ha).2⟩
    · rw [hspb]; unfold minBlock; omega
    · rw [hspb]; have := h.dvd; rwa [Nat.add_sub_cancel_left] at this
    · rw [hspb]; exact hwalk
  · rw [hk.raw, hk.sentinel, hk.size]; exact h.fits
  · rw [hk.sentinel]
    by_cases e : A.sentinel = b + span A.mem b
    · rw [e, hse e.symm, ← e]; exact h.sent
    · exact (hw A.sentinel (by simp) e).1.trans h.sent
  · rw [List.filter_congr hfree]; exact hlist
  · refine Flags.join (h.flagsL.congr fun a ha => (hpre a ha).1) ?_ ?_ ?_
    · rw [hisf, lastFree_congr fun a ha => (hpre a ha).1]; exact hl
    · rw [hbb.1, lastFree_congr fun a ha => (hpre a ha).1]; exact hb
    · rw [hisf]; exact hflags

/-- Linking ends the float. -/
theorem linkFree_spec (h : Floating k A pre b post) (hl : lastFree A.mem pre = false)
    (hh : headFree A.mem post = false)
    (hp : prev = (pre.filter (isFree A.mem)).getLast?.getD 0)
    (hc : curr = (post.filter (isFree A.mem)).head?.getD 0) :
    let A' := linkFree A b prev curr
    Tiled k A' (pre ++ b :: post) ∧ Preserves A A' (pre ++ post) (pre ++ b :: post) := by
  intro A'
  obtain ⟨hlist, hlw⟩ := h.link hp hc
  have hbb := (hlw b (by simp)).1
  have hroom := h.room
  have hsb : span (linkBlock A.mem A.freeList b prev curr).1 b = span A.mem b :=
    congrArg blockSize hbb
  obtain ⟨s1, s2, s3, s4, s5, s6⟩ := stampAfter_words
    { A with mem := (linkBlock A.mem A.freeList b prev curr).1,
             freeList := (linkBlock A.mem A.freeList b prev curr).2 } b
  simp only [hsb] at s1 s2 s3 s4 s5 s6
  set after := b + span A.mem b with hafter
  -- members of the walk and the sentinel are at or past `after`, or end before it
  have hsep : ∀ a ∈ pre ++ b :: post ++ [A.sentinel], a + 32 ≤ after ∨ a = after ∨
    after + 32 ≤ a := by
    intro a ha
    have ha' : a = b ∨ a ∈ pre ++ post ++ [A.sentinel] := by
      simp only [List.mem_append, List.mem_cons] at ha ⊢; tauto
    rcases ha' with rfl | ha'
    · exact .inl hroom
    · have hafterm : after ∈ pre ++ post ++ [A.sentinel] := by
        obtain ⟨p, hw⟩ := h.right
        cases post with
        | nil => rw [hafter, hw.1]; simp
        | cons c post => rw [← hafter] at hw; rw [← hw.1]; simp
      have := h.apart a ha' after hafterm
      omega
  have hafterm : after ∈ pre ++ b :: post ++ [A.sentinel] := by
    obtain ⟨p, hw⟩ := h.right
    cases post with
    | nil => rw [hafter, hw.1]; simp
    | cons c post => rw [← hafter] at hw; rw [← hw.1]; simp
  have haw := hlw after hafterm
  have hfree : ∀ a ∈ pre ++ b :: post, isFree A'.mem a = isFree A.mem a := by
    intro a ha
    have hlwa := (hlw a (List.mem_append_left _ ha)).1
    by_cases e : a = after
    · rw [e]; exact s3.trans (congrArg freeBit haw.1)
    · have := hsep a (List.mem_append_left _ ha)
      exact congrArg freeBit ((s1 a e (by omega)).trans hlwa)
  constructor
  · refine h.toGap.close (B := A') rfl (fun a ha hne => ?_) ?_ ?_ ?_ s6 ?_ (fun _ => hl)
      (fun _ => hh)
      ?_ ?_
    · have hs := hsep a ha
      exact ⟨(s1 a hne (by omega)).trans (hlw a ha).1,
        (s1 (a + 8) (by omega) (by omega)).trans (hlw a ha).2.1⟩
    · exact s2.trans (congrArg blockSize haw.1)
    · exact s3.trans (congrArg freeBit haw.1)
    · exact fun e => (s5 e).trans haw.1
    · intro _ hne; rw [h.free]; exact s4 hne
    · intro hk; rw [hl]; exact h.pflag hk
    · refine hlist.congr rfl fun a ha => ?_
      have := hsep a (List.mem_append_left _ (List.mem_filter.mp ha).1)
      exact ⟨s1 _ (by omega) (by omega), s1 _ (by omega) (by omega)⟩
  · refine ⟨rfl, ?_, fun a ha hf => ?_⟩
    · rw [usedOf_congr hfree, usedOf_append, usedOf_cons_free h.free, usedOf_append]
    · have hm : a ∈ pre ++ b :: post := by
        simp only [List.mem_append, List.mem_cons] at ha ⊢; tauto
      have hs := hsep a (List.mem_append_left _ hm)
      have hla := hlw a (List.mem_append_left _ hm)
      refine ⟨(hfree a hm).trans hf, ?_, (s1 _ (by omega) (by omega)).trans (hla.2.2 hf)⟩
      by_cases e : a = after
      · rw [e]; exact s2.trans (congrArg blockSize haw.1)
      · exact congrArg blockSize ((s1 a e (by omega)).trans hla.1)

theorem insertPos_spec {m : Mem} (hx : ∀ a ∈ xs, a < b) (hy : ∀ a ∈ ys, b ≤ a) {fuel : Nat}
    (hfuel : xs.length ≤ fuel) (hc : Chain (nextFree m) curr (xs ++ ys)) :
    insertPos m b fuel prev curr = (xs.getLast?.getD prev, ys.head?.getD 0) := by
  induction xs generalizing fuel prev curr with
  | nil =>
    have hcurr : curr = ys.head?.getD 0 := by
      cases ys with
      | nil => exact hc
      | cons y ys => exact hc.1
    have hstop : ¬ (curr ≠ 0 ∧ curr < b) := by
      rintro ⟨h0, hlt⟩
      cases ys with
      | nil => exact h0 hc
      | cons y ys =>
        have := hy y List.mem_cons_self
        have := hc.1
        omega
    cases fuel with
    | zero => simp [insertPos, hcurr]
    | succ n => rw [insertPos, if_neg hstop, hcurr]; rfl
  | cons a xs ih =>
    obtain ⟨rfl, h0, hc⟩ := hc
    cases fuel with
    | zero => simp at hfuel
    | succ n =>
      rw [insertPos, if_pos ⟨h0, hx _ List.mem_cons_self⟩,
        ih (fun a ha => hx a (List.mem_cons_of_mem _ ha)) (by simpa using hfuel) hc,
        List.getLast?_cons]
      simp

/-- **Insertion.** A floating free block joins the list, coalesced with the free
blocks on either side; the blocks in use are untouched. -/
theorem insertFree_spec (h : Floating k A pre b post) :
    let A' := tlsfArenaInsertFree A b
    ∃ as, Tiled k A' as ∧ Preserves A A' (pre ++ post) as := by
  intro A'
  have hroom := h.room
  have hlist := h.list
  rw [List.filter_append] at hlist
  have hpos : insertPos A.mem b A.size 0 A.freeList = ((pre.filter (isFree A.mem)).getLast?.getD 0,
      (post.filter (isFree A.mem)).head?.getD 0) := by
    refine insertPos_spec (fun a ha => ?_) (fun a ha => ?_) ?_ hlist.chain
    · have := h.below (List.mem_filter.mp ha).1; omega
    · have := h.above (List.mem_filter.mp ha).1; omega
    · have := h.length_le
      have := List.length_filter_le (isFree A.mem) pre
      simp only [List.length_append] at *
      omega
  obtain ⟨post', f1, hh1, hc1, w1, p1⟩ :=
    mergeForward_spec (insertPos A.mem b A.size 0 A.freeList).2 h (by rw [hpos])
  obtain ⟨pre', f2, hl2, hp2, w2, p2⟩ :=
    mergeBackward_spec (insertPos A.mem b A.size 0 A.freeList).1 f1
      (by rw [filter_isFree_congr w1, hpos])
  obtain ⟨t3, p3⟩ := linkFree_spec f2 hl2 (by rw [headFree_congr w2]; exact hh1) hp2
    (hc1.trans (by rw [filter_isFree_congr w2]))
  exact ⟨_, t3, (p1.trans p2).trans p3⟩

end Merge

end Cmem.L2.ThreadArena

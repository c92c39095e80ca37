import Cmem.L2Arena.Insert

/-!
# What one arena operation does to the tiling

For each operation on a `Tiled` arena, one lemma: which blocks are in use
afterwards and that the others keep their spans and mailbox links.

* `release_spec`: a block in use is stamped FREE and inserted (the owner's
  free, and each round of a reap).
* `carve_spec`: a free block becomes live, whole or split.
* `absorbNext_spec`: a live block swallows its free successor, whole or split.
-/
namespace Cmem.L2.ThreadArena

variable {k : Prop} {A A' B : Arena} {pre post as : List Nat} {b lo hi : Nat}

/-! ## Nothing but memory and list head is written -/

theorem mergeForward_kept (A : Arena) (b c : Nat) : Kept A (mergeForward A b c).1 := by
  unfold mergeForward Kept
  split <;> rfl

theorem mergeBackward_kept (A : Arena) (b c : Nat) : Kept A (mergeBackward A b c).1 := by
  unfold mergeBackward Kept
  split <;> rfl

theorem insertFree_kept (A : Arena) (b : Nat) : Kept A (tlsfArenaInsertFree A b) :=
  ((mergeForward_kept ..).trans (mergeBackward_kept ..)).trans rfl

theorem insertStamped_kept (A : Arena) (b sp : Nat) :
    Kept A (tlsfArenaInsertFree (stampFree A b sp) b) :=
  (Kept.setMem ..).trans (insertFree_kept ..)

theorem splitOff_kept (A : Arena) (b n r : Nat) : Kept A (splitOff A b n r) :=
  (Kept.setMem ..).trans (insertFree_kept ..)

theorem unstampAfter_kept (A : Arena) (after : Nat) : Kept A (unstampAfter A after) := by
  unfold unstampAfter Kept
  split <;> rfl

theorem carve_kept (A : Arena) (b n : Nat) : Kept A (carve A b n) := by
  unfold carve
  dsimp only
  split
  · exact (unlinkFree_kept A b).trans (splitOff_kept ..)
  · exact (unlinkFree_kept A b).trans ((Kept.setMem ..).trans (unstampAfter_kept ..))

/-! ## Opening a tiling at a block -/

/-- Every block of a tiling is a gap between its two sides. -/
theorem Tiled.gap (h : Tiled k A (pre ++ b :: post)) :
    Gap k A pre b (b + span A.mem b) post := by
  obtain ⟨mid, t, hx, rfl, hp, h3, h4, hw⟩ := Walk.append_iff.mp h.walk
  obtain ⟨f1, f2⟩ := h.flags.append
  refine ⟨h.pos, hp ▸ hx, ?_, ?_, ⟨_, hw⟩, h.fits, h.sent, f1, f2.2.2.tail⟩
  · unfold minBlock at h3; omega
  · rwa [Nat.add_sub_cancel_left]

theorem Tiled.nodup (h : Tiled k A as) : as.Nodup := by
  have hs := (List.pairwise_append.mp h.sorted).1
  exact hs.imp fun hab => by omega

theorem Tiled.mem_bounds (h : Tiled k A as) (hb : b ∈ as) :
    A.raw ≤ b ∧ b + span A.mem b ≤ A.sentinel ∧ 32 ≤ span A.mem b ∧ 8 ∣ span A.mem b :=
  h.walk.mem_bounds hb

theorem Tiled.split (hb : b ∈ as) : ∃ pre post, as = pre ++ b :: post := List.append_of_mem hb

/-- What a tiling depends on: size words and back-links, and the links of the
FREE blocks. -/
theorem Tiled.congr (h : Tiled k A as) (hraw : A'.raw = A.raw) (hsz : A'.size = A.size)
    (hse : A'.sentinel = A.sentinel) (hfl : A'.freeList = A.freeList)
    (hw : ∀ a ∈ as ++ [A.sentinel],
      A'.mem a = A.mem a ∧ prevPhysical A'.mem a = prevPhysical A.mem a)
    (hl : ∀ a ∈ as, isFree A.mem a = true →
      nextFree A'.mem a = nextFree A.mem a ∧ prevFree A'.mem a = prevFree A.mem a) :
    Tiled k A' as := by
  have hb : ∀ a ∈ as, A'.mem a = A.mem a := fun a ha => (hw a (List.mem_append_left _ ha)).1
  have hs : A.sentinel ∈ as ++ [A.sentinel] := by simp
  refine ⟨hraw ▸ h.pos, ?_, ?_, ?_, ?_, h.flags.congr hb⟩
  · rw [hraw, hse]
    exact h.walk.congr (fun a ha => ⟨congrArg blockSize (hb a ha),
      (hw a (List.mem_append_left _ ha)).2⟩) (hw _ hs).2
  · rw [hraw, hse, hsz]; exact h.fits
  · rw [hse]; exact (hw _ hs).1.trans h.sent
  · rw [filter_isFree_congr hb]
    refine h.list.congr hfl fun a ha => ?_
    exact hl a (List.mem_filter.mp ha).1 (List.mem_filter.mp ha).2

/-- Payload writes: words past the `tlsf_block_t` of one block, inside it. -/
theorem Tiled.payload (h : Tiled k A as) (hb : b ∈ as) (hraw : B.raw = A.raw)
    (hsz : B.size = A.size) (hse : B.sentinel = A.sentinel) (hfl : B.freeList = A.freeList)
    (hw : ∀ x, x < b + 32 ∨ b + span A.mem b ≤ x → B.mem x = A.mem x) :
    Tiled k B as ∧ ∀ a ∈ as, B.mem a = A.mem a ∧ nextFree B.mem a = nextFree A.mem a := by
  obtain ⟨pre, post, rfl⟩ := List.append_of_mem hb
  have hout : ∀ a ∈ pre ++ b :: post ++ [A.sentinel], ∀ i < 32, B.mem (a + i) = A.mem (a + i) := by
    intro a ha i hi
    have ha' : a = b ∨ a ∈ pre ++ post ++ [A.sentinel] := by
      simp only [List.mem_append, List.mem_cons] at ha ⊢; tauto
    rcases ha' with rfl | ha'
    · exact hw _ (by omega)
    · have := h.gap.outside ha'
      exact hw _ (by omega)
  have hin : ∀ a ∈ pre ++ b :: post, a ∈ pre ++ b :: post ++ [A.sentinel] := fun a ha =>
    List.mem_append_left _ ha
  refine ⟨h.congr hraw hsz hse hfl (fun a ha => ⟨hout a ha 0 (by omega), hout a ha 8 (by omega)⟩)
    (fun a ha _ => ⟨hout a (hin a ha) 16 (by omega), hout a (hin a ha) 24 (by omega)⟩), fun a ha =>
    ⟨hout a (hin a ha) 0 (by omega), hout a (hin a ha) 16 (by omega)⟩⟩

/-- The mailbox link of a block in use: the tiling does not read it. -/
theorem Tiled.setNext (h : Tiled k A as) (hb : b ∈ usedOf A.mem as) (v : Nat) :
    Tiled k { A with mem := setNextFree A.mem b v } as ∧
      (∀ a ∈ as, setNextFree A.mem b v a = A.mem a) ∧
      ∀ a ∈ as, a ≠ b → nextFree (setNextFree A.mem b v) a = nextFree A.mem a := by
  obtain ⟨hbm, hbf⟩ := mem_usedOf.mp hb
  have hap := h.apart
  have hword :
    ∀ a ∈ as ++ [A.sentinel], ∀ i < 16, setNextFree A.mem b v (a + i) = A.mem (a + i) := by
    intro a ha i hi
    have := hap a ha b (List.mem_append_left _ hbm)
    exact Mem.set_ne _ _ (by omega)
  refine ⟨h.congr rfl rfl rfl rfl (fun a ha => ⟨hword a ha 0 (by omega), hword a ha 8 (by omega)⟩)
    (fun a ha hf => ?_), fun a ha => hword a (List.mem_append_left _ ha) 0 (by omega),
    fun a _ hne => Mem.set_ne _ _ (by omega)⟩
  -- `b` is not FREE, so no list member is touched
  have : a ≠ b := by rintro rfl; rw [hbf] at hf; cases hf
  have := hap a (List.mem_append_left _ ha) b (List.mem_append_left _ hbm)
  exact ⟨Mem.set_ne _ _ (by omega), Mem.set_ne _ _ (by omega)⟩

/-! ## A fresh arena -/

/-- The words `tlsf_arena_init` writes. -/
theorem init_words {raw : Nat} (m : Mem) (hr : 0 < raw) :
    let A := tlsfArenaInit raw m
    A.mem raw = orFree 262112 ∧ prevPhysical A.mem raw = 0 ∧ nextFree A.mem raw = 0 ∧
      prevFree A.mem raw = 0 ∧ A.mem (raw + 262112) = 0 ∧
      prevPhysical A.mem (raw + 262112) = raw := by
  have hs : raw + arenaDefaultSize - blockHdr = raw + 262112 := by
    unfold arenaDefaultSize blockHdr; omega
  simp only [tlsfArenaInit, hs, prevPhysical, nextFree, prevFree, setSize, setPrevPhysical,
    setNextFree, setPrevFree, Mem.set_apply]
  refine ⟨?_, ?_, ?_, ?_, ?_, ?_⟩ <;> (repeat rw [if_neg (by omega)]) <;> rw [if_pos trivial]
  rfl

/-- One free block and no block in use. -/
theorem init_tiled {raw : Nat} (m : Mem) (hr : 0 < raw) :
    ∃ as, Tiled k (tlsfArenaInit raw m) as ∧ usedOf (tlsfArenaInit raw m).mem as = [] := by
  obtain ⟨w0, w8, w16, w24, s0, s8⟩ := init_words m hr
  have hs : raw + arenaDefaultSize - blockHdr = raw + 262112 := by
    unfold arenaDefaultSize blockHdr; omega
  have hraw : (tlsfArenaInit raw m).raw = raw := rfl
  have hsent : (tlsfArenaInit raw m).sentinel = raw + 262112 := hs
  have hsize : (tlsfArenaInit raw m).size = 262144 := rfl
  have hlist : (tlsfArenaInit raw m).freeList = raw := rfl
  generalize tlsfArenaInit raw m = A at *
  have hspan : span A.mem raw = 262112 := by
    unfold span; rw [w0]; decide
  have hfree : isFree A.mem raw = true := by unfold isFree; rw [w0]; simp
  refine ⟨[raw], ⟨?_, ?_, ?_, ?_, ?_, ?_⟩, ?_⟩
  · rw [hraw]; exact hr
  · rw [hraw, hsent]
    refine ⟨rfl, w8, ?_, ?_, ?_, ?_⟩
    · rw [hspan]; decide
    · rw [hspan]; decide
    · rw [hspan]
    · exact s8
  · omega
  · rw [hsent]; exact s0
  · rw [List.filter_cons_of_pos hfree, List.filter_nil]
    exact ⟨raw, hlist, by omega, w24, w16, rfl⟩
  · refine ⟨by simp, fun _ => ?_, trivial⟩
    rw [w0]; decide
  · simp [usedOf, hfree]

/-! ## Releasing a block -/

/-- **Release.** A block in use, stamped FREE and inserted, leaves the set of
blocks in use; the rest of that set is untouched. -/
theorem release_spec (h : Tiled k A as) (hb : b ∈ usedOf A.mem as) :
    let A' := tlsfArenaInsertFree (stampFree A b (span A.mem b)) b
    ∃ as', Tiled k A' as' ∧ Kept A A' ∧ usedOf A'.mem as' = (usedOf A.mem as).erase b ∧
      ∀ a ∈ usedOf A.mem as, a ≠ b →
        span A'.mem a = span A.mem a ∧ nextFree A'.mem a = nextFree A.mem a := by
  intro A'
  obtain ⟨hm, hf⟩ := mem_usedOf.mp hb
  obtain ⟨pre, post, rfl⟩ := Tiled.split hm
  have hlist := h.list
  rw [List.filter_append, List.filter_cons_of_neg (by simp [hf]), ← List.filter_append] at hlist
  obtain ⟨f1, w1, p1⟩ := h.gap.stamp hlist rfl
  obtain ⟨as', t2, p2⟩ := insertFree_spec f1
  have hnd : (pre ++ b :: post).Nodup := h.nodup
  have hpre : b ∉ pre := fun hx =>
    List.disjoint_of_nodup_append hnd hx List.mem_cons_self
  have p := p1.trans p2
  refine ⟨as', t2, p.kept, ?_, fun a ha hne => ?_⟩
  · rw [p.used, usedOf_append, usedOf_append]
    have hcons : usedOf A.mem (b :: post) = b :: usedOf A.mem post := by simp [usedOf, hf]
    rw [hcons, List.erase_append_right _ fun hx => hpre (mem_usedOf.mp hx).1, List.erase_cons_head]
  · obtain ⟨ha, hfa⟩ := mem_usedOf.mp ha
    refine (p.keeps a ?_ hfa).2
    simp only [List.mem_append, List.mem_cons] at ha ⊢
    tauto

/-! ## Filling a gap -/

/-- The words of a split: `lo` gets its span, the remainder its size and back-link. -/
def splitWords (m : Mem) (lo total remaining : Nat) : Mem :=
  setPrevPhysical (setSize (setSize m lo total) (lo + total) (orFree remaining)) (lo + total) lo

/-- The remainder after a split floats, behind the live block `lo`. -/
theorem Gap.split_floats (h : Gap k A pre lo hi post)
    (hl : (freeDL A.mem A.freeList).Is ((pre ++ post).filter (isFree A.mem)))
    (hlast : k → lastFree A.mem pre = false) {total remaining : Nat} (ht : minBlock ≤ total)
    (hd : 8 ∣ total) (hr : 32 ≤ remaining) (hsum : lo + total + remaining = hi) :
    let m := splitWords A.mem lo total remaining
    Floating k { A with mem := m } (pre ++ [lo]) (lo + total) post ∧ span m lo = total ∧
      isFree m lo = false ∧ (∀ a ∈ pre ++ post, m a = A.mem a) ∧
      (∀ a ∈ pre ++ post, nextFree m a = nextFree A.mem a) := by
  intro m
  unfold minBlock at ht
  have hdv := h.dvd
  have hdr : 8 ∣ remaining := by omega
  -- the five words of interest, and everything outside the gap
  have m0 : m lo = total := by
    refine (Mem.set_ne _ _ (by omega)).trans ((Mem.set_ne _ _ (by omega)).trans (Mem.set_self ..))
  have m8 : prevPhysical m lo = prevPhysical A.mem lo :=
    (Mem.set_ne _ _ (by omega)).trans
      ((Mem.set_ne _ _ (by omega)).trans (Mem.set_ne _ _ (by omega)))
  have r0 : m (lo + total) = orFree remaining :=
    (Mem.set_ne _ _ (by omega)).trans (Mem.set_self ..)
  have r8 : prevPhysical m (lo + total) = lo := Mem.set_self ..
  have mo : ∀ x, x < lo ∨ hi ≤ x → m x = A.mem x := fun x hx =>
    (Mem.set_ne _ _ (by omega)).trans
      ((Mem.set_ne _ _ (by omega)).trans (Mem.set_ne _ _ (by omega)))
  have hlo : span m lo = total := by simp [span, m0, blockSize_of_dvd hd]
  have hlof : isFree m lo = false := by simp [isFree, m0, freeBit_of_dvd hd]
  have hrs : span m (lo + total) = remaining := by simp [span, r0, blockSize_of_dvd hdr]
  have hg := h.write mo m8
  have hbl : ∀ a ∈ pre ++ post, m a = A.mem a := fun a ha =>
    mo a (by have := h.outside (List.mem_append_left [A.sentinel] ha); omega)
  have hlk : ∀ a ∈ pre ++ post, nextFree m a = nextFree A.mem a ∧ prevFree m a = prevFree A.mem a :=
    fun a ha => by
      have := h.outside (List.mem_append_left [A.sentinel] ha)
      exact ⟨mo _ (by omega), mo _ (by omega)⟩
  have hpl : lastFree m pre = lastFree A.mem pre :=
    lastFree_congr fun a ha => hbl a (List.mem_append_left _ ha)
  refine ⟨⟨⟨h.pos, ?_, ?_, ?_, ?_, h.fits, hg.sent, ?_, hg.flagsR⟩, ?_, ?_, ?_⟩, hlo, hlof, hbl,
    fun a ha => (hlk a ha).1⟩
  · refine Stretch.append_iff.mpr ⟨lo, _, hg.left, rfl, rfl, ?_, ?_, ?_⟩
    · simp only; rw [hlo]; unfold minBlock; omega
    · simp only; rwa [hlo]
    · simp only; rw [hlo]; exact ⟨rfl, r8⟩
  · simp only; rw [hrs]; omega
  · simp only; rw [hrs]; omega
  · simp only; rw [hrs, hsum]; exact hg.right
  · refine Flags.join hg.flagsL (fun hf => ?_) (fun hk => ?_) trivial
    · rw [hlof] at hf; cases hf
    · simp only; rw [m0, prevFreeBit_of_dvd hd, hpl, hlast hk]
  · have : (pre ++ [lo] ++ post).filter (isFree m) = (pre ++ post).filter (isFree A.mem) := by
      rw [List.append_assoc, List.filter_append, List.cons_append, List.nil_append,
        List.filter_cons_of_neg (by simp [hlof]), ← List.filter_append, filter_isFree_congr hbl]
    simp only; rw [this]
    exact hl.congr rfl fun a ha => hlk a (List.mem_filter.mp ha).1
  · simp [isFree, r0]
  · intro _; simp [r0, prevFreeBit_of_dvd hdr]

/-- Inserting the remainder closes the tiling with `lo` live. -/
theorem Gap.splitOff (h : Gap k A pre lo hi post)
    (hl : (freeDL A.mem A.freeList).Is ((pre ++ post).filter (isFree A.mem)))
    (hlast : k → lastFree A.mem pre = false) (total remaining : Nat) (ht : minBlock ≤ total)
    (hd : 8 ∣ total) (hr : 32 ≤ remaining) (hsum : lo + total + remaining = hi) :
    let A' := splitOff A lo total remaining
    ∃ as', Tiled k A' as' ∧ Kept A A' ∧
      (usedOf A'.mem as').Perm (lo :: usedOf A.mem (pre ++ post)) ∧ span A'.mem lo = total ∧
      KeepsUsed A.mem A'.mem (pre ++ post) := by
  intro A'
  obtain ⟨hfloat, hlo, hlof, hbl, hlk⟩ := h.split_floats hl hlast ht hd hr hsum
  obtain ⟨as', t, p⟩ := insertFree_spec hfloat
  generalize hm : splitWords A.mem lo total remaining = m at *
  have hA' : tlsfArenaInsertFree { A with mem := m } (lo + total) = A' := by rw [← hm]; rfl
  rw [hA'] at t p
  have hkeep : ∀ a ∈ pre ++ post, isFree A.mem a = false →
      isFree m a = false ∧ span m a = span A.mem a ∧ nextFree m a = nextFree A.mem a :=
    fun a ha hf =>
    ⟨(congrArg freeBit (hbl a ha)).trans hf, congrArg blockSize (hbl a ha), hlk a ha⟩
  have hmid : ∀ a ∈ pre ++ post, a ∈ pre ++ [lo] ++ post := by
    intro a ha
    simp only [List.mem_append] at ha ⊢; tauto
  refine ⟨as', t, p.kept, ?_, ?_, fun a ha hf => ?_⟩
  · have hu : usedOf m (pre ++ [lo] ++ post) = usedOf A.mem pre ++ lo :: usedOf A.mem post := by
      rw [List.append_assoc, usedOf_append, List.cons_append, List.nil_append]
      have : usedOf m (lo :: post) = lo :: usedOf m post := by simp [usedOf, hlof]
      rw [this, usedOf_congr fun a ha => congrArg freeBit (hbl a (List.mem_append_left _ ha)),
        usedOf_congr fun a ha => congrArg freeBit (hbl a (List.mem_append_right _ ha))]
    have hpu : usedOf A'.mem as' = usedOf m (pre ++ [lo] ++ post) := p.used
    rw [hpu, hu, usedOf_append]
    exact List.perm_middle
  · exact (p.keeps lo (by simp) hlof).2.1.trans hlo
  · obtain ⟨h1, h2, h3⟩ := hkeep a ha hf
    obtain ⟨h1', h2', h3'⟩ := p.keeps a (hmid a ha) h1
    exact ⟨h1', h2'.trans h2, h3'.trans h3⟩

/-- The whole gap becomes one live block at `lo`: its size word, the
successor's back-link and cleared PREV_FREE bit are all that change. -/
theorem Gap.fill (h : Gap k A pre lo hi post) (hk : Kept A B) (hfl : B.freeList = A.freeList)
    (hl : (freeDL A.mem A.freeList).Is ((pre ++ post).filter (isFree A.mem)))
    (hlast : k → lastFree A.mem pre = false)
    (hw : ∀ x, x ≠ lo → x ≠ hi → x ≠ hi + 8 → B.mem x = A.mem x)
    (h0 : B.mem lo = hi - lo) (hpp : B.mem (hi + 8) = lo)
    (hhi : B.mem hi = if hi ≠ A.sentinel then clearPrevFree (A.mem hi) else A.mem hi) :
    Tiled k B (pre ++ lo :: post) ∧
      usedOf B.mem (pre ++ lo :: post) = usedOf A.mem pre ++ lo :: usedOf A.mem post ∧
      span B.mem lo = hi - lo ∧ KeepsUsed A.mem B.mem (pre ++ post) := by
  have hroom := h.room
  have hd := h.dvd
  -- first stamp the size, then `Gap.close`
  let A₁ := { A with mem := setSize A.mem lo (hi - lo) }
  have hs1 : span A₁.mem lo = hi - lo := by simp [A₁, span, setSize, blockSize_of_dvd hd]
  have hf1 : isFree A₁.mem lo = false := by simp [A₁, isFree, setSize, freeBit_of_dvd hd]
  have hhe : lo + span A₁.mem lo = hi := by rw [hs1]; omega
  have hg : Gap k A₁ pre lo (lo + span A₁.mem lo) post := by
    rw [hhe]
    exact h.write (fun x hx => Mem.set_ne _ _ (by omega)) (Mem.set_ne _ _ (by omega))
  have hap := h.apart
  have hhim : hi ∈ pre ++ post ++ [A.sentinel] := by
    obtain ⟨p, hw⟩ := h.right
    cases post with
    | nil => rw [hw.1]; simp
    | cons c post => rw [← hw.1]; simp
  have hsep : ∀ a ∈ pre ++ lo :: post ++ [A.sentinel], a = hi ∨ a + 32 ≤ hi ∨ hi + 32 ≤ a := by
    intro a ha
    have ha' : a = lo ∨ a ∈ pre ++ post ++ [A.sentinel] := by
      simp only [List.mem_append, List.mem_cons] at ha ⊢; tauto
    rcases ha' with rfl | ha'
    · exact .inr (.inl hroom)
    · exact hap a ha' hi hhim
  have hsepl : ∀ a ∈ pre ++ post ++ [A.sentinel], a + 32 ≤ lo ∨ hi ≤ a := fun a ha => h.outside ha
  have hA₁ : ∀ x, x ≠ lo → A₁.mem x = A.mem x := fun x hx => Mem.set_ne _ _ hx
  have hspan_hi : span B.mem hi = span A.mem hi := by
    unfold span; rw [hhi]; split <;> simp
  have hfree_hi : isFree B.mem hi = isFree A.mem hi := by
    unfold isFree; rw [hhi]; split <;> simp
  have hword :
    ∀ a ∈ pre ++ post, isFree B.mem a = isFree A.mem a ∧ span B.mem a = span A.mem a := by
    intro a ha
    have h1 := hsepl a (List.mem_append_left _ ha)
    by_cases e : a = hi
    · rw [e]; exact ⟨hfree_hi, hspan_hi⟩
    · have h2 := hap a (List.mem_append_left _ ha) hi hhim
      have := hw a (by omega) e (by omega)
      exact ⟨congrArg freeBit this, congrArg blockSize this⟩
  have hf' : isFree B.mem lo = false := by unfold isFree; rw [h0]; exact freeBit_of_dvd hd
  have hlist :
    (pre ++ lo :: post).filter (isFree A₁.mem) = (pre ++ post).filter (isFree A.mem) := by
    rw [List.filter_append, List.filter_cons_of_neg (by simp [hf1]), ← List.filter_append]
    refine filter_isFree_congr fun a ha => hA₁ a ?_
    have := hsepl a (List.mem_append_left _ ha); omega
  refine ⟨hg.close (B := B) ?_ ?_ ?_ ?_ ?_ ?_ ?_ ?_ ?_ ?_ ?_, ?_, ?_, ?_⟩
  · exact hk
  · rw [hhe]
    intro a ha hne
    have := hsep a ha
    by_cases e : a = lo
    · subst e
      refine ⟨?_, (hw _ (by omega) (by omega) (by omega)).trans (hA₁ _ (by omega)).symm⟩
      rw [h0]; simp [A₁, setSize]
    · have h2 : a + 32 ≤ lo ∨ hi ≤ a := hsepl a (by
        simp only [List.mem_append, List.mem_cons] at ha ⊢; tauto)
      exact ⟨(hw _ e hne (by omega)).trans (hA₁ _ e).symm,
        (hw _ (by omega) (by omega) (by omega)).trans (hA₁ _ (by omega)).symm⟩
  · rw [hhe]; exact hspan_hi.trans (congrArg blockSize (hA₁ hi (by omega))).symm
  · rw [hhe]; exact hfree_hi.trans (congrArg freeBit (hA₁ hi (by omega))).symm
  · rw [hhe]; intro e
    rw [hhi, if_neg (by simpa using e)]
    exact (hA₁ hi (by omega)).symm
  · rw [hhe]; exact hpp
  · rw [hhe]; intro _ hne
    rw [hhi, if_pos hne, hf1]; simp
  · intro e; rw [hf1] at e; cases e
  · intro e; rw [hf1] at e; cases e
  · intro hk'
    rw [lastFree_congr (fun a ha => hA₁ a (by have := h.below ha; omega)), hlast hk']
    simp [A₁, setSize, prevFreeBit_of_dvd hd]
  · rw [hlist]
    refine hl.congr hfl fun a ha => ?_
    have hm := List.mem_append_left [A.sentinel] (List.mem_filter.mp ha).1
    have := hsepl a hm
    have := hap a hm hi hhim
    exact ⟨hw _ (by omega) (by omega) (by omega), hw _ (by omega) (by omega) (by omega)⟩
  · have hcons : usedOf B.mem (lo :: post) = lo :: usedOf B.mem post := by simp [usedOf, hf']
    rw [usedOf_append, hcons,
      usedOf_congr fun a ha => (hword a (List.mem_append_left _ ha)).1,
      usedOf_congr fun a ha => (hword a (List.mem_append_right _ ha)).1]
  · unfold span; rw [h0, blockSize_of_dvd hd]
  · intro a ha hf
    have hm := List.mem_append_left [A.sentinel] ha
    have := hsepl a hm
    have := hap a hm hi hhim
    exact ⟨(hword a ha).1.trans hf, (hword a ha).2, hw _ (by omega) (by omega) (by omega)⟩

/-! ## Allocation -/

theorem firstFit_spec {m : Mem} {h : Nat} {l : List Nat} (total fuel : Nat)
    (hc : Chain (nextFree m) h l) (hf : l.length ≤ fuel) :
    firstFit m total fuel h = (l.find? fun a => decide (total ≤ span m a)).getD 0 := by
  induction l generalizing fuel h with
  | nil =>
    cases hc
    cases fuel with
    | zero => rfl
    | succ n => rw [firstFit, if_neg (by simp)]; rfl
  | cons a l ih =>
    obtain ⟨rfl, h0, hc⟩ := hc
    cases fuel with
    | zero => simp at hf
    | succ n =>
      rw [firstFit]
      by_cases hlt : span m h < total
      · rw [if_pos ⟨h0, hlt⟩, ih _ hc (by simpa using hf),
          List.find?_cons_of_neg (by simpa using hlt)]
      · rw [if_neg (by tauto), List.find?_cons_of_pos (by simpa using hlt)]
        rfl

theorem unstampAfter_mem (A : Arena) (after : Nat) :
    (∀ x, x ≠ after → (unstampAfter A after).mem x = A.mem x) ∧
      (unstampAfter A after).mem after =
        if after ≠ A.sentinel then clearPrevFree (A.mem after) else A.mem after := by
  unfold unstampAfter
  split
  · exact ⟨fun x hx => Mem.set_ne _ _ hx, Mem.set_self ..⟩
  · exact ⟨fun x _ => rfl, rfl⟩

theorem unstampAfter_freeList (A : Arena) (after : Nat) :
    (unstampAfter A after).freeList = A.freeList := by
  unfold unstampAfter
  split <;> rfl

/-- **Carving.** A free block of sufficient span becomes live. -/
theorem carve_spec (h : Tiled k A as) (hb : b ∈ as.filter (isFree A.mem)) {total : Nat}
    (ht : minBlock ≤ total) (hd : 8 ∣ total) (hle : total ≤ span A.mem b) :
    let A' := carve A b total
    ∃ as', Tiled k A' as' ∧ Kept A A' ∧ (usedOf A'.mem as').Perm (b :: usedOf A.mem as) ∧
      (total ≤ span A'.mem b ∧ (Splits A.mem total b → span A'.mem b = total)) ∧
      ∀ a ∈ usedOf A.mem as, span A'.mem a = span A.mem a ∧
      nextFree A'.mem a = nextFree A.mem a := by
  intro A'
  obtain ⟨hm, hf⟩ := List.mem_filter.mp hb
  obtain ⟨pre, post, rfl⟩ := Tiled.split hm
  obtain ⟨-, hbs, hb32, hb8⟩ := h.mem_bounds hm
  have hg := h.gap
  have hlist := h.list
  rw [List.filter_append, List.filter_cons_of_pos hf] at hlist
  obtain ⟨g1, l1, w1, b1, p1⟩ := hg.unlink hlist (List.filter_append ..).symm
    ⟨Nat.le_refl _, by omega⟩ (.inl rfl)
  -- the block was free, so its predecessor is not
  have hlast : lastFree A.mem pre = false := by
    have := h.flags.append.2.1
    rw [hf] at this
    simpa using this
  have hlast1 : lastFree (tlsfArenaUnlinkFree A b).mem pre = false := by
    rw [lastFree_congr fun a ha => w1 a (by simp [ha])]; exact hlast
  have hused : usedOf A.mem (pre ++ b :: post) = usedOf A.mem (pre ++ post) := by
    rw [usedOf_append, usedOf_cons_free hf, usedOf_append]
  have hside : ∀ a ∈ usedOf A.mem (pre ++ b :: post), a ∈ pre ++ post ∧ isFree A.mem a = false := by
    intro a ha; rw [hused] at ha; exact mem_usedOf.mp ha
  by_cases hrem : minBlock + blockHdr ≤ span A.mem b - total
  · have hA' : A' = splitOff (tlsfArenaUnlinkFree A b) b total (span A.mem b - total) := by
      simp only [A', carve]; rw [if_pos hrem]
    unfold minBlock blockHdr at hrem
    obtain ⟨as', t, hk, hp, hs, hkeep⟩ := g1.splitOff l1 (fun _ => hlast1) total
      (span A.mem b - total) ht hd (by omega) (by omega)
    rw [hA']
    refine ⟨as', t, p1.kept.trans hk, ?_, ⟨Nat.le_of_eq hs.symm, fun _ => hs⟩, fun a ha => ?_⟩
    · rw [hused, ← p1.used]; exact hp
    · obtain ⟨h1, h2⟩ := hside a ha
      obtain ⟨h3, h4, h5⟩ := p1.keeps a h1 h2
      obtain ⟨-, h7, h8⟩ := hkeep a h1 h3
      exact ⟨h7.trans h4, h8.trans h5⟩
  · let A₁ := tlsfArenaUnlinkFree A b
    let A₂ :=
      { A₁ with mem := setPrevPhysical (setSize A₁.mem b (span A.mem b)) (b + span A.mem b) b }
    have hA' : A' = unstampAfter A₂ (b + span A.mem b) := by
      simp only [A', carve]; rw [if_neg hrem]
    obtain ⟨u1, u2⟩ := unstampAfter_mem A₂ (b + span A.mem b)
    rw [← hA'] at u1 u2
    have hk : Kept (tlsfArenaUnlinkFree A b) A' := by
      rw [hA']; exact Kept.trans (B := A₂) rfl (unstampAfter_kept ..)
    obtain ⟨t, hu, hs, hkeep⟩ := g1.fill (B := A') hk (by rw [hA', unstampAfter_freeList]) l1
      (fun _ => hlast1)
      (fun x h1 h2 h3 => (u1 x h2).trans ((Mem.set_ne _ _ h3).trans (Mem.set_ne _ _ h1)))
      (by
        rw [u1 b (by omega), Nat.add_sub_cancel_left]
        exact (Mem.set_ne _ _ (by omega)).trans (Mem.set_self ..))
      (by
        rw [u1 _ (by omega)]
        exact Mem.set_self ..)
      (by
        have e : A₂.mem (b + span A.mem b) = (tlsfArenaUnlinkFree A b).mem (b + span A.mem b) :=
          (Mem.set_ne _ _ (by omega)).trans (Mem.set_ne _ _ (by omega))
        rw [u2, e])
    refine ⟨_, t, p1.kept.trans hk, ?_, ?_, fun a ha => ?_⟩
    · rw [hu, hused, ← p1.used, usedOf_append]
      exact List.perm_middle
    · rw [hs, Nat.add_sub_cancel_left]
      exact ⟨hle, fun h => h.resolve_left hrem⟩
    · obtain ⟨h1, h2⟩ := hside a ha
      obtain ⟨h3, h4, h5⟩ := p1.keeps a h1 h2
      obtain ⟨-, h7, h8⟩ := hkeep a h1 h3
      exact ⟨h7.trans h4, h8.trans h5⟩

/-! ## In-place grow -/

/-- The right-hand side of a gap may be re-stamped. -/
theorem Gap.restamp (h : Gap k A pre lo hi post) (hk : Kept A A')
    (hw : ∀ x, x ≠ hi → x ≠ hi + 8 → A'.mem x = A.mem x)
    (hhi : A'.mem hi = if hi ≠ A.sentinel then clearPrevFree (A.mem hi) else A.mem hi) :
    Gap k A' pre lo hi post := by
  have hroom := h.room
  obtain ⟨p, hwk⟩ := h.right
  have hspan : span A'.mem hi = span A.mem hi := by unfold span; rw [hhi]; split <;> simp
  have hfree : isFree A'.mem hi = isFree A.mem hi := by unfold isFree; rw [hhi]; split <;> simp
  have hpre : ∀ a ∈ pre, A'.mem a = A.mem a ∧ prevPhysical A'.mem a = prevPhysical A.mem a := by
    intro a ha
    have := h.below ha
    exact ⟨hw _ (by omega) (by omega), hw _ (by omega) (by omega)⟩
  have hlo8 : prevPhysical A'.mem lo = prevPhysical A.mem lo := hw _ (by omega) (by omega)
  have hap := h.apart
  have hhim : hi ∈ pre ++ post ++ [A.sentinel] := by
    cases post with
    | nil => rw [hwk.1]; simp
    | cons c post => rw [← hwk.1]; simp
  refine ⟨hk.raw ▸ h.pos, ?_, h.room, h.dvd, ⟨A'.mem (hi + 8), ?_⟩, ?_, ?_,
    h.flagsL.congr fun a ha => (hpre a ha).1, ?_⟩
  · rw [hlo8, hk.raw]
    exact h.left.congr fun a ha => ⟨congrArg blockSize (hpre a ha).1, (hpre a ha).2⟩
  · rw [hk.sentinel]
    have hpp : ∀ a ∈ pre ++ post ++ [A.sentinel], prevPhysical A'.mem a
        = prevPhysical (setPrevPhysical A.mem hi (A'.mem (hi + 8))) a := by
      intro a ha
      by_cases e : a = hi
      · rw [e]; exact (Mem.set_self ..).symm
      · have := hap a ha hi hhim
        have e1 :
          prevPhysical (setPrevPhysical A.mem hi (A'.mem (hi + 8))) a = prevPhysical A.mem a :=
          Mem.set_ne _ _ (by omega)
        exact (hw _ (by omega) (by omega)).trans e1.symm
    refine (hwk.setPrev (A'.mem (hi + 8))).congr (fun a ha => ⟨?_, hpp a (by simp [ha])⟩)
      (hpp _ (by simp))
    have hs : span (setPrevPhysical A.mem hi (A'.mem (hi + 8))) a = span A.mem a := by
      have := hap a (by simp [ha]) hi hhim
      exact congrArg blockSize (Mem.set_ne _ _ (by omega))
    rw [hs]
    by_cases e : a = hi
    · rw [e]; exact hspan
    · have := hap a (by simp [ha]) hi hhim
      exact congrArg blockSize (hw _ e (by omega))
  · rw [hk.sentinel, hk.raw, hk.size]; exact h.fits
  · rw [hk.sentinel]
    by_cases e : A.sentinel = hi
    · rw [e, hhi, if_neg (by simpa using e.symm), ← e]; exact h.sent
    · have := hap A.sentinel (by simp) hi hhim
      exact (hw _ e (by omega)).trans h.sent
  · cases post with
    | nil => trivial
    | cons c post =>
      obtain ⟨rfl, hg⟩ := h.takeNext
      obtain ⟨q, -, -, h3, -⟩ := h.right
      unfold minBlock at h3
      refine Flags.congr (m := A.mem) ?_ fun a ha => ?_
      · rw [hfree]; exact h.flagsR
      · have := hg.above ha
        exact hw _ (by omega) (by omega)

/-- A live block and its free successor, taken off the list, are one gap. -/
theorem Tiled.openNext {n : Nat} (h : Tiled k A (pre ++ b :: n :: post))
    (hf : isFree A.mem b = false) (hnf : isFree A.mem n = true) :
    let A₁ := tlsfArenaUnlinkFree A n
    Gap k A₁ pre b (n + span A.mem n) post ∧
      (freeDL A₁.mem A₁.freeList).Is ((pre ++ post).filter (isFree A₁.mem)) ∧
      (∀ a ∈ pre ++ [b] ++ post ++ [A.sentinel], A₁.mem a = A.mem a) ∧
      Preserves A A₁ (pre ++ [b] ++ post) (pre ++ [b] ++ post) := by
  intro A₁
  have hsplit : pre ++ b :: n :: post = (pre ++ [b]) ++ n :: post := by simp
  obtain ⟨-, -, hn32, -⟩ := h.mem_bounds (b := n) (by simp)
  have hgn : Gap k A (pre ++ [b]) n (n + span A.mem n) post := by
    rw [hsplit] at h; exact h.gap
  have hlist := h.list
  rw [hsplit, List.filter_append, List.filter_cons_of_pos hnf] at hlist
  obtain ⟨g1, l1, w1, -, p1⟩ := hgn.unlink hlist (List.filter_append ..).symm
    ⟨Nat.le_refl _, by omega⟩ (.inl rfl)
  refine ⟨g1.takePrev.2, ?_, w1, p1⟩
  have hbf : isFree A₁.mem b = false := (congrArg freeBit (w1 b (by simp))).trans hf
  rw [List.append_assoc, List.filter_append, List.cons_append, List.nil_append,
    List.filter_cons_of_neg (by simpa using hbf), ← List.filter_append] at l1
  exact l1

/-- `b` is in use, its free successor `n` is off the list, and up to `hi` there is one gap. -/
structure Opened (k : Prop) (A A₁ : Arena) (pre post : List Nat) (b n hi : Nat) : Prop where
  gap : Gap k A₁ pre b hi post
  list : (freeDL A₁.mem A₁.freeList).Is ((pre ++ post).filter (isFree A₁.mem))
  last : k → lastFree A₁.mem pre = false
  kept : Kept A A₁
  used : usedOf A.mem (pre ++ b :: n :: post) = usedOf A.mem pre ++ b :: usedOf A.mem post
  same : ∀ l, (∀ a ∈ l, a ∈ pre ++ post) → usedOf A₁.mem l = usedOf A.mem l
  keeps : KeepsUsed A.mem A₁.mem (pre ++ post)

/-- The block behind the gap has its link to `b`, and no PREV_FREE bit. -/
structure Restamped (A A₂ : Arena) (hi b : Nat) : Prop where
  kept : Kept A A₂
  list : A₂.freeList = A.freeList
  away : ∀ x, x ≠ hi → x ≠ hi + 8 → A₂.mem x = A.mem x
  word : A₂.mem hi = if hi ≠ A.sentinel then clearPrevFree (A.mem hi) else A.mem hi
  link : A₂.mem (hi + 8) = b

theorem restamped (A : Arena) (hi b : Nat) :
    Restamped A (unstampAfter { A with mem := setPrevPhysical A.mem hi b } hi) hi b := by
  obtain ⟨u1, u2⟩ := unstampAfter_mem { A with mem := setPrevPhysical A.mem hi b } hi
  refine ⟨Kept.trans (B := { A with mem := setPrevPhysical A.mem hi b }) rfl (unstampAfter_kept ..),
    unstampAfter_freeList .., fun x h1 h2 => (u1 x h1).trans (Mem.set_ne _ _ h2), ?_,
    (u1 _ (by omega)).trans (Mem.set_self ..)⟩
  have e : setPrevPhysical A.mem hi b hi = A.mem hi := Mem.set_ne _ _ (by omega)
  rw [u2]
  dsimp only
  rw [e]

/-- The flags and the links of the blocks around a gap are not touched. -/
theorem Restamped.around (hr : Restamped A B hi b) (hg : Gap k A pre lo hi post) {a : Nat}
    (ha : a ∈ pre ++ post) : (isFree B.mem a = isFree A.mem a ∧ span B.mem a = span A.mem a) ∧
      nextFree B.mem a = nextFree A.mem a ∧ prevFree B.mem a = prevFree A.mem a := by
  have hhim : hi ∈ pre ++ post ++ [A.sentinel] := by
    obtain ⟨p, hw⟩ := hg.right
    cases post with
    | nil => rw [hw.1]; simp
    | cons c post => rw [← hw.1]; simp
  have hsep := hg.apart a (List.mem_append_left _ ha) hi hhim
  refine ⟨?_, hr.away _ (by omega) (by omega), hr.away _ (by omega) (by omega)⟩
  by_cases e : a = hi
  · rw [e]; unfold isFree span; rw [hr.word]; split <;> simp
  · have := hr.away a e (by omega)
    exact ⟨congrArg freeBit this, congrArg blockSize this⟩

theorem Restamped.gap (hr : Restamped A B hi b) (hg : Gap k A pre lo hi post) :
    Gap k B pre lo hi post :=
  hg.restamp hr.kept hr.away hr.word

theorem Restamped.freeDL (hr : Restamped A B hi b) (hg : Gap k A pre lo hi post)
    (hl : (freeDL A.mem A.freeList).Is ((pre ++ post).filter (isFree A.mem))) :
    (freeDL B.mem B.freeList).Is ((pre ++ post).filter (isFree B.mem)) := by
  rw [List.filter_congr fun a ha => (hr.around hg ha).1.1]
  exact hl.congr hr.list fun a ha => (hr.around hg (List.mem_filter.mp ha).1).2

theorem Tiled.opened {n : Nat} (h : Tiled k A (pre ++ b :: n :: post)) (hf : isFree A.mem b = false)
    (hnf : isFree A.mem n = true) (hpf : k → prevFreeBit (A.mem b) = false) :
    Opened k A (tlsfArenaUnlinkFree A n) pre post b n (n + span A.mem n) := by
  obtain ⟨hg, hl, hw, hp⟩ := h.openNext hf hnf
  refine ⟨hg, hl, fun hk => ?_, hp.kept, ?_,
    fun l hall => usedOf_congr fun a ha => congrArg freeBit (hw a ?_),
    fun a ha hfa => hp.keeps a ?_ hfa⟩
  · have h1 := h.flags.append.2.2.1 hk
    rw [hpf hk] at h1
    rw [lastFree_congr fun a ha => hw a (by simp [ha])]
    exact h1.symm
  · have e1 : usedOf A.mem (b :: n :: post) = b :: usedOf A.mem (n :: post) := by simp [usedOf, hf]
    rw [usedOf_append, e1, usedOf_cons_free hnf]
  · have := hall a ha
    simp only [List.mem_append] at this ⊢; tauto
  · simp only [List.mem_append] at ha ⊢; tauto

section Opened
variable {A₁ A₂ : Arena} {n need rem : Nat}

/-- The other blocks in use lie around the gap. -/
theorem Opened.side (h : Opened k A A₁ pre post b n hi) {a : Nat}
    (ha : a ∈ usedOf A.mem (pre ++ b :: n :: post)) (hne : a ≠ b) :
    a ∈ pre ++ post ∧ isFree A.mem a = false := by
  refine ⟨?_, (mem_usedOf.mp ha).2⟩
  rw [h.used] at ha
  simp only [List.mem_append, List.mem_cons, hne, false_or] at ha ⊢
  exact ha.imp (fun h => (mem_usedOf.mp h).1) (fun h => (mem_usedOf.mp h).1)

/-- The gap is cut: `b` has `need` bytes, and the rest is a free block. -/
theorem Opened.splitOff (h : Opened k A A₁ pre post b n hi) (hr : Restamped A₁ A₂ hi b)
    (hmin : minBlock ≤ need) (hd : 8 ∣ need) (hrem : 32 ≤ rem) (hsum : b + need + rem = hi) :
    let A' := splitOff A₂ b need rem
    ∃ as', Tiled k A' as' ∧ (usedOf A'.mem as').Perm (usedOf A.mem (pre ++ b :: n :: post)) ∧
    Kept A A' ∧
      span A'.mem b = need ∧ KeepsUsed A.mem A'.mem (pre ++ post) := by
  have hfree : ∀ a ∈ pre ++ post, isFree A₂.mem a = isFree A₁.mem a :=
    fun a ha => (hr.around h.gap ha).1.1
  have hlast : k → lastFree A₂.mem pre = false := by
    intro hk
    rw [lastFree_congr fun a ha => hr.away a (by have := h.gap.below ha; have := h.gap.room; omega)
      (by have := h.gap.below ha; have := h.gap.room; omega)]
    exact h.last hk
  obtain ⟨as', t, hk, hp, hs, hkeep⟩ :=
    (hr.gap h.gap).splitOff (hr.freeDL h.gap h.list) hlast need rem hmin hd hrem hsum
  refine ⟨as', t, hp.trans ?_, (h.kept.trans hr.kept).trans hk, hs, fun a ha hfa => ?_⟩
  · rw [h.used, usedOf_congr hfree, h.same _ fun a ha => ha, usedOf_append]
    exact List.perm_middle.symm
  · obtain ⟨h3, h4, h5⟩ := h.keeps a ha hfa
    obtain ⟨⟨h6, h7⟩, h8, -⟩ := hr.around h.gap ha
    obtain ⟨h9, h10, h11⟩ := hkeep a ha (h6.trans h3)
    exact ⟨h9, h10.trans (h7.trans h4), h11.trans (h8.trans h5)⟩

/-- The gap is filled: all of it is `b`. -/
theorem Opened.whole (h : Opened k A A₁ pre post b n hi) (hr : Restamped A₁ A₂ hi b) :
    let A' := { A₂ with mem := setSize A₂.mem b (hi - b) }
    Tiled k A' (pre ++ b :: post) ∧
      usedOf A'.mem (pre ++ b :: post) = usedOf A.mem (pre ++ b :: n :: post) ∧ Kept A A' ∧
      span A'.mem b = hi - b ∧ KeepsUsed A.mem A'.mem (pre ++ post) := by
  have hroom := h.gap.room
  obtain ⟨t, hu, hs, hkeep⟩ := h.gap.fill (B := { A₂ with mem := setSize A₂.mem b (hi - b) })
    (Kept.trans hr.kept rfl) hr.list h.list h.last
      (fun x h1 h2 h3 => (Mem.set_ne _ _ h1).trans (hr.away x h2 h3))
    (Mem.set_self ..) ((Mem.set_ne _ _ (by omega)).trans hr.link)
      ((Mem.set_ne _ _ (by omega)).trans hr.word)
  refine ⟨t, ?_, (h.kept.trans hr.kept).trans rfl, hs, fun a ha hfa => ?_⟩
  · rw [hu, h.used, h.same _ fun a ha => List.mem_append_left _ ha,
      h.same _ fun a ha => List.mem_append_right _ ha]
  · obtain ⟨h3, h4, h5⟩ := h.keeps a ha hfa
    obtain ⟨h6, h7, h8⟩ := hkeep a ha h3
    exact ⟨h6, h7.trans h4, h8.trans h5⟩

end Opened

/-- **Growing.** A live block with a free successor takes it over; the span
becomes `need` or, when the rest is too small to stand alone, everything. -/
theorem absorbNext_spec (h : Tiled k A as) (hb : b ∈ usedOf A.mem as) {need : Nat}
    (hn : 8 ∣ need) (hgt : span A.mem b < need) (hgr : growable A b need = true)
    (hpf : k → prevFreeBit (A.mem b) = false) :
    let A' := absorbNext A b need
    ∃ as', Tiled k A' as' ∧ (usedOf A'.mem as').Perm (usedOf A.mem as) ∧
      Kept { A with liveBytes := A'.liveBytes } A' ∧
      A'.liveBytes = sizeAdd A.liveBytes (span A'.mem b - span A.mem b) ∧
      need ≤ span A'.mem b ∧
      (∀ a ∈ usedOf A.mem as, a ≠ b → span A'.mem a = span A.mem a) ∧
      ∀ a ∈ usedOf A.mem as, a ≠ b → nextFree A'.mem a = nextFree A.mem a := by
  intro A'
  obtain ⟨hm, hf⟩ := mem_usedOf.mp hb
  obtain ⟨pre, rest, rfl⟩ := Tiled.split hm
  simp only [growable, Bool.and_eq_true, decide_eq_true_eq] at hgr
  obtain ⟨⟨hns, hnf⟩, hfit⟩ := hgr
  obtain ⟨-, -, hb32, -⟩ := h.mem_bounds hm
  have hg0 := h.gap
  -- the successor is a block, because it is not the sentinel
  obtain ⟨n, post, rfl⟩ : ∃ n l, rest = n :: l := by
    cases rest with
    | nil => obtain ⟨p, hw⟩ := hg0.right; exact absurd hw.1 hns
    | cons n l => exact ⟨n, l, rfl⟩
  obtain ⟨rfl, -⟩ := hg0.takeNext
  have ho := h.opened hf hnf hpf
  have hr := restamped (tlsfArenaUnlinkFree A (b + span A.mem b))
    (b + span A.mem b + span A.mem (b + span A.mem b)) b
  -- the counter is all that the two branches change still
  have hcharge (B : Arena) (as' : List Nat) (t : Tiled k B as')
      (hp : (usedOf B.mem as').Perm (usedOf A.mem (pre ++ b :: (b + span A.mem b) :: post)))
        (hk : Kept A B)
      (hle : need ≤ span B.mem b) (hkeep : KeepsUsed A.mem B.mem (pre ++ post))
      (hA' : A' = { B with liveBytes := sizeAdd B.liveBytes (span B.mem b - span A.mem b) }) :
      ∃ as', Tiled k A' as' ∧
      (usedOf A'.mem as').Perm (usedOf A.mem (pre ++ b :: (b + span A.mem b) :: post)) ∧
        Kept { A with liveBytes := A'.liveBytes } A' ∧
        A'.liveBytes = sizeAdd A.liveBytes (span A'.mem b - span A.mem b) ∧ need ≤ span A'.mem b ∧
        (∀ a ∈ usedOf A.mem (pre ++ b :: (b + span A.mem b) :: post), a ≠ b →
          span A'.mem a = span A.mem a) ∧
        ∀ a ∈ usedOf A.mem (pre ++ b :: (b + span A.mem b) :: post), a ≠ b →
        nextFree A'.mem a = nextFree A.mem a := by
    rw [hA']
    refine ⟨as', ⟨t.pos, t.walk, t.fits, t.sent, t.list, t.flags⟩, hp, ?_,
      by rw [hk.liveBytes], hle,
      fun a ha hne => ?_, fun a ha hne => ?_⟩
    · unfold Kept at hk ⊢
      rw [hk]
    · obtain ⟨h1, h2⟩ := ho.side ha hne
      exact (hkeep a h1 h2).2.1
    · obtain ⟨h1, h2⟩ := ho.side ha hne
      exact (hkeep a h1 h2).2.2
  by_cases hrem : minBlock + blockHdr ≤ span A.mem b + span A.mem (b + span A.mem b) - need
  · unfold minBlock blockHdr at hrem
    obtain ⟨as', t, hp, hk, hs, hkeep⟩ := ho.splitOff hr (by unfold minBlock; omega) hn
      (show 32 ≤ span A.mem b + span A.mem (b + span A.mem b) - need by omega) (by omega)
    refine hcharge _ as' t hp hk (Nat.le_of_eq hs.symm) hkeep ?_
    rw [hs]
    simp only [A', absorbNext]
    rw [if_pos (by unfold minBlock blockHdr; omega)]
  · obtain ⟨t, hu, hk, hs, hkeep⟩ := ho.whole hr
    have htot : b + span A.mem b + span A.mem (b + span A.mem b) - b =
        span A.mem b + span A.mem (b + span A.mem b) := by omega
    rw [htot] at t hu hk hs hkeep
    refine hcharge _ _ t (.of_eq hu) hk (Nat.le_trans hfit (Nat.le_of_eq hs.symm)) hkeep ?_
    rw [hs]
    simp only [A', absorbNext]
    rw [if_neg hrem]

end Cmem.L2.ThreadArena

import Cmem.L1Layout.Flags
import Cmem.L2Tlsf.Index

/-!
# Opening and closing a gap in an arena

`Sound k m T as`: the blocks `as` tile the arena up to its sentinel and the index
holds exactly the FREE ones; under `k` coalescing is complete and PREV_FREE is
right as well. Every mutator takes one block, or two or three
neighbours, out of the picture, rewrites their headers and puts the result
back. `Gap k m T pre lo hi post` is the state in between: `pre` and `post` are in
order and indexed, `[lo, hi)` belongs to nobody. `Edit` says what a mutator may
have changed outside the gap.
-/
namespace Cmem.L2.SharedTlsf

/-- The sentinel block at the end of the region. -/
def TPool.sentinel (T : TPool) : Nat := T.raw + T.size - blockHdr

structure Region (T : TPool) : Prop where
  pos : 0 < T.raw
  lo : 64 ≤ T.size
  hi : T.size < 2 ^ 30

/-- **The structural invariant of one arena.** -/
structure Sound (k : Prop) (m : Mem) (T : TPool) (as : List Nat) : Prop where
  region : Region T
  walk : Walk m 0 T.raw as T.sentinel
  sent : span m T.sentinel = 0 ∧ isFree m T.sentinel = false
  idx : ∃ L, Indexed m T (fun c => c ∈ as ∧ isFree m c = true) L
  flags : k → Flags True m false as

structure Gap (k : Prop) (m : Mem) (T : TPool) (pre : List Nat) (lo hi : Nat)
    (post : List Nat) : Prop where
  region : Region T
  left : Stretch m 0 T.raw pre lo (prevPhysical m lo)
  room : lo + 32 ≤ hi
  dvd : 8 ∣ hi - lo
  right : ∃ p, Walk m p hi post T.sentinel
  sent : span m T.sentinel = 0 ∧ isFree m T.sentinel = false
  idx : ∃ L, Indexed m T (fun c => c ∈ pre ++ post ∧ isFree m c = true) L
  flagsL : k → Flags True m false pre
  flagsR : k → FlagsTail True m post

/-- Outside the gap only block headers have changed, and no size or FREE bit
among them. -/
structure Edit (m m' : Mem) (T : TPool) (pre : List Nat) (lo hi : Nat)
    (post : List Nat) : Prop where
  word : ∀ x, x < lo ∨ hi ≤ x → (∀ c ∈ pre ++ post ++ [T.sentinel], x < c ∨ c + 32 ≤ x) → m' x = m x
  head : ∀ c ∈ pre ++ post ++ [T.sentinel], span m' c = span m c ∧ isFree m' c = isFree m c

/-- Only the index has changed. -/
def SameRegion (T T' : TPool) : Prop := T'.raw = T.raw ∧ T'.size = T.size ∧ T'.owner = T.owner

section Basics
variable {k : Prop} {m m' m'' : Mem} {T T' T'' : TPool} {as pre post : List Nat} {lo hi b : Nat}

theorem SameRegion.trans (h : SameRegion T T') (h' : SameRegion T' T'') : SameRegion T T'' :=
  ⟨h'.1.trans h.1, h'.2.1.trans h.2.1, h'.2.2.trans h.2.2⟩

theorem SameRegion.sentinel (h : SameRegion T T') : T'.sentinel = T.sentinel := by
  unfold TPool.sentinel
  rw [h.1, h.2.1]

theorem SameRegion.region (h : SameRegion T T') (hr : Region T) : Region T' := by
  refine ⟨?_, ?_, ?_⟩
  · rw [h.1]; exact hr.pos
  · rw [h.2.1]; exact hr.lo
  · rw [h.2.1]; exact hr.hi

theorem remove_sameRegion (m : Mem) (T : TPool) (b : Nat) :
    SameRegion T (tlsfRemoveFreeBlock m T b).2 := by
  obtain ⟨⟨fl, sl⟩, hk⟩ : ∃ k, tlsfMappingInsert (span m b) = k := ⟨_, rfl⟩
  rw [remove_eq hk]
  dsimp only
  split <;> exact ⟨rfl, rfl, rfl⟩

theorem insert_sameRegion (m : Mem) (T : TPool) (b : Nat) :
    SameRegion T (tlsfInsertFreeBlock m T b).2 := by
  obtain ⟨⟨fl, sl⟩, hk⟩ : ∃ k, tlsfMappingInsert (span m b) = k := ⟨_, rfl⟩
  rw [insert_eq hk]
  exact ⟨rfl, rfl, rfl⟩

theorem Edit.refl : Edit m m T pre lo hi post := ⟨fun _ _ _ => rfl, fun _ _ => ⟨rfl, rfl⟩⟩

theorem Edit.trans (h : Edit m m' T pre lo hi post) (h' : Edit m' m'' T pre lo hi post) :
    Edit m m'' T pre lo hi post :=
  ⟨fun x hx hc => (h'.word x hx hc).trans (h.word x hx hc),
    fun c hc => ⟨(h'.head c hc).1.trans (h.head c hc).1, (h'.head c hc).2.trans (h.head c hc).2⟩⟩

/-! ## Geometry -/

theorem Sound.bounds (h : Sound k m T as) {a : Nat} (ha : a ∈ as) :
    T.raw ≤ a ∧ a + span m a ≤ T.sentinel ∧ 32 ≤ span m a ∧ 8 ∣ span m a := h.walk.mem_bounds ha

theorem Region.end (h : Region T) : T.sentinel + 32 = T.raw + T.size := by
  unfold TPool.sentinel blockHdr
  have := h.lo
  omega

theorem Sound.span_lt (h : Sound k m T as) {a : Nat} (ha : a ∈ as) : span m a < 2 ^ 30 := by
  have h1 := h.bounds ha
  have h2 := h.region.end
  have h3 := h.region.hi
  omega

theorem Walk.sorted {p : Nat} (h : Walk m p lo as hi) :
    (as ++ [hi]).Pairwise fun a c => a + 32 ≤ c := by
  refine List.pairwise_append.mpr ⟨h.pairwise.imp_of_mem fun ha _ hs => ?_, by simp,
    fun a ha c hc => ?_⟩
  · have := (h.mem_bounds ha).2.2.1
    unfold minBlock at this; omega
  · have := h.mem_bounds ha
    unfold minBlock at this
    rw [List.mem_singleton.mp hc]; omega

theorem Sound.apart (h : Sound k m T as) : Apart (as ++ [T.sentinel]) :=
  Apart.of_pairwise (Walk.sorted h.walk)

theorem Sound.nodup (h : Sound k m T as) : as.Nodup :=
  (List.pairwise_append.mp (Walk.sorted h.walk)).1.imp fun h => by omega

theorem Gap.below (h : Gap k m T pre lo hi post) {a : Nat} (ha : a ∈ pre) :
    T.raw ≤ a ∧ a + span m a ≤ lo ∧ 32 ≤ span m a := by
  obtain ⟨h1, h2, h3, -⟩ := h.left.mem_bounds ha
  exact ⟨h1, h2, h3⟩

theorem Gap.above (h : Gap k m T pre lo hi post) {a : Nat} (ha : a ∈ post) :
    hi ≤ a ∧ a + span m a ≤ T.sentinel ∧ 32 ≤ span m a := by
  obtain ⟨p, hw⟩ := h.right
  obtain ⟨h1, h2, h3, -⟩ := hw.mem_bounds ha
  exact ⟨h1, h2, h3⟩

theorem Gap.hi_le (h : Gap k m T pre lo hi post) : hi ≤ T.sentinel := by
  obtain ⟨p, hw⟩ := h.right
  exact hw.le

theorem Gap.raw_le (h : Gap k m T pre lo hi post) : T.raw ≤ lo := h.left.le

/-- Blocks outside the gap and the sentinel, with their headers, lie outside it. -/
theorem Gap.outside (h : Gap k m T pre lo hi post) {a : Nat}
    (ha : a ∈ pre ++ post ++ [T.sentinel]) : a + 32 ≤ lo ∨ hi ≤ a := by
  simp only [List.mem_append, List.mem_singleton] at ha
  rcases ha with (ha | ha) | rfl
  · have := h.below ha; omega
  · exact .inr (h.above ha).1
  · exact .inr h.hi_le

theorem Gap.sorted (h : Gap k m T pre lo hi post) :
    (pre ++ post ++ [T.sentinel]).Pairwise fun a c => a + 32 ≤ c := by
  obtain ⟨p, hw⟩ := h.right
  have hroom := h.room
  rw [List.append_assoc]
  refine List.pairwise_append.mpr ⟨h.left.pairwise.imp_of_mem fun ha _ hs => ?_, Walk.sorted hw,
    fun a ha c hc => ?_⟩
  · have := h.below ha; omega
  · have h1 := h.below ha
    have h2 := h.outside (a := c) (by rw [List.append_assoc]; exact List.mem_append_right _ hc)
    have h3 : hi ≤ c := by
      rcases List.mem_append.mp hc with hc | hc
      · exact (h.above hc).1
      · rw [List.mem_singleton.mp hc]; exact h.hi_le
    omega

theorem Gap.apart (h : Gap k m T pre lo hi post) : Apart (pre ++ post ++ [T.sentinel]) :=
  Apart.of_pairwise h.sorted

/-- The headers outside a gap do not meet. -/
theorem Gap.header (h : Gap k m T pre lo hi post) {a c : Nat} (ha : a ∈ pre ++ post ++ [T.sentinel])
    (hc : c ∈ pre ++ post) {i : Nat} (hi' : i < 16) : a + i ≠ c + 16 ∧ a + i ≠ c + 24 := by
  have := h.apart a ha c (List.mem_append_left _ hc)
  omega

/-! ## Opening -/

/-- A block that is not FREE leaves the picture as it is. -/
theorem Sound.openUsed (h : Sound k m T (pre ++ b :: post)) (hb : isFree m b = false) :
    Gap k m T pre b (b + span m b) post := by
  obtain ⟨mid, t, hx, rfl, hp, h3, h4, hy⟩ := Walk.append_iff.mp h.walk
  obtain ⟨L, hi⟩ := h.idx
  unfold minBlock at h3
  refine ⟨h.region, ?_, by omega, by omega, ⟨_, hy⟩, h.sent,
    ⟨L, hi.congr (fun c => ?_) fun c _ => ⟨rfl, rfl, rfl⟩⟩, fun hk => (h.flags hk).append.1,
    fun hk => (h.flags hk).append.2.2.2.tail⟩
  · rw [hp]; exact hx
  · simp only [List.mem_append, List.mem_cons]
    constructor
    · rintro ⟨h1, h2⟩; exact ⟨by tauto, h2⟩
    · rintro ⟨h1 | rfl | h1, h2⟩
      · exact ⟨.inl h1, h2⟩
      · rw [hb] at h2; cases h2
      · exact ⟨.inr h1, h2⟩

/-- What removing a block from the index does to the words of an arena. -/
theorem remove_words (hidx : ∃ L, Indexed m T (fun c => c ∈ as ∧ isFree m c = true) L)
    (hb : b ∈ as) (hf : isFree m b = true) {x : Nat} (hx : ∀ c ∈ as, x ≠ c + 16 ∧ x ≠ c + 24) :
    (tlsfRemoveFreeBlock m T b).1 x = m x := by
  obtain ⟨L, hi⟩ := hidx
  refine remove_frame hi ⟨hb, hf⟩ ?_
  rintro ⟨c, ⟨hc, -⟩, e⟩
  have := hx c hc
  omega

/-- The index over the other blocks once `b` is removed. -/
theorem remove_idx (bs : List Nat) (hidx : ∃ L, Indexed m T (fun c => c ∈ as ∧ isFree m c = true) L)
    (hap : Apart as) (hb : b ∈ as) (hf : isFree m b = true)
    (hbs : ∀ c, c ∈ bs ↔ c ∈ as ∧ c ≠ b) :
    ∃ L, Indexed (tlsfRemoveFreeBlock m T b).1 (tlsfRemoveFreeBlock m T b).2
      (fun c => c ∈ bs ∧ isFree (tlsfRemoveFreeBlock m T b).1 c = true) L := by
  have hw := fun x hx => remove_words (b := b) hidx hb hf (x := x) hx
  obtain ⟨L, hi⟩ := hidx
  obtain ⟨L', hi'⟩ := remove_spec hi (fun a ha c hc => hap a ha.1 c hc.1) ⟨hb, hf⟩
  refine ⟨L', hi'.congr (fun c => ?_) fun _ _ => ⟨rfl, rfl, rfl⟩⟩
  have he : c ∈ as → isFree (tlsfRemoveFreeBlock m T b).1 c = isFree m c := fun hc =>
    congrArg freeBit (hw c fun d hd => by have := hap c hc d hd; omega)
  rw [hbs]
  constructor
  · rintro ⟨⟨h1, h2⟩, h3⟩
    exact ⟨⟨h1, by rw [← he h1]; exact h3⟩, h2⟩
  · rintro ⟨⟨h1, h3⟩, h2⟩
    exact ⟨⟨h1, h2⟩, by rw [he h1]; exact h3⟩

/-- Take a FREE block out of the index and of the picture. -/
theorem Sound.openFree (h : Sound k m T (pre ++ b :: post)) (hb : isFree m b = true) :
    Gap k (tlsfRemoveFreeBlock m T b).1 (tlsfRemoveFreeBlock m T b).2 pre b (b + span m b) post ∧
      Edit m (tlsfRemoveFreeBlock m T b).1 T pre b (b + span m b) post ∧
      SameRegion T (tlsfRemoveFreeBlock m T b).2 ∧ (tlsfRemoveFreeBlock m T b).1 b = m b ∧
      prevPhysical (tlsfRemoveFreeBlock m T b).1 (b + span m b) = b := by
  have hbm : b ∈ pre ++ b :: post := by simp
  have hw := fun x hx => remove_words h.idx hbm hb (x := x) hx
  have hap := h.apart
  have hidx := remove_idx (pre ++ post) h.idx (hap.mono fun a ha => List.mem_append_left _ ha)
    hbm hb (fun c => by
      have := (List.nodup_middle.mp h.nodup).notMem
      simp only [List.mem_append, List.mem_cons] at this ⊢
      constructor
      · intro hc; exact ⟨by tauto, fun e => this (e ▸ hc)⟩
      · tauto)
  have hr := remove_sameRegion m T b
  generalize tlsfRemoveFreeBlock m T b = r at *
  obtain ⟨mid, t, hx, rfl, hp, h3, h4, hy⟩ := Walk.append_iff.mp h.walk
  unfold minBlock at h3
  have hhead : ∀ a ∈ pre ++ b :: post ++ [T.sentinel], r.1 a = m a ∧ r.1 (a + 8) = m (a + 8) := by
    intro a ha
    refine ⟨hw a fun c hc => ?_, hw _ fun c hc => ?_⟩ <;>
    · have := hap a ha c (List.mem_append_left _ hc)
      omega
  have hspan : ∀ a ∈ pre ++ b :: post ++ [T.sentinel], span r.1 a = span m a := fun a ha =>
    congrArg blockSize (hhead a ha).1
  have hfree : ∀ a ∈ pre ++ b :: post ++ [T.sentinel], isFree r.1 a = isFree m a := fun a ha =>
    congrArg freeBit (hhead a ha).1
  have hright : Walk r.1 b (b + span m b) post T.sentinel :=
    hy.congr (fun a ha => ⟨hspan a (by simp [ha]), (hhead a (by simp [ha])).2⟩)
      (hhead _ (by simp)).2
  refine ⟨⟨hr.region h.region, ?_, by omega, by omega, ⟨b, ?_⟩, ?_, hidx, fun hk => ?_,
    fun hk => ?_⟩, ⟨fun x hx hc => ?_, fun c hc => ?_⟩, hr, (hhead b (by simp)).1, hright.entry⟩
  · rw [hr.1, show prevPhysical r.1 b = t from (hhead b (by simp)).2.trans hp]
    exact hx.congr fun a ha => ⟨hspan a (by simp [ha]), (hhead a (by simp [ha])).2⟩
  · rw [hr.sentinel]; exact hright
  · rw [hr.sentinel, hspan _ (by simp), hfree _ (by simp)]; exact h.sent
  · exact (h.flags hk).append.1.congr fun a ha => (hhead a (by simp [ha])).1
  · exact (h.flags hk).append.2.2.2.tail.congr fun a ha => (hhead a (by simp [ha])).1
  · refine hw x fun c hc' => ?_
    by_cases e : c = b
    · subst e; omega
    · have := hc c (by simp only [List.mem_append, List.mem_cons] at hc' ⊢; tauto)
      omega
  · have hc' : c ∈ pre ++ b :: post ++ [T.sentinel] := by
      simp only [List.mem_append, List.mem_cons] at hc ⊢; tauto
    exact ⟨hspan c hc', hfree c hc'⟩

/-! ## Widening -/

/-- Removing a block from the index touches no size, no back-link and nothing
inside the gap. -/
theorem Gap.remove_words (h : Gap k m T pre lo hi post) (hb : b ∈ pre ++ post)
    (hf : isFree m b = true) :
    (∀ a ∈ pre ++ post ++ [T.sentinel], (tlsfRemoveFreeBlock m T b).1 a = m a ∧
      (tlsfRemoveFreeBlock m T b).1 (a + 8) = m (a + 8)) ∧
    (∀ x, lo ≤ x → x < hi → (tlsfRemoveFreeBlock m T b).1 x = m x) ∧
    ∀ x, (∀ c ∈ pre ++ post, x < c ∨ c + 32 ≤ x) → (tlsfRemoveFreeBlock m T b).1 x = m x := by
  have hw := fun x hx => SharedTlsf.remove_words h.idx hb hf (x := x) hx
  refine ⟨fun a ha => ⟨hw a fun c hc => ?_, hw _ fun c hc => ?_⟩,
    fun x h1 h2 => hw x fun c hc => ?_,
    fun x hx => hw x fun c hc => ?_⟩
  · exact h.header ha hc (i := 0) (by omega)
  · exact h.header ha hc (by omega)
  · have := h.outside (List.mem_append_left _ hc); omega
  · have := hx c hc; omega

theorem Gap.takeNext {n : Nat} (h : Gap k m T pre lo hi (n :: post)) (hf : isFree m n = true) :
    Gap k (tlsfRemoveFreeBlock m T n).1 (tlsfRemoveFreeBlock m T n).2 pre lo (hi + span m n) post ∧
      Edit m (tlsfRemoveFreeBlock m T n).1 T pre lo (hi + span m n) post ∧
      SameRegion T (tlsfRemoveFreeBlock m T n).2 ∧ n = hi ∧
      ∀ x, lo ≤ x → x < hi → (tlsfRemoveFreeBlock m T n).1 x = m x := by
  have hnm : n ∈ pre ++ n :: post := by simp
  obtain ⟨hhead, hin, hout⟩ := h.remove_words hnm hf
  have hap := h.apart
  have hidx := remove_idx (pre ++ post) h.idx (hap.mono fun a ha => List.mem_append_left _ ha)
    hnm hf (fun c => by
      have hnd : (pre ++ n :: post).Nodup :=
        ((List.pairwise_append.mp h.sorted).1).imp fun h => by omega
      have := (List.nodup_middle.mp hnd).notMem
      simp only [List.mem_append, List.mem_cons] at this ⊢
      constructor
      · intro hc; exact ⟨by tauto, fun e => this (e ▸ hc)⟩
      · tauto)
  have hr := remove_sameRegion m T n
  generalize tlsfRemoveFreeBlock m T n = r at *
  obtain ⟨p, rfl, -, h3, h4, hy⟩ := h.right
  unfold minBlock at h3
  have hroom := h.room
  have hdvd := h.dvd
  have hspan : ∀ a ∈ pre ++ n :: post ++ [T.sentinel], span r.1 a = span m a := fun a ha =>
    congrArg blockSize (hhead a ha).1
  have hfree : ∀ a ∈ pre ++ n :: post ++ [T.sentinel], isFree r.1 a = isFree m a := fun a ha =>
    congrArg freeBit (hhead a ha).1
  refine ⟨⟨hr.region h.region, ?_, by omega, by omega, ⟨n, ?_⟩, ?_, hidx, fun hk => ?_,
    fun hk => ?_⟩, ⟨fun x hx hc => ?_, fun c hc => ?_⟩, hr, rfl, hin⟩
  · rw [hr.1, show prevPhysical r.1 lo = prevPhysical m lo from hin _ (by omega) (by omega)]
    exact h.left.congr fun a ha => ⟨hspan a (by simp [ha]), (hhead a (by simp [ha])).2⟩
  · rw [hr.sentinel]
    exact hy.congr (fun a ha => ⟨hspan a (by simp [ha]), (hhead a (by simp [ha])).2⟩)
      (hhead _ (by simp)).2
  · rw [hr.sentinel, hspan _ (by simp), hfree _ (by simp)]; exact h.sent
  · exact (h.flagsL hk).congr fun a ha => (hhead a (by simp [ha])).1
  · have hfl : Flags True m (isFree m n) post := h.flagsR hk
    exact hfl.tail.congr fun a ha => (hhead a (by simp [ha])).1
  · refine hout x fun c hc' => ?_
    by_cases e : c = n
    · subst e; omega
    · exact hc c (by simp only [List.mem_append, List.mem_cons] at hc' ⊢; tauto)
  · have hc' : c ∈ pre ++ n :: post ++ [T.sentinel] := by
      simp only [List.mem_append, List.mem_cons] at hc ⊢; tauto
    exact ⟨hspan c hc', hfree c hc'⟩

theorem Gap.takePrev {p : Nat} (h : Gap k m T (pre ++ [p]) lo hi post) (hf : isFree m p = true) :
    Gap k (tlsfRemoveFreeBlock m T p).1 (tlsfRemoveFreeBlock m T p).2 pre p hi post ∧
      Edit m (tlsfRemoveFreeBlock m T p).1 T pre p hi post ∧
      SameRegion T (tlsfRemoveFreeBlock m T p).2 ∧ p + span m p = lo ∧
      ∀ x, lo ≤ x → x < hi → (tlsfRemoveFreeBlock m T p).1 x = m x := by
  have hpm : p ∈ (pre ++ [p]) ++ post := by simp
  obtain ⟨hhead, hin, hout⟩ := h.remove_words hpm hf
  have hap := h.apart
  have hidx := remove_idx (pre ++ post) h.idx (hap.mono fun a ha => List.mem_append_left _ ha)
    hpm hf (fun c => by
      have hnd : ((pre ++ [p]) ++ post).Nodup :=
        ((List.pairwise_append.mp h.sorted).1).imp fun h => by omega
      rw [List.append_assoc] at hnd
      have := (List.nodup_middle.mp hnd).notMem
      simp only [List.mem_append, List.mem_singleton] at this ⊢
      constructor
      · intro hc; exact ⟨by tauto, fun e => this (e ▸ hc)⟩
      · tauto)
  have hr := remove_sameRegion m T p
  generalize tlsfRemoveFreeBlock m T p = r at *
  obtain ⟨mid, t, hx, hp⟩ := Stretch.append_iff.mp h.left
  obtain ⟨rfl, hpp, h3, h4, hlo, -⟩ := hp
  unfold minBlock at h3
  obtain ⟨q, hy⟩ := h.right
  have hroom := h.room
  have hdvd := h.dvd
  have hspan : ∀ a ∈ (pre ++ [p]) ++ post ++ [T.sentinel], span r.1 a = span m a := fun a ha =>
    congrArg blockSize (hhead a ha).1
  have hfree : ∀ a ∈ (pre ++ [p]) ++ post ++ [T.sentinel], isFree r.1 a = isFree m a := fun a ha =>
    congrArg freeBit (hhead a ha).1
  refine ⟨⟨hr.region h.region, ?_, by omega, by omega, ⟨q, ?_⟩, ?_, hidx, fun hk => ?_,
    fun hk => ?_⟩, ⟨fun x hx' hc => ?_, fun c hc => ?_⟩, hr, hlo, hin⟩
  · rw [hr.1, show prevPhysical r.1 p = t from (hhead p (by simp)).2.trans hpp]
    exact hx.congr fun a ha => ⟨hspan a (by simp [ha]), (hhead a (by simp [ha])).2⟩
  · rw [hr.sentinel]
    exact hy.congr (fun a ha => ⟨hspan a (by simp [ha]), (hhead a (by simp [ha])).2⟩)
      (hhead _ (by simp)).2
  · rw [hr.sentinel, hspan _ (by simp), hfree _ (by simp)]; exact h.sent
  · exact (h.flagsL hk).append.1.congr fun a ha => (hhead a (by simp [ha])).1
  · exact (h.flagsR hk).congr fun a ha => (hhead a (by simp [ha])).1
  · refine hout x fun c hc' => ?_
    by_cases e : c = p
    · subst e; omega
    · exact hc c (by simp only [List.mem_append, List.mem_cons] at hc' ⊢; tauto)
  · have hc' : c ∈ (pre ++ [p]) ++ post ++ [T.sentinel] := by
      simp only [List.mem_append, List.mem_singleton] at hc ⊢; tauto
    exact ⟨hspan c hc', hfree c hc'⟩

/-! ## Closing -/

/-- Insertion of the one FREE block that is not indexed yet. -/
theorem sound_insert {s : Nat} (hreg : Region T) (hw : Walk m 0 T.raw as T.sentinel)
    (hsent : span m T.sentinel = 0 ∧ isFree m T.sentinel = false) (hs : s ∈ as)
    (hf : isFree m s = true)
    (hidx : ∃ L, Indexed m T (fun c => (c ∈ as ∧ isFree m c = true) ∧ c ≠ s) L)
    (hfl : k → Flags True m false as) :
    Sound k (tlsfInsertFreeBlock m T s).1 (tlsfInsertFreeBlock m T s).2 as ∧
      SameRegion T (tlsfInsertFreeBlock m T s).2 ∧
      ∀ x, (∀ c ∈ as, x ≠ c + 16 ∧ x ≠ c + 24) → (tlsfInsertFreeBlock m T s).1 x = m x := by
  obtain ⟨L, hi⟩ := hidx
  have hb := hw.mem_bounds hs
  have hend := hreg.end
  have hpos := hreg.pos
  have hhi := hreg.hi
  unfold minBlock at hb
  have hap : Apart (as ++ [T.sentinel]) := Apart.of_pairwise (Walk.sorted hw)
  have hmemb : ∀ c, ((c ∈ as ∧ isFree m c = true) ∧ c ≠ s) ∨ c = s → c ∈ as := by
    rintro c (⟨⟨h, -⟩, -⟩ | rfl)
    · exact h
    · exact hs
  have hwords : ∀ x, (∀ c ∈ as, x ≠ c + 16 ∧ x ≠ c + 24) →
    (tlsfInsertFreeBlock m T s).1 x = m x := by
    intro x hx
    refine insert_frame hi ?_
    rintro ⟨c, hc, e⟩
    have := hx c (hmemb c hc)
    omega
  obtain ⟨L', hi'⟩ := insert_spec (b := s) hi
    (fun a ha c hc => hap a (List.mem_append_left _ (hmemb a ha)) c
      (List.mem_append_left _ (hmemb c hc)))
    (by omega) (fun h => h.2 rfl) ⟨by omega, by omega⟩
  have hr := insert_sameRegion m T s
  generalize tlsfInsertFreeBlock m T s = r at *
  have hhead : ∀ a ∈ as ++ [T.sentinel], r.1 a = m a ∧ r.1 (a + 8) = m (a + 8) := by
    intro a ha
    refine ⟨hwords a fun c hc => ?_, hwords _ fun c hc => ?_⟩ <;>
    · have := hap a ha c (List.mem_append_left _ hc)
      omega
  have hfree : ∀ a ∈ as, isFree r.1 a = isFree m a := fun a ha =>
    congrArg freeBit (hhead a (by simp [ha])).1
  refine ⟨⟨hr.region hreg, ?_, ?_, ⟨L', hi'.congr (fun c => ?_) fun _ _ => ⟨rfl, rfl, rfl⟩⟩,
    fun hk => (hfl hk).congr fun a ha => (hhead a (by simp [ha])).1⟩, hr, hwords⟩
  · rw [hr.1, hr.sentinel]
    exact hw.congr
      (fun a ha => ⟨congrArg blockSize (hhead a (by simp [ha])).1, (hhead a (by simp [ha])).2⟩)
      (hhead _ (by simp)).2
  · rw [hr.sentinel]
    exact ⟨(congrArg blockSize (hhead _ (by simp)).1).trans hsent.1,
      (congrArg freeBit (hhead _ (by simp)).1).trans hsent.2⟩
  · constructor
    · rintro ⟨h1, h2⟩
      by_cases e : c = s
      · exact .inr e
      · exact .inl ⟨⟨h1, by rw [← hfree c h1]; exact h2⟩, e⟩
    · rintro (⟨⟨h1, h2⟩, -⟩ | rfl)
      · exact ⟨h1, by rw [hfree c h1]; exact h2⟩
      · exact ⟨hs, by rw [hfree _ hs]; exact hf⟩

/-- Whatever starts at `hi`, every other header is apart from it. -/
theorem Gap.apart_hi (h : Gap k m T pre lo hi post) {a : Nat} (ha : a ∈ pre ++ post ++ [T.sentinel])
    (hne : a ≠ hi) : a + 32 ≤ lo ∨ hi + 32 ≤ a := by
  have hout := h.outside ha
  have hroom := h.room
  obtain ⟨p, hy⟩ := h.right
  cases post with
  | nil =>
    obtain ⟨e1, -⟩ := hy
    simp only [List.append_nil, List.mem_append, List.mem_singleton] at ha
    rcases ha with ha | ha
    · have := h.below ha; omega
    · omega
  | cons c post =>
    obtain ⟨e1, -⟩ := hy
    have := h.apart a ha c (by simp)
    omega

/-- Fill the gap with the blocks `mid`. What follows it keeps its size and FREE
bit and gets its back-link; flags are checked on `mid` and the block behind it. -/
theorem Gap.close (h : Gap k m T pre lo hi post) (mid : List Nat)
    (hw : ∀ x, x < lo ∨ hi ≤ x → x ≠ hi → x ≠ hi + 8 → m' x = m x)
    (hhi : span m' hi = span m hi ∧ isFree m' hi = isFree m hi)
    (hmid : Stretch m' (prevPhysical m lo) lo mid hi (prevPhysical m' hi))
    (hfl : k → Flags True m' (lastFree m pre) (mid ++ post.take 1)) :
    Walk m' 0 T.raw (pre ++ mid ++ post) T.sentinel ∧
      (span m' T.sentinel = 0 ∧ isFree m' T.sentinel = false) ∧
      (∃ L, Indexed m' T (fun c => c ∈ pre ++ post ∧ isFree m' c = true) L) ∧
      (k → Flags True m' false (pre ++ mid ++ post)) ∧ Edit m m' T pre lo hi post := by
  have hroom := h.room
  -- the headers outside the gap
  have hword : ∀ a ∈ pre ++ post ++ [T.sentinel], a ≠ hi → ∀ i < 32, m' (a + i) = m (a + i) := by
    intro a ha e i hi
    have := h.apart_hi ha e
    exact hw _ (by omega) (by omega) (by omega)
  have hhead :
    ∀ a ∈ pre ++ post ++ [T.sentinel], span m' a = span m a ∧ isFree m' a = isFree m a := by
    intro a ha
    by_cases e : a = hi
    · rw [e]; exact hhi
    · have := hword a ha e 0 (by omega)
      exact ⟨congrArg blockSize this, congrArg freeBit this⟩
  have hlinks : ∀ a ∈ pre ++ post, m' (a + 16) = m (a + 16) ∧ m' (a + 24) = m (a + 24) := by
    intro a ha
    have := h.outside (List.mem_append_left _ ha)
    by_cases e : a = hi
    · exact ⟨hw _ (by omega) (by omega) (by omega), hw _ (by omega) (by omega) (by omega)⟩
    · exact ⟨hword a (List.mem_append_left _ ha) e 16 (by omega),
        hword a (List.mem_append_left _ ha) e 24 (by omega)⟩
  have hpre : ∀ a ∈ pre, m' a = m a := fun a ha =>
    hword a (by simp [ha]) (by have := h.below ha; omega) 0 (by omega)
  obtain ⟨p, hy⟩ := h.right
  obtain ⟨L, hidx⟩ := h.idx
  refine ⟨?_, ?_, ⟨L, hidx.congr (fun c => ?_) fun c hc => ?_⟩, fun hk => ?_,
    ⟨fun x hx hc => ?_, hhead⟩⟩
  · refine Walk.append_iff.mpr
      ⟨hi, prevPhysical m' hi, Stretch.append_iff.mpr ⟨lo, _, ?_, hmid⟩, ?_⟩
    · exact h.left.congr fun a ha => ⟨(hhead a (by simp [ha])).1, hword a (by simp [ha]) (by
        have := h.below ha; omega) 8 (by omega)⟩
    · refine hy.reenter (fun a ha => (hhead a (by simp [ha])).1) fun a ha hne =>
        hword a ?_ hne 8 (by omega)
      simp only [List.mem_append, List.mem_singleton] at ha ⊢
      tauto
  · have := hhead T.sentinel (by simp)
    rw [this.1, this.2]; exact h.sent
  · refine and_congr_right fun hc => ?_
    rw [(hhead c (List.mem_append_left _ hc)).2]
  · exact ⟨(hhead c (List.mem_append_left _ hc.1)).1, hlinks c hc.1⟩
  · rw [List.append_assoc]
    have hl := lastFree_congr hpre
    refine Flags.append_iff.mpr ⟨(h.flagsL hk).congr hpre, ?_⟩
    show Flags True m' (lastFree m' pre) (mid ++ post)
    rw [hl]
    have hf := hfl hk
    cases post with
    | nil => exact hf
    | cons c post =>
      obtain ⟨rfl, -, hc, -, hy⟩ := hy
      unfold minBlock at hc
      obtain ⟨f1, f2⟩ := Flags.append_iff.mp hf
      refine Flags.append_iff.mpr ⟨f1, f2.1, f2.2.1, ?_⟩
      rw [hhi.2]
      have hft : Flags True m (isFree m c) post := h.flagsR hk
      refine hft.congr fun a ha => hword a (by simp [ha]) ?_ 0 (by omega)
      have := (hy.mem_bounds ha).1
      omega
  · cases post with
    | nil =>
      obtain ⟨e1, -⟩ := hy
      have := hc T.sentinel (by simp)
      exact hw x hx (by omega) (by omega)
    | cons c post =>
      obtain ⟨e1, -⟩ := hy
      have := hc c (by simp)
      exact hw x hx (by omega) (by omega)

end Basics

end Cmem.L2.SharedTlsf

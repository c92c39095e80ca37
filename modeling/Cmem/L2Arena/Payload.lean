import Cmem.L2Arena.Run

/-!
# An arena operation writes headers

`Payload A live x`: the word `x` lies behind the `tlsf_block_t` of one of the blocks `live`, or
outside the arena; `Quiet A l x` is this of the blocks in use among `l`. No operation writes
such a word, but for the one that is given the block (`mp_realloc` stamps the header of the
block it grows). The blocks in use keep their spans, so a word stays quiet from one step of an
operation to the next.
-/
namespace Cmem.L2.ThreadArena

def Payload (A : Arena) (live : List Nat) (x : Nat) : Prop :=
  (∃ a ∈ live, a + 32 ≤ x ∧ x < a + span A.mem a) ∨ x < A.raw ∨ A.sentinel + 32 ≤ x

def Quiet (A : Arena) (l : List Nat) (x : Nat) : Prop := Payload A (usedOf A.mem l) x

section
variable {k : Prop} {A A' : Arena} {as pre post l l' : List Nat} {lo hi b c prev curr x : Nat}

theorem Preserves.quiet (h : Preserves A A' l l') (hx : Quiet A l x) : Quiet A' l' x := by
  rcases hx with ⟨a, ha, h1, h2⟩ | hx
  · obtain ⟨hm, hf⟩ := mem_usedOf.mp ha
    refine .inl ⟨a, h.used ▸ ha, h1, ?_⟩
    rw [(h.keeps a hm hf).2.1]
    exact h2
  · refine .inr ?_
    rw [h.kept.raw, h.kept.sentinel]
    exact hx

theorem Quiet.congr (hx : Quiet A l x) (hk : Kept A A')
    (hs : ∀ a ∈ usedOf A.mem l, a ∈ usedOf A'.mem l' ∧ span A'.mem a = span A.mem a) :
    Quiet A' l' x := by
  rcases hx with ⟨a, ha, h1, h2⟩ | hx
  · obtain ⟨h3, h4⟩ := hs a ha
    exact .inl ⟨a, h3, h1, by rw [h4]; exact h2⟩
  · refine .inr ?_
    rw [hk.raw, hk.sentinel]
    exact hx

theorem spans_apart {m : Mem} (hp : l.Pairwise fun a b => a + span m a ≤ b) {a : Nat} (ha : a ∈ l)
    (hc : c ∈ l) (hne : a ≠ c) : a + span m a ≤ c ∨ c + span m c ≤ a := by
  have hs : l.Pairwise fun a b => a = b ∨ a + span m a ≤ b ∨ b + span m b ≤ a :=
    hp.imp fun h => .inr (.inl h)
  have hf : l.Pairwise (flip fun a b => a = b ∨ a + span m a ≤ b ∨ b + span m b ≤ a) :=
    hp.imp fun h => .inr (.inr h)
  exact (hs.forall_of_forall_of_flip (fun x _ => .inl rfl) hf ha hc).resolve_left hne

/-- A quiet word is in no header, and not in the gap. -/
theorem Gap.quiet_off (h : Gap k A pre lo hi post) (hx : Quiet A (pre ++ post) x) :
    (x < lo ∨ hi ≤ x) ∧ ∀ c ∈ pre ++ post ++ [A.sentinel], x < c ∨ c + 32 ≤ x := by
  obtain ⟨p, hw⟩ := h.right
  have hroom := h.room
  have hlo := h.raw_le
  have hhi := h.hi_le
  have hpre : ∀ c ∈ pre, A.raw ≤ c ∧ c + span A.mem c ≤ lo ∧ 32 ≤ span A.mem c := fun c hc => by
    obtain ⟨h1, h2, h3, -⟩ := h.left.mem_bounds hc
    exact ⟨h1, h2, h3⟩
  have hpost : ∀ c ∈ post, hi ≤ c ∧ c + span A.mem c ≤ A.sentinel ∧ 32 ≤ span A.mem c :=
    fun c hc => by
    obtain ⟨h1, h2, h3, -⟩ := hw.mem_bounds hc
    exact ⟨h1, h2, h3⟩
  rcases hx with ⟨a, ha, h1, h2⟩ | hx
  · have hside := (mem_usedOf.mp ha).1
    rcases List.mem_append.mp hside with ha | ha
    · have hba := hpre a ha
      refine ⟨.inl (by omega), fun c hc => ?_⟩
      simp only [List.mem_append, List.mem_singleton] at hc
      rcases hc with (hc | hc) | rfl
      · by_cases e : a = c
        · omega
        · have := spans_apart h.left.pairwise ha hc e
          have := hpre c hc
          omega
      · have := hpost c hc
        omega
      · omega
    · have hba := hpost a ha
      refine ⟨.inr (by omega), fun c hc => ?_⟩
      simp only [List.mem_append, List.mem_singleton] at hc
      rcases hc with (hc | hc) | rfl
      · have := hpre c hc
        omega
      · by_cases e : a = c
        · omega
        · have := spans_apart hw.pairwise ha hc e
          have := hpost c hc
          omega
      · omega
  · refine ⟨by omega, fun c hc => ?_⟩
    simp only [List.mem_append, List.mem_singleton] at hc
    rcases hc with (hc | hc) | rfl
    · have := hpre c hc
      omega
    · have := hpost c hc
      omega
    · omega

theorem Floating.quiet_off (h : Floating k A pre b post) (hx : Quiet A (pre ++ post) x) :
    ∀ c ∈ b :: (pre ++ post ++ [A.sentinel]), x < c ∨ c + 32 ≤ x := by
  obtain ⟨h1, h2⟩ := h.toGap.quiet_off hx
  have hroom := h.room
  intro c hc
  rcases List.mem_cons.mp hc with rfl | hc
  · omega
  · exact h2 c hc

/-! ## Insertion -/

/-- Unlinking writes links of list members only. -/
theorem unlinkFree_quiet (hl : (freeDL A.mem A.freeList).Is l) (hb : b ∈ l)
    (hx : ∀ c ∈ l, x < c ∨ c + 32 ≤ x) : (tlsfArenaUnlinkFree A b).mem x = A.mem x := by
  obtain ⟨xs, ys, rfl⟩ := List.append_of_mem hb
  exact unlinkFree_frame hl fun c hc => by
    have := hx c hc
    omega

theorem mem_of_head {l : List Nat} (h : curr = l.head?.getD 0) (h0 : curr ≠ 0) : curr ∈ l := by
  cases l with
  | nil => exact absurd h h0
  | cons a l => rw [h]; exact List.mem_cons_self

theorem mem_of_last {l : List Nat} (h : prev = l.getLast?.getD 0) (h0 : prev ≠ 0) : prev ∈ l := by
  cases e : l.getLast? with
  | none => rw [e] at h; exact absurd h h0
  | some a => rw [e] at h; rw [h]; exact List.mem_of_getLast? e

theorem mergeForward_quiet (curr : Nat) (h : Floating k A pre b post)
    (hc : curr = (post.filter (isFree A.mem)).head?.getD 0) (hx : Quiet A (pre ++ post) x) :
    (mergeForward A b curr).1.mem x = A.mem x := by
  have hoff := h.quiet_off hx
  unfold mergeForward
  split
  · rename_i hcond
    have hm := mem_of_head hc hcond.1
    have hmem : curr ∈ (pre ++ post).filter (isFree A.mem) := by
      rw [List.filter_append]
      exact List.mem_append_right _ hm
    have hb := hoff b List.mem_cons_self
    refine (Mem.set_ne _ _ (by omega)).trans (unlinkFree_quiet h.list hmem fun c hc => hoff c ?_)
    exact List.mem_cons_of_mem _ (List.mem_append_left _ (List.mem_filter.mp hc).1)
  · rfl

theorem mergeBackward_quiet (h : Floating k A pre b post)
    (hp : prev = (pre.filter (isFree A.mem)).getLast?.getD 0) (hx : Quiet A (pre ++ post) x) :
    (mergeBackward A b prev).1.mem x = A.mem x := by
  have hoff := h.quiet_off hx
  unfold mergeBackward
  split
  · rename_i hcond
    have hm := mem_of_last hp hcond.1
    have hmem : prev ∈ (pre ++ post).filter (isFree A.mem) := by
      rw [List.filter_append]
      exact List.mem_append_left _ hm
    have hb :=
      hoff prev (List.mem_cons_of_mem _ (List.mem_append_left _ (List.mem_filter.mp hmem).1))
    refine (Mem.set_ne _ _ (by omega)).trans (unlinkFree_quiet h.list hmem fun c hc => hoff c ?_)
    exact List.mem_cons_of_mem _ (List.mem_append_left _ (List.mem_filter.mp hc).1)
  · rfl

/-- The physical successor of a gap is a block or the sentinel. -/
theorem Gap.hi_mem (h : Gap k A pre lo hi post) : hi ∈ pre ++ post ++ [A.sentinel] := by
  obtain ⟨p, hw⟩ := h.right
  cases post with
  | nil => rw [hw.1]; simp
  | cons c post => rw [← hw.1]; simp

theorem linkFree_quiet (h : Floating k A pre b post)
    (hp : prev = (pre.filter (isFree A.mem)).getLast?.getD 0)
    (hc : curr = (post.filter (isFree A.mem)).head?.getD 0) (hx : Quiet A (pre ++ post) x) :
    (linkFree A b prev curr).mem x = A.mem x := by
  have hoff := h.quiet_off hx
  have hmem : ∀ c ∈ pre ++ post, x < c ∨ c + 32 ≤ x := fun c hc =>
    hoff c (List.mem_cons_of_mem _ (List.mem_append_left _ hc))
  have hb := hoff b List.mem_cons_self
  have hlink : (linkBlock A.mem A.freeList b prev curr).1 x = A.mem x := by
    refine linkBlock_frame ⟨by omega, by omega⟩ (fun h0 => ?_) fun h0 => ?_
    · have := hmem prev (List.mem_append_left _ (List.mem_filter.mp (mem_of_last hp h0)).1)
      omega
    · have := hmem curr (List.mem_append_right _ (List.mem_filter.mp (mem_of_head hc h0)).1)
      omega
  obtain ⟨s1, -⟩ := stampAfter_words
    { A with mem := (linkBlock A.mem A.freeList b prev curr).1,
             freeList := (linkBlock A.mem A.freeList b prev curr).2 } b
  have hsb : span (linkBlock A.mem A.freeList b prev curr).1 b = span A.mem b :=
    congrArg blockSize ((h.link hp hc).2 b (by simp)).1
  simp only [hsb] at s1
  have hafter := hoff _ (List.mem_cons_of_mem _ h.toGap.hi_mem)
  exact (s1 x (by omega) (by omega)).trans hlink

theorem insertFree_quiet (h : Floating k A pre b post) (hx : Quiet A (pre ++ post) x) :
    (tlsfArenaInsertFree A b).mem x = A.mem x := by
  have hroom := h.room
  have hlist := h.list
  rw [List.filter_append] at hlist
  have hpos : insertPos A.mem b A.size 0 A.freeList = ((pre.filter (isFree A.mem)).getLast?.getD 0,
      (post.filter (isFree A.mem)).head?.getD 0) := by
    refine insertPos_spec (fun a ha => ?_) (fun a ha => ?_) ?_ hlist.chain
    · have := h.below (List.mem_filter.mp ha).1; omega
    · have := h.above (List.mem_filter.mp ha).1; omega
    · have := h.length_le
      have := List.length_filter_le (isFree A.mem) pre
      simp only [List.length_append] at *
      omega
  obtain ⟨post', f1, hh1, hc1, w1, p1⟩ :=
    mergeForward_spec (insertPos A.mem b A.size 0 A.freeList).2 h (by rw [hpos])
  have q1 := mergeForward_quiet (insertPos A.mem b A.size 0 A.freeList).2 h (by rw [hpos]) hx
  have hx1 := p1.quiet hx
  have hp1 : (insertPos A.mem b A.size 0 A.freeList).1 =
      (pre.filter
        (isFree (mergeForward A b (insertPos A.mem b A.size 0 A.freeList).2).1.mem)).getLast?.getD
          0 := by
    rw [filter_isFree_congr w1, hpos]
  obtain ⟨pre', f2, hl2, hp2, w2, p2⟩ :=
    mergeBackward_spec (insertPos A.mem b A.size 0 A.freeList).1 f1 hp1
  have q2 := mergeBackward_quiet f1 hp1 hx1
  have q3 := linkFree_quiet f2 hp2 (hc1.trans (by rw [filter_isFree_congr w2])) (p2.quiet hx1)
  exact q3.trans (q2.trans q1)

/-! ## Split and grow -/

theorem Gap.splitOff_quiet (h : Gap k A pre lo hi post)
    (hl : (freeDL A.mem A.freeList).Is ((pre ++ post).filter (isFree A.mem)))
    (hlast : k → lastFree A.mem pre = false) {total remaining : Nat} (ht : minBlock ≤ total)
    (hd : 8 ∣ total) (hr : 32 ≤ remaining) (hsum : lo + total + remaining = hi)
    (hx : Quiet A (pre ++ post) x ∨ lo + 32 ≤ x ∧ x < lo + total) :
    (ThreadArena.splitOff A lo total remaining).mem x = A.mem x := by
  obtain ⟨hfloat, hlo, hlof, hbl, -⟩ := h.split_floats hl hlast ht hd hr hsum
  have hout : x < lo ∨ hi ≤ x ∨ lo + 32 ≤ x ∧ x < lo + total := by
    rcases hx with hx | hx
    · exact (h.quiet_off hx).1.imp_right .inl
    · exact .inr (.inr hx)
  have hm : splitWords A.mem lo total remaining x = A.mem x :=
    (Mem.set_ne _ _ (by omega)).trans
      ((Mem.set_ne _ _ (by omega)).trans (Mem.set_ne _ _ (by omega)))
  have hq :
    Quiet { A with mem := splitWords A.mem lo total remaining } (pre ++ [lo] ++ post) x := by
    rcases hx with hx | ⟨h1, h2⟩
    · refine hx.congr (Kept.setMem ..) fun a ha => ?_
      obtain ⟨h1, h2⟩ := mem_usedOf.mp ha
      refine ⟨mem_usedOf.mpr ⟨?_, (congrArg freeBit (hbl a h1)).trans h2⟩,
        congrArg blockSize (hbl a h1)⟩
      simp only [List.mem_append] at h1 ⊢; tauto
    · exact .inl ⟨lo, mem_usedOf.mpr ⟨by simp, hlof⟩, h1, by rw [hlo]; exact h2⟩
  exact (insertFree_quiet hfloat hq).trans hm

theorem unstampAfter_quiet {after : Nat} (hx : x < after ∨ after + 32 ≤ x) :
    (unstampAfter A after).mem x = A.mem x :=
  (unstampAfter_mem A after).1 x (by omega)

theorem carve_quiet (h : Tiled k A as) (hb : b ∈ as.filter (isFree A.mem)) {total : Nat}
    (ht : minBlock ≤ total) (hd : 8 ∣ total) (hle : total ≤ span A.mem b) (hx : Quiet A as x) :
    (carve A b total).mem x = A.mem x := by
  obtain ⟨hm, hf⟩ := List.mem_filter.mp hb
  obtain ⟨pre, post, rfl⟩ := Tiled.split hm
  obtain ⟨-, -, hb32, -⟩ := h.mem_bounds hm
  have hg := h.gap
  have hlist := h.list
  rw [List.filter_append, List.filter_cons_of_pos hf] at hlist
  obtain ⟨g1, l1, w1, -, p1⟩ := hg.unlink hlist (List.filter_append ..).symm
    ⟨Nat.le_refl _, by omega⟩ (.inl rfl)
  have hlast : lastFree (tlsfArenaUnlinkFree A b).mem pre = false := by
    have := h.flags.append.2.1
    rw [hf] at this
    rw [lastFree_congr fun a ha => w1 a (by simp [ha])]
    simpa using this
  have hxs : Quiet A (pre ++ post) x := hx.congr (Kept.refl A) fun a ha => by
    refine ⟨?_, rfl⟩
    rw [usedOf_append, usedOf_cons_free hf] at ha
    rwa [usedOf_append]
  obtain ⟨hgap, hoff⟩ := hg.quiet_off hxs
  have hafter := hoff _ hg.hi_mem
  have hu : (tlsfArenaUnlinkFree A b).mem x = A.mem x := by
    refine unlinkFree_frame hlist fun c hc => ?_
    rcases List.mem_append.mp hc with hc | hc
    · have := hoff c (by simp [(List.mem_filter.mp hc).1])
      omega
    · rcases List.mem_cons.mp hc with rfl | hc
      · omega
      · have := hoff c (by simp [(List.mem_filter.mp hc).1])
        omega
  unfold carve
  dsimp only
  split
  · rename_i hrem
    unfold minBlock blockHdr at hrem
    exact (g1.splitOff_quiet l1 (fun _ => hlast) ht hd (by omega) (by omega)
      (.inl (p1.quiet hxs))).trans hu
  · refine (unstampAfter_quiet hafter).trans (Eq.trans ?_ hu)
    exact (Mem.set_ne _ _ (by omega)).trans (Mem.set_ne _ _ (by omega))

section Pair
variable {n : Nat}

/-- A quiet word is in the payload of `b`, or quiet beside `b` and its free successor. -/
theorem Quiet.pair (hx : Quiet A (pre ++ b :: n :: post) x) (hnf : isFree A.mem n = true)
    (hn : n = b + span A.mem b) : Quiet A (pre ++ post) x ∨ b + 32 ≤ x ∧ x < n := by
  rcases hx with ⟨a, ha, h1, h2⟩ | hx
  · by_cases e : a = b
    · subst e
      exact .inr ⟨h1, hn ▸ h2⟩
    · obtain ⟨ha, hfa⟩ := mem_usedOf.mp ha
      refine .inl (.inl ⟨a, mem_usedOf.mpr ⟨?_, hfa⟩, h1, h2⟩)
      have : a ≠ n := by
        rintro rfl
        rw [hnf] at hfa
        cases hfa
      simp only [List.mem_append, List.mem_cons] at ha ⊢
      tauto
  · exact .inl (.inr hx)

/-- Neither of the two is in a header. -/
theorem Gap.pair_off (hg : Gap k A pre b hi post) (hn : b + 32 ≤ n) (hhi : n + 32 ≤ hi)
    (hx : Quiet A (pre ++ post) x ∨ b + 32 ≤ x ∧ x < n) :
    ∀ c ∈ n :: (pre ++ [b] ++ post ++ [A.sentinel]), x < c ∨ c + 32 ≤ x := by
  intro c hc
  simp only [List.mem_append, List.mem_cons, List.not_mem_nil, or_false] at hc
  rcases hx with hx | hx
  · obtain ⟨h1, h2⟩ := hg.quiet_off hx
    rcases hc with rfl | ((hc | rfl) | hc) | rfl
    · omega
    · exact h2 c (by simp [hc])
    · omega
    · exact h2 c (by simp [hc])
    · exact h2 _ (by simp)
  · rcases hc with rfl | ((hc | rfl) | hc) | rfl
    · omega
    · have := (hg.below hc).2.2
      omega
    · omega
    · have := (hg.above hc).1
      omega
    · have := hg.hi_le
      omega

end Pair

theorem absorbNext_quiet (h : Tiled False A as) (hb : b ∈ usedOf A.mem as) {need : Nat}
    (hn : 8 ∣ need) (hgt : span A.mem b < need) (hgr : growable A b need = true)
    (hx : Quiet A as x) : (absorbNext A b need).mem x = A.mem x := by
  obtain ⟨hm, hf⟩ := mem_usedOf.mp hb
  obtain ⟨pre, rest, rfl⟩ := Tiled.split hm
  simp only [growable, Bool.and_eq_true, decide_eq_true_eq] at hgr
  obtain ⟨⟨hns, hnf⟩, hfit⟩ := hgr
  obtain ⟨-, -, hb32, hb8⟩ := h.mem_bounds hm
  obtain ⟨n, post, rfl⟩ : ∃ n l, rest = n :: l := by
    cases rest with
    | nil =>
      obtain ⟨p, hw⟩ := h.gap.right
      exact absurd hw.1 hns
    | cons n l => exact ⟨n, l, rfl⟩
  obtain ⟨rfl, hg⟩ := h.gap.takeNext
  obtain ⟨-, -, hn32, hn8⟩ := h.mem_bounds (b := b + span A.mem b) (by simp)
  have ho := h.opened hf hnf False.elim
  have hxs := hx.pair hnf rfl
  have hoff := hg.pair_off (n := b + span A.mem b) (by omega) (by omega) hxs
  have hr := restamped (tlsfArenaUnlinkFree A (b + span A.mem b))
    (b + span A.mem b + span A.mem (b + span A.mem b)) b
  -- neither the removal from the list nor the stamp behind the pair touches the word
  have hu : (tlsfArenaUnlinkFree A (b + span A.mem b)).mem x = A.mem x := by
    refine unlinkFree_quiet h.list (List.mem_filter.mpr ⟨by simp, hnf⟩) fun c hc => hoff c ?_
    have := (List.mem_filter.mp hc).1
    simp only [List.mem_append, List.mem_cons] at this ⊢
    tauto
  have hafter : x < b + span A.mem b + span A.mem (b + span A.mem b) ∨
      b + span A.mem b + span A.mem (b + span A.mem b) + 32 ≤ x := by
    refine hoff _ (List.mem_cons_of_mem _ ?_)
    have := hg.hi_mem
    simp only [List.mem_append, List.mem_cons] at this ⊢
    tauto
  have hu2 := (hr.away x (by omega) (by omega)).trans hu
  unfold absorbNext
  dsimp only
  split
  · rename_i hrem
    unfold minBlock blockHdr at hrem
    refine ((hr.gap ho.gap).splitOff_quiet (hr.freeDL ho.gap ho.list) False.elim
      (by unfold minBlock; omega) hn (by omega) (by omega) ?_).trans hu2
    refine hxs.imp (fun hx => hx.congr (ho.kept.trans hr.kept) fun a ha => ?_)
      fun hx => ⟨hx.1, by omega⟩
    obtain ⟨h1, h2⟩ := mem_usedOf.mp ha
    obtain ⟨h3, h4, -⟩ := ho.keeps a h1 h2
    obtain ⟨⟨h5, h6⟩, -⟩ := hr.around ho.gap h1
    exact ⟨mem_usedOf.mpr ⟨h1, h5.trans h3⟩, h6.trans h4⟩
  · have hbx := hoff b (by simp)
    exact (Mem.set_ne _ _ (by omega)).trans hu2

/-! ## The operations -/

theorem Payload.mono {live live' : List Nat} (hx : Payload A live x) (hs : ∀ a ∈ live, a ∈ live') :
    Payload A live' x :=
  hx.imp_left fun ⟨a, ha, h⟩ => ⟨a, hs a ha, h⟩

theorem Payload.congr {live : List Nat} (hx : Payload A live x) (hr : A'.raw = A.raw)
    (hse : A'.sentinel = A.sentinel) (hs : ∀ a ∈ live, span A'.mem a = span A.mem a) :
    Payload A' live x := by
  rcases hx with ⟨a, ha, h1, h2⟩ | hx
  · exact .inl ⟨a, ha, h1, by rw [hs a ha]; exact h2⟩
  · refine .inr ?_
    rw [hr, hse]
    exact hx

/-- The payload of the others lies beside a block in use. -/
theorem Tiled.beside (h : Tiled k A as) (hb : b ∈ usedOf A.mem as) {live : List Nat}
    (hl : ∀ a ∈ live, a ∈ usedOf A.mem as ∧ a ≠ b) (hx : Payload A live x) :
    ∃ pre post, as = pre ++ b :: post ∧ Quiet A (pre ++ post) x := by
  obtain ⟨pre, post, rfl⟩ := Tiled.split (mem_usedOf.mp hb).1
  refine ⟨pre, post, rfl, hx.mono fun a ha => ?_⟩
  obtain ⟨h1, h2⟩ := hl a ha
  obtain ⟨h3, h4⟩ := mem_usedOf.mp h1
  refine mem_usedOf.mpr ⟨?_, h4⟩
  simp only [List.mem_append, List.mem_cons] at h3 ⊢; tauto

theorem release_quiet (h : Tiled k A as) (hb : b ∈ usedOf A.mem as) {live : List Nat}
    (hl : ∀ a ∈ live, a ∈ usedOf A.mem as ∧ a ≠ b) (hx : Payload A live x) :
    (tlsfArenaInsertFree (stampFree A b (span A.mem b)) b).mem x = A.mem x := by
  obtain ⟨pre, post, rfl, hq⟩ := h.beside hb hl hx
  have hf := (mem_usedOf.mp hb).2
  have hlist := h.list
  rw [List.filter_append, List.filter_cons_of_neg (by simp [hf]), ← List.filter_append] at hlist
  obtain ⟨f1, -, p1⟩ := h.gap.stamp hlist rfl
  have hroom := h.gap.room
  have := (h.gap.quiet_off hq).1
  exact (insertFree_quiet f1 (p1.quiet hq)).trans (Mem.set_ne _ _ (by omega))

theorem reapLoop_quiet {l : List Nat} (live : List Nat) {block fuel : Nat} (h : Tiled k A as)
    (hc : Chain (nextFree A.mem) block l) (hp : (live ++ l).Perm (usedOf A.mem as))
    (hf : l.length ≤ fuel) (hx : Payload A live x) : (reapLoop fuel A block).mem x = A.mem x := by
  induction l generalizing A as block fuel with
  | nil =>
    cases hc
    cases fuel <;> rfl
  | cons c l ih =>
    obtain ⟨rfl, h0, hc⟩ := hc
    have hbu : block ∈ usedOf A.mem as := hp.mem_iff.mp (by simp)
    have hnd : (live ++ block :: l).Nodup := hp.nodup_iff.mpr (h.nodup.filter _)
    rw [List.nodup_middle] at hnd
    have hin : ∀ a ∈ live ++ l, a ∈ usedOf A.mem as ∧ a ≠ block := fun a ha =>
      ⟨hp.mem_iff.mp (by simp only [List.mem_append, List.mem_cons] at ha ⊢; tauto), fun e =>
        (List.nodup_cons.mp hnd).1 (e ▸ ha)⟩
    have hlive : ∀ a ∈ live, a ∈ usedOf A.mem as ∧ a ≠ block :=
      fun a ha => hin a (List.mem_append_left _ ha)
    have q := release_quiet h hbu hlive hx
    obtain ⟨as₁, t₁, k₁, u₁, keep₁⟩ := release_spec h hbu
    cases fuel with
    | zero => simp at hf
    | succ n =>
      rw [reapLoop, if_neg h0]
      refine (ih t₁ (hc.congr fun a ha => ?_) ?_ (by simpa using hf) ?_).trans q
      · obtain ⟨h1, h2⟩ := hin a (List.mem_append_right _ ha)
        exact (keep₁ a h1 h2).2
      · rw [u₁]
        have := (hp.symm.trans List.perm_middle).symm.erase block
        rwa [List.erase_cons_head] at this
      · exact hx.congr k₁.raw k₁.sentinel fun a ha => (keep₁ a (hlive a ha).1 (hlive a ha).2).1

section Sys
variable {s : Sys} {mb : List Nat}

theorem reap_quiet (h : Filled k s as mb) (hx : Payload s.arena s.live x) :
    (tlsfArenaReap s.arena).mem x = s.arena.mem x := by
  have ht : Tiled k { s.arena with remoteFree := 0 } as :=
    h.tiled.congr rfl rfl rfl rfl (fun _ _ => ⟨rfl, rfl⟩) (fun _ _ _ => ⟨rfl, rfl⟩)
  exact reapLoop_quiet s.live ht h.mail h.perm h.length_mail (hx.congr rfl rfl fun _ _ => rfl)

theorem reapIfAny_quiet (h : Filled k s as mb) (hx : Payload s.arena s.live x) :
    (reapIfAny s.arena).mem x = s.arena.mem x := by
  unfold reapIfAny
  split
  · exact reap_quiet h hx
  · rfl

theorem reap_kept (h : Filled k s as mb) :
    Kept { s.arena with remoteFree := 0 } (tlsfArenaReap s.arena) := by
  have ht : Tiled k { s.arena with remoteFree := 0 } as :=
    h.tiled.congr rfl rfl rfl rfl (fun _ _ => ⟨rfl, rfl⟩) (fun _ _ _ => ⟨rfl, rfl⟩)
  obtain ⟨-, -, hk, -⟩ := reapLoop_spec s.live ht h.mail h.perm h.length_mail
  exact hk

theorem reapIfAny_region (h : Filled k s as mb) :
    (reapIfAny s.arena).raw = s.arena.raw ∧ (reapIfAny s.arena).sentinel = s.arena.sentinel := by
  have hk := reap_kept h
  unfold reapIfAny
  split
  · exact ⟨hk.raw, hk.sentinel⟩
  · exact ⟨rfl, rfl⟩

/-- **Allocation** leaves all payloads alone, and a block it finds is large enough. -/
theorem alloc_payload (h : InvWith k s as mb) {total : Nat} (ht : minBlock ≤ total)
    (hd : 8 ∣ total) :
    (∀ x, Payload s.arena s.live x → (tlsfArenaAlloc s.arena total).1.mem x = s.arena.mem x) ∧
      (∀ a ∈ s.live, span (tlsfArenaAlloc s.arena total).1.mem a = span s.arena.mem a) ∧
      ((tlsfArenaAlloc s.arena total).2 ≠ 0 →
        total ≤ span (tlsfArenaAlloc s.arena total).1.mem (tlsfArenaAlloc s.arena total).2 ∧
        (Splits (reapIfAny s.arena).mem total (tlsfArenaAlloc s.arena total).2 →
          span (tlsfArenaAlloc s.arena total).1.mem (tlsfArenaAlloc s.arena total).2 = total)) := by
  obtain ⟨as₁, mb₁, h₁, hs₁⟩ := reapIfAny_inv h
  have hreg := reapIfAny_region h.filled
  have hq : ∀ x, Payload s.arena s.live x → (reapIfAny s.arena).mem x = s.arena.mem x := fun x hx =>
    reapIfAny_quiet h.filled hx
  unfold tlsfArenaAlloc
  generalize reapIfAny s.arena = A₁ at *
  dsimp only
  by_cases hb0 : firstFit A₁.mem total A₁.size A₁.freeList = 0
  · rw [if_pos hb0]
    exact ⟨hq, hs₁, fun h => absurd rfl h⟩
  · rw [if_neg hb0]
    obtain ⟨hb, hle⟩ := h₁.tiled.firstFit total hb0
    generalize firstFit A₁.mem total A₁.size A₁.freeList = b at *
    obtain ⟨as', t, hk, hp, hroom, hkeep⟩ := carve_spec h₁.tiled hb ht hd hle
    refine ⟨fun x hx => ?_, fun a ha => (hkeep a (h₁.live_used ha)).1.trans (hs₁ a ha),
      fun _ => hroom⟩
    refine (carve_quiet h₁.tiled hb ht hd hle ?_).trans (hq x hx)
    exact (hx.congr hreg.1 hreg.2 hs₁).mono fun a ha => h₁.live_used ha

/-- **Growing** leaves all payloads alone, that of the grown block too, and the other spans. -/
theorem grown_payload (newSize : Nat) (canary : Bool) (h : InvWith False s as mb)
    (hb : b ∈ s.live) :
    (∀ x, Payload s.arena s.live x → (grown s.arena b newSize canary).mem x = s.arena.mem x) ∧
      (∀ a ∈ s.live, a ≠ b → span (grown s.arena b newSize canary).mem a = span s.arena.mem a) := by
  obtain ⟨as₁, mb₁, h₁, hs₁⟩ := reapIfAny_inv h
  have hreg := reapIfAny_region h.filled
  have hq : ∀ x, Payload s.arena s.live x → (reapIfAny s.arena).mem x = s.arena.mem x := fun x hx =>
    reapIfAny_quiet h.filled hx
  have hin : ∀ a ∈ s.live, a ∈ usedOf (reapIfAny s.arena).mem as₁ := fun a ha => h₁.live_used ha
  unfold grown
  dsimp only
  split
  · rename_i hc
    obtain ⟨-, t, -, -, -, -, hs, -⟩ :=
      absorbNext_spec h₁.tiled (h₁.live_used hb) (totalNeeded_dvd ..) hc.1 hc.2
      False.elim
    refine ⟨fun x hx => ?_, fun a ha hne => (hs a (hin a ha) hne).trans (hs₁ a ha)⟩
    refine (absorbNext_quiet h₁.tiled (h₁.live_used hb) (totalNeeded_dvd ..) hc.1 hc.2 ?_).trans
      (hq x hx)
    exact (hx.congr hreg.1 hreg.2 hs₁).mono hin
  · exact ⟨hq, fun a ha _ => hs₁ a ha⟩

/-- The counter and the claim of a release; the rest of it is the cleanup. -/
def recount (A : Arena) (n : Nat) (claimed : Bool) : Arena :=
  { A with liveBytes := n, cleanupClaimed := claimed }

/-- What a release does behind `pushOrInsert`. -/
def settle (A : Arena) (sp : Nat) : Arena :=
  if A.liveBytes = sp ∧ A.retired ∧ ¬ A.cleanupClaimed then
    tlsfArenaCleanup (recount A (sizeSub A.liveBytes sp) true)
  else recount A (sizeSub A.liveBytes sp) A.cleanupClaimed

theorem freeBlock_settle (A : Arena) (b : Nat) (attached : Bool) :
    tlsfArenaFreeBlock A b attached = settle (pushOrInsert A b attached) (span A.mem b) := by
  unfold tlsfArenaFreeBlock settle pushOrInsert recount
  rfl

theorem cleanup_mem (A : Arena) : (tlsfArenaCleanup A).mem = (tlsfArenaReap A).mem := by
  unfold tlsfArenaCleanup
  rfl

theorem Filled.recount {A : Arena} {live : List Nat} (h : Filled k ⟨A, live⟩ as mb) (n : Nat)
    (c : Bool) : Filled k ⟨ThreadArena.recount A n c, live⟩ as mb where
  tiled := h.tiled.congr rfl rfl rfl rfl (fun _ _ => ⟨rfl, rfl⟩) fun _ _ _ => ⟨rfl, rfl⟩
  perm := h.perm
  mail := h.mail

theorem Released.filled {A₁ : Arena} (r : Released k s b A₁ as mb) :
    Filled k ⟨A₁, s.live.erase b⟩ as mb :=
  ⟨r.tiled, r.perm, r.mail⟩

theorem recount_quiet {A : Arena} {live : List Nat} (n : Nat) (c : Bool)
    (h : Filled k ⟨A, live⟩ as mb) (hx : Payload A live x) :
    (tlsfArenaReap (recount A n c)).mem x = A.mem x := by
  have hf := h.recount n c
  have hx' : Payload (recount A n c) live x := hx.congr rfl rfl fun _ _ => rfl
  exact reap_quiet hf hx'

theorem settle_quiet {A : Arena} {live : List Nat} {sp : Nat} (h : Filled k ⟨A, live⟩ as mb)
    (hx : Payload A live x) : (settle A sp).mem x = A.mem x := by
  unfold settle
  split
  · exact (congrFun (cleanup_mem _) x).trans (recount_quiet _ true h hx)
  · rfl

/-- **A release**, with the cleanup behind it if there is one. -/
theorem free_payload (attached : Bool) (h : Filled k s as mb) (hb : b ∈ s.live)
    (hx : Payload s.arena (s.live.erase b) x) :
    (tlsfArenaFreeBlock s.arena b attached).mem x = s.arena.mem x := by
  have hne := h.erase_ne hb
  have hl : ∀ a ∈ s.live.erase b, a ∈ usedOf s.arena.mem as ∧ a ≠ b := fun a ha => by
    obtain ⟨h1, h2⟩ := hne a (List.mem_append_left _ ha)
    exact ⟨h2, h1⟩
  have hq : (pushOrInsert s.arena b attached).mem x = s.arena.mem x := by
    unfold pushOrInsert
    split
    · exact release_quiet h.tiled (h.live_used hb) hl hx
    · obtain ⟨pre, post, rfl, hq⟩ := h.tiled.beside (h.live_used hb) hl hx
      have hroom := h.tiled.gap.room
      have := (h.tiled.gap.quiet_off hq).1
      exact Mem.set_ne _ _ (by omega)
  obtain ⟨as', mb', r⟩ := pushOrInsert_released h attached hb
  rw [freeBlock_settle]
  exact (settle_quiet r.filled (hx.congr r.kept.raw r.kept.sentinel r.spans)).trans hq

end Sys

end

end Cmem.L2.ThreadArena

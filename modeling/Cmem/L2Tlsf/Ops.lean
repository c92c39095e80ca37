import Cmem.L2Tlsf.Gap

/-!
# The mutators of one arena

What `takeBlock` (the core of `tlsf_alloc`), `tlsf_free`, `expandBlock` (the
core of `tlsf_try_inplace_expand`), the re-insertion of a cached block, the
creation of an arena and its re-seeding do to a sound arena. `Outcome` is the
common part: the arena is sound again, nothing outside its region has changed,
and every block in use other than the one worked on keeps its span and every
byte behind its `tlsf_block_t`.
-/
namespace Cmem.L2.SharedTlsf

def Used (m : Mem) (as : List Nat) (c : Nat) : Prop := c ∈ as ∧ isFree m c = false

structure Outcome (k : Prop) (m : Mem) (T : TPool) (as : List Nat) (m' : Mem) (T' : TPool)
    (as' : List Nat) (b : Nat) : Prop where
  sound : Sound k m' T' as'
  same : SameRegion T T'
  out : ∀ x, x < T.raw ∨ T.raw + T.size ≤ x → m' x = m x
  used : ∀ c, c ≠ b → (Used m' as' c ↔ Used m as c)
  keep : ∀ c, c ≠ b → Used m as c →
    span m' c = span m c ∧ ∀ i, 32 ≤ i → i < span m c → m' (c + i) = m (c + i)

section Ops
variable {k : Prop} {m m' m'' : Mem} {T T' : TPool} {as pre post mid mid' : List Nat}
  {lo hi b : Nat}

theorem Sound.disjoint (h : Sound k m T as) {a c : Nat} (ha : a ∈ as) (hc : c ∈ as) (hne : a ≠ c) :
    a + span m a ≤ c ∨ c + span m c ≤ a := by
  have hs : as.Pairwise fun a c => a = c ∨ a + span m a ≤ c ∨ c + span m c ≤ a :=
    h.walk.pairwise.imp fun h => .inr (.inl h)
  have hf : as.Pairwise (flip fun a c => a = c ∨ a + span m a ≤ c ∨ c + span m c ≤ a) :=
    h.walk.pairwise.imp fun h => .inr (.inr h)
  exact (hs.forall_of_forall_of_flip (fun x _ => .inl rfl) hf ha hc).resolve_left hne

/-- Bytes behind the header of one block are in no header. -/
theorem Sound.payload_apart (h : Sound k m T as) {c d i : Nat} (hc : c ∈ as)
    (hd : d ∈ as ++ [T.sentinel]) (hi : 32 ≤ i) (hi' : i < span m c) :
    c + i < d ∨ d + 32 ≤ c + i := by
  have hb := h.bounds hc
  rcases List.mem_append.mp hd with hd | hd
  · by_cases e : c = d
    · omega
    · have := h.bounds hd
      have := h.disjoint hc hd e
      omega
  · rw [List.mem_singleton.mp hd]; omega

/-- Assemble an outcome from an edit around a gap: the blocks that are gone lay in
the gap and were FREE, or are `b`. -/
theorem Outcome.of_edit (h : Sound k m T as) (h' : Sound k m' T' (pre ++ mid' ++ post))
    (hs : SameRegion T T') (he : Edit m m' T pre lo hi post) (hsub : ∀ c ∈ pre ++ post, c ∈ as)
    (hmid : ∀ c ∈ as, c ∈ pre ++ post ∨ lo ≤ c ∧ c + span m c ≤ hi ∧ (c ≠ b → isFree m c = true))
    (hmid' : ∀ c ∈ mid', c ≠ b → isFree m' c = true)
    (hlo : T.raw ≤ lo) (hhi : hi ≤ T.sentinel)
    (hside : ∀ c ∈ pre ++ post, c + span m c ≤ lo ∨ hi ≤ c) :
    Outcome k m T as m' T' (pre ++ mid' ++ post) b := by
  have hend := h.region.end
  have hsz := h.region.lo
  have hused : ∀ c, c ≠ b → Used m as c → c ∈ pre ++ post := by
    rintro c hne ⟨h1, h2⟩
    refine (hmid c h1).resolve_right fun h3 => ?_
    rw [h3.2.2 hne] at h2; cases h2
  have hfree : ∀ c ∈ pre ++ post, isFree m' c = isFree m c := fun c hc =>
    (he.head c (List.mem_append_left _ hc)).2
  refine ⟨h', hs, fun x hx => he.word x (by omega) fun c hc => ?_, fun c hne => ⟨?_, fun hu => ?_⟩,
    fun c hne hu => ?_⟩
  · rcases List.mem_append.mp hc with hc | hc
    · have := h.bounds (hsub c hc); omega
    · rw [List.mem_singleton.mp hc]; omega
  · rintro ⟨h1, h2⟩
    have hc : c ∈ pre ++ post := by
      simp only [List.mem_append] at h1 ⊢
      rcases h1 with (h1 | h1) | h1
      · exact .inl h1
      · rw [hmid' c h1 hne] at h2; cases h2
      · exact .inr h1
    exact ⟨hsub c hc, by rw [← hfree c hc]; exact h2⟩
  · have hc := hused c hne hu
    refine ⟨?_, by rw [hfree c hc]; exact hu.2⟩
    simp only [List.mem_append] at hc ⊢; tauto
  · have hc := hused c hne hu
    refine ⟨(he.head c (List.mem_append_left _ hc)).1, fun i hi1 hi2 => he.word _ ?_ fun d hd => ?_⟩
    · have := hside c hc; omega
    · refine h.payload_apart hu.1 ?_ hi1 hi2
      rcases List.mem_append.mp hd with hd | hd
      · exact List.mem_append_left _ (hsub d hd)
      · exact List.mem_append_right _ hd

theorem Gap.side (h : Gap k m T pre lo hi post) (c : Nat) (hc : c ∈ pre ++ post) :
    c + span m c ≤ lo ∨ hi ≤ c := by
  rcases List.mem_append.mp hc with hc | hc
  · exact .inl (h.below hc).2.1
  · exact .inr (h.above hc).1

theorem Edit.of_same (hs : SameRegion T T') (h : Edit m m' T' pre lo hi post) :
    Edit m m' T pre lo hi post := by
  refine ⟨fun x hx hc => h.word x hx ?_, fun c hc => h.head c ?_⟩
  · rw [hs.sentinel]; exact hc
  · rw [hs.sentinel]; exact hc

/-- An edit around a gap is one around any wider gap. -/
theorem Edit.widen {pre' post' : List Nat} {lo' hi' : Nat} (h : Edit m m' T pre lo hi post)
    (hlo : lo' ≤ lo) (hhi : hi ≤ hi') (hsub : ∀ c ∈ pre' ++ post', c ∈ pre ++ post)
    (hin : ∀ c ∈ pre ++ post, c ∈ pre' ++ post' ∨ lo' ≤ c ∧ c + 32 ≤ hi') :
    Edit m m' T pre' lo' hi' post' := by
  refine ⟨fun x hx hc => h.word x (by omega) fun c hm => ?_, fun c hc => h.head c ?_⟩
  · rcases List.mem_append.mp hm with hm | hm
    · rcases hin c hm with h1 | h1
      · exact hc c (List.mem_append_left _ h1)
      · omega
    · exact hc c (List.mem_append_right _ hm)
  · rcases List.mem_append.mp hc with hc | hc
    · exact List.mem_append_left _ (hsub c hc)
    · exact List.mem_append_right _ hc

variable (m') in
/-- Writes inside the gap, and to the back-link behind it, leave it a gap. -/
theorem Gap.write (h : Gap k m T pre lo hi post)
    (hw : ∀ x, x < lo ∨ hi ≤ x → x ≠ hi + 8 → m' x = m x) (hlo : m' (lo + 8) = m (lo + 8)) :
    Gap k m' T pre lo hi post ∧ Edit m m' T pre lo hi post := by
  have hroom := h.room
  have hword : ∀ a ∈ pre ++ post ++ [T.sentinel], a ≠ hi → ∀ i < 32, m' (a + i) = m (a + i) := by
    intro a ha e i hi
    have := h.apart_hi ha e
    exact hw _ (by omega) (by omega)
  have hsize : ∀ a ∈ pre ++ post ++ [T.sentinel], m' a = m a := by
    intro a ha
    by_cases e : a = hi
    · rw [e]; exact hw _ (by omega) (by omega)
    · exact hword a ha e 0 (by omega)
  have hlinks : ∀ a ∈ pre ++ post, m' (a + 16) = m (a + 16) ∧ m' (a + 24) = m (a + 24) := by
    intro a ha
    have := h.outside (List.mem_append_left _ ha)
    by_cases e : a = hi
    · exact ⟨hw _ (by omega) (by omega), hw _ (by omega) (by omega)⟩
    · exact ⟨hword a (List.mem_append_left _ ha) e 16 (by omega),
        hword a (List.mem_append_left _ ha) e 24 (by omega)⟩
  have hspan : ∀ a ∈ pre ++ post ++ [T.sentinel], span m' a = span m a := fun a ha =>
    congrArg blockSize (hsize a ha)
  have hfree : ∀ a ∈ pre ++ post ++ [T.sentinel], isFree m' a = isFree m a := fun a ha =>
    congrArg freeBit (hsize a ha)
  obtain ⟨p, hy⟩ := h.right
  obtain ⟨L, hidx⟩ := h.idx
  refine ⟨⟨h.region, ?_, hroom, h.dvd, ⟨prevPhysical m' hi, ?_⟩, ?_,
    ⟨L, hidx.congr (fun c => ?_) fun c hc => ?_⟩,
    fun hk => ?_, fun hk => ?_⟩, ⟨fun x hx hc => ?_, fun c hc => ⟨hspan c hc, hfree c hc⟩⟩⟩
  · rw [show prevPhysical m' lo = prevPhysical m lo from hlo]
    exact h.left.congr fun a ha => ⟨hspan a (by simp [ha]), hword a (by simp [ha]) (by
      have := h.below ha; omega) 8 (by omega)⟩
  · refine hy.reenter (fun a ha => hspan a (by simp [ha])) fun a ha hne =>
      hword a ?_ hne 8 (by omega)
    simp only [List.mem_append, List.mem_singleton] at ha ⊢
    tauto
  · rw [hspan _ (by simp), hfree _ (by simp)]; exact h.sent
  · refine and_congr_right fun hc => ?_
    rw [hfree c (List.mem_append_left _ hc)]
  · exact ⟨hspan c (List.mem_append_left _ hc.1), hlinks c hc.1⟩
  · exact (h.flagsL hk).congr fun a ha => hsize a (by simp [ha])
  · exact (h.flagsR hk).congr fun a ha => hsize a (by simp [ha])
  · cases post with
    | nil =>
      obtain ⟨e1, -⟩ := hy
      have := hc T.sentinel (by simp)
      exact hw x hx (by omega)
    | cons c post =>
      obtain ⟨e1, -⟩ := hy
      have := hc c (by simp)
      exact hw x hx (by omega)

/-- List insertion after an edit is part of the edit. -/
theorem Edit.links (he : Edit m m' T pre lo hi post)
    (hap : Apart (pre ++ mid ++ post ++ [T.sentinel])) (hmid : ∀ c ∈ mid, lo ≤ c ∧ c + 32 ≤ hi)
    (hw : ∀ x, (∀ c ∈ pre ++ mid ++ post, x ≠ c + 16 ∧ x ≠ c + 24) → m'' x = m' x) :
    Edit m m'' T pre lo hi post := by
  refine ⟨fun x hx hc => (hw x fun c hm => ?_).trans (he.word x hx hc), fun c hc => ?_⟩
  · simp only [List.mem_append] at hm
    rcases hm with (hm | hm) | hm
    · have := hc c (by simp [hm]); omega
    · have := hmid c hm; omega
    · have := hc c (by simp [hm]); omega
  · have hcm : c ∈ pre ++ mid ++ post ++ [T.sentinel] := by
      simp only [List.mem_append] at hc ⊢; tauto
    have e : m'' c = m' c := hw c fun d hd => by
      have := hap c hcm d (List.mem_append_left _ hd); omega
    have := he.head c hc
    exact ⟨(congrArg blockSize e).trans this.1, (congrArg freeBit e).trans this.2⟩

/-- The flags of the block behind the gap, if there is one. -/
theorem Gap.flags_behind (h : Gap k m T pre lo hi post) {pf : Bool}
    (hfree : pf = true → isFree m' hi = false ∨ post = []) (hbit : prevFreeBit (m' hi) = pf) :
    Flags True m' pf (post.take 1) := by
  obtain ⟨p, hy⟩ := h.right
  cases post with
  | nil => trivial
  | cons c post =>
    obtain ⟨rfl, -⟩ := hy
    refine ⟨fun ⟨h1, h2⟩ => ?_, fun _ => hbit, trivial⟩
    rcases hfree h1 with h3 | h3
    · rw [h3] at h2; cases h2
    · cases h3

variable (m') in
/-- One block in use fills the gap. -/
theorem Gap.fillUsed (h : Gap k m T pre lo hi post)
    (hw : ∀ x, x ≠ lo → x ≠ hi → x ≠ hi + 8 → m' x = m x)
    (hhi : span m' hi = span m hi ∧ isFree m' hi = isFree m hi)
    (hsp : span m' lo = hi - lo) (hf : isFree m' lo = false) (hpp : prevPhysical m' hi = lo)
    (hbit : k → prevFreeBit (m' lo) = lastFree m pre) (hnext : k → prevFreeBit (m' hi) = false) :
    Sound k m' T (pre ++ [lo] ++ post) ∧ Edit m m' T pre lo hi post := by
  have hroom := h.room
  have hback : prevPhysical m' lo = prevPhysical m lo := hw _ (by omega) (by omega) (by omega)
  obtain ⟨hwalk, hsent, ⟨L, hidx⟩, hfl, he⟩ := h.close [lo]
    (fun x hx h1 h2 => hw x (by omega) h1 h2) hhi
    ⟨rfl, hback, by unfold minBlock; omega, by rw [hsp]; exact h.dvd, by omega, hpp⟩
    (fun hk => ⟨by simp [hf], fun _ => hbit hk, by
      rw [hf]
      exact h.flags_behind (fun e => by cases e) (hnext hk)⟩)
  refine ⟨⟨h.region, hwalk, hsent, ⟨L, hidx.congr (fun c => ?_) fun _ _ => ⟨rfl, rfl, rfl⟩⟩, hfl⟩,
    he⟩
  simp only [List.mem_append, List.mem_singleton]
  constructor
  · rintro ⟨(h1 | rfl) | h1, h2⟩
    · exact ⟨.inl h1, h2⟩
    · rw [hf] at h2; cases h2
    · exact ⟨.inr h1, h2⟩
  · rintro ⟨h1, h2⟩; exact ⟨by tauto, h2⟩

theorem Gap.headFree_hi (h : Gap k m T pre lo hi post) (hh : headFree m post = false) :
    isFree m hi = false ∨ post = [] := by
  obtain ⟨p, hy⟩ := h.right
  cases post with
  | nil => exact .inr rfl
  | cons c post =>
    obtain ⟨rfl, -⟩ := hy
    exact .inl hh

variable (m') in
/-- One FREE block fills the gap and is inserted. -/
theorem Gap.fillFree (h : Gap k m T pre lo hi post)
    (hw : ∀ x, x < lo ∨ hi ≤ x → x ≠ hi → x ≠ hi + 8 → m' x = m x)
    (hlo : prevPhysical m' lo = prevPhysical m lo)
    (hhi : span m' hi = span m hi ∧ isFree m' hi = isFree m hi)
    (hsp : span m' lo = hi - lo) (hf : isFree m' lo = true) (hpp : prevPhysical m' hi = lo)
    (hbit : k → prevFreeBit (m' lo) = false ∧ lastFree m pre = false)
    (hnext : k → prevFreeBit (m' hi) = true ∧ headFree m post = false) :
    Sound k (tlsfInsertFreeBlock m' T lo).1 (tlsfInsertFreeBlock m' T lo).2 (pre ++ [lo] ++ post) ∧
      Edit m (tlsfInsertFreeBlock m' T lo).1 T pre lo hi post ∧
      SameRegion T (tlsfInsertFreeBlock m' T lo).2 ∧
      isFree (tlsfInsertFreeBlock m' T lo).1 lo = true := by
  have hroom := h.room
  obtain ⟨hwalk, hsent, ⟨L, hidx⟩, hfl, he⟩ := h.close [lo] hw hhi
    ⟨rfl, hlo, by unfold minBlock; omega, by rw [hsp]; exact h.dvd, by omega, hpp⟩
    (fun hk => ⟨by simp [(hbit hk).2], fun _ => (hbit hk).1.trans (hbit hk).2.symm, by
      rw [hf]
      exact h.flags_behind (fun _ => hhi.2 ▸ h.headFree_hi (hnext hk).2) (hnext hk).1⟩)
  have hlm : lo ∉ pre ++ post := fun hc => by
    have := h.outside (List.mem_append_left _ hc); omega
  have hap : Apart (pre ++ [lo] ++ post ++ [T.sentinel]) := Apart.of_pairwise (Walk.sorted hwalk)
  obtain ⟨hs, hr, hwords⟩ := sound_insert (s := lo) h.region hwalk hsent (by simp) hf
    ⟨L, hidx.congr (fun c => by
      simp only [List.mem_append, List.mem_singleton] at hlm ⊢
      constructor
      · rintro ⟨⟨h1, h2⟩, h3⟩; exact ⟨by tauto, h2⟩
      · rintro ⟨h1, h2⟩; exact ⟨⟨by tauto, h2⟩, fun e => hlm (e ▸ h1)⟩) fun _ _ =>
          ⟨rfl, rfl, rfl⟩⟩ hfl
  refine ⟨hs, he.links hap (fun c hc => ?_) hwords, hr, ?_⟩
  · rw [List.mem_singleton.mp hc]; omega
  · refine (congrArg freeBit (hwords lo fun c hc => ?_)).trans hf
    have := hap lo (by simp) c (List.mem_append_left _ hc)
    omega

/-- Two blocks fill the gap: the first in use, the second FREE and inserted. -/
theorem Gap.split (h : Gap k m T pre lo hi post) {total remaining : Nat} (ht : 32 ≤ total)
    (hd : 8 ∣ total) (hr : 32 ≤ remaining) (hsum : lo + total + remaining = hi)
    (hbit : k → prevFreeBit (m lo) = lastFree m pre) (hnext : k → headFree m post = false) :
    Sound k (splitOff m T lo total remaining).1 (splitOff m T lo total remaining).2
        (pre ++ [lo, lo + total] ++ post) ∧
      Edit m (splitOff m T lo total remaining).1 T pre lo hi post ∧
      SameRegion T (splitOff m T lo total remaining).2 ∧
      isFree (splitOff m T lo total remaining).1 lo = false ∧
      isFree (splitOff m T lo total remaining).1 (lo + total) = true ∧
      span (splitOff m T lo total remaining).1 lo = total := by
  have hdv := h.dvd
  have hroom := h.room
  have hdr : 8 ∣ remaining := by omega
  let s := lo + total
  let m₁ := setPrevPhysical (setPrevPhysical (setSize (setSize m lo (total + andPrevFree (m lo))) s
    (orFree remaining)) s lo) hi s
  let m₂ := setSize m₁ hi (orPrevFree (m₁ hi))
  have hm : splitOff m T lo total remaining = tlsfInsertFreeBlock m₂ T s := by
    unfold splitOff
    simp only [m₂, m₁, s, hsum]
  -- the six words written
  have e0 : m₂ lo = total + andPrevFree (m lo) :=
    ((Mem.set_ne _ _ (by omega)).trans (Mem.set_ne _ _ (by omega))).trans
      ((Mem.set_ne _ _ (by omega)).trans ((Mem.set_ne _ _ (by omega)).trans (Mem.set_self ..)))
  have e1 : m₂ s = orFree remaining :=
    ((Mem.set_ne _ _ (by omega)).trans (Mem.set_ne _ _ (by omega))).trans
      ((Mem.set_ne _ _ (by omega)).trans (Mem.set_self ..))
  have e2 : m₂ (s + 8) = lo :=
    ((Mem.set_ne _ _ (by omega)).trans (Mem.set_ne _ _ (by omega))).trans (Mem.set_self ..)
  have e3 : m₂ (hi + 8) = s := (Mem.set_ne _ _ (by omega)).trans (Mem.set_self ..)
  have e4 : m₂ hi = orPrevFree (m hi) := by
    show m₁.set hi (orPrevFree (m₁ hi)) hi = _
    rw [Mem.set_self]
    congr 1
    exact (Mem.set_ne _ _ (by omega)).trans ((Mem.set_ne _ _ (by omega)).trans
      ((Mem.set_ne _ _ (by omega)).trans (Mem.set_ne _ _ (by omega))))
  have e5 : ∀ x, x ≠ lo → x ≠ s → x ≠ s + 8 → x ≠ hi → x ≠ hi + 8 → m₂ x = m x :=
    fun x h1 h2 h3 h4 h5 => (Mem.set_ne _ _ h4).trans ((Mem.set_ne _ _ h5).trans
      ((Mem.set_ne _ _ h3).trans ((Mem.set_ne _ _ h2).trans (Mem.set_ne _ _ h1))))
  have s0 : span m₂ lo = total := by unfold span; rw [e0]; exact blockSize_add_prevFree hd
  have s1 : span m₂ s = remaining := by
    unfold span; rw [e1, blockSize_orFree]; exact blockSize_of_dvd hdr
  have f0 : isFree m₂ lo = false := by unfold isFree; rw [e0]; exact freeBit_add_prevFree hd
  have f1 : isFree m₂ s = true := by unfold isFree; rw [e1]; exact freeBit_orFree
  have p1 : prevFreeBit (m₂ s) = false := by
    rw [e1, prevFreeBit_orFree]; exact prevFreeBit_of_dvd hdr
  have f2 : isFree m₂ hi = isFree m hi := (congrArg freeBit e4).trans freeBit_orPrevFree
  clear_value m₂
  obtain ⟨hwalk, hsent, ⟨L, hidx⟩, hfl, he⟩ := h.close [lo, s]
    (fun x hx h1 h2 => e5 x (by omega) (by omega) (by omega) h1 h2)
    ⟨by unfold span; rw [e4, blockSize_orPrevFree], by unfold isFree; rw [e4, freeBit_orPrevFree]⟩
    ⟨rfl, e5 _ (by omega) (by omega) (by omega) (by omega) (by omega),
      by rw [s0]; unfold minBlock; omega, by rw [s0]; exact hd,
      by rw [s0], e2, by rw [s1]; unfold minBlock; omega, by rw [s1]; exact hdr, by
      rw [s1]; omega, e3⟩
    (fun hk => by
      refine ⟨by simp [f0], fun _ => ?_, ?_, fun _ => p1.trans f0.symm, ?_⟩
      · rw [e0, prevFreeBit_add_prevFree hd]; exact hbit hk
      · simp [f0]
      · rw [f1]
        exact h.flags_behind (fun _ => f2 ▸ h.headFree_hi (hnext hk))
          (by rw [e4]; exact prevFreeBit_orPrevFree))
  have hout : ∀ c ∈ pre ++ post, c ≠ lo ∧ c ≠ s := fun c hc => by
    have := h.outside (List.mem_append_left _ hc); omega
  have hap : Apart (pre ++ [lo, s] ++ post ++ [T.sentinel]) := Apart.of_pairwise (Walk.sorted hwalk)
  obtain ⟨hs, hsr, hwords⟩ := sound_insert (s := s) h.region hwalk hsent (by simp) f1
    ⟨L, hidx.congr (fun c => by
      simp only [List.mem_append, List.mem_cons, List.not_mem_nil, or_false] at hout ⊢
      constructor
      · rintro ⟨⟨(h1 | rfl | h1) | h1, h2⟩, h3⟩
        · exact ⟨.inl h1, h2⟩
        · rw [f0] at h2; cases h2
        · exact absurd h1 h3
        · exact ⟨.inr h1, h2⟩
      · rintro ⟨h1, h2⟩
        exact ⟨⟨by tauto, h2⟩, (hout c h1).2⟩) fun _ _ => ⟨rfl, rfl, rfl⟩⟩ hfl
  have hw0 : ∀ a ∈ [lo, s], (tlsfInsertFreeBlock m₂ T s).1 a = m₂ a := fun a ha =>
    hwords a fun c hc => by
      have := hap a (by simp only [List.mem_append]; tauto) c (List.mem_append_left _ hc); omega
  rw [hm]
  refine ⟨hs, he.links hap (fun c hc => ?_) hwords, hsr, ?_, ?_, ?_⟩
  · simp only [List.mem_cons, List.not_mem_nil, or_false] at hc
    omega
  · exact (congrArg freeBit (hw0 lo (by simp))).trans f0
  · exact (congrArg freeBit (hw0 s (by simp))).trans f1
  · exact (congrArg blockSize (hw0 lo (by simp))).trans s0

/-! ## Allocation -/

/-- **`takeBlock`** on a FREE block that is large enough. -/
theorem take_spec (h : Sound k m T as) (hb : b ∈ as) (hf : isFree m b = true) {total : Nat}
    (ht : 32 ≤ total) (hd : 8 ∣ total) (hle : total ≤ span m b) :
    ∃ as', Outcome k m T as (takeBlock m T b total).1 (takeBlock m T b total).2 as' b ∧
      Used (takeBlock m T b total).1 as' b ∧ total ≤ span (takeBlock m T b total).1 b ∧
      span (takeBlock m T b total).1 b < total + 64 ∧
      (Splits m total b → span (takeBlock m T b total).1 b = total) := by
  obtain ⟨pre, post, rfl⟩ := List.append_of_mem hb
  obtain ⟨hg, he, hr, hw, hback⟩ := h.openFree hf
  have hlt := h.span_lt hb
  have hbd := h.bounds hb
  have hspan : span (tlsfRemoveFreeBlock m T b).1 b = span m b := congrArg blockSize hw
  have hsub : sizeSub (span m b) total = span m b - total :=
    sizeSub_of_le hle (by unfold sizeMod; omega)
  have hsent := hr.sentinel
  have hsame : ∀ {T' : TPool}, SameRegion (tlsfRemoveFreeBlock m T b).2 T' → SameRegion T T' :=
    fun h => hr.trans h
  have hfl : k →
      prevFreeBit ((tlsfRemoveFreeBlock m T b).1 b) = lastFree (tlsfRemoveFreeBlock m T b).1 pre ∧
      headFree (tlsfRemoveFreeBlock m T b).1 post = false := by
    intro hk
    obtain ⟨-, h2, h3⟩ := (h.flags hk).append.2
    rw [hw, h2 trivial, lastFree_of_isFree fun a ha => (he.head a (by simp [ha])).2,
      headFree_of_isFree fun a ha => (he.head a (by simp [ha])).2]
    rw [hf] at h3
    exact ⟨rfl, h3.head_not⟩
  unfold takeBlock
  generalize tlsfRemoveFreeBlock m T b = r at *
  obtain ⟨m₁, T₁⟩ := r
  simp only at hg he hr hw hback hspan hsent ⊢
  rw [hspan, hsub]
  have hedit : ∀ {m'}, Edit m₁ m' T₁ pre b (b + span m b) post →
    Edit m m' T pre b (b + span m b) post := by
    intro m' h'
    have : Edit m₁ m' T pre b (b + span m b) post := by
      refine ⟨fun x hx hc => h'.word x hx ?_, fun c hc => h'.head c ?_⟩ <;> rw [hsent]
      · exact hc
      · exact hc
    exact he.trans this
  have hasm : ∀ {m' T' mid'}, Sound k m' T' (pre ++ mid' ++ post) → SameRegion T₁ T' →
      Edit m₁ m' T₁ pre b (b + span m b) post → (∀ c ∈ mid', c ≠ b → isFree m' c = true) →
      Outcome k m T (pre ++ b :: post) m' T' (pre ++ mid' ++ post) b := by
    intro m' T' mid' h1 h2 h3 h4
    have hgside := hg.side
    have hle := hg.hi_le
    rw [hsent] at hle
    have hraw := hg.raw_le
    rw [hr.1] at hraw
    refine Outcome.of_edit h h1 (hsame h2) (hedit h3) (fun c hc => ?_) (fun c hc => ?_) h4 hraw hle
      fun c hc => ?_
    · simp only [List.mem_append, List.mem_cons] at hc ⊢; tauto
    · simp only [List.mem_append, List.mem_cons] at hc ⊢
      rcases hc with hc | rfl | hc
      · exact .inl (.inl hc)
      · exact .inr ⟨by omega, by omega, fun e => absurd rfl e⟩
      · exact .inl (.inr hc)
    · rw [← (he.head c (List.mem_append_left _ hc)).1]; exact hgside c hc
  by_cases hrem : minBlock + blockHdr ≤ span m b - total
  · rw [if_pos hrem]
    unfold minBlock blockHdr at hrem
    obtain ⟨s1, s2, s3, s4, s5, s6⟩ := hg.split ht hd (by omega)
      (show b + total + (span m b - total) = b + span m b by omega)
      (fun hk => (hfl hk).1) (fun hk => (hfl hk).2)
    refine ⟨pre ++ [b, b + total] ++ post, hasm s1 s3 s2 fun c hc hne => ?_, ⟨by simp, s4⟩,
      by omega, by omega,
      fun _ => s6⟩
    simp only [List.mem_cons, List.not_mem_nil, or_false] at hc
    rw [hc.resolve_left hne]; exact s5
  · rw [if_neg hrem]
    unfold minBlock blockHdr at hrem
    let m₂ := setSize m₁ b (clearFree (m₁ b))
    have e0 : m₂ (b + span m b) = m₁ (b + span m b) := Mem.set_ne _ _ (by omega)
    let m₃ := setSize m₂ (b + span m b) (clearPrevFree (m₂ (b + span m b)))
    have e1 : m₃ b = clearFree (m₁ b) := (Mem.set_ne _ _ (by omega)).trans (Mem.set_self ..)
    have e2 : m₃ (b + span m b) = clearPrevFree (m₁ (b + span m b)) :=
      (Mem.set_self ..).trans (congrArg clearPrevFree e0)
    have e3 : ∀ x, x ≠ b → x ≠ b + span m b → m₃ x = m₁ x := fun x h1 h2 =>
      (Mem.set_ne _ _ h2).trans (Mem.set_ne _ _ h1)
    show ∃ as', Outcome k m T (pre ++ b :: post) m₃ T₁ as' b ∧ Used m₃ as' b ∧ total ≤ span m₃ b ∧
      span m₃ b < total + 64 ∧ (Splits m total b → span m₃ b = total)
    clear_value m₃
    have s0 : span m₃ b = span m b :=
      ((congrArg blockSize e1).trans blockSize_clearFree).trans hspan
    have f0 : isFree m₃ b = false := (congrArg freeBit e1).trans freeBit_clearFree
    obtain ⟨s1, s2⟩ := hg.fillUsed m₃ (fun x h1 h2 _ => e3 x h1 h2)
      ⟨(congrArg blockSize e2).trans blockSize_clearPrevFree,
        (congrArg freeBit e2).trans freeBit_clearPrevFree⟩
      (by omega) f0 ((e3 _ (by omega) (by omega)).trans hback)
      (fun hk => by rw [e1, prevFreeBit_clearFree]; exact (hfl hk).1)
      (fun _ => by rw [e2, prevFreeBit_clearPrevFree])
    refine ⟨pre ++ [b] ++ post, hasm s1 ⟨rfl, rfl, rfl⟩ s2 fun c hc hne => ?_, ⟨by simp, f0⟩,
      by omega, by omega,
      fun hc => ?_⟩
    · exact absurd (List.mem_singleton.mp hc) hne
    · unfold Splits minBlock blockHdr at hc
      omega

/-! ## Release -/

/-- The released block `b`, FREE and not indexed, fills the gap. -/
structure Loose (k : Prop) (m : Mem) (T : TPool) (pre : List Nat) (b size : Nat) (post : List Nat) :
    Prop where
  gap : Gap k m T pre b (b + size) post
  free : isFree m b = true
  span : span m b = size
  back : prevPhysical m (b + size) = b
  bit : k → prevFreeBit (m b) = lastFree m pre

theorem mergeNext_spec {size : Nat} (h : Loose k m T pre b size post) :
    ∃ post', Loose k (mergeNext m T b).1 (mergeNext m T b).2.1 pre b (mergeNext m T b).2.2 post' ∧
      Edit m (mergeNext m T b).1 T pre b (b + (mergeNext m T b).2.2) post' ∧
      SameRegion T (mergeNext m T b).2.1 ∧ size ≤ (mergeNext m T b).2.2 ∧
      (k → headFree (mergeNext m T b).1 post' = false) ∧
      (∀ c ∈ post', c ∈ post) ∧
      ∀ c ∈ post, c ∈ post' ∨ c = b + size ∧ isFree m c = true ∧
        b + size + Cmem.span m c = b + (mergeNext m T b).2.2 := by
  have hg := h.gap
  have hroom := hg.room
  unfold mergeNext
  simp only [h.span]
  by_cases hf : isFree m (b + size) = true
  · rw [if_pos hf]
    obtain ⟨n, post, rfl⟩ : ∃ n l, post = n :: l := by
      obtain ⟨p, hy⟩ := hg.right
      cases post with
      | nil => rw [hy.1, hg.sent.2] at hf; cases hf
      | cons n l => exact ⟨n, l, rfl⟩
    obtain ⟨p, e, -, h3, h4, -⟩ := hg.right
    subst e
    unfold minBlock at h3
    obtain ⟨t1, t2, t3, -, t5⟩ := hg.takeNext hf
    have hnot : k → headFree m post = false := fun hk => by
      have hfl : Flags True m (isFree m (b + size)) post := hg.flagsR hk
      rw [hf] at hfl
      exact hfl.head_not
    generalize tlsfRemoveFreeBlock m T (b + size) = r at *
    obtain ⟨m₁, T₁⟩ := r
    simp only at t1 t2 t3 t5 ⊢
    generalize hsz : size + Cmem.span m (b + size) = tot
    have hdv := t1.dvd
    have hhi : b + size + Cmem.span m (b + size) = b + tot := by omega
    rw [hhi] at t1 t2 hdv
    let m₂ := setPrevPhysical (setSize m₁ b (orFree (tot + andPrevFree (m₁ b)))) (b + tot) b
    have e1 : m₂ b = orFree (tot + andPrevFree (m₁ b)) :=
      (Mem.set_ne _ _ (by omega)).trans (Mem.set_self ..)
    have e2 : ∀ x, x ≠ b → x ≠ b + tot + 8 → m₂ x = m₁ x := fun x h1 h2 =>
      (Mem.set_ne _ _ h2).trans (Mem.set_ne _ _ h1)
    have e3 : prevPhysical m₂ (b + tot) = b := Mem.set_self ..
    have hb1 : m₁ b = m b := t5 b (by omega) (by omega)
    obtain ⟨g2, ed⟩ := t1.write m₂ (fun x h1 h2 => e2 x (by omega) h2) (e2 _ (by omega) (by omega))
    show ∃ post', Loose k m₂ T₁ pre b tot post' ∧ Edit m m₂ T pre b (b + tot) post' ∧
      SameRegion T T₁ ∧ size ≤ tot ∧ (k → headFree m₂ post' = false) ∧
      (∀ c ∈ post', c ∈ (b + size) :: post) ∧ ∀ c ∈ (b + size) :: post, c ∈ post' ∨
      c = b + size ∧ isFree m c = true ∧
        b + size + Cmem.span m c = b + tot
    clear_value m₂
    have hd8 : 8 ∣ tot := by omega
    have edall := t2.trans (ed.of_same t3)
    refine ⟨post, ⟨g2, ?_, ?_, e3, fun hk => ?_⟩, edall, t3, by omega, fun hk => ?_,
      fun c hc => by simp [hc], fun c hc => ?_⟩
    · exact (congrArg freeBit e1).trans freeBit_orFree
    · exact (congrArg blockSize e1).trans (blockSize_orFree.trans (blockSize_add_prevFree hd8))
    · rw [e1, prevFreeBit_orFree, prevFreeBit_add_prevFree hd8, hb1, h.bit hk]
      exact (lastFree_of_isFree fun a ha => (edall.head a (by simp [ha])).2).symm
    · rw [headFree_of_isFree fun a ha => (edall.head a (by simp [ha])).2]
      exact hnot hk
    · rcases List.mem_cons.mp hc with rfl | hc
      · exact .inr ⟨rfl, hf, hhi⟩
      · exact .inl hc
  · rw [if_neg hf]
    have hf' : isFree m (b + size) = false := by simpa using hf
    refine ⟨post, h, Edit.refl, ⟨rfl, rfl, rfl⟩, Nat.le_refl _, fun hk => ?_, fun c hc => hc,
      fun c hc => .inl hc⟩
    obtain ⟨p, hy⟩ := hg.right
    cases post with
    | nil => rfl
    | cons n l => obtain ⟨rfl, -⟩ := hy; exact hf'

theorem mergePrev_spec {size : Nat} (h : Loose k m T pre b size post) :
    ∃ pre', Loose k (mergePrev m T b size).1 (mergePrev m T b size).2.1 pre'
        (mergePrev m T b size).2.2.1 (mergePrev m T b size).2.2.2 post ∧
      Edit m (mergePrev m T b size).1 T pre' (mergePrev m T b size).2.2.1 (b + size) post ∧
      SameRegion T (mergePrev m T b size).2.1 ∧
      (mergePrev m T b size).2.2.1 + (mergePrev m T b size).2.2.2 = b + size ∧
      (mergePrev m T b size).2.2.1 ≤ b ∧ (k → lastFree (mergePrev m T b size).1 pre' = false) ∧
      (∀ c ∈ pre', c ∈ pre) ∧
      ∀ c ∈ pre, c ∈ pre' ∨ c = (mergePrev m T b size).2.2.1 ∧ isFree m c = true ∧
        c + Cmem.span m c = b := by
  have hg := h.gap
  have hroom := hg.room
  -- the recorded predecessor is the last block before the gap
  have hlast : prevPhysical m b = 0 ∧ pre = [] ∨
      ∃ l p, pre = l ++ [p] ∧ prevPhysical m b = p := by
    rcases List.eq_nil_or_concat pre with rfl | ⟨l, p, rfl⟩
    · exact .inl ⟨hg.left.2, rfl⟩
    · refine .inr ⟨l, p, List.concat_eq_append, ?_⟩
      have hl := hg.left
      rw [List.concat_eq_append] at hl
      obtain ⟨mid, t, -, rfl, -, -, -, -, hp⟩ := Stretch.append_iff.mp hl
      exact hp
  unfold mergePrev
  by_cases hc : prevFreeBit (m b) = true ∧ prevPhysical m b ≠ 0 ∧ isFree m (prevPhysical m b) = true
  · simp only [hc, ne_eq, not_false_eq_true, and_self, if_true]
    obtain ⟨-, hp0, hpf⟩ := hc
    obtain ⟨e, -⟩ | ⟨pre, p, rfl, hp⟩ := hlast
    · exact absurd e hp0
    rw [hp] at hpf ⊢
    obtain ⟨t1, t2, t3, hpb, t5⟩ := hg.takePrev hpf
    have hbp := hg.left.mem_bounds (a := p) (by simp)
    unfold minBlock at hbp
    have hnot : k → lastFree m pre = false ∧ prevFreeBit (m p) = false := fun hk => by
      obtain ⟨h1, h2, -⟩ := (hg.flagsL hk).append.2
      have h3 : lastFree m pre = false := by
        cases e : lastFree m pre with
        | false => rfl
        | true => rw [e, hpf] at h1; exact absurd ⟨rfl, rfl⟩ h1
      exact ⟨h3, (h2 trivial).trans h3⟩
    have hwp : (tlsfRemoveFreeBlock m T p).1 p = m p := by
      refine (hg.remove_words (b := p) (by simp) hpf).1 p (by simp) |>.1
    generalize tlsfRemoveFreeBlock m T p = r at *
    obtain ⟨m₁, T₁⟩ := r
    simp only at t1 t2 t3 t5 hwp ⊢
    generalize hsz : Cmem.span m p + size = tot
    have hhi : p + tot = b + size := by omega
    have hhi' : p + Cmem.span m p + size = b + size := by omega
    rw [hhi']
    have hdv := t1.dvd
    have hd8 : 8 ∣ tot := by omega
    let m₂ := setPrevPhysical (setSize m₁ p (orFree (tot + andPrevFree (m₁ p)))) (b + size) p
    have e1 : m₂ p = orFree (tot + andPrevFree (m₁ p)) :=
      (Mem.set_ne _ _ (by omega)).trans (Mem.set_self ..)
    have e2 : ∀ x, x ≠ p → x ≠ b + size + 8 → m₂ x = m₁ x := fun x h1 h2 =>
      (Mem.set_ne _ _ h2).trans (Mem.set_ne _ _ h1)
    have e3 : prevPhysical m₂ (b + size) = p := Mem.set_self ..
    obtain ⟨g2, ed⟩ := t1.write m₂ (fun x h1 h2 => e2 x (by omega) h2) (e2 _ (by omega) (by omega))
    show ∃ pre', Loose k m₂ T₁ pre' p tot post ∧ Edit m m₂ T pre' p (b + size) post ∧
      SameRegion T T₁ ∧ p + tot = b + size ∧ p ≤ b ∧ (k → lastFree m₂ pre' = false) ∧
      (∀ c ∈ pre', c ∈ pre ++ [p]) ∧ ∀ c ∈ pre ++ [p], c ∈ pre' ∨
      c = p ∧ isFree m c = true ∧ c + Cmem.span m c = b
    clear_value m₂
    have edall := t2.trans (ed.of_same t3)
    have hlf : lastFree m₂ pre = lastFree m pre :=
      lastFree_of_isFree fun a ha => (edall.head a (by simp [ha])).2
    refine ⟨pre, ⟨hhi ▸ g2, ?_, ?_, hhi ▸ e3, fun hk => ?_⟩, edall, t3, hhi, by omega,
      fun hk => hlf.trans (hnot hk).1, fun c hc => by simp [hc], fun c hc => ?_⟩
    · exact (congrArg freeBit e1).trans freeBit_orFree
    · exact (congrArg blockSize e1).trans (blockSize_orFree.trans (blockSize_add_prevFree hd8))
    · rw [e1, prevFreeBit_orFree, prevFreeBit_add_prevFree hd8, hwp, (hnot hk).2, hlf, (hnot hk).1]
    · rcases List.mem_append.mp hc with hc | hc
      · exact .inl hc
      · rw [List.mem_singleton.mp hc]; exact .inr ⟨rfl, hpf, hpb⟩
  · rw [if_neg hc]
    refine ⟨pre, h, Edit.refl, ⟨rfl, rfl, rfl⟩, rfl, Nat.le_refl _, fun hk => ?_, fun c hc => hc,
      fun c hc => .inl hc⟩
    -- a FREE predecessor would have been merged
    show lastFree m pre = false
    cases e : lastFree m pre with
    | false => rfl
    | true =>
      exfalso
      obtain ⟨-, rfl⟩ | ⟨l, p, rfl, hp⟩ := hlast
      · cases e
      · have hpf : isFree m p = true := by simpa [lastFree] using e
        have hpm := (hg.below (a := p) (by simp)).1
        have hpos := hg.region.pos
        exact hc ⟨(h.bit hk).trans e, by omega, by rw [hp]; exact hpf⟩

/-- The block to be released is marked FREE. -/
theorem Sound.loosen (h : Sound k m T (pre ++ b :: post)) (hbf : isFree m b = false) :
    Loose k (setSize m b (orFree (m b))) T pre b (span m b) post ∧
      Edit m (setSize m b (orFree (m b))) T pre b (b + span m b) post := by
  have hg := h.openUsed hbf
  have hroom := hg.room
  let m₀ := setSize m b (orFree (m b))
  have e0 : m₀ b = orFree (m b) := Mem.set_self ..
  have e1 : ∀ x, x ≠ b → m₀ x = m x := fun x hx => Mem.set_ne _ _ hx
  obtain ⟨g0, ed0⟩ := hg.write m₀ (fun x h1 _ => e1 x (by omega)) (e1 _ (by omega))
  have hback : prevPhysical m (b + span m b) = b := by
    obtain ⟨mid, t, -, rfl, -, -, -, hy⟩ := Walk.append_iff.mp h.walk
    exact hy.entry
  refine ⟨⟨g0, (congrArg freeBit e0).trans freeBit_orFree,
    (congrArg blockSize e0).trans blockSize_orFree, (e1 _ (by omega)).trans hback, fun hk => ?_⟩,
    ed0⟩
  show prevFreeBit (m₀ b) = lastFree m₀ pre
  rw [e0, prevFreeBit_orFree, lastFree_of_isFree fun a ha => (ed0.head a (by simp [ha])).2]
  exact (h.flags hk).append.2.2.1 trivial

/-- What the two merges leave: the loose block covers the released one, and the blocks that
are gone lay in it and were FREE. -/
structure Merged (k : Prop) (m : Mem) (T : TPool) (pre : List Nat) (b size : Nat) (post : List Nat)
    (m' : Mem) (T' : TPool) (b' size' : Nat) (pre' post' : List Nat) : Prop where
  loose : Loose k m' T' pre' b' size' post'
  edit : Edit m m' T pre' b' (b' + size') post'
  same : SameRegion T T'
  le : b' ≤ b
  top : b + size ≤ b' + size'
  last : k → lastFree m' pre' = false
  head : k → headFree m' post' = false
  sub : ∀ c ∈ pre' ++ post', c ∈ pre ++ post
  gone : ∀ c ∈ pre ++ post, c ∈ pre' ++ post' ∨
    b' ≤ c ∧ c + Cmem.span m c ≤ b' + size' ∧ isFree m c = true

theorem merge_spec {size : Nat} (h : Loose k m T pre b size post)
    (hsz : ∀ c ∈ pre ++ post, 32 ≤ span m c) :
    let q := mergeNext m T b
    let p := mergePrev q.1 q.2.1 b q.2.2
    ∃ pre' post', Merged k m T pre b size post p.1 p.2.1 p.2.2.1 p.2.2.2 pre' post' := by
  obtain ⟨post', l1, ed1, r1, hle1, hh1, hsub1, hin1⟩ := mergeNext_spec h
  simp only
  generalize mergeNext m T b = q at *
  obtain ⟨m₁, T₁, size₁⟩ := q
  simp only at l1 ed1 r1 hle1 hh1 hin1 ⊢
  obtain ⟨pre', l2, ed2, r2, hend, hle2, hl2, hsub2, hin2⟩ := mergePrev_spec l1
  generalize mergePrev m₁ T₁ b size₁ = p at *
  obtain ⟨m₂, T₂, b₂, size₂⟩ := p
  simp only at l2 ed2 r2 hend hle2 hl2 hin2 ⊢
  have hsub : ∀ c ∈ pre' ++ post', c ∈ pre ++ post := fun c hc =>
    (List.mem_append.mp hc).elim (fun hc => List.mem_append_left _ (hsub2 c hc))
      fun hc => List.mem_append_right _ (hsub1 c hc)
  have hsub' : ∀ c ∈ pre' ++ post', c ∈ pre ++ post' := fun c hc =>
    (List.mem_append.mp hc).elim (fun hc => List.mem_append_left _ (hsub2 c hc))
      fun hc => List.mem_append_right _ hc
  have hback : ∀ c ∈ pre ++ post', c ∈ pre ++ post := fun c hc =>
    (List.mem_append.mp hc).elim (fun hc => List.mem_append_left _ hc)
      fun hc => List.mem_append_right _ (hsub1 c hc)
  have hgone : ∀ c ∈ pre ++ post, c ∈ pre' ++ post' ∨
      b₂ ≤ c ∧ c + Cmem.span m c ≤ b₂ + size₂ ∧ isFree m c = true := by
    intro c hc
    rcases List.mem_append.mp hc with hp | hp
    · have h1 := ed1.head c (by simp [hp])
      rcases hin2 c hp with h2 | ⟨h2, h3, h4⟩
      · exact .inl (List.mem_append_left _ h2)
      · exact .inr ⟨by omega, by omega, by rw [← h1.2]; exact h3⟩
    · rcases hin1 c hp with h2 | ⟨h2, h3, h4⟩
      · exact .inl (List.mem_append_right _ h2)
      · exact .inr ⟨by omega, by omega, h3⟩
  refine ⟨pre', post', l2, (ed1.widen hle2 (by omega) hsub' fun c hc => ?_).trans
    ((hend ▸ ed2).of_same r1), r1.trans r2, hle2, by omega, hl2, fun hk => ?_, hsub, hgone⟩
  · refine (hgone c (hback c hc)).imp id fun h1 => ⟨h1.1, ?_⟩
    have := hsz c (hback c hc)
    omega
  · exact (headFree_of_isFree fun a ha => (ed2.head a (by simp [ha])).2).trans (hh1 hk)

/-- The loose block is recorded in the header behind it and inserted. -/
theorem Loose.insert {size : Nat} (h : Loose k m T pre b size post)
    (hl : k → lastFree m pre = false) (hh : k → headFree m post = false) :
    let q := tlsfInsertFreeBlock (setSize m (b + size) (orPrevFree (m (b + size)))) T b
    Sound k q.1 q.2 (pre ++ [b] ++ post) ∧ Edit m q.1 T pre b (b + size) post ∧
      SameRegion T q.2 ∧ isFree q.1 b = true := by
  have hroom := h.gap.room
  let m₁ := setSize m (b + size) (orPrevFree (m (b + size)))
  have e2 : m₁ (b + size) = orPrevFree (m (b + size)) := Mem.set_self ..
  have e3 : ∀ x, x ≠ b + size → m₁ x = m x := fun x hx => Mem.set_ne _ _ hx
  have hw : m₁ b = m b := e3 _ (by omega)
  exact h.gap.fillFree m₁ (fun x _ h1 _ => e3 x h1) (e3 _ (by omega))
    ⟨(congrArg blockSize e2).trans blockSize_orPrevFree,
      (congrArg freeBit e2).trans freeBit_orPrevFree⟩
    (by rw [show Cmem.span m₁ b = Cmem.span m b from congrArg blockSize hw, h.span]; omega)
    ((congrArg freeBit hw).trans h.free) ((e3 _ (by omega)).trans h.back)
    (fun hk => ⟨by rw [hw, h.bit hk]; exact hl hk, hl hk⟩)
    fun hk => ⟨by rw [e2, prevFreeBit_orPrevFree], hh hk⟩

/-- **`tlsf_free`** of a block in use. -/
theorem free_spec (h : Sound k m T as) (hu : Used m as b) :
    ∃ as', Outcome k m T as (tlsfFree m T b).1 (tlsfFree m T b).2 as' b ∧
      ¬ Used (tlsfFree m T b).1 as' b := by
  obtain ⟨hb, hbf⟩ := hu
  obtain ⟨pre, post, rfl⟩ := List.append_of_mem hb
  have hg := h.openUsed hbf
  obtain ⟨l0, ed0⟩ := h.loosen hbf
  have hkeep : ∀ c ∈ pre ++ post, span (setSize m b (orFree (m b))) c = span m c ∧
      isFree (setSize m b (orFree (m b))) c = isFree m c := fun c hc =>
    ed0.head c (List.mem_append_left _ hc)
  have hin : ∀ c ∈ pre ++ post, c ∈ pre ++ b :: post := fun c hc => by
    simp only [List.mem_append, List.mem_cons] at hc ⊢
    tauto
  have hsz : ∀ c ∈ pre ++ post, 32 ≤ span m c := fun c hc => (h.bounds (hin c hc)).2.2.1
  obtain ⟨pre', post', hm⟩ := merge_spec l0 fun c hc => (hkeep c hc).1 ▸ hsz c hc
  have heq : tlsfFree m T b = (let q := mergeNext (setSize m b (orFree (m b))) T b
      let p := mergePrev q.1 q.2.1 b q.2.2
      tlsfInsertFreeBlock
        (setSize p.1 (p.2.2.1 + p.2.2.2) (orPrevFree (p.1 (p.2.2.1 + p.2.2.2)))) p.2.1
        p.2.2.1) := rfl
  rw [heq]
  simp only at hm ⊢
  generalize mergeNext (setSize m b (orFree (m b))) T b = q at *
  generalize mergePrev q.1 q.2.1 b q.2.2 = p at *
  obtain ⟨m₂, T₂, b₂, size₂⟩ := p
  simp only at hm ⊢
  have hroom := hg.room
  have hle := hm.le
  have htop := hm.top
  -- the blocks that are gone lay in the final gap
  have hgone : ∀ c ∈ pre ++ post, c ∈ pre' ++ post' ∨
      b₂ ≤ c ∧ c + span m c ≤ b₂ + size₂ ∧ isFree m c = true := fun c hc => by
    rw [← (hkeep c hc).1, ← (hkeep c hc).2]
    exact hm.gone c hc
  have hmem : ∀ c ∈ pre ++ b :: post, c ∈ pre' ++ post' ∨
      b₂ ≤ c ∧ c + span m c ≤ b₂ + size₂ ∧ (c ≠ b → isFree m c = true) := by
    intro c hc
    by_cases e : c = b
    · subst e
      exact .inr ⟨hle, htop, fun hne => absurd rfl hne⟩
    · have hc' : c ∈ pre ++ post := by
        simp only [List.mem_append, List.mem_cons] at hc ⊢
        tauto
      exact (hgone c hc').imp id fun h1 => ⟨h1.1, h1.2.1, fun _ => h1.2.2⟩
  obtain ⟨s1, s2, s3, s4⟩ := hm.loose.insert hm.last hm.head
  generalize tlsfInsertFreeBlock
    (setSize m₂ (b₂ + size₂) (orPrevFree (m₂ (b₂ + size₂)))) T₂ b₂ = r at *
  have hed : Edit m r.1 T pre' b₂ (b₂ + size₂) post' := by
    refine (ed0.widen hle htop hm.sub fun c hc => ?_).trans (hm.edit.trans (s2.of_same hm.same))
    have := hsz c hc
    exact (hgone c hc).imp id fun h1 => ⟨h1.1, by omega⟩
  have hhi := hm.loose.gap.hi_le
  rw [hm.same.sentinel] at hhi
  have hraw := hm.loose.gap.raw_le
  rw [hm.same.1] at hraw
  refine ⟨pre' ++ [b₂] ++ post', Outcome.of_edit h s1 (hm.same.trans s3) hed
    (fun c hc => hin c (hm.sub c hc)) hmem (fun c hc _ => ?_) hraw hhi fun c hc => ?_, ?_⟩
  · rw [List.mem_singleton.mp hc]
    exact s4
  · rw [← (hkeep c (hm.sub c hc)).1, ← (hm.edit.head c (List.mem_append_left _ hc)).1]
    exact hm.loose.gap.side c hc
  · -- `b` is gone, or is the FREE block
    rintro ⟨h1, h2⟩
    simp only [List.mem_append, List.mem_singleton] at h1
    have hnp : b ∉ pre ++ post := fun hm => by
      have := hg.outside (List.mem_append_left _ hm)
      omega
    rcases h1 with (h1 | h1) | h1
    · exact hnp (hm.sub b (List.mem_append_left _ h1))
    · rw [h1, s4] at h2
      cases h2
    · exact hnp (hm.sub b (List.mem_append_right _ h1))

/-! ## In-place growth -/

/-- **`tlsf_try_inplace_expand`**, the structural part. -/
theorem expand_spec (h : Sound k m T as) (hu : Used m as b) {total : Nat} (ht : 32 ≤ total)
    (hd : 8 ∣ total) {r : Mem × TPool} (hr : expandBlock m T b total = some r) :
    ∃ as', Outcome k m T as r.1 r.2 as' b ∧ Used r.1 as' b ∧ total ≤ span r.1 b ∧
      span r.1 b < total + 64 := by
  obtain ⟨hb, hbf⟩ := hu
  obtain ⟨pre, post, rfl⟩ := List.append_of_mem hb
  have hg := h.openUsed hbf
  have hroom := hg.room
  unfold expandBlock at hr
  by_cases hf : isFree m (b + span m b) = true
  · obtain ⟨n, post, rfl⟩ : ∃ n l, post = n :: l := by
      obtain ⟨p, hy⟩ := hg.right
      cases post with
      | nil => rw [hy.1, hg.sent.2] at hf; cases hf
      | cons n l => exact ⟨n, l, rfl⟩
    obtain ⟨p, e, -, h3, h4, -⟩ := hg.right
    subst e
    unfold minBlock at h3
    by_cases hfit : span m b + span m (b + span m b) < total
    · simp [hf, hfit] at hr
    obtain ⟨t1, t2, t3, -, t5⟩ := hg.takeNext hf
    have hfl : k → prevFreeBit (m b) = lastFree m pre ∧ headFree m post = false := fun hk => by
      obtain ⟨-, h2, h3⟩ := (h.flags hk).append.2
      have h4 : Flags True m (isFree m (b + span m b)) post := h3.2.2
      rw [hf] at h4
      exact ⟨h2 trivial, h4.head_not⟩
    simp only [hf, Bool.not_true, Bool.false_eq_true, if_false, hfit] at hr
    have hside := t1.side
    have hle := t1.hi_le
    rw [t3.sentinel] at hle
    have hraw := t1.raw_le
    rw [t3.1] at hraw
    generalize tlsfRemoveFreeBlock m T (b + span m b) = q at *
    obtain ⟨m₁, T₁⟩ := q
    simp only at t1 t2 t3 t5 hside hr
    generalize hsz : span m b + span m (b + span m b) = tot at *
    have hhi : b + span m b + span m (b + span m b) = b + tot := by omega
    rw [hhi] at t1 t2 hside hle
    have hb1 : m₁ b = m b := t5 b (by omega) (by omega)
    have hdv := t1.dvd
    have hd8 : 8 ∣ tot := by omega
    have hbit : k → prevFreeBit (m₁ b) = lastFree m₁ pre := fun hk => by
      rw [hb1, lastFree_of_isFree fun a ha => (t2.head a (by simp [ha])).2]
      exact (hfl hk).1
    have hnext : k → headFree m₁ post = false := fun hk => by
      rw [headFree_of_isFree fun a ha => (t2.head a (by simp [ha])).2]
      exact (hfl hk).2
    have hasm : ∀ {m' T' mid'}, Sound k m' T' (pre ++ mid' ++ post) → SameRegion T₁ T' →
        Edit m₁ m' T₁ pre b (b + tot) post → (∀ c ∈ mid', c ≠ b → isFree m' c = true) →
        Outcome k m T (pre ++ b :: (b + span m b) :: post) m' T' (pre ++ mid' ++ post) b := by
      intro m' T' mid' h1 h2 h3 h4
      refine Outcome.of_edit h h1 (t3.trans h2) (t2.trans (h3.of_same t3)) (fun c hc => ?_)
        (fun c hc => ?_) h4 hraw hle fun c hc => ?_
      · simp only [List.mem_append, List.mem_cons] at hc ⊢; tauto
      · simp only [List.mem_append, List.mem_cons] at hc ⊢
        rcases hc with hc | rfl | rfl | hc
        · exact .inl (.inl hc)
        · exact .inr ⟨by omega, by omega, fun e => absurd rfl e⟩
        · exact .inr ⟨by omega, by omega, fun _ => hf⟩
        · exact .inl (.inr hc)
      · rw [← (t2.head c (List.mem_append_left _ hc)).1]; exact hside c hc
    by_cases hrem : minBlock + blockHdr ≤ tot - total
    · rw [if_pos hrem] at hr
      cases hr
      unfold minBlock blockHdr at hrem
      obtain ⟨s1, s2, s3, s4, s5, s6⟩ := t1.split ht hd (by omega)
        (show b + total + (tot - total) = b + tot by omega) hbit hnext
      refine ⟨pre ++ [b, b + total] ++ post, hasm s1 s3 s2 fun c hc hne => ?_, ⟨by simp, s4⟩,
        by omega, by omega⟩
      simp only [List.mem_cons, List.not_mem_nil, or_false] at hc
      rw [hc.resolve_left hne]; exact s5
    · rw [if_neg hrem] at hr
      cases hr
      unfold minBlock blockHdr at hrem
      let m₂ := setPrevPhysical (setSize m₁ b (tot + andPrevFree (m₁ b))) (b + tot) b
      let m₃ := setSize m₂ (b + tot) (clearPrevFree (m₂ (b + tot)))
      have e0 : m₂ (b + tot) = m₁ (b + tot) :=
        (Mem.set_ne _ _ (by omega)).trans (Mem.set_ne _ _ (by omega))
      have e1 : m₃ b = tot + andPrevFree (m₁ b) :=
        (Mem.set_ne _ _ (by omega)).trans ((Mem.set_ne _ _ (by omega)).trans (Mem.set_self ..))
      have e2 : m₃ (b + tot) = clearPrevFree (m₁ (b + tot)) :=
        (Mem.set_self ..).trans (congrArg clearPrevFree e0)
      have e3 : ∀ x, x ≠ b → x ≠ b + tot → x ≠ b + tot + 8 → m₃ x = m₁ x := fun x h1 h2 h3 =>
        (Mem.set_ne _ _ h2).trans ((Mem.set_ne _ _ h3).trans (Mem.set_ne _ _ h1))
      have e4 : prevPhysical m₃ (b + tot) = b := (Mem.set_ne _ _ (by omega)).trans (Mem.set_self ..)
      show ∃ as', Outcome k m T _ m₃ T₁ as' b ∧ Used m₃ as' b ∧ total ≤ span m₃ b ∧
        span m₃ b < total + 64
      clear_value m₃
      have s0 : span m₃ b = tot := (congrArg blockSize e1).trans (blockSize_add_prevFree hd8)
      have f0 : isFree m₃ b = false := (congrArg freeBit e1).trans (freeBit_add_prevFree hd8)
      obtain ⟨s1, s2⟩ := t1.fillUsed m₃ e3
        ⟨(congrArg blockSize e2).trans blockSize_clearPrevFree,
          (congrArg freeBit e2).trans freeBit_clearPrevFree⟩ (by omega) f0 e4
        (fun hk => by rw [e1, prevFreeBit_add_prevFree hd8]; exact hbit hk)
        (fun _ => by rw [e2, prevFreeBit_clearPrevFree])
      refine ⟨pre ++ [b] ++ post, hasm s1 ⟨rfl, rfl, rfl⟩ s2 fun c hc hne => ?_, ⟨by simp, f0⟩,
        by omega, by omega⟩
      exact absurd (List.mem_singleton.mp hc) hne
  · simp [hf] at hr

/-! ## Cached blocks, seeding -/

theorem reinsert_spec (h : Sound k m T as) (hu : Used m as b) :
    Outcome False m T as (reinsert m T b).1 (reinsert m T b).2 as b ∧
      ¬ Used (reinsert m T b).1 as b := by
  obtain ⟨hb, hbf⟩ := hu
  have hap := h.apart
  have hbd := h.bounds hb
  let m₀ := setSize m b (orFree (m b))
  have e0 : m₀ b = orFree (m b) := Mem.set_self ..
  have e1 : ∀ x, x ≠ b → m₀ x = m x := fun x hx => Mem.set_ne _ _ hx
  have hspan : ∀ a ∈ as ++ [T.sentinel], span m₀ a = span m a := by
    intro a ha
    by_cases e : a = b
    · rw [e]; exact (congrArg blockSize e0).trans blockSize_orFree
    · exact congrArg blockSize (e1 a e)
  have hfree : ∀ a, a ≠ b → isFree m₀ a = isFree m a := fun a ha => congrArg freeBit (e1 a ha)
  have hf0 : isFree m₀ b = true := (congrArg freeBit e0).trans freeBit_orFree
  have hother : ∀ a ∈ as ++ [T.sentinel], ∀ i, 8 ≤ i → i < 32 → a + i ≠ b := fun a ha i h1 h2 => by
    have := hap a ha b (List.mem_append_left _ hb); omega
  have hw : Walk m₀ 0 T.raw as T.sentinel :=
    h.walk.congr
      (fun a ha => ⟨hspan a (by simp [ha]), e1 _ (hother a (by simp [ha]) 8 (by omega) (by omega))⟩)
      (e1 _ (hother _ (by simp) 8 (by omega) (by omega)))
  obtain ⟨L, hidx⟩ := h.idx
  obtain ⟨s1, s2, s3⟩ := sound_insert (k := False) (m := m₀) (T := T) (s := b) h.region hw
    ⟨(hspan _ (by simp)).trans h.sent.1, (hfree _ (by omega)).trans h.sent.2⟩ hb hf0
    ⟨L, hidx.congr (fun c => by
      constructor
      · rintro ⟨⟨h1, h2⟩, h3⟩; exact ⟨h1, by rw [← hfree c h3]; exact h2⟩
      · rintro ⟨h1, h2⟩
        have hne : c ≠ b := fun e => by rw [e, hbf] at h2; cases h2
        exact ⟨⟨h1, by rw [hfree c hne]; exact h2⟩, hne⟩) fun c hc =>
      ⟨hspan c (by simp [hc.1]), e1 _ (hother c (by simp [hc.1]) 16 (by omega) (by omega)),
        e1 _ (hother c (by simp [hc.1]) 24 (by omega) (by omega))⟩⟩ False.elim
  unfold reinsert
  show Outcome False m T as (tlsfInsertFreeBlock m₀ T b).1 (tlsfInsertFreeBlock m₀ T b).2 as b ∧
    ¬ Used (tlsfInsertFreeBlock m₀ T b).1 as b
  have hword : ∀ a ∈ as, (tlsfInsertFreeBlock m₀ T b).1 a = m₀ a := fun a ha =>
    s3 a fun c hc => by
      have := hap a (by simp [ha]) c (by simp [hc]); omega
  clear_value m₀
  have hend := h.region.end
  have hsz := h.region.lo
  refine ⟨⟨s1, s2, fun x hx => (s3 x fun c hc => ?_).trans (e1 x (by omega)), fun c hne => ?_,
    fun c hne hc => ⟨?_, fun i h1 h2 => (s3 _ fun d hd => ?_).trans (e1 _ ?_)⟩⟩, ?_⟩
  · have := h.bounds hc; omega
  · refine and_congr_right fun hc => ?_
    rw [show isFree (tlsfInsertFreeBlock m₀ T b).1 c = isFree m₀ c
      from congrArg freeBit (hword c hc), hfree c hne]
  · rw [show span (tlsfInsertFreeBlock m₀ T b).1 c = span m₀ c
      from congrArg blockSize (hword c hc.1)]
    exact hspan c (by simp [hc.1])
  · have := h.payload_apart hc.1 (d := d) (by simp [hd]) h1 h2; omega
  · have := h.payload_apart hc.1 (d := b) (by simp [hb]) h1 h2; omega
  · rintro ⟨-, h2⟩
    rw [show isFree (tlsfInsertFreeBlock m₀ T b).1 b = isFree m₀ b
      from congrArg freeBit (hword b hb), hf0] at h2
    cases h2

theorem seed_words (raw : Nat) {size : Nat} (hlo : 64 ≤ size) (hsz : size < 2 ^ 30)
    (h8 : 8 ∣ size) : seedRegion m raw size raw = orFree (size - 32) ∧
    (∀ i, i = 8 ∨ i = 16 ∨ i = 24 → seedRegion m raw size (raw + i) = 0) ∧
    seedRegion m raw size (raw + size - 32) = 0 ∧
    seedRegion m raw size (raw + size - 32 + 8) = raw ∧ ∀ x, x < raw ∨ raw + size ≤ x →
    seedRegion m raw size x = m x := by
  have hsub : sizeSub size blockHdr = size - 32 :=
    sizeSub_of_le (by unfold blockHdr; omega) (by unfold sizeMod; omega)
  let m₁ :=
    setPrevFree
      (setNextFree (setPrevPhysical (setSize m raw (orFree (size - 32))) raw 0) raw 0) raw 0
  have e0 : m₁ raw = orFree (size - 32) :=
    (Mem.set_ne _ _ (by omega)).trans ((Mem.set_ne _ _ (by omega)).trans
      ((Mem.set_ne _ _ (by omega)).trans (Mem.set_self ..)))
  have hspan : span m₁ raw = size - 32 :=
    (congrArg blockSize e0).trans (blockSize_orFree.trans (blockSize_of_dvd (by omega)))
  have hm : seedRegion m raw size =
      setPrevPhysical (setSize m₁ (raw + size - 32) 0) (raw + size - 32) raw := by
    unfold seedRegion
    rw [hsub]
    show setPrevPhysical (setSize m₁ (raw + span m₁ raw) 0) (raw + span m₁ raw) raw = _
    rw [hspan, show raw + (size - 32) = raw + size - 32 by omega]
  have e1 : m₁ (raw + 8) = 0 :=
    (Mem.set_ne _ _ (by omega)).trans ((Mem.set_ne _ _ (by omega)).trans (Mem.set_self ..))
  have e2 : m₁ (raw + 16) = 0 := (Mem.set_ne _ _ (by omega)).trans (Mem.set_self ..)
  have e3 : m₁ (raw + 24) = 0 := Mem.set_self ..
  have e4 : ∀ x, x < raw ∨ raw + 32 ≤ x → m₁ x = m x := fun x hx =>
    (Mem.set_ne _ _ (by omega)).trans ((Mem.set_ne _ _ (by omega)).trans
      ((Mem.set_ne _ _ (by omega)).trans (Mem.set_ne _ _ (by omega))))
  clear_value m₁
  have e5 : ∀ x, x ≠ raw + size - 32 → x ≠ raw + size - 32 + 8 →
    seedRegion m raw size x = m₁ x := by
    intro x h1 h2
    rw [hm]
    exact (Mem.set_ne _ _ h2).trans (Mem.set_ne _ _ h1)
  refine ⟨(e5 _ (by omega) (by omega)).trans e0, ?_, ?_, ?_, fun x hx => ?_⟩
  · rintro i (rfl | rfl | rfl)
    · exact (e5 _ (by omega) (by omega)).trans e1
    · exact (e5 _ (by omega) (by omega)).trans e2
    · exact (e5 _ (by omega) (by omega)).trans e3
  · rw [hm]; exact (Mem.set_ne _ _ (by omega)).trans (Mem.set_self ..)
  · rw [hm]; exact Mem.set_self ..
  · exact (e5 x (by omega) (by omega)).trans (e4 x (by omega))

/-- **A seeded arena** is one FREE block. -/
theorem reseed_spec (hreg : Region T) (h8 : 8 ∣ T.size) :
    Sound k (reseed m T).1 (reseed m T).2 [T.raw] ∧ SameRegion T (reseed m T).2 ∧
      (∀ x, x < T.raw ∨ T.raw + T.size ≤ x → (reseed m T).1 x = m x) ∧
      isFree (reseed m T).1 T.raw = true := by
  have hlo := hreg.lo
  obtain ⟨w0, w1, w2, w3, w4⟩ := seed_words (m := m) T.raw hlo hreg.hi h8
  let T₀ := emptyIndex T.raw T.size T.owner
  have hsent : T₀.sentinel = T.raw + T.size - 32 := rfl
  unfold reseed
  show Sound k (tlsfInsertFreeBlock _ T₀ T.raw).1 (tlsfInsertFreeBlock _ T₀ T.raw).2 _ ∧ _
  have hreg₀ : Region T₀ := ⟨hreg.pos, hlo, hreg.hi⟩
  generalize seedRegion m T.raw T.size = m₁ at *
  have hspan : span m₁ T.raw = T.size - 32 :=
    (congrArg blockSize w0).trans (blockSize_orFree.trans (blockSize_of_dvd (by omega)))
  have hfree : isFree m₁ T.raw = true := (congrArg freeBit w0).trans freeBit_orFree
  have hwalk : Walk m₁ 0 T₀.raw [T.raw] T₀.sentinel := by
    rw [hsent]
    refine ⟨rfl, w1 8 (.inl rfl), ?_, ?_, ?_⟩
    · rw [hspan]; unfold minBlock; omega
    · rw [hspan]; omega
    · rw [hspan]
      exact ⟨by omega, w3⟩
  have hidx :
    Indexed m₁ T₀ (fun c => (c ∈ [T.raw] ∧ isFree m₁ c = true) ∧ c ≠ T.raw) fun _ _ => [] := by
    refine ⟨fun _ _ => DL.is_nil_iff.mpr rfl, fun fl sl b => ?_, fun fl sl => ?_, fun fl => ?_⟩
    · simp only [List.not_mem_nil, List.mem_singleton, false_iff]
      rintro ⟨⟨⟨h1, -⟩, h2⟩, -⟩
      exact h2 h1
    · simp [T₀, emptyIndex]
    · simp [T₀, emptyIndex]
  obtain ⟨s1, s2, s3⟩ := sound_insert (k := k) (s := T.raw) hreg₀ hwalk
    ⟨by rw [hsent]; unfold span; rw [w2]; rfl, by rw [hsent]; unfold isFree; rw [w2]; rfl⟩
      (by simp) hfree
    ⟨_, hidx⟩
      (fun _ => ⟨by simp,
        fun _ => by rw [w0, prevFreeBit_orFree]; exact prevFreeBit_of_dvd (by omega), trivial⟩)
  refine ⟨s1, s2, fun x hx => (s3 x fun c hc => ?_).trans (w4 x hx), ?_⟩
  · rw [List.mem_singleton.mp hc]; omega
  · exact (congrArg freeBit (s3 _ fun c hc => by rw [List.mem_singleton.mp hc]; omega)).trans hfree

/-- Creating an arena seeds it like a reset does. -/
theorem create_eq {owner size self : Nat} (hlo : 64 ≤ sizeAlign8 size)
    (hhi : sizeAlign8 size < 2 ^ 30) : tlsfCreatePoolCustom m owner size self =
      reseed m (emptyIndex (self + tpoolHdr) (sizeAlign8 size) owner) := by
  obtain ⟨-, w1, -⟩ := seed_words (m := m) (self + tpoolHdr) hlo hhi (sizeAlign8_dvd size)
  unfold tlsfCreatePoolCustom reseed
  show _ = tlsfInsertFreeBlock (seedRegion m (self + tpoolHdr) (sizeAlign8 size)) _
    (self + tpoolHdr)
  simp only
  generalize seedRegion m (self + tpoolHdr) (sizeAlign8 size) = m₁ at *
  generalize self + tpoolHdr = raw at *
  obtain ⟨⟨fl, sl⟩, hk⟩ : ∃ k, tlsfMappingInsert (span m₁ raw) = k := ⟨_, rfl⟩
  rw [insert_eq hk, hk]
  have hm : setPrevFree (setNextFree m₁ raw 0) raw 0 = m₁ := by
    have h1 : setNextFree m₁ raw 0 = m₁ :=
      Function.update_eq_self_iff.mpr (w1 16 (.inr (.inl rfl))).symm
    rw [h1]
    exact Function.update_eq_self_iff.mpr (w1 24 (.inr (.inr rfl))).symm
  exact Prod.ext hm.symm rfl

end Ops

end Cmem.L2.SharedTlsf

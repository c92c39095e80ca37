import Cmem.L2Tlsf.Cache

/-!
# The TLSF tier over whole runs

`Held k H C hs as`: the handles in callers' hands and in the thread cache are
together the blocks in use of the sound heap `H`. Every operation keeps it
(`step_inv`); `k` survives where no cached block is put back, because only the
re-insertion of a cached block forgets PREV_FREE and the merge.

`tlsf_runs_sound` is the structural invariant over all runs.
-/
namespace Cmem.L2.SharedTlsf

structure Held (k : Prop) (H : Heap) (C : Tls) (hs : List (Nat × Nat))
    (as : Nat → List Nat) : Prop where
  wf : Wf k H (hs ++ cached C) as
  tls : TlsOk C
  own : ∀ p ∈ cached C, (H.tp p.1).owner = C.owner

section Held
variable {k k' : Prop} {H H' : Heap} {C : Tls} {hs : List (Nat × Nat)} {as as' : Nat → List Nat}
  {P t b : Nat}

theorem Held.mono (h : Held k H C hs as) (hk : k' → k) : Held k' H C hs as :=
  ⟨h.wf.mono hk, h.tls, h.own⟩

/-- A change of the heap that keeps the cached handles. -/
theorem Held.change {hs' : List (Nat × Nat)} (h : Held k H C hs as)
    (w : Wf k' H' (hs' ++ cached C) as') (hk : Stays H H' (cached C)) : Held k' H' C hs' as' :=
  ⟨w, h.tls, fun p hp =>
    ((hk.arenas p.1 (h.wf.known p (List.mem_append_right _ hp))).2.2.2).trans (h.own p hp)⟩

/-- A cache that nobody owns is empty. -/
theorem Held.cached_nil (h : Held k H C hs as) (h0 : C.owner = 0) : cached C = [] := by
  refine List.eq_nil_iff_forall_not_mem.mpr fun p hp => ?_
  have h1 := (h.wf.geo p.1 (h.wf.known p (List.mem_append_right _ hp))).2.2.2
  exact h1 ((h.own p hp).trans h0)

/-- What a flush of the cache leaves. -/
structure Flushed (k : Prop) (H : Heap) (hs : List (Nat × Nat)) (r : Heap × Tls) : Prop where
  held : ∃ as, Held k r.1 r.2 hs as
  keeps : Stays H r.1 hs
  arenas : r.1.arenas = H.arenas

theorem Held.flush (h : Held k H C hs as) :
    Flushed (k ∧ cached C = []) H hs (flushCache H C) ∧ cached (flushCache H C).2 = [] ∧
      (flushCache H C).2.owner = C.owner := by
  rw [h.tls.flush]
  obtain ⟨as', w, kp, ha⟩ := reinsertAll_wf (h.wf.perm List.perm_append_comm)
  have hc := cached_drained (C := C)
  refine ⟨⟨⟨as', ⟨?_, TlsOk.of_drained, fun p hp => ?_⟩⟩, kp, ha⟩, hc, rfl⟩
  · rw [hc, List.append_nil]; exact w
  · rw [hc] at hp; cases hp

theorem Held.flushPool (h : Held k H C hs as) (P : Nat) :
    Flushed (k ∧ (C.owner = P → cached C = [])) H hs (tlsCacheFlushPool H C P) ∧
      (C.owner = P → cached (tlsCacheFlushPool H C P).2 = []) ∧
      ((tlsCacheFlushPool H C P).2.owner = P → P = 0) := by
  unfold tlsCacheFlushPool
  by_cases e : C.owner = P
  · rw [if_pos e]
    have hC : TlsOk { C with owner := 0 } := ⟨h.tls.chain, h.tls.le⟩
    obtain ⟨as', w, kp, ha⟩ := reinsertAll_wf (h.wf.perm List.perm_append_comm)
    have hc := cached_drained (C := { C with owner := 0 })
    rw [hC.flush]
    refine ⟨⟨⟨as', ⟨?_, TlsOk.of_drained, fun p hp => ?_⟩⟩, kp, ha⟩, fun _ => hc, fun e => e.symm⟩
    · rw [hc, List.append_nil]
      exact w.mono fun hk => ⟨hk.1, hk.2 e⟩
    · rw [hc] at hp; cases hp
  · rw [if_neg e]
    exact ⟨⟨⟨as, h.mono And.left⟩, Stays.refl, rfl⟩, fun h => absurd h e, fun h => absurd h e⟩

theorem Held.validateOwner (h : Held k H C hs as) (P : Nat) :
    Flushed (k ∧ (C.owner ≠ P → cached C = [])) H hs (tlsCacheValidateOwner H C P) ∧
      (tlsCacheValidateOwner H C P).2.owner = P ∧
      (C.owner = P → tlsCacheValidateOwner H C P = (H, C)) ∧
      (C.owner ≠ P → cached (tlsCacheValidateOwner H C P).2 = []) := by
  unfold tlsCacheValidateOwner
  by_cases e : C.owner = P
  · rw [if_pos e]
    exact ⟨⟨⟨as, h.mono And.left⟩, Stays.refl, rfl⟩, e, fun _ => rfl, fun hn => absurd e hn⟩
  rw [if_neg e]
  by_cases h0 : C.owner = 0
  · rw [if_neg (fun hn => hn h0)]
    refine ⟨⟨⟨as, ⟨h.wf.mono And.left, ⟨h.tls.chain, h.tls.le⟩, fun p hp => ?_⟩⟩, Stays.refl, rfl⟩,
      rfl,
      fun he => absurd he e, fun _ => h.cached_nil h0⟩
    have hp' : p ∈ cached C := hp
    rw [h.cached_nil h0] at hp'; cases hp'
  · rw [if_pos h0]
    obtain ⟨⟨⟨as', hh⟩, kp, ha⟩, hc, -⟩ := h.flushPool C.owner
    have hc := hc rfl
    generalize tlsCacheFlushPool H C C.owner = r at *
    refine ⟨⟨⟨as', ⟨hh.wf.mono fun hk => ⟨hk.1, fun _ => hk.2 e⟩, ⟨hh.tls.chain, hh.tls.le⟩,
      fun p hp => ?_⟩⟩, kp, ha⟩, rfl, fun he => absurd he e, fun _ => hc⟩
    have hp' : p ∈ cached r.2 := hp
    rw [hc] at hp'; cases hp'

theorem consOpt_append {α : Type} (o : Option α) (l l' : List α) :
    consOpt o (l ++ l') = consOpt o l ++ l' := by
  cases o <;> rfl

theorem Held.alloc (h : Held k H C hs as) {cfg : Cfg} {req os₀ os₁ : Nat} (hP : P ≠ 0)
    (hs₀ : SaneRequest req cfg.canary.toNat)
    (hf : FreshPair H P (totalNeeded req cfg.canary.toNat) os₀ os₁) :
    (∃ as', Held k (tlsfAlloc cfg H P req os₀ os₁).1 C
      (consOpt (tlsfAlloc cfg H P req os₀ os₁).2 hs) as') ∧
      Stays H (tlsfAlloc cfg H P req os₀ os₁).1 hs ∧
      ∀ p, (tlsfAlloc cfg H P req os₀ os₁).2 = some p →
        totalNeeded req cfg.canary.toNat ≤ span (tlsfAlloc cfg H P req os₀ os₁).1.mem p.2 ∧
        Stamped (tlsfAlloc cfg H P req os₀ os₁).1.mem p.2 req (totalNeeded req cfg.canary.toNat)
          (AllocSplits cfg H P req os₀ os₁) := by
  obtain ⟨as', w, kp, hnew⟩ := alloc_spec h.wf hP hs₀ hf
  rw [consOpt_append] at w
  exact ⟨⟨as', h.change w (kp.mono fun p hp => List.mem_append_right _ hp)⟩,
    kp.mono fun p hp => List.mem_append_left _ hp, fun p hp => ⟨(hnew p hp).2.1, (hnew p hp).2.2.2⟩⟩

theorem Held.allocMiss (h : Held k H C hs as) {cfg : Cfg} {size os₀ os₁ : Nat} (arenaServes : Bool)
    (hP : P ≠ 0) (hs₀ : arenaServes = false → SaneRequest size cfg.canary.toNat)
    (hf : FreshPair H P (totalNeeded size cfg.canary.toNat) os₀ os₁) :
    (∃ as', Held k (allocMiss cfg H C P size os₀ os₁ arenaServes).1.1
      (allocMiss cfg H C P size os₀ os₁ arenaServes).1.2
      (consOpt (allocMiss cfg H C P size os₀ os₁ arenaServes).2 hs) as') ∧
      Stays H (allocMiss cfg H C P size os₀ os₁ arenaServes).1.1 hs ∧
      ∀ p, (allocMiss cfg H C P size os₀ os₁ arenaServes).2 = some p →
        totalNeeded size cfg.canary.toNat ≤
          span (allocMiss cfg H C P size os₀ os₁ arenaServes).1.1.mem p.2 ∧
        Stamped (allocMiss cfg H C P size os₀ os₁ arenaServes).1.1.mem p.2 size
          (totalNeeded size cfg.canary.toNat)
            (arenaServes = false ∧ AllocSplits cfg H P size os₀ os₁) := by
  cases arenaServes with
  | true => exact ⟨⟨as, h⟩, Stays.refl, nofun⟩
  | false =>
    obtain ⟨h1, h2, h3⟩ := h.alloc hP (hs₀ rfl) hf
    exact ⟨h1, h2,
      fun p hp => ⟨(h3 p hp).1, (h3 p hp).2.1, (h3 p hp).2.2, fun hc => (h3 p hp).2.3 hc.2⟩⟩

/-! ## `mp_alloc`, `mp_free`, `mp_realloc`, `mp_reset` -/

theorem Fresh.congr {size self : Nat} (h : Fresh H size self) (ha : H'.arenas = H.arenas)
    (hf : ∀ u ∈ H.arenas, H'.fin u = H.fin u) : Fresh H' size self := by
  obtain ⟨h1, h2, h3, h4, h5, h6⟩ := h
  refine ⟨h1, h2, h3, h4, h5, fun u hu => ?_⟩
  rw [ha] at hu
  rw [hf u hu]
  exact h6 u hu

theorem FreshPair.congr {total os₀ os₁ : Nat} (h : FreshPair H P total os₀ os₁) (kp : Stays H H' hs)
    (ha : H'.arenas = H.arenas) : FreshPair H' P total os₀ os₁ := by
  have hfin : ∀ u ∈ H.arenas, H'.fin u = H.fin u := fun u hu => kp.fin hu
  refine ⟨fun h0 => (h.1 h0).congr ha hfin, fun h1 => (h.2 h1).congr ?_ ?_⟩ <;>
    unfold firstArena <;> rw [kp.root ha P]
  · split
    · exact congrArg (os₀ :: ·) ha
    · exact ha
  · intro u hu
    split
    · by_cases e : u = os₀
      · simp [Heap.fin, Heap.addArena, e, tlsfCreatePoolCustom, TPool.mark, TPool.setHead,
          emptyIndex]
      · rename_i hc
        rw [if_pos hc] at hu
        have := hfin u ((List.mem_cons.mp hu).resolve_left e)
        unfold Heap.fin at this ⊢
        simpa [Heap.addArena, e] using this
    · rename_i hc
      rw [if_neg hc] at hu
      exact hfin u hu

theorem cacheIdx_lt {size i : Nat} (h : cacheIdx size = some i) : i < cacheSizes := by
  unfold cacheIdx at h
  simp only at h
  split at h
  · rename_i hc
    rw [← Option.some.inj h]
    exact hc.2
  · cases h

theorem counts_of_cached_nil (h : cached C = []) {i : Nat} (hi : i < cacheSizes) :
    C.counts i = 0 := by
  have hb := List.flatMap_eq_nil_iff.mp h i (List.mem_range.mpr hi)
  have := congrArg List.length hb
  simpa [Tls.bucket, length_ptrs] using this

/-- The head entry of a bucket leaves the cache. -/
theorem Held.pop (h : Held k H C hs as) {i : Nat} (hi : i < cacheSizes) (h0 : C.counts i ≠ 0) :
    Wf k H (((C.entries (C.slots i - 1)).tpool, (C.entries (C.slots i - 1)).block) ::
      (hs ++ cached (C.pop i))) as ∧ TlsOk (C.pop i) ∧
      ∀ p ∈ cached (C.pop i), (H.tp p.1).owner = (C.pop i).owner := by
  obtain ⟨h1, h2⟩ := h.tls.pop hi h0
  refine ⟨h.wf.perm ((h2.append_left hs).trans List.perm_middle), h1, fun p hp => ?_⟩
  exact h.own p (h2.mem_iff.mpr (List.mem_cons_of_mem _ hp))

/-- The memory of a cache hit: the block's size word and its header are written anew. -/
def hitMem (cfg : Cfg) (m : Mem) (t b size : Nat) : Mem :=
  stampBlock cfg (setSize m b (totalNeeded size cfg.canary.toNat + andPrevFree (m b))) t b size
    (totalNeeded size cfg.canary.toNat) 2

theorem hit_wf {cfg : Cfg} {size : Nat} (h : Wf k H ((t, b) :: hs) as)
    (hs₀ : 184 + size + cfg.canary.toNat + 7 < sizeMod)
    (hsp : span H.mem b = totalNeeded size cfg.canary.toNat) :
    Wf k { H with mem := hitMem cfg H.mem t b size } ((t, b) :: hs) as ∧
      Stays H { H with mem := hitMem cfg H.mem t b size } hs ∧
      Stamped (hitMem cfg H.mem t b size) b size (totalNeeded size cfg.canary.toNat) True := by
  unfold hitMem
  have hd := totalNeeded_dvd size cfg.canary.toNat
  have hroom := (totalNeeded_bounds hs₀).1
  generalize totalNeeded size cfg.canary.toNat = total at *
  have w := h.restamp List.mem_cons_self (v := total + andPrevFree (H.mem b))
    ((blockSize_add_prevFree hd).trans hsp.symm) (freeBit_add_prevFree hd)
      (prevFreeBit_add_prevFree hd)
  have hal := h.aligned (t := t) (b := b) List.mem_cons_self
  have hn : (t, b) ∉ hs := (List.nodup_cons.mp h.handles).1
  have hsub : ∀ p ∈ hs, p ∈ (t, b) :: hs ∧ p ≠ (t, b) := fun p hp =>
    ⟨List.mem_cons_of_mem _ hp, fun e => hn (e ▸ hp)⟩
  have kp := h.restamp_keeps List.mem_cons_self (v := total + andPrevFree (H.mem b)) hsub
  have hsp' : span (setSize H.mem b (total + andPrevFree (H.mem b))) b = total := by
    unfold span setSize
    rw [Mem.set_self, blockSize_add_prevFree hd]
  generalize setSize H.mem b (total + andPrevFree (H.mem b)) = m₁ at *
  obtain ⟨z1, z2⟩ := stampBlock_sizes (m := m₁) (t := t) cfg 2 hal.1 hd hroom (by omega)
  have hw : ∀ x, x < b + 32 ∨ b + span m₁ b ≤ x → stampBlock cfg m₁ t b size total 2 x = m₁ x :=
    fun x hx =>
    stampBlock_frame hal.1 hd hroom (by omega) (by omega)
  generalize stampBlock cfg m₁ t b size total 2 = m₂ at *
  refine ⟨w.write List.mem_cons_self hw, kp.trans (w.write_keeps List.mem_cons_self hw hsub), z1,
    z2, fun _ => ?_⟩
  exact (span_of_write hw).trans hsp'

/-- Every request of the bucket that meets the head entry has that entry's span. -/
def HitFits (cfg : Cfg) (H : Heap) (C : Tls) (size : Nat) : Prop :=
  ∀ i, cacheIdx (totalNeeded size cfg.canary.toNat) = some i → C.counts i ≠ 0 →
    span H.mem (C.entries (C.slots i - 1)).block = totalNeeded size cfg.canary.toNat

instance decHitFits (cfg : Cfg) (H : Heap) (C : Tls) (size : Nat) :
    Decidable (HitFits cfg H C size) :=
  match e : cacheIdx (totalNeeded size cfg.canary.toNat) with
  | none => .isTrue fun i h => by rw [e] at h; cases h
  | some i =>
    decidable_of_iff (C.counts i ≠ 0 →
        span H.mem (C.entries (C.slots i - 1)).block = totalNeeded size cfg.canary.toNat)
      ⟨fun h j hj h0 => by
        obtain rfl : i = j := Option.some.inj (e.symm.trans hj)
        exact h h0,
      fun h h0 => h i e h0⟩

/-- The cache's part of `mp_alloc`: the heap and the cache it leaves, and the block it has. -/
def cacheLookup (H : Heap) (C : Tls) (P total : Nat) : (Heap × Tls) × Option (Nat × Nat) :=
  let r := tlsCacheValidateOwner H C P
  match cacheIdx total with
  | none => (r, none)
  | some i =>
    if r.2.counts i = 0 then (r, none)
    else
      let e := r.2.entries (r.2.slots i - 1)
      if span r.1.mem e.block ≠ total then
        ((r.1.put e.tpool (reinsert r.1.mem (r.1.tp e.tpool) e.block), r.2.pop i), none)
      else ((r.1, r.2.pop i), some (e.tpool, e.block))

/-- ... and what follows it. -/
def afterLookup (cfg : Cfg) (P size os₀ os₁ : Nat) (arenaServes : Bool)
    (q : (Heap × Tls) × Option (Nat × Nat)) : (Heap × Tls) × Option (Nat × Nat) :=
  match q.2 with
  | none => allocMiss cfg q.1.1 q.1.2 P size os₀ os₁ arenaServes
  | some (t, b) => (({ q.1.1 with mem := hitMem cfg q.1.1.mem t b size }, q.1.2), some (t, b))

theorem mpAllocTlsf_eq (cfg : Cfg) (H : Heap) (C : Tls) (P size os₀ os₁ : Nat)
    (arenaServes : Bool) : mpAllocTlsf cfg H C P size os₀ os₁ arenaServes =
      afterLookup cfg P size os₀ os₁ arenaServes
        (cacheLookup H C P (totalNeeded size cfg.canary.toNat)) := by
  unfold mpAllocTlsf cacheLookup
  dsimp only
  generalize tlsCacheValidateOwner H C P = r
  cases cacheIdx (totalNeeded size cfg.canary.toNat) with
  | none => rfl
  | some i =>
    dsimp only
    split
    · rfl
    split <;> rfl

theorem Held.lookup (h : Held k H C hs as) (cfg : Cfg) (P size : Nat) :
    ∃ as', Held (k ∧ (C.owner ≠ P → cached C = []) ∧ (C.owner = P → HitFits cfg H C size))
        (cacheLookup H C P (totalNeeded size cfg.canary.toNat)).1.1
        (cacheLookup H C P (totalNeeded size cfg.canary.toNat)).1.2
        (consOpt (cacheLookup H C P (totalNeeded size cfg.canary.toNat)).2 hs) as' ∧
      Stays H (cacheLookup H C P (totalNeeded size cfg.canary.toNat)).1.1 hs ∧
      (cacheLookup H C P (totalNeeded size cfg.canary.toNat)).1.1.arenas = H.arenas ∧
      ∀ p, (cacheLookup H C P (totalNeeded size cfg.canary.toNat)).2 = some p →
        span (cacheLookup H C P (totalNeeded size cfg.canary.toNat)).1.1.mem p.2 =
          totalNeeded size cfg.canary.toNat := by
  obtain ⟨⟨⟨as₁, h₁⟩, kp, ha⟩, -, hsame, hnil⟩ := h.validateOwner P
  have hfit : (C.owner = P → HitFits cfg H C size) →
      HitFits cfg (tlsCacheValidateOwner H C P).1 (tlsCacheValidateOwner H C P).2 size := by
    intro hh
    by_cases e : C.owner = P
    · rw [hsame e]; exact hh e
    · intro i hi h0
      exact absurd (counts_of_cached_nil (hnil e) (cacheIdx_lt hi)) h0
  unfold cacheLookup
  dsimp only
  generalize tlsCacheValidateOwner H C P = r at *
  replace h₁ :
    Held (k ∧ (C.owner ≠ P → cached C = []) ∧ (C.owner = P → HitFits cfg H C size)) r.1
      r.2 hs as₁ :=
    h₁.mono fun hk => ⟨hk.1, hk.2.1⟩
  cases e : cacheIdx (totalNeeded size cfg.canary.toNat) with
  | none => exact ⟨as₁, h₁, kp, ha, nofun⟩
  | some i =>
    dsimp only
    by_cases h0 : r.2.counts i = 0
    · rw [if_pos h0]
      exact ⟨as₁, h₁, kp, ha, nofun⟩
    rw [if_neg h0]
    obtain ⟨w, h2, h3⟩ := h₁.pop (cacheIdx_lt e) h0
    by_cases hsp :
      span r.1.mem (r.2.entries (r.2.slots i - 1)).block = totalNeeded size cfg.canary.toNat
    · rw [if_neg (fun hn => hn hsp)]
      refine ⟨as₁, ⟨w, h2, h3⟩, kp, ha, fun p hp => ?_⟩
      cases hp
      exact hsp
    · -- the span mismatch: only here a cached block goes back without a merge
      rw [if_pos hsp]
      obtain ⟨as₂, w₂, kp₂⟩ := reinsert_wf w
      refine ⟨as₂, ⟨w₂.mono fun hk => hsp (hfit hk.2.2 i e h0), h2, fun p hp => ?_⟩,
        kp.trans (kp₂.mono fun p hp => List.mem_append_left _ hp), ha, nofun⟩
      have hk := w.known p (List.mem_cons_of_mem _ (List.mem_append_right _ hp))
      exact ((kp₂.arenas p.1 hk).2.2.2).trans (h3 p hp)

/-- The block that `mp_alloc` gets behind a cache miss is cut or fits. -/
def MissSplits (cfg : Cfg) (H : Heap) (C : Tls) (P size os₀ os₁ : Nat)
    (arenaServes : Bool) : Prop :=
  let q := cacheLookup H C P (totalNeeded size cfg.canary.toNat)
  q.2.isNone → arenaServes = false → AllocSplits cfg q.1.1 P size os₀ os₁

instance (cfg : Cfg) (H : Heap) (C : Tls) (P size os₀ os₁ : Nat) (arenaServes : Bool) :
    Decidable (MissSplits cfg H C P size os₀ os₁ arenaServes) :=
  inferInstanceAs (Decidable (_ → _ → _))

theorem Held.mpAlloc (h : Held k H C hs as) {cfg : Cfg} {size os₀ os₁ : Nat} (arenaServes : Bool)
    (hP : P ≠ 0) (hw : 184 + size + cfg.canary.toNat + 7 < sizeMod)
    (hs₀ : arenaServes = false → SaneRequest size cfg.canary.toNat)
    (hf : FreshPair H P (totalNeeded size cfg.canary.toNat) os₀ os₁) :
    (∃ as', Held (k ∧ (C.owner ≠ P → cached C = []) ∧ (C.owner = P → HitFits cfg H C size))
      (mpAllocTlsf cfg H C P size os₀ os₁ arenaServes).1.1
      (mpAllocTlsf cfg H C P size os₀ os₁ arenaServes).1.2
      (consOpt (mpAllocTlsf cfg H C P size os₀ os₁ arenaServes).2 hs) as') ∧
      Stays H (mpAllocTlsf cfg H C P size os₀ os₁ arenaServes).1.1 hs ∧
      ∀ p, (mpAllocTlsf cfg H C P size os₀ os₁ arenaServes).2 = some p →
        totalNeeded size cfg.canary.toNat ≤
          span (mpAllocTlsf cfg H C P size os₀ os₁ arenaServes).1.1.mem p.2 ∧
        Stamped (mpAllocTlsf cfg H C P size os₀ os₁ arenaServes).1.1.mem p.2 size
          (totalNeeded size cfg.canary.toNat) (MissSplits cfg H C P size os₀ os₁ arenaServes) := by
  obtain ⟨as₁, h₁, kp, ha, hsp⟩ := h.lookup cfg P size
  have hf₁ := hf.congr kp ha
  rw [mpAllocTlsf_eq]
  unfold MissSplits
  generalize cacheLookup H C P (totalNeeded size cfg.canary.toNat) = q at *
  obtain ⟨r, o⟩ := q
  cases o with
  | none =>
    unfold afterLookup
    dsimp only
    obtain ⟨held, kp', hnew⟩ := h₁.allocMiss arenaServes hP hs₀ hf₁
    refine ⟨held, kp.trans kp', fun p hp => ?_⟩
    obtain ⟨z1, z2, z3, z4⟩ := hnew p hp
    refine ⟨z1, z2, z3, fun hc => z4 ?_⟩
    cases arenaServes with
    | true => cases hp
    | false => exact ⟨rfl, hc rfl rfl⟩
  | some p =>
    obtain ⟨w, kp', z1, z2, z3⟩ := hit_wf (t := p.1) (b := p.2) h₁.wf hw (hsp p rfl)
    refine ⟨⟨as₁, w, h₁.tls, h₁.own⟩, kp.trans (kp'.mono fun q hq => List.mem_append_left _ hq),
      fun q hq => ?_⟩
    cases hq
    exact ⟨(z3 trivial).ge, z1, z2, fun _ => z3 trivial⟩

theorem Held.mpFree (h : Held k H C ((t, b) :: hs) as) (usable : Nat) :
    (∃ as', Held (k ∧ (C.owner ≠ (H.tp t).owner → cached C = [])) (mpFreeTlsf H C t b usable).1
      (mpFreeTlsf H C t b usable).2 hs as') ∧ Stays H (mpFreeTlsf H C t b usable).1 hs := by
  obtain ⟨⟨⟨as₁, h₁⟩, kp, ha⟩, how, -, -⟩ := h.validateOwner (H.tp t).owner
  have ht : t ∈ H.arenas := h.wf.known (t, b) List.mem_cons_self
  have hown := (kp.arenas t ht).2.2.2
  have kp := kp.mono (fun p (hp : p ∈ hs) => List.mem_cons_of_mem (t, b) hp)
  unfold mpFreeTlsf
  simp only
  generalize tlsCacheValidateOwner H C (H.tp t).owner = r at *
  have hfree : (∃ as', Held (k ∧ (C.owner ≠ (H.tp t).owner → cached C = []))
      (r.1.put t (tlsfFree r.1.mem (r.1.tp t) b)) r.2 hs as') ∧
      Stays H (r.1.put t (tlsfFree r.1.mem (r.1.tp t) b)) hs := by
    have hw : Wf _ r.1 ((t, b) :: (hs ++ cached r.2)) as₁ := h₁.wf
    obtain ⟨as₂, w, kp₂⟩ := free_wf hw
    exact ⟨⟨as₂, h₁.change w (kp₂.mono fun p hp => List.mem_append_right _ hp)⟩,
      kp.trans (kp₂.mono fun p hp => List.mem_append_left _ hp)⟩
  cases e : cacheIdx (sizeAdd usable (blockHdr + hdrSize)) with
  | none => exact hfree
  | some i =>
    simp only
    by_cases hlt : r.2.counts i < cacheMaxSlots
    · rw [if_pos hlt]
      obtain ⟨h2, h3⟩ := h₁.tls.push (t := t) (b := b) (cacheIdx_lt e) hlt
      refine ⟨⟨as₁, h₁.wf.perm ?_, h2, fun p hp => ?_⟩, kp⟩
      · exact (List.perm_middle.symm).trans ((h3.symm).append_left hs)
      · show _ = r.2.owner
        rcases List.mem_cons.mp (h3.mem_iff.mp hp) with rfl | hp
        · exact hown.trans how.symm
        · exact h₁.own p hp
    · rw [if_neg hlt]
      exact hfree

theorem HeaderIn.congr {h newSize : Nat} (hi : HeaderIn H b h newSize)
    (hsp : span H'.mem b = span H.mem b) :
    HeaderIn H' b h newSize := by
  unfold HeaderIn at *
  rw [hsp]
  exact hi

/-- A grow writes its canary, if it writes one, behind the `tlsf_block_t` and
inside the block as it is then. -/
def CanaryIn (cfg : Cfg) (r : Heap × Bool) (b h newSize : Nat) : Prop :=
  cfg.canary = true → r.2 = true →
    b + blockHdr ≤ sizeAdd (h + hdrSize) newSize ∧
    sizeAdd (h + hdrSize) newSize < b + span r.1.mem b

instance decCanaryIn (cfg : Cfg) (r : Heap × Bool) (b h newSize : Nat) :
    Decidable (CanaryIn cfg r b h newSize) :=
  inferInstanceAs (Decidable (cfg.canary = true → r.2 = true →
    b + blockHdr ≤ sizeAdd (h + hdrSize) newSize ∧
    sizeAdd (h + hdrSize) newSize < b + span r.1.mem b))

theorem Held.expand (h : Held k H C hs as) (hp : (t, b) ∈ hs) {cfg : Cfg} {hd newSize : Nat}
    (hin : HeaderIn H b hd newSize) (hsane : 184 + newSize + cfg.canary.toNat + 7 < sizeMod)
    (hcan : CanaryIn cfg (tlsfTryInplaceExpand cfg H t b hd newSize) b hd newSize) :
    (∃ as', Held k (tlsfTryInplaceExpand cfg H t b hd newSize).1 C hs as') ∧
      Stays H (tlsfTryInplaceExpand cfg H t b hd newSize).1 (hs.erase (t, b)) ∧
      (tlsfTryInplaceExpand cfg H t b hd newSize).1.arenas = H.arenas ∧
      ((tlsfTryInplaceExpand cfg H t b hd newSize).2 = false →
        (tlsfTryInplaceExpand cfg H t b hd newSize).1 = H) := by
  obtain ⟨as', w, kp, -, hfail⟩ := expand_wf h.wf (List.mem_append_left _ hp) hin hsane hcan
  rw [List.erase_append_left _ hp] at kp
  refine ⟨⟨as', h.change w (kp.mono fun p hm => List.mem_append_right _ hm)⟩,
    kp.mono fun p hm => List.mem_append_left _ hm, ?_, hfail⟩
  unfold tlsfTryInplaceExpand
  split <;> rfl

theorem Held.mpRealloc (h : Held k H C hs as) (hp : (t, b) ∈ hs) {cfg : Cfg} {hd newSize : Nat}
    (hin : HeaderIn H b hd newSize) (hsane : 184 + newSize + cfg.canary.toNat + 7 < sizeMod)
    (hcan : CanaryIn cfg ((mpReallocTlsf cfg H C P t b hd newSize).1.1,
    (mpReallocTlsf cfg H C P t b hd newSize).2)
      b hd newSize) :
    (∃ as', Held (k ∧ cached C = []) (mpReallocTlsf cfg H C P t b hd newSize).1.1
      (mpReallocTlsf cfg H C P t b hd newSize).1.2 hs as') ∧
      Stays H (mpReallocTlsf cfg H C P t b hd newSize).1.1 (hs.erase (t, b)) ∧
      (mpReallocTlsf cfg H C P t b hd newSize).1.1.arenas = H.arenas ∧
      ((mpReallocTlsf cfg H C P t b hd newSize).2 = false →
        Stays H (mpReallocTlsf cfg H C P t b hd newSize).1.1 hs) := by
  obtain ⟨⟨⟨as₁, h₁⟩, kp, ha⟩, -, hsame, hnil⟩ := h.validateOwner P
  have hnil₁ : cached C = [] → cached (tlsCacheValidateOwner H C P).2 = [] := by
    intro hc
    by_cases e : C.owner = P
    · rw [hsame e]; exact hc
    · exact hnil e
  unfold mpReallocTlsf at hcan ⊢
  simp only at hcan ⊢
  generalize tlsCacheValidateOwner H C P = r at *
  obtain ⟨⟨⟨as₂, h₂⟩, kp₂, ha₂⟩, -, -⟩ := h₁.flush
  have hin₂ := hin.congr (((kp.trans kp₂).words _ hp).1)
  generalize flushCache r.1 r.2 = q at *
  obtain ⟨⟨as₃, h₃⟩, kp₃, ha₃, hfail⟩ := h₂.expand hp hin₂ hsane hcan
  refine ⟨⟨as₃, h₃.mono fun hk => ⟨⟨hk.1, fun _ => hk.2⟩, hnil₁ hk.2⟩⟩,
    ((kp.trans kp₂).mono fun p => List.mem_of_mem_erase).trans kp₃, ha₃.trans (ha₂.trans ha),
    fun hf => ?_⟩
  rw [hfail hf]
  exact kp.trans kp₂

/-- The flush leaves nothing in the cache. -/
theorem Held.mpRealloc_cached (h : Held k H C hs as) (cfg : Cfg) (P t b hd newSize : Nat) :
    cached (mpReallocTlsf cfg H C P t b hd newSize).1.2 = [] := by
  obtain ⟨⟨⟨as₁, h₁⟩, -, -⟩, -⟩ := h.validateOwner P
  exact h₁.flush.2.1

/-- The header and the canary byte are in the block. -/
theorem restamp_outside {cfg : Cfg} {m : Mem} {hd newSize : Nat} (h8 : 8 ∣ b) (hs8 : 8 ∣ span m b)
    (hd8 : 8 ∣ hd) (hlo : b + blockHdr ≤ hd) (hhi : hd + hdrSize ≤ b + span m b)
    (hcan : cfg.canary = true → b + blockHdr ≤ sizeAdd (hd + hdrSize) newSize ∧
      sizeAdd (hd + hdrSize) newSize <
        b + span m b) {x : Nat} (hx : x < b + 32 ∨ b + span m b ≤ x) :
    restamp cfg m hd newSize x = m x := by
  have hB : blockHdr = 32 := rfl
  have hH : hdrSize = 152 := rfl
  unfold restamp
  split
  · rename_i hc
    obtain ⟨h1, h2⟩ := hcan hc
    rw [Mem.setByte_ne _ _ (by omega), Mem.set_ne _ _ (by omega)]
  · exact Mem.set_ne _ _ (by omega)

/-- ... in which it stands as long as the canary is not in front of it. -/
theorem span_restamp {cfg : Cfg} {m : Mem} {hd newSize : Nat} (h8 : 8 ∣ b) (hlo : b + blockHdr ≤ hd)
    (hcan : cfg.canary = true → b + blockHdr ≤ sizeAdd (hd + hdrSize) newSize) :
    span (restamp cfg m hd newSize) b = span m b := by
  have hB : blockHdr = 32 := rfl
  refine congrArg blockSize ?_
  unfold restamp
  split
  · rename_i hc
    have := hcan hc
    rw [Mem.setByte_ne _ _ (by omega), Mem.set_ne _ _ (by omega)]
  · exact Mem.set_ne _ _ (by omega)

theorem Held.mpReallocInPlace (h : Held k H C hs as) (hp : (t, b) ∈ hs) {cfg : Cfg}
    {hd newSize : Nat} (hat : HeaderAt H b hd)
    (hin : H.mem (hd + 16) < newSize → HeaderIn H b hd newSize)
    (hsane : 184 + newSize + cfg.canary.toNat + 7 < sizeMod)
    (hcan : CanaryIn cfg ((SharedTlsf.mpReallocInPlace cfg H C P t b hd newSize).1.1,
      (SharedTlsf.mpReallocInPlace cfg H C P t b hd newSize).2) b hd newSize) :
    (∃ as', Held (k ∧ (H.mem (hd + 16) < newSize → cached C = []))
      (SharedTlsf.mpReallocInPlace cfg H C P t b hd newSize).1.1
      (SharedTlsf.mpReallocInPlace cfg H C P t b hd newSize).1.2 hs as') ∧
      Stays H (SharedTlsf.mpReallocInPlace cfg H C P t b hd newSize).1.1 (hs.erase (t, b)) := by
  unfold SharedTlsf.mpReallocInPlace at hcan ⊢
  by_cases hle : newSize ≤ H.mem (hd + 16)
  · rw [if_pos hle] at hcan ⊢
    have hp' : (t, b) ∈ hs ++ cached C := List.mem_append_left _ hp
    have hal := h.wf.aligned hp'
    obtain ⟨hd8, hlo, hhi⟩ := hat
    have hown : ∀ x, x < b + 32 ∨ b + span H.mem b ≤ x → restamp cfg H.mem hd newSize x = H.mem x :=
      fun x hx => restamp_outside hal.1 hal.2.2.1 hd8 hlo hhi (fun hc => by
        have hbyte := hcan hc rfl
        dsimp only at hbyte
        rw [span_restamp hal.1 hlo fun _ => hbyte.1] at hbyte
        exact hbyte) hx
    have hnd := (List.nodup_append.mp h.wf.handles).1
    refine ⟨⟨as, (h.wf.write hp' hown).mono And.left, h.tls, h.own⟩,
      h.wf.write_keeps hp' hown fun p hm => ?_⟩
    refine ⟨List.mem_append_left _ (List.mem_of_mem_erase hm), ?_⟩
    rintro rfl
    exact hnd.not_mem_erase hm
  · rw [if_neg hle] at hcan ⊢
    obtain ⟨⟨as', h'⟩, kp, -⟩ := h.mpRealloc hp (hin (by omega)) hsane hcan
    exact ⟨⟨as', h'.mono fun hk => ⟨hk.1, hk.2 (by omega)⟩⟩, kp⟩

theorem Held.mpReset (h : Held k H C hs as) (P : Nat) :
    (∃ as', Held (k ∧ (C.owner = P → cached C = [])) (mpResetTlsf H C P).1 (mpResetTlsf H C P).2
      (hs.filter fun p => (H.tp p.1).owner ≠ P) as') ∧
      Stays H (mpResetTlsf H C P).1 (hs.filter fun p => (H.tp p.1).owner ≠ P) := by
  obtain ⟨⟨⟨as₁, h₁⟩, kp, ha⟩, hnil, -⟩ := h.flushPool P
  have hsame : C.owner ≠ P → tlsCacheFlushPool H C P = (H, C) := fun e => if_neg e
  unfold mpResetTlsf
  simp only
  have hcached : ∀ p ∈ cached (tlsCacheFlushPool H C P).2,
      ((tlsCacheFlushPool H C P).1.tp p.1).owner ≠ P := by
    intro p hp
    by_cases e : C.owner = P
    · rw [hnil e] at hp; cases hp
    · rw [hsame e] at hp ⊢
      rw [h.own p hp]; exact e
  generalize tlsCacheFlushPool H C P = r at *
  obtain ⟨as₂, w, kp₂, ha₂⟩ := reseedAll_wf h₁.wf fun t ht => (mem_root.mp ht).1
  have hnot : ∀ p ∈ hs ++ cached r.2, (p.1 ∉ r.1.root P ↔ (r.1.tp p.1).owner ≠ P) := by
    intro p hp
    rw [mem_root]
    simp [h₁.wf.known p hp]
  have hc : (cached r.2).filter (fun p => p.1 ∉ r.1.root P) = cached r.2 := by
    refine List.filter_eq_self.mpr fun p hp => ?_
    simpa using (hnot p (List.mem_append_right _ hp)).mpr (hcached p hp)
  have hl : hs.filter (fun p => p.1 ∉ r.1.root P) = hs.filter fun p => (H.tp p.1).owner ≠ P := by
    refine List.filter_congr fun p hp => ?_
    have h1 := hnot p (List.mem_append_left _ hp)
    have h2 := (kp.arenas p.1 (h.wf.known p (List.mem_append_left _ hp))).2.2.2
    rw [h2] at h1
    simpa using not_iff_not.mp h1
  rw [List.filter_append, hc, hl] at w kp₂
  exact ⟨⟨as₂, h₁.change w (kp₂.mono fun p hp => List.mem_append_right _ hp)⟩,
    (kp.mono fun p hp => (List.mem_filter.mp hp).1).trans
      (kp₂.mono fun p hp => List.mem_append_left _ hp)⟩

end Held

/-! ## Steps and runs -/

section Run
variable {k : Prop} {cfg : Nat → Cfg} {s : Sys} {as : Nat → List Nat}

def Inv (s : Sys) : Prop := ∃ as, Held False s.heap s.tls s.live as

/-- Canary writes of grows stay inside their block. -/
def CanaryInside (cfg : Nat → Cfg) (s : Sys) : Op → Prop
  | .tlsfExpand P t b h newSize =>
    CanaryIn (cfg P) (tlsfTryInplaceExpand (cfg P) s.heap t b h newSize) b h newSize
  | .mpRealloc P t b h newSize =>
    CanaryIn (cfg P) ((mpReallocInPlace (cfg P) s.heap s.tls P t b h newSize).1.1,
      (mpReallocInPlace (cfg P) s.heap s.tls P t b h newSize).2) b h newSize
  | _ => True

/-- No request wraps around `size_t`, and none is out of the range of the bucket
search. -/
def NoWrap (cfg : Nat → Cfg) : Op → Prop
  | .tlsfAlloc P req _ _ => SaneRequest req (cfg P).canary.toNat
  | .mpAlloc P size _ _ _ => SaneRequest size (cfg P).canary.toNat
  | .tlsfExpand P _ _ _ newSize => 184 + newSize + (cfg P).canary.toNat + 7 < sizeMod
  | .mpRealloc P _ _ _ newSize => 184 + newSize + (cfg P).canary.toNat + 7 < sizeMod
  | _ => True

instance decCanaryInside (cfg : Nat → Cfg) (s : Sys) : ∀ l, Decidable (CanaryInside cfg s l)
  | .tlsfExpand .. => decCanaryIn ..
  | .mpRealloc .. => decCanaryIn ..
  | .addArena .. | .tlsfAlloc .. | .tlsfFree .. | .mpAlloc .. | .mpFree .. | .flushPool ..
  | .mpReset ..
  | .write .. => .isTrue trivial

instance decNoWrap (cfg : Nat → Cfg) : ∀ l, Decidable (NoWrap cfg l)
  | .tlsfAlloc P req _ _ => inferInstanceAs (Decidable (SaneRequest req (cfg P).canary.toNat))
  | .mpAlloc P size _ _ _ => inferInstanceAs (Decidable (SaneRequest size (cfg P).canary.toNat))
  | .tlsfExpand P _ _ _ newSize =>
    inferInstanceAs (Decidable (184 + newSize + (cfg P).canary.toNat + 7 < sizeMod))
  | .mpRealloc P _ _ _ newSize =>
    inferInstanceAs (Decidable (184 + newSize + (cfg P).canary.toNat + 7 < sizeMod))
  | .addArena .. | .tlsfFree .. | .mpFree .. | .flushPool .. | .mpReset .. | .write .. =>
    .isTrue trivial

theorem start_held (m : Mem) : ∃ as, Held k (start m).heap (start m).tls (start m).live as := by
  refine ⟨fun _ => [], ⟨⟨List.nodup_nil, nofun, nofun, nofun, nofun, List.nodup_nil, nofun, nofun⟩,
    ⟨fun i _ => rfl, fun i _ => Nat.zero_le _⟩, nofun⟩⟩

theorem Held.erase {H : Heap} {C : Tls} {hs : List (Nat × Nat)} {t b : Nat} (h : Held k H C hs as)
    (hp : (t, b) ∈ hs) : Held k H C ((t, b) :: hs.erase (t, b)) as :=
  ⟨h.wf.perm ((List.perm_cons_erase hp).append_right _), h.tls, h.own⟩

theorem Held.write {H : Heap} {C : Tls} {hs : List (Nat × Nat)} {t b a v : Nat}
    (h : Held k H C hs as) (hp : (t, b) ∈ hs) (ha : b + blockHdr ≤ a) (ha' : a < b + span H.mem b) :
    Held k { H with mem := H.mem.setByte a v } C hs as := by
  have hp' : (t, b) ∈ hs ++ cached C := List.mem_append_left _ hp
  have hal := h.wf.aligned hp'
  have hB : blockHdr = 32 := rfl
  refine ⟨h.wf.write hp' fun x hx => Mem.setByte_ne _ _ (by omega), h.tls, h.own⟩

/-- **One step.** -/
theorem step_inv {l : Op} (h : Inv s) (hpre : s.pre cfg l) (hc : CanaryInside cfg s l)
    (hn : NoWrap cfg l) : Inv (s.next cfg l) := by
  obtain ⟨as, h⟩ := h
  cases l with
  | addArena P size self =>
    obtain ⟨w, kp⟩ := addArena_wf h.wf hpre.1 hpre.2
    exact ⟨_, h.change w (kp.mono fun p hp => List.mem_append_right _ hp)⟩
  | tlsfAlloc P req os₀ os₁ => exact (h.alloc hpre.1 hn hpre.2).1
  | tlsfFree t b =>
    have hw : Wf False s.heap ((t, b) :: (s.live.erase (t, b) ++ cached s.tls)) as :=
      (h.erase hpre).wf
    obtain ⟨as', w, kp⟩ := free_wf hw
    exact ⟨as', (h.erase hpre).change w (kp.mono fun p hp => List.mem_append_right _ hp)⟩
  | tlsfExpand P t b hd newSize => exact (h.expand hpre.1 hpre.2 hn hc).1
  | mpAlloc P size os₀ os₁ arenaServes =>
    obtain ⟨⟨as', h'⟩, -⟩ := h.mpAlloc arenaServes hpre.1 hn.1 (fun _ => hn) hpre.2
    exact ⟨as', h'.mono False.elim⟩
  | mpFree t b usable =>
    obtain ⟨⟨as', h'⟩, -⟩ := (h.erase hpre).mpFree usable
    exact ⟨as', h'.mono False.elim⟩
  | mpRealloc P t b hd newSize =>
    have hn' : 184 + newSize + (cfg P).canary.toNat + 7 < sizeMod := hn
    have hc' : CanaryIn (cfg P) ((mpReallocInPlace (cfg P) s.heap s.tls P t b hd newSize).1.1,
      (mpReallocInPlace (cfg P) s.heap s.tls P t b hd newSize).2) b hd newSize := hc
    obtain ⟨⟨as', h'⟩, -⟩ := h.mpReallocInPlace hpre.2.1 hpre.2.2.1 hpre.2.2.2 hn' hc'
    exact ⟨as', h'.mono False.elim⟩
  | flushPool P =>
    obtain ⟨as', h'⟩ := (h.flushPool P).1.held
    exact ⟨as', h'.mono False.elim⟩
  | mpReset P =>
    obtain ⟨⟨as', h'⟩, -⟩ := h.mpReset P
    exact ⟨as', h'.mono False.elim⟩
  | write t b a v => exact ⟨as, h.write hpre.1 hpre.2.1 hpre.2.2⟩

/-- Every state of a run whose steps meet the conditions keeps the invariant. -/
theorem run_inv
    (hr : ((system cfg).guard fun s l => CanaryInside cfg s l ∧ NoWrap cfg l).Reachable s) :
    Inv s := by
  refine LTS.Inductive.reachable ⟨?_, ?_⟩ hr
  · rintro _ ⟨m, rfl⟩
    exact start_held m
  · rintro s l _ h ⟨⟨hpre, rfl⟩, hc, hn⟩
    exact step_inv h hpre hc hn

/-! ## The structural invariant -/

/-- Arena `t` is chained up to its sentinel by the blocks `as` (`walk`), each of
them is live, cached or FREE and only one of these (`one`), and the index over
the FREE ones is `L` (`idx`: list membership, links and both bitmap levels). -/
structure Structural (s : Sys) (t : Nat) (as : List Nat) (L : Nat → Nat → List Nat) : Prop where
  walk : Walk s.heap.mem 0 (s.heap.tp t).raw as (s.heap.tp t).sentinel
  one : ∀ b ∈ as,
    ((t, b) ∈ s.live ∧ (t, b) ∉ cached s.tls ∧ isFree s.heap.mem b = false) ∨
    ((t, b) ∉ s.live ∧ (t, b) ∈ cached s.tls ∧ isFree s.heap.mem b = false) ∨
    ((t, b) ∉ s.live ∧ (t, b) ∉ cached s.tls ∧ isFree s.heap.mem b = true)
  held : ∀ b, (t, b) ∈ s.live ++ cached s.tls → b ∈ as
  idx : Indexed s.heap.mem (s.heap.tp t) (fun b => b ∈ as ∧ isFree s.heap.mem b = true) L

theorem Held.structural (h : Held k s.heap s.tls s.live as) {t : Nat} (ht : t ∈ s.heap.arenas) :
    ∃ L, Structural s t (as t) L := by
  have hs := h.wf.sound t ht
  obtain ⟨L, hL⟩ := hs.idx
  refine ⟨L, hs.walk, fun b hb => ?_, fun b hb => ((h.wf.used t ht b).mpr hb).1, hL⟩
  have hu := h.wf.used t ht b
  have hnd := List.nodup_append.mp h.wf.handles
  rw [List.mem_append] at hu
  unfold Used at hu
  cases hf : isFree s.heap.mem b with
  | true =>
    have hno : ¬ ((t, b) ∈ s.live ∨ (t, b) ∈ cached s.tls) := fun hm => by
      have := (hu.mpr hm).2
      rw [hf] at this; cases this
    exact .inr (.inr ⟨fun h => hno (.inl h), fun h => hno (.inr h), rfl⟩)
  | false =>
    have hdis := hnd.2.2 (t, b)
    rcases hu.mp ⟨hb, hf⟩ with hl | hc
    · exact .inl ⟨hl, fun hc => hdis hl _ hc rfl, rfl⟩
    · exact .inr (.inl ⟨fun hl => hdis hl _ hc rfl, hc, rfl⟩)

/-- **The structural invariant of the shared TLSF over whole runs**: as long as
canary writes stay inside their block and no request wraps, every arena is
chained, partitioned and indexed, and no two live blocks overlap. -/
theorem tlsf_runs_sound
    (hr : ((system cfg).guard fun s l => CanaryInside cfg s l ∧ NoWrap cfg l).Reachable s) :
    (∀ t ∈ s.heap.arenas, ∃ as L, Structural s t as L) ∧
      s.live.Pairwise fun p q =>
        p.2 + span s.heap.mem p.2 ≤ q.2 ∨ q.2 + span s.heap.mem q.2 ≤ p.2 := by
  obtain ⟨as, h⟩ := run_inv hr
  refine ⟨fun t ht => ⟨as t, h.structural ht⟩, ?_⟩
  have hnd : s.live.Nodup := (List.nodup_append.mp h.wf.handles).1
  refine hnd.imp_of_mem fun hp hq hne => ?_
  exact h.wf.apart (List.mem_append_left _ hp) (List.mem_append_left _ hq) hne

/-- A pool without canary, zeroing or static buffer. -/
def plain : Nat → Cfg := fun _ => ⟨false, false, false⟩

def runFrom (cfg : Nat → Cfg) (l : List Op) : Sys := l.foldl (Sys.next cfg) (start fun _ => 0)

/-- Two blocks, the first one freed into the thread cache, and a request that
meets it there with another span. -/
def mismatchRun : List Op :=
  [.mpAlloc 1 1000 65536 0 false, .mpAlloc 1 1000 0 0 false, .mpFree 65536 88776 1000,
    .mpAlloc 1 1100 0 0 false]

theorem tlsf_runs_sound_mismatch :
    (∀ t ∈ (runFrom plain mismatchRun).heap.arenas, ∃ as L,
      Structural (runFrom plain mismatchRun) t as L) ∧
      (runFrom plain mismatchRun).live.Pairwise fun p q =>
        p.2 + span (runFrom plain mismatchRun).heap.mem p.2 ≤ q.2 ∨
        q.2 + span (runFrom plain mismatchRun).heap.mem q.2 ≤ p.2 :=
  tlsf_runs_sound
    (LTS.Reachable.run (.init ⟨fun _ => 0, rfl⟩) (by decide +kernel))

/-- `mp_realloc(ptr, (size_t)-184)`: the total wraps to 0, the block shrinks to its
`tlsf_block_t`, and the header fields written next are links of the block split
off behind it. -/
def wrapRun : List Op :=
  [.mpAlloc 1 1000 65536 0 false, .mpRealloc 1 65536 88776 (88776 + 32) (2 ^ 64 - 184)]

theorem tlsf_wrap_breaks :
    ((system plain).guard (CanaryInside plain)).Reachable (runFrom plain wrapRun) ∧
      65536 ∈ (runFrom plain wrapRun).heap.arenas ∧
      ¬ ∃ as L, Structural (runFrom plain wrapRun) 65536 as L := by
  have h1 : (runFrom plain wrapRun).heap.arenas = [65536] := by decide +kernel
  have h2 : span (runFrom plain wrapRun).heap.mem 88776 = 32 := by decide +kernel
  have h3 : prevPhysical (runFrom plain wrapRun).heap.mem (88776 + 32) ≠ 88776 := by decide +kernel
  have h4 : ((runFrom plain wrapRun).heap.tp 65536).raw = 88776 := by decide +kernel
  refine ⟨LTS.Reachable.run (.init ⟨fun _ => 0, rfl⟩) (by decide +kernel), by rw [h1]; simp, ?_⟩
  rintro ⟨as, L, h⟩
  have hw := h.walk
  rw [h4] at hw
  generalize (runFrom plain wrapRun).heap.mem = m at *
  rcases as with _ | ⟨a, as⟩
  · exact absurd hw.1 (by decide +kernel)
  · obtain ⟨rfl, -, -, -, hw⟩ := hw
    rw [h2] at hw
    exact h3 hw.entry

/-! ## Headers in place -/

theorem sane_of_tier {size : Nat} (c : Bool) (h : size ≤ 4194304) : SaneRequest size c.toNat := by
  have hc : c.toNat ≤ 1 := Bool.toNat_le c
  have h1 : 184 + size + c.toNat + 7 < sizeMod := by
    unfold sizeMod; omega
  refine ⟨h1, ?_⟩
  have := (totalNeeded_bounds h1).2
  omega

/-- What a grow leaves of a block whose header is in place. -/
structure Grown (c : Cfg) (m : Mem) (b newSize : Nat) : Prop where
  room : 184 + newSize + c.canary.toNat ≤ span m b
  requested : requestedSize m b = newSize
  usable : usableSize m b = span m b - (blockHdr + hdrSize)
  byte : sizeAdd (b + blockHdr + hdrSize) newSize = b + 184 + newSize

theorem expand_plain {H : Heap} {hs : List (Nat × Nat)} {t b newSize : Nat} {c : Cfg}
    (h : Wf k H hs as) (hp : (t, b) ∈ hs) (hsane : 184 + newSize + c.canary.toNat + 7 < sizeMod)
    (hgrown : (tlsfTryInplaceExpand c H t b (b + blockHdr) newSize).2 = true) :
    Grown c (tlsfTryInplaceExpand c H t b (b + blockHdr) newSize).1.mem b newSize := by
  obtain ⟨ht, hu⟩ := h.used_of hp
  cases hr : expandBlock H.mem (H.tp t) b (totalNeeded newSize c.canary.toNat) with
  | none =>
    have e : tlsfTryInplaceExpand c H t b (b + blockHdr) newSize = (H, false) := by
      unfold tlsfTryInplaceExpand; rw [hr]
    rw [e] at hgrown; cases hgrown
  | some r =>
    have hroom := (totalNeeded_bounds hsane).1
    obtain ⟨as', ho, hu', h1, -⟩ :=
      expand_spec (h.sound t ht) hu (le_totalNeeded ..) (totalNeeded_dvd ..) hr
    have w : Wf k (H.put t r) hs _ :=
      h.update ht id ho h.handles (fun _ _ => Iff.rfl) (iff_of_true hu' hp)
    have hal := w.aligned hp
    change 8 ∣ b ∧ 32 ≤ span r.1 b ∧ 8 ∣ span r.1 b ∧ _ ∧ _ ∧ b + span r.1 b + 32 ≤ _ ∧ _ at hal
    have hB : blockHdr = 32 := rfl
    have hH : hdrSize = 152 := rfl
    have e1 : sizeAdd (b + blockHdr + hdrSize) newSize = b + 184 + newSize := by
      rw [sizeAdd_of_lt (by omega)]; omega
    have e2 :
      sizeSub (sizeSub (span r.1 b) blockHdr) hdrSize = span r.1 b - (blockHdr + hdrSize) := by
      have e3 : sizeSub (span r.1 b) blockHdr = span r.1 b - blockHdr :=
        sizeSub_of_le (by omega) (by omega)
      rw [e3, sizeSub_of_le (by omega) (by omega)]
      omega
    rw [expand_eq hr, e1, e2]
    -- the canary byte is behind the header
    have hlow : ∀ x, x < b + 184 →
        (if c.canary = true then ((r.1.set (b + blockHdr + 8) newSize).set (b + blockHdr + 16)
            (span r.1 b - (blockHdr + hdrSize))).setByte (b + 184 + newSize) canaryByte
          else (r.1.set (b + blockHdr + 8) newSize).set (b + blockHdr + 16)
            (span r.1 b - (blockHdr + hdrSize))) x =
          ((r.1.set (b + blockHdr + 8) newSize).set (b + blockHdr + 16)
            (span r.1 b - (blockHdr + hdrSize))) x := by
      intro x hx
      split
      · exact Mem.setByte_ne _ _ (by omega)
      · rfl
    generalize (if c.canary = true then _ else _ : Mem) = m₁ at hlow ⊢
    have hsp : span m₁ b = span r.1 b := congrArg blockSize
      ((hlow b (by omega)).trans ((Mem.set_ne _ _ (by omega)).trans (Mem.set_ne _ _ (by omega))))
    refine ⟨?_, ?_, ?_, e1⟩
    · show _ ≤ span m₁ b
      omega
    · exact (hlow _ (by omega)).trans ((Mem.set_ne _ _ (by omega)).trans (Mem.set_self ..))
    · show m₁ _ = span m₁ b - _
      rw [hsp]
      exact (hlow _ (by omega)).trans (Mem.set_self ..)

/-- A grow of a block whose header is in place writes its canary inside it. -/
theorem canaryIn_plain {H : Heap} {hs : List (Nat × Nat)} {t b : Nat} {c : Cfg} (newSize : Nat)
    (h : Wf k H hs as) (hp : (t, b) ∈ hs) (hsane : 184 + newSize + c.canary.toNat + 7 < sizeMod) :
    CanaryIn c (tlsfTryInplaceExpand c H t b (b + blockHdr) newSize) b (b + blockHdr) newSize := by
  intro hc hgrown
  obtain ⟨h1, -, -, h4⟩ := expand_plain h hp hsane hgrown
  have hc1 : c.canary.toNat = 1 := by rw [hc]; rfl
  have hB : blockHdr = 32 := rfl
  rw [h4]
  omega

/-- Both for the grow of `mp_realloc`. -/
theorem Held.realloc_plain {H : Heap} {C : Tls} {hs : List (Nat × Nat)}
    {P t b newSize : Nat} {c : Cfg} (h : Held k H C hs as) (hp : (t, b) ∈ hs)
    (hsane : 184 + newSize + c.canary.toNat + 7 < sizeMod) :
    CanaryIn c ((mpReallocTlsf c H C P t b (b + blockHdr) newSize).1.1,
        (mpReallocTlsf c H C P t b (b + blockHdr) newSize).2) b (b + blockHdr) newSize ∧
      ((mpReallocTlsf c H C P t b (b + blockHdr) newSize).2 = true →
        Grown c (mpReallocTlsf c H C P t b (b + blockHdr) newSize).1.1.mem b newSize) := by
  obtain ⟨⟨⟨as₁, h₁⟩, -, -⟩, -⟩ := h.validateOwner P
  unfold mpReallocTlsf
  generalize tlsCacheValidateOwner H C P = r at *
  obtain ⟨⟨⟨as₂, h₂⟩, -, -⟩, -⟩ := h₁.flush
  have hc := canaryIn_plain newSize h₂.wf (List.mem_append_left _ hp) hsane
  have hg := expand_plain h₂.wf (List.mem_append_left _ hp) hsane
  dsimp only
  generalize tlsfTryInplaceExpand c (flushCache r.1 r.2).1 t b (b + blockHdr) newSize = x at *
  exact ⟨hc, hg⟩

end Run

end Cmem.L2.SharedTlsf

import Cmem.L2Tlsf.Run

/-!
# Whole calls on the shared tier

The operations of `Run` take a header by its fields. Here a call reads the header
back from memory: `mp_free` gets its cache bucket from the `usable_size` it finds
there, and `mp_realloc` is the whole function, from the block that is large enough
to the copy into a new one. A program may write the payload of its blocks, not
their headers.

`Stamp k m b` is what the header of a live block says about its span, and
`CallInv f k s others` that it holds of all live blocks of a sound heap; `others` are
blocks that somebody else holds. `call_inv` is one call. With `k` a header gives
the span itself, which needs of an allocation that it cuts the block it finds or
takes one that fits (`NoSlack`). With `f` the boundary tags are right and no free
neighbours are left apart, which needs of a call that it puts no cached block back
(`NoReinsert`).

`cache_stack` is the thread cache over whole runs, `tlsf_coalesced` the completeness
of coalescing.
-/
namespace Cmem.L2.SharedTlsf

def byteAt (m : Mem) (a : Nat) : Nat := m (a / 8 * 8) / 256 ^ (a % 8) % 256

/-- `memcpy(dst, src, n)` -/
def copyBytes (m : Mem) (dst src : Nat) : Nat → Mem
  | 0 => m
  | n + 1 => (copyBytes m dst src n).setByte (dst + n) (byteAt (copyBytes m dst src n) (src + n))

/-- mirrors `mp_free`, src/src/cmem_alloc.c:1374-1402, on a block of the shared tier -/
def Sys.mpFree (s : Sys) (t b : Nat) : Sys :=
  let r := mpFreeTlsf s.heap s.tls t b (usableSize s.heap.mem b)
  ⟨r.1, r.2, s.live.erase (t, b)⟩

/-- The end of `mp_realloc`, src/src/cmem_alloc.c:1543-1548: `Q` is the pool or, in
multi-arena mode, its child bound to the thread. `elsewhere`: if the cache has no block
for it, the new one comes from the thread's own arena. -/
def Sys.move (cfg : Nat → Cfg) (s : Sys) (Q t b newSize os₀ os₁ : Nat) (elsewhere : Bool) : Sys :=
  let q := mpAllocTlsf (cfg Q) s.heap s.tls Q newSize os₀ os₁ elsewhere
  match q.2 with
  | some p =>
    let m :=
      copyBytes q.1.1.mem (p.2 + blockHdr + hdrSize) (b + blockHdr + hdrSize)
        (requestedSize q.1.1.mem b)
    Sys.mpFree ⟨{ q.1.1 with mem := m }, q.1.2, p :: s.live⟩ t b
  | none => if elsewhere then Sys.mpFree ⟨q.1.1, q.1.2, s.live⟩ t b else ⟨q.1.1, q.1.2, s.live⟩

/-- mirrors `mp_realloc`, src/src/cmem_alloc.c:1411-1549, on a block of the shared tier
and for a size that is not 0 -/
def Sys.mpRealloc (cfg : Nat → Cfg) (s : Sys) (P Q t b newSize os₀ os₁ : Nat)
    (elsewhere : Bool) : Sys :=
  if newSize ≤ usableSize s.heap.mem b then
    { s with heap := { s.heap with mem := restamp (cfg P) s.heap.mem (b + blockHdr) newSize } }
  else
    let r := mpReallocTlsf (cfg P) s.heap s.tls P t b (b + blockHdr) newSize
    if r.2 then ⟨r.1.1, r.1.2, s.live⟩
    else Sys.move cfg ⟨r.1.1, r.1.2, s.live⟩ Q t b newSize os₀ os₁ elsewhere

/-- `expand`: a new arena (`mp_create`, `mp_expand_pool`). `batch`: one element of
`mp_alloc_batch`, which does not look into the cache. `switch` and `flush`: what a call
that concerns another tier does to the cache. -/
inductive TierCall where
  | expand (P size self : Nat)
  | alloc (P size os₀ os₁ : Nat) (elsewhere : Bool)
  | batch (P size os₀ os₁ : Nat)
  | free (t b : Nat)
  | realloc (P Q t b newSize os₀ os₁ : Nat) (elsewhere : Bool)
  | reset (P : Nat)
  | switch (P : Nat)
  | flush (P : Nat)
  | write (t b a v : Nat)

def Sys.callPre (cfg : Nat → Cfg) (s : Sys) : TierCall → Prop
  | .expand P size self => P ≠ 0 ∧ Fresh s.heap size self
  | .alloc P size os₀ os₁ _ =>
    P ≠ 0 ∧ FreshPair s.heap P (totalNeeded size (cfg P).canary.toNat) os₀ os₁
  | .batch P size os₀ os₁ =>
    P ≠ 0 ∧ FreshPair s.heap P (totalNeeded size (cfg P).canary.toNat) os₀ os₁
  | .free t b => (t, b) ∈ s.live
  | .realloc P Q t b newSize os₀ os₁ _ => P ≠ 0 ∧ Q ≠ 0 ∧ (t, b) ∈ s.live ∧
      FreshPair s.heap Q (totalNeeded newSize (cfg Q).canary.toNat) os₀ os₁
  | .reset P | .switch P | .flush P => P ≠ 0
  | .write t b a _ => (t, b) ∈ s.live ∧ b + blockHdr + hdrSize ≤ a ∧ a < b + span s.heap.mem b

instance decCallPre (cfg : Nat → Cfg) (s : Sys) : ∀ l, Decidable (s.callPre cfg l)
  | .expand P size self => inferInstanceAs (Decidable (P ≠ 0 ∧ Fresh s.heap size self))
  | .alloc P size os₀ os₁ _ | .batch P size os₀ os₁ =>
    inferInstanceAs (Decidable
      (P ≠ 0 ∧ FreshPair s.heap P (totalNeeded size (cfg P).canary.toNat) os₀ os₁))
  | .free t b => inferInstanceAs (Decidable ((t, b) ∈ s.live))
  | .realloc P Q t b newSize os₀ os₁ _ =>
    inferInstanceAs (Decidable (P ≠ 0 ∧ Q ≠ 0 ∧ (t, b) ∈ s.live ∧
      FreshPair s.heap Q (totalNeeded newSize (cfg Q).canary.toNat) os₀ os₁))
  | .reset P | .switch P | .flush P => inferInstanceAs (Decidable (P ≠ 0))
  | .write t b a _ => inferInstanceAs (Decidable ((t, b) ∈ s.live ∧ b + blockHdr + hdrSize ≤ a ∧
      a < b + span s.heap.mem b))

def Sys.call (cfg : Nat → Cfg) (s : Sys) : TierCall → Sys
  | .expand P size self => { s with heap := s.heap.addArena P size self }
  | .alloc P size os₀ os₁ elsewhere =>
    let r := mpAllocTlsf (cfg P) s.heap s.tls P size os₀ os₁ elsewhere
    ⟨r.1.1, r.1.2, consOpt r.2 s.live⟩
  | .batch P size os₀ os₁ =>
    let q := tlsCacheValidateOwner s.heap s.tls P
    let r := tlsfAlloc (cfg P) q.1 P size os₀ os₁
    ⟨r.1, q.2, consOpt r.2 s.live⟩
  | .free t b => s.mpFree t b
  | .realloc P Q t b newSize os₀ os₁ elsewhere => s.mpRealloc cfg P Q t b newSize os₀ os₁ elsewhere
  | .reset P =>
    let r := mpResetTlsf s.heap s.tls P
    ⟨r.1, r.2, s.live.filter fun p => (s.heap.tp p.1).owner ≠ P⟩
  | .switch P =>
    let r := tlsCacheValidateOwner s.heap s.tls P
    ⟨r.1, r.2, s.live⟩
  | .flush P =>
    let r := tlsCacheFlushPool s.heap s.tls P
    ⟨r.1, r.2, s.live⟩
  | .write _ _ a v => { s with heap := { s.heap with mem := s.heap.mem.setByte a v } }

/-- The runs of one thread. -/
def calls (cfg : Nat → Cfg) : LTS Sys TierCall :=
  .det (fun s => ∃ m, s = start m) (Sys.callPre cfg) (Sys.call cfg)

/-- Sizes of the tier: the totals do not wrap, and what the tier itself has to find is in the
range of the bucket search, as is every size up to `TLSF_MAX_SIZE` (`sane_of_tier`). -/
def Sized (cfg : Nat → Cfg) : TierCall → Prop
  | .alloc P size _ _ _ | .batch P size _ _ => SaneRequest size (cfg P).canary.toNat
  | .realloc P Q _ _ newSize _ _ elsewhere => 184 + newSize + (cfg P).canary.toNat + 7 < sizeMod ∧
    184 + newSize + (cfg Q).canary.toNat + 7 < sizeMod ∧
    (elsewhere = false → SaneRequest newSize (cfg Q).canary.toNat)
  | _ => True

/-- The canary byte of a `mp_realloc` that leaves the block as it is lands in that block. -/
def CanaryOwn (cfg : Nat → Cfg) (s : Sys) : TierCall → Prop
  | .realloc P _ _ b newSize _ _ _ => (cfg P).canary = true → newSize ≤ usableSize s.heap.mem b →
      184 + newSize < span s.heap.mem b
  | _ => True

/-- A block taken from an arena is cut, or has exactly the size that is needed. -/
def NoSlack (cfg : Nat → Cfg) (s : Sys) : TierCall → Prop
  | .alloc P size os₀ os₁ elsewhere => MissSplits (cfg P) s.heap s.tls P size os₀ os₁ elsewhere
  | .batch P size os₀ os₁ =>
    AllocSplits (cfg P) (tlsCacheValidateOwner s.heap s.tls P).1 P size os₀ os₁
  | .realloc P Q t b newSize os₀ os₁ elsewhere =>
    let r := mpReallocTlsf (cfg P) s.heap s.tls P t b (b + blockHdr) newSize
    usableSize s.heap.mem b < newSize → r.2 = false →
      MissSplits (cfg Q) r.1.1 r.1.2 Q newSize os₀ os₁ elsewhere
  | _ => True

/-- The call puts no cached block back into its arena: no cache hit of another span, no
change of the owning pool, and no flush while the cache holds blocks. -/
def NoReinsert (cfg : Nat → Cfg) (s : Sys) : TierCall → Prop
  | .alloc P size _ _ _ =>
    (s.tls.owner ≠ P → cached s.tls = []) ∧ (s.tls.owner = P → HitFits (cfg P) s.heap s.tls size)
  | .batch P _ _ _ | .switch P => s.tls.owner ≠ P → cached s.tls = []
  | .free t _ => s.tls.owner ≠ (s.heap.tp t).owner → cached s.tls = []
  | .realloc _ _ _ b newSize _ _ _ => usableSize s.heap.mem b < newSize → cached s.tls = []
  | .reset P | .flush P => s.tls.owner = P → cached s.tls = []
  | .expand .. | .write .. => True

instance decSized (cfg : Nat → Cfg) : ∀ l, Decidable (Sized cfg l)
  | .alloc P size _ _ _ | .batch P size _ _ =>
    inferInstanceAs (Decidable (SaneRequest size (cfg P).canary.toNat))
  | .realloc P Q _ _ newSize _ _ elsewhere => inferInstanceAs (Decidable
      (184 + newSize + (cfg P).canary.toNat + 7 < sizeMod ∧
        184 + newSize + (cfg Q).canary.toNat + 7 < sizeMod ∧
        (elsewhere = false → SaneRequest newSize (cfg Q).canary.toNat)))
  | .expand .. | .free .. | .reset .. | .switch .. | .flush .. | .write .. => .isTrue trivial

instance decCanaryOwn (cfg : Nat → Cfg) (s : Sys) : ∀ l, Decidable (CanaryOwn cfg s l)
  | .realloc P _ _ b newSize _ _ _ => inferInstanceAs (Decidable ((cfg P).canary = true →
      newSize ≤ usableSize s.heap.mem b → 184 + newSize < span s.heap.mem b))
  | .expand .. | .alloc .. | .batch .. | .free .. | .reset .. | .switch .. | .flush ..
  | .write .. => .isTrue trivial

instance decNoSlack (cfg : Nat → Cfg) (s : Sys) : ∀ l, Decidable (NoSlack cfg s l)
  | .alloc P size os₀ os₁ elsewhere =>
    inferInstanceAs (Decidable (MissSplits (cfg P) s.heap s.tls P size os₀ os₁ elsewhere))
  | .batch P size os₀ os₁ =>
    inferInstanceAs (Decidable
      (AllocSplits (cfg P) (tlsCacheValidateOwner s.heap s.tls P).1 P size os₀ os₁))
  | .realloc P Q t b newSize os₀ os₁ elsewhere =>
    inferInstanceAs (Decidable (usableSize s.heap.mem b < newSize →
      (mpReallocTlsf (cfg P) s.heap s.tls P t b (b + blockHdr) newSize).2 = false →
      MissSplits (cfg Q) (mpReallocTlsf (cfg P) s.heap s.tls P t b (b + blockHdr) newSize).1.1
        (mpReallocTlsf (cfg P) s.heap s.tls P t b (b + blockHdr) newSize).1.2 Q newSize os₀ os₁
          elsewhere))
  | .expand .. | .free .. | .reset .. | .switch .. | .flush .. | .write .. => .isTrue trivial

instance decNoReinsert (cfg : Nat → Cfg) (s : Sys) : ∀ l, Decidable (NoReinsert cfg s l)
  | .alloc P size _ _ _ => inferInstanceAs (Decidable ((s.tls.owner ≠ P → cached s.tls = []) ∧
      (s.tls.owner = P → HitFits (cfg P) s.heap s.tls size)))
  | .batch P _ _ _ | .switch P => inferInstanceAs (Decidable (s.tls.owner ≠ P → cached s.tls = []))
  | .free t _ => inferInstanceAs (Decidable (s.tls.owner ≠ (s.heap.tp t).owner → cached s.tls = []))
  | .realloc _ _ _ b newSize _ _ _ =>
    inferInstanceAs (Decidable (usableSize s.heap.mem b < newSize → cached s.tls = []))
  | .reset P | .flush P => inferInstanceAs (Decidable (s.tls.owner = P → cached s.tls = []))
  | .expand .. | .write .. => .isTrue trivial

/-! ## The header of a live block -/

structure CallInv (f k : Prop) (s : Sys) (others : List (Nat × Nat)) : Prop where
  held : ∃ as, Held f s.heap s.tls (s.live ++ others) as
  stamp : ∀ p ∈ s.live, Stamp k s.heap.mem p.2

section
variable {f k p₀ : Prop} {cfg : Nat → Cfg} {c : Cfg} {s : Sys} {H H' : Heap} {C : Tls} {m m' : Mem}
  {hs others : List (Nat × Nat)} {as : Nat → List Nat} {P Q t b newSize os₀ os₁ : Nat}
    {elsewhere : Bool}

/-- A handle that stays where it is keeps its header. -/
theorem Stays.stamp {p : Nat × Nat} (kp : Stays H H' hs) (h : Stamp k H.mem p.2) (hp : p ∈ hs) :
    Stamp k H'.mem p.2 := by
  obtain ⟨h1, h2⟩ := kp.words p hp
  have hroom := h.room
  unfold blockHdr hdrSize at hroom
  refine h.congr ?_ ?_ h1
  · unfold requestedSize blockHdr
    rw [Nat.add_assoc]
    exact h2 _ (by omega) (by omega)
  · unfold usableSize blockHdr
    rw [Nat.add_assoc]
    exact h2 _ (by omega) (by omega)

theorem Stamped.stamp {req total : Nat} (h : Stamped m b req total p₀) (hroom : 184 + req ≤ total)
    (hle : total ≤ span m b) (hk : k → p₀) : Stamp k m b := by
  obtain ⟨h1, h2, h3⟩ := h
  unfold blockHdr hdrSize at h2
  refine ⟨by omega, ?_, fun hk' => ?_⟩
  · unfold blockHdr hdrSize; omega
  · have := h3 (hk hk')
    unfold blockHdr hdrSize; omega

theorem Grown.stamp (h : Grown c m b newSize) : Stamp k m b := by
  obtain ⟨h1, h2, h3, -⟩ := h
  unfold blockHdr hdrSize at h3
  refine ⟨by omega, ?_, fun _ => ?_⟩ <;> unfold blockHdr hdrSize <;> omega

/-! ## Writes -/

theorem copyBytes_of_outside {dst src n x : Nat} (lo hi : Nat) (hlo : 8 ∣ lo) (hhi : 8 ∣ hi)
    (ha : lo ≤ dst) (hn : dst + n ≤ hi) (hx : x < lo ∨ hi ≤ x) : copyBytes m dst src n x = m x := by
  induction n with
  | zero => rfl
  | succ n ih => exact (Mem.setByte_ne _ _ (by omega)).trans (ih (by omega))

/-- Writes into one live block that leave its header right. -/
theorem CallInv.write (h : CallInv f k s others) (hp : (t, b) ∈ s.live)
    (hw : ∀ x, x < b + 32 ∨ b + span s.heap.mem b ≤ x → m' x = s.heap.mem x) (hst : Stamp k m' b) :
    CallInv f k { s with heap := { s.heap with mem := m' } } others ∧
      Stays s.heap { s.heap with mem := m' } others := by
  obtain ⟨as, held⟩ := h.held
  have hp' : (t, b) ∈ s.live ++ others ++ cached s.tls := by simp [hp]
  have w := held.wf.write hp' hw
  have hnd := List.nodup_append.mp (List.nodup_append.mp held.wf.handles).1
  refine ⟨⟨⟨as, w, held.tls, held.own⟩, fun p hl => ?_⟩, held.wf.write_keeps hp' hw fun p hm => ?_⟩
  · by_cases e : p = (t, b)
    · rw [e]; exact hst
    · have kp : Stays s.heap { s.heap with mem := m' } [p] :=
        held.wf.write_keeps hp' hw fun q hq => by
        rw [List.mem_singleton.mp hq]
        exact ⟨by simp [hl], e⟩
      exact kp.stamp (h.stamp p hl) List.mem_cons_self
  · refine ⟨by simp [hm], ?_⟩
    rintro rfl
    exact hnd.2.2 _ hp _ hm rfl

/-- ... behind the header. -/
theorem CallInv.payload (h : CallInv f k s others) (hp : (t, b) ∈ s.live)
    (hw : ∀ x, x < b + 184 ∨ b + span s.heap.mem b ≤ x → m' x = s.heap.mem x) :
    CallInv f k { s with heap := { s.heap with mem := m' } } others ∧
      Stays s.heap { s.heap with mem := m' } others := by
  have hst : Stamp k s.heap.mem b := h.stamp _ hp
  refine h.write hp (fun x hx => hw x (by omega)) (hst.congr ?_ ?_ ?_)
  · unfold requestedSize blockHdr; exact hw _ (by omega)
  · unfold usableSize blockHdr; exact hw _ (by omega)
  · exact congrArg blockSize (hw b (by omega))

theorem CallInv.aligned (h : CallInv f k s others) (hp : (t, b) ∈ s.live) :
    8 ∣ b ∧ 8 ∣ span s.heap.mem b ∧ span s.heap.mem b < 2 ^ 30 ∧
    b + span s.heap.mem b < sizeMod := by
  obtain ⟨as, held⟩ := h.held
  have := held.wf.aligned (t := t) (b := b) (by simp [hp])
  exact ⟨this.1, this.2.2.1, this.2.2.2.1, by omega⟩

/-- A block that is large enough. -/
theorem restamp_spec (h8 : 8 ∣ b) (hs8 : 8 ∣ span m b) (hmod : b + span m b < sizeMod)
    (hst : Stamp k m b) (hle : newSize ≤ usableSize m b)
    (hc : c.canary = true → 184 + newSize < span m b) :
    (∀ x, x < b + 32 ∨ b + span m b ≤ x → restamp c m (b + blockHdr) newSize x = m x) ∧
      Stamp k (restamp c m (b + blockHdr) newSize) b := by
  obtain ⟨h1, h2, h3⟩ := hst
  have hB : blockHdr = 32 := rfl
  have hH : hdrSize = 152 := rfl
  have e : sizeAdd (b + blockHdr + hdrSize) newSize = b + 184 + newSize := by
    rw [sizeAdd_of_lt (by omega)]; omega
  have hset : ∀ x, x < b + 184 ∨ b + span m b ≤ x →
      restamp c m (b + blockHdr) newSize x = m.set (b + blockHdr + 8) newSize x := by
    intro x hx
    unfold restamp
    rw [e]
    split
    · have := hc (by assumption)
      exact Mem.setByte_ne _ _ (by omega)
    · rfl
  have e1 : requestedSize (restamp c m (b + blockHdr) newSize) b = newSize :=
    (hset _ (by omega)).trans (Mem.set_self ..)
  have e2 : usableSize (restamp c m (b + blockHdr) newSize) b = usableSize m b :=
    (hset _ (by omega)).trans (Mem.set_ne _ _ (by omega))
  have e3 : span (restamp c m (b + blockHdr) newSize) b = span m b :=
    congrArg blockSize ((hset _ (by omega)).trans (Mem.set_ne _ _ (by omega)))
  refine ⟨fun x hx => (hset x (by omega)).trans (Mem.set_ne _ _ (by omega)), by omega, by omega,
    fun hk => ?_⟩
  have := h3 hk
  omega

theorem CallInv.restamp (h : CallInv f k s others) (hp : (t, b) ∈ s.live)
    (hle : newSize ≤ usableSize s.heap.mem b)
    (hc : c.canary = true → 184 + newSize < span s.heap.mem b) :
    CallInv f k
      { s with
        heap :=
          { s.heap with mem := SharedTlsf.restamp c s.heap.mem (b + blockHdr) newSize } } others ∧
    Stays s.heap
      { s.heap with mem := SharedTlsf.restamp c s.heap.mem (b + blockHdr) newSize } others := by
  obtain ⟨h8, hs8, -, hmod⟩ := h.aligned hp
  obtain ⟨hw, hst⟩ := restamp_spec h8 hs8 hmod (h.stamp _ hp) hle hc
  exact h.write hp hw hst

/-! ## Calls -/

theorem CallInv.free (h : CallInv f k s others) (hp : (t, b) ∈ s.live)
    (hr : f → s.tls.owner ≠ (s.heap.tp t).owner → cached s.tls = []) :
    CallInv f k (s.mpFree t b) others ∧ Stays s.heap (s.mpFree t b).heap others := by
  obtain ⟨as, held⟩ := h.held
  have he := held.erase (List.mem_append_left others hp)
  rw [List.erase_append_left _ hp] at he
  obtain ⟨⟨as', held'⟩, kp⟩ := he.mpFree (usableSize s.heap.mem b)
  refine ⟨⟨⟨as', held'.mono fun hf => ⟨hf, hr hf⟩⟩, fun p hm => ?_⟩,
    kp.mono fun p => List.mem_append_right _⟩
  exact kp.stamp (h.stamp p (List.mem_of_mem_erase hm)) (List.mem_append_left _ hm)

/-- A new handle joins the live ones. -/
theorem CallInv.join (h : CallInv f k s others) {o : Option (Nat × Nat)} {size : Nat}
    (hsane : 184 + size + c.canary.toNat + 7 < sizeMod)
    (held : ∃ as, Held f H C (consOpt o (s.live ++ others)) as)
    (kp : Stays s.heap H (s.live ++ others))
    (hnew : ∀ p, o = some p → totalNeeded size c.canary.toNat ≤ span H.mem p.2 ∧
      Stamped H.mem p.2 size (totalNeeded size c.canary.toNat) p₀) (hk : k → p₀) :
    CallInv f k ⟨H, C, consOpt o s.live⟩ others ∧ ∀ p, o = some p →
    184 + size ≤ span H.mem p.2 := by
  have hroom := (totalNeeded_bounds hsane).1
  have hold : ∀ p ∈ s.live, Stamp k H.mem p.2 := fun p hp =>
    kp.stamp (h.stamp p hp) (List.mem_append_left _ hp)
  rw [consOpt_append] at held
  refine ⟨⟨held, fun p hp => ?_⟩, fun p hp => ?_⟩
  · cases o with
    | none => exact hold p hp
    | some q =>
      rcases List.mem_cons.mp hp with rfl | hp
      · obtain ⟨h1, h2⟩ := hnew p rfl
        exact h2.stamp (by omega) h1 hk
      · exact hold p hp
  · have := (hnew p hp).1
    omega

theorem CallInv.alloc (h : CallInv f k s others) {size : Nat} (elsewhere : Bool) (hP : P ≠ 0)
    (hw : 184 + size + c.canary.toNat + 7 < sizeMod)
    (hsane : elsewhere = false → SaneRequest size c.canary.toNat)
    (hf : FreshPair s.heap P (totalNeeded size c.canary.toNat) os₀ os₁)
    (hk : k → MissSplits c s.heap s.tls P size os₀ os₁ elsewhere)
    (hr : f →
    (s.tls.owner ≠ P → cached s.tls = []) ∧ (s.tls.owner = P → HitFits c s.heap s.tls size)) :
    (CallInv f k ⟨(mpAllocTlsf c s.heap s.tls P size os₀ os₁ elsewhere).1.1,
        (mpAllocTlsf c s.heap s.tls P size os₀ os₁ elsewhere).1.2,
        consOpt (mpAllocTlsf c s.heap s.tls P size os₀ os₁ elsewhere).2 s.live⟩ others ∧
      ∀ p, (mpAllocTlsf c s.heap s.tls P size os₀ os₁ elsewhere).2 = some p →
        184 + size ≤ span (mpAllocTlsf c s.heap s.tls P size os₀ os₁ elsewhere).1.1.mem p.2) ∧
      Stays s.heap (mpAllocTlsf c s.heap s.tls P size os₀ os₁ elsewhere).1.1
        (s.live ++ others) := by
  obtain ⟨as, held⟩ := h.held
  obtain ⟨⟨as', held'⟩, kp, hnew⟩ := held.mpAlloc elsewhere hP hw hsane hf
  exact ⟨h.join hw ⟨as', held'.mono fun hf => ⟨hf, hr hf⟩⟩ kp hnew hk, kp⟩

/-- An empty cache stays empty. -/
theorem Held.mpAlloc_cached (h : Held f H C hs as) (cfg : Cfg) (P size os₀ os₁ : Nat)
    (elsewhere : Bool) (hnil : cached C = []) :
    cached (mpAllocTlsf cfg H C P size os₀ os₁ elsewhere).1.2 = [] := by
  obtain ⟨-, -, hsame, hgone⟩ := h.validateOwner P
  have hv : cached (tlsCacheValidateOwner H C P).2 = [] := by
    by_cases e : C.owner = P
    · rw [hsame e]; exact hnil
    · exact hgone e
  rw [mpAllocTlsf_eq]
  unfold cacheLookup
  generalize tlsCacheValidateOwner H C P = r at hv
  have hmiss : cached (afterLookup cfg P size os₀ os₁ elsewhere (r, none)).1.2 = [] := by
    unfold afterLookup
    dsimp only
    unfold SharedTlsf.allocMiss
    split <;> exact hv
  cases e : cacheIdx (totalNeeded size cfg.canary.toNat) with
  | none => exact hmiss
  | some i =>
    dsimp only
    rw [if_pos (counts_of_cached_nil hv (cacheIdx_lt e))]
    exact hmiss

theorem hitFits_nil {cfg : Cfg} {size : Nat} (hnil : cached C = []) : HitFits cfg H C size :=
  fun _ hi h0 => absurd (counts_of_cached_nil hnil (cacheIdx_lt hi)) h0

/-- The copy into a new block. -/
theorem CallInv.move (h : CallInv f k s others) (elsewhere : Bool) (hp : (t, b) ∈ s.live)
    (hQ : Q ≠ 0) (hwrap : 184 + newSize + (cfg Q).canary.toNat + 7 < sizeMod)
    (hsane : elsewhere = false → SaneRequest newSize (cfg Q).canary.toNat)
    (hf : FreshPair s.heap Q (totalNeeded newSize (cfg Q).canary.toNat) os₀ os₁)
    (hk : k → MissSplits (cfg Q) s.heap s.tls Q newSize os₀ os₁ elsewhere)
    (hr : f → cached s.tls = []) (hlt : usableSize s.heap.mem b < newSize) :
    CallInv f k (s.move cfg Q t b newSize os₀ os₁ elsewhere) others ∧
      Stays s.heap (s.move cfg Q t b newSize os₀ os₁ elsewhere).heap others := by
  obtain ⟨⟨h₁, hroom⟩, kp⟩ :=
    h.alloc elsewhere hQ hwrap hsane hf hk fun h => ⟨fun _ => hr h, fun _ => hitFits_nil (hr h)⟩
  have hnil : f → cached (mpAllocTlsf (cfg Q) s.heap s.tls Q newSize os₀ os₁ elsewhere).1.2 = [] :=
    fun hf' => by
    obtain ⟨as, held⟩ := h.held
    exact held.mpAlloc_cached (cfg Q) Q newSize os₀ os₁ elsewhere (hr hf')
  have hst : Stamp k s.heap.mem b := h.stamp _ hp
  have hkeep := kp.words _ (List.mem_append_left others hp)
  have kp := kp.mono fun p (hm : p ∈ others) => List.mem_append_right s.live hm
  unfold Sys.move
  generalize mpAllocTlsf (cfg Q) s.heap s.tls Q newSize os₀ os₁ elsewhere = q at *
  obtain ⟨r, o⟩ := q
  cases o with
  | none =>
    dsimp only [consOpt] at h₁ ⊢
    split
    · obtain ⟨h₂, kp₂⟩ := h₁.free hp fun hf _ => hnil hf
      exact ⟨h₂, kp.trans kp₂⟩
    · exact ⟨h₁, kp⟩
  | some p =>
    dsimp only [consOpt] at h₁ hkeep ⊢
    have hroom := hroom p rfl
    -- what is copied is what was asked for last
    have hreq : requestedSize r.1.mem b = requestedSize s.heap.mem b := by
      have := hst.room
      unfold blockHdr hdrSize at this
      unfold requestedSize blockHdr
      rw [Nat.add_assoc]
      exact hkeep.2 _ (by omega) (by omega)
    have hle := hst.fits
    obtain ⟨h8, hs8, -⟩ := h₁.aligned (t := p.1) (b := p.2) List.mem_cons_self
    have hB : blockHdr = 32 := rfl
    have hH : hdrSize = 152 := rfl
    dsimp only at hs8 hroom
    have hcopy : ∀ x, x < p.2 + 184 ∨ p.2 + span r.1.mem p.2 ≤ x →
        copyBytes r.1.mem (p.2 + blockHdr + hdrSize) (b + blockHdr + hdrSize)
          (requestedSize r.1.mem b) x = r.1.mem x :=
      fun x hx =>
        copyBytes_of_outside (p.2 + 184) (p.2 + span r.1.mem p.2) (by omega) (by omega) (by omega)
          (by omega) hx
    obtain ⟨h₂, kp₂⟩ := h₁.payload (t := p.1) (b := p.2) List.mem_cons_self hcopy
    obtain ⟨h₃, kp₃⟩ := h₂.free (List.mem_cons_of_mem p hp) fun hf _ => hnil hf
    exact ⟨h₃, kp.trans (kp₂.trans kp₃)⟩

theorem CallInv.realloc (h : CallInv f k s others) (hp : (t, b) ∈ s.live) (hQ : Q ≠ 0)
    (hsized : Sized cfg (.realloc P Q t b newSize os₀ os₁ elsewhere))
    (hf : FreshPair s.heap Q (totalNeeded newSize (cfg Q).canary.toNat) os₀ os₁)
    (hc : CanaryOwn cfg s (.realloc P Q t b newSize os₀ os₁ elsewhere))
    (hk : k → NoSlack cfg s (.realloc P Q t b newSize os₀ os₁ elsewhere))
    (hr : f → NoReinsert cfg s (.realloc P Q t b newSize os₀ os₁ elsewhere)) :
    CallInv f k (s.mpRealloc cfg P Q t b newSize os₀ os₁ elsewhere) others ∧
      Stays s.heap (s.mpRealloc cfg P Q t b newSize os₀ os₁ elsewhere).heap others := by
  have hst : Stamp k s.heap.mem b := h.stamp _ hp
  unfold Sys.mpRealloc
  by_cases hle : newSize ≤ usableSize s.heap.mem b
  · rw [if_pos hle]
    exact h.restamp hp hle fun hcan => hc hcan hle
  rw [if_neg hle]
  have hk : k → (mpReallocTlsf (cfg P) s.heap s.tls P t b (b + blockHdr) newSize).2 = false → _ :=
    fun hk' =>
    hk hk' (by omega)
  obtain ⟨as, held⟩ := h.held
  have hp' : (t, b) ∈ s.live ++ others := List.mem_append_left _ hp
  obtain ⟨h8, -, -, -⟩ := h.aligned hp
  have hB : blockHdr = 32 := rfl
  have hH : hdrSize = 152 := rfl
  have hin : HeaderIn s.heap b (b + blockHdr) newSize := by
    have := hst.room
    exact ⟨by omega, by omega, by omega, by omega⟩
  obtain ⟨hcan, hgrown⟩ := held.realloc_plain hp' hsized.1
  obtain ⟨⟨as', held'⟩, kp, ha, hfail⟩ := held.mpRealloc hp' hin hsized.1 hcan
  have hnil := held.mpRealloc_cached (cfg P) P t b (b + blockHdr) newSize
  have hnd := List.nodup_append.mp (List.nodup_append.mp held.wf.handles).1
  have hr : f → cached s.tls = [] := fun hf => hr hf (by omega)
  generalize mpReallocTlsf (cfg P) s.heap s.tls P t b (b + blockHdr) newSize = r at *
  obtain ⟨⟨H', C'⟩, grown⟩ := r
  cases grown with
  | true =>
    rw [if_pos rfl]
    refine ⟨⟨⟨as', held'.mono fun hf => ⟨hf, hr hf⟩⟩, fun p hm => ?_⟩, kp.mono fun p hm => ?_⟩
    · by_cases e : p = (t, b)
      · rw [e]
        exact (hgrown rfl).stamp
      · exact kp.stamp (h.stamp p hm) ((List.mem_erase_of_ne e).mpr (List.mem_append_left _ hm))
    · refine (List.mem_erase_of_ne ?_).mpr (List.mem_append_right _ hm)
      rintro rfl
      exact hnd.2.2 _ hp _ hm rfl
  | false =>
    rw [if_neg Bool.false_ne_true]
    have kp := hfail rfl
    have h₁ : CallInv f k ⟨H', C', s.live⟩ others :=
      ⟨⟨as', held'.mono fun hf => ⟨hf, hr hf⟩⟩,
        fun p hm => kp.stamp (h.stamp p hm) (List.mem_append_left _ hm)⟩
    have hus : usableSize H'.mem b = usableSize s.heap.mem b := by
      have hroom := hst.room
      unfold usableSize blockHdr
      rw [Nat.add_assoc]
      exact (kp.words (t, b) hp').2 _ (by omega) (by dsimp only; omega)
    obtain ⟨h₂, kp₂⟩ :=
      h₁.move elsewhere hp hQ hsized.2.1 hsized.2.2 (hf.congr kp ha) (fun hk' => hk hk' rfl)
      (fun _ => hnil) (by dsimp only; omega)
    exact ⟨h₂, (kp.mono fun p hm => List.mem_append_right _ hm).trans kp₂⟩

theorem CallInv.reset (h : CallInv f k s others) (hno : ∀ p ∈ others, (s.heap.tp p.1).owner ≠ P)
    (hr : f → s.tls.owner = P → cached s.tls = []) :
    CallInv f k (s.call cfg (.reset P)) others ∧
    Stays s.heap (s.call cfg (.reset P)).heap others := by
  obtain ⟨as, held⟩ := h.held
  obtain ⟨⟨as', held'⟩, kp⟩ := held.mpReset P
  have hall : others.filter (fun p => decide ((s.heap.tp p.1).owner ≠ P)) = others :=
    List.filter_eq_self.mpr fun p hp => decide_eq_true (hno p hp)
  rw [List.filter_append, hall] at held' kp
  refine ⟨⟨⟨as', held'.mono fun hf => ⟨hf, hr hf⟩⟩, fun p hm => ?_⟩,
    kp.mono fun p => List.mem_append_right _⟩
  exact kp.stamp (h.stamp p (List.mem_filter.mp hm).1) (List.mem_append_left _ hm)

/-- A flush leaves the live blocks alone. -/
theorem CallInv.flushed (h : CallInv f k s others) {f' : Prop} {r : Heap × Tls}
    (hr : Flushed f' s.heap (s.live ++ others) r) (hf : f → f') :
    CallInv f k ⟨r.1, r.2, s.live⟩ others ∧ Stays s.heap r.1 others := by
  obtain ⟨⟨as', held⟩, kp, -⟩ := hr
  refine ⟨⟨⟨as', held.mono hf⟩, fun p hm => ?_⟩, kp.mono fun p => List.mem_append_right _⟩
  exact kp.stamp (h.stamp p hm) (List.mem_append_left _ hm)

/-- **One call.** -/
theorem call_inv {l : TierCall} (h : CallInv f k s others) (hpre : s.callPre cfg l)
    (hsized : Sized cfg l) (hc : CanaryOwn cfg s l) (hk : k → NoSlack cfg s l)
    (hr : f → NoReinsert cfg s l)
    (hno : ∀ P, l = .reset P → ∀ p ∈ others, (s.heap.tp p.1).owner ≠ P) :
    CallInv f k (s.call cfg l) others ∧ Stays s.heap (s.call cfg l).heap others := by
  obtain ⟨as, held⟩ := h.held
  cases l with
  | expand P size self =>
    obtain ⟨w, kp⟩ := addArena_wf held.wf hpre.1 hpre.2
    have kp₁ := kp.mono fun p (hm : p ∈ s.live ++ others) => List.mem_append_left _ hm
    refine ⟨⟨⟨_, held.change w (kp.mono fun p => List.mem_append_right _)⟩, fun p hm => ?_⟩,
      kp₁.mono fun p => List.mem_append_right _⟩
    exact kp₁.stamp (h.stamp p hm) (List.mem_append_left _ hm)
  | alloc P size os₀ os₁ elsewhere =>
    obtain ⟨⟨h₁, -⟩, kp⟩ := h.alloc elsewhere hpre.1 hsized.1 (fun _ => hsized) hpre.2 hk hr
    exact ⟨h₁, kp.mono fun p => List.mem_append_right _⟩
  | batch P size os₀ os₁ =>
    have hv := (held.validateOwner P).1
    obtain ⟨h₁, kp₁⟩ := h.flushed hv fun hf => ⟨hf, hr hf⟩
    have hf := hpre.2.congr kp₁ hv.arenas
    obtain ⟨as₁, held₁⟩ := h₁.held
    obtain ⟨held₂, kp₂, hnew⟩ := held₁.alloc hpre.1 hsized hf
    exact ⟨(h₁.join hsized.1 held₂ kp₂ hnew hk).1,
      kp₁.trans (kp₂.mono fun p => List.mem_append_right _)⟩
  | free t b => exact h.free hpre hr
  | realloc P Q t b newSize os₀ os₁ elsewhere =>
    exact h.realloc hpre.2.2.1 hpre.2.1 hsized hpre.2.2.2 hc hk hr
  | reset P => exact h.reset (hno P rfl) hr
  | switch P => exact h.flushed (held.validateOwner P).1 fun hf => ⟨hf, hr hf⟩
  | flush P => exact h.flushed (held.flushPool P).1 fun hf => ⟨hf, hr hf⟩
  | write t b a v =>
    obtain ⟨hp, h1, h2⟩ := hpre
    obtain ⟨h8, hs8, -⟩ := h.aligned hp
    unfold blockHdr hdrSize at h1
    exact h.payload hp fun x hx => Mem.setByte_ne _ _ (by omega)

/-- Sizes of the TLSF tier. -/
def TierSize : TierCall → Prop
  | .alloc _ size _ _ _ | .batch _ size _ _ => size ≤ 4194304
  | .realloc _ _ _ _ newSize _ _ _ => newSize ≤ 4194304
  | _ => True

instance decTierSize : ∀ l, Decidable (TierSize l)
  | .alloc _ size _ _ _ | .batch _ size _ _ => inferInstanceAs (Decidable (size ≤ 4194304))
  | .realloc _ _ _ _ newSize _ _ _ => inferInstanceAs (Decidable (newSize ≤ 4194304))
  | .expand .. | .free .. | .reset .. | .switch .. | .flush .. | .write .. => .isTrue trivial

theorem TierSize.sized {l : TierCall} (h : TierSize l) : Sized cfg l := by
  cases l with
  | alloc | batch => exact sane_of_tier _ h
  | realloc => exact ⟨(sane_of_tier _ h).1, (sane_of_tier _ h).1, fun _ => sane_of_tier _ h⟩
  | _ => trivial

end

end Cmem.L2.SharedTlsf

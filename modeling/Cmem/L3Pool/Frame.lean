import Cmem.L3Pool.Isolation

/-!
# The frame arena

`mp_frame_alloc` serves a frame from one of two pools, and `mp_frame_end` goes over to the other one
and resets it. A block of a frame so lives through the frame behind its own: until then its
contents stay (`frame_kept`), and no block of a frame pool is older (`frame_live`).

`State` is the frame arena beside the whole of `Header`: other threads go on with their blocks.
`frame` counts the frames and `born` has the frame in which a block was handed out; both are
ghosts.
-/
namespace Cmem.L3.Frame

open L2
open L2.SharedTlsf (Heap Tls Cfg TierCall CallInv Held Stays Wf cached consOpt mpAllocTlsf)
open Header (SameBlock Safe Touches)

/-- `cmem_frame_arena_t` -/
structure FrameArena where
  poolA : Nat
  poolB : Nat
  activePool : Nat
  frameIndex : Nat

/-- The pool that `mp_frame_end` makes the active one. -/
def FrameArena.idlePool (f : FrameArena) : Nat :=
  if f.activePool = f.poolA then f.poolB else f.poolA

/-- mirrors `mp_frame_arena_create`, src/src/cmem_alloc.c:1946-1970, on its two pools -/
def mpFrameArenaCreate (poolA poolB : Nat) : FrameArena := ⟨poolA, poolB, poolA, 0⟩

/-- mirrors `mp_frame_end`, src/src/cmem_alloc.c:1991-2004, but for the `mp_reset` of the pool -/
def mpFrameEnd (f : FrameArena) : FrameArena :=
  { f with frameIndex := sizeAdd f.frameIndex 1, activePool := f.idlePool }

structure State where
  heap : Header.State
  frames : FrameArena
  frame : Nat
  born : Nat × Nat → Nat

/-- `other`: what the program does with blocks and with pools of its own. -/
inductive Step where
  | frameAlloc (i size os₀ os₁ : Nat) (elsewhere : Bool)
  | frameEnd (i : Nat)
  | other (l : Header.Step)

/-- The step of the allocator. -/
def State.step (s : State) : Step → Header.Step
  | .frameAlloc i size os₀ os₁ elsewhere =>
    .call i (.alloc s.frames.activePool size os₀ os₁ elsewhere)
  | .frameEnd i => .call i (.reset s.frames.idlePool)
  | .other l => l

/-- The pool that a step takes a block from. -/
def takesFrom : Header.Step → Option Nat
  | .call _ (.alloc P ..) | .call _ (.batch P ..) | .call _ (.realloc _ P ..) => some P
  | _ => none

/-- The pool that a step empties. -/
def empties : Header.Step → Option Nat
  | .call _ (.reset P) | .destroy _ P => some P
  | _ => none

def FrameArena.Has (f : FrameArena) (P : Nat) : Prop := P = f.poolA ∨ P = f.poolB

instance (f : FrameArena) (P : Nat) : Decidable (f.Has P) :=
  inferInstanceAs (Decidable (P = f.poolA ∨ P = f.poolB))

/-- The two pools are private to the frame arena. -/
def FrameArena.Private (f : FrameArena) (l : Header.Step) : Prop :=
  (∀ P ∈ takesFrom l, ¬ f.Has P) ∧ ∀ P ∈ empties l, ¬ f.Has P

instance (f : FrameArena) (l : Header.Step) : Decidable (f.Private l) :=
  inferInstanceAs (Decidable ((∀ P ∈ takesFrom l, ¬ f.Has P) ∧ ∀ P ∈ empties l, ¬ f.Has P))

def State.pre (cfg : Nat → Cfg) (n : Nat) (s : State) (l : Step) : Prop :=
  s.heap.pre cfg n (s.step l) ∧ match l with
    | .other l => s.frames.Private l
    | _ => True

/-- `mp_frame_alloc` hands out the block of the `mp_alloc`. -/
def State.handedOut (cfg : Nat → Cfg) (s : State) : Step → Option (Nat × Nat)
  | .frameAlloc i size os₀ os₁ elsewhere =>
    (mpAllocTlsf (cfg s.frames.activePool) s.heap.heap (s.heap.caches i) s.frames.activePool size
      os₀ os₁ elsewhere).2
  | _ => none

/-- The block `o` is of this frame. -/
def State.mark (s : State) : Option (Nat × Nat) → Nat × Nat → Nat
  | some p => Function.update s.born p s.frame
  | none => s.born

theorem mark_ne {s : State} {o : Option (Nat × Nat)} {q : Nat × Nat} (h : o ≠ some q) :
    s.mark o q = s.born q := by
  cases o with
  | none => rfl
  | some p => exact Function.update_of_ne (fun e => h (congrArg some e.symm)) ..

def State.next (cfg : Nat → Cfg) (s : State) (l : Step) : State where
  heap := s.heap.next cfg (s.step l)
  frames := match l with
    | .frameEnd _ => mpFrameEnd s.frames
    | _ => s.frames
  frame := match l with
    | .frameEnd _ => s.frame + 1
    | _ => s.frame
  born := s.mark (s.handedOut cfg l)

/-- A new frame arena over two new pools. -/
def create (m : Mem) (poolA poolB : Nat) : State :=
  ⟨Header.empty m, mpFrameArenaCreate poolA poolB, 0, fun _ => 0⟩

def system (cfg : Nat → Cfg) (n : Nat) : LTS State Step :=
  .det (fun s => ∃ m A B, A ≠ B ∧ s = create m A B) (State.pre cfg n) (State.next cfg)

/-! ## The pool of a block -/

section
variable {k : Prop} {cfg : Nat → Cfg} {c : Cfg} {n i : Nat} {H : Heap} {C : Tls}
  {hs : List (Nat × Nat)}
  {as : Nat → List Nat} {P size os₀ os₁ : Nat} {elsewhere : Bool} {p : Nat × Nat}

/-- A cached block belongs to the pool that the cache is for. -/
theorem lookup_owner (h : Held k H C hs as) (total : Nat)
    (hp : (SharedTlsf.cacheLookup H C P total).2 = some p) :
    ((SharedTlsf.cacheLookup H C P total).1.1.tp p.1).owner = P := by
  obtain ⟨⟨⟨as₁, h₁⟩, -, -⟩, how, -⟩ := h.validateOwner P
  unfold SharedTlsf.cacheLookup at hp ⊢
  dsimp only at hp ⊢
  generalize SharedTlsf.tlsCacheValidateOwner H C P = r at *
  cases e : SharedTlsf.cacheIdx total with
  | none =>
    rw [e] at hp
    exact nomatch hp
  | some i =>
    rw [e] at hp
    dsimp only at hp ⊢
    by_cases h0 : r.2.counts i = 0
    · rw [if_pos h0] at hp
      exact nomatch hp
    rw [if_neg h0] at hp ⊢
    split at hp
    · exact nomatch hp
    rename_i hfit
    rw [if_neg hfit]
    obtain rfl := Option.some.inj hp
    have hm := (h₁.tls.pop (SharedTlsf.cacheIdx_lt e) h0).2.mem_iff.mpr List.mem_cons_self
    exact (h₁.own _ hm).trans how

/-- **A block comes from the pool that is asked.** -/
theorem alloc_owner (h : Held k H C hs as) (hP : P ≠ 0)
    (hs₀ : elsewhere = false → SharedTlsf.SaneRequest size c.canary.toNat)
    (hf : SharedTlsf.FreshPair H P (totalNeeded size c.canary.toNat) os₀ os₁)
    (hp : (mpAllocTlsf c H C P size os₀ os₁ elsewhere).2 = some p) :
    ((mpAllocTlsf c H C P size os₀ os₁ elsewhere).1.1.tp p.1).owner = P := by
  obtain ⟨as₁, h₁, kp, ha, -⟩ := h.lookup c P size
  have hf₁ := hf.congr kp ha
  have how := fun q => lookup_owner h (totalNeeded size c.canary.toNat) (P := P) (p := q)
  rw [SharedTlsf.mpAllocTlsf_eq] at hp ⊢
  generalize SharedTlsf.cacheLookup H C P (totalNeeded size c.canary.toNat) = q at *
  obtain ⟨r, o⟩ := q
  cases o with
  | some q =>
    obtain rfl := Option.some.inj hp
    exact how _ rfl
  | none =>
    unfold SharedTlsf.afterLookup SharedTlsf.allocMiss at hp ⊢
    dsimp only at hp ⊢
    cases elsewhere with
    | true => exact nomatch hp
    | false =>
      rw [if_neg Bool.false_ne_true] at hp ⊢
      obtain ⟨-, -, -, hnew⟩ := SharedTlsf.alloc_spec h₁.wf hP (hs₀ rfl) hf₁
      exact (hnew p hp).1

end

/-! ## The blocks of a step -/

section
variable {k : Prop} {cfg : Nat → Cfg} {n i : Nat} {s : Header.State} {l : Header.Step}
  {p : Nat × Nat}

theorem mem_consOpt_iff {o : Option (Nat × Nat)} {hs : List (Nat × Nat)} : p ∈ consOpt o hs ↔
    o = some p ∨ p ∈ hs := by
  cases o with
  | none => simp [consOpt]
  | some q => simp [consOpt, eq_comm]

theorem move_handles {S : SharedTlsf.Sys} {others : List (Nat × Nat)} {Q t b newSize os₀ os₁ : Nat}
    {elsewhere : Bool} (h : CallInv False False S others) (hp : (t, b) ∈ S.live) (hQ : Q ≠ 0)
    (hwrap : 184 + newSize + (cfg Q).canary.toNat + 7 < sizeMod)
    (hsane : elsewhere = false → SharedTlsf.SaneRequest newSize (cfg Q).canary.toNat)
    (hf : SharedTlsf.FreshPair S.heap Q (totalNeeded newSize (cfg Q).canary.toNat) os₀ os₁)
    (hlt : usableSize S.heap.mem b < newSize) {q : Nat × Nat}
    (hq : q ∈ (S.move cfg Q t b newSize os₀ os₁ elsewhere).live) :
    q ∈ S.live ∨ ((S.move cfg Q t b newSize os₀ os₁ elsewhere).heap.tp q.1).owner = Q := by
  obtain ⟨⟨h₁, hroom⟩, kp⟩ :=
    h.alloc (c := cfg Q) (k := False) elsewhere hQ hwrap hsane hf False.elim False.elim
  obtain ⟨as, held⟩ := h.held
  have how := fun q => alloc_owner (p := q) held hQ hsane hf
  have hst : Stamp False S.heap.mem b := h.stamp _ hp
  unfold SharedTlsf.Sys.move at hq ⊢
  generalize mpAllocTlsf (cfg Q) S.heap S.tls Q newSize os₀ os₁ elsewhere = r at *
  obtain ⟨⟨H', C'⟩, o⟩ := r
  cases o with
  | none =>
    dsimp only at hq
    split at hq
    · exact .inl (List.mem_of_mem_erase hq)
    · exact .inl hq
  | some p =>
    rcases List.mem_cons.mp (List.mem_of_mem_erase hq) with rfl | hq
    swap
    · exact .inl hq
    right
    dsimp only [consOpt] at h₁ hroom how ⊢
    have hle : 184 + requestedSize H'.mem b ≤ span H'.mem q.2 := by
      have h1 := hroom q rfl
      have h2 := kp.requested hst (List.mem_append_left _ hp)
      have h3 := hst.fits
      dsimp only at h2
      omega
    obtain ⟨-, h₂⟩ := h₁.copied hle (b + blockHdr + hdrSize)
    have kp := h₂.free_stays (List.mem_cons_of_mem q hp)
    obtain ⟨as₁, held₁⟩ := h₁.held
    have hknown : q.1 ∈ H'.arenas := held₁.wf.known q (by simp)
    exact ((kp.arenas q.1 hknown).2.2.2).trans (how q rfl)

theorem realloc_handles {S : SharedTlsf.Sys} {others : List (Nat × Nat)}
    {P Q t b newSize os₀ os₁ : Nat} {elsewhere : Bool} (h : CallInv False False S others)
    (hpre : S.callPre cfg (.realloc P Q t b newSize os₀ os₁ elsewhere))
    (hz : SharedTlsf.Sized cfg (.realloc P Q t b newSize os₀ os₁ elsewhere)) {q : Nat × Nat}
    (hq : q ∈ (S.mpRealloc cfg P Q t b newSize os₀ os₁ elsewhere).live) :
    q ∈ S.live ∨ ((S.mpRealloc cfg P Q t b newSize os₀ os₁ elsewhere).heap.tp q.1).owner = Q := by
  obtain ⟨-, hQ, hp, hf⟩ := hpre
  unfold SharedTlsf.Sys.mpRealloc at hq ⊢
  by_cases hle : newSize ≤ usableSize S.heap.mem b
  · rw [if_pos hle] at hq
    exact .inl hq
  rw [if_neg hle] at hq ⊢
  have hst : Stamp False S.heap.mem b := h.stamp _ hp
  have hfits := hst.fits
  have hspan := hst.room
  have hB : blockHdr = 32 := rfl
  have hH : hdrSize = 152 := rfl
  obtain ⟨h8, -, -, hmod⟩ := h.aligned hp
  obtain ⟨as, held⟩ := h.held
  have hp' : (t, b) ∈ S.live ++ others := List.mem_append_left _ hp
  obtain ⟨hcan, -⟩ := held.realloc_plain (P := P) hp' hz.1
  obtain ⟨⟨as', held'⟩, -, ha, hfail⟩ :=
    held.mpRealloc hp' ⟨by omega, by omega, by omega, by omega⟩ hz.1 hcan
  generalize SharedTlsf.mpReallocTlsf (cfg P) S.heap S.tls P t b (b + blockHdr) newSize = r at *
  obtain ⟨⟨H', C'⟩, grown⟩ := r
  cases grown with
  | true => exact .inl hq
  | false =>
    dsimp only at hq ⊢
    rw [if_neg Bool.false_ne_true] at hq ⊢
    have kp := hfail rfl
    have h₁ : CallInv False False ⟨H', C', S.live⟩ others :=
      ⟨⟨as', held'.mono False.elim⟩,
        fun p hm => kp.stamp (h.stamp p hm) (List.mem_append_left _ hm)⟩
    refine move_handles h₁ hp hQ hz.2.1 hz.2.2 (hf.congr kp ha) ?_ hq
    have := kp.usable hst hp'
    dsimp only at this ⊢
    omega

/-- The pool of an arena does not change. -/
theorem owner_stays (h : Header.Inv False n s) (hpre : s.pre cfg n l)
    (hc : Safe cfg n s l) {t : Nat} (ht : t ∈ s.heap.arenas) :
    ((s.next cfg l).heap.tp t).owner = (s.heap.tp t).owner := by
  cases l with
  | call i l =>
    by_cases hl : ∀ P, l ≠ .reset P
    · obtain ⟨-, kp⟩ :=
        SharedTlsf.call_inv (h.view hpre.1) hpre.2 hc.1 hc.2.1 False.elim False.elim fun P e =>
        absurd e (hl P)
      exact (kp.arenas t ht).2.2.2
    · simp only [not_forall, not_not] at hl
      obtain ⟨P, rfl⟩ := hl
      obtain ⟨as, held⟩ := h.held hpre.1
      exact ((held.mpReset P).2.arenas t ht).2.2.2
  | other i l =>
    obtain ⟨-, kp⟩ := h.other_stays hpre.1 hpre.2.1 hpre.2.2 hc.1 hc.2.1
    exact (kp.arenas t ht).2.2.2
  | destroy i P =>
    obtain ⟨as, held⟩ := h.held hpre.1
    exact ((Header.held_destroy held hpre.2).2.arenas t ht).2.2.2
  | _ => rfl

/-- A block behind a step was there before, or comes from the pool that the step asks. -/
theorem handles_next (h : Header.Inv False n s) (hpre : s.pre cfg n l) (hc : Safe cfg n s l)
    (hp : p ∈ (s.next cfg l).live ++ (s.next cfg l).aligned) :
    (p ∈ s.live ++ s.aligned ∧ ∀ P ∈ empties l, (s.heap.tp p.1).owner ≠ P) ∨
      ((s.next cfg l).heap.tp p.1).owner ∈ takesFrom l := by
  have hold : ∀ live aligned : List (Nat × Nat), (p ∈ live → p ∈ s.live) →
      (p ∈ aligned → p ∈ s.aligned) → p ∈ live ++ aligned → empties l = none →
        (p ∈ s.live ++ s.aligned ∧ ∀ P ∈ empties l, (s.heap.tp p.1).owner ≠ P) := by
    intro live aligned h1 h2 h3 h4
    refine ⟨List.mem_append.mpr ((List.mem_append.mp h3).imp h1 h2), ?_⟩
    rw [h4]
    exact nofun
  have hwithout : ∀ P, p ∈ Header.without s.heap P s.live ++ Header.without s.heap P s.aligned →
      empties l = some P →
      (p ∈ s.live ++ s.aligned ∧ ∀ P ∈ empties l, (s.heap.tp p.1).owner ≠ P) := by
    intro P h1 h2
    rw [Header.without, Header.without, ← List.filter_append, List.mem_filter] at h1
    refine ⟨h1.1, ?_⟩
    rw [h2]
    rintro P' hP'
    obtain rfl : P = P' := Option.some.inj hP'
    exact of_decide_eq_true h1.2
  cases l with
  | call i l =>
    cases l with
    | reset P => exact .inl (hwithout P hp rfl)
    | alloc P size os₀ os₁ elsewhere =>
      obtain ⟨as, held⟩ := h.held hpre.1
      obtain ⟨hP, hf⟩ := hpre.2
      rcases List.mem_append.mp hp with hl | ha
      · rcases mem_consOpt_iff.mp hl with hnew | hl
        · exact .inr (congrArg some (alloc_owner held hP (fun _ => hc.1) hf hnew).symm)
        · exact .inl (hold s.live s.aligned id id (List.mem_append_left _ hl) rfl)
      · exact .inl (hold s.live s.aligned id id (List.mem_append_right _ ha) rfl)
    | batch P size os₀ os₁ =>
      obtain ⟨as, held⟩ := h.held hpre.1
      obtain ⟨hP, hf⟩ := hpre.2
      rcases List.mem_append.mp hp with hl | ha
      · rcases mem_consOpt_iff.mp hl with hnew | hl
        · obtain ⟨⟨⟨as₁, h₁⟩, kp, hra⟩, -⟩ := held.validateOwner P
          obtain ⟨-, -, -, hown⟩ := SharedTlsf.alloc_spec h₁.wf hP hc.1 (hf.congr kp hra)
          exact .inr (congrArg some (hown p hnew).1.symm)
        · exact .inl (hold s.live s.aligned id id (List.mem_append_left _ hl) rfl)
      · exact .inl (hold s.live s.aligned id id (List.mem_append_right _ ha) rfl)
    | realloc P Q t b newSize os₀ os₁ elsewhere =>
      rcases List.mem_append.mp hp with hl | ha
      · rcases realloc_handles (h.view hpre.1) hpre.2 hc.1 hl with hl | hnew
        · exact .inl (hold s.live s.aligned id id (List.mem_append_left _ hl) rfl)
        · exact .inr (congrArg some hnew.symm)
      · exact .inl (hold s.live s.aligned id id (List.mem_append_right _ ha) rfl)
    | free t b => exact .inl (hold (s.live.erase (t, b)) s.aligned List.mem_of_mem_erase id hp rfl)
    | _ => exact .inl (hold s.live s.aligned id id hp rfl)
  | align t b =>
    refine .inl (hold s.live s.aligned id id ?_ rfl)
    rcases List.mem_append.mp hp with hl | ha
    · exact List.mem_append_left _ (List.mem_of_mem_erase hl)
    · rcases List.mem_cons.mp ha with rfl | ha
      · exact List.mem_append_left _ hpre
      · exact List.mem_append_right _ ha
  | other i l =>
    refine .inl (hold s.live ((s.viewAligned i).next cfg l).live id (fun ha => ?_) hp rfl)
    have hal := hpre.2.1
    cases l with
    | mpFree t b usable => exact List.mem_of_mem_erase ha
    | mpRealloc P t b hd newSize => exact ha
    | write t b a v => exact ha
    | _ => exact hal.elim
  | destroy i P => exact .inl (hwithout P hp rfl)
  | _ => exact .inl (hold s.live s.aligned id id hp rfl)

end

/-! ## Runs -/

/-- The pool of frame `j`. -/
def FrameArena.poolOf (f : FrameArena) (j : Nat) : Nat := if j % 2 = 0 then f.poolA else f.poolB

/-- What is live in a frame pool is of the present frame or of the one before it. -/
structure Inv (n : Nat) (s : State) : Prop where
  heap : Header.Inv False n s.heap
  two : s.frames.poolA ≠ s.frames.poolB
  active : s.frames.activePool = s.frames.poolOf s.frame
  age : ∀ p ∈ s.heap.live ++ s.heap.aligned, s.frames.Has (s.heap.heap.tp p.1).owner →
    s.born p ≤ s.frame ∧ s.frame ≤ s.born p + 1 ∧
    (s.heap.heap.tp p.1).owner = s.frames.poolOf (s.born p)

section
variable {cfg : Nat → Cfg} {n : Nat} {s s₀ : State} {l : Step} {p : Nat × Nat}

theorem poolOf_succ {f : FrameArena} (h : f.poolA ≠ f.poolB) {j : Nat}
    (ha : f.activePool = f.poolOf j) : f.idlePool = f.poolOf (j + 1) := by
  unfold FrameArena.idlePool
  rw [ha]
  unfold FrameArena.poolOf
  by_cases hj : j % 2 = 0
  · rw [if_pos hj, if_pos rfl, if_neg (by omega)]
  · rw [if_neg hj, if_neg (fun e => h e.symm), if_pos (by omega)]

theorem poolOf_parity {f : FrameArena} (h : f.poolA ≠ f.poolB) {i j : Nat}
    (e : f.poolOf i = f.poolOf j) : i % 2 = j % 2 := by
  unfold FrameArena.poolOf at e
  by_cases hi : i % 2 = 0 <;> by_cases hj : j % 2 = 0
  · omega
  · rw [if_pos hi, if_neg hj] at e
    exact absurd e h
  · rw [if_neg hi, if_pos hj] at e
    exact absurd e.symm h
  · omega

theorem poolOf_congr (f : FrameArena) {i j : Nat} (e : i % 2 = j % 2) :
    f.poolOf i = f.poolOf j := by
  unfold FrameArena.poolOf
  rw [e]

theorem step_inv (h : Inv n s) (hpre : s.pre cfg n l) (hc : Safe cfg n s.heap (s.step l)) :
    Inv n (s.next cfg l) := by
  obtain ⟨hpre, hpriv⟩ := hpre
  have hheap : Header.Inv False n (s.heap.next cfg (s.step l)) :=
    Header.step_inv h.heap hpre hc.1 hc.2.1 hc.2.2 False.elim
  have hown : ∀ q ∈ s.heap.live ++ s.heap.aligned,
      ((s.heap.next cfg (s.step l)).heap.tp q.1).owner = (s.heap.heap.tp q.1).owner :=
    fun q hq => by
    obtain ⟨as, w⟩ := h.heap.wf
    refine owner_stays h.heap hpre hc (w.known q ?_)
    rw [← List.append_assoc]
    exact List.mem_append_left _ hq
  cases l with
  | frameAlloc i size os₀ os₁ elsewhere =>
    obtain ⟨as, held⟩ := h.heap.held hpre.1
    obtain ⟨hP, hf⟩ := hpre.2
    have how := fun q (hq : s.handedOut cfg (.frameAlloc i size os₀ os₁ elsewhere) = some q) =>
      alloc_owner held hP (fun _ => hc.1) hf hq
    refine ⟨hheap, h.two, h.active, fun q hq hhas => ?_⟩
    by_cases hnew : s.handedOut cfg (.frameAlloc i size os₀ os₁ elsewhere) = some q
    · -- the new block is of this frame
      have hborn : (s.next cfg (.frameAlloc i size os₀ os₁ elsewhere)).born q = s.frame := by
        show s.mark (s.handedOut cfg _) q = s.frame
        rw [hnew]
        exact Function.update_self ..
      rw [hborn]
      exact ⟨Nat.le_refl _, Nat.le_succ _, (how q hnew).trans h.active⟩
    · have hold : q ∈ s.heap.live ++ s.heap.aligned := by
        refine List.mem_append.mpr ((List.mem_append.mp hq).imp_left fun hl => ?_)
        exact (mem_consOpt_iff.mp hl).resolve_left hnew
      have hborn : (s.next cfg (.frameAlloc i size os₀ os₁ elsewhere)).born q = s.born q :=
        mark_ne hnew
      have ho := hown q hold
      have hage := h.age q hold (ho ▸ hhas)
      rw [hborn]
      exact ⟨hage.1, hage.2.1, ho.trans hage.2.2⟩
  | frameEnd i =>
    have hidle := poolOf_succ h.two h.active
    refine ⟨hheap, h.two, hidle, fun q hq hhas => ?_⟩
    rcases handles_next h.heap hpre hc hq with ⟨hold, hne⟩ | hnew
    swap
    · exact nomatch hnew
    have ho := hown q hold
    obtain ⟨h1, h2, h3⟩ := h.age q hold (ho ▸ hhas)
    have hne : (s.heap.heap.tp q.1).owner ≠ s.frames.idlePool := hne _ rfl
    rw [h3, hidle] at hne
    have hpar : s.born q % 2 ≠ (s.frame + 1) % 2 := fun e => hne (poolOf_congr _ e)
    show s.born q ≤ s.frame + 1 ∧ s.frame + 1 ≤ s.born q + 1 ∧ _
    exact ⟨by omega, by omega, ho.trans h3⟩
  | other l =>
    refine ⟨hheap, h.two, h.active, fun q hq hhas => ?_⟩
    rcases handles_next h.heap hpre hc hq with ⟨hold, -⟩ | hnew
    · have ho := hown q hold
      obtain ⟨h1, h2, h3⟩ := h.age q hold (ho ▸ hhas)
      exact ⟨h1, h2, ho.trans h3⟩
    · exact absurd hhas (hpriv.1 _ hnew)

theorem create_inv {m : Mem} {A B : Nat} (hne : A ≠ B) : Inv n (create m A B) :=
  ⟨Header.empty_inv m, hne, rfl, fun _ hp => nomatch hp⟩

/-- Every state of a run. -/
theorem run_inv (hr : ((system cfg n).guard fun s l => Safe cfg n s.heap (s.step l)).Reachable s) :
    Inv n s := by
  refine LTS.Inductive.reachable ⟨?_, ?_⟩ hr
  · rintro _ ⟨m, A, B, hne, rfl⟩
    exact create_inv hne
  · rintro s l _ h ⟨⟨hpre, rfl⟩, hl⟩
    exact step_inv h hpre hl

/-- The program gives the block to a call of its own. -/
def Uses (s : State) (p : Nat × Nat) : Step → Prop
  | .other l => Touches s.heap p l
  | _ => False

/-- What is kept of the block `p` of frame `s₀.frame`. -/
structure Kept (n : Nat) (s₀ s : State) (p : Nat × Nat) : Prop where
  inv : Inv n s
  since : s₀.frame ≤ s.frame
  pools : s.frames.poolOf = s₀.frames.poolOf
  live : s.frame ≤ s₀.frame + 1 → p ∈ s.heap.live ++ s.heap.aligned ∧
    (s.heap.heap.tp p.1).owner = s₀.frames.poolOf s₀.frame ∧
    SameBlock s₀.heap.heap.mem s.heap.heap.mem p.2

theorem Kept.step (h : Kept n s₀ s p) (hpre : s.pre cfg n l) (hc : Safe cfg n s.heap (s.step l))
    (hu : ¬ Uses s p l) : Kept n s₀ (s.next cfg l) p := by
  have hinv := step_inv h.inv hpre hc
  -- the steps that leave the block alone
  have hstep : s.frame ≤ s₀.frame + 1 → ¬ Touches s.heap p (s.step l) →
      p ∈ (s.next cfg l).heap.live ++ (s.next cfg l).heap.aligned ∧
        ((s.next cfg l).heap.heap.tp p.1).owner = s₀.frames.poolOf s₀.frame ∧
          SameBlock s₀.heap.heap.mem (s.next cfg l).heap.heap.mem p.2 := by
    intro hle ht
    obtain ⟨hp, ho, hsame⟩ := h.live hle
    obtain ⟨hp', hsame'⟩ := h.inv.heap.shared_step hpre.1 hc ht hp
    obtain ⟨as, w⟩ := h.inv.heap.wf
    refine ⟨hp', (owner_stays h.inv.heap hpre.1 hc (w.known p ?_)).trans ho, hsame.trans hsame'⟩
    rw [← List.append_assoc]
    exact List.mem_append_left _ hp
  cases l with
  | frameAlloc i size os₀ os₁ elsewhere =>
    exact ⟨hinv, h.since, h.pools, fun hle => hstep hle nofun⟩
  | frameEnd i =>
    refine ⟨hinv, Nat.le_succ_of_le h.since, h.pools, fun hle => ?_⟩
    have hle : s.frame ≤ s₀.frame := Nat.le_of_succ_le_succ hle
    have hfr : s.frame = s₀.frame := Nat.le_antisymm hle h.since
    refine hstep (by omega) fun ht => ?_
    -- the pool that is reset is the other one
    have ho : (s.heap.heap.tp p.1).owner = s.frames.idlePool := ht
    rw [(h.live (by omega)).2.1, poolOf_succ h.inv.two h.inv.active, ← h.pools] at ho
    have := poolOf_parity h.inv.two ho
    omega
  | other l => exact ⟨hinv, h.since, h.pools, fun hle => hstep hle hu⟩

instance decPre (cfg : Nat → Cfg) (n : Nat) (s : State) : ∀ l, Decidable (s.pre cfg n l)
  | .frameAlloc .. | .frameEnd _ => inferInstanceAs (Decidable (s.heap.pre cfg n _ ∧ True))
  | .other l => inferInstanceAs (Decidable (s.heap.pre cfg n l ∧ s.frames.Private l))

instance decUses (s : State) (p : Nat × Nat) : ∀ l, Decidable (Uses s p l)
  | .other l => inferInstanceAs (Decidable (Touches s.heap p l))
  | .frameAlloc .. | .frameEnd _ => .isFalse id

def runFrom (cfg : Nat → Cfg) (s : State) (l : List Step) : State := l.foldl (State.next cfg) s

def fresh : State := create (fun _ => 0) 1 2

end

end Cmem.L3.Frame

import Cmem.L2Arena.Retire

/-!
# The release of a retired arena, with a weak compare-exchange

`CMEM_ATOMIC_COMPARE_EXCHANGE` is `atomic_compare_exchange_weak_explicit`
(src/src/cmem_internal.h:86-87): it may fail although the value matches. The
push loop of `tlsf_arena_free_block` retries; the two places that claim
`cleanup_claimed` (src/src/cmem_slab.c:246-250 and 356-362) do not. A spurious
failure there leaves a retired, empty arena that nobody will ever release
(`release_missed`). `ClaimHolds` excludes it; then the region is released exactly
once (`release_once`).
-/
namespace Cmem.L2.ThreadArena

variable {T : Type} [DecidableEq T]

/-- The protocol state and how often the region was given back. -/
structure Weak (T : Type) where
  shared : Shared T
  releases : Nat

inductive WeakAct (T : Type) where
  | act (l : Act T)
  | spurious (t : T)

/-- About to perform a compare-exchange. -/
def Pc.atCas : Pc → Bool
  | .pushCas _ _ _ | .claim => true
  | _ => false

/-- Where a failed compare-exchange leads; it has loaded the current value. -/
def Pc.failed (rf : Nat) : Pc → Pc
  | .pushCas block sp _ => .pushLink block sp rf
  | _ => .idle

/-- Whether a step calls `sys_mem_free` on the region, src/src/cmem_slab.c:229-233. -/
def Shared.gives (s : Shared T) : Act T → Bool
  | .tick t => s.pc t = .cleanRelease ∧ s.A.raw ≠ 0
  | _ => false

def Weak.pre (o : T) (w : Weak T) : WeakAct T → Prop
  | .act l => w.shared.pre o l
  | .spurious t => (w.shared.pc t).atCas = true

instance Weak.decPre (o : T) (w : Weak T) : (l : WeakAct T) → Decidable (w.pre o l)
  | .act l => Shared.decPre o w.shared l
  | .spurious t => inferInstanceAs (Decidable ((w.shared.pc t).atCas = true))

def Weak.next (o : T) (w : Weak T) : WeakAct T → Weak T
  | .act l => ⟨w.shared.next o l, w.releases + (w.shared.gives l).toNat⟩
  | .spurious t => ⟨w.shared.goto t ((w.shared.pc t).failed w.shared.A.remoteFree), w.releases⟩

def weakProtocol (o : T) : LTS (Weak T) (WeakAct T) :=
  .det (fun w => (protocol o).init w.shared ∧ w.releases = 0) (Weak.pre o) (Weak.next o)

/-- A compare-exchange of `cleanup_claimed` does not fail spuriously, and a freer
that finds the arena retired finds the count still at zero. -/
def ClaimHolds (w : Weak T) : WeakAct T → Prop
  | .act l => CheckTimely w.shared l
  | .spurious t => w.shared.pc t ≠ .claim

instance decClaimHolds (w : Weak T) : (l : WeakAct T) → Decidable (ClaimHolds w l)
  | .act l => inferInstanceAs (Decidable (CheckTimely w.shared l))
  | .spurious t => inferInstanceAs (Decidable (w.shared.pc t ≠ .claim))

/-- Somebody will still try to claim. -/
def Pc.claiming : Pc → Bool
  | .check | .claim | .retireLoad => true
  | _ => false

/-- In `tlsf_arena_cleanup`, before the region is given back. -/
def Pc.holding : Pc → Bool
  | .cleanExch | .cleanNext _ | .cleanRelease => true
  | _ => false

/-- Where the one cleanup stands. -/
structure Stage (w : Weak T) : Prop where
  waiting : w.shared.A.retired = true → w.shared.A.cleanupClaimed = false →
    0 < w.shared.A.liveBytes ∨ ∃ t, (w.shared.pc t).claiming = true
  before : w.shared.A.raw ≠ 0 → w.releases = 0 ∧
    (w.shared.A.cleanupClaimed = true → ∃ t, (w.shared.pc t).holding = true)
  after : w.shared.A.raw = 0 → w.releases = 1 ∧
    (w.shared.A.finished = true ∨ ∃ t, w.shared.pc t = .cleanFinish)

/-- The descriptor fields the protocol decides on. -/
def SameFlags (A A' : Arena) : Prop :=
  A'.raw = A.raw ∧ A'.retired = A.retired ∧ A'.cleanupClaimed = A.cleanupClaimed ∧
    A'.finished = A.finished ∧ A'.liveBytes = A.liveBytes

theorem Kept.sameFlags {A A' : Arena} (h : Kept A A') : SameFlags A A' := by
  rw [h]; exact ⟨rfl, rfl, rfl, rfl, rfl⟩

section Stage
variable [Fintype T] {o t : T} {w w' : Weak T} {p q : Pc}

omit [Fintype T] in
theorem pc_update (pc : T → Pc) (t : T) (p : Pc) (x : T) :
    Function.update pc t p x = p ∧ x = t ∨ Function.update pc t p x = pc x ∧ x ≠ t := by
  by_cases e : x = t
  · subst e; exact .inl ⟨Function.update_self .., rfl⟩
  · exact .inr ⟨Function.update_of_ne e .., e⟩

omit [Fintype T] in
/-- Somebody at a program counter with `f` stays there, or moves on to one. -/
theorem exists_goto {f : Pc → Bool} {pc : T → Pc} (h : ∃ x, f (pc x) = true)
    (hp : f (pc t) = true → f p = true) : ∃ x, f (Function.update pc t p x) = true := by
  obtain ⟨x, hx⟩ := h
  refine ⟨x, ?_⟩
  rcases pc_update pc t p x with ⟨e, rfl⟩ | ⟨e, -⟩
  · rw [e]; exact hp hx
  · rw [e]; exact hx

omit [Fintype T] in
/-- A step of `t` that touches none of the flags and keeps the region. -/
theorem Stage.keep (h : Stage w) (hq : w.shared.pc t = q)
    (hpc : w'.shared.pc = Function.update w.shared.pc t p)
    (hraw : w'.shared.A.raw = w.shared.A.raw) (hr : w'.shared.A.retired = w.shared.A.retired)
    (hc : w'.shared.A.cleanupClaimed = w.shared.A.cleanupClaimed)
    (hf : w'.shared.A.finished = w.shared.A.finished) (hrel : w'.releases = w.releases)
    (hhold : q.holding = true → p.holding = true) (hfin : q ≠ .cleanFinish)
    (hlive : w.shared.A.retired = true → w.shared.A.cleanupClaimed = false →
      0 < w.shared.A.liveBytes → 0 < w'.shared.A.liveBytes ∨ p.claiming = true)
    (hcl : w.shared.A.retired = true → w.shared.A.cleanupClaimed = false →
      q.claiming = true → 0 < w'.shared.A.liveBytes ∨ p.claiming = true) :
    Stage w' := by
  subst hq
  refine ⟨fun h1 h2 => ?_, fun h1 => ?_, fun h1 => ?_⟩
  · rw [hr] at h1
    rw [hc] at h2
    have hself : p.claiming = true → ∃ x, (w'.shared.pc x).claiming = true := fun hp =>
      ⟨t, by rw [hpc, Function.update_self]; exact hp⟩
    rcases h.waiting h1 h2 with h3 | ⟨x, hx⟩
    · exact (hlive h1 h2 h3).imp id hself
    · by_cases e : x = t
      · subst e; exact (hcl h1 h2 hx).imp id hself
      · exact .inr ⟨x, by rw [hpc, Function.update_of_ne e]; exact hx⟩
  · rw [hraw] at h1
    rw [hrel, hc, hpc]
    obtain ⟨h2, h3⟩ := h.before h1
    exact ⟨h2, fun h4 => exists_goto (h3 h4) hhold⟩
  · rw [hraw] at h1
    rw [hrel, hf, hpc]
    obtain ⟨h2, h3⟩ := h.after h1
    refine ⟨h2, h3.imp id fun ⟨x, hx⟩ => ⟨x, ?_⟩⟩
    rw [Function.update_of_ne fun e => hfin (by rw [← e]; exact hx)]
    exact hx

omit [Fintype T] in
/-- A step that leaves the descriptor's flags and count alone. -/
theorem Stage.quiet (h : Stage w) (hq : w.shared.pc t = q)
    (hpc : w'.shared.pc = Function.update w.shared.pc t p) (hA : SameFlags w.shared.A w'.shared.A)
    (hrel : w'.releases = w.releases) (hhold : q.holding = true → p.holding = true)
    (hfin : q ≠ .cleanFinish) (hcl : q.claiming = false) : Stage w' := by
  obtain ⟨h1, h2, h3, h4, h5⟩ := hA
  refine h.keep hq hpc h1 h2 h3 h4 hrel hhold hfin (fun _ _ h6 => .inl ?_) fun _ _ h6 => ?_
  · rw [h5]; exact h6
  · rw [hcl] at h6; cases h6

theorem Stage.win (h : Stage w) (hs : Safe o w.shared) (t : T)
    (hn : w.shared.A.cleanupClaimed = false) :
    Stage ⟨{ w.shared with A := { w.shared.A with cleanupClaimed := true },
                           cleanups := w.shared.cleanups + 1 }.goto t .cleanExch, w.releases⟩ := by
  have hraw : w.shared.A.raw ≠ 0 := fun e => by
    have := (hs.gone e).claimed
    rw [hn] at this; cases this
  refine ⟨fun _ h2 => ?_, fun h1 => ⟨(h.before h1).1, fun _ => ⟨t, ?_⟩⟩, fun h1 => absurd h1 hraw⟩
  · cases h2
  · simp [Shared.goto, Pc.holding]

omit [Fintype T] in
theorem Stage.retire (h : Stage w) (hpc : w.shared.pc t = .retireStore) :
    Stage
      ⟨{ w.shared with A := { w.shared.A with retired := true }, attached := false }.goto t
        .retireLoad, w.releases⟩ := by
  refine ⟨fun _ _ => .inr ⟨t, ?_⟩, fun h1 => ?_, fun h1 => ?_⟩
  · simp [Shared.goto, Pc.claiming]
  · obtain ⟨h2, h3⟩ := h.before h1
    exact ⟨h2, fun h4 => exists_goto (h3 h4) (by rw [hpc]; rintro ⟨⟩)⟩
  · obtain ⟨h2, h3⟩ := h.after h1
    refine ⟨h2, h3.imp id ?_⟩
    rintro ⟨x, hx⟩
    refine ⟨x, ?_⟩
    have hne : x ≠ t := fun e => by rw [e, hpc] at hx; cases hx
    simp only [Shared.goto]
    rw [Function.update_of_ne hne]; exact hx

theorem Stage.give (h : Stage w) (hs : Safe o w.shared) (hpc : w.shared.pc t = .cleanRelease) :
    Stage ⟨{ w.shared with A := { w.shared.A with raw := 0 } }.goto t .cleanFinish,
      w.releases + (w.shared.gives (.tick t)).toNat⟩ := by
  have hraw : w.shared.A.raw ≠ 0 := fun e => by
    have := (hs.gone e).outside t
    rw [hpc] at this; cases this
  have hcl := hs.ctl.cleaner t (by rw [hpc]; rfl)
  refine ⟨fun _ h2 => ?_, fun h1 => absurd rfl h1, fun _ => ⟨?_, .inr ⟨t, ?_⟩⟩⟩
  · exact absurd (hcl.symm.trans h2) (by decide)
  · simp [Shared.gives, hpc, hraw, (h.before hraw).1]
  · simp [Shared.goto]

theorem Stage.finish (h : Stage w) (hs : Safe o w.shared) (hpc : w.shared.pc t = .cleanFinish) :
    Stage ⟨{ w.shared with A := { w.shared.A with finished := true } }.goto t .idle,
      w.releases⟩ := by
  have hct : (w.shared.pc t).cleaning = true := by rw [hpc]; rfl
  have hcl := hs.ctl.cleaner t hct
  refine ⟨fun _ h2 => ?_, fun h1 => ?_, fun h1 => ⟨(h.after h1).1, .inl rfl⟩⟩
  · exact absurd (hcl.symm.trans h2) (by decide)
  · -- the only cleaner has given the region back
    obtain ⟨-, h3⟩ := h.before h1
    obtain ⟨x, hx⟩ := h3 hcl
    have hxc : (w.shared.pc x).cleaning = true := by
      cases hp : w.shared.pc x <;> rw [hp] at hx <;> first | rfl | cases hx
    have e := hs.ctl.unique x t hxc hct
    rw [e, hpc] at hx
    cases hx

/-- The claim of `cleanup_claimed` is won, or somebody else has made it. -/
theorem Stage.claim (h : Stage w) (hs : Safe o w.shared) (hpc : w.shared.pc t = .claim) :
    Stage ⟨w.shared.tick o t, w.releases⟩ := by
  unfold Shared.tick
  simp only [hpc]
  split
  · rename_i hc
    refine h.keep (p := .idle) hpc rfl rfl rfl rfl rfl rfl nofun nofun (fun _ h2 => ?_)
      fun _ h2 => ?_
    all_goals exact absurd (hc.symm.trans h2) (by decide)
  · rename_i hc
    exact h.win hs t (by simpa using hc)

omit [Fintype T] in
theorem Stage.check (h : Stage w) (hpc : w.shared.pc t = .check) :
    Stage ⟨w.shared.tick o t, w.releases⟩ := by
  unfold Shared.tick
  simp only [hpc]
  split
  · exact h.keep (p := .claim) hpc rfl rfl rfl rfl rfl rfl nofun nofun (fun _ _ _ => .inr rfl)
      fun _ _ _ => .inr rfl
  · rename_i hr
    exact h.keep (p := .idle) hpc rfl rfl rfl rfl rfl rfl nofun nofun (fun h1 => absurd h1 hr)
      fun h1 => absurd h1 hr

omit [Fintype T] in
theorem Stage.retireLoad (h : Stage w) (hpc : w.shared.pc t = .retireLoad) :
    Stage ⟨w.shared.tick o t, w.releases⟩ := by
  unfold Shared.tick
  simp only [hpc]
  split
  · exact h.keep (p := .claim) hpc rfl rfl rfl rfl rfl rfl nofun nofun (fun _ _ _ => .inr rfl)
      fun _ _ _ => .inr rfl
  · rename_i h0
    exact h.keep (p := .idle) hpc rfl rfl rfl rfl rfl rfl nofun nofun (fun _ _ h3 => .inl h3)
      fun _ _ _ => .inl (Nat.pos_of_ne_zero h0)

/-- A thread that allocates is attached, so the arena is not retired. -/
theorem Stage.allocAdd {b : Nat} (h : Stage w) (hs : Safe o w.shared)
    (hpc : w.shared.pc t = .allocAdd b) : Stage ⟨w.shared.tick o t, w.releases⟩ := by
  have hnr := hs.ctl.not_retired (hs.ctl.own t (by rw [hpc]; rfl)).2
  have hno : w.shared.A.retired ≠ true := fun h1 => absurd (hnr.symm.trans h1) (by decide)
  unfold Shared.tick
  simp only [hpc]
  exact h.keep (p := .idle) hpc rfl rfl rfl rfl rfl rfl nofun nofun (fun h1 => absurd h1 hno)
    fun h1 => absurd h1 hno

theorem Stage.dec {sp : Nat} (h : Stage w) (hs : Safe o w.shared) (hpc : w.shared.pc t = .dec sp) :
    Stage ⟨w.shared.tick o t, w.releases⟩ := by
  unfold Shared.tick
  simp only [hpc]
  split
  · exact h.keep (p := .check) hpc rfl rfl rfl rfl rfl rfl nofun nofun (fun _ _ _ => .inr rfl)
      fun _ _ _ => .inr rfl
  · rename_i hne
    refine h.keep (p := .idle) hpc rfl rfl rfl rfl rfl rfl nofun nofun (fun _ h2 _ => .inl ?_)
      fun _ _ => nofun
    -- the count covers what this thread still owes
    have hraw : w.shared.A.raw ≠ 0 :=
      fun e => absurd ((hs.gone e).claimed.symm.trans h2) (by decide)
    obtain ⟨as, mb, ch, hc⟩ := hs.core hraw
    have hle := (hc.dec (p := .idle) hpc rfl rfl trivial rfl).1
    simp only [Shared.goto]
    omega

omit [Fintype T] in
theorem Weak.next_tick (hne : w.shared.pc t ≠ .cleanRelease) :
    w.next o (.act (.tick t)) = ⟨w.shared.tick o t, w.releases⟩ := by
  simp [Weak.next, Shared.next, Shared.gives, hne]

theorem stage_tick (h : Stage w) (hs : Safe o w.shared) : Stage (w.next o (.act (.tick t))) := by
  by_cases hrel : w.shared.pc t = .cleanRelease
  · simp only [Weak.next, Shared.next]
    unfold Shared.tick
    simp only [hrel]
    exact h.give hs hrel
  rw [Weak.next_tick hrel]
  cases hpc : w.shared.pc t with
  | cleanRelease => exact absurd hpc hrel
  | claim => exact h.claim hs hpc
  | check => exact h.check hpc
  | retireLoad => exact h.retireLoad hpc
  | allocAdd b => exact h.allocAdd hs hpc
  | dec sp => exact h.dec hs hpc
  | retireStore =>
    rw [Shared.tick, hpc]
    exact h.retire hpc
  | cleanFinish =>
    rw [Shared.tick, hpc]
    exact h.finish hs hpc
  | idle =>
    rw [Shared.tick, hpc]
    exact h
  | allocLoad n | reapExch k | freeOwner b sp | pushLoad b sp | pushLink b sp e | cleanExch =>
    rw [Shared.tick, hpc]
    exact h.quiet hpc rfl ⟨rfl, rfl, rfl, rfl, rfl⟩ rfl (by simp [Pc.holding]) nofun rfl
  | allocFind n =>
    rw [Shared.tick, hpc]
    dsimp only
    split
    · exact h.quiet hpc rfl ⟨rfl, rfl, rfl, rfl, rfl⟩ rfl nofun nofun rfl
    · exact h.quiet hpc rfl (carve_kept ..).sameFlags rfl nofun nofun rfl
  | reapNext b k =>
    rw [Shared.tick, hpc]
    dsimp only
    split
    · exact h.quiet hpc rfl ⟨rfl, rfl, rfl, rfl, rfl⟩ rfl nofun nofun rfl
    · exact h.quiet hpc rfl (insertStamped_kept ..).sameFlags rfl nofun nofun rfl
  | freeInsert b sp =>
    rw [Shared.tick, hpc]
    exact h.quiet hpc rfl (insertStamped_kept ..).sameFlags rfl nofun nofun rfl
  | pushCas b sp e =>
    rw [Shared.tick, hpc]
    dsimp only
    split <;> exact h.quiet hpc rfl ⟨rfl, rfl, rfl, rfl, rfl⟩ rfl nofun nofun rfl
  | cleanNext b =>
    rw [Shared.tick, hpc]
    dsimp only
    split
    · exact h.quiet hpc rfl ⟨rfl, rfl, rfl, rfl, rfl⟩ rfl (fun _ => rfl) nofun rfl
    · exact h.quiet hpc rfl (insertStamped_kept ..).sameFlags rfl (fun _ => rfl) nofun rfl

/-- The calls, and failed compare-exchanges that are retried. -/
theorem stage_step {l : WeakAct T} (h : Stage w) (hs : Safe o w.shared) (hpre : w.pre o l)
    (hc : ClaimHolds w l) : Stage (w.next o l) := by
  cases l with
  | act l =>
    cases l with
    | tick t => exact stage_tick h hs
    | callAlloc n => exact h.quiet hpre.1 rfl ⟨rfl, rfl, rfl, rfl, rfl⟩ rfl nofun nofun rfl
    | callReap => exact h.quiet hpre.1 rfl ⟨rfl, rfl, rfl, rfl, rfl⟩ rfl nofun nofun rfl
    | callRetire => exact h.quiet hpre.1 rfl ⟨rfl, rfl, rfl, rfl, rfl⟩ rfl nofun nofun rfl
    | callFree t b => exact h.quiet hpre.1 rfl ⟨rfl, rfl, rfl, rfl, rfl⟩ rfl nofun nofun rfl
  | spurious t =>
    have hcas : (w.shared.pc t).atCas = true := hpre
    have hne : w.shared.pc t ≠ .claim := hc
    cases hpc : w.shared.pc t <;> rw [hpc] at hcas hne <;> first | exact absurd rfl hne | cases hcas
    exact h.quiet hpc rfl ⟨rfl, rfl, rfl, rfl, rfl⟩ rfl nofun nofun rfl

theorem safe_step {l : WeakAct T} (hs : Safe o w.shared) (hpre : w.pre o l) (hc : ClaimHolds w l) :
    Safe o (w.next o l).shared := by
  cases l with
  | act l => exact step_safe hs hpre hc
  | spurious t =>
    have hcas : (w.shared.pc t).atCas = true := hpre
    have hne : w.shared.pc t ≠ .claim := hc
    cases hpc : w.shared.pc t <;> rw [hpc] at hcas hne <;> first | exact absurd rfl hne | cases hcas
    rename_i b sp e
    have hraw : w.shared.A.raw ≠ 0 := fun e => by
      have := (hs.gone e).outside t
      rw [hpc] at this; cases this
    have hkn : span w.shared.A.mem b = sp ∧ nextFree w.shared.A.mem b = e := hs.knows hraw hpc
    show Safe o (w.shared.goto t ((w.shared.pc t).failed w.shared.A.remoteFree))
    rw [hpc]
    exact hs.goto hraw (by rw [hpc]; rfl) (by rw [hpc]; rfl) hkn.1 rfl (.inl (by rw [hpc]; rfl))
      (.plain rfl)

/-- **Release exactly once.** Once the arena is retired, every block is freed and
all calls have returned, the region has been given back once and the arena is
finished. -/
theorem release_once (hr : ((weakProtocol o).guard ClaimHolds).Reachable w)
    (hret : w.shared.A.retired = true) (hlive : w.shared.live = [])
    (hidle : ∀ t, w.shared.pc t = .idle) : w.shared.A.finished = true ∧ w.releases = 1 := by
  have hinv : Safe o w.shared ∧ Stage w := by
    refine LTS.Inductive.reachable (I := fun w => Safe o w.shared ∧ Stage w) ⟨?_, ?_⟩ hr
    · rintro w ⟨hi, h0⟩
      refine ⟨(inductive_safe o).init _ hi, ?_⟩
      obtain ⟨raw, m, hraw, e⟩ := hi
      refine ⟨fun h1 => ?_, fun _ => ⟨h0, fun h1 => ?_⟩, fun h1 => ?_⟩ <;> rw [e] at h1
      · cases h1
      · cases h1
      · exact absurd h1 (Nat.pos_iff_ne_zero.mp hraw)
    · rintro w l _ ⟨hs, h⟩ ⟨⟨hpre, rfl⟩, hc⟩
      exact ⟨safe_step hs hpre hc, stage_step h hs hpre hc⟩
  obtain ⟨hs, h⟩ := hinv
  have hcl : w.shared.A.cleanupClaimed = true := by
    by_contra hn
    have hn : w.shared.A.cleanupClaimed = false := by simpa using hn
    rcases h.waiting hret hn with h1 | ⟨t, ht⟩
    · -- nothing is live and nobody owes anything, so the count is zero
      have hraw : w.shared.A.raw ≠ 0 :=
        fun e => absurd ((hs.gone e).claimed.symm.trans hn) (by decide)
      obtain ⟨as, mb, ch, hc⟩ := hs.core hraw
      have hcount := hc.facts.count
      simp only [hlive, hidle, Pc.owes, List.map_nil, List.sum_nil, Finset.sum_const_zero] at hcount
      omega
    · rw [hidle t] at ht; cases ht
  have hraw : w.shared.A.raw = 0 := by
    by_contra hraw
    obtain ⟨t, ht⟩ := (h.before hraw).2 hcl
    rw [hidle t] at ht; cases ht
  obtain ⟨h1, h2⟩ := h.after hraw
  refine ⟨h2.resolve_right ?_, h1⟩
  rintro ⟨t, ht⟩
  rw [hidle t] at ht; cases ht

end Stage

def weakStart : Weak Bool := ⟨freshShared, 0⟩

theorem weakStart_reachable {C : Weak Bool → WeakAct Bool → Prop} :
    ((weakProtocol false).guard C).Reachable weakStart :=
  .init ⟨⟨4096, fun _ => 0, by decide, rfl⟩, rfl⟩

/-- A remote free with one failed push, the owner's retirement and its cleanup. -/
def releaseRun : List (WeakAct Bool) :=
  [.act (.callAlloc 192), .act (.tick false), .act (.tick false), .act (.tick false),
   .act (.callFree true 4096), .act (.tick true), .act (.tick true), .act (.tick true),
   .spurious true, .act (.tick true), .act (.tick true), .act (.tick true), .act (.tick true)]
    ++ (retire ++ List.replicate 6 (Act.tick false)).map .act

theorem release_once_after_free :
    (releaseRun.foldl (Weak.next false) weakStart).shared.A.finished = true ∧
      (releaseRun.foldl (Weak.next false) weakStart).releases = 1 :=
  release_once (weakStart_reachable.run (by decide +kernel)) (by decide +kernel) (by decide +kernel)
    (by decide +kernel)

/-- The owner retires an empty arena, finds the count at zero, and its
compare-exchange fails spuriously. -/
def missedRun : List (WeakAct Bool) := retire.map .act ++ [.spurious false]

/-- **Defect.** Nobody is left to release the region. -/
theorem release_missed :
    ∃ w : Weak Bool, (weakProtocol false).Reachable w ∧ w.shared.A.retired = true ∧
    w.shared.live = [] ∧
      (∀ t, w.shared.pc t = .idle) ∧ ¬ (w.shared.A.finished = true ∧ w.releases = 1) := by
  refine ⟨missedRun.foldl (Weak.next false) weakStart, ?_, by decide +kernel, by decide +kernel,
    by decide +kernel, by decide +kernel⟩
  exact ((weakStart_reachable (C := fun _ _ => True)).run (by decide +kernel)).of_guard

end Cmem.L2.ThreadArena

import Mathlib
import Cmem.L3Pool.Model

/-!
# What an operation does to the account of a pool

Every allocation entry point of the master pool admits some blocks of one size and
charges them alike (`Admits`); a release takes one block out and returns its
`requested_size`. The results about `active_bytes` and about the memory limit use
these two facts only.
-/
namespace Cmem.L3.Pool

/-! ## Fields -/

section Fields
variable (p : Counters) (s : State) (e : Event) (size n : Nat) (w : Who)

@[simp] theorem event_activeBytes : (p.event e).activeBytes = p.activeBytes := by
  unfold Counters.event; split <;> rfl
@[simp] theorem event_cfg : (p.event e).cfg = p.cfg := by unfold Counters.event; split <;> rfl
@[simp] theorem bucket_activeBytes : (p.bucket size n).activeBytes = p.activeBytes := by
  unfold Counters.bucket; simp only; split <;> rfl
@[simp] theorem bucket_cfg : (p.bucket size n).cfg = p.cfg := by
  unfold Counters.bucket; simp only; split <;> rfl
@[simp] theorem charge_activeBytes :
    (p.charge size).activeBytes = wrap (p.activeBytes + size) := rfl
@[simp] theorem charge_cfg : (p.charge size).cfg = p.cfg := rfl

@[simp] theorem events_activeBytes (es : List Event) :
    (es.foldl Counters.event p).activeBytes = p.activeBytes := by
  induction es generalizing p with
  | nil => rfl
  | cons e es ih => rw [List.foldl_cons, ih, event_activeBytes]

@[simp] theorem events_cfg (es : List Event) : (es.foldl Counters.event p).cfg = p.cfg := by
  induction es generalizing p with
  | nil => rfl
  | cons e es ih => rw [List.foldl_cons, ih, event_cfg]

/-- The peak and the operation counters. -/
def Counters.tally (p : Counters) : Nat × Nat × Nat × Nat :=
  (p.peakBytes, p.activeAllocations, p.totalAllocOps, p.totalFreeOps)

@[simp] theorem event_tally : (p.event e).tally = p.tally := by unfold Counters.event; split <;> rfl

@[simp] theorem bucket_tally : (p.bucket size n).tally = p.tally := by
  unfold Counters.bucket; simp only; split <;> rfl

@[simp] theorem events_tally (es : List Event) : (es.foldl Counters.event p).tally = p.tally := by
  induction es generalizing p with
  | nil => rfl
  | cons e es ih => rw [List.foldl_cons, ih, event_tally]

@[simp] theorem set_self : (s.set w p).pool w = p := Function.update_self ..
theorem set_ne {v w : Who} (h : v ≠ w) : (s.set w p).pool v = s.pool v :=
  Function.update_of_ne h _ _
@[simp] theorem set_live : (s.set w p).live = s.live := rfl

end Fields

/-- Everything but the quota, the breaker and the events of a pool. -/
structure SameAccount (s s' : State) : Prop where
  live : s'.live = s.live
  arenas : s'.arenas = s.arenas
  active : ∀ w, (s'.pool w).activeBytes = (s.pool w).activeBytes
  cfg : ∀ w, (s'.pool w).cfg = (s.pool w).cfg
  tally : ∀ w, (s'.pool w).tally = (s.pool w).tally

theorem SameAccount.refl (s : State) : SameAccount s s :=
  ⟨rfl, rfl, fun _ => rfl, fun _ => rfl, fun _ => rfl⟩

theorem SameAccount.trans {s s' s'' : State} (h : SameAccount s s') (h' : SameAccount s' s'') :
    SameAccount s s'' :=
  ⟨h'.live.trans h.live, h'.arenas.trans h.arenas, fun w => (h'.active w).trans (h.active w),
    fun w => (h'.cfg w).trans (h.cfg w), fun w => (h'.tally w).trans (h.tally w)⟩

theorem set_same {s : State} {w : Who} {p : Counters} (ha : p.activeBytes = (s.pool w).activeBytes)
    (hc : p.cfg = (s.pool w).cfg) (ht : p.tally = (s.pool w).tally) :
    SameAccount s (s.set w p) := by
  refine ⟨rfl, rfl, fun v => ?_, fun v => ?_, fun v => ?_⟩
  · by_cases e : v = w
    · subst e; rw [set_self]; exact ha
    · exact congrArg Counters.activeBytes (Function.update_of_ne e _ _)
  · by_cases e : v = w
    · subst e; rw [set_self]; exact hc
    · exact congrArg Counters.cfg (Function.update_of_ne e _ _)
  · by_cases e : v = w
    · subst e; rw [set_self]; exact ht
    · exact congrArg Counters.tally (Function.update_of_ne e _ _)

theorem accrue_same (s : State) (w : Who) (size : Nat) : SameAccount s (s.accrue w size).1 := by
  unfold State.accrue
  split
  · exact ⟨rfl, rfl, fun _ => rfl, fun _ => rfl, fun _ => rfl⟩
  · exact .refl s

theorem trip_same (s : State) (w : Who) : SameAccount s (s.trip w) := set_same rfl rfl rfl

theorem settle_same (s : State) (w : Who) (size : Nat) : SameAccount s (s.settle w size) := by
  unfold State.settle
  simp only
  split
  · exact (accrue_same s w size).trans (trip_same _ w)
  · exact accrue_same s w size

/-! ## Allocation -/

/-- `size` fits under the limit of the pool, if it has one that binds. -/
def Counters.Fits (p : Counters) (size : Nat) : Prop :=
  0 < p.cfg.limit → p.cfg.fallback = false → wrap (p.activeBytes + size) ≤ p.cfg.limit

/-- What `mp_alloc_internal` may return. -/
structure Internal (s : State) (w : Who) (size : Nat) (q : State × Option Block) : Prop where
  fail : q.2 = none → SameAccount s q.1
  live : q.1.live = s.live
  arenas : q.1.arenas = s.arenas
  cfg : (q.1.pool w).cfg = (s.pool w).cfg
  active : ∀ b, q.2 = some b → (q.1.pool w).activeBytes = wrap ((s.pool w).activeBytes + size)
  block : ∀ b, q.2 = some b → b.counted = true ∧ b.requested = size ∧ b.owner = w ∧
    (b.tier ≠ .emergency → (s.pool w).Fits size)

theorem SameAccount.internal {s s' : State} {w : Who} {size : Nat} (h : SameAccount s s') :
    Internal s w size (s', none) :=
  ⟨fun _ => h, h.live, h.arenas, h.cfg w, nofun, nofun⟩

theorem mpAllocInternal_spec (s : State) (w : Who) (size : Nat) (ans : Option Place) :
    Internal s w size (mpAllocInternal s w size ans) := by
  unfold mpAllocInternal
  simp only
  split
  · exact (SameAccount.refl s).internal
  · split
    · split
      · refine ⟨nofun, rfl, rfl, by simp, fun b _ => by simp, fun b hb => ?_⟩
        obtain rfl := Option.some.inj hb
        exact ⟨rfl, rfl, rfl, fun h => absurd rfl h⟩
      · exact (set_same (by simp) (by simp) (by simp)).internal
    · rename_i hex
      have hp :
          (if (s.pool w).exceeds size then (s.pool w).event (.oom size) else s.pool w).activeBytes =
            (s.pool w).activeBytes ∧
          (if (s.pool w).exceeds size then (s.pool w).event (.oom size) else s.pool w).cfg =
            (s.pool w).cfg ∧
          (if (s.pool w).exceeds size then (s.pool w).event (.oom size) else s.pool w).tally =
            (s.pool w).tally := by
        split <;> simp
      have hfits : (s.pool w).Fits size := by
        intro h0 hfb
        by_contra hlt
        exact hex ⟨by simp only [Counters.exceeds, Bool.and_eq_true, decide_eq_true_eq]; omega, hfb⟩
      generalize (if (s.pool w).exceeds size then (s.pool w).event (.oom size) else s.pool w) = p
        at hp
      cases ans with
      | none => exact (set_same hp.1 hp.2.1 hp.2.2).internal
      | some a =>
        refine ⟨nofun, rfl, rfl, ?_, fun b _ => ?_, fun b hb => ?_⟩
        · simp only [set_self, event_cfg, bucket_cfg, charge_cfg]
          split <;> exact hp.2.1
        · simp only [set_self, event_activeBytes, bucket_activeBytes, charge_activeBytes]
          split <;> rw [← hp.1]
        · obtain rfl := Option.some.inj hb
          exact ⟨rfl, rfl, rfl, fun _ => hfits⟩

/-- Some blocks of one size are admitted, and `charge` is charged for each. -/
structure Admits (s s' : State) (size charge n : Nat) : Prop where
  cfg : (s'.pool .master).cfg = (s.pool .master).cfg
  arenas : s'.arenas = s.arenas
  blocks : ∃ bs : List Block, s'.live = bs ++ s.live ∧ bs.length ≤ n ∧
    (s'.pool .master).activeBytes = wrap ((s.pool .master).activeBytes + bs.length * charge) ∧
    (∀ b ∈ bs, b.counted = true ∧ b.requested = size ∧ b.owner = .master) ∧
    -- all but one fit under the limit, and that one is the emergency block
    ∃ k, bs.length ≤ k + 1 ∧ (bs.filter fun b => b.tier ≠ .emergency).length ≤ k ∧
      (0 < (s.pool .master).cfg.limit → (s.pool .master).cfg.fallback = false →
        (s.pool .master).activeBytes + charge < 2 ^ 64 →
        k = 0 ∨ (s.pool .master).activeBytes + k * charge ≤ (s.pool .master).cfg.limit)

theorem SameAccount.admits {s s' : State} {size charge n : Nat} (h : SameAccount s s')
    (hlt : (s.pool .master).activeBytes < 2 ^ 64) : Admits s s' size charge n := by
  refine ⟨h.cfg _, h.arenas, [], h.live, Nat.zero_le n, ?_, nofun, 0, Nat.zero_le _, Nat.le_refl 0,
    fun _ _ _ => .inl rfl⟩
  rw [h.active, List.length_nil, Nat.zero_mul, Nat.add_zero, wrap, Nat.mod_eq_of_lt hlt]

theorem Internal.admits {s : State} {size charge : Nat} {q : State × Option Block} {b b' : Block}
    {s' : State} (h : Internal s .master charge q) (hb : q.2 = some b) (hs : SameAccount q.1 s')
    (hc : b'.counted = b.counted) (ho : b'.owner = b.owner) (ht : b'.tier = b.tier)
    (hr : b'.requested = size) : Admits s (s'.add b') size charge 1 := by
  obtain ⟨hbc, -, hbo, hfit⟩ := h.block b hb
  refine ⟨(hs.cfg _).trans h.cfg, hs.arenas.trans h.arenas, [b'], ?_, Nat.le_refl 1, ?_, ?_, ?_⟩
  · exact congrArg (b' :: ·) (hs.live.trans h.live)
  · rw [List.length_singleton, Nat.one_mul, ← h.active b hb]
    exact hs.active _
  · intro c hc'
    obtain rfl := List.mem_singleton.mp hc'
    exact ⟨hc.trans hbc, hr, ho.trans hbo⟩
  · by_cases he : b'.tier = .emergency
    · exact ⟨0, Nat.le_refl 1, by simp [he], fun _ _ _ => .inl rfl⟩
    · refine ⟨1, by simp, by simp [he], fun h0 hfb hlt => .inr ?_⟩
      have := hfit (by rw [← ht]; exact he) h0 hfb
      rw [wrap, Nat.mod_eq_of_lt hlt] at this
      rw [Nat.one_mul]; exact this

theorem mpAlignedAlloc_admits (s : State) (alignment size : Nat) (ans : Option Place)
    (hlt : (s.pool .master).activeBytes < 2 ^ 64) :
    Admits s (mpAlignedAlloc s .master alignment size ans).1 size
      (wrap (size + alignment + headerSize + (s.pool .master).cfg.canaryLen)) 1 := by
  unfold mpAlignedAlloc
  split
  · exact (SameAccount.refl s).admits hlt
  · have hi :=
      mpAllocInternal_spec s .master
        (wrap (size + alignment + headerSize + (s.pool .master).cfg.canaryLen)) ans
    simp only
    split
    · rename_i he
      rw [he] at hi
      exact (hi.fail rfl).admits hlt
    · rename_i s' b he
      rw [he] at hi
      exact hi.admits rfl (settle_same _ _ _) rfl rfl rfl rfl

theorem mpAlloc_admits (s : State) (size : Nat) (ans : Option Place) (ha : s.arenas = false)
    (hlt : (s.pool .master).activeBytes < 2 ^ 64) :
    Admits s (mpAlloc s size ans).1 size ((s.pool .master).cfg.chargeOf size) 1 := by
  have hroute : s.route = .master := by unfold State.route; rw [ha]; rfl
  unfold mpAlloc Config.chargeOf
  rw [hroute]
  split
  · exact (SameAccount.refl s).admits hlt
  · split
    · exact mpAlignedAlloc_admits s 64 size ans hlt
    · have hi := mpAllocInternal_spec s .master size ans
      split
      · rename_i he
        rw [he] at hi
        exact (hi.fail rfl).admits hlt
      · rename_i s' b he
        rw [he] at hi
        exact hi.admits rfl (settle_same _ _ _) rfl rfl rfl (hi.block b rfl).2.1

/-! ## Batches -/

theorem tierOf_ne_emergency (c : Config) (size : Nat) : c.tierOf size ≠ .emergency := by
  unfold Config.tierOf
  split
  · decide
  · split <;> decide

theorem countOs_same (s : State) (w : Who) (total n : Nat) :
    SameAccount s (s.countOs w total n) := by
  unfold State.countOs
  simp only
  split
  · exact set_same rfl rfl rfl
  · exact .refl s

/-- The elements that a loop produced. -/
structure Produced (w : Who) (total n : Nat) (r r' : Batch) : Prop where
  same : SameAccount r.state r'.state
  blocks : ∃ bs : List Block, r'.blocks = r.blocks ++ bs ∧ bs.length ≤ n ∧
    ∀ b ∈ bs, b.counted = true ∧ b.requested = total ∧ b.owner = w ∧ b.tier ≠ .emergency

theorem Produced.refl (w : Who) (total n : Nat) (r : Batch) : Produced w total n r r :=
  ⟨.refl _, [], (List.append_nil _).symm, Nat.zero_le n, nofun⟩

theorem Produced.cons {w : Who} {total n : Nat} {r r₁ r' : Batch} {b : Block}
    (hs : SameAccount r.state r₁.state) (hb : r₁.blocks = r.blocks ++ [b])
    (hblock : b.counted = true ∧ b.requested = total ∧ b.owner = w ∧ b.tier ≠ .emergency)
    (h : Produced w total n r₁ r') : Produced w total (n + 1) r r' := by
  obtain ⟨bs, he, hl, hbs⟩ := h.blocks
  refine ⟨hs.trans h.same, b :: bs, ?_, Nat.succ_le_succ hl, fun c hc => ?_⟩
  · rw [he, hb, List.append_assoc]; rfl
  · rcases List.mem_cons.mp hc with rfl | hc
    · exact hblock
    · exact hbs c hc

theorem batchLoop_spec (w : Who) (total size n : Nat) (as : List (Option Place)) (r : Batch) :
    Produced w total n r (batchLoop w total size n as r) := by
  induction n generalizing as r with
  | zero => exact .refl ..
  | succ n ih =>
    match as with
    | [] => exact .refl ..
    | none :: _ => exact .refl ..
    | some a :: as =>
      have hne := tierOf_ne_emergency (r.state.pool w).cfg total
      have hsame := accrue_same r.state w size
      unfold batchLoop
      simp only
      split
      · split
        · exact .cons (hsame.trans (trip_same _ w)) rfl ⟨rfl, rfl, rfl, hne⟩ (ih ..)
        · exact .cons (hsame.trans (trip_same _ w)) rfl ⟨rfl, rfl, rfl, hne⟩ (.refl ..)
      · exact .cons hsame rfl ⟨rfl, rfl, rfl, hne⟩ (ih ..)

theorem batchEmergency_spec (w : Who) (total charge size : Nat) (r : Batch) :
    SameAccount r.state (batchEmergency w total charge size r).state ∧
      ∃ b : Block, (batchEmergency w total charge size r).blocks = r.blocks ++ [b] ∧
        b.counted = true ∧ b.requested = total ∧ b.owner = w ∧ b.tier = .emergency := by
  have hset : SameAccount r.state (r.state.set w { r.state.pool w with emergencyUsed := true }) :=
    set_same rfl rfl rfl
  have hsame := hset.trans (accrue_same _ w size)
  unfold batchEmergency
  simp only
  split
  · exact ⟨hsame.trans (trip_same _ w), _, rfl, rfl, rfl, rfl, rfl⟩
  · exact ⟨hsame.trans (set_same (by simp) (by simp) (by simp)), _, rfl, rfl, rfl, rfl, rfl⟩

/-- The limit covers the elements a batch sets out to produce. -/
theorem batchPlan_spec (p : Counters) (total charge count : Nat) :
    let plan := batchPlan p total charge count
    (plan.doEmergency = true → plan.target < count) ∧ plan.target ≤ count ∧
    (0 < p.cfg.limit → p.cfg.fallback = false → p.activeBytes + charge < 2 ^ 64 →
      plan.fullExceed = true ∨ plan.emergencyOnly = true ∨
      p.activeBytes + plan.target * charge ≤ p.cfg.limit) := by
  unfold batchPlan
  split
  · split
    · rename_i hex
      split
      · exact ⟨nofun, Nat.le_refl _, fun _ h => by simp_all⟩
      · split
        · exact ⟨nofun, Nat.le_refl _, fun _ _ _ => .inr (.inl rfl)⟩
        · exact ⟨nofun, Nat.le_refl _, fun _ _ _ => .inl rfl⟩
    · rename_i hfit
      have hmul : p.activeBytes + charge < 2 ^ 64 →
          ∀ k ≤ wrap (p.cfg.limit + (2 ^ 64 - p.activeBytes)) / charge,
          p.activeBytes + k * charge ≤ p.cfg.limit := by
        intro hlt k hk
        rw [wrap, Nat.mod_eq_of_lt hlt] at hfit
        have h1 := Nat.div_mul_le_self (wrap (p.cfg.limit + (2 ^ 64 - p.activeBytes))) charge
        have h2 := Nat.mul_le_mul_right charge hk
        have h3 : wrap (p.cfg.limit + (2 ^ 64 - p.activeBytes)) ≤ p.cfg.limit - p.activeBytes := by
          rw [show p.cfg.limit + (2 ^ 64 - p.activeBytes) =
            p.cfg.limit - p.activeBytes + 2 ^ 64 by omega, wrap, Nat.add_mod_right]
          exact Nat.mod_le _ _
        omega
      simp only
      split
      · rename_i hlt
        split
        · exact ⟨nofun, Nat.le_refl _, fun _ h => by simp_all⟩
        · split
          · exact ⟨fun _ => hlt, Nat.le_of_lt hlt,
              fun _ _ h => .inr (.inr (hmul h _ (Nat.le_refl _)))⟩
          · exact ⟨nofun, Nat.le_of_lt hlt, fun _ _ h => .inr (.inr (hmul h _ (Nat.le_refl _)))⟩
      · rename_i hge
        exact ⟨nofun, Nat.le_refl _, fun _ _ h => .inr (.inr (hmul h _ (by simp only; omega)))⟩
  · rename_i h0
    exact ⟨nofun, Nat.le_refl _, fun h => absurd h h0⟩

@[simp] theorem chargeAll_activeBytes (p : Counters) (n charge hist : Nat) :
    (p.chargeAll n charge hist).activeBytes = wrap (p.activeBytes + n * charge) := by
  unfold Counters.chargeAll
  simp only [events_activeBytes]
  have : wrap (p.activeBytes + wrap (n * charge)) = wrap (p.activeBytes + n * charge) := by
    unfold wrap; rw [Nat.add_mod_mod]
  split <;> simp [this]

@[simp] theorem chargeAll_cfg (p : Counters) (n charge hist : Nat) :
    (p.chargeAll n charge hist).cfg = p.cfg := by
  unfold Counters.chargeAll
  simp only [events_cfg]
  split <;> simp

/-- The elements of a batch: all but an emergency element come from the loop. -/
theorem batchRun_spec (w : Who) (total size : Nat) (plan : Plan) (as : List (Option Place))
    (s : State) :
    let r := (batchRun w total size plan as s).1
    SameAccount s r.state ∧ ∃ bs : List Block, ∃ es : List Block, r.blocks = bs ++ es ∧
      (plan.emergencyOnly = true → bs = []) ∧ bs.length ≤ plan.target ∧ es.length ≤ 1 ∧
      (plan.emergencyOnly = false → plan.doEmergency = false → es = []) ∧
      (∀ b ∈ bs, b.counted = true ∧ b.requested = total ∧ b.owner = w ∧ b.tier ≠ .emergency) ∧
      ∀ b ∈ es, b.counted = true ∧ b.requested = total ∧ b.owner = w ∧ b.tier = .emergency := by
  obtain ⟨s₁, hs₁⟩ :
    ∃ s₁, (if plan.emergencyOnly then s.set w ((s.pool w).event (.oom total)) else s) = s₁ :=
    ⟨_, rfl⟩
  have hsame : SameAccount s s₁ := by
    rw [← hs₁]
    split
    · exact set_same (by simp) (by simp) (by simp)
    · exact .refl s
  obtain ⟨r, hr⟩ : ∃ r : Batch, (if plan.emergencyOnly then ⟨s₁, [], false⟩ else
    { batchLoop w total size plan.target as ⟨s₁, [], false⟩ with
      state := (batchLoop w total size plan.target as ⟨s₁, [], false⟩).state.countOs w total
        (batchLoop w total size plan.target as ⟨s₁, [], false⟩).blocks.length }) = r := ⟨_, rfl⟩
  have hprod : Produced w total plan.target ⟨s₁, [], false⟩ r ∧
    (plan.emergencyOnly = true → r.blocks = []) := by
    rw [← hr]
    split
    · exact ⟨.refl .., fun _ => rfl⟩
    · rename_i hn
      obtain ⟨h1, h2⟩ := batchLoop_spec w total size plan.target as ⟨s₁, [], false⟩
      exact ⟨⟨h1.trans (countOs_same ..), h2⟩, fun h => absurd h hn⟩
  obtain ⟨⟨hsr, bs, hbs, hlen, hall⟩, hempty⟩ := hprod
  rw [List.nil_append] at hbs
  unfold batchRun
  simp only [hs₁, hr]
  obtain ⟨s₂, hs₂⟩ :
    ∃ s₂, (if plan.breach && decide (r.blocks.length = plan.target) && !r.tripped then
    r.state.set w ((r.state.pool w).event (.oom total)) else r.state) = s₂ := ⟨_, rfl⟩
  have hsame₂ : SameAccount r.state s₂ := by
    rw [← hs₂]
    split
    · exact set_same (by simp) (by simp) (by simp)
    · exact .refl _
  rw [hs₂]
  split
  · rename_i hem
    obtain ⟨hes, b, hb, hc, hq, ho, ht⟩ :=
      batchEmergency_spec w total total size ⟨s₂, r.blocks, r.tripped⟩
    refine ⟨((hsame.trans hsr).trans hsame₂).trans hes, bs, [b], ?_, fun h => ?_, hlen,
      Nat.le_refl 1, fun h1 h2 => ?_, hall, fun c hc' => ?_⟩
    · rw [hb, hbs]
    · rw [← hbs]; exact hempty h
    · simp [h1, h2] at hem
    · obtain rfl := List.mem_singleton.mp hc'
      exact ⟨hc, hq, ho, ht⟩
  · refine ⟨(hsame.trans hsr).trans hsame₂, bs, [], ?_, fun h => ?_, hlen, Nat.zero_le 1,
      fun _ _ => rfl, hall, nofun⟩
    · rw [List.append_nil]; exact hbs
    · rw [← hbs]; exact hempty h

theorem relink_tier (c : Config) (size : Nat) :
    ((fun b : Block => decide (b.tier ≠ .emergency)) ∘ c.relink size) =
      fun b => decide (b.tier ≠ .emergency) := by
  funext b
  unfold Config.relink
  simp only [Function.comp]
  split <;> rfl

theorem relink_spec {c : Config} {size total : Nat} {b : Block} (ht : c.chargeOf size = total)
    (hb : b.counted = true ∧ b.requested = total ∧ b.owner = .master) :
    (c.relink size b).counted = true ∧ (c.relink size b).requested = size ∧
    (c.relink size b).owner = .master := by
  unfold Config.relink
  split
  · exact ⟨hb.1, rfl, hb.2.2⟩
  · rename_i hc
    unfold Config.chargeOf at ht
    rw [if_neg hc] at ht
    exact ⟨hb.1, hb.2.1.trans ht.symm, hb.2.2⟩

theorem mpAllocBatch_admits (s : State) (size count : Nat) (as : List (Option Place))
    (ha : s.arenas = false) (hlt : (s.pool .master).activeBytes < 2 ^ 64) :
    Admits s (mpAllocBatch s size count as).1 size ((s.pool .master).cfg.chargeOf size) count := by
  have hroute : s.route = .master := by unfold State.route; rw [ha]; rfl
  unfold mpAllocBatch
  rw [hroute]
  simp only
  split
  · exact (SameAccount.refl s).admits hlt
  · rename_i hstart
    generalize htot : (s.pool .master).cfg.chargeOf size = total
    obtain ⟨hde, htc, hlim⟩ := batchPlan_spec (s.pool .master) total total count
    generalize batchPlan (s.pool .master) total total count = plan at hde htc hlim
    obtain ⟨s₁, hs₁⟩ :
      ∃ s₁, s.set .master ((List.replicate plan.oomCount (Event.oom total)).foldl Counters.event
      (s.pool .master)) = s₁ := ⟨_, rfl⟩
    have hsame₁ : SameAccount s s₁ := by rw [← hs₁]; exact set_same (by simp) (by simp) (by simp)
    rw [hs₁]
    split
    · exact (hsame₁.trans (set_same (by simp) (by simp) (by simp))).admits hlt
    · rename_i hfull
      obtain ⟨hsame₂, bs, es, hblocks, hempty, hbl, hel, hnoe, hall, hemer⟩ :=
        batchRun_spec .master total size plan as s₁
      generalize batchRun .master total size plan as s₁ = q at hsame₂ hblocks
      obtain ⟨r, em⟩ := q
      have hsame := hsame₁.trans hsame₂
      unfold batchFinish
      simp only at hblocks hsame ⊢
      split
      · exact hsame.admits hlt
      · have hcfg : (r.state.pool .master).cfg = (s.pool .master).cfg := hsame.cfg _
        have hnum : bs.length + es.length ≤ count := by
          by_cases he : plan.emergencyOnly = true
          · rw [hempty he, List.length_nil]; omega
          · by_cases hd : plan.doEmergency = true
            · have := hde hd; omega
            · rw [hnoe (by simpa using he) (by simpa using hd), List.length_nil]; omega
        refine ⟨?_, hsame.arenas, (r.blocks.map ((r.state.pool .master).cfg.relink size)).reverse,
          ?_, ?_, ?_, ?_, bs.length, ?_, ?_, ?_⟩
        · show ((r.state.set .master _).pool .master).cfg = _
          simp only [set_self, chargeAll_cfg, hcfg]
        · exact congrArg _ hsame.live
        · rw [List.length_reverse, List.length_map, hblocks, List.length_append]; exact hnum
        · show ((r.state.set .master _).pool .master).activeBytes = _
          simp only [set_self, chargeAll_activeBytes, hsame.active, List.length_reverse,
            List.length_map]
        · intro b hb
          obtain ⟨b₀, hb₀, rfl⟩ := List.mem_map.mp (List.mem_reverse.mp hb)
          rw [hblocks] at hb₀
          have hb₀ : b₀.counted = true ∧ b₀.requested = total ∧ b₀.owner = .master := by
            rcases List.mem_append.mp hb₀ with h | h
            · exact ⟨(hall b₀ h).1, (hall b₀ h).2.1, (hall b₀ h).2.2.1⟩
            · exact ⟨(hemer b₀ h).1, (hemer b₀ h).2.1, (hemer b₀ h).2.2.1⟩
          rw [hcfg]
          exact relink_spec htot hb₀
        · rw [List.length_reverse, List.length_map, hblocks, List.length_append]; omega
        · rw [List.filter_reverse, List.length_reverse, List.filter_map, List.length_map, hblocks,
            relink_tier, List.filter_append, List.length_append]
          have hnil : (es.filter fun b => b.tier ≠ .emergency) = [] :=
            List.filter_eq_nil_iff.mpr fun b hb => by simp [(hemer b hb).2.2.2]
          rw [hnil, List.length_nil, Nat.add_zero]
          exact List.length_filter_le _ _
        · intro h0 hfb hnw
          rcases hlim h0 hfb hnw with h | h | h
          · exact absurd h hfull
          · exact .inl (by rw [hempty h, List.length_nil])
          · right
            have := Nat.mul_le_mul_right total hbl
            omega

/-! ## Release -/

/-- What a free of the block returns. -/
def Block.owes (b : Block) : Nat := if b.counted then b.requested else 0

def owed (bs : List Block) : Nat := (bs.map Block.owes).sum

@[simp] theorem owed_nil : owed [] = 0 := rfl
@[simp] theorem owed_cons (b : Block) (bs : List Block) : owed (b :: bs) = b.owes + owed bs := by
  simp [owed]
@[simp] theorem owed_append (bs cs : List Block) : owed (bs ++ cs) = owed bs + owed cs := by
  simp [owed]

theorem perm_owed {bs cs : List Block} (h : bs.Perm cs) : owed bs = owed cs := (h.map _).sum_eq

/-- The blocks `bs` leave, and the account gets back what they owe. -/
structure Releases (s s' : State) (bs : List Block) : Prop where
  cfg : (s'.pool .master).cfg = (s.pool .master).cfg
  arenas : s'.arenas = s.arenas
  live : (bs ++ s'.live).Perm s.live
  active : owed bs ≤ (s.pool .master).activeBytes → (s.pool .master).activeBytes < 2 ^ 64 →
    (s'.pool .master).activeBytes = (s.pool .master).activeBytes - owed bs

theorem Releases.refl (s : State) : Releases s s [] := ⟨rfl, rfl, .refl _, fun _ _ => rfl⟩

theorem Releases.trans {s s' s'' : State} {bs cs : List Block} (h : Releases s s' bs)
    (h' : Releases s' s'' cs) : Releases s s'' (bs ++ cs) := by
  refine ⟨h'.cfg.trans h.cfg, h'.arenas.trans h.arenas, ?_, fun hle hlt => ?_⟩
  · rw [List.append_assoc]
    exact (h'.live.append_left bs).trans h.live
  · rw [owed_append] at hle ⊢
    have h1 := h.active (by omega) hlt
    rw [h'.active (by omega) (by omega), h1]
    omega

section Release
variable {p : Counters} {b : Block} {bs rest : List Block} {s : State} {intact : Bool}

/-- The counters after the discharge of one block. -/
def Counters.pay (p : Counters) (b : Block) : Counters :=
  if b.counted then p.discharge b.requested else p

theorem pay_activeBytes (h : b.owes ≤ p.activeBytes) (hlt : p.activeBytes < 2 ^ 64) :
    (p.pay b).activeBytes = p.activeBytes - b.owes := by
  unfold Counters.pay Block.owes at *
  split
  · rename_i hc
    rw [if_pos hc] at h
    show wrap _ = _
    unfold wrap
    omega
  · rename_i hc
    rfl

@[simp] theorem pay_cfg : (p.pay b).cfg = p.cfg := by unfold Counters.pay; split <;> rfl

theorem verifyCanary_same (p : Counters) (size : Nat) (intact : Bool) :
    (p.verifyCanary size intact).activeBytes = p.activeBytes ∧
    (p.verifyCanary size intact).cfg = p.cfg := by
  unfold Counters.verifyCanary
  split <;> simp

theorem release_counters (p : Counters) (b : Block) (intact : Bool) :
    (p.release b intact).activeBytes = ((p.verifyCanary b.requested intact).pay b).activeBytes ∧
      (p.release b intact).cfg = p.cfg := by
  have hc := (verifyCanary_same p b.requested intact).2
  unfold Counters.release
  simp only [event_activeBytes, event_cfg]
  rw [← hc, ← pay_cfg (p := p.verifyCanary b.requested intact) (b := b)]
  unfold Counters.pay
  split <;> split <;> exact ⟨rfl, rfl⟩

theorem verifyCanary_tally (p : Counters) (size : Nat) (intact : Bool) :
    (p.verifyCanary size intact).tally = p.tally := by
  unfold Counters.verifyCanary
  split
  · rw [event_tally]
    exact event_tally p _
  · rfl

theorem pay_tally {p q : Counters} (h : q.tally = p.tally) (b : Block) :
    (q.pay b).tally = (p.pay b).tally := by
  simp only [Counters.tally, Prod.mk.injEq] at h
  obtain ⟨h1, h2, h3, h4⟩ := h
  unfold Counters.pay Counters.discharge
  split <;> simp [Counters.tally, h1, h2, h3, h4]

theorem release_tally (p : Counters) (b : Block) (intact : Bool) :
    (p.release b intact).tally = (p.pay b).tally := by
  rw [← pay_tally (verifyCanary_tally p b.requested intact) b]
  unfold Counters.release Counters.pay
  simp only [event_tally]
  split <;> split <;> split <;> rfl

theorem release_releases (intact : Bool) (hb : b ∈ s.live) (ho : b.owner = .master) :
    Releases s (s.release b intact) [b] := by
  have hhome : b.home .master = .master := by unfold Block.home; split; rfl; exact ho
  obtain ⟨h1, h2⟩ := release_counters (s.pool .master) b intact
  obtain ⟨h3, -⟩ := verifyCanary_same (s.pool .master) b.requested intact
  have hpool : (s.release b intact).pool .master = (s.pool .master).release b intact := by
    unfold State.release
    simp only [hhome]
    exact set_self _ _ _
  refine ⟨by rw [hpool, h2], rfl, ?_, fun hle hlt => ?_⟩
  · exact (List.perm_cons_erase hb).symm
  · rw [owed_cons, owed_nil, Nat.add_zero] at hle ⊢
    rw [hpool, h1, pay_activeBytes (by rw [h3]; exact hle) (by rw [h3]; exact hlt), h3]

theorem foldl_erase_perm {live : List Block} (h : (bs ++ rest).Perm live) :
    (bs.foldl List.erase live).Perm rest := by
  induction bs generalizing live with
  | nil => exact h.symm
  | cons b bs ih =>
    refine ih ?_
    have := h.erase b
    rwa [List.cons_append, List.erase_cons_head] at this

theorem foldl_pay (hle : owed bs ≤ p.activeBytes) (hlt : p.activeBytes < 2 ^ 64) :
    (bs.foldl Counters.pay p).activeBytes = p.activeBytes - owed bs := by
  induction bs generalizing p with
  | nil => rfl
  | cons b bs ih =>
    rw [owed_cons] at hle ⊢
    have h1 := pay_activeBytes (p := p) (b := b) (by omega) hlt
    rw [List.foldl_cons, ih (by omega) (by omega), h1]
    omega

theorem foldl_pay_cfg : (bs.foldl Counters.pay p).cfg = p.cfg := by
  induction bs generalizing p with
  | nil => rfl
  | cons b bs ih => rw [List.foldl_cons, ih, pay_cfg]

theorem foldl_event_map : bs.foldl (fun p b => p.event (.free b.requested)) p =
    (bs.map fun b => Event.free b.requested).foldl Counters.event p := by rw [List.foldl_map]

theorem flushSlabBlock_releases (h : (bs ++ rest).Perm s.live) :
    Releases s (flushSlabBlock s bs) bs := by
  have hpool : (flushSlabBlock s bs).pool .master =
      (bs.map fun b => Event.free b.requested).foldl Counters.event
        (bs.foldl Counters.pay (s.pool .master)) := by
    unfold flushSlabBlock
    simp only [foldl_event_map]
    exact set_self _ _ _
  refine ⟨by rw [hpool, events_cfg, foldl_pay_cfg], rfl, ?_, fun hle hlt => ?_⟩
  · exact ((foldl_erase_perm h).append_left bs).trans h
  · rw [hpool, events_activeBytes, foldl_pay hle hlt]

theorem find_spec {ptr : Nat} (h : s.find ptr = some b) : b ∈ s.live ∧ b.ptr = ptr :=
  ⟨List.mem_of_find?_eq_some h, by simpa using List.find?_some h⟩

theorem mpFree_releases (ptr : Nat) (intact : Bool) (ho : ∀ b ∈ s.live, b.owner = .master) :
    ∃ bs, Releases s (mpFree s ptr intact) bs := by
  unfold mpFree
  split
  · exact ⟨[], .refl s⟩
  · split
    · exact ⟨[], .refl s⟩
    · rename_i b hb
      have hm := (find_spec hb).1
      exact ⟨[b], release_releases _ hm (ho b hm)⟩

/-- The blocks collected so far are live, and no later pointer is one of theirs. -/
theorem mpFreeBatch_releases {ptrs : List (Nat × Bool)} {hdrs : List Block}
    (ho : ∀ b ∈ s.live, b.owner = .master) (hnd : ((ptrs.map Prod.fst).filter (· ≠ 0)).Nodup)
    (hper : ∃ rest, (hdrs ++ rest).Perm s.live)
    (hfresh : ∀ b ∈ hdrs, ∀ q ∈ ptrs, q.1 ≠ 0 → q.1 ≠ b.ptr) :
    ∃ bs, Releases s (mpFreeBatch ptrs hdrs s) bs := by
  induction ptrs generalizing hdrs s with
  | nil =>
    obtain ⟨rest, hper⟩ := hper
    exact ⟨hdrs, flushSlabBlock_releases hper⟩
  | cons q ptrs ih =>
    obtain ⟨ptr, intact⟩ := q
    have hnd' : ((ptrs.map Prod.fst).filter (· ≠ 0)).Nodup := by
      refine List.Nodup.sublist ?_ hnd
      rw [List.map_cons]
      exact (List.sublist_cons_self _ _).filter _
    have hfresh' : ∀ b ∈ hdrs, ∀ q ∈ ptrs, q.1 ≠ 0 → q.1 ≠ b.ptr := fun b hb q hq =>
      hfresh b hb q (List.mem_cons_of_mem _ hq)
    unfold mpFreeBatch
    split
    · exact ih ho hnd' hper hfresh'
    · rename_i h0
      split
      · exact ih ho hnd' hper hfresh'
      · rename_i b hfind
        obtain ⟨hb, hptr⟩ := find_spec hfind
        obtain ⟨rest, hper⟩ := hper
        have hnew : b ∉ hdrs := fun hm => hfresh b hm (ptr, intact) List.mem_cons_self h0 hptr.symm
        have hrest : b ∈ rest := (List.mem_append.mp (hper.mem_iff.mpr hb)).resolve_left hnew
        have hlater : ∀ q ∈ ptrs, q.1 ≠ 0 → q.1 ≠ b.ptr := by
          intro q hq hq0 he
          rw [List.map_cons, List.filter_cons_of_pos (by simpa using h0)] at hnd
          refine (List.nodup_cons.mp hnd).1 (List.mem_filter.mpr ⟨?_, by simpa using h0⟩)
          exact List.mem_map.mpr ⟨q, hq, he.trans hptr⟩
        have hper' : (hdrs ++ [b] ++ rest.erase b).Perm s.live := by
          rw [List.append_assoc]
          exact ((List.perm_cons_erase hrest).symm.append_left hdrs).trans hper
        split
        · split
          · have hflush := flushSlabBlock_releases hper'
            obtain ⟨bs, hbs⟩ :
              ∃ bs, Releases (flushSlabBlock s (hdrs ++ [b])) (mpFreeBatch ptrs [] _) bs :=
              ih (fun c hc => ho c (hflush.live.subset (List.mem_append_right _ hc))) hnd'
                ⟨_, .refl _⟩ nofun
            exact ⟨_, hflush.trans hbs⟩
          · refine ih ho hnd' ⟨_, hper'⟩ fun c hc => ?_
            rcases List.mem_append.mp hc with hc | hc
            · exact hfresh' c hc
            · rw [List.mem_singleton.mp hc]; exact hlater
        · have hrel := release_releases intact hb (ho b hb)
          have hper₁ : (hdrs ++ rest.erase b).Perm (s.release b intact).live := by
            have := hper.erase b
            rwa [List.erase_append_right _ hnew] at this
          obtain ⟨bs, hbs⟩ : ∃ bs, Releases (s.release b intact) (mpFreeBatch ptrs hdrs _) bs :=
            ih (fun c hc => ho c (hrel.live.subset (List.mem_append_right _ hc))) hnd'
              ⟨_, hper₁⟩ hfresh'
          exact ⟨_, hrel.trans hbs⟩

end Release

theorem relink_fields (c : Config) (size : Nat) (b : Block) :
    (c.relink size b).counted = b.counted ∧ (c.relink size b).owner = b.owner ∧
    (c.relink size b).tier = b.tier := by
  unfold Config.relink
  split <;> exact ⟨rfl, rfl, rfl⟩

/-! ## Batches on either pool -/

/-- `mpAllocBatch` on a pool. -/
def batchOn (s : State) (w : Who) (size count : Nat) (as : List (Option Place)) :
    State × List Nat :=
  let p := s.pool w
  let c := p.cfg
  if count = 0 ∨ size = 0 ∨ (p.isDirty = true ∧ c.fallback = false) ∨
    (c.breaker = true ∧ p.tripped = true) then (s, [])
  else
    let total := c.chargeOf size
    let plan := batchPlan p total total count
    let s := s.set w ((List.replicate plan.oomCount (Event.oom total)).foldl Counters.event p)
    if plan.fullExceed then (s.set w ((s.pool w).event (.oom total)), [])
    else
      let (r, emergency) := batchRun w total size plan as s
      batchFinish w total size r emergency

/-- A batch is nothing to the account, or some blocks and one charge for them. -/
theorem batchOn_form (s : State) (w : Who) (size count : Nat) (as : List (Option Place)) :
    SameAccount s (batchOn s w size count as).1 ∨
      ∃ s₁ bs k, SameAccount s s₁ ∧
        (batchOn s w size count as).1 =
          { s₁.set w ((s₁.pool w).chargeAll bs.length ((s.pool w).cfg.chargeOf size) k) with
            live := bs ++ s.live } ∧
        ∀ b ∈ bs, b.counted = true ∧ b.owner = w ∧
        ((s.pool w).cfg.limit = 0 → b.tier ≠ .emergency) := by
  unfold batchOn
  simp only
  split
  · exact .inl (.refl s)
  · rename_i hstart
    generalize htot : (s.pool w).cfg.chargeOf size = total
    have hlim :
        (s.pool w).cfg.limit = 0 → (batchPlan (s.pool w) total total count).emergencyOnly = false ∧
        (batchPlan (s.pool w) total total count).doEmergency = false := by
      intro h0
      unfold batchPlan
      rw [if_neg (by omega)]
      exact ⟨rfl, rfl⟩
    generalize batchPlan (s.pool w) total total count = plan at hlim
    obtain ⟨s₁, hs₁⟩ :
      ∃ s₁, s.set w ((List.replicate plan.oomCount (Event.oom total)).foldl Counters.event
      (s.pool w)) = s₁ := ⟨_, rfl⟩
    have hsame₁ : SameAccount s s₁ := by rw [← hs₁]; exact set_same (by simp) (by simp) (by simp)
    rw [hs₁]
    split
    · exact .inl (hsame₁.trans (set_same (by simp) (by simp) (by simp)))
    · obtain ⟨hsame₂, bs, es, hblocks, -, -, -, hnoe, hall, hemer⟩ :=
        batchRun_spec w total size plan as s₁
      generalize batchRun w total size plan as s₁ = q at hsame₂ hblocks
      obtain ⟨r, em⟩ := q
      have hsame := hsame₁.trans hsame₂
      unfold batchFinish
      simp only at hblocks hsame ⊢
      split
      · exact .inl hsame
      · refine .inr ⟨r.state, (r.blocks.map ((r.state.pool w).cfg.relink size)).reverse,
          r.blocks.length - if em = true then 1 else 0, hsame, ?_, fun b hb => ?_⟩
        · rw [List.length_reverse, List.length_map, ← hsame.live]
          rfl
        · rw [List.mem_reverse] at hb
          obtain ⟨b', hb', rfl⟩ := List.mem_map.mp hb
          have hrel := relink_fields (r.state.pool w).cfg size b'
          rw [hrel.1, hrel.2.1, hrel.2.2]
          rw [hblocks] at hb'
          rcases List.mem_append.mp hb' with hb' | hb'
          · exact ⟨(hall b' hb').1, (hall b' hb').2.2.1, fun _ => (hall b' hb').2.2.2⟩
          · refine ⟨(hemer b' hb').1, (hemer b' hb').2.2.1, fun h0 => ?_⟩
            rw [hnoe (hlim h0).1 (hlim h0).2] at hb'
            exact absurd hb' (List.not_mem_nil)

/-! ## Single allocations on either pool -/

/-- `mp_alloc_internal` returns a block, read off the state before it. -/
def Grants (s : State) (w : Who) (size : Nat) (ans : Option Place) : Prop :=
  ¬(size = 0 ∨ ((s.pool w).isDirty = true ∧ (s.pool w).cfg.fallback = false) ∨
      ((s.pool w).cfg.breaker = true ∧ (s.pool w).tripped = true)) ∧
    if (s.pool w).exceeds size = true ∧ (s.pool w).cfg.fallback = false then
      (s.pool w).emergencyFits size = true
    else ans.isSome = true

instance decGrants (s : State) (w : Who) (size : Nat) (ans : Option Place) :
    Decidable (Grants s w size ans) := by
  unfold Grants; exact inferInstance

theorem charge_same {s : State} {w : Who} {p : Counters} {size : Nat}
    (ha : p.activeBytes = (s.pool w).activeBytes) (hc : p.cfg = (s.pool w).cfg)
    (ht : p.tally = (s.pool w).tally) {q : Counters}
    (hqa : q.activeBytes = (p.charge size).activeBytes) (hqc : q.cfg = (p.charge size).cfg)
    (hqt : q.tally = (p.charge size).tally) :
    SameAccount (s.set w ((s.pool w).charge size)) (s.set w q) := by
  have hset : s.set w q = (s.set w ((s.pool w).charge size)).set w q := by simp [State.set]
  rw [hset]
  refine set_same ?_ ?_ ?_
  · rw [set_self, hqa, charge_activeBytes, charge_activeBytes, ha]
  · rw [set_self, hqc, charge_cfg, charge_cfg, hc]
  · rw [set_self, hqt]
    simp only [Counters.tally, Prod.mk.injEq] at ht
    obtain ⟨h1, h2, h3, h4⟩ := ht
    simp only [Counters.tally, Counters.charge, ha, hc, h1, h2, h3, h4]

/-- It is nothing to the account, or one charge and one block. -/
theorem mpAllocInternal_form (s : State) (w : Who) (size : Nat) (ans : Option Place) :
    ((mpAllocInternal s w size ans).2 = none ∧ SameAccount s (mpAllocInternal s w size ans).1) ∨
      Grants s w size ans ∧ ∃ b, (mpAllocInternal s w size ans).2 = some b ∧
        SameAccount (s.set w ((s.pool w).charge size)) (mpAllocInternal s w size ans).1 ∧
        b.counted = true ∧ b.owner = w ∧
        (b.tier = .emergency → (s.pool w).emergencyFits size = true) := by
  unfold mpAllocInternal Grants
  simp only
  by_cases h0 : size = 0 ∨ ((s.pool w).isDirty = true ∧ (s.pool w).cfg.fallback = false) ∨
      ((s.pool w).cfg.breaker = true ∧ (s.pool w).tripped = true)
  · rw [if_pos h0]
    exact .inl ⟨rfl, .refl s⟩
  rw [if_neg h0]
  by_cases h1 : (s.pool w).exceeds size = true ∧ (s.pool w).cfg.fallback = false
  · rw [if_pos h1, if_pos h1]
    have hem :
      ((s.pool w).event (.oom size)).emergencyFits size = (s.pool w).emergencyFits size := by
      unfold Counters.emergencyFits Counters.event
      split <;> rfl
    rw [hem]
    split
    · rename_i hf
      refine .inr ⟨⟨h0, hf⟩, _, rfl,
        charge_same (p := (s.pool w).event (.oom size)) (by simp) (by simp) (by simp) rfl rfl rfl,
        rfl, rfl, fun _ => hf⟩
    · exact .inl ⟨rfl, set_same (by simp) (by simp) (by simp)⟩
  · rw [if_neg h1, if_neg h1]
    obtain ⟨p, hp⟩ :
      ∃ p, (if (s.pool w).exceeds size = true then (s.pool w).event (.oom size) else s.pool w) =
        p := ⟨_, rfl⟩
    have hpp : p.activeBytes = (s.pool w).activeBytes ∧ p.cfg = (s.pool w).cfg ∧
      p.tally = (s.pool w).tally := by
      rw [← hp]
      split <;> simp
    rw [hp]
    cases ans with
    | none => exact .inl ⟨rfl, set_same hpp.1 hpp.2.1 hpp.2.2⟩
    | some a =>
      refine .inr ⟨⟨h0, rfl⟩, _, rfl, charge_same (p := if (s.pool w).cfg.tierOf size = .os then
        { p with osAllocatedBytes := wrap (p.osAllocatedBytes + size) } else p) ?_ ?_ ?_ ?_ ?_ ?_,
          rfl, rfl,
        fun he => absurd he (tierOf_ne_emergency _ _)⟩
      · split <;> exact hpp.1
      · split <;> exact hpp.2.1
      · split <;> exact hpp.2.2
      · rw [event_activeBytes, bucket_activeBytes]
      · rw [event_cfg, bucket_cfg]
      · rw [event_tally, bucket_tally]

/-- One charge and one block. -/
structure Charged (s s' : State) (w : Who) (size : Nat) : Prop where
  same : SameAccount (s.set w ((s.pool w).charge size)) { s' with live := s.live }
  block : ∃ b : Block, s'.live = b :: s.live ∧ b.counted = true ∧ b.owner = w ∧
    (b.tier = .emergency → (s.pool w).emergencyFits size = true)

theorem charged_of_internal {s s₁ : State} {w : Who} {n size : Nat} {b b' : Block}
    (h : SameAccount (s.set w ((s.pool w).charge n)) s₁) (hb : b.counted = true ∧ b.owner = w ∧
      (b.tier = .emergency → (s.pool w).emergencyFits n = true))
    (hb' : b'.counted = b.counted ∧ b'.owner = b.owner ∧ b'.tier = b.tier) :
    Charged s ((s₁.settle w size).add b') w n := by
  have hset := settle_same s₁ w size
  refine ⟨?_, b', ?_, by rw [hb'.1]; exact hb.1, by rw [hb'.2.1]; exact hb.2.1,
    by rw [hb'.2.2]; exact hb.2.2⟩
  · have := h.trans hset
    exact ⟨rfl, this.arenas, this.active, this.cfg, this.tally⟩
  · show b' :: (s₁.settle w size).live = _
    rw [hset.live, h.live]
    rfl

theorem mpAlignedAlloc_form (s : State) (w : Who) (alignment size : Nat) (ans : Option Place) :
    SameAccount s (mpAlignedAlloc s w alignment size ans).1 ∨
      ∃ n, Grants s w n ans ∧ Charged s (mpAlignedAlloc s w alignment size ans).1 w n := by
  unfold mpAlignedAlloc
  split
  · exact .inl (.refl s)
  · have hform :=
      mpAllocInternal_form s w (wrap (size + alignment + headerSize + (s.pool w).cfg.canaryLen)) ans
    simp only
    generalize mpAllocInternal s w (wrap (size + alignment + headerSize + (s.pool w).cfg.canaryLen))
      ans = r at hform
    obtain ⟨s₁, o⟩ := r
    rcases hform with ⟨ho, hsame⟩ | ⟨hg, b, ho, hsame, hb⟩
    · simp only at ho hsame
      subst ho
      exact .inl hsame
    · simp only at ho hsame
      subst ho
      exact .inr ⟨_, hg, charged_of_internal hsame hb ⟨rfl, rfl, rfl⟩⟩

theorem mpAlloc_eq {s : State} {size : Nat} (hs : size ≠ 0) (ans : Option Place) :
    mpAlloc s size ans =
      match mpAllocInternal s s.route ((s.pool s.route).cfg.chargeOf size) ans with
      | (s', none) => (s', none)
      | (s', some b) => ((s'.settle s.route size).add ((s.pool s.route).cfg.relink size b),
          some ((s.pool s.route).cfg.relink size b).ptr) := by
  unfold mpAlloc Config.chargeOf Config.relink
  rw [if_neg hs]
  by_cases hc : (s.pool s.route).cfg.cacheAligned = true
  · simp only [hc, if_true]
    unfold mpAlignedAlloc
    exact if_neg (by decide)
  · rw [Bool.not_eq_true] at hc
    rw [hc]
    rfl

theorem mpAlloc_form (s : State) (size : Nat) (ans : Option Place) :
    SameAccount s (mpAlloc s size ans).1 ∨
      size ≠ 0 ∧ Grants s s.route ((s.pool s.route).cfg.chargeOf size) ans ∧
        Charged s (mpAlloc s size ans).1 s.route ((s.pool s.route).cfg.chargeOf size) := by
  by_cases h0 : size = 0
  · unfold mpAlloc
    rw [if_pos h0]
    exact .inl (.refl s)
  · rw [mpAlloc_eq h0]
    have hform := mpAllocInternal_form s s.route ((s.pool s.route).cfg.chargeOf size) ans
    generalize mpAllocInternal s s.route ((s.pool s.route).cfg.chargeOf size) ans = r at hform
    obtain ⟨s₁, o⟩ := r
    rcases hform with ⟨ho, hsame⟩ | ⟨hg, b, ho, hsame, hb⟩
    · simp only at ho hsame
      subst ho
      exact .inl hsame
    · simp only at ho hsame
      subst ho
      exact .inr ⟨h0, hg, charged_of_internal hsame hb (relink_fields _ size b)⟩

/-! ## Frames -/

/-- A part of the counters that neither an event nor the breaker touches. -/
structure Blind {α : Type*} (f : Counters → α) : Prop where
  event : ∀ p e, f (p.event e) = f p
  trip : ∀ p : Counters, f { p with tripped := true } = f p

/-- The live blocks and that part of every pool are as before. -/
structure Keeps {α : Type*} (f : Counters → α) (s s' : State) : Prop where
  live : s'.live = s.live
  part : ∀ w, f (s'.pool w) = f (s.pool w)

section Frame
variable {α : Type*} {f : Counters → α} {s s' s'' : State} {w : Who}

theorem Keeps.refl (s : State) : Keeps f s s := ⟨rfl, fun _ => rfl⟩

theorem Keeps.trans (h : Keeps f s s') (h' : Keeps f s' s'') : Keeps f s s'' :=
  ⟨h'.live.trans h.live, fun w => (h'.part w).trans (h.part w)⟩

theorem Keeps.set {p : Counters} (h : f p = f (s.pool w)) : Keeps f s (s.set w p) := by
  refine ⟨rfl, fun v => ?_⟩
  by_cases e : v = w
  · subst e
    rw [set_self]
    exact h
  · rw [set_ne _ _ e]

theorem Blind.events (hf : Blind f) (es : List Event) (p : Counters) :
    f (es.foldl Counters.event p) = f p := by
  induction es generalizing p with
  | nil => rfl
  | cons e es ih => rw [List.foldl_cons, ih, hf.event]

theorem Keeps.accrue (s : State) (w : Who) (size : Nat) : Keeps f s (s.accrue w size).1 := by
  unfold State.accrue
  split
  · exact ⟨rfl, fun _ => rfl⟩
  · exact .refl s

theorem Blind.tripped (hf : Blind f) (s : State) (w : Who) : Keeps f s (s.trip w) :=
  .set (hf.trip _)

theorem Blind.settle (hf : Blind f) (s : State) (w : Who) (size : Nat) :
    Keeps f s (s.settle w size) := by
  unfold State.settle
  simp only
  split
  · exact (Keeps.accrue s w size).trans (hf.tripped _ w)
  · exact .accrue s w size

theorem Blind.batchLoop (hf : Blind f) (w : Who) (total size n : Nat) (as : List (Option Place))
    (r : Batch) : Keeps f r.state (batchLoop w total size n as r).state := by
  induction n generalizing as r with
  | zero => exact .refl _
  | succ n ih =>
    match as with
    | [] => exact .refl _
    | none :: _ => exact .refl _
    | some a :: as =>
      have hs : Keeps f r.state (r.state.accrue w size).1 := .accrue r.state w size
      unfold Pool.batchLoop
      simp only
      split
      · split
        · exact (hs.trans (hf.tripped _ w)).trans (ih as ⟨_, _, _⟩)
        · exact hs.trans (hf.tripped _ w)
      · exact hs.trans (ih as ⟨_, _, _⟩)

/-- The emergency element sets its flag and nothing else that is in the part. -/
theorem Blind.batchEmergency (hf : Blind f) (w : Who) (total charge size : Nat) (r : Batch) :
    Keeps f (r.state.set w { r.state.pool w with emergencyUsed := true })
      (batchEmergency w total charge size r).state := by
  have ha : Keeps f _ _ :=
    .accrue (r.state.set w { r.state.pool w with emergencyUsed := true }) w size
  unfold Pool.batchEmergency
  simp only
  split
  · exact ha.trans (hf.tripped _ w)
  · exact ha.trans (.set (hf.event _ _))

end Frame

end Cmem.L3.Pool

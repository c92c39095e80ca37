import Cmem.L3Pool.Parity

/-!
# The peak of `active_bytes`

`peak_bytes` against the maximum `active_bytes` has had since the creation of the
pool or the last `mp_reset_stats`, and a THREAD_SAFE pool against one without the
flag that is given the same operations. The flag changes nothing but the peak; an
allocation adds its size twice to the peak of a pool without it.
-/
namespace Cmem.L3.Pool

/-- mirrors `mp_reset_stats`, src/src/cmem_config.c:496-520 -/
def mpResetStats (s : State) : State :=
  let p := s.pool .master
  s.set .master { p with totalAllocOps := 0, totalFreeOps := 0, peakBytes := p.activeBytes,
                         histogram := fun _ => 0 }

inductive StatOp where
  | alloc (size : Nat) (ans : Option Place)
  | allocBatch (size count : Nat) (as : List (Option Place))
  | free (ptr : Nat) (intact : Bool)
  | resetStats

def State.apply (s : State) : StatOp → State
  | .alloc size ans => (mpAlloc s size ans).1
  | .allocBatch size count as => (mpAllocBatch s size count as).1
  | .free ptr intact => mpFree s ptr intact
  | .resetStats => mpResetStats s

/-- A state, and the maximum of `active_bytes` since creation or the last reset. -/
structure Metered where
  state : State
  top : Who → Nat

def Metered.next (x : Metered) (op : StatOp) : Metered where
  state := x.state.apply op
  top w :=
    match op, w with
    | .resetStats, .master => ((x.state.apply op).pool .master).activeBytes
    | _, _ => max (x.top w) ((x.state.apply op).pool w).activeBytes

/-- Only live pointers are freed. -/
def StatOp.pre (s : State) : StatOp → Prop
  | .alloc size _ => size < 2 ^ 64
  | .allocBatch size count _ => size < 2 ^ 64 ∧ count < 2 ^ 64
  | .free ptr _ => ∃ b ∈ s.live, b.ptr = ptr
  | .resetStats => True

instance decStatPre (s : State) : (op : StatOp) → Decidable (op.pre s)
  | .alloc size _ => inferInstanceAs (Decidable (size < 2 ^ 64))
  | .allocBatch size count _ => inferInstanceAs (Decidable (size < 2 ^ 64 ∧ count < 2 ^ 64))
  | .free ptr _ => inferInstanceAs (Decidable (∃ b ∈ s.live, b.ptr = ptr))
  | .resetStats => inferInstanceAs (Decidable True)

/-- A THREAD_SAFE pool and one without the flag, given the same operations and the
same answers of the tiers. -/
def twinSystem (c : Config) (arenas : Bool) : LTS (Metered × Metered) StatOp :=
  .det (fun x => ∃ q n, x = (⟨State.init { c with threadSafe := true } arenas q n, fun _ => 0⟩,
      ⟨State.init { c with threadSafe := false } arenas q n, fun _ => 0⟩))
    (fun x op => op.pre x.1.state) fun x op => (x.1.next op, x.2.next op)

/-! ## What the flag does not change -/

/-- A pool without its peak and its THREAD_SAFE flag. -/
def Counters.core (p : Counters) : Counters :=
  { p with peakBytes := 0, cfg := { p.cfg with threadSafe := false } }

def State.core (s : State) : State := { s with pool := fun w => (s.pool w).core }

section Core
variable (p : Counters) (s : State) (w : Who) (e : Event) (n k : Nat)

@[simp] theorem core_pool : s.core.pool w = (s.pool w).core := rfl
@[simp] theorem core_route : s.core.route = s.route := rfl
@[simp] theorem core_chargeOf : p.core.cfg.chargeOf n = p.cfg.chargeOf n := rfl

theorem event_core : (p.event e).core = p.core.event e := by
  rw [event_eq, event_eq]; rfl

theorem set_core : (s.set w p).core = s.core.set w p.core := by
  unfold State.core State.set
  congr 1
  funext v
  by_cases h : v = w
  · subst h; simp
  · simp [h]

variable {p} {s} {w}

theorem accrue_core : ((s.accrue w n).1.core, (s.accrue w n).2) = (s.core.accrue w n) := by
  unfold State.accrue
  have hc : (s.core.pool w).cfg.breaker = (s.pool w).cfg.breaker := rfl
  by_cases h : (s.pool w).cfg.breaker = true
  · rw [if_pos h, if_pos (hc.trans h)]; rfl
  · rw [if_neg h, if_neg (hc ▸ h)]

theorem settle_core : (s.settle w n).core = s.core.settle w n := by
  have h := accrue_core (s := s) (w := w) n
  unfold State.settle
  simp only [← h]
  split
  · exact set_core _ _ _
  · rfl

theorem settle_add_core (b : Block) : ((s.settle w n).add b).core = (s.core.settle w n).add b := by
  rw [← settle_core]
  rfl

theorem serve_core (p : Counters) : (p.core.serve n).core = (p.serve n).core := by
  rw [serve_eq, serve_eq, bucket_eq, bucket_eq]
  rfl

theorem checked_core (p : Counters) : p.core.checked n = (p.checked n).core := by
  unfold Counters.checked
  have hc : p.core.exceeds n = p.exceeds n := rfl
  by_cases h : p.exceeds n = true
  · rw [if_pos h, if_pos (hc.trans h), event_core]
  · rw [if_neg h, if_neg (hc ▸ h)]

theorem ready_core (h : Ready s w n) : Ready s.core w n := ⟨h.nonzero, h.charge, h.clean, h.breaker⟩

theorem ready_of_core (h : Ready s.core w n) : Ready s w n :=
  ⟨h.nonzero, h.charge, h.clean, h.breaker⟩

/-- `mp_alloc` reads neither the peak nor the flag. -/
theorem mpAlloc_core (ans : Option Place) :
    (mpAlloc s.core n ans).1.core = (mpAlloc s n ans).1.core := by
  by_cases hr : Ready s s.route n
  · rw [mpAlloc_eq hr.nonzero, mpAlloc_eq hr.nonzero, mpAllocInternal_eq hr, core_route, core_pool,
      core_chargeOf]
    have heq := mpAllocInternal_eq (ready_core n hr) ans
    rw [core_pool, core_chargeOf] at heq
    rw [heq]
    simp only [checked_core]
    generalize hp : (s.pool s.route).checked ((s.pool s.route).cfg.chargeOf n) = p
    by_cases h1 : (s.pool s.route).exceeds ((s.pool s.route).cfg.chargeOf n) = true ∧
      (s.pool s.route).cfg.fallback = false
    · rw [if_pos h1,
        if_pos (show (s.pool s.route).core.exceeds ((s.pool s.route).core.cfg.chargeOf n) = true ∧
          (s.pool s.route).core.cfg.fallback = false from h1)]
      by_cases h2 : p.emergencyFits ((s.pool s.route).cfg.chargeOf n) = true
      · rw [if_pos h2,
          if_pos (show p.core.emergencyFits ((s.pool s.route).core.cfg.chargeOf n) = true from h2)]
        simp only [settle_add_core, set_core]
        rfl
      · rw [if_neg h2,
          if_neg (show ¬p.core.emergencyFits ((s.pool s.route).core.cfg.chargeOf n) = true from h2)]
        simp only [set_core]
        rfl
    · rw [if_neg h1,
        if_neg
          (show ¬((s.pool s.route).core.exceeds ((s.pool s.route).core.cfg.chargeOf n) = true ∧
            (s.pool s.route).core.cfg.fallback = false) from h1)]
      cases ans with
      | none =>
        simp only [set_core]
        rfl
      | some a =>
        simp only [settle_add_core, set_core, serve_core]
        rfl
  · rw [mpAlloc_refused hr, mpAlloc_refused (fun h => hr (ready_of_core n h))]
    rfl

theorem verifyCanary_core (p : Counters) (intact : Bool) :
    p.core.verifyCanary n intact = (p.verifyCanary n intact).core := by
  unfold Counters.verifyCanary
  have hc : p.core.cfg.canary = p.cfg.canary := rfl
  by_cases h : p.cfg.canary = true ∧ intact = false
  · rw [if_pos h, if_pos (hc ▸ h), event_eq, event_eq, event_eq, event_eq]
    rfl
  · rw [if_neg h, if_neg (hc ▸ h)]

theorem release_core (b : Block) (intact : Bool) :
    (s.core.release b intact).core = (s.release b intact).core := by
  have hp (p : Counters) : p.core.release b intact = (p.release b intact).core := by
    unfold Counters.release
    rw [verifyCanary_core]
    generalize p.verifyCanary b.requested intact = p
    simp only [event_eq]
    cases b.counted <;> by_cases h1 : b.tier = .os <;> by_cases h2 :
      b.tier = .emergency <;> simp only [h1, h2, if_true, if_false] <;> rfl
  unfold State.release
  have hs := set_core ((s.pool (b.home .master)).release b intact) s (b.home .master)
  simp only [core_pool, hp]
  rw [← hs]
  rfl

theorem mpFree_core (ptr : Nat) (intact : Bool) :
    (mpFree s.core ptr intact).core = (mpFree s ptr intact).core := by
  unfold mpFree
  have hf : s.core.find ptr = s.find ptr := rfl
  by_cases h : ptr = 0
  · rw [if_pos h, if_pos h]; rfl
  · rw [if_neg h, if_neg h, hf]
    cases s.find ptr with
    | none => rfl
    | some b => exact release_core b intact

theorem mpResetStats_core : (mpResetStats s.core).core = (mpResetStats s).core := by
  unfold mpResetStats
  simp only [set_core]
  rfl

theorem trip_core : (s.trip w).core = s.core.trip w := set_core _ _ _

theorem batchPlan_core (p : Counters) (total count : Nat) :
    batchPlan p.core total n count = batchPlan p total n count := rfl

def Batch.core (r : Batch) : Batch := { r with state := r.state.core }

theorem batchLoop_core (total size : Nat) (as : List (Option Place)) (r : Batch) :
    batchLoop w total size n as r.core = (batchLoop w total size n as r).core := by
  induction n generalizing as r with
  | zero => rfl
  | succ n ih =>
    rcases as with _ | ⟨_ | a, as⟩
    · rfl
    · rfl
    · have hacc :
        r.core.state.accrue w size = ((r.state.accrue w size).1.core, (r.state.accrue w size).2) :=
        (accrue_core size).symm
      rw [batchLoop, batchLoop]
      simp only [hacc]
      generalize r.state.accrue w size = x
      obtain ⟨s', spent⟩ := x
      cases spent with
      | true =>
        simp only [if_true]
        by_cases ht : (r.state.pool w).cfg.tierOf total = .os
        · rw [if_pos ht,
            if_pos (show (r.core.state.pool w).cfg.tierOf total = .os from ht), ← ih, ← trip_core]
          rfl
        · rw [if_neg ht,
            if_neg (show ¬(r.core.state.pool w).cfg.tierOf total = .os from ht), ← trip_core]
          rfl
      | false =>
        simp only [Bool.false_eq_true, if_false]
        rw [← ih]
        rfl

theorem countOs_core (total : Nat) : s.core.countOs w total n = (s.countOs w total n).core := by
  unfold State.countOs
  by_cases h : (s.pool w).cfg.tierOf total = .os
  · rw [if_pos h, if_pos (show (s.core.pool w).cfg.tierOf total = .os from h), set_core]
    rfl
  · rw [if_neg h, if_neg (show ¬(s.core.pool w).cfg.tierOf total = .os from h)]

theorem batchEmergency_core (total charge size : Nat) (r : Batch) :
    batchEmergency w total charge size r.core = (batchEmergency w total charge size r).core := by
  have hset : r.core.state.set w { r.core.state.pool w with emergencyUsed := true } =
      (r.state.set w { r.state.pool w with emergencyUsed := true }).core := by rw [set_core]; rfl
  unfold batchEmergency
  simp only [hset, ← accrue_core]
  generalize (r.state.set w { r.state.pool w with emergencyUsed := true }).accrue w size = x
  obtain ⟨s', spent⟩ := x
  cases spent with
  | true =>
    simp only [if_true, ← trip_core]
    rfl
  | false =>
    simp only [Bool.false_eq_true, if_false, core_pool, ← event_core, ← set_core]
    rfl

/-- `batchRun` behind its loop. -/
def batchTail (w : Who) (total size : Nat) (plan : Plan) (r : Batch) : Batch × Bool :=
  let full : Bool := r.blocks.length = plan.target
  let s :=
    if plan.breach && full && !r.tripped then r.state.set w ((r.state.pool w).event (.oom total))
    else r.state
  let r := { r with state := s }
  if !r.tripped && (plan.emergencyOnly || plan.doEmergency && full) then
    (batchEmergency w total total size r, true)
  else (r, false)

theorem set_event_core (s : State) (e : Event) :
    s.core.set w ((s.core.pool w).event e) = (s.set w ((s.pool w).event e)).core := by
  rw [set_core, event_core]
  rfl

theorem batchTail_core (total size : Nat) (plan : Plan) (r : Batch) :
    batchTail w total size plan r.core =
      ((batchTail w total size plan r).1.core, (batchTail w total size plan r).2) := by
  have hs :
    (if (plan.breach && decide (r.core.blocks.length = plan.target) && !r.core.tripped) = true then
        r.core.state.set w ((r.core.state.pool w).event (.oom total)) else r.core.state) =
      (if (plan.breach && decide (r.blocks.length = plan.target) && !r.tripped) = true then
        r.state.set w ((r.state.pool w).event (.oom total)) else r.state).core := by
    split
    · rw [if_pos (by assumption)]
      exact set_event_core _ _
    · rw [if_neg (by assumption)]
      rfl
  unfold batchTail
  simp only [hs]
  generalize (if (plan.breach && decide (r.blocks.length = plan.target) && !r.tripped) = true then
        r.state.set w ((r.state.pool w).event (.oom total)) else r.state) = s'
  split
  · rw [if_pos (by assumption)]
    exact Prod.ext (batchEmergency_core total total size ⟨s', r.blocks, r.tripped⟩) rfl
  · rw [if_neg (by assumption)]
    rfl

theorem batchRun_core (total size : Nat) (plan : Plan) (as : List (Option Place)) :
    batchRun w total size plan as s.core =
      ((batchRun w total size plan as s).1.core, (batchRun w total size plan as s).2) := by
  have hrun (s : State) : batchRun w total size plan as s = batchTail w total size plan
      (if plan.emergencyOnly then ⟨s.set w ((s.pool w).event (.oom total)), [], false⟩
        else
          { batchLoop w total size plan.target as ⟨s, [], false⟩ with
            state := (batchLoop w total size plan.target as ⟨s, [], false⟩).state.countOs w total
              (batchLoop w total size plan.target as ⟨s, [], false⟩).blocks.length }) := by
    unfold batchRun batchTail
    cases plan.emergencyOnly <;> rfl
  rw [hrun, hrun, ← batchTail_core]
  congr 1
  cases plan.emergencyOnly with
  | true =>
    simp only [if_true, set_event_core]
    rfl
  | false =>
    have hloop : batchLoop w total size plan.target as ⟨s.core, [], false⟩ =
        (batchLoop w total size plan.target as ⟨s, [], false⟩).core :=
      batchLoop_core plan.target total size as ⟨s, [], false⟩
    simp only [Bool.false_eq_true, if_false, hloop]
    generalize batchLoop w total size plan.target as ⟨s, [], false⟩ = r
    unfold Batch.core
    simp only [countOs_core]

theorem batchFinish_core (total size : Nat) (r : Batch) (e : Bool) :
    (batchFinish w total size r.core e).1.core = (batchFinish w total size r e).1.core := by
  unfold batchFinish
  by_cases h : r.blocks = []
  · rw [if_pos h, if_pos (show r.core.blocks = [] from h)]
    rfl
  · rw [if_neg h, if_neg (show ¬r.core.blocks = [] from h)]
    have hall (p : Counters) (k : Nat) :
        (p.core.chargeAll r.blocks.length total k).core =
          (p.chargeAll r.blocks.length total k).core := by
      rw [chargeAll_eq, chargeAll_eq, bucket_eq, bucket_eq]
      rfl
    have hset (k : Nat) :
        (r.core.state.set w ((r.core.state.pool w).chargeAll r.blocks.length total k)).core =
          (r.state.set w ((r.state.pool w).chargeAll r.blocks.length total k)).core := by
      rw [set_core, set_core]
      exact congrArg _ (hall _ k)
    exact congrArg (fun t : State => ({ t with
      live := (r.blocks.map ((r.state.pool w).cfg.relink size)).reverse ++ r.state.live } :
        State)) (hset _)

theorem batchOn_core (count : Nat) (as : List (Option Place)) :
    (batchOn s.core w n count as).1.core = (batchOn s w n count as).1.core := by
  unfold batchOn
  by_cases h0 : count = 0 ∨ n = 0 ∨ (s.pool w).isDirty = true ∧ (s.pool w).cfg.fallback = false ∨
      (s.pool w).cfg.breaker = true ∧ (s.pool w).tripped = true
  · simp only
    rw [if_pos h0,
      if_pos (show count = 0 ∨ n = 0 ∨
        (s.core.pool w).isDirty = true ∧ (s.core.pool w).cfg.fallback = false ∨
        (s.core.pool w).cfg.breaker = true ∧ (s.core.pool w).tripped = true from h0)]
    rfl
  simp only
  rw [if_neg h0,
      if_neg
        (show ¬(count = 0 ∨ n = 0 ∨ (s.core.pool w).isDirty = true ∧ (s.core.pool w).cfg.fallback =
          false ∨ (s.core.pool w).cfg.breaker = true ∧ (s.core.pool w).tripped = true) from h0)]
  rw [core_pool, core_chargeOf, batchPlan_core]
  generalize (s.pool w).cfg.chargeOf n = total
  generalize batchPlan (s.pool w) total total count = plan
  have hset :
      s.core.set w
        ((List.replicate plan.oomCount (Event.oom total)).foldl Counters.event (s.pool w).core) =
          (s.set w
            ((List.replicate plan.oomCount (Event.oom total)).foldl Counters.event
              (s.pool w))).core := by
    rw [set_core, events_eq, events_eq]
    rfl
  rw [hset]
  generalize s.set w
    ((List.replicate plan.oomCount (Event.oom total)).foldl Counters.event (s.pool w)) = s'
  by_cases hf : plan.fullExceed = true
  · rw [if_pos hf, if_pos hf]
    simp only [set_event_core]
    rfl
  · rw [if_neg hf, if_neg hf, batchRun_core]
    exact batchFinish_core total n _ _

theorem mpAllocBatch_core (count : Nat) (as : List (Option Place)) :
    (mpAllocBatch s.core n count as).1.core = (mpAllocBatch s n count as).1.core :=
  batchOn_core (w := s.route) n count as

theorem apply_core (op : StatOp) : (s.core.apply op).core = (s.apply op).core := by
  cases op with
  | alloc size ans => exact mpAlloc_core size ans
  | allocBatch size count as => exact mpAllocBatch_core size count as
  | free ptr intact => exact mpFree_core ptr intact
  | resetStats => exact mpResetStats_core

end Core

/-! ## What the peak does -/

/-- An allocation by a pool without THREAD_SAFE leaves the peak where it is. -/
def Room (s : State) : StatOp → Prop
  | .alloc size ans => (s.pool s.route).cfg.threadSafe = true ∨
      (size ≠ 0 ∧ Grants s s.route ((s.pool s.route).cfg.chargeOf size) ans →
        (s.pool s.route).activeBytes + 2 * (s.pool s.route).cfg.chargeOf size ≤
          (s.pool s.route).peakBytes)
  | _ => True

instance decRoom (s : State) : (op : StatOp) → Decidable (Room s op)
  | .alloc size ans => inferInstanceAs (Decidable ((s.pool s.route).cfg.threadSafe = true ∨
      (size ≠ 0 ∧ Grants s s.route ((s.pool s.route).cfg.chargeOf size) ans →
        (s.pool s.route).activeBytes + 2 * (s.pool s.route).cfg.chargeOf size ≤
          (s.pool s.route).peakBytes)))
  | .allocBatch .. | .free .. | .resetStats => inferInstanceAs (Decidable True)

/-- A free takes no more than is charged. -/
def Covered (s : State) : StatOp → Prop
  | .free ptr _ => ∀ b ∈ s.live, b.ptr = ptr → b.requested ≤ (s.pool (b.home .master)).activeBytes
  | _ => True

instance decCovered (s : State) : (op : StatOp) → Decidable (Covered s op)
  | .free ptr _ =>
    inferInstanceAs (Decidable (∀ b ∈ s.live, b.ptr = ptr →
      b.requested ≤ (s.pool (b.home .master)).activeBytes))
  | .alloc .. | .allocBatch .. | .resetStats => inferInstanceAs (Decidable True)

/-- The meter of a pool is right. -/
structure Counters.Peaked (p : Counters) (top : Nat) : Prop where
  peak : p.peakBytes = top
  active : p.activeBytes ≤ top
  size : top < 2 ^ 64

/-- What an operation does to the meter of a pool. -/
inductive Meters (p p' : Counters) : Prop where
  | keep : p'.activeBytes ≤ p.activeBytes → p'.peakBytes = p.peakBytes → Meters p p'
  | raise : p'.activeBytes < 2 ^ 64 → p'.peakBytes = max p.peakBytes p'.activeBytes → Meters p p'

theorem Counters.Peaked.meters {p p' : Counters} {top : Nat} (h : p.Peaked top) (hm : Meters p p') :
    p'.Peaked (max top p'.activeBytes) := by
  have h1 := h.active
  have h2 := h.peak
  have h3 := h.size
  cases hm with
  | keep ha hp => exact ⟨by omega, by omega, by omega⟩
  | raise ha hp => exact ⟨by omega, by omega, by omega⟩

section Step
variable {s s' : State} {w : Who} {n : Nat}

theorem SameAccount.meters (h : SameAccount s s') (v : Who) : Meters (s.pool v) (s'.pool v) :=
  .keep (Nat.le_of_eq (h.active v)) (congrArg Prod.fst (h.tally v))

theorem charge_meters {p : Counters} (hp : p.peakBytes < 2 ^ 64)
    (h : p.cfg.threadSafe = true ∨ p.activeBytes + 2 * n ≤ p.peakBytes) :
    Meters p (p.charge n) := by
  refine .raise (wrap_lt _) ?_
  unfold Counters.charge
  simp only
  rcases h with ht | hroom
  · rw [if_pos ht]
    split <;> omega
  · rw [wrap_of_lt (n := p.activeBytes + n) (by omega)]
    split
    · rw [wrap_of_lt (by omega)]
      split <;> omega
    · rw [wrap_of_lt (by omega)]
      split <;> omega

theorem Charged.meters (h : Charged s s' w n) (hm : Meters (s.pool w) ((s.pool w).charge n))
    (v : Who) : Meters (s.pool v) (s'.pool v) := by
  have hs := h.same.meters v
  have hact : (s'.pool v).activeBytes = ((s.set w ((s.pool w).charge n)).pool v).activeBytes :=
    h.same.active v
  have hpk : (s'.pool v).peakBytes = ((s.set w ((s.pool w).charge n)).pool v).peakBytes :=
    congrArg Prod.fst (h.same.tally v)
  by_cases hv : v = w
  · subst hv
    rw [set_self] at hact hpk
    cases hm with
    | keep h1 h2 => exact .keep (hact ▸ h1) (hpk.trans h2)
    | raise h1 h2 => exact .raise (hact ▸ h1) (by rw [hpk, hact]; exact h2)
  · rw [set_ne _ _ hv] at hact hpk
    exact .keep (Nat.le_of_eq hact) hpk

theorem release_meters {p : Counters} {b : Block} (ha : p.activeBytes < 2 ^ 64)
    (hb : b.requested ≤ p.activeBytes) (intact : Bool) : Meters p (p.release b intact) := by
  obtain ⟨h3, -⟩ := verifyCanary_same p b.requested intact
  have hle : b.owes ≤ p.activeBytes := by
    unfold Block.owes
    split <;> omega
  have hact : (p.release b intact).activeBytes = p.activeBytes - b.owes := by
    rw [(release_counters p b intact).1,
      pay_activeBytes (by rw [h3]; exact hle) (by rw [h3]; exact ha), h3]
  have hpk : (p.pay b).peakBytes = p.peakBytes := by unfold Counters.pay; split <;> rfl
  exact .keep (by omega) ((congrArg Prod.fst (release_tally p b intact)).trans hpk)

theorem mpFree_meters {ptr : Nat} (intact : Bool) (hsz : ∀ v, (s.pool v).activeBytes < 2 ^ 64)
    (hc : Covered s (.free ptr intact)) (v : Who) :
    Meters (s.pool v) ((mpFree s ptr intact).pool v) := by
  unfold mpFree
  split
  · exact .keep (Nat.le_refl _) rfl
  · split
    · exact .keep (Nat.le_refl _) rfl
    · rename_i b hf
      obtain ⟨hmem, hptr⟩ := find_spec hf
      unfold State.release
      by_cases hv : v = b.home .master
      · subst hv
        have := release_meters (hsz (b.home .master)) (hc b hmem hptr) intact
        simpa [State.set] using this
      · have hne : (s.set (b.home .master) ((s.pool (b.home .master)).release b intact)).pool v =
          s.pool v := set_ne _ _ hv
        exact .keep (Nat.le_of_eq (congrArg Counters.activeBytes hne))
          (congrArg Counters.peakBytes hne)

theorem mpAllocBatch_meters (size count : Nat) (as : List (Option Place)) (v : Who) :
    Meters (s.pool v) ((mpAllocBatch s size count as).1.pool v) := by
  rcases batchOn_form s s.route size count as with hsame | ⟨s₁, bs, k, hsame, heq, -⟩
  · exact hsame.meters v
  · have hpool : ((mpAllocBatch s size count as).1.pool v) =
        (s₁.set s.route
          ((s₁.pool s.route).chargeAll bs.length ((s.pool s.route).cfg.chargeOf size) k)).pool v :=
      congrArg (fun t => t.pool v) heq
    have hact := hsame.active v
    have hpk : (s₁.pool v).peakBytes = (s.pool v).peakBytes := congrArg Prod.fst (hsame.tally v)
    by_cases hv : v = s.route
    · subst hv
      rw [set_self, chargeAll_eq] at hpool
      rw [hpool]
      refine .raise (wrap_lt _) ?_
      simp only [hact, hpk]
      split <;> omega
    · rw [set_ne _ _ hv] at hpool
      rw [hpool]
      exact .keep (Nat.le_of_eq hact) hpk

/-- The meters of a pool behind an operation. -/
theorem apply_meters {op : StatOp} (hne : op ≠ .resetStats)
    (hpk : ∀ v, (s.pool v).peakBytes < 2 ^ 64) (hsz : ∀ v, (s.pool v).activeBytes < 2 ^ 64)
    (hroom : Room s op) (hc : Covered s op) (v : Who) :
    Meters (s.pool v) ((s.apply op).pool v) := by
  cases op with
  | alloc size ans =>
    rcases mpAlloc_form s size ans with hsame | ⟨h0, hg, hch⟩
    · exact hsame.meters v
    · exact hch.meters (charge_meters (hpk _) (hroom.imp_right fun h => h ⟨h0, hg⟩)) v
  | allocBatch size count as => exact mpAllocBatch_meters size count as v
  | free ptr intact => exact mpFree_meters intact hsz hc v
  | resetStats => exact absurd rfl hne

end Step

/-! ## Runs -/

/-- The meters of both pools are right. -/
def Metered.Good (x : Metered) : Prop := ∀ w, (x.state.pool w).Peaked (x.top w)

theorem Metered.Good.next {x : Metered} {op : StatOp} (h : x.Good) (hroom : Room x.state op)
    (hc : Covered x.state op) : (x.next op).Good := by
  intro w
  have hsz (v : Who) : (x.state.pool v).activeBytes < 2 ^ 64 :=
    Nat.lt_of_le_of_lt (h v).active (h v).size
  have hpk (v : Who) : (x.state.pool v).peakBytes < 2 ^ 64 := (h v).peak ▸ (h v).size
  by_cases hop : op = .resetStats
  · subst hop
    cases w with
    | master =>
      have hact :
        ((mpResetStats x.state).pool .master).activeBytes = (x.state.pool .master).activeBytes := by
        simp [mpResetStats]
      have hpeak :
        ((mpResetStats x.state).pool .master).peakBytes = (x.state.pool .master).activeBytes := by
        simp [mpResetStats]
      refine ⟨hpeak.trans hact.symm, Nat.le_refl _, ?_⟩
      show ((mpResetStats x.state).pool .master).activeBytes < 2 ^ 64
      rw [hact]
      exact hsz .master
    | child =>
      have hsame : (mpResetStats x.state).pool .child = x.state.pool .child :=
        set_ne _ _ (by decide)
      have :=
        (h .child).meters
          (.keep (Nat.le_of_eq (congrArg Counters.activeBytes hsame))
            (congrArg Counters.peakBytes hsame))
      exact this
  · have hm := (h w).meters (apply_meters hop hpk hsz hroom hc w)
    have htop : (x.next op).top w = max (x.top w) ((x.state.apply op).pool w).activeBytes := by
      cases op with
      | resetStats => exact absurd rfl hop
      | _ => rfl
    rw [htop]
    exact hm

theorem set_cfg {s : State} {p : Counters} {v : Who} (h : p.cfg = (s.pool v).cfg) (w : Who) :
    ((s.set v p).pool w).cfg = (s.pool w).cfg := by
  by_cases hw : w = v
  · subst hw; rw [set_self, h]
  · rw [set_ne _ _ hw]

theorem apply_cfg (s : State) (op : StatOp) (w : Who) :
    ((s.apply op).pool w).cfg = (s.pool w).cfg := by
  cases op with
  | alloc size ans =>
    rcases mpAlloc_form s size ans with hsame | ⟨-, -, hch⟩
    · exact hsame.cfg w
    · exact (hch.same.cfg w).trans (set_cfg (charge_cfg _ _) w)
  | allocBatch size count as =>
    rcases batchOn_form s s.route size count as with hsame | ⟨s₁, bs, k, hsame, heq, -⟩
    · exact hsame.cfg w
    · have hpool : ((mpAllocBatch s size count as).1.pool w) =
          (s₁.set s.route
            ((s₁.pool s.route).chargeAll bs.length ((s.pool s.route).cfg.chargeOf size) k)).pool
              w :=
        congrArg (fun t => t.pool w) heq
      show ((mpAllocBatch s size count as).1.pool w).cfg = _
      rw [hpool, set_cfg (chargeAll_cfg ..), hsame.cfg]
  | free ptr intact =>
    show ((mpFree s ptr intact).pool w).cfg = _
    unfold mpFree
    split
    · rfl
    · split
      · rfl
      · exact set_cfg (release_counters ..).2 w
  | resetStats =>
    show ((mpResetStats s).pool w).cfg = _
    unfold mpResetStats
    refine set_cfg ?_ w
    rfl

/-- The flag of the two pools, and what it does not change. -/
structure Twins (x : Metered × Metered) : Prop where
  flag : ∀ w, (x.1.state.pool w).cfg.threadSafe = true
  core : x.1.state.core = x.2.state.core
  top : x.1.top = x.2.top

theorem core_active {s t : State} (h : s.core = t.core) (w : Who) :
    (s.pool w).activeBytes = (t.pool w).activeBytes :=
  (congrArg (fun u : State => (u.pool w).activeBytes) h : (s.core.pool w).activeBytes =
    (t.core.pool w).activeBytes)

theorem Twins.next {x : Metered × Metered} (h : Twins x) (op : StatOp) :
    Twins (x.1.next op, x.2.next op) where
  flag w := (congrArg Config.threadSafe (apply_cfg x.1.state op w)).trans (h.flag w)
  core := by
    show (x.1.state.apply op).core = (x.2.state.apply op).core
    rw [← apply_core, ← apply_core (s := x.2.state), h.core]
  top := by
    have hc : (x.1.state.apply op).core = (x.2.state.apply op).core := by
      rw [← apply_core, ← apply_core (s := x.2.state), h.core]
    funext w
    cases op <;> cases w <;> simp only [Metered.next, core_active hc, h.top]

theorem twins_init {c : Config} {arenas : Bool} {x : Metered × Metered}
    (h : (twinSystem c arenas).init x) : Twins x ∧ x.1.Good ∧ x.2.Good := by
  obtain ⟨q, n, rfl⟩ := h
  refine ⟨⟨fun w => by cases w <;> rfl, ?_, rfl⟩, fun w => ?_, fun w => ?_⟩
  · unfold State.core
    congr 1
    funext w
    cases w <;> rfl
  · cases w <;> exact ⟨rfl, Nat.le_refl _, Nat.two_pow_pos 64⟩
  · cases w <;> exact ⟨rfl, Nat.le_refl _, Nat.two_pow_pos 64⟩

theorem room_of_flag {s : State} (h : ∀ w, (s.pool w).cfg.threadSafe = true) (op : StatOp) :
    Room s op := by
  cases op with
  | alloc size ans => exact .inl (h _)
  | _ => exact trivial

theorem covered_core {s t : State} (h : s.core = t.core) {op : StatOp} (hc : Covered s op) :
    Covered t op := by
  cases op with
  | free ptr intact =>
    intro b hb hp
    have hl : s.live = t.live := (congrArg State.live h : s.core.live = t.core.live)
    rw [← core_active h]
    exact hc b (hl ▸ hb) hp
  | _ => exact trivial

theorem inductive_twins (c : Config) (arenas : Bool) :
    ((twinSystem c arenas).guard fun x op => Covered x.1.state op).Inductive fun x => Twins x ∧
    x.1.Good where
  init x hx := ⟨(twins_init hx).1, (twins_init hx).2.1⟩
  step x op x' hi hs := by
    obtain ⟨⟨-, rfl⟩, hc⟩ := hs
    exact ⟨hi.1.next op, hi.2.next (room_of_flag hi.1.flag op) hc⟩

theorem inductive_peaks (c : Config) (arenas : Bool) :
    ((twinSystem c arenas).guard fun x op => Covered x.1.state op ∧ Room x.2.state op).Inductive
      fun x => Twins x ∧ x.1.Good ∧ x.2.Good where
  init x hx := twins_init hx
  step x op x' hi hs := by
    obtain ⟨⟨-, rfl⟩, hc, hroom⟩ := hs
    exact ⟨hi.1.next op, hi.2.1.next (room_of_flag hi.1.flag op) hc,
      hi.2.2.next hroom (covered_core hi.1.core hc)⟩

/-- What the two pools report alike. -/
structure Counters.SameStats (p q : Counters) : Prop where
  active : p.activeBytes = q.activeBytes
  allocations : p.activeAllocations = q.activeAllocations
  allocOps : p.totalAllocOps = q.totalAllocOps
  freeOps : p.totalFreeOps = q.totalFreeOps

theorem Twins.stats {x : Metered × Metered} (h : Twins x) (w : Who) :
    (x.1.state.pool w).SameStats (x.2.state.pool w) := by
  have hc : (x.1.state.pool w).core = (x.2.state.pool w).core :=
    (congrArg (fun s : State => s.pool w) h.core : x.1.state.core.pool w = x.2.state.core.pool w)
  exact ⟨core_active h.core w,
    (congrArg Counters.activeAllocations hc : (x.1.state.pool w).core.activeAllocations = _),
    (congrArg Counters.totalAllocOps hc : (x.1.state.pool w).core.totalAllocOps = _),
    (congrArg Counters.totalFreeOps hc : (x.1.state.pool w).core.totalFreeOps = _)⟩

/-- **The peak** of a THREAD_SAFE pool is the maximum of `active_bytes`, in every run
in which no free takes more than is charged; a pool without the flag reports the
same counters, and the same peak if no allocation of it raises the peak. -/
theorem peak_is_max (c : Config) (arenas : Bool) (x : Metered × Metered) :
    (((twinSystem c arenas).guard fun x op => Covered x.1.state op).Reachable x →
      ∀ w, (x.1.state.pool w).peakBytes = x.1.top w ∧
      (x.1.state.pool w).SameStats (x.2.state.pool w)) ∧
    (((twinSystem c arenas).guard fun x op => Covered x.1.state op ∧
      Room x.2.state op).Reachable x →
      ∀ w, (x.1.state.pool w).peakBytes = x.1.top w ∧ (x.2.state.pool w).peakBytes = x.2.top w ∧
        (x.1.state.pool w).peakBytes = (x.2.state.pool w).peakBytes ∧
        (x.1.state.pool w).SameStats (x.2.state.pool w)) := by
  refine ⟨fun hr w => ?_, fun hr w => ?_⟩
  · obtain ⟨htw, hg⟩ := (inductive_twins c arenas).reachable hr
    exact ⟨(hg w).peak, htw.stats w⟩
  · obtain ⟨htw, hg, hg'⟩ := (inductive_peaks c arenas).reachable hr
    exact ⟨(hg w).peak, (hg' w).peak, by rw [(hg w).peak, (hg' w).peak, htw.top], htw.stats w⟩

/-- Two blocks by a batch, both freed, one allocated again. -/
def peakOps : List StatOp :=
  [.allocBatch 64 2 [some ⟨4248, 4096, 4320, false⟩, some ⟨4472, 4320, 4544, false⟩],
    .free 4248 true, .free 4472 true, .alloc 64 (some ⟨4248, 4096, 4320, false⟩), .resetStats]

/-- The two pools of `plain`. -/
def plainTwins : Metered × Metered :=
  (⟨State.init { plain with threadSafe := true } false 0 0, fun _ => 0⟩,
    ⟨State.init { plain with threadSafe := false } false 0 0, fun _ => 0⟩)

theorem peak_is_max_after_batch :
    let x := peakOps.foldl (fun x op => (x.1.next op, x.2.next op)) plainTwins
    (x.1.state.pool .master).peakBytes = x.1.top .master ∧
    (x.2.state.pool .master).peakBytes = x.2.top .master ∧
      (x.2.state.pool .master).peakBytes = 64 := by
  intro x
  have hr :
    ((twinSystem plain false).guard fun x op => Covered x.1.state op ∧
      Room x.2.state op).Reachable x :=
    LTS.Reachable.run (.init ⟨0, 0, rfl⟩) (by decide +kernel)
  obtain ⟨h1, h2, -, -⟩ := (peak_is_max plain false x).2 hr .master
  exact ⟨h1, h2, by decide +kernel⟩

/-- **Defect.** One allocation by a pool without THREAD_SAFE makes the peak twice
`active_bytes`. -/
theorem peak_counts_twice : ∃ x, (twinSystem plain false).Reachable x ∧
    (x.2.state.pool .master).peakBytes ≠ x.2.top .master ∧
    (x.1.state.pool .master).peakBytes ≠ (x.2.state.pool .master).peakBytes := by
  refine ⟨[StatOp.alloc 64 (some ⟨4248, 4096, 4320, false⟩)].foldl
    (fun x op => (x.1.next op, x.2.next op)) plainTwins, ?_, by decide +kernel, by decide +kernel⟩
  refine LTS.Reachable.of_guard (C := fun _ _ => True) (LTS.Reachable.run (.init ⟨0, 0, rfl⟩) ?_)
  decide +kernel

end Cmem.L3.Pool

import Cmem.L3Pool.Account

/-!
# The emergency reserve

`mp_enable_emergency_reserve`, `mp_set_memory_limit` and `mp_reset`,
src/src/cmem_lifecycle.c and src/src/cmem_sys.c, beside the allocation and release of
`Cmem.L3Pool.Model`. The buffer of the reserve holds one block at a time;
`emergency_used` says that it does. Replacing the reserve frees the buffer and resets
the flag without a look at it, and a reset of the pool forgets all blocks without
resetting it: the protocol holds as long as neither happens while the flag is set.
-/
namespace Cmem.L3.Pool

/-- The pool, and the live blocks whose buffer was freed under them. -/
structure Reserve where
  pool : State
  orphans : List Block

namespace Reserve

def emergencyBlocks (bs : List Block) : List Block := bs.filter fun b => b.tier = .emergency

def emergencies (s : State) : List Block := emergencyBlocks s.live

/-- mirrors `mp_enable_emergency_reserve`, src/src/cmem_lifecycle.c:420-443; `answer` is
what `malloc` returns, 0 for NULL -/
def mpEnableEmergencyReserve (s : Reserve) (bytes answer : Nat) : Reserve :=
  if bytes = 0 then s
  else
    let p := s.pool.pool .master
    let orphans := (emergencies s.pool).filter fun b => b.lo = p.cfg.emergencyBuf
    if answer = 0 then
      ⟨s.pool.set .master { p with cfg := { p.cfg with emergencyBuf := 0 } }, orphans ++ s.orphans⟩
    else
      ⟨s.pool.set .master
        { p with cfg := { p.cfg with emergencyBuf := answer, emergencySize := bytes },
                 emergencyUsed := false },
        orphans ++ s.orphans⟩

/-- mirrors `mp_set_memory_limit`, src/src/cmem_sys.c:699-707 -/
def mpSetMemoryLimit (s : State) (max : Nat) : State :=
  s.set .master { s.pool .master with cfg := { (s.pool .master).cfg with limit := max } }

/-- mirrors `mp_reset`, src/src/cmem_lifecycle.c:127-215: the counters of the pool and of its
child, and the list of live blocks -/
def mpReset (s : State) : State where
  pool w := { s.pool w with activeBytes := 0, activeAllocations := 0, osAllocatedBytes := 0 }
  arenas := s.arenas
  quotaBytes := s.quotaBytes
  quotaCount := s.quotaCount
  live := []

inductive Op where
  | enable (bytes answer : Nat)
  | setLimit (max : Nat)
  | alloc (size : Nat) (ans : Option Place)
  | allocBatch (size count : Nat) (as : List (Option Place))
  | free (ptr : Nat) (intact : Bool)
  | reset

def next (s : Reserve) : Op → Reserve
  | .enable bytes answer => mpEnableEmergencyReserve s bytes answer
  | .setLimit max => { s with pool := mpSetMemoryLimit s.pool max }
  | .alloc size ans => { s with pool := (mpAlloc s.pool size ans).1 }
  | .allocBatch size count as => { s with pool := (mpAllocBatch s.pool size count as).1 }
  | .free ptr intact => { s with pool := mpFree s.pool ptr intact }
  | .reset => { s with pool := mpReset s.pool }

/-- Sizes are `size_t`s, and only live pointers are freed. -/
def pre (s : Reserve) : Op → Prop
  | .enable bytes _ => bytes < 2 ^ 64
  | .setLimit max => max < 2 ^ 64
  | .alloc size ans => s.pool.pre (.alloc size ans)
  | .allocBatch size count as => s.pool.pre (.allocBatch size count as)
  | .free ptr intact => s.pool.pre (.free ptr intact)
  | .reset => True

instance decPre (s : Reserve) : (l : Op) → Decidable (pre s l)
  | .enable bytes _ => inferInstanceAs (Decidable (bytes < 2 ^ 64))
  | .setLimit max => inferInstanceAs (Decidable (max < 2 ^ 64))
  | .alloc size ans => inferInstanceAs (Decidable (s.pool.pre (.alloc size ans)))
  | .allocBatch size count as =>
    inferInstanceAs (Decidable (s.pool.pre (.allocBatch size count as)))
  | .free ptr intact => inferInstanceAs (Decidable (s.pool.pre (.free ptr intact)))
  | .reset => .isTrue trivial

/-- A fresh pool, with any flags, limit and reserve. -/
def start (c : Config) (arenas : Bool) (quotaBytes quotaCount : Nat) : Reserve :=
  ⟨.init c arenas quotaBytes quotaCount, []⟩

def system (c : Config) (arenas : Bool) : LTS Reserve Op :=
  .det (fun s => ∃ q n, s = start c arenas q n) pre next

/-- **The protocol of the reserve.** -/
structure Protocol (s : Reserve) : Prop where
  /-- the buffer holds one live block at most -/
  one : (emergencies s.pool).length ≤ 1
  /-- no buffer is freed with a live block in it -/
  kept : s.orphans = []
  /-- without a live block, the next allocation that fits gets the buffer -/
  back : emergencies s.pool = [] → ∀ n, (s.pool.pool .master).cfg.emergencyBuf ≠ 0 →
    wrap (n + headerSize + (s.pool.pool .master).cfg.canaryLen) ≤
      (s.pool.pool .master).cfg.emergencySize → (s.pool.pool .master).emergencyFits n = true

/-- The sizes of a step do not wrap. -/
def Unwrapped (s : Reserve) : Op → Prop
  | .alloc size _ | .allocBatch size _ _ =>
    (s.pool.pool .master).cfg.Whole size (s.pool.pool .master).cfg.slack
  | .enable .. | .setLimit _ | .free .. | .reset => True

instance decUnwrapped (s : Reserve) : (l : Op) → Decidable (Unwrapped s l)
  | .alloc .. | .allocBatch .. => inferInstanceAs (Decidable (Config.Whole ..))
  | .enable .. | .setLimit _ | .free .. | .reset => .isTrue trivial

/-- The reserve is not replaced and the pool is not reset while the buffer is in use. -/
def Orderly (s : Reserve) : Op → Prop
  | .enable bytes _ => bytes ≠ 0 → (s.pool.pool .master).emergencyUsed = false
  | .reset => (s.pool.pool .master).emergencyUsed = false
  | _ => True

instance decOrderly (s : Reserve) : (l : Op) → Decidable (Orderly s l)
  | .enable bytes _ =>
    inferInstanceAs (Decidable (bytes ≠ 0 → (s.pool.pool .master).emergencyUsed = false))
  | .reset => inferInstanceAs (Decidable ((s.pool.pool .master).emergencyUsed = false))
  | .setLimit _ | .alloc .. | .allocBatch .. | .free .. => .isTrue trivial

/-! ## What an allocation draws -/

section Draw
variable {s s' s'' : State} {w : Who} {size n : Nat} {bs : List Block} {b : Block}

/-- What the reserve is about: the configuration and the flag. -/
def part (p : Counters) : Config × Bool := (p.cfg, p.emergencyUsed)

/-- Live blocks, configuration and flags are as before. -/
def Same (s s' : State) : Prop := Keeps part s s'

theorem Same.live (h : Same s s') : s'.live = s.live := Keeps.live h

theorem Same.cfg (h : Same s s') (w : Who) : (s'.pool w).cfg = (s.pool w).cfg :=
  congrArg Prod.fst (Keeps.part h w)

theorem Same.used (h : Same s s') (w : Who) :
    (s'.pool w).emergencyUsed = (s.pool w).emergencyUsed :=
  congrArg Prod.snd (Keeps.part h w)

theorem Same.refl (s : State) : Same s s := Keeps.refl s

theorem Same.trans (h : Same s s') (h' : Same s' s'') : Same s s'' := Keeps.trans h h'

theorem Same.set {p : Counters} (hc : p.cfg = (s.pool w).cfg)
    (hu : p.emergencyUsed = (s.pool w).emergencyUsed) : Same s (s.set w p) :=
  Keeps.set (Prod.ext hc hu)

@[simp] theorem event_used (p : Counters) (e : Event) :
    (p.event e).emergencyUsed = p.emergencyUsed := by
  unfold Counters.event
  split <;> rfl

@[simp] theorem bucket_used (p : Counters) (size n : Nat) :
    (p.bucket size n).emergencyUsed = p.emergencyUsed := by
  unfold Counters.bucket
  simp only
  split <;> rfl

@[simp] theorem charge_used (p : Counters) (size : Nat) :
    (p.charge size).emergencyUsed = p.emergencyUsed := rfl

theorem blind_part : Blind part :=
  ⟨fun p e => Prod.ext (event_cfg p e) (event_used p e), fun _ => rfl⟩

@[simp] theorem events_used (p : Counters) (es : List Event) :
    (es.foldl Counters.event p).emergencyUsed = p.emergencyUsed :=
  congrArg Prod.snd (blind_part.events es p)

theorem Same.countOs (s : State) (w : Who) (total n : Nat) : Same s (s.countOs w total n) := by
  unfold State.countOs
  simp only
  split
  · exact .set rfl rfl
  · exact .refl s

/-- Pool `w` hands out `bs`, and the emergency buffer at most once, when it is free; `added`
are the blocks that are live already. -/
structure Drawn (s s' : State) (w : Who) (bs added : List Block) : Prop where
  live : s'.live = added ++ s.live
  cfg : ∀ v, (s'.pool v).cfg = (s.pool v).cfg
  other : ∀ v, v ≠ w → (s'.pool v).emergencyUsed = (s.pool v).emergencyUsed
  none_or_one : emergencyBlocks bs = [] ∧ (s'.pool w).emergencyUsed = (s.pool w).emergencyUsed ∨
    ∃ b n, emergencyBlocks bs = [b] ∧ b.lo = (s.pool w).cfg.emergencyBuf ∧
      (s.pool w).emergencyFits n = true ∧ (s'.pool w).emergencyUsed = true

theorem Same.drawn (h : Same s s') (hb : emergencyBlocks bs = []) : Drawn s s' w bs [] :=
  ⟨h.live, h.cfg, fun v _ => h.used v, .inl ⟨hb, h.used w⟩⟩

theorem Drawn.same {added : List Block} (h : Drawn s s' w bs added) (h' : Same s' s'') :
    Drawn s s'' w bs added :=
  ⟨h'.live.trans h.live, fun v => (h'.cfg v).trans (h.cfg v),
    fun v e => (h'.used v).trans (h.other v e), by
    rw [h'.used w]
    exact h.none_or_one⟩

theorem Same.before {added : List Block} (h : Same s s') (h' : Drawn s' s'' w bs added) :
    Drawn s s'' w bs added := by
  refine ⟨h.live ▸ h'.live, fun v => (h'.cfg v).trans (h.cfg v),
    fun v e => (h'.other v e).trans (h.used v), ?_⟩
  rcases h'.none_or_one with ⟨h1, h2⟩ | ⟨b, n, h1, h2, h3, h4⟩
  · exact .inl ⟨h1, h2.trans (h.used w)⟩
  · refine .inr ⟨b, n, h1, by rw [h2, h.cfg], ?_, h4⟩
    unfold Counters.emergencyFits at h3 ⊢
    rw [h.cfg, h.used] at h3
    exact h3

/-- The flag is set, for the block of the buffer. -/
theorem Drawn.spare (hl : s'.live = s.live) (hp : ∀ v, v ≠ w → s'.pool v = s.pool v)
    (hc : (s'.pool w).cfg = (s.pool w).cfg) (hu : (s'.pool w).emergencyUsed = true)
    (hbs : emergencyBlocks bs = [b]) (hlo : b.lo = (s.pool w).cfg.emergencyBuf)
    (hf : (s.pool w).emergencyFits n = true) : Drawn s s' w bs [] := by
  refine ⟨hl, fun v => ?_, fun v e => by rw [hp v e], .inr ⟨b, n, hbs, hlo, hf, hu⟩⟩
  by_cases e : v = w
  · rw [e]
    exact hc
  · rw [hp v e]

theorem mpAllocInternal_drawn (s : State) (w : Who) (size : Nat) (ans : Option Place) :
    Drawn s (mpAllocInternal s w size ans).1 w (mpAllocInternal s w size ans).2.toList [] := by
  unfold mpAllocInternal
  simp only
  split
  · exact (Same.refl s).drawn rfl
  · split
    · split
      · rename_i hf
        refine .spare (n := size) rfl (fun v e => set_ne _ _ e) ?_ ?_ rfl rfl ?_
        · simp
        · simp
        · simpa [Counters.emergencyFits] using hf
      · exact (Same.set (by simp) (by simp)).drawn rfl
    · have hp : (if (s.pool w).exceeds size then (s.pool w).event (.oom size) else s.pool w).cfg =
          (s.pool w).cfg ∧
          (if (s.pool w).exceeds size then (s.pool w).event (.oom size)
            else s.pool w).emergencyUsed = (s.pool w).emergencyUsed := by
        split <;> simp
      generalize (if (s.pool w).exceeds size then (s.pool w).event (.oom size) else s.pool w) = p
        at hp
      cases ans with
      | none => exact (Same.set hp.1 hp.2).drawn rfl
      | some a =>
        refine (Same.set ?_ ?_).drawn ?_
        · simp only [event_cfg, bucket_cfg, charge_cfg]
          split <;> exact hp.1
        · simp only [event_used, bucket_used, charge_used]
          split <;> exact hp.2
        · simp [emergencyBlocks, tierOf_ne_emergency]

theorem Drawn.add {b' : Block} (h : Drawn s s' w [b] []) (ht : b'.tier = b.tier)
    (hlo : b'.lo = b.lo) : Drawn s (s'.add b') w [b'] [b'] := by
  refine ⟨congrArg (b' :: ·) h.live, h.cfg, h.other, ?_⟩
  rcases h.none_or_one with ⟨h1, h2⟩ | ⟨c, n, h1, h2, h3, h4⟩
  · refine .inl ⟨?_, h2⟩
    simpa [emergencyBlocks, ht] using h1
  · have hc : b.tier = .emergency := by
      by_contra hne
      simp [emergencyBlocks, hne] at h1
    have e : b = c := by simpa [emergencyBlocks, hc] using h1
    exact .inr ⟨b', n, by simp [emergencyBlocks, ht, hc], by rw [hlo, e, h2], h3, h4⟩

/-- What an allocation makes of a state. -/
def Serves (s s' : State) : Prop := ∃ w bs, Drawn s s' w bs bs

theorem Same.serves (h : Same s s') : Serves s s' := ⟨.master, [], h.drawn rfl⟩

theorem mpAlignedAlloc_serves (s : State) (w : Who) (alignment size : Nat) (ans : Option Place) :
    Serves s (mpAlignedAlloc s w alignment size ans).1 := by
  unfold mpAlignedAlloc
  split
  · exact (Same.refl s).serves
  · have hi :=
      mpAllocInternal_drawn s w
        (wrap (size + alignment + headerSize + (s.pool w).cfg.canaryLen)) ans
    simp only
    split
    · rename_i s' he
      rw [he] at hi
      exact ⟨w, [], hi⟩
    · rename_i s' b he
      rw [he] at hi
      exact ⟨w, _, (hi.same (blind_part.settle _ _ _)).add rfl rfl⟩

theorem mpAlloc_serves (s : State) (size : Nat) (ans : Option Place) :
    Serves s (mpAlloc s size ans).1 := by
  unfold mpAlloc
  split
  · exact (Same.refl s).serves
  · split
    · exact mpAlignedAlloc_serves ..
    · have hi := mpAllocInternal_drawn s s.route size ans
      split
      · rename_i s' he
        rw [he] at hi
        exact ⟨_, [], hi⟩
      · rename_i s' b he
        rw [he] at hi
        exact ⟨_, _, (hi.same (blind_part.settle _ _ _)).add rfl rfl⟩

/-! ## Batches -/

theorem batchLoop_blocks (w : Who) (total size n : Nat) (as : List (Option Place)) (s : State) :
    emergencyBlocks (batchLoop w total size n as ⟨s, [], false⟩).blocks = [] := by
  obtain ⟨bs, he, -, hbs⟩ := (batchLoop_spec w total size n as ⟨s, [], false⟩).blocks
  rw [he, List.nil_append]
  refine List.filter_eq_nil_iff.2 fun b hb => ?_
  simpa using (hbs b hb).2.2.2

theorem batchPlan_fits (p : Counters) (total charge count : Nat)
    (h : (batchPlan p total charge count).emergencyOnly = true ∨
    (batchPlan p total charge count).doEmergency = true) : p.emergencyFits total = true := by
  revert h
  unfold batchPlan
  simp only
  split_ifs <;> simp_all

theorem batchEmergency_drawn {r : Batch} {total charge : Nat} (hr : emergencyBlocks r.blocks = [])
    (hf : (r.state.pool w).emergencyFits total = true) :
    Drawn r.state (batchEmergency w total charge size r).state w
      (batchEmergency w total charge size r).blocks [] := by
  -- the flag is set; the quota, the breaker and an event come behind it
  have h0 : Drawn r.state (r.state.set w { r.state.pool w with emergencyUsed := true }) w
      (batchEmergency w total charge size r).blocks [] := by
    obtain ⟨b, hb, ht, hlo⟩ :
        ∃ b : Block, (batchEmergency w total charge size r).blocks = r.blocks ++ [b] ∧
        b.tier = .emergency ∧ b.lo = (r.state.pool w).cfg.emergencyBuf := by
      unfold batchEmergency
      simp only
      split <;> exact ⟨_, rfl, rfl, rfl⟩
    refine .spare (b := b) rfl (fun v e => set_ne _ _ e) (by simp) (by simp) ?_ hlo hf
    rw [hb, emergencyBlocks, List.filter_append]
    unfold emergencyBlocks at hr
    simp [hr, ht]
  exact h0.same (blind_part.batchEmergency w total charge size r)

theorem emergencyFits_congr {p q : Counters} (hc : q.cfg = p.cfg)
    (hu : q.emergencyUsed = p.emergencyUsed) (n : Nat) : q.emergencyFits n = p.emergencyFits n := by
  unfold Counters.emergencyFits
  rw [hc, hu]

theorem batchRun_drawn {total : Nat} {plan : Plan} {as : List (Option Place)}
    (hf : plan.emergencyOnly = true ∨ plan.doEmergency = true →
    (s.pool w).emergencyFits total = true) :
    Drawn s (batchRun w total size plan as s).1.state w
      (batchRun w total size plan as s).1.blocks [] := by
  unfold batchRun
  simp only
  generalize hs₁ :
    (if plan.emergencyOnly = true then s.set w ((s.pool w).event (.oom total)) else s) = s₁
  have h₁ : Same s s₁ := by
    subst hs₁
    split
    · exact .set (by simp) (by simp)
    · exact .refl s
  generalize hr₂ : (if plan.emergencyOnly = true then (⟨s₁, [], false⟩ : Batch) else
    { batchLoop w total size plan.target as ⟨s₁, [], false⟩ with
      state := (batchLoop w total size plan.target as ⟨s₁, [], false⟩).state.countOs w total
        (batchLoop w total size plan.target as ⟨s₁, [], false⟩).blocks.length }) = r₂
  have h₂ : Same s r₂.state ∧ emergencyBlocks r₂.blocks = [] := by
    subst hr₂
    split
    · exact ⟨h₁, rfl⟩
    · exact ⟨(h₁.trans (blind_part.batchLoop w total size _ _ ⟨s₁, [], false⟩)).trans (.countOs ..),
        batchLoop_blocks ..⟩
  generalize hs₃ :
    (if (plan.breach && decide (r₂.blocks.length = plan.target) && !r₂.tripped) = true then
    r₂.state.set w ((r₂.state.pool w).event (.oom total)) else r₂.state) = s₃
  have h₃ : Same s s₃ := by
    subst hs₃
    refine h₂.1.trans ?_
    split
    · exact .set (by simp) (by simp)
    · exact .refl _
  split
  · rename_i hem
    simp only [Bool.and_eq_true, Bool.or_eq_true] at hem
    have hfit := hf (hem.2.imp_right And.left)
    refine h₃.before (batchEmergency_drawn (r := { r₂ with state := s₃ }) h₂.2 ?_)
    rw [← hfit]
    exact emergencyFits_congr (h₃.cfg w) (h₃.used w) total
  · exact h₃.drawn h₂.2

theorem emergencyBlocks_relink (c : Config) (bs : List Block) :
    emergencyBlocks (bs.map (c.relink size)) = (emergencyBlocks bs).map (c.relink size) := by
  unfold emergencyBlocks
  rw [List.filter_map]
  congr 2
  funext b
  simp only [Function.comp]
  unfold Config.relink
  split <;> rfl

theorem chargeAll_used (p : Counters) (n charge hist : Nat) :
    (p.chargeAll n charge hist).emergencyUsed = p.emergencyUsed ∧
    (p.chargeAll n charge hist).cfg = p.cfg := by
  unfold Counters.chargeAll
  simp only [events_used, events_cfg]
  split <;> simp

theorem batchFinish_serves {total : Nat} {r : Batch} {e : Bool}
    (h : Drawn s r.state w r.blocks []) : Serves s (batchFinish w total size r e).1 := by
  unfold batchFinish
  split
  · rename_i hn
    rw [hn] at h
    exact ⟨w, [], h⟩
  · have hc :=
      chargeAll_used (r.state.pool w) r.blocks.length total (r.blocks.length - if e then 1 else 0)
    have hs := h.same (.set (w := w) hc.2 hc.1)
    refine ⟨w, _, congrArg (_ ++ ·) hs.live, hs.cfg, hs.other, ?_⟩
    rcases hs.none_or_one with ⟨h1, h2⟩ | ⟨b, n, h1, h2, h3, h4⟩
    · refine .inl ⟨?_, h2⟩
      rw [emergencyBlocks, List.filter_reverse, ← emergencyBlocks, emergencyBlocks_relink, h1]
      rfl
    · refine .inr ⟨(r.state.pool w).cfg.relink size b, n, ?_, ?_, h3, h4⟩
      · rw [emergencyBlocks, List.filter_reverse, ← emergencyBlocks, emergencyBlocks_relink, h1]
        rfl
      · rw [← h2]
        unfold Config.relink
        split <;> rfl

theorem mpAllocBatch_serves (s : State) (size count : Nat) (as : List (Option Place)) :
    Serves s (mpAllocBatch s size count as).1 := by
  unfold mpAllocBatch
  simp only
  split
  · exact (Same.refl s).serves
  · generalize hp : (s.pool s.route).cfg.chargeOf size = total
    generalize hs₁ :
      s.set s.route ((List.replicate (batchPlan (s.pool s.route) total total count).oomCount
      (Event.oom total)).foldl Counters.event (s.pool s.route)) = s₁
    have h₁ : Same s s₁ := by
      subst hs₁
      exact .set (by simp) (by simp)
    split
    · exact (h₁.trans (.set (by simp) (by simp))).serves
    · refine batchFinish_serves (h₁.before (batchRun_drawn fun hf => ?_))
      rw [emergencyFits_congr (h₁.cfg _) (h₁.used _)]
      exact batchPlan_fits _ _ _ _ hf

end Draw

/-! ## Runs -/

/-- The flag says whether the buffer holds a live block. -/
structure Inv (s : Reserve) : Prop where
  child : (s.pool.pool .child).cfg.emergencyBuf = 0
  flag : (emergencies s.pool).length = (s.pool.pool .master).emergencyUsed.toNat
  place : ∀ b ∈ emergencies s.pool, b.lo = (s.pool.pool .master).cfg.emergencyBuf ∧ b.lo ≠ 0
  room : (s.pool.pool .master).emergencyUsed = true →
    ∃ n, wrap (n + headerSize + (s.pool.pool .master).cfg.canaryLen) ≤
      (s.pool.pool .master).cfg.emergencySize
  kept : s.orphans = []

section Run
variable {s : Reserve} {t : State}

theorem emergencyFits_iff (p : Counters) (n : Nat) : p.emergencyFits n = true ↔
    p.cfg.emergencyBuf ≠ 0 ∧ p.emergencyUsed = false ∧
    wrap (n + headerSize + p.cfg.canaryLen) ≤ p.cfg.emergencySize := by
  simp [Counters.emergencyFits, and_assoc]

theorem Inv.protocol (h : Inv s) : Protocol s := by
  refine ⟨by rw [h.flag]; exact Bool.toNat_le _, h.kept, fun h0 n hb hn => ?_⟩
  have hu := h.flag
  rw [h0] at hu
  refine (emergencyFits_iff _ _).2 ⟨hb, ?_, hn⟩
  cases hc : (s.pool.pool .master).emergencyUsed
  · rfl
  · rw [hc] at hu
    cases hu

theorem Inv.serves (h : Inv s) (hs : Serves s.pool t) : Inv ⟨t, s.orphans⟩ := by
  obtain ⟨w, bs, hd⟩ := hs
  have hem : emergencies t = emergencyBlocks bs ++ emergencies s.pool := by
    unfold emergencies
    rw [hd.live]
    exact List.filter_append ..
  rcases hd.none_or_one with ⟨h1, h2⟩ | ⟨b, n, h1, h2, h3, h4⟩
  · have hu : ∀ v, (t.pool v).emergencyUsed = (s.pool.pool v).emergencyUsed := fun v => by
      by_cases e : v = w
      · rw [e, h2]
      · exact hd.other v e
    rw [h1, List.nil_append] at hem
    exact ⟨by rw [hd.cfg]; exact h.child, by rw [hem, hu]; exact h.flag,
      by rw [hem, hd.cfg]; exact h.place, by rw [hu, hd.cfg]; exact h.room, h.kept⟩
  · obtain ⟨hbuf, hfree, hfit⟩ := (emergencyFits_iff _ _).1 h3
    -- the child has no buffer of its own
    have hw : w = .master := by
      cases w with
      | master => rfl
      | child => exact absurd h.child hbuf
    subst hw
    have hnil : emergencies s.pool = [] := by
      have := h.flag
      rw [hfree] at this
      exact List.length_eq_zero_iff.1 this
    rw [h1, hnil] at hem
    refine ⟨by rw [hd.cfg]; exact h.child, by rw [hem, h4]; rfl, fun c hc => ?_,
      fun _ => ⟨n, by rw [hd.cfg]; exact hfit⟩, h.kept⟩
    rw [hem] at hc
    obtain rfl := List.mem_singleton.1 hc
    rw [hd.cfg, h2]
    exact ⟨rfl, hbuf⟩

/-- What `mp_free` leaves of the flag. -/
theorem release_used (p : Counters) (b : Block) (intact : Bool) :
    (p.release b intact).cfg = p.cfg ∧
      (p.release b intact).emergencyUsed =
        if b.tier = .emergency then false else p.emergencyUsed := by
  unfold Counters.release Counters.verifyCanary Counters.discharge
  simp only [event_cfg, event_used]
  constructor <;> split_ifs <;> simp

theorem emergencies_erase {bs : List Block} {b : Block} (hb : b ∈ bs) :
    (emergencyBlocks (bs.erase b)).length =
      (emergencyBlocks bs).length - if b.tier = .emergency then 1 else 0 := by
  have hp : (emergencyBlocks bs).Perm (emergencyBlocks (b :: bs.erase b)) :=
    (List.perm_cons_erase hb).filter _
  rw [hp.length_eq]
  unfold emergencyBlocks
  rw [List.filter_cons]
  split <;> simp_all

theorem Inv.release (h : Inv s) {b : Block} (hb : b ∈ s.pool.live) (intact : Bool) :
    Inv ⟨s.pool.release b intact, s.orphans⟩ := by
  have hcfg : ∀ v, ((s.pool.release b intact).pool v).cfg = (s.pool.pool v).cfg := fun v => by
    unfold State.release
    by_cases e : v = b.home .master
    · subst e
      exact (congrArg Counters.cfg (set_self ..)).trans (release_used _ b intact).1
    · exact congrArg Counters.cfg (set_ne _ _ e)
  have hused : ((s.pool.release b intact).pool .master).emergencyUsed =
      if b.tier = .emergency then false else (s.pool.pool .master).emergencyUsed := by
    unfold State.release
    by_cases e : Who.master = b.home .master
    · rw [← e]
      exact (congrArg Counters.emergencyUsed (set_self ..)).trans (release_used _ b intact).2
    · rw [if_neg fun ht => e (if_pos ht).symm]
      exact congrArg Counters.emergencyUsed (set_ne _ _ e)
  have hlen := emergencies_erase hb
  have hflag := h.flag
  refine ⟨by rw [hcfg]; exact h.child, ?_, fun c hc => ?_, fun hu => ?_, h.kept⟩
  · show (emergencyBlocks (s.pool.live.erase b)).length = _
    rw [hlen, hused]
    by_cases ht : b.tier = .emergency
    · have := Bool.toNat_le (s.pool.pool .master).emergencyUsed
      rw [if_pos ht, if_pos ht]
      change (emergencyBlocks s.pool.live).length = _ at hflag
      show _ = 0
      omega
    · rw [if_neg ht, if_neg ht]
      exact hflag
  · rw [hcfg]
    have hm := List.mem_filter.1 hc
    exact h.place c (List.mem_filter.2 ⟨List.mem_of_mem_erase hm.1, hm.2⟩)
  · rw [hcfg]
    rw [hused] at hu
    refine h.room ?_
    split at hu
    · cases hu
    · exact hu

/-- The flag is not set, so no block is in the buffer. -/
theorem Inv.idle (h : Inv s) (hu : (s.pool.pool .master).emergencyUsed = false) :
    emergencies s.pool = [] := by
  have := h.flag
  rw [hu] at this
  exact List.length_eq_zero_iff.1 this

theorem Inv.enable (h : Inv s) {bytes answer : Nat} (ho : Orderly s (.enable bytes answer)) :
    Inv (mpEnableEmergencyReserve s bytes answer) := by
  unfold mpEnableEmergencyReserve
  split
  · exact h
  · rename_i h0
    have hidle := h.idle (ho h0)
    have hor :
        (emergencies s.pool).filter (fun b => b.lo = (s.pool.pool .master).cfg.emergencyBuf) ++
          s.orphans = [] := by
      rw [hidle, h.kept]
      rfl
    simp only
    split
    · refine ⟨h.child, ?_, fun c hc => ?_, fun hu => ?_, hor⟩
      · rw [set_self]
        exact h.flag
      · exact absurd (hidle ▸ hc : c ∈ []) List.not_mem_nil
      · rw [set_self] at hu
        exact absurd hu (by rw [ho h0]; decide)
    · refine ⟨h.child, ?_, fun c hc => ?_, fun hu => ?_, hor⟩
      · rw [set_self]
        exact congrArg List.length hidle
      · exact absurd (hidle ▸ hc : c ∈ []) List.not_mem_nil
      · rw [set_self] at hu
        cases hu

theorem Inv.step (h : Inv s) {l : Op} (ho : Orderly s l) : Inv (next s l) := by
  cases l with
  | enable bytes answer => exact h.enable ho
  | setLimit max =>
    refine ⟨h.child, ?_, ?_, ?_, h.kept⟩
    · show (emergencies s.pool).length = (((s.pool.set .master _).pool .master).emergencyUsed).toNat
      rw [set_self]
      exact h.flag
    · show ∀ b ∈ emergencies s.pool, b.lo = ((s.pool.set .master _).pool .master).cfg.emergencyBuf ∧
        b.lo ≠ 0
      rw [set_self]
      exact h.place
    · show ((s.pool.set .master _).pool .master).emergencyUsed = true → ∃ n, wrap (n + headerSize +
        ((s.pool.set .master _).pool .master).cfg.canaryLen) ≤
          ((s.pool.set .master _).pool .master).cfg.emergencySize
      rw [set_self]
      exact h.room
  | alloc size ans => exact h.serves (mpAlloc_serves ..)
  | allocBatch size count as => exact h.serves (mpAllocBatch_serves ..)
  | free ptr intact =>
    show Inv ⟨mpFree s.pool ptr intact, s.orphans⟩
    unfold mpFree
    split
    · exact h
    · split
      · exact h
      · rename_i b hb
        exact h.release (List.mem_of_find?_eq_some hb) intact
  | reset => exact ⟨h.child, (congrArg Bool.toNat ho).symm, nofun, h.room, h.kept⟩

/-- Out of order, the protocol is broken at once. -/
theorem Inv.unorderly (h : Inv s) {l : Op} (ho : ¬ Orderly s l) : ¬ Protocol (next s l) := by
  intro hp
  cases l with
  | enable bytes answer =>
    obtain ⟨h0, hu⟩ := Classical.not_imp.1 ho
    rw [Bool.not_eq_false] at hu
    -- the block in the buffer is an orphan now
    obtain ⟨b, hb⟩ : ∃ b, b ∈ emergencies s.pool := by
      refine List.exists_mem_of_length_pos ?_
      rw [h.flag, hu]
      exact Nat.one_pos
    have hor : b ∈ (mpEnableEmergencyReserve s bytes answer).orphans := by
      have hm :
          b ∈ (emergencies s.pool).filter
            (fun b => b.lo = (s.pool.pool .master).cfg.emergencyBuf) ++ s.orphans :=
        List.mem_append_left _ (List.mem_filter.2 ⟨hb, by simpa using (h.place b hb).1⟩)
      unfold mpEnableEmergencyReserve
      rw [if_neg h0]
      simp only
      split <;> exact hm
    have hk : (mpEnableEmergencyReserve s bytes answer).orphans = [] := hp.kept
    rw [hk] at hor
    cases hor
  | reset =>
    have hu : (s.pool.pool .master).emergencyUsed = true := by
      rw [← Bool.not_eq_false]
      exact ho
    obtain ⟨b, hb⟩ : ∃ b, b ∈ emergencies s.pool := by
      refine List.exists_mem_of_length_pos ?_
      rw [h.flag, hu]
      exact Nat.one_pos
    obtain ⟨n, hn⟩ := h.room hu
    have hbuf : (s.pool.pool .master).cfg.emergencyBuf ≠ 0 := (h.place b hb).1 ▸ (h.place b hb).2
    have := (emergencyFits_iff _ _).1 (hp.back rfl n hbuf hn)
    exact Bool.noConfusion (hu.symm.trans this.2.1)
  | setLimit _ | alloc _ _ | allocBatch _ _ _ | free _ _ => exact ho trivial

end Run

/-- **The emergency reserve**, in runs of steps in order whose sizes do not wrap; and out of
order is a step exactly if it breaks the protocol. -/
theorem reserve_protocol (c : Config) (arenas : Bool) {s : Reserve}
    (hr : ((system c arenas).guard fun s l => Unwrapped s l ∧ Orderly s l).Reachable s) :
    Protocol s ∧ ∀ l, pre s l → Unwrapped s l → (Protocol (next s l) ↔ Orderly s l) := by
  have hi : Inv s := by
    refine LTS.Inductive.reachable ⟨?_, ?_⟩ hr
    · rintro _ ⟨q, n, rfl⟩
      exact ⟨by cases arenas <;> rfl, rfl, nofun, nofun, rfl⟩
    · rintro s l _ h ⟨⟨-, rfl⟩, -, ho⟩
      exact h.step ho
  exact ⟨hi.protocol, fun l _ _ =>
    ⟨fun hp => by_contra fun ho => hi.unorderly ho hp, fun ho => (hi.step ho).protocol⟩⟩

/-- A pool with a limit of 100 bytes and a reserve of 1024 at 4096. -/
def tight : Config := { plain with limit := 100, emergencyBuf := 4096, emergencySize := 1024 }

/-- A block is put in the buffer and freed, the reserve is replaced, and the pool reset. -/
def orderlyRun : List Op :=
  [.alloc 200 none, .free 4248 true, .enable 2048 8192, .setLimit 50, .alloc 300 none,
    .free 8344 true, .reset]

theorem reserve_protocol_orderly :
    Protocol (orderlyRun.foldl next (start tight false 0 0)) :=
  (reserve_protocol tight false (LTS.Reachable.run (.init ⟨0, 0, rfl⟩) (by decide +kernel))).1

/-- **Defect.** The reserve is replaced with a block in it: its buffer is freed. -/
theorem reserve_replaced :
    ∃ s, (system tight false).Reachable s ∧ ¬ Protocol s := by
  refine ⟨[Op.alloc 200 none, .enable 2048 8192].foldl next (start tight false 0 0), ?_,
    fun h => ?_⟩
  · refine LTS.Reachable.of_guard (C := fun _ _ => True) (LTS.Reachable.run (.init ⟨0, 0, rfl⟩) ?_)
    decide +kernel
  · exact absurd (congrArg List.length h.kept) (by decide +kernel)

end Reserve

end Cmem.L3.Pool

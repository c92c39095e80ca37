import Mathlib
import Cmem.L3Pool.Account

/-!
# The fast path and the operation counters

`mp_alloc_fast` and `mp_free_fast` (src/include/cmem.h:1146-1213) hand slots of the
thread cache out and back without any statistics: such a block does not carry
`MP_BLOCK_FLAG_COUNTED`. Beside them `mp_free` and `mp_free_batch` in full, with the
branches for a THREAD_SAFE and FAST_PATH pool (src/src/cmem_alloc.c:1050-1058 and
1269-1274), which add to `total_free_ops` whether the block is counted or not. The
label of an operation tells whether the thread cache has a slot, or room for one.

`OpsBalance` says that the three counters agree with the counted live blocks. The runs
that keep it are those in which no uncounted block takes one of these two branches.
-/
namespace Cmem.L3.Pool

/-- The slab block of `mp_alloc_fast`, over a slot of the thread cache. -/
def fastBlock (size : Nat) (a : Place) : Block :=
  ⟨a.ptr, .master, .slab, false, false, size, plain.slotSize size, a.lo, a.hi⟩

/-- mirrors `mp_alloc_fast`, src/include/cmem.h:1146-1182; `hit` is the first slot of
the class in the thread cache -/
def mpAllocFast (s : State) (size : Nat) (hit ans : Option Place) : State × Option Nat :=
  match hit with
  | some a =>
    if 0 < size ∧ size ≤ slabMaxSize ∧ (s.pool .master).cfg.fastPath = true then
      (s.add (fastBlock size a), some a.ptr)
    else mpAlloc s size ans
  | none => mpAlloc s size ans

/-- THREAD_SAFE and FAST_PATH. -/
def Config.lockFree (c : Config) : Bool := c.threadSafe && c.fastPath

/-- The statistics of a slab block in such a pool, src/src/cmem_alloc.c:1270-1274 and
1052-1057: `total_free_ops` is outside of the condition. -/
def Counters.tick (p : Counters) (b : Block) : Counters :=
  let p :=
    if b.counted then
      { p with activeBytes := wrap (p.activeBytes + (2 ^ 64 - b.requested))
               activeAllocations := wrap (p.activeAllocations + (2 ^ 64 - 1)) }
    else p
  { p with totalFreeOps := wrap (p.totalFreeOps + 1) }

/-- The counters of one `mp_free`; `room` tells whether the thread cache takes the slot. -/
def Counters.releaseAt (p : Counters) (b : Block) (intact room : Bool) : Counters :=
  if b.tier = .slab ∧ room = true ∧ p.cfg.lockFree = true then
    ((p.verifyCanary b.requested intact).tick b).event (.free b.requested)
  else p.release b intact

def State.releaseAt (s : State) (b : Block) (intact room : Bool) : State :=
  let w := b.home .master
  { s.set w ((s.pool w).releaseAt b intact room) with live := s.live.erase b }

/-- mirrors `mp_free`, src/src/cmem_alloc.c:1199-1413 -/
def mpFreeAt (s : State) (ptr : Nat) (intact room : Bool) : State :=
  if ptr = 0 then s
  else
    match s.find ptr with
    | none => s
    | some b => s.releaseAt b intact room

/-- mirrors `mp_free_fast`, src/include/cmem.h:1187-1213 -/
def mpFreeFast (s : State) (ptr : Nat) (intact room : Bool) : State :=
  if ptr = 0 then s
  else
    match s.find ptr with
    | none => s
    | some b =>
      if (s.pool .master).cfg.fastPath = true ∧ b.tier = .slab ∧ b.counted = false ∧
        room = true then
        { s with live := s.live.erase b }
      else s.releaseAt b intact room

/-- mirrors `flush_slab_block`, src/src/cmem_alloc.c:1024-1097 -/
def flushAt (s : State) (bs : List Block) : State :=
  let c := (s.pool .master).cfg
  let p := bs.foldl (fun p b => if c.lockFree then p.tick b else p.pay b) (s.pool .master)
  let p := bs.foldl (fun p b => p.event (.free b.requested)) p
  { s.set .master p with live := bs.foldl List.erase s.live }

/-- mirrors `mp_free_batch`, src/src/cmem_alloc.c:1105-1148. An element is a pointer,
with what `mp_free` finds there: the canary, and the room in the cache. -/
def mpFreeBatchAt : List (Nat × Bool × Bool) → List Block → State → State
  | [], hdrs, s => flushAt s hdrs
  | (ptr, intact, room) :: ptrs, hdrs, s =>
    if ptr = 0 then mpFreeBatchAt ptrs hdrs s
    else
      match s.find ptr with
      | none => mpFreeBatchAt ptrs hdrs s
      | some b =>
        if b.batchable then
          if hdrs.length + 1 = 256 then mpFreeBatchAt ptrs [] (flushAt s (hdrs ++ [b]))
          else mpFreeBatchAt ptrs (hdrs ++ [b]) s
        else mpFreeBatchAt ptrs hdrs (s.releaseAt b intact room)

/-! ## Counted blocks -/

section Counted
variable {p : Counters} {s : State} {b : Block} {bs : List Block}

theorem tick_counted (hb : b.counted = true) : p.tick b = p.pay b := by
  unfold Counters.tick Counters.pay
  simp only [hb, if_true, Counters.discharge]

theorem release_slab (ht : b.tier = .slab) (intact : Bool) :
    p.release b intact = ((p.verifyCanary b.requested intact).pay b).event (.free b.requested) := by
  unfold Counters.release Counters.pay
  simp [ht]

/-- For a counted block every branch is the same. -/
theorem releaseAt_counted (hb : b.counted = true) (intact room : Bool) :
    s.releaseAt b intact room = s.release b intact := by
  have hp : ∀ p : Counters, p.releaseAt b intact room = p.release b intact := by
    intro p
    unfold Counters.releaseAt
    split
    · rename_i h
      rw [release_slab h.1, tick_counted hb]
    · rfl
  unfold State.releaseAt State.release
  simp only [hp]

theorem flushAt_counted (hb : ∀ b ∈ bs, b.counted = true) : flushAt s bs = flushSlabBlock s bs := by
  have hfold : ∀ p : Counters,
      bs.foldl (fun p b => if (s.pool .master).cfg.lockFree then p.tick b else p.pay b) p =
        bs.foldl Counters.pay p := by
    intro p
    refine List.foldl_ext _ _ _ fun p b hm => ?_
    split
    · exact tick_counted (hb b hm)
    · rfl
  unfold flushAt flushSlabBlock
  simp only [hfold]
  rfl

end Counted

/-! ## Runs -/

inductive FastAct where
  | alloc (size : Nat) (ans : Option Place)
  | allocFast (size : Nat) (hit ans : Option Place)
  | alignedAlloc (alignment size : Nat) (ans : Option Place)
  | allocBatch (size count : Nat) (as : List (Option Place))
  | free (ptr : Nat) (intact room : Bool)
  | freeFast (ptr : Nat) (intact room : Bool)
  | freeBatch (ptrs : List (Nat × Bool × Bool))

/-- Only live pointers are freed, each once. -/
def State.preFast (s : State) : FastAct → Prop
  | .alloc size _ | .allocFast size _ _ => size < 2 ^ 64
  | .alignedAlloc alignment size _ => alignment < 2 ^ 64 ∧ size < 2 ^ 64
  | .allocBatch size count _ => size < 2 ^ 64 ∧ count < 2 ^ 64
  | .free ptr _ _ | .freeFast ptr _ _ => ∃ b ∈ s.live, b.ptr = ptr
  | .freeBatch ptrs =>
    ((ptrs.map Prod.fst).filter (· ≠ 0)).Nodup ∧ ∀ q ∈ ptrs, q.1 = 0 ∨ ∃ b ∈ s.live, b.ptr = q.1

/-- The live blocks of a pool that carry `MP_BLOCK_FLAG_COUNTED`. -/
def State.counted (s : State) (w : Who) : Nat :=
  s.live.countP fun b => b.counted && decide (b.owner = w)

/-- No uncounted block of a THREAD_SAFE and FAST_PATH pool is freed by `mp_free` with
room in the thread cache, or collected by `mp_free_batch`. The sizes do not wrap. -/
def Paired (s : State) : FastAct → Prop
  | .alloc size _ | .allocFast size _ _ | .allocBatch size _ _ =>
    (s.pool .master).cfg.Whole size (s.pool .master).cfg.slack
  | .alignedAlloc alignment size _ =>
    (s.pool .master).cfg.Whole size (alignment + headerSize + (s.pool .master).cfg.canaryLen)
  | .free ptr _ room =>
    (s.pool .master).cfg.lockFree = true → room = true → ∀ b ∈ s.live, b.ptr = ptr →
    b.counted = true
  | .freeBatch ptrs =>
    (s.pool .master).cfg.lockFree = true → ∀ q ∈ ptrs, ∀ b ∈ s.live, b.ptr = q.1 → b.counted = true
  | .freeFast .. => True

instance decPreFast (s : State) : (l : FastAct) → Decidable (s.preFast l)
  | .alloc size _ | .allocFast size _ _ => inferInstanceAs (Decidable (size < 2 ^ 64))
  | .alignedAlloc alignment size _ =>
    inferInstanceAs (Decidable (alignment < 2 ^ 64 ∧ size < 2 ^ 64))
  | .allocBatch size count _ => inferInstanceAs (Decidable (size < 2 ^ 64 ∧ count < 2 ^ 64))
  | .free ptr _ _ | .freeFast ptr _ _ => inferInstanceAs (Decidable (∃ b ∈ s.live, b.ptr = ptr))
  | .freeBatch ptrs =>
    inferInstanceAs (Decidable (((ptrs.map Prod.fst).filter (· ≠ 0)).Nodup ∧
      ∀ q ∈ ptrs, q.1 = 0 ∨ ∃ b ∈ s.live, b.ptr = q.1))

instance decPaired (s : State) : (l : FastAct) → Decidable (Paired s l)
  | .free ptr _ room =>
    inferInstanceAs (Decidable ((s.pool .master).cfg.lockFree = true → room = true →
      ∀ b ∈ s.live, b.ptr = ptr → b.counted = true))
  | .freeBatch ptrs =>
    inferInstanceAs (Decidable ((s.pool .master).cfg.lockFree = true →
      ∀ q ∈ ptrs, ∀ b ∈ s.live, b.ptr = q.1 → b.counted = true))
  | .alloc .. | .allocFast .. | .alignedAlloc .. | .allocBatch .. =>
    inferInstanceAs (Decidable (Config.Whole ..))
  | .freeFast .. => .isTrue trivial

/-! ## The counters of one step -/

/-- The counters of a pool with `n` counted live blocks. -/
structure Counters.Tells (p : Counters) (n : Nat) : Prop where
  active : p.activeAllocations = wrap n
  ops : p.totalAllocOps = wrap (p.totalFreeOps + n)
  free : p.totalFreeOps < 2 ^ 64

section Tells
variable {p q : Counters} {n : Nat} {b : Block} {bs : List Block}

theorem Counters.Tells.congr (h : p.Tells n) (ht : q.tally.2 = p.tally.2) : q.Tells n := by
  simp only [Counters.tally, Prod.mk.injEq] at ht
  obtain ⟨h1, h2, h3⟩ := ht
  exact ⟨h1.trans h.active, by rw [h2, h3]; exact h.ops, by rw [h3]; exact h.free⟩

theorem Counters.Tells.charge (h : p.Tells n) (size : Nat) : (p.charge size).Tells (n + 1) := by
  obtain ⟨h1, h2, h3⟩ := h
  refine ⟨?_, ?_, h3⟩ <;> simp only [Counters.charge, h1, h2] <;> unfold wrap <;> omega

theorem Counters.Tells.chargeAll (h : p.Tells n) (k charge hist : Nat) :
    (p.chargeAll k charge hist).Tells (n + k) := by
  obtain ⟨h1, h2, h3⟩ := h
  unfold Counters.chargeAll
  refine Counters.Tells.congr (p := { p with activeAllocations := wrap (p.activeAllocations + k)
                                             totalAllocOps :=
                                               wrap (p.totalAllocOps + k) }) ⟨?_, ?_, h3⟩ ?_
  · simp only [h1]; unfold wrap; omega
  · simp only [h2]; unfold wrap; omega
  · rw [events_tally]
    split
    · rw [bucket_tally]; rfl
    · rfl

theorem Counters.Tells.pay (h : p.Tells (n + if b.counted then 1 else 0)) : (p.pay b).Tells n := by
  obtain ⟨h1, h2, h3⟩ := h
  unfold Counters.pay
  split
  · rename_i hc
    rw [if_pos hc] at h1 h2
    refine ⟨?_, ?_, Nat.mod_lt _ (Nat.two_pow_pos 64)⟩ <;>
      simp only [Counters.discharge, h1, h2] <;> unfold wrap <;> omega
  · rename_i hc
    rw [if_neg hc] at h1 h2
    exact ⟨h1, h2, h3⟩

theorem Counters.Tells.pays (h : p.Tells (n + bs.countP Block.counted)) :
    (bs.foldl Counters.pay p).Tells n := by
  induction bs generalizing p with
  | nil => exact h
  | cons b bs ih =>
    rw [List.countP_cons, ← Nat.add_assoc] at h
    exact ih h.pay

/-- A block that takes neither branch, or is counted, pays what it owes. -/
theorem releaseAt_tally (intact : Bool) {room : Bool}
    (h : p.cfg.lockFree = true → room = true → b.counted = true) :
    (p.releaseAt b intact room).tally = (p.pay b).tally := by
  unfold Counters.releaseAt
  split
  · rename_i hb
    rw [tick_counted (h hb.2.2 hb.2.1), event_tally]
    exact pay_tally (verifyCanary_tally p b.requested intact) b
  · exact release_tally p b intact

theorem tick_cfg : (p.tick b).cfg = p.cfg := by unfold Counters.tick; split <;> rfl

theorem Counters.releaseAt_cfg (p : Counters) (b : Block) (intact room : Bool) :
    (p.releaseAt b intact room).cfg = p.cfg := by
  unfold Counters.releaseAt
  split
  · rw [event_cfg, tick_cfg, (verifyCanary_same ..).2]
  · exact (release_counters ..).2

end Tells

/-! ## The invariant -/

/-- The counters of both pools tell their counted blocks. The arena has no emergency
buffer, and an uncounted block is one that `mp_free_batch` collects. -/
structure Told (s : State) : Prop where
  tells : ∀ w, (s.pool w).Tells (s.counted w)
  spare : (s.pool .child).cfg.emergencyBuf = 0 ∧ (s.pool .child).cfg.limit = 0
  emergency : ∀ b ∈ s.live, b.tier = .emergency → b.owner = .master
  uncounted : ∀ b ∈ s.live, b.counted = false → b.batchable = true

theorem counted_cons (s : State) (b : Block) (bs : List Block) (w : Who) (h : s.live = b :: bs) :
    s.counted w = ({ s with live := bs } : State).counted w +
      if b.counted && decide (b.owner = w) then 1 else 0 := by
  unfold State.counted
  rw [h, List.countP_cons]

section Told
variable {s s' : State} {b : Block} {bs rest : List Block} {w : Who} {size n : Nat}
  {intact room : Bool}

theorem Told.same (h : Told s) (hs : SameAccount s s') : Told s' where
  tells v := by
    have : s'.counted v = s.counted v := by unfold State.counted; rw [hs.live]
    rw [this]
    exact (h.tells v).congr (congrArg Prod.snd (hs.tally v))
  spare := by rw [hs.cfg]; exact h.spare
  emergency := by rw [hs.live]; exact h.emergency
  uncounted := by rw [hs.live]; exact h.uncounted

/-- Blocks of one pool come in, counted, and its counters know. -/
theorem Told.admit (h : Told s) (hl : s'.live = bs ++ s.live)
    (hc : ∀ v, (s'.pool v).cfg = (s.pool v).cfg) (hw : (s'.pool w).Tells (s.counted w + bs.length))
    (hne : ∀ v, v ≠ w → (s'.pool v).tally = (s.pool v).tally)
    (hb : ∀ b ∈ bs, b.counted = true ∧ b.owner = w ∧ (b.tier = .emergency → w = .master)) :
    Told s' where
  tells v := by
    unfold State.counted
    rw [hl, List.countP_append]
    by_cases e : v = w
    · subst e
      rw [List.countP_eq_length.mpr fun b hm => by simp [(hb b hm).1, (hb b hm).2.1], Nat.add_comm]
      exact hw
    · rw [List.countP_eq_zero.mpr fun b hm => by simp [(hb b hm).2.1, Ne.symm e], Nat.zero_add]
      exact (h.tells v).congr (congrArg Prod.snd (hne v e))
  spare := by rw [hc]; exact h.spare
  emergency b hm ht := by
    rw [hl] at hm
    rcases List.mem_append.mp hm with hm | hm
    · rw [(hb b hm).2.1]; exact (hb b hm).2.2 ht
    · exact h.emergency b hm ht
  uncounted b hm hu := by
    rw [hl] at hm
    rcases List.mem_append.mp hm with hm | hm
    · rw [(hb b hm).1] at hu; cases hu
    · exact h.uncounted b hm hu

/-- The emergency buffer is the master's. -/
theorem Told.owns (h : Told s) (hf : (s.pool w).emergencyFits n = true) : w = .master := by
  cases w with
  | master => rfl
  | child =>
    unfold Counters.emergencyFits at hf
    simp [h.spare.1] at hf

theorem Told.charged (h : Told s) (hc : Charged s s' w n) : Told s' := by
  obtain ⟨hsame, b, hl, hbc, hbo, hbt⟩ := hc
  have hcfg : ∀ v, ((s.set w ((s.pool w).charge n)).pool v).cfg = (s.pool v).cfg := by
    intro v
    by_cases e : v = w
    · subst e; rw [set_self, charge_cfg]
    · rw [set_ne _ _ e]
  refine h.admit (w := w) (show s'.live = [b] ++ s.live from hl)
    (fun v => (hsame.cfg v).trans (hcfg v)) ?_ (fun v e => ?_) fun c hm => ?_
  · refine ((h.tells w).charge n).congr ?_
    have := hsame.tally w
    rw [set_self] at this
    exact congrArg Prod.snd this
  · have := hsame.tally v
    rw [set_ne _ _ e] at this
    exact this
  · obtain rfl := List.mem_singleton.mp hm
    exact ⟨hbc, hbo, fun ht => h.owns (hbt ht)⟩

theorem Told.alloc (h : Told s) (size : Nat) (ans : Option Place) :
    Told (mpAlloc s size ans).1 := by
  rcases mpAlloc_form s size ans with hs | ⟨-, -, hc⟩
  · exact h.same hs
  · exact h.charged hc

theorem Told.alignedAlloc (h : Told s) (w : Who) (alignment size : Nat) (ans : Option Place) :
    Told (mpAlignedAlloc s w alignment size ans).1 := by
  rcases mpAlignedAlloc_form s w alignment size ans with hs | ⟨n, -, hc⟩
  · exact h.same hs
  · exact h.charged hc

theorem Told.allocBatch (h : Told s) (size count : Nat) (as : List (Option Place)) :
    Told (mpAllocBatch s size count as).1 := by
  show Told (batchOn s s.route size count as).1
  rcases batchOn_form s s.route size count as with hs | ⟨s₁, bs, k, hs, he, hb⟩
  · exact h.same hs
  · rw [he]
    have h₁ := h.same hs
    refine h.admit rfl (fun v => ?_) (w := s.route) ?_ (fun v e => ?_) fun b hm =>
      ⟨(hb b hm).1, (hb b hm).2.1, fun ht => ?_⟩
    · by_cases e : v = s.route
      · subst e
        show ((s₁.set _ _).pool _).cfg = _
        rw [set_self, chargeAll_cfg, hs.cfg]
      · show ((s₁.set _ _).pool _).cfg = _
        rw [set_ne _ _ e, hs.cfg]
    · show ((s₁.set _ _).pool _).Tells _
      rw [set_self]
      have : s₁.counted s.route = s.counted s.route := by unfold State.counted; rw [hs.live]
      rw [← this]
      exact (h₁.tells _).chargeAll ..
    · show ((s₁.set _ _).pool _).tally = _
      rw [set_ne _ _ e, hs.tally]
    · cases hr : s.route with
      | master => rfl
      | child => exact absurd ht ((hb b hm).2.2 (by rw [hr]; exact h.spare.2))

/-- The block of `mp_alloc_fast` is not counted, and nothing counts it. -/
theorem Told.allocFast (h : Told s) (size : Nat) (hit ans : Option Place) :
    Told (mpAllocFast s size hit ans).1 := by
  unfold mpAllocFast
  split
  · split
    · rename_i a _
      refine ⟨fun v => ?_, h.spare, fun b hm => ?_, fun b hm => ?_⟩
      · rw [counted_cons _ (fastBlock size a) s.live v rfl]
        exact h.tells v
      · rcases List.mem_cons.mp hm with rfl | hm
        · exact nofun
        · exact h.emergency b hm
      · rcases List.mem_cons.mp hm with rfl | hm
        · exact fun _ => rfl
        · exact h.uncounted b hm
    · exact h.alloc size ans
  · exact h.alloc size ans

/-- Blocks of one pool leave, and its counters know. -/
theorem Told.leave (h : Told s) (hl : (bs ++ s'.live).Perm s.live)
    (hc : ∀ v, (s'.pool v).cfg = (s.pool v).cfg) (hb : ∀ b ∈ bs, b.owner = w)
    (hw : ∀ n, (s.pool w).Tells (n + bs.countP Block.counted) → (s'.pool w).Tells n)
    (hne : ∀ v, v ≠ w → (s'.pool v).tally = (s.pool v).tally) : Told s' where
  tells v := by
    have hv := h.tells v
    unfold State.counted at hv ⊢
    rw [← hl.countP_eq, List.countP_append] at hv
    by_cases e : v = w
    · subst e
      have hbs : bs.countP (fun b => b.counted && decide (b.owner = v)) = bs.countP Block.counted :=
        List.countP_congr fun b hm => by simp [hb b hm]
      rw [hbs, Nat.add_comm] at hv
      exact hw _ hv
    · rw [List.countP_eq_zero.mpr fun b hm => by simp [hb b hm, Ne.symm e], Nat.zero_add] at hv
      exact hv.congr (congrArg Prod.snd (hne v e))
  spare := by rw [hc]; exact h.spare
  emergency b hm := h.emergency b (hl.subset (List.mem_append_right _ hm))
  uncounted b hm := h.uncounted b (hl.subset (List.mem_append_right _ hm))

theorem Told.release (h : Told s) (hm : b ∈ s.live)
    (hp : (s.pool .master).cfg.lockFree = true → room = true → b.counted = true) :
    Told (s.releaseAt b intact room) := by
  have hhome : b.home .master = b.owner := by
    unfold Block.home
    split
    · rename_i ht; exact (h.emergency b hm ht).symm
    · rfl
  have hp' : (s.pool b.owner).cfg.lockFree = true → room = true → b.counted = true := by
    cases hc : b.counted with
    | true => exact fun _ _ => rfl
    | false =>
      have hbat := h.uncounted b hm hc
      unfold Block.batchable at hbat
      simp only [Bool.and_eq_true, decide_eq_true_eq] at hbat
      rw [hbat.2, ← hc]
      exact hp
  unfold State.releaseAt
  rw [hhome]
  refine h.leave (w := b.owner)
    (show ([b] ++ s.live.erase b).Perm s.live from (List.perm_cons_erase hm).symm)
    (fun v => ?_) (fun c hc => by rw [List.mem_singleton.mp hc]) (fun n hn => ?_) fun v e => ?_
  · by_cases e : v = b.owner
    · subst e
      show ((s.set _ _).pool _).cfg = _
      rw [set_self, Counters.releaseAt_cfg]
    · show ((s.set _ _).pool _).cfg = _
      rw [set_ne _ _ e]
  · show ((s.set _ _).pool _).Tells n
    rw [set_self]
    refine (Counters.Tells.pay (b := b) ?_).congr (congrArg Prod.snd (releaseAt_tally intact hp'))
    rwa [List.countP_cons, List.countP_nil, Nat.zero_add] at hn
  · show ((s.set _ _).pool _).tally = _
    rw [set_ne _ _ e]

theorem Told.free (h : Told s) {ptr : Nat} (hp : Paired s (.free ptr intact room)) :
    Told (mpFreeAt s ptr intact room) := by
  unfold mpFreeAt
  split
  · exact h
  · split
    · exact h
    · rename_i b hf
      obtain ⟨hm, hptr⟩ := find_spec hf
      exact h.release hm fun hl hr => hp hl hr b hm hptr

/-- `mp_free_fast` never misses: an uncounted block goes to the cache without
statistics, or finds no room there. -/
theorem Told.freeFast (h : Told s) (ptr : Nat) : Told (mpFreeFast s ptr intact room) := by
  unfold mpFreeFast
  split
  · exact h
  · split
    · exact h
    · rename_i b hf
      obtain ⟨hm, -⟩ := find_spec hf
      split
      · rename_i hb
        obtain ⟨-, -, hc, -⟩ := hb
        refine h.leave (w := b.owner)
          (show ([b] ++ s.live.erase b).Perm s.live from (List.perm_cons_erase hm).symm)
          (fun _ => rfl) (fun c hc' => by rw [List.mem_singleton.mp hc']) (fun n hn => ?_)
            fun _ _ => rfl
        simpa [hc] using hn
      · rename_i hb
        refine h.release hm fun hl hr => ?_
        by_contra hc
        have hc := (Bool.not_eq_true _).mp hc
        have hbat := h.uncounted b hm hc
        unfold Block.batchable at hbat
        simp only [Bool.and_eq_true, decide_eq_true_eq] at hbat
        unfold Config.lockFree at hl
        rw [Bool.and_eq_true] at hl
        exact hb ⟨hl.2, hbat.1, hc, hr⟩

theorem Told.flush (h : Told s) (hper : (bs ++ rest).Perm s.live)
    (hb : ∀ b ∈ bs, b.batchable = true)
    (hp : (s.pool .master).cfg.lockFree = true → ∀ b ∈ bs, b.counted = true) :
    Told (flushAt s bs) := by
  have hfold :
      bs.foldl (fun p b => if (s.pool .master).cfg.lockFree then p.tick b else p.pay b)
        (s.pool .master) = bs.foldl Counters.pay (s.pool .master) := by
    refine List.foldl_ext _ _ _ fun p b hm => ?_
    split
    · rename_i hl; exact tick_counted (hp hl b hm)
    · rfl
  unfold flushAt
  simp only [hfold, foldl_event_map]
  refine h.leave (w := .master) (((foldl_erase_perm hper).append_left bs).trans hper) (fun v => ?_)
    (fun b hm => ?_) (fun n hn => ?_) fun v e => ?_
  · by_cases e : v = .master
    · subst e
      show ((s.set _ _).pool _).cfg = _
      rw [set_self, events_cfg, foldl_pay_cfg]
    · show ((s.set _ _).pool _).cfg = _
      rw [set_ne _ _ e]
  · have := hb b hm
    unfold Block.batchable at this
    simp only [Bool.and_eq_true, decide_eq_true_eq] at this
    exact this.2
  · refine hn.pays.congr ?_
    show ((s.set .master _).pool .master).tally.2 = _
    simp only [set_self, events_tally]
  · show ((s.set _ _).pool _).tally = _
    rw [set_ne _ _ e]

end Told

/-! ## Whole batches -/

section Batch
variable {s : State} {hdrs : List Block}

theorem State.releaseAt_cfg (s : State) (b : Block) (intact room : Bool) :
    ((s.releaseAt b intact room).pool .master).cfg = (s.pool .master).cfg := by
  unfold State.releaseAt
  by_cases e : b.home .master = .master
  · rw [e]
    exact (congrArg Counters.cfg (set_self ..)).trans (Counters.releaseAt_cfg ..)
  · exact congrArg Counters.cfg (set_ne _ _ (Ne.symm e))

theorem flushAt_cfg (s : State) (bs : List Block) :
    ((flushAt s bs).pool .master).cfg = (s.pool .master).cfg := by
  have hfold : ∀ p : Counters,
      (bs.foldl (fun p b => if (s.pool .master).cfg.lockFree then p.tick b else p.pay b) p).cfg =
        p.cfg := by
    intro p
    induction bs generalizing p with
    | nil => rfl
    | cons b bs ih =>
      rw [List.foldl_cons, ih]
      split
      · exact tick_cfg
      · exact pay_cfg
  unfold flushAt
  simp only [foldl_event_map]
  refine (congrArg Counters.cfg (set_self ..)).trans ?_
  rw [events_cfg, hfold]

/-- The blocks collected so far are live, and no later pointer is one of theirs. -/
theorem Told.freeBatch {ptrs : List (Nat × Bool × Bool)} (h : Told s)
    (hnd : ((ptrs.map Prod.fst).filter (· ≠ 0)).Nodup) (hp : Paired s (.freeBatch ptrs))
    (hper : ∃ rest, (hdrs ++ rest).Perm s.live) (hb : ∀ b ∈ hdrs, b.batchable = true)
    (hc : (s.pool .master).cfg.lockFree = true → ∀ b ∈ hdrs, b.counted = true)
    (hfresh : ∀ b ∈ hdrs, ∀ q ∈ ptrs, q.1 ≠ 0 → q.1 ≠ b.ptr) :
    Told (mpFreeBatchAt ptrs hdrs s) := by
  induction ptrs generalizing hdrs s with
  | nil =>
    obtain ⟨rest, hper⟩ := hper
    exact h.flush hper hb hc
  | cons q ptrs ih =>
    obtain ⟨ptr, intact, room⟩ := q
    have hnd' : ((ptrs.map Prod.fst).filter (· ≠ 0)).Nodup := by
      refine List.Nodup.sublist ?_ hnd
      rw [List.map_cons]
      exact (List.sublist_cons_self _ _).filter _
    have hp' : Paired s (.freeBatch ptrs) := fun hl q hq => hp hl q (List.mem_cons_of_mem _ hq)
    have hfresh' : ∀ b ∈ hdrs, ∀ q ∈ ptrs, q.1 ≠ 0 → q.1 ≠ b.ptr := fun b hb q hq =>
      hfresh b hb q (List.mem_cons_of_mem _ hq)
    unfold mpFreeBatchAt
    split
    · exact ih h hnd' hp' hper hb hc hfresh'
    · rename_i h0
      split
      · exact ih h hnd' hp' hper hb hc hfresh'
      · rename_i b hfind
        obtain ⟨hm, hptr⟩ := find_spec hfind
        obtain ⟨rest, hper⟩ := hper
        have hcb : (s.pool .master).cfg.lockFree = true → b.counted = true := fun hl =>
          hp hl (ptr, intact, room) List.mem_cons_self b hm hptr
        have hnew : b ∉ hdrs :=
          fun hm => hfresh b hm (ptr, intact, room) List.mem_cons_self h0 hptr.symm
        have hrest : b ∈ rest := (List.mem_append.mp (hper.mem_iff.mpr hm)).resolve_left hnew
        have hlater : ∀ q ∈ ptrs, q.1 ≠ 0 → q.1 ≠ b.ptr := by
          intro q hq hq0 he
          rw [List.map_cons, List.filter_cons_of_pos (by simpa using h0)] at hnd
          refine (List.nodup_cons.mp hnd).1 (List.mem_filter.mpr ⟨?_, by simpa using h0⟩)
          exact List.mem_map.mpr ⟨q, hq, he.trans hptr⟩
        have hper' : (hdrs ++ [b] ++ rest.erase b).Perm s.live := by
          rw [List.append_assoc]
          exact ((List.perm_cons_erase hrest).symm.append_left hdrs).trans hper
        split
        · rename_i hbat
          have hb' : ∀ c ∈ hdrs ++ [b], c.batchable = true := fun c hc => by
            rcases List.mem_append.mp hc with hc | hc
            · exact hb c hc
            · rw [List.mem_singleton.mp hc]; exact hbat
          have hc' : (s.pool .master).cfg.lockFree = true → ∀ c ∈ hdrs ++ [b], c.counted = true :=
            fun hl c hm => by
            rcases List.mem_append.mp hm with hm | hm
            · exact hc hl c hm
            · rw [List.mem_singleton.mp hm]; exact hcb hl
          split
          · have hflush := h.flush hper' hb' hc'
            have hlive : (flushAt s (hdrs ++ [b])).live.Perm (rest.erase b) :=
              foldl_erase_perm hper'
            refine ih hflush hnd' (fun hl q hq c hm => ?_) ⟨_, .refl _⟩ nofun (fun _ => nofun) nofun
            rw [flushAt_cfg] at hl
            exact hp' hl q hq c (hper'.subset (List.mem_append_right _ (hlive.subset hm)))
          · refine ih h hnd' hp' ⟨_, hper'⟩ hb' hc' fun c hm => ?_
            rcases List.mem_append.mp hm with hm | hm
            · exact hfresh' c hm
            · rw [List.mem_singleton.mp hm]; exact hlater
        · have hper₁ : (hdrs ++ rest.erase b).Perm (s.releaseAt b intact room).live := by
            have := hper.erase b
            rwa [List.erase_append_right _ hnew] at this
          have hcfg := State.releaseAt_cfg s b intact room
          refine ih (h.release hm fun hl _ => hcb hl) hnd' (fun hl q hq c hm => ?_) ⟨_, hper₁⟩ hb
            (fun hl => ?_) hfresh'
          · rw [hcfg] at hl
            exact hp' hl q hq c (List.mem_of_mem_erase hm)
          · rw [hcfg] at hl
            exact hc hl

end Batch

end Cmem.L3.Pool

import Cmem.L3Pool.Book

/-!
# A batch against single allocations

`mp_alloc_batch` decides the limit once, runs one loop for its tier and adds up the
statistics behind it. It differs from single allocations in the peak of a pool
without THREAD_SAFE, in the OS loop that goes on behind the breaker, in OOM events
that come without an attempt, and where `active_bytes` has drifted below zero: a first
element may be over the limit then, and the ones behind it not.
-/
namespace Cmem.L3.Pool

/-! ## What decides a batch -/

/-- How many of `count` elements fit under the limit, by the one division of the batch. -/
def Counters.fit (p : Counters) (charge count : Nat) : Nat :=
  if p.cfg.limit = 0 then count
  else if p.over charge 0 then 0
  else min count (wrap (p.cfg.limit + (2 ^ 64 - p.activeBytes)) / charge)

/-- The elements a batch takes from the tier when it has `k`: the loop of the OS
tier does not stop with the breaker. -/
def State.batchGranted (s : State) (w : Who) (charge size count k : Nat) : Nat :=
  let reach := if (s.pool w).cfg.fallback then count else (s.pool w).fit charge count
  if (s.pool w).cfg.tierOf charge = .os then min reach k
  else min reach (min (s.budget w size count) k)

/-- Whether a batch counts an element as rejected. -/
def State.batchRejects (s : State) (w : Who) (charge size count k : Nat) : Bool :=
  !(s.pool w).cfg.fallback && decide ((s.pool w).fit charge count < count) &&
    decide ((s.pool w).fit charge count ≤ k) &&
      decide ((s.pool w).fit charge count < s.budget w size count)

/-- The quota and the breaker behind `n` elements. -/
def State.charged (s : State) (w : Who) (size n : Nat) (trip : Bool) : State where
  pool := Function.update s.pool w { s.pool w with tripped := (s.pool w).tripped || trip }
  arenas := s.arenas
  quotaBytes := if (s.pool w).cfg.breaker then wrap (s.quotaBytes + n * size) else s.quotaBytes
  quotaCount := if (s.pool w).cfg.breaker then wrap (s.quotaCount + n) else s.quotaCount
  live := s.live

section Loop
variable {s s' : State} {w : Who} {size total n m : Nat} {r : Batch}

theorem charged_zero (hb : s.quotaBytes < 2 ^ 64) (hc : s.quotaCount < 2 ^ 64) :
    s.charged w size 0 false = s := by
  unfold State.charged
  simp [wrap_of_lt hb, wrap_of_lt hc]

theorem charged_charged (t t' : Bool) :
    (s.charged w size n t).charged w size m t' = s.charged w size (n + m) (t || t') := by
  unfold State.charged
  simp only [Function.update_self, Function.update_idem]
  congr 1
  · rw [Bool.or_assoc]
  · split
    · rw [wrap_wrap_add, Nat.add_assoc, ← Nat.add_mul]
    · rfl
  · split
    · rw [wrap_wrap_add, Nat.add_assoc]
    · rfl

theorem charged_pool (t : Bool) :
    (s.charged w size n t).pool w = { s.pool w with tripped := (s.pool w).tripped || t } :=
  Function.update_self ..

theorem accrue_charged : (s.accrue w size).1 = s.charged w size 1 false := by
  unfold State.accrue State.charged
  cases (s.pool w).cfg.breaker <;> simp

theorem trip_charged : (s.charged w size n false).trip w = s.charged w size n true := by
  unfold State.trip State.charged State.set
  simp

/-- What a loop makes of a batch. -/
structure Looped (w : Who) (total size m : Nat) (trip : Bool) (r r' : Batch) : Prop where
  blocks : ∃ bs : List Block, r'.blocks = r.blocks ++ bs ∧ bs.length = m ∧
    ∀ b ∈ bs, b.entry = ((r.state.pool w).cfg.tierOf total, total)
  state : r'.state = r.state.charged w size m trip
  tripped : r'.tripped = (r.tripped || trip)

theorem Looped.refl (hq : r.state.quotaBytes < 2 ^ 64) (hc : r.state.quotaCount < 2 ^ 64) {b : Nat}
    (hb : 0 < b) : Looped w total size 0 (decide (b ≤ 0)) r r := by
  rw [decide_eq_false (by omega)]
  exact ⟨⟨[], by simp, rfl, by simp⟩, (charged_zero hq hc).symm, by simp⟩

theorem Looped.trans {r' r'' : Batch} {t t' : Bool} (h : Looped w total size n t r r')
    (h' : Looped w total size m t' r' r'') : Looped w total size (n + m) (t || t') r r'' := by
  obtain ⟨bs, hbs, hlen, hall⟩ := h.blocks
  obtain ⟨bs', hbs', hlen', hall'⟩ := h'.blocks
  refine ⟨⟨bs ++ bs', by rw [hbs', hbs, List.append_assoc], by rw [List.length_append, hlen, hlen'],
    fun b hb => ?_⟩, ?_, ?_⟩
  · rcases List.mem_append.mp hb with hb | hb
    · exact hall b hb
    · rw [hall' b hb, h.state, charged_pool]
  · rw [h'.state, h.state, charged_charged]
  · rw [h'.tripped, h.tripped, Bool.or_assoc]

end Loop

/-- What a batch is before its statistics: `m` elements of the tier, `e` of the
emergency buffer, `o` OOM events. -/
structure Mid (w : Who) (total size m e o : Nat) (trip : Bool) (s : State) (r : Batch) : Prop where
  pool : r.state.pool w =
    { s.pool w with
      osAllocatedBytes :=
        if (s.pool w).cfg.tierOf total = .os then wrap ((s.pool w).osAllocatedBytes + m * total)
        else (s.pool w).osAllocatedBytes
      emergencyUsed := (s.pool w).emergencyUsed || decide (0 < e)
      tripped := (s.pool w).tripped || trip
      events :=
        if (s.pool w).cfg.eventCb then List.replicate o (.oom total) ++ (s.pool w).events
        else (s.pool w).events }
  quotaBytes :
    r.state.quotaBytes = if (s.pool w).cfg.breaker then wrap (s.quotaBytes + (m + e) * size)
      else s.quotaBytes
  quotaCount :
    r.state.quotaCount = if (s.pool w).cfg.breaker then wrap (s.quotaCount + (m + e))
      else s.quotaCount
  live : r.state.live = s.live
  arenas : r.state.arenas = s.arenas
  blocks : ∃ bs cs : List Block, r.blocks = bs ++ cs ∧ bs.length = m ∧ cs.length = e ∧
    (∀ b ∈ bs, b.entry = ((s.pool w).cfg.tierOf total, total)) ∧
    ∀ b ∈ cs, b.entry = (.emergency, total)

section Mid
variable {s : State} {w : Who} {size total m e o : Nat} {trip : Bool} {r : Batch}

theorem Mid.refl (hs : (s.book w).Sized) : Mid w total size 0 0 0 false s ⟨s, [], false⟩ := by
  have hos := wrap_of_lt hs.os
  have hqb := wrap_of_lt hs.quotaBytes
  have hqc := wrap_of_lt hs.quotaCount
  simp only [State.book] at hos hqb hqc
  exact ⟨by simp [hos], by simp [hqb], by simp [hqc], rfl, rfl,
    ⟨[], [], rfl, rfl, rfl, fun _ hb => absurd hb List.not_mem_nil,
    fun _ hb => absurd hb List.not_mem_nil⟩⟩

/-- Behind the loop. -/
theorem Looped.mid (h : Looped w total size m trip ⟨s, [], false⟩ r) :
    Mid w total size m 0 0 trip s { r with state := r.state.countOs w total r.blocks.length } := by
  obtain ⟨bs, hbs, hlen, hall⟩ := h.blocks
  have hst := h.state
  simp only at hbs hst
  have hm : r.blocks.length = m := by rw [hbs, List.nil_append, hlen]
  have hcfg : (r.state.pool w).cfg = (s.pool w).cfg := by rw [hst, charged_pool]
  have hpool : ((r.state.countOs w total r.blocks.length).pool w) =
      { s.pool w with
        osAllocatedBytes :=
          if (s.pool w).cfg.tierOf total = .os then wrap ((s.pool w).osAllocatedBytes + m * total)
          else (s.pool w).osAllocatedBytes
        tripped := (s.pool w).tripped || trip } := by
    unfold State.countOs
    simp only [hcfg]
    split
    · rw [set_self, hst, charged_pool, hm]
      simp [wrap]
    · rw [hst, charged_pool]
  have hrest : (r.state.countOs w total r.blocks.length).quotaBytes = r.state.quotaBytes ∧
      (r.state.countOs w total r.blocks.length).quotaCount = r.state.quotaCount ∧
      (r.state.countOs w total r.blocks.length).live = r.state.live ∧
      (r.state.countOs w total r.blocks.length).arenas = r.state.arenas := by
    unfold State.countOs
    simp only
    split <;> exact ⟨rfl, rfl, rfl, rfl⟩
  refine ⟨?_, by rw [hrest.1, hst]; rfl, by rw [hrest.2.1, hst]; rfl, by rw [hrest.2.2.1, hst]; rfl,
    by rw [hrest.2.2.2, hst]; rfl, ⟨bs, [], by simp [hbs], hlen, rfl, hall,
      fun _ hb => absurd hb List.not_mem_nil⟩⟩
  rw [hpool]
  simp

/-- Another OOM event. -/
theorem Mid.oom (h : Mid w total size m e o trip s r) :
    Mid w total size m e (o + 1) trip s
      { r with state := r.state.set w ((r.state.pool w).event (.oom total)) } := by
  refine ⟨?_, h.quotaBytes, h.quotaCount, h.live, h.arenas, h.blocks⟩
  simp only [set_self, event_eq, h.pool]
  congr 1
  split <;> simp [List.replicate_succ]

/-- The emergency element. -/
theorem Mid.emergency (h : Mid w total size m 0 o trip s r) :
    Mid w total size m 1 (o + if r.state.spent w size then 0 else 1)
      (trip || r.state.spent w size) s
      (batchEmergency w total total size r) := by
  obtain ⟨bs, cs, hbs, hlen, hcs, hall, -⟩ := h.blocks
  obtain rfl := List.length_eq_zero_iff.mp hcs
  have hcfg : (r.state.pool w).cfg = (s.pool w).cfg := by rw [h.pool]
  have hsp := @spent_set r.state w size { r.state.pool w with emergencyUsed := true } rfl
  have hacc : (r.state.set w { r.state.pool w with emergencyUsed := true }).accrue w size =
      ((r.state.set w { r.state.pool w with emergencyUsed := true }).charged w size 1 false,
        r.state.spent w size) :=
    Prod.ext accrue_charged hsp
  have hquota (c : Bool) :
      ((r.state.set w { r.state.pool w with emergencyUsed := true }).charged w size 1
        c).quotaBytes =
          (if (s.pool w).cfg.breaker then wrap (s.quotaBytes + (m + 1) * size) else s.quotaBytes) ∧
        ((r.state.set w { r.state.pool w with emergencyUsed := true }).charged w size 1
          c).quotaCount =
          if (s.pool w).cfg.breaker then wrap (s.quotaCount + (m + 1)) else s.quotaCount := by
    simp only [State.charged, set_self, hcfg]
    change (if _ then wrap (r.state.quotaBytes + _) else r.state.quotaBytes) = _ ∧
      (if _ then wrap (r.state.quotaCount + _) else r.state.quotaCount) = _
    rw [h.quotaBytes, h.quotaCount]
    split
    · rw [wrap_wrap_add, wrap_wrap_add, Nat.add_assoc, Nat.add_assoc, ← Nat.add_mul]
      exact ⟨rfl, rfl⟩
    · exact ⟨rfl, rfl⟩
  have hblocks (b : Block) (hb : b.entry = (.emergency, total)) :
      ∃ bs cs : List Block, r.blocks ++ [b] = bs ++ cs ∧ bs.length = m ∧ cs.length = 1 ∧
        (∀ b ∈ bs, b.entry = ((s.pool w).cfg.tierOf total, total)) ∧
        ∀ b ∈ cs, b.entry = (.emergency, total) :=
    ⟨bs, [b], by rw [hbs, List.append_nil], hlen, rfl, hall, by simp [hb]⟩
  have hpool (c : Bool) :
      ((r.state.set w { r.state.pool w with emergencyUsed := true }).charged w size 1 c).pool w =
        { r.state.pool w with
          emergencyUsed := true, tripped := (r.state.pool w).tripped || c } := by
    rw [charged_pool, set_self]
  unfold batchEmergency
  simp only [hacc]
  cases r.state.spent w size with
  | true =>
    rw [if_pos rfl, trip_charged]
    refine ⟨?_, (hquota true).1, (hquota true).2, h.live, h.arenas, hblocks _ rfl⟩
    refine (hpool true).trans ?_
    rw [h.pool]
    simp
  | false =>
    rw [if_neg (by decide)]
    refine ⟨?_, (hquota false).1, (hquota false).2, h.live, h.arenas, hblocks _ rfl⟩
    rw [hpool false, h.pool]
    simp only [set_self, event_eq, Bool.or_false, if_neg Bool.false_ne_true, List.replicate_succ]
    congr 1
    · simp
    · split <;> rfl

/-- Whether the emergency element uses up the quota. -/
theorem Mid.spent (count : Nat) (h : Mid w total size m e o trip s r) (he : e = 0)
    (hb : m < s.budget w size count) (hm : m < count) :
    r.state.spent w size = decide (s.budget w size count = m + 1) := by
  subst he
  have hcfg : (r.state.pool w).cfg = (s.pool w).cfg := by rw [h.pool]
  have htrip : r.state.spent w size = s.trips w size m := by
    rw [spent_eq]
    unfold State.trips
    rw [hcfg, h.quotaBytes]
    cases (s.pool w).cfg.breaker
    · rfl
    · simp only [if_true]
      rw [wrap_wrap_add, Nat.add_assoc, Nat.add_zero, Nat.zero_add, Nat.one_mul, ← Nat.succ_mul]
  unfold State.budget at hb ⊢
  rw [htrip, ahead_at (f := s.trips w size) (n := count) (by omega) hm]
  exact decide_eq_decide.mpr (by omega)

end Mid

section Finish
variable {s : State} {w : Who} {size m e o : Nat} {trip : Bool} {r : Batch}

theorem events_eq (p : Counters) (x : Event) (k : Nat) :
    (List.replicate k x).foldl Counters.event p =
      { p with events := if p.cfg.eventCb then List.replicate k x ++ p.events else p.events } := by
  induction k generalizing p with
  | zero => simp
  | succ k ih =>
    rw [List.replicate_succ, List.foldl_cons, ih, event_eq]
    congr 1
    split
    · rw [← List.replicate_succ, List.replicate_succ', List.append_assoc]
      rfl
    · rfl

theorem chargeAll_eq (p : Counters) (n charge k : Nat) :
    p.chargeAll n charge k =
      { p with activeBytes := wrap (p.activeBytes + n * charge)
               peakBytes := if p.peakBytes < wrap (p.activeBytes + n * charge) then
                wrap (p.activeBytes + n * charge)
                else p.peakBytes
               activeAllocations := wrap (p.activeAllocations + n)
               totalAllocOps := wrap (p.totalAllocOps + n)
               histogram := if 0 < k then (p.bucket charge k).histogram else p.histogram
               events :=
                 if p.cfg.eventCb then List.replicate k (.alloc charge) ++ p.events
                 else p.events } := by
  have hw : wrap (p.activeBytes + wrap (n * charge)) = wrap (p.activeBytes + n * charge) := by
    simp [wrap]
  unfold Counters.chargeAll
  rw [events_eq, hw]
  split
  · simp only [bucket_eq]
  · rfl

/-- The statistics of a batch. -/
theorem Mid.finish (h : Mid w ((s.pool w).cfg.chargeOf size) size m e o trip s r)
    (hs : (s.book w).Sized) (he : e ≤ 1) :
    let x := batchFinish w ((s.pool w).cfg.chargeOf size) size r (decide (0 < e))
    x.1.book w = (s.book w).add (s.pool w).cfg ((s.pool w).cfg.chargeOf size) size m e o ∧
    x.2.length = m + e ∧
      (x.1.pool w).tripped = ((s.pool w).tripped || trip) ∧
      (x.1.pool w).peakBytes = if m + e = 0 then (s.pool w).peakBytes
        else max (s.pool w).peakBytes
          (wrap ((s.pool w).activeBytes + (m + e) * (s.pool w).cfg.chargeOf size)) := by
  obtain ⟨bs, cs, hbs, hm, hce, hall, hcall⟩ := h.blocks
  have hlen : r.blocks.length = m + e := by rw [hbs, List.length_append, hm, hce]
  have hcfg : (r.state.pool w).cfg = (s.pool w).cfg := by rw [h.pool]
  unfold batchFinish
  by_cases hnil : r.blocks = []
  · have hm0 : m = 0 := by rw [hnil] at hlen; simp at hlen; omega
    have he0 : e = 0 := by rw [hnil] at hlen; simp at hlen; omega
    subst hm0 he0
    simp only [if_pos hnil]
    refine ⟨?_, rfl, by rw [h.pool], by rw [h.pool]; rfl⟩
    rw [hs.add_ooms]
    have hos := wrap_of_lt hs.os
    have hqb := wrap_of_lt hs.quotaBytes
    have hqc := wrap_of_lt hs.quotaCount
    simp only [State.book] at hos hqb hqc
    ext1
    · simp only [State.book, h.pool]
    · simp only [State.book, h.pool]
    · simp only [State.book, h.pool]
    · simp [State.book, h.pool, hos]
    · simp only [State.book, h.pool]
    · simp [State.book, h.quotaBytes, hqb]
    · simp [State.book, h.quotaCount, hqc]
    · simp only [State.book, h.pool]
      split <;> rfl
    · simp [State.book, h.live]
  · have hne : m + e ≠ 0 := by
      rw [← hlen]
      exact fun h0 => hnil (List.length_eq_zero_iff.mp h0)
    have hhist : m + e - (if decide (0 < e) = true then 1 else 0) = m := by
      rcases Nat.le_one_iff_eq_zero_or_eq_one.mp he with rfl | rfl <;> simp
    have hmap : (r.blocks.map ((s.pool w).cfg.relink size)).map Block.entry =
        List.replicate m ((s.pool w).cfg.tierOf ((s.pool w).cfg.chargeOf size), size) ++
          List.replicate e (Tier.emergency, size) := by
      have hb (c : List Block) (k : Nat) (t : Tier) (hk : c.length = k)
          (hc : ∀ b ∈ c, b.entry = (t, (s.pool w).cfg.chargeOf size)) :
          (c.map ((s.pool w).cfg.relink size)).map Block.entry = List.replicate k (t, size) := by
        rw [List.eq_replicate_iff]
        refine ⟨by rw [List.length_map, List.length_map, hk], fun x hx => ?_⟩
        rw [List.map_map] at hx
        obtain ⟨b, hbc, rfl⟩ := List.mem_map.mp hx
        have hent := hc b hbc
        exact (relink_entry _ b (congrArg Prod.snd hent)).trans
          (by rw [show b.tier = t from congrArg Prod.fst hent])
      rw [hbs, List.map_append, List.map_append, hb bs m _ hm hall, hb cs e _ hce hcall]
    simp only [if_neg hnil, hlen, hhist, hcfg]
    refine ⟨?_, by rw [List.length_map, List.length_map, hlen], ?_, ?_⟩
    · ext1
      · simp [State.book, chargeAll_eq, h.pool, Book.add]
      · simp [State.book, chargeAll_eq, h.pool, Book.add]
      · simp [State.book, chargeAll_eq, h.pool, Book.add]
      · simp [State.book, chargeAll_eq, h.pool, Book.add]
      · simp only [State.book, set_self, chargeAll_eq, h.pool, Book.add, bucket_eq]
        rcases Nat.eq_zero_or_pos m with rfl | hpos
        · have :=
            wrap_of_lt (hs.histogram ((s.pool w).cfg.classIndex ((s.pool w).cfg.chargeOf size)))
          simp only [State.book] at this
          simp [this]
        · rw [if_pos hpos]
      · exact h.quotaBytes
      · exact h.quotaCount
      · simp only [State.book, set_self, chargeAll_eq, h.pool, Book.add]
        split
        · rw [← Multiset.coe_add, ← Multiset.coe_add, Multiset.coe_replicate,
            Multiset.coe_replicate]
          abel
        · rfl
      · simp only [State.book, Book.add, set_live, h.live]
        rw [List.map_append, List.map_reverse, hmap, ← Multiset.coe_add,
          Multiset.coe_reverse, ← Multiset.coe_add, Multiset.coe_replicate, Multiset.coe_replicate]
    · simp [chargeAll_eq, h.pool]
    · simp only [set_self, chargeAll_eq, h.pool]
      rw [if_neg hne]
      split <;> omega

end Finish

section Run
variable {s : State} {w : Who} {size count : Nat} {as : List (Option Place)}

section Over
variable {charge fits : Nat}

end Over

end Run

/-! ## Parity -/

/-- When a batch comes to the same as single calls; `as` and `bs` are what the tier answers
to single calls and to the batch. -/
structure Alike (s : State) (size count : Nat) (as bs : List (Option Place)) : Prop where
  /-- The tier serves both alike: as many elements pass the limit one by one as the
  division says, and in the OS tier the breaker does not trip before the last one. -/
  tier : s.served s.route ((s.pool s.route).cfg.chargeOf size) size count as =
    s.batchGranted s.route ((s.pool s.route).cfg.chargeOf size) size count (supply bs)
  /-- An element is rejected in both or in neither, where an event or the emergency buffer
  tells. -/
  rejected : (s.pool s.route).cfg.eventCb = true ∨
      (s.pool s.route).emergencyFits ((s.pool s.route).cfg.chargeOf size) = true →
    s.rejects s.route ((s.pool s.route).cfg.chargeOf size) size count (supply as) =
      s.batchRejects s.route ((s.pool s.route).cfg.chargeOf size) size count (supply bs)
  /-- With fallback, every element that the division leaves over is attempted. -/
  fallback : (s.pool s.route).cfg.eventCb = true → (s.pool s.route).cfg.fallback = true →
    (s.pool s.route).overs ((s.pool s.route).cfg.chargeOf size)
        (min count (min (s.budget s.route size count) (supply as + 1))) =
      count - (s.pool s.route).fit ((s.pool s.route).cfg.chargeOf size) count
  /-- Behind the emergency element a single call is rejected, unless that element trips the
  breaker. -/
  emergency : (s.pool s.route).cfg.eventCb = true →
    s.spare s.route ((s.pool s.route).cfg.chargeOf size) size count (supply as) = true →
    ((s.behind s.route ((s.pool s.route).cfg.chargeOf size) size count as).2 = true ↔
      (s.pool s.route).fit ((s.pool s.route).cfg.chargeOf size) count + 1 <
        s.budget s.route size count)
  /-- No single call raises the peak above what the elements come to, THREAD_SAFE or with an
  old peak. -/
  peak : ∀ k < s.served s.route ((s.pool s.route).cfg.chargeOf size) size count as +
      (s.spare s.route ((s.pool s.route).cfg.chargeOf size) size count (supply as)).toNat,
    (s.pool s.route).mark ((s.pool s.route).cfg.chargeOf size) k ≤ max (s.pool s.route).peakBytes
      (wrap
        ((s.pool s.route).activeBytes +
          (s.served s.route ((s.pool s.route).cfg.chargeOf size) size count as +
            (s.spare s.route ((s.pool s.route).cfg.chargeOf size) size count (supply as)).toNat) *
          (s.pool s.route).cfg.chargeOf size))
  /-- A single element, counted twice, does not wrap below itself. -/
  single : s.served s.route ((s.pool s.route).cfg.chargeOf size) size count as +
      (s.spare s.route ((s.pool s.route).cfg.chargeOf size) size count (supply as)).toNat = 1 →
    wrap ((s.pool s.route).activeBytes + (s.pool s.route).cfg.chargeOf size) ≤
      max (s.pool s.route).peakBytes ((s.pool s.route).mark ((s.pool s.route).cfg.chargeOf size) 0)

section Parity
variable {s : State} {w : Who} {size count : Nat} {as bs : List (Option Place)} {b : Book}
  {c : Config} {charge : Nat}

theorem toNat_inj {x y : Bool} (h : x.toNat = y.toNat) : x = y := by
  cases x <;> cases y <;> simp_all

end Parity

end Cmem.L3.Pool

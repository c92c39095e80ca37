import Mathlib
import Cmem.L3Pool.Account

/-!
# Single allocations, element by element

What a run of `mp_alloc` of one size that stops at the first failure comes to:
`served` elements of the tier, at most one of the emergency buffer (`spare`) and
`ooms` rejections, all read off the state before the run. The sums are those of
`size_t`: `active_bytes` may have drifted below zero, where the check of the limit fails
for the first elements and holds for later ones.
-/
namespace Cmem.L3.Pool

/-- What a batch and single allocations are compared by, the peak and the breaker
apart. -/
@[ext] structure Book where
  active : Nat
  allocations : Nat
  ops : Nat
  os : Nat
  histogram : Nat → Nat
  quotaBytes : Nat
  quotaCount : Nat
  events : Multiset Event
  /-- Tiers and sizes of the live blocks. -/
  live : Multiset (Tier × Nat)

def Block.entry (b : Block) : Tier × Nat := (b.tier, b.requested)

def State.book (s : State) (w : Who) : Book where
  active := (s.pool w).activeBytes
  allocations := (s.pool w).activeAllocations
  ops := (s.pool w).totalAllocOps
  os := (s.pool w).osAllocatedBytes
  histogram := (s.pool w).histogram
  quotaBytes := s.quotaBytes
  quotaCount := s.quotaCount
  events := (s.pool w).events
  live := s.live.map Block.entry

/-- How many of `n` steps come before the first at which `f` holds. -/
def ahead : (Nat → Bool) → Nat → Nat
  | _, 0 => 0
  | f, n + 1 => if f 0 then 0 else ahead (fun k => f (k + 1)) n + 1

/-- The answers in a row that hold a block. -/
def supply (as : List (Option Place)) : Nat := (as.takeWhile Option.isSome).length

/-- Element `k` of a row is over the limit. -/
def Counters.over (p : Counters) (charge k : Nat) : Bool :=
  0 < p.cfg.limit && p.cfg.limit < wrap (p.activeBytes + (k + 1) * charge)

/-- How many of `n` elements are over the limit. -/
def Counters.overs (p : Counters) (charge n : Nat) : Nat := (List.range n).countP (p.over charge)

/-- How many of `count` elements pass the check of the limit, each behind the others. -/
def Counters.pass (p : Counters) (charge count : Nat) : Nat := ahead (p.over charge) count

/-- Element `k` of a row uses up the quota. -/
def State.trips (s : State) (w : Who) (size k : Nat) : Bool :=
  (s.pool w).cfg.breaker && 0 < (s.pool w).cfg.quota &&
    (s.pool w).cfg.quota ≤ wrap (s.quotaBytes + (k + 1) * size)

/-- How many elements it takes to trip the breaker, `count + 1` if `count` do not. -/
def State.budget (s : State) (w : Who) (size count : Nat) : Nat := ahead (s.trips w size) count + 1

/-- The elements that come from the tier, when it has `k`, up to a rejection. -/
def State.granted (s : State) (w : Who) (charge size count k : Nat) : Nat :=
  min (if (s.pool w).cfg.fallback then count else (s.pool w).pass charge count)
    (min (s.budget w size count) k)

/-- Whether an element is rejected for the limit. -/
def State.rejects (s : State) (w : Who) (charge size count k : Nat) : Bool :=
  !(s.pool w).cfg.fallback && decide ((s.pool w).pass charge count < count) &&
    decide ((s.pool w).pass charge count ≤ k) &&
      decide ((s.pool w).pass charge count < s.budget w size count)

/-- Whether the emergency buffer serves that element. -/
def State.spare (s : State) (w : Who) (charge size count k : Nat) : Bool :=
  s.rejects w charge size count k && (s.pool w).emergencyFits charge

/-- The pool `i` elements later, with the emergency buffer in use. -/
def State.later (s : State) (w : Who) (charge size i : Nat) : State where
  pool := Function.update s.pool w
    { s.pool w with
      activeBytes := wrap ((s.pool w).activeBytes + i * charge), emergencyUsed := true }
  arenas := s.arenas
  quotaBytes := if (s.pool w).cfg.breaker then wrap (s.quotaBytes + i * size) else s.quotaBytes
  quotaCount := s.quotaCount
  live := s.live

/-- Whether the emergency element leaves the breaker as it is, so that single calls go on
behind it. -/
def State.goesOn (s : State) (w : Who) (charge size count k : Nat) : Bool :=
  s.spare w charge size count k && decide ((s.pool w).pass charge count + 1 < s.budget w size count)

/-- What single calls do behind the emergency element: the elements they get from the tier,
none unless the counters wrap, and whether one more is rejected. -/
def State.behind (s : State) (w : Who) (charge size count : Nat)
    (as : List (Option Place)) : Nat × Bool :=
  let i := (s.pool w).pass charge count + 1
  let s' := s.later w charge size i
  if s.goesOn w charge size count (supply as) then
    (s'.granted w charge size (count - i) (supply (as.drop i)),
      s'.rejects w charge size (count - i) (supply (as.drop i)))
  else (0, false)

/-- The elements that single calls get from the tier. -/
def State.served (s : State) (w : Who) (charge size count : Nat) (as : List (Option Place)) : Nat :=
  s.granted w charge size count (supply as) + (s.behind w charge size count as).1

/-- The OOM events of single allocations. -/
def State.ooms (s : State) (w : Who) (charge size count : Nat) (as : List (Option Place)) : Nat :=
  if (s.pool w).cfg.fallback then
    (s.pool w).overs charge (min count (min (s.budget w size count) (supply as + 1)))
  else (s.rejects w charge size count (supply as)).toNat + (s.behind w charge size count as).2.toNat

/-- `n` elements of the tier, `e` of the emergency buffer and `o` OOM events. -/
def Book.add (b : Book) (c : Config) (charge size n e o : Nat) : Book where
  active := wrap (b.active + (n + e) * charge)
  allocations := wrap (b.allocations + (n + e))
  ops := wrap (b.ops + (n + e))
  os := if c.tierOf charge = .os then wrap (b.os + n * charge) else b.os
  histogram :=
    let i := c.classIndex charge
    if i < histogramBuckets then Function.update b.histogram i (wrap (b.histogram i + n))
    else b.histogram
  quotaBytes := if c.breaker then wrap (b.quotaBytes + (n + e) * size) else b.quotaBytes
  quotaCount := if c.breaker then wrap (b.quotaCount + (n + e)) else b.quotaCount
  events :=
    if c.eventCb then Multiset.replicate o (.oom charge) + Multiset.replicate n (.alloc charge) +
      b.events else b.events
  live :=
    Multiset.replicate n (c.tierOf charge, size) + Multiset.replicate e (.emergency, size) + b.live

/-- Every counter is a `size_t`. -/
structure Book.Sized (b : Book) : Prop where
  active : b.active < 2 ^ 64
  allocations : b.allocations < 2 ^ 64
  ops : b.ops < 2 ^ 64
  os : b.os < 2 ^ 64
  histogram : ∀ i, b.histogram i < 2 ^ 64
  quotaBytes : b.quotaBytes < 2 ^ 64
  quotaCount : b.quotaCount < 2 ^ 64

section Book
variable {b : Book} {c : Config} {charge size : Nat}

theorem wrap_lt (n : Nat) : wrap n < 2 ^ 64 := Nat.mod_lt _ (by decide)

theorem wrap_of_lt {n : Nat} (h : n < 2 ^ 64) : wrap n = n := Nat.mod_eq_of_lt h

theorem wrap_wrap_add (n m : Nat) : wrap (wrap n + m) = wrap (n + m) := by simp [wrap]

theorem Book.Sized.add_ooms (h : b.Sized) (o : Nat) :
    b.add c charge size 0 0 o =
      { b with
        events :=
          if c.eventCb then Multiset.replicate o (.oom charge) + b.events else b.events } := by
  ext1
  · simp [Book.add, wrap_of_lt h.active]
  · simp [Book.add, wrap_of_lt h.allocations]
  · simp [Book.add, wrap_of_lt h.ops]
  · simp [Book.add, wrap_of_lt h.os]
  · simp [Book.add, wrap_of_lt (h.histogram _)]
  · simp [Book.add, wrap_of_lt h.quotaBytes]
  · simp [Book.add, wrap_of_lt h.quotaCount]
  · simp [Book.add]
  · simp [Book.add]

theorem Book.Sized.add_zero (h : b.Sized) : b.add c charge size 0 0 0 = b := by
  rw [h.add_ooms]
  simp

theorem Book.add_add (n e o n' e' o' : Nat) :
    (b.add c charge size n e o).add c charge size n' e' o' =
      b.add c charge size (n + n') (e + e') (o + o') := by
  have hsum (k : Nat) : (n + e) * k + (n' + e') * k = (n + n' + (e + e')) * k := by
    rw [← Nat.add_mul]; congr 1; omega
  ext1
  · simp only [Book.add]
    rw [wrap_wrap_add, Nat.add_assoc, hsum]
  · simp only [Book.add]
    rw [wrap_wrap_add]; congr 1; omega
  · simp only [Book.add]
    rw [wrap_wrap_add]; congr 1; omega
  · simp only [Book.add]
    split
    · rw [wrap_wrap_add, Nat.add_assoc, ← Nat.add_mul]
    · rfl
  · simp only [Book.add]
    split
    · rw [Function.update_self, Function.update_idem, wrap_wrap_add, Nat.add_assoc]
    · rfl
  · simp only [Book.add]
    split
    · rw [wrap_wrap_add, Nat.add_assoc, hsum]
    · rfl
  · simp only [Book.add]
    split
    · rw [wrap_wrap_add]; congr 1; omega
    · rfl
  · simp only [Book.add]
    split
    · rw [Multiset.replicate_add, Multiset.replicate_add]
      abel
    · rfl
  · simp only [Book.add]
    rw [Multiset.replicate_add, Multiset.replicate_add]
    abel

theorem Book.Sized.add (h : b.Sized) (n e o : Nat) : (b.add c charge size n e o).Sized where
  active := wrap_lt _
  allocations := wrap_lt _
  ops := wrap_lt _
  os := by simp only [Book.add]; split; exacts [wrap_lt _, h.os]
  histogram i := by
    simp only [Book.add]
    split
    · rcases eq_or_ne i (c.classIndex charge) with rfl | hi
      · rw [Function.update_self]; exact wrap_lt _
      · rw [Function.update_of_ne hi]; exact h.histogram i
    · exact h.histogram i
  quotaBytes := by simp only [Book.add]; split; exacts [wrap_lt _, h.quotaBytes]
  quotaCount := by simp only [Book.add]; split; exacts [wrap_lt _, h.quotaCount]

end Book

/-! ## One element -/

/-- What single call `k` of a row compares with the peak. A pool without THREAD_SAFE counts
the element twice. -/
def Counters.mark (p : Counters) (charge k : Nat) : Nat :=
  wrap (p.activeBytes + (if p.cfg.threadSafe then k + 1 else k + 2) * charge)

/-- The peak behind `n` elements. -/
def Counters.top (p : Counters) (charge : Nat) : Nat → Nat
  | 0 => p.peakBytes
  | n + 1 => max (p.top charge n) (p.mark charge n)

/-- Nothing at the entry of `mp_alloc` refuses the size. -/
structure Ready (s : State) (w : Who) (size : Nat) : Prop where
  nonzero : size ≠ 0
  charge : (s.pool w).cfg.chargeOf size ≠ 0
  clean : ¬((s.pool w).isDirty = true ∧ (s.pool w).cfg.fallback = false)
  breaker : ¬((s.pool w).cfg.breaker = true ∧ (s.pool w).tripped = true)

/-- What `n` elements of the tier, `e` of the emergency buffer and `o` OOM events
make of a state. -/
structure Outcome (w : Who) (size n e o : Nat) (s s' : State) : Prop where
  cfg : (s'.pool w).cfg = (s.pool w).cfg
  arenas : s'.arenas = s.arenas
  dirty : (s'.pool w).isDirty = (s.pool w).isDirty
  used : (s'.pool w).emergencyUsed = ((s.pool w).emergencyUsed || decide (0 < e))
  peak : (s'.pool w).peakBytes = (s.pool w).top ((s.pool w).cfg.chargeOf size) (n + e)
  book : s'.book w = (s.book w).add (s.pool w).cfg ((s.pool w).cfg.chargeOf size) size n e o

/-- Whether the next element uses up the quota. -/
def State.spent (s : State) (w : Who) (size : Nat) : Bool := (s.accrue w size).2

section One
variable {s s' : State} {w : Who} {size : Nat}

theorem event_eq (p : Counters) (e : Event) :
    p.event e = { p with events := if p.cfg.eventCb then e :: p.events else p.events } := by
  unfold Counters.event
  split <;> rfl

theorem bucket_eq (p : Counters) (size n : Nat) :
    p.bucket size n =
      { p with histogram := if p.cfg.classIndex size < histogramBuckets
                then Function.update p.histogram (p.cfg.classIndex size)
                  (wrap (p.histogram (p.cfg.classIndex size) + n))
                else p.histogram } := by
  unfold Counters.bucket
  simp only
  split <;> rfl

/-- The account of one element that was served. -/
theorem settle_add_book (s : State) (w : Who) (size : Nat) (b : Block) :
    ((s.settle w size).add b).book w =
      { s.book w with
        quotaBytes := if (s.pool w).cfg.breaker then wrap (s.quotaBytes + size) else s.quotaBytes
        quotaCount := if (s.pool w).cfg.breaker then wrap (s.quotaCount + 1) else s.quotaCount
        live := b.entry ::ₘ (s.book w).live } := by
  unfold State.settle State.accrue
  by_cases hb : (s.pool w).cfg.breaker = true
  · simp only [hb, if_true]
    split
    · simp only [State.book, State.add, State.trip, set_self, set_live, List.map_cons]
      rfl
    · rfl
  · simp only [hb]
    rfl

theorem settle_pool (s : State) (w : Who) (size : Nat) (b : Block) :
    ((s.settle w size).add b).pool w =
      { s.pool w with tripped := (s.pool w).tripped || s.spent w size } := by
  unfold State.settle State.spent
  simp only
  have h : (s.accrue w size).1.pool = s.pool := by unfold State.accrue; split <;> rfl
  cases hs : (s.accrue w size).2
  · simp [State.add, h]
  · simp [State.add, State.trip, h]

theorem top_congr {p q : Counters} (hc : q.cfg = p.cfg) (ha : q.activeBytes = p.activeBytes)
    (hp : q.peakBytes = p.peakBytes) (charge n : Nat) : q.top charge n = p.top charge n := by
  induction n with
  | zero => exact hp
  | succ n ih =>
    unfold Counters.top Counters.mark
    rw [ih, hc, ha]

/-- The peak of `n` elements and of `m` behind them. -/
theorem top_add {p q : Counters} {charge n : Nat} (hc : q.cfg = p.cfg)
    (ha : q.activeBytes = wrap (p.activeBytes + n * charge)) (hp : q.peakBytes = p.top charge n)
    (m : Nat) : q.top charge m = p.top charge (n + m) := by
  induction m with
  | zero => exact hp
  | succ m ih =>
    have hm : q.mark charge m = p.mark charge (n + m) := by
      unfold Counters.mark
      rw [hc, ha, wrap_wrap_add, Nat.add_assoc, ← Nat.add_mul]
      congr 3
      split <;> omega
    rw [Counters.top, ← Nat.add_assoc, Counters.top, ih, hm]

theorem charge_peak (p : Counters) (charge : Nat) :
    (p.charge charge).peakBytes = p.top charge 1 := by
  have hcur :
      wrap ((if p.cfg.threadSafe then p.activeBytes else wrap (p.activeBytes + charge)) + charge) =
        p.mark charge 0 := by
    unfold Counters.mark
    cases p.cfg.threadSafe
    · simp only [Bool.false_eq_true, if_false]
      rw [wrap_wrap_add, Nat.add_assoc, Nat.zero_add, Nat.two_mul]
    · simp
  unfold Counters.charge
  simp only [hcur, Counters.top]
  split <;> omega

/-- The rejection of an element. -/
theorem Outcome.oom (hs : (s.book w).Sized) :
    Outcome w size 0 0 1 s (s.set w ((s.pool w).event (.oom ((s.pool w).cfg.chargeOf size)))) := by
  refine ⟨by simp, rfl, by simp [event_eq], by simp [event_eq],
    by simp [event_eq, Counters.top], ?_⟩
  rw [hs.add_ooms]
  simp only [State.book, event_eq, set_self, set_live]
  congr 1
  split <;> rfl

theorem relink_entry (c : Config) (b : Block) (hb : b.requested = c.chargeOf size) :
    (c.relink size b).entry = (b.tier, size) := by
  unfold Config.relink
  unfold Config.chargeOf at hb
  by_cases hc : c.cacheAligned = true
  · simp [hc, Block.entry]
  · simp only [hc] at hb ⊢
    exact Prod.ext rfl hb

/-- The counters of an element of the tier. -/
def Counters.serve (p : Counters) (charge : Nat) : Counters :=
  (((if p.cfg.tierOf charge = .os then
        { p with osAllocatedBytes := wrap (p.osAllocatedBytes + charge) }
      else p).charge charge).bucket charge 1).event (.alloc charge)

theorem serve_eq (p : Counters) (charge : Nat) :
    p.serve charge =
      { p with activeBytes := wrap (p.activeBytes + charge)
               peakBytes := (p.charge charge).peakBytes
               activeAllocations := wrap (p.activeAllocations + 1)
               totalAllocOps := wrap (p.totalAllocOps + 1)
               osAllocatedBytes :=
                 if p.cfg.tierOf charge = .os then wrap (p.osAllocatedBytes + charge)
                else p.osAllocatedBytes
               histogram := (p.bucket charge 1).histogram
               events := if p.cfg.eventCb then .alloc charge :: p.events else p.events } := by
  unfold Counters.serve
  rw [event_eq, bucket_eq, bucket_eq]
  split <;> rfl

theorem Outcome.refl (hs : (s.book w).Sized) : Outcome w size 0 0 0 s s :=
  ⟨rfl, rfl, rfl, by simp, by simp [Counters.top], hs.add_zero.symm⟩

/-- An element of the tier. -/
theorem Outcome.serve (b : Block)
    (hb : b.entry = ((s.pool w).cfg.tierOf ((s.pool w).cfg.chargeOf size), size)) :
    Outcome w size 1 0 0 s
      (((s.set w ((s.pool w).serve ((s.pool w).cfg.chargeOf size))).settle w size).add b) := by
  have hp := settle_pool (s.set w ((s.pool w).serve ((s.pool w).cfg.chargeOf size))) w size b
  rw [set_self] at hp
  refine ⟨by rw [hp, serve_eq], (settle_same ..).arenas, by rw [hp, serve_eq],
    by rw [hp, serve_eq]; simp, ?_, ?_⟩
  · rw [hp, serve_eq]
    exact charge_peak ..
  rw [settle_add_book]
  ext1
  · simp [State.book, Book.add, serve_eq]
  · simp [State.book, Book.add, serve_eq]
  · simp [State.book, Book.add, serve_eq]
  · simp [State.book, Book.add, serve_eq]
  · simp [State.book, Book.add, serve_eq, bucket_eq]
  · simp [Book.add, serve_eq]; rfl
  · simp [Book.add, serve_eq]; rfl
  · simp only [State.book, Book.add, serve_eq, set_self]
    split <;> simp
  · simp [State.book, Book.add, hb]

/-- The element of the emergency buffer, behind its OOM event. -/
theorem Outcome.spare (b : Block)
    (hs : (s.book w).Sized) (hb : b.entry = (.emergency, size)) :
    Outcome w size 0 1 0 s
      (((s.set w
        ({ s.pool w with emergencyUsed := true }.charge ((s.pool w).cfg.chargeOf size))).settle w
          size).add b) := by
  have hp :=
    settle_pool
      (s.set w ({ s.pool w with emergencyUsed := true }.charge ((s.pool w).cfg.chargeOf size))) w
        size b
  rw [set_self] at hp
  refine ⟨by rw [hp]; rfl, (settle_same ..).arenas, by rw [hp]; rfl,
    by rw [hp]; simp [Counters.charge], ?_, ?_⟩
  · rw [hp]
    exact (charge_peak { s.pool w with emergencyUsed := true } _).trans
      (top_congr (p := s.pool w) (q := { s.pool w with emergencyUsed := true }) rfl rfl rfl _ _)
  · rw [settle_add_book]
    ext1
    · simp [State.book, Book.add]
    · simp [State.book, Book.add, Counters.charge]
    · simp [State.book, Book.add, Counters.charge]
    · have := wrap_of_lt hs.os
      simp only [State.book] at this
      simp [State.book, Book.add, Counters.charge, this]
    · have := wrap_of_lt (hs.histogram ((s.pool w).cfg.classIndex ((s.pool w).cfg.chargeOf size)))
      simp only [State.book] at this
      simp [State.book, Book.add, Counters.charge, this]
    · simp [Book.add]; rfl
    · simp [Book.add]; rfl
    · simp [State.book, Book.add, Counters.charge]
    · simp [State.book, Book.add, hb]

theorem Outcome.active {n e o : Nat} (h : Outcome w size n e o s s') :
    (s'.pool w).activeBytes =
      wrap ((s.pool w).activeBytes + (n + e) * (s.pool w).cfg.chargeOf size) :=
  congrArg Book.active h.book

theorem Outcome.trans {s'' : State} {n e o n' e' o' : Nat} (h : Outcome w size n e o s s')
    (h' : Outcome w size n' e' o' s' s'') : Outcome w size (n + n') (e + e') (o + o') s s'' := by
  refine ⟨h'.cfg.trans h.cfg, h'.arenas.trans h.arenas, h'.dirty.trans h.dirty, ?_, ?_, ?_⟩
  · rw [h'.used, h.used, Bool.or_assoc]
    congr 1
    rw [Bool.eq_iff_iff]
    simp only [Bool.or_eq_true, decide_eq_true_eq]
    omega
  · rw [h'.peak, h.cfg, top_add h.cfg h.active h.peak,
      show n + e + (n' + e') = n + n' + (e + e') by omega]
  · rw [h'.book, h.book, h.cfg, Book.add_add]

theorem spent_set {p : Counters} (hc : p.cfg = (s.pool w).cfg) :
    (s.set w p).spent w size = s.spent w size := by
  unfold State.spent State.accrue
  rw [set_self, hc]
  split <;> rfl

/-- The counters behind the check of the limit. -/
def Counters.checked (p : Counters) (charge : Nat) : Counters :=
  if p.exceeds charge then p.event (.oom charge) else p

theorem Outcome.checked (hs : (s.book w).Sized) :
    Outcome w size 0 0 (if (s.pool w).exceeds ((s.pool w).cfg.chargeOf size) then 1 else 0) s
      (s.set w ((s.pool w).checked ((s.pool w).cfg.chargeOf size))) := by
  unfold Counters.checked
  split
  · exact .oom hs
  · have hself : s.set w (s.pool w) = s := by simp [State.set]
    rw [hself]
    exact .refl hs

/-- What the entry and the check of the limit leave of `mp_alloc_internal`. -/
theorem mpAllocInternal_eq (h : Ready s w size) (ans : Option Place) :
    mpAllocInternal s w ((s.pool w).cfg.chargeOf size) ans =
      let p := (s.pool w).checked ((s.pool w).cfg.chargeOf size)
      let c := (s.pool w).cfg
      if (s.pool w).exceeds (c.chargeOf size) = true ∧ c.fallback = false then
        if p.emergencyFits (c.chargeOf size) then
          (s.set w ({ p with emergencyUsed := true }.charge (c.chargeOf size)),
            some ⟨c.emergencyBuf + headerSize, w, .emergency, false, true, c.chargeOf size,
              c.usableOf (c.chargeOf size) .emergency, c.emergencyBuf,
              c.emergencyBuf + c.emergencySize⟩)
        else (s.set w p, none)
      else
        match ans with
        | none => (s.set w p, none)
        | some a =>
          (s.set w (p.serve (c.chargeOf size)),
            some ⟨a.ptr, w, c.tierOf (c.chargeOf size), a.arena, true, c.chargeOf size,
              c.usableOf (c.chargeOf size) (c.tierOf (c.chargeOf size)), a.lo, a.hi⟩) := by
  have hcl := h.clean
  have hbr := h.breaker
  unfold mpAllocInternal
  rw [if_neg (by rintro (h0 | h0 | h0); exacts [h.charge h0, hcl h0, hbr h0])]
  simp only [Counters.checked, Counters.serve]
  by_cases hex : (s.pool w).exceeds ((s.pool w).cfg.chargeOf size) = true
  · simp only [hex, if_true, true_and]
    split
    · rfl
    · cases ans with
      | none => rfl
      | some a => simp only [event_cfg]
  · simp only [hex]
    rfl

variable (h : Ready s s.route size) (hs : (s.book s.route).Sized)
include h hs

end One

/-! ## Single allocations -/

section Each
variable {s s' : State} {w : Who} {size charge count : Nat}

theorem mpAlloc_refused (h : ¬Ready s s.route size) (ans : Option Place) :
    mpAlloc s size ans = (s, none) := by
  by_cases h0 : size = 0
  · unfold mpAlloc
    rw [if_pos h0]
  · rw [mpAlloc_eq h0]
    unfold mpAllocInternal
    rw [if_pos]
    by_contra hno
    simp only [not_or] at hno
    exact h ⟨h0, hno.1, hno.2.1, hno.2.2⟩

/-- What `f` says at a step that is reached. -/
theorem ahead_at {f : Nat → Bool} {n m : Nat} (hm : m ≤ ahead f n) (hn : m < n) :
    f m = decide (ahead f n = m) := by
  induction n generalizing f m with
  | zero => omega
  | succ n ih =>
    unfold ahead at hm ⊢
    cases h0 : f 0 with
    | true =>
      rw [h0, if_pos rfl] at hm
      obtain rfl : m = 0 := by omega
      rw [h0, if_pos rfl]
      rfl
    | false =>
      rw [h0, if_neg Bool.false_ne_true] at hm
      rw [if_neg Bool.false_ne_true]
      cases m with
      | zero => rw [h0, decide_eq_false (by omega)]
      | succ m =>
        rw [ih (f := fun k => f (k + 1)) (by omega) (by omega)]
        exact decide_eq_decide.mpr (by omega)

theorem budget_pos : 0 < s.budget w size count := Nat.succ_pos _

theorem spent_eq : s.spent w size = s.trips w size 0 := by
  unfold State.spent State.accrue State.trips
  cases (s.pool w).cfg.breaker <;> simp

theorem emergencyFits_congr {p q : Counters} (hc : q.cfg = p.cfg)
    (hu : q.emergencyUsed = p.emergencyUsed) (n : Nat) : q.emergencyFits n = p.emergencyFits n := by
  unfold Counters.emergencyFits
  rw [hc, hu]

/-- Another pool with the same counters, as far as they decide who gets an element. -/
structure Like (w : Who) (s s' : State) : Prop where
  cfg : (s'.pool w).cfg = (s.pool w).cfg
  active : (s'.pool w).activeBytes = (s.pool w).activeBytes
  quota : s'.quotaBytes = s.quotaBytes

theorem Like.over (h : Like w s s') : (s'.pool w).over charge = (s.pool w).over charge := by
  funext k
  unfold Counters.over
  rw [h.cfg, h.active]

theorem Like.trips (h : Like w s s') : s'.trips w size = s.trips w size := by
  funext k
  unfold State.trips
  rw [h.cfg, h.quota]

theorem Like.granted (h : Like w s s') (k : Nat) :
    s'.granted w charge size count k = s.granted w charge size count k := by
  unfold State.granted Counters.pass State.budget
  rw [h.cfg, h.over, h.trips]

theorem Like.rejects (h : Like w s s') (k : Nat) :
    s'.rejects w charge size count k = s.rejects w charge size count k := by
  unfold State.rejects Counters.pass State.budget
  rw [h.cfg, h.over, h.trips]

/-- `s'` is the pool an element later. -/
structure Next (w : Who) (charge size : Nat) (s s' : State) : Prop where
  cfg : (s'.pool w).cfg = (s.pool w).cfg
  active : (s'.pool w).activeBytes = wrap ((s.pool w).activeBytes + charge)
  quota :
    s'.quotaBytes = if (s.pool w).cfg.breaker then wrap (s.quotaBytes + size) else s.quotaBytes

theorem Outcome.next {n e o : Nat} (h : Outcome w size n e o s s') (h1 : n + e = 1) :
    Next w ((s.pool w).cfg.chargeOf size) size s s' := by
  refine ⟨h.cfg, by rw [h.active, h1, Nat.one_mul], ?_⟩
  have := congrArg Book.quotaBytes h.book
  simp only [State.book, Book.add, h1, Nat.one_mul] at this
  exact this

theorem Next.over (h : Next w charge size s s') :
    (s'.pool w).over charge = fun k => (s.pool w).over charge (k + 1) := by
  funext k
  unfold Counters.over
  rw [h.cfg, h.active, wrap_wrap_add, Nat.add_assoc, Nat.add_comm charge, ← Nat.succ_mul]

theorem trips_next (hc : (s'.pool w).cfg = (s.pool w).cfg)
    (hq : s'.quotaBytes = if (s.pool w).cfg.breaker then wrap (s.quotaBytes + size)
    else s.quotaBytes) : s'.trips w size = fun k => s.trips w size (k + 1) := by
  funext k
  unfold State.trips
  rw [hc, hq]
  cases (s.pool w).cfg.breaker
  · rfl
  · simp only [if_true]
    rw [wrap_wrap_add, Nat.add_assoc, Nat.add_comm size, ← Nat.succ_mul]

theorem Next.pass (h : Next w charge size s s') (h0 : (s.pool w).over charge 0 = false) :
    (s.pool w).pass charge (count + 1) = (s'.pool w).pass charge count + 1 := by
  unfold Counters.pass
  rw [h.over, ahead, if_neg (by simp [h0])]

theorem Next.budget (h : Next w charge size s s') (h0 : s.spent w size = false) :
    s.budget w size (count + 1) = s'.budget w size count + 1 := by
  unfold State.budget
  rw [trips_next h.cfg h.quota, ahead, ← spent_eq, if_neg (by simp [h0])]

theorem Next.overs (h : Next w charge size s s') (n : Nat) :
    (s.pool w).overs charge (n + 1) = ((s.pool w).over charge 0).toNat +
      (s'.pool w).overs charge n := by
  unfold Counters.overs
  rw [h.over, List.range_succ_eq_map, List.countP_cons, List.countP_map, Nat.add_comm]
  congr 1
  cases (s.pool w).over charge 0 <;> rfl

/-- An element later, and `i` more. -/
theorem Next.later (h : Next w charge size s s') (i : Nat) :
    Like w (s'.later w charge size i) (s.later w charge size (i + 1)) := by
  refine ⟨?_, ?_, ?_⟩
  · simp only [State.later, Function.update_self, h.cfg]
  · simp only [State.later, Function.update_self, h.active]
    rw [wrap_wrap_add, Nat.add_assoc, Nat.succ_mul, Nat.add_comm (i * charge)]
  · simp only [State.later, h.cfg, h.quota]
    cases (s.pool w).cfg.breaker
    · rfl
    · simp only [if_true]
      rw [wrap_wrap_add, Nat.add_assoc, Nat.succ_mul, Nat.add_comm (i * size)]

@[simp] theorem supply_nil : supply [] = 0 := rfl
@[simp] theorem supply_none (as : List (Option Place)) : supply (none :: as) = 0 := rfl
@[simp] theorem supply_some (a : Place) (as : List (Option Place)) :
    supply (some a :: as) = supply as + 1 := rfl

theorem rejects_iff (k : Nat) : s.rejects w charge size count k = true ↔
    (s.pool w).cfg.fallback = false ∧ (s.pool w).pass charge count < count ∧
    (s.pool w).pass charge count ≤ k ∧
      (s.pool w).pass charge count < s.budget w size count := by
  simp [State.rejects, and_assoc]

/-- Without a rejection there is neither an emergency element nor anything behind it. -/
theorem behind_of_rejects {as : List (Option Place)}
    (h : s.rejects w charge size count (supply as) = false) :
    s.spare w charge size count (supply as) = false ∧
    s.behind w charge size count as = (0, false) := by
  have hsp : s.spare w charge size count (supply as) = false := by
    unfold State.spare
    rw [h, Bool.false_and]
  refine ⟨hsp, ?_⟩
  unfold State.behind State.goesOn
  rw [hsp]
  rfl

section Numbers
variable {a : Place} {as : List (Option Place)}

/-- The numbers of a run whose first element comes from the tier, and leaves the breaker. -/
theorem Next.served (a : Place) (as : List (Option Place)) (count : Nat)
    (h : Next w charge size s s') (hsp : s.spent w size = false)
    (hu : (s'.pool w).emergencyUsed = (s.pool w).emergencyUsed)
    (hex : ¬((s.pool w).over charge 0 = true ∧ (s.pool w).cfg.fallback = false)) :
    s.served w charge size (count + 1) (some a :: as) = s'.served w charge size count as + 1 ∧
      s.spare w charge size (count + 1) (supply (some a :: as)) =
        s'.spare w charge size count (supply as) ∧
      s.ooms w charge size (count + 1) (some a :: as) =
        (if (s.pool w).over charge 0 then 1 else 0) + s'.ooms w charge size count as := by
  have hb : s.budget w size (count + 1) = s'.budget w size count + 1 := h.budget hsp
  have hem := emergencyFits_congr (q := s'.pool w) (p := s.pool w) h.cfg hu charge
  cases hfb : (s.pool w).cfg.fallback with
  | true =>
    -- every element is attempted
    have hr : ∀ n k, s.rejects w charge size n k = false := fun n k => by simp [State.rejects, hfb]
    have hr' : ∀ n k, s'.rejects w charge size n k = false :=
      fun n k => by simp [State.rejects, h.cfg, hfb]
    obtain ⟨h1, h2⟩ := behind_of_rejects (hr (count + 1) (supply (some a :: as)))
    obtain ⟨h3, h4⟩ := behind_of_rejects (hr' count (supply as))
    refine ⟨?_, h1.trans h3.symm, ?_⟩
    · unfold State.served State.granted
      rw [h2, h4, h.cfg, if_pos hfb, if_pos hfb, hb, supply_some]
      omega
    · unfold State.ooms
      rw [h.cfg, if_pos hfb, if_pos hfb, hb, supply_some, Nat.add_min_add_right,
        Nat.add_min_add_right, h.overs]
      cases (s.pool w).over charge 0 <;> rfl
  | false =>
    have h0 : (s.pool w).over charge 0 = false := Bool.eq_false_iff.mpr fun h0 => hex ⟨h0, hfb⟩
    have hno : ¬(s.pool w).cfg.fallback = true := by simp [hfb]
    have hp : (s.pool w).pass charge (count + 1) = (s'.pool w).pass charge count + 1 := h.pass h0
    have hr : s.rejects w charge size (count + 1) (supply (some a :: as)) =
        s'.rejects w charge size count (supply as) := by
      rw [Bool.eq_iff_iff, rejects_iff, rejects_iff, hp, hb, supply_some, h.cfg]
      refine and_congr_right fun _ => ?_
      omega
    have hsr : s.spare w charge size (count + 1) (supply (some a :: as)) =
        s'.spare w charge size count (supply as) := by
      unfold State.spare
      rw [hr, hem]
    have hgo : s.goesOn w charge size (count + 1) (supply (some a :: as)) =
        s'.goesOn w charge size count (supply as) := by
      unfold State.goesOn
      rw [hsr, hp, hb]
      congr 1
      exact decide_eq_decide.mpr (by omega)
    have hbe :
      s.behind w charge size (count + 1) (some a :: as) = s'.behind w charge size count as := by
      unfold State.behind
      simp only
      rw [hgo, hp, (h.later _).granted, (h.later _).rejects, List.drop_succ_cons,
        Nat.add_sub_add_right]
    refine ⟨?_, hsr, ?_⟩
    · unfold State.served State.granted
      rw [hbe, h.cfg, if_neg hno, if_neg hno, hp, hb, supply_some]
      omega
    · unfold State.ooms
      rw [hbe, hr, h.cfg, if_neg hno, if_neg hno, h0, if_neg Bool.false_ne_true, Nat.zero_add]

end Numbers

/-- What single allocations come to. -/
structure Singles (w : Who) (size count : Nat) (as : List (Option Place)) (s : State)
    (r : State × List Nat) : Prop where
  outcome : Outcome w size (s.served w ((s.pool w).cfg.chargeOf size) size count as)
    (s.spare w ((s.pool w).cfg.chargeOf size) size count (supply as)).toNat
    (s.ooms w ((s.pool w).cfg.chargeOf size) size count as) s r.1
  length : r.2.length = s.served w ((s.pool w).cfg.chargeOf size) size count as +
    (s.spare w ((s.pool w).cfg.chargeOf size) size count (supply as)).toNat
  tripped : (r.1.pool w).tripped = ((s.pool w).tripped || decide (s.budget w size count ≤
    s.served w ((s.pool w).cfg.chargeOf size) size count as +
      (s.spare w ((s.pool w).cfg.chargeOf size) size count (supply as)).toNat))

theorem Singles.of_numbers {as : List (Option Place)} {n e o : Nat} {r : State × List Nat}
    (h : Outcome w size n e o s r.1)
    (hn : s.served w ((s.pool w).cfg.chargeOf size) size count as = n)
    (he : (s.spare w ((s.pool w).cfg.chargeOf size) size count (supply as)).toNat = e)
    (ho : s.ooms w ((s.pool w).cfg.chargeOf size) size count as = o) (hl : r.2.length = n + e)
    (ht : (r.1.pool w).tripped = ((s.pool w).tripped || decide (s.budget w size count ≤ n + e))) :
    Singles w size count as s r := by
  subst hn he ho
  exact ⟨h, hl, ht⟩

theorem Outcome.route {n e o : Nat} (h : Outcome w size n e o s s') : s'.route = s.route := by
  unfold State.route
  rw [h.arenas]

theorem Outcome.ready {n e o : Nat} (h : Outcome w size n e o s s') (hr : Ready s w size)
    (ht : (s'.pool w).tripped = (s.pool w).tripped) : Ready s' w size :=
  ⟨hr.nonzero, by rw [h.cfg]; exact hr.charge, by rw [h.dirty, h.cfg]; exact hr.clean,
    by rw [h.cfg, ht]; exact hr.breaker⟩

section Singles
variable {as : List (Option Place)} {a : Place} {o ptr : Nat} {r : State × List Nat}

/-- No call at all. -/
theorem Singles.nil (hs : (s.book w).Sized) : Singles w size 0 as s (s, []) := by
  have hp : ∀ p : Counters, p.pass ((s.pool w).cfg.chargeOf size) 0 = 0 := fun p => rfl
  have hr : s.rejects w ((s.pool w).cfg.chargeOf size) size 0 (supply as) = false := by
    rw [Bool.eq_false_iff]
    intro hr
    exact absurd ((rejects_iff _).mp hr).2.1 (Nat.not_lt_zero _)
  obtain ⟨h1, h2⟩ := behind_of_rejects hr
  refine .of_numbers (Outcome.refl hs) ?_ (by rw [h1]; rfl) ?_ rfl ?_
  · unfold State.served State.granted
    rw [h2, hp]
    split <;> simp
  · unfold State.ooms
    rw [hr, h2]
    split
    · simp [Counters.overs]
    · rfl
  · have hpos : 0 < s.budget w size 0 := budget_pos
    rw [decide_eq_false (by omega), Bool.or_false]

/-- The first call ends the run, without an element. -/
theorem Singles.fail (hout : Outcome w size 0 0 o s s')
    (ht : (s'.pool w).tripped = (s.pool w).tripped)
    (hn : s.served w ((s.pool w).cfg.chargeOf size) size count as = 0)
    (he : s.spare w ((s.pool w).cfg.chargeOf size) size count (supply as) = false)
    (ho : s.ooms w ((s.pool w).cfg.chargeOf size) size count as = o) :
    Singles w size count as s (s', []) := by
  refine .of_numbers hout hn (by rw [he]; rfl) ho rfl ?_
  have hpos : 0 < s.budget w size count := budget_pos
  rw [ht, decide_eq_false (by omega), Bool.or_false]

/-- Behind an element of the tier, which leaves the breaker. -/
theorem Singles.cons
    (hout : Outcome w size 1 0
    (if (s.pool w).over ((s.pool w).cfg.chargeOf size) 0 then 1 else 0) s s')
    (ht : (s'.pool w).tripped = (s.pool w).tripped)
    (hex : ¬((s.pool w).over ((s.pool w).cfg.chargeOf size) 0 = true ∧
    (s.pool w).cfg.fallback = false))
    (hsp : s.spent w size = false) (hr : Singles w size count as s' r) :
    Singles w size (count + 1) (some a :: as) s (r.1, ptr :: r.2) := by
  have hnext := hout.next rfl
  obtain ⟨hsout, hslen, hstr⟩ := hr
  rw [hout.cfg] at hsout hslen hstr
  obtain ⟨h1, h2, h3⟩ := hnext.served a as count hsp (by rw [hout.used]; simp) hex
  refine .of_numbers (hout.trans hsout) (by rw [h1, Nat.add_comm])
    (by rw [h2, Nat.zero_add]) h3 ?_ ?_
  · rw [List.length_cons, hslen]
    omega
  · rw [hstr, ht, hnext.budget hsp]
    congr 1
    exact decide_eq_decide.mpr (by omega)

end Singles

end Each

end Cmem.L3.Pool

import Cmem.L2Tlsf.Pool
import Cmem.L3Pool.Book

/-!
# The byte counters of the tiers

`tlsf_allocated_bytes` beside the pool of `Cmem.L3Pool.Model`, which has
`os_allocated_bytes`. Whoever builds the header of a TLSF block adds its
`usable_size` (src/src/cmem_alloc.c:317 and 357, src/src/cmem_tlsf.c:474); `mp_free`
subtracts it for a private arena, `tlsf_free` for a shared one. A block that
`mp_free` puts in the cache of the thread is subtracted by nobody. An OS block is
added with the size that was asked of the system, which stays its `usable_size`, and
subtracted with its `requested_size`. `mp_realloc` books a growth in place on the
pool it is given, and stores the canary of a resize in place at `ptr + new_size`, also where
that is the header of the next block. So the counters are exact as long as none of this
makes a difference (`counters_exact`).
-/
namespace Cmem.L3.Pool

structure Tiers where
  pool : State
  /-- `tlsf_allocated_bytes` -/
  tlsf : Who → Nat
  /-- `tls_cache.owner_pool` and `tls_cache.tlsf_counts` -/
  owner : Option Who
  counts : Nat → Nat

namespace Tiers

/-! ## Allocation -/

/-- The `usable_size`s of the blocks of a tier in a pool. -/
def amount (τ : Tier) (w : Who) (bs : List Block) : Nat :=
  ((bs.filter fun b => b.tier = τ ∧ b.owner = w).map Block.usable).sum

/-- mirrors `tls_cache_validate_owner`, src/src/cmem_slab.c:520-551, for the cached TLSF
blocks -/
def validate (t : Tiers) (w : Who) : Tiers :=
  if t.owner = some w then t else { t with owner := some w, counts := fun _ => 0 }

/-- `mp_alloc_internal` gets to a tier. -/
def reaches (s : State) (w : Who) (size : Nat) : Bool :=
  !(size = 0 || (s.pool w).isDirty && !(s.pool w).cfg.fallback || (s.pool w).cfg.breaker &&
    (s.pool w).tripped) &&
    !((s.pool w).exceeds size && !(s.pool w).cfg.fallback)

/-- What a tier makes of the cache: a TLSF allocation takes a block out of its bucket, be it
to hand it out or to put it back in its arena, src/src/cmem_alloc.c:262-292. -/
def touch (t : Tiers) (w : Who) (size : Nat) (single : Bool) : Tiers :=
  match (t.pool.pool w).cfg.tierOf size with
  | .slab => t.validate w
  | .tlsf =>
    let t := t.validate w
    match L2.SharedTlsf.cacheIdx ((t.pool.pool w).cfg.tlsfTotal size) with
    | some i =>
      if single then { t with counts := Function.update t.counts i (t.counts i - 1) } else t
    | none => t
  | .os | .emergency => t

/-- The blocks in front of the live ones of `s` are new: their headers are built, and each
TLSF block is added to the counter of its pool. -/
def enter (t : Tiers) (s' : State) : Tiers :=
  let new := s'.live.take (s'.live.length - t.pool.live.length)
  { t with pool := s', tlsf := fun w => wrap (t.tlsf w + amount .tlsf w new) }

def alloc (t : Tiers) (size : Nat) (ans : Option Place) : Tiers :=
  let w := t.pool.route
  let charge := (t.pool.pool w).cfg.chargeOf size
  let t' := if size ≠ 0 ∧ reaches t.pool w charge = true then t.touch w charge true else t
  t'.enter (mpAlloc t.pool size ans).1

def alignedAlloc (t : Tiers) (alignment size : Nat) (ans : Option Place) : Tiers :=
  let total := wrap (size + alignment + headerSize + (t.pool.pool .master).cfg.canaryLen)
  let t' := if isPow2 alignment = true ∧ 8 ≤ alignment ∧ reaches t.pool .master total = true
    then t.touch .master total true else t
  t'.enter (mpAlignedAlloc t.pool .master alignment size ans).1

def allocBatch (t : Tiers) (size count : Nat) (as : List (Option Place)) : Tiers :=
  let w := t.pool.route
  let charge := (t.pool.pool w).cfg.chargeOf size
  let t' :=
    if count ≠ 0 ∧ size ≠ 0 ∧ reaches t.pool w charge = true then t.touch w charge false else t
  t'.enter (mpAllocBatch t.pool size count as).1

/-! ## Release -/

def lower (t : Tiers) (w : Who) (n : Nat) : Tiers :=
  { t with tlsf := Function.update t.tlsf w (wrap (t.tlsf w + (2 ^ 64 - n))) }

/-- What `mp_free` does with the memory of a block, src/src/cmem_alloc.c:1227-1400. -/
def returned (t : Tiers) (b : Block) : Tiers :=
  match b.tier with
  | .slab => t.validate b.owner
  | .tlsf =>
    let t := t.validate b.owner
    if b.arena then t.lower b.owner b.usable
    else
      match L2.SharedTlsf.cacheIdx (wrap (b.usable + (32 + headerSize))) with
      | some i =>
        -- into the cache of the thread; tlsf_free, which would subtract, is not called
        if t.counts i < L2.SharedTlsf.cacheMaxSlots then
          { t with counts := Function.update t.counts i (t.counts i + 1) }
        else t.lower b.owner b.usable
      | none => t.lower b.owner b.usable
  | .os | .emergency => t

def release (t : Tiers) (b : Block) (intact : Bool) : Tiers :=
  { t.returned b with pool := t.pool.release b intact }

def free (t : Tiers) (ptr : Nat) (intact : Bool) : Tiers :=
  if ptr = 0 then t
  else
    match t.pool.find ptr with
    | none => t
    | some b => t.release b intact

def flush (t : Tiers) (hdrs : List Block) : Tiers :=
  { (if hdrs = [] then t else t.validate .master) with pool := flushSlabBlock t.pool hdrs }

def freeBatch : List (Nat × Bool) → List Block → Tiers → Tiers
  | [], hdrs, t => t.flush hdrs
  | (ptr, intact) :: ptrs, hdrs, t =>
    if ptr = 0 then freeBatch ptrs hdrs t
    else
      match t.pool.find ptr with
      | none => freeBatch ptrs hdrs t
      | some b =>
        if b.batchable then
          if hdrs.length + 1 = 256 then freeBatch ptrs [] (t.flush (hdrs ++ [b]))
          else freeBatch ptrs (hdrs ++ [b]) t
        else freeBatch ptrs hdrs (t.release b intact)

/-! ## Resizing -/

/-- A growth in place: an arena books it on its pool, src/src/cmem_alloc.c:1519-1527, and
`tlsf_try_inplace_expand` on the pool `mp_realloc` is given, src/src/cmem_tlsf.c:624-625. -/
def grown (t : Tiers) (b : Block) (usable : Nat) : Tiers :=
  let w := if b.arena then b.owner else .master
  { t with
    tlsf := Function.update t.tlsf w (wrap (t.tlsf w + wrap (usable + (2 ^ 64 - b.usable)))) }

/-- `mp_realloc` gives the cached TLSF blocks back before it looks for room behind a block,
src/src/cmem_alloc.c:1441-1458. -/
def uncache (t : Tiers) : Tiers := { t.validate .master with counts := fun _ => 0 }

def realloc (t : Tiers) (ptr newSize : Nat) (grow : Option Grown) (ans : Option Place)
    (intact : Bool) : Tiers :=
  let s' := (mpRealloc t.pool ptr newSize grow ans intact).1
  if ptr = 0 then t.alloc newSize ans
  else if newSize = 0 then t.free ptr intact
  else
    match t.pool.find ptr with
    | none => t
    | some b =>
      if newSize ≤ b.usable then { t with pool := s' }
      else
        let t := if b.tier = .tlsf then t.uncache else t
        match (if b.tier = .tlsf then grow else none) with
        | some g => { t.grown b g.usable with pool := s' }
        | none =>
          if (mpAlloc t.pool newSize ans).2 = none then t.alloc newSize ans
          else (t.alloc newSize ans).release b intact

def next (t : Tiers) : Act → Tiers
  | .alloc size ans => t.alloc size ans
  | .alignedAlloc alignment size ans => t.alignedAlloc alignment size ans
  | .allocBatch size count as => t.allocBatch size count as
  | .realloc ptr newSize grow ans intact => t.realloc ptr newSize grow ans intact
  | .free ptr intact => t.free ptr intact
  | .freeBatch ptrs => freeBatch ptrs [] t

def start (c : Config) (arenas : Bool) (quotaBytes quotaCount : Nat) : Tiers :=
  ⟨.init c arenas quotaBytes quotaCount, fun _ => 0, none, fun _ => 0⟩

def system (c : Config) (arenas : Bool) : LTS Tiers Act :=
  .det (fun t => ∃ q n, t = start c arenas q n) (fun t l => t.pool.pre l) next

/-- **The counters are exact**: each is the sum over the live blocks of its tier, a number
that a `size_t` holds; without live blocks it is 0. -/
structure Exact (t : Tiers) : Prop where
  tlsf : ∀ w, t.tlsf w = amount .tlsf w t.pool.live ∧ t.tlsf w < 2 ^ 64
  os : ∀ w, (t.pool.pool w).osAllocatedBytes = amount .os w t.pool.live ∧
    (t.pool.pool w).osAllocatedBytes < 2 ^ 64
  idle : t.pool.live = [] → ∀ w, t.tlsf w = 0 ∧ (t.pool.pool w).osAllocatedBytes = 0

/-! ## Which steps keep them exact -/

/-- What `n` blocks of a size add stays below `2 ^ 64`. -/
def Room (t : Tiers) (w : Who) (charge n : Nat) : Prop :=
  ((t.pool.pool w).cfg.tierOf charge = .tlsf →
      t.tlsf w + n * (t.pool.pool w).cfg.usableOf charge .tlsf < 2 ^ 64) ∧
    ((t.pool.pool w).cfg.tierOf charge = .os →
      (t.pool.pool w).osAllocatedBytes + n * charge < 2 ^ 64)

/-- The block is subtracted as it was added: it is too large for the cache of the thread, or in
an arena, and an OS block has the size that was asked of the system. -/
def Returns (b : Block) : Prop :=
  (b.tier = .tlsf →
    b.arena = true ∨ L2.SharedTlsf.cacheIdx (wrap (b.usable + (32 + headerSize))) = none) ∧
    (b.tier = .os → b.requested = b.usable)

def RoomFor (t : Tiers) (size count : Nat) (as : List (Option Place)) : Prop :=
  Room t t.pool.route ((t.pool.pool t.pool.route).cfg.chargeOf size) (min count (supply as))

/-- A block that is too small grows in place, through its own pool and with a byte for the
canary, or moves. -/
def Enlarges (t : Tiers) (b : Block) (newSize : Nat) (ans : Option Place) : Option Grown → Prop
  | some g => (b.arena = true ∨ b.owner = .master) ∧ t.tlsf b.owner - b.usable + g.usable < 2 ^ 64 ∧
      b.Inside (t.pool.pool .master).cfg newSize g.hi
  | none => RoomFor t newSize 1 [ans] ∧ Returns b

/-- The size of a step does not wrap. -/
def Unwrapped (t : Tiers) : Act → Prop
  | .alloc size _ | .allocBatch size _ _ | .realloc _ size _ _ _ =>
    (t.pool.pool .master).cfg.Whole size (t.pool.pool .master).cfg.slack
  | .alignedAlloc alignment size _ =>
    (t.pool.pool .master).cfg.Whole size
      (alignment + headerSize + (t.pool.pool .master).cfg.canaryLen)
  | .free .. | .freeBatch _ => True

/-- A resize in place keeps to the memory of its block: the canary is stored behind the new
size, which for a TLSF block of its last byte and for an aligned block is the header of the
next one. -/
def Sound (t : Tiers) : Act → Prop
  | .alloc size ans => RoomFor t size 1 [ans]
  | .alignedAlloc alignment size ans =>
    Room t .master (wrap (size + alignment + headerSize + (t.pool.pool .master).cfg.canaryLen))
      (supply [ans])
  | .allocBatch size count as => RoomFor t size count as
  | .realloc ptr newSize grow ans _ =>
    if ptr = 0 then RoomFor t newSize 1 [ans]
    else ∀ b ∈ t.pool.live, b.ptr = ptr →
      if newSize = 0 then Returns b
      else (newSize ≤ b.usable → b.Inside (t.pool.pool .master).cfg newSize b.hi) ∧
        (b.usable < newSize → Enlarges t b newSize ans (if b.tier = .tlsf then grow else none))
  | .free ptr _ => ∀ b ∈ t.pool.live, b.ptr = ptr → Returns b
  | .freeBatch ptrs => ∀ q ∈ ptrs, ∀ b ∈ t.pool.live, b.ptr = q.1 → Returns b

/-! ## What an allocation adds -/

section Amount
variable {τ : Tier} {w : Who} {bs cs : List Block} {b : Block}

@[simp] theorem amount_nil : amount τ w [] = 0 := rfl

@[simp] theorem amount_append : amount τ w (bs ++ cs) = amount τ w bs + amount τ w cs := by
  simp [amount]

theorem amount_cons :
    amount τ w (b :: bs) = (if b.tier = τ ∧ b.owner = w then b.usable else 0) + amount τ w bs := by
  unfold amount
  rw [List.filter_cons]
  split <;> simp_all

theorem amount_perm (h : bs.Perm cs) : amount τ w bs = amount τ w cs := ((h.filter _).map _).sum_eq

theorem amount_erase (hb : b ∈ bs) :
    amount τ w bs = (if b.tier = τ ∧ b.owner = w then b.usable else 0) + amount τ w (bs.erase b) :=
  (amount_perm (List.perm_cons_erase hb)).trans amount_cons

theorem amount_erase_ne (h : b.tier ≠ τ) : amount τ w (bs.erase b) = amount τ w bs := by
  by_cases hb : b ∈ bs
  · rw [amount_erase hb, if_neg fun e => h e.1, Nat.zero_add]
  · rw [List.erase_of_not_mem hb]

/-- Blocks of another tier or pool add nothing. -/
theorem amount_eq_zero (h : ∀ b ∈ bs, b.tier = τ → b.owner ≠ w) : amount τ w bs = 0 := by
  induction bs with
  | nil => rfl
  | cons b bs ih =>
    rw [amount_cons, ih fun c hc => h c (List.mem_cons_of_mem _ hc),
      if_neg fun e => h b List.mem_cons_self e.1 e.2]

/-- Blocks that are alike. -/
theorem amount_le {u n : Nat} (h : ∀ b ∈ bs, b.tier = τ → b.usable = u)
    (hn : (bs.filter fun b => b.tier ≠ .emergency).length ≤ n) (hτ : τ ≠ .emergency) :
    amount τ w bs ≤ n * u := by
  refine Nat.le_trans ?_ (Nat.mul_le_mul_right u hn)
  clear hn
  induction bs with
  | nil => exact Nat.zero_le _
  | cons b bs ih =>
    have ih := ih fun c hc => h c (List.mem_cons_of_mem _ hc)
    rw [amount_cons]
    by_cases hb : b.tier = τ
    · rw [List.filter_cons_of_pos (by simpa [hb] using hτ), List.length_cons, Nat.succ_mul]
      have := h b List.mem_cons_self hb
      split <;> omega
    · rw [if_neg fun e => hb e.1, Nat.zero_add, List.filter_cons]
      split
      · rw [List.length_cons, Nat.succ_mul]
        omega
      · exact ih

end Amount

/-- Pool `w` adds at most `n` blocks of its tier for `charge`, and books those of the OS
tier. -/
structure Adds (s s' : State) (w : Who) (charge n : Nat) (bs : List Block) : Prop where
  live : s'.live = bs ++ s.live
  owner : ∀ b ∈ bs, b.owner = w
  tier : ∀ b ∈ bs, b.tier ≠ .emergency →
    b.tier = (s.pool w).cfg.tierOf charge ∧ b.usable = (s.pool w).cfg.usableOf charge b.tier
  length : (bs.filter fun b => b.tier ≠ .emergency).length ≤ n
  os : ∀ v, (s.pool v).osAllocatedBytes < 2 ^ 64 →
    (s'.pool v).osAllocatedBytes = wrap ((s.pool v).osAllocatedBytes + amount .os v bs)

section Run
variable {t t' : Tiers} {s s' s'' : State} {w : Who} {charge n : Nat} {bs : List Block} {b : Block}

theorem wrap_lt (n : Nat) : wrap n < 2 ^ 64 := Nat.mod_lt _ (by decide)

theorem Exact.of (h1 : ∀ w, t.tlsf w = amount .tlsf w t.pool.live ∧ t.tlsf w < 2 ^ 64)
    (h2 : ∀ w, (t.pool.pool w).osAllocatedBytes = amount .os w t.pool.live ∧
      (t.pool.pool w).osAllocatedBytes < 2 ^ 64) : Exact t := by
  refine ⟨h1, h2, fun h0 w => ⟨?_, ?_⟩⟩
  · rw [(h1 w).1, h0]
    rfl
  · rw [(h2 w).1, h0]
    rfl

theorem Adds.tlsf_lt (ha : Adds t.pool s' w charge n bs) (h : Exact t) (hr : Room t w charge n)
    (v : Who) : t.tlsf v + amount .tlsf v bs < 2 ^ 64 := by
  by_cases e : v = w ∧ (t.pool.pool w).cfg.tierOf charge = .tlsf
  · obtain ⟨rfl, ht⟩ := e
    have hle : amount .tlsf v bs ≤ n * (t.pool.pool v).cfg.usableOf charge .tlsf :=
      amount_le (fun b hb hbt => hbt ▸ (ha.tier b hb (by rw [hbt]; decide)).2) ha.length (by decide)
    have := hr.1 ht
    omega
  · have h0 : amount .tlsf v bs = 0 := amount_eq_zero fun b hb hbt ho =>
      e ⟨ho.symm.trans (ha.owner b hb), ((ha.tier b hb (by rw [hbt]; decide)).1.symm.trans hbt)⟩
    have := (h.tlsf v).2
    omega

theorem Adds.os_lt (ha : Adds t.pool s' w charge n bs) (h : Exact t) (hr : Room t w charge n)
    (v : Who) : (t.pool.pool v).osAllocatedBytes + amount .os v bs < 2 ^ 64 := by
  by_cases e : v = w ∧ (t.pool.pool w).cfg.tierOf charge = .os
  · obtain ⟨rfl, ht⟩ := e
    have hle : amount .os v bs ≤ n * charge :=
      amount_le
        (fun b hb hbt => (ha.tier b hb (by rw [hbt]; decide)).2.trans (by rw [hbt]; rfl)) ha.length
        (by decide)
    have := hr.2 ht
    omega
  · have h0 : amount .os v bs = 0 := amount_eq_zero fun b hb hbt ho =>
      e ⟨ho.symm.trans (ha.owner b hb), ((ha.tier b hb (by rw [hbt]; decide)).1.symm.trans hbt)⟩
    have := (h.os v).2
    omega

/-- **An allocation** keeps the counters exact when there is room for it. -/
theorem Exact.enter (h : Exact t) (ha : Adds t.pool s' w charge n bs) (hr : Room t w charge n)
    (hp : t'.pool = t.pool) (ht : t'.tlsf = t.tlsf) : Exact (t'.enter s') := by
  have hnew : s'.live.take (s'.live.length - t'.pool.live.length) = bs := by
    rw [hp, ha.live, List.length_append, Nat.add_sub_cancel, List.take_left']
    rfl
  refine .of (fun v => ?_) fun v => ?_
  · have hlt := ha.tlsf_lt h hr v
    have hval : (t'.enter s').tlsf v = t.tlsf v + amount .tlsf v bs := by
      show wrap (t'.tlsf v + amount .tlsf v (s'.live.take _)) = _
      rw [hnew, ht, wrap, Nat.mod_eq_of_lt hlt]
    refine ⟨?_, hval ▸ hlt⟩
    show _ = amount .tlsf v s'.live
    rw [hval, ha.live, amount_append, (h.tlsf v).1, Nat.add_comm]
  · have hlt := ha.os_lt h hr v
    show (s'.pool v).osAllocatedBytes = amount .os v s'.live ∧ (s'.pool v).osAllocatedBytes < 2 ^ 64
    rw [ha.os v (h.os v).2, wrap, Nat.mod_eq_of_lt hlt]
    refine ⟨?_, hlt⟩
    rw [ha.live, amount_append, (h.os v).1, Nat.add_comm]

/-! ## The allocation functions -/

/-- The part of a pool that `Adds` is about. -/
def part (p : Counters) : Config × Nat := (p.cfg, p.osAllocatedBytes)

theorem event_os (p : Counters) (e : Event) :
    (p.event e).osAllocatedBytes = p.osAllocatedBytes := by
  unfold Counters.event
  split <;> rfl

theorem blind_part : Blind part :=
  ⟨fun p e => Prod.ext (event_cfg p e) (event_os p e), fun _ => rfl⟩

theorem Adds.keeps (ha : Adds s s' w charge n bs) (h : Keeps part s' s'') :
    Adds s s'' w charge n bs :=
  ⟨h.live.trans ha.live, ha.owner, ha.tier, ha.length, fun v hv =>
    (congrArg Prod.snd (h.part v)).trans (ha.os v hv)⟩

theorem adds_of_keeps (h : Keeps part s s') : Adds s s' w charge n [] :=
  ⟨h.live, nofun, nofun, Nat.zero_le _, fun v hv => by
    rw [amount_nil, Nat.add_zero, wrap, Nat.mod_eq_of_lt hv]
    exact congrArg Prod.snd (h.part v)⟩

/-- One block, which is live now; its pointer and requested size may have changed since. -/
structure Alike (b b' : Block) : Prop where
  tier : b'.tier = b.tier
  owner : b'.owner = b.owner
  usable : b'.usable = b.usable

theorem adds_one {p : Counters} (h : Keeps part (s.set w p) s') (hb : b.owner = w)
    (ht : b.tier ≠ .emergency → b.tier = (s.pool w).cfg.tierOf charge ∧
      b.usable = (s.pool w).cfg.usableOf charge b.tier ∧ 1 ≤ n)
    (hos : p.osAllocatedBytes = if b.tier = .os then wrap ((s.pool w).osAllocatedBytes + b.usable)
      else (s.pool w).osAllocatedBytes) : Adds s (s'.add b) w charge n [b] := by
  refine ⟨congrArg (b :: ·) h.live, fun c hc => ?_, fun c hc => ?_, ?_, fun v hv => ?_⟩
  · rw [List.mem_singleton.1 hc]
    exact hb
  · rw [List.mem_singleton.1 hc]
    exact fun hne => ⟨(ht hne).1, (ht hne).2.1⟩
  · by_cases he : b.tier = .emergency
    · simp [he]
    · simpa [he] using (ht he).2.2
  · have hp : (s'.pool v).osAllocatedBytes = ((s.set w p).pool v).osAllocatedBytes :=
      congrArg Prod.snd (h.part v)
    show (s'.pool v).osAllocatedBytes = _
    rw [hp, amount_cons, amount_nil, Nat.add_zero]
    by_cases e : v = w
    · subst e
      rw [set_self, hos]
      by_cases he : b.tier = .os
      · rw [if_pos he, if_pos ⟨he, hb⟩]
      · rw [if_neg he, if_neg fun h => he h.1, Nat.add_zero, wrap, Nat.mod_eq_of_lt hv]
    · rw [set_ne _ _ e, if_neg fun h => e (h.2.symm.trans hb), Nat.add_zero, wrap,
        Nat.mod_eq_of_lt hv]

theorem mpAllocInternal_adds (s : State) (w : Who) (size : Nat) (ans : Option Place) :
    ((mpAllocInternal s w size ans).2 = none ∧ Keeps part s (mpAllocInternal s w size ans).1) ∨
      ∃ b, (mpAllocInternal s w size ans).2 = some b ∧
      ∀ s' b', Keeps part (mpAllocInternal s w size ans).1 s' →
        Alike b b' → Adds s (s'.add b') w size (supply [ans]) [b'] := by
  unfold mpAllocInternal
  simp only
  split
  · exact .inl ⟨rfl, .refl s⟩
  · split
    · split
      · refine .inr
          ⟨_, rfl, fun s' b' hk ha => adds_one hk ha.owner (fun hne => absurd ha.tier hne) ?_⟩
        rw [if_neg (by rw [ha.tier]; exact nofun)]
        exact event_os _ _
      · exact .inl ⟨rfl, .set (blind_part.event _ _)⟩
    · have hp : part (if (s.pool w).exceeds size then (s.pool w).event (.oom size) else s.pool w) =
          part (s.pool w) := by
        split
        · exact blind_part.event _ _
        · rfl
      generalize (if (s.pool w).exceeds size then (s.pool w).event (.oom size) else s.pool w) = p
        at hp
      have hos : p.osAllocatedBytes = (s.pool w).osAllocatedBytes := congrArg Prod.snd hp
      cases ans with
      | none => exact .inl ⟨rfl, .set hp⟩
      | some a =>
        refine .inr ⟨_, rfl, fun s' b' hk ha => adds_one hk ha.owner (fun _ => ?_) ?_⟩
        · exact ⟨ha.tier, by rw [ha.usable, ha.tier], Nat.le_refl 1⟩
        · rw [event_os, bucket_eq]
          show (if _ then _ else p).osAllocatedBytes = _
          rw [ha.tier, ha.usable]
          split
          · rename_i ht
            rw [ht, ← hos]
            rfl
          · exact hos

theorem mpAlignedAlloc_adds (s : State) (alignment size : Nat) (ans : Option Place) :
    ∃ bs, Adds s (mpAlignedAlloc s .master alignment size ans).1 .master
      (wrap (size + alignment + headerSize + (s.pool .master).cfg.canaryLen))
        (supply [ans]) bs := by
  unfold mpAlignedAlloc
  split
  · exact ⟨[], adds_of_keeps (.refl s)⟩
  · simp only
    generalize wrap (size + alignment + headerSize + (s.pool .master).cfg.canaryLen) = total
    have hi := mpAllocInternal_adds s .master total ans
    generalize mpAllocInternal s .master total ans = q at hi
    obtain ⟨s', o⟩ := q
    rcases hi with ⟨ho, hk⟩ | ⟨b, ho, ha⟩
    · simp only at ho hk
      subst ho
      exact ⟨[], adds_of_keeps hk⟩
    · simp only at ho ha
      subst ho
      exact ⟨_, ha _ _ (blind_part.settle _ _ _) ⟨rfl, rfl, rfl⟩⟩

theorem mpAlloc_adds (s : State) (size : Nat) (ans : Option Place) :
    ∃ bs, Adds s (mpAlloc s size ans).1 s.route ((s.pool s.route).cfg.chargeOf size)
      (supply [ans]) bs := by
  by_cases h0 : size = 0
  · unfold mpAlloc
    rw [if_pos h0]
    exact ⟨[], adds_of_keeps (.refl s)⟩
  · rw [mpAlloc_eq h0]
    have hi := mpAllocInternal_adds s s.route ((s.pool s.route).cfg.chargeOf size) ans
    generalize mpAllocInternal s s.route ((s.pool s.route).cfg.chargeOf size) ans = q at hi
    obtain ⟨s', o⟩ := q
    rcases hi with ⟨ho, hk⟩ | ⟨b, ho, ha⟩
    · simp only at ho hk
      subst ho
      exact ⟨[], adds_of_keeps hk⟩
    · simp only at ho ha
      subst ho
      refine ⟨_, ha _ _ (blind_part.settle _ _ _) ?_⟩
      unfold Config.relink
      split <;> exact ⟨rfl, rfl, rfl⟩

/-! ## Batches -/

theorem amount_alike {τ : Tier} {u : Nat} (h : ∀ b ∈ bs, b.tier = τ ∧ b.owner = w ∧ b.usable = u) :
    amount τ w bs = bs.length * u := by
  induction bs with
  | nil => exact (Nat.zero_mul u).symm
  | cons b bs ih =>
    obtain ⟨h1, h2, h3⟩ := h b List.mem_cons_self
    rw [amount_cons, if_pos ⟨h1, h2⟩, ih fun c hc => h c (List.mem_cons_of_mem _ hc), h3,
      List.length_cons, Nat.succ_mul, Nat.add_comm]

/-- The loop over the elements: blocks of one tier and size, no more than it is answered. -/
theorem batchLoop_served (w : Who) (total size n : Nat) (as : List (Option Place)) (r : Batch) :
    ∃ bs, (batchLoop w total size n as r).blocks = r.blocks ++ bs ∧ bs.length ≤ min n (supply as) ∧
      ∀ b ∈ bs, b.owner = w ∧ b.tier = (r.state.pool w).cfg.tierOf total ∧
        b.usable = (r.state.pool w).cfg.usableOf total b.tier := by
  induction n generalizing as r with
  | zero => exact ⟨[], (List.append_nil _).symm, Nat.zero_le _, nofun⟩
  | succ n ih =>
    match as with
    | [] => exact ⟨[], (List.append_nil _).symm, Nat.zero_le _, nofun⟩
    | none :: _ => exact ⟨[], (List.append_nil _).symm, Nat.zero_le _, nofun⟩
    | some a :: as =>
      have hcfg : ((r.state.accrue w size).1.pool w).cfg = (r.state.pool w).cfg :=
        (accrue_same r.state w size).cfg w
      have hcfg' : (((r.state.accrue w size).1.trip w).pool w).cfg = (r.state.pool w).cfg :=
        ((trip_same _ w).cfg w).trans hcfg
      -- one block, and then those of the other elements
      have hcons : ∀ r₁ : Batch, ∀ b : Block, r₁.blocks = r.blocks ++ [b] →
          (r₁.state.pool w).cfg = (r.state.pool w).cfg →
          (b.owner = w ∧ b.tier = (r.state.pool w).cfg.tierOf total ∧
            b.usable = (r.state.pool w).cfg.usableOf total b.tier) →
          ∃ bs, (batchLoop w total size n as r₁).blocks = r.blocks ++ bs ∧
            bs.length ≤ min (n + 1) (supply (some a :: as)) ∧
            ∀ b ∈ bs, b.owner = w ∧ b.tier = (r.state.pool w).cfg.tierOf total ∧
              b.usable = (r.state.pool w).cfg.usableOf total b.tier := by
        intro r₁ b hb hc hblock
        obtain ⟨bs, h1, h2, h3⟩ := ih as r₁
        refine ⟨b :: bs, by rw [h1, hb, List.append_assoc]; rfl, ?_, fun c hc' => ?_⟩
        · rw [supply_some, List.length_cons]
          omega
        · rcases List.mem_cons.1 hc' with rfl | hc'
          · exact hblock
          · rw [← hc]
            exact h3 c hc'
      unfold batchLoop
      simp only
      split
      · split
        · exact hcons _ _ rfl hcfg' ⟨rfl, rfl, rfl⟩
        · refine ⟨[_], rfl, ?_, fun b hb => ?_⟩
          · rw [supply_some, List.length_singleton]
            omega
          · rw [List.mem_singleton.1 hb]
            exact ⟨rfl, rfl, rfl⟩
      · exact hcons _ _ rfl hcfg ⟨rfl, rfl, rfl⟩

/-- The blocks of a batch, before they are live. -/
def Holds (s : State) (w : Who) (total n : Nat) (r : Batch) : Prop :=
  r.state.live = s.live ∧ Adds s { r.state with live := r.blocks ++ s.live } w total n r.blocks

theorem Holds.keeps {r : Batch} {total : Nat} (h : Holds s w total n r)
    (hk : Keeps part r.state s') : Holds s w total n { r with state := s' } :=
  ⟨hk.live.trans h.1, h.2.keeps ⟨rfl, hk.part⟩⟩

theorem holds_nil {total : Nat} (hk : Keeps part s s') : Holds s w total n ⟨s', [], false⟩ :=
  ⟨hk.live, (adds_of_keeps hk).keeps ⟨hk.live.symm, fun _ => rfl⟩⟩

theorem holds_loop {total size m : Nat} {as : List (Option Place)} (hk : Keeps part s s')
    {r : Batch} (hr : batchLoop w total size m as ⟨s', [], false⟩ = r)
    (hn : min m (supply as) ≤ n) :
    Holds s w total n { r with state := r.state.countOs w total r.blocks.length } := by
  obtain ⟨bs, h1, h2, h3⟩ := batchLoop_served w total size m as ⟨s', [], false⟩
  have hl : Keeps part s r.state :=
    hk.trans (hr ▸ blind_part.batchLoop w total size m as ⟨s', [], false⟩)
  rw [hr, List.nil_append] at h1
  have hcfg : (s'.pool w).cfg = (s.pool w).cfg := congrArg Prod.fst (hk.part w)
  have hcfg' : (r.state.pool w).cfg = (s.pool w).cfg := congrArg Prod.fst (hl.part w)
  simp only [hcfg] at h3
  rw [← h1] at h2 h3
  have hlive : (r.state.countOs w total r.blocks.length).live = s.live := by
    unfold State.countOs
    simp only
    split <;> exact hl.live
  refine ⟨hlive, rfl, fun b hb => (h3 b hb).1, fun b hb _ => (h3 b hb).2, ?_, fun v hv => ?_⟩
  · exact Nat.le_trans (List.length_filter_le ..) (Nat.le_trans h2 hn)
  · have hos : (r.state.pool v).osAllocatedBytes = (s.pool v).osAllocatedBytes :=
      congrArg Prod.snd (hl.part v)
    show ((r.state.countOs w total r.blocks.length).pool v).osAllocatedBytes = _
    unfold State.countOs
    simp only [hcfg']
    by_cases ht : (s.pool w).cfg.tierOf total = .os
    · rw [if_pos ht]
      by_cases e : v = w
      · subst e
        rw [set_self, amount_alike (u := total) fun b hb => ⟨(h3 b hb).2.1.trans ht, (h3 b hb).1, by
          rw [(h3 b hb).2.2, (h3 b hb).2.1, ht]
          rfl⟩]
        simp only [hos, wrap]
        omega
      · rw [set_ne _ _ e, hos, amount_eq_zero fun b hb _ ho => e (ho.symm.trans (h3 b hb).1),
          Nat.add_zero, wrap, Nat.mod_eq_of_lt hv]
    · have hnone : amount .os v r.blocks = 0 :=
        amount_eq_zero fun b hb hbt => absurd ((h3 b hb).2.1.symm.trans hbt) ht
      rw [if_neg ht, hos, hnone, Nat.add_zero, wrap, Nat.mod_eq_of_lt hv]

theorem Holds.emergency {r : Batch} {total charge size : Nat} (h : Holds s w total n r) :
    Holds s w total n (batchEmergency w total charge size r) := by
  obtain ⟨b, hb, ho, ht⟩ :
      ∃ b : Block, (batchEmergency w total charge size r).blocks = r.blocks ++ [b] ∧ b.owner = w ∧
      b.tier = .emergency := by
    unfold batchEmergency
    simp only
    split <;> exact ⟨_, rfl, rfl, rfl⟩
  have hk : Keeps part r.state (batchEmergency w total charge size r).state :=
    .trans (.set (w := w) (p := { r.state.pool w with emergencyUsed := true }) rfl)
      (blind_part.batchEmergency w total charge size r)
  have hv : ∀ v, amount .os v (r.blocks ++ [b]) = amount .os v r.blocks := fun v => by
    rw [amount_append, amount_cons, amount_nil, if_neg (by rw [ht]; exact nofun)]
    omega
  refine ⟨hk.live.trans h.1, ?_⟩
  rw [hb]
  refine ⟨rfl, fun c hc => ?_, fun c hc hne => ?_, ?_, fun v hlt => ?_⟩
  · rcases List.mem_append.1 hc with hc | hc
    · exact h.2.owner c hc
    · rw [List.mem_singleton.1 hc]
      exact ho
  · rcases List.mem_append.1 hc with hc | hc
    · exact h.2.tier c hc hne
    · rw [List.mem_singleton.1 hc] at hne
      exact absurd ht hne
  · rw [List.filter_append]
    simpa [ht] using h.2.length
  · rw [hv]
    exact (congrArg Prod.snd (hk.part v)).trans (h.2.os v hlt)

theorem batchRun_holds {total size : Nat} {plan : Plan} {as : List (Option Place)}
    (hk : Keeps part s s') (hn : min plan.target (supply as) ≤ n) :
    Holds s w total n (batchRun w total size plan as s').1 := by
  unfold batchRun
  simp only
  generalize hs₁ :
    (if plan.emergencyOnly = true then s'.set w ((s'.pool w).event (.oom total)) else s') = s₁
  have h₁ : Keeps part s s₁ := by
    subst hs₁
    split
    · exact hk.trans (.set (blind_part.event _ _))
    · exact hk
  generalize hr₂ : (if plan.emergencyOnly = true then (⟨s₁, [], false⟩ : Batch) else
    { batchLoop w total size plan.target as ⟨s₁, [], false⟩ with
      state := (batchLoop w total size plan.target as ⟨s₁, [], false⟩).state.countOs w total
        (batchLoop w total size plan.target as ⟨s₁, [], false⟩).blocks.length }) = r₂
  have h₂ : Holds s w total n r₂ := by
    subst hr₂
    split
    · exact holds_nil h₁
    · exact holds_loop h₁ rfl hn
  generalize hs₃ :
    (if (plan.breach && decide (r₂.blocks.length = plan.target) && !r₂.tripped) = true then
    r₂.state.set w ((r₂.state.pool w).event (.oom total)) else r₂.state) = s₃
  have h₃ : Holds s w total n { r₂ with state := s₃ } := by
    subst hs₃
    refine h₂.keeps ?_
    split
    · exact .set (blind_part.event _ _)
    · exact .refl _
  split
  · exact h₃.emergency
  · exact h₃

theorem amount_relink (c : Config) (size : Nat) (τ : Tier) (w : Who) (bs : List Block) :
    amount τ w (bs.map (c.relink size)).reverse = amount τ w bs := by
  rw [amount_perm (List.reverse_perm _)]
  induction bs with
  | nil => rfl
  | cons b bs ih =>
    rw [List.map_cons, amount_cons, amount_cons, ih]
    unfold Config.relink
    split <;> rfl

theorem part_chargeAll (p : Counters) (n charge hist : Nat) :
    part (p.chargeAll n charge hist) = part p := by
  unfold Counters.chargeAll
  refine (blind_part.events _ _).trans ?_
  split
  · rw [bucket_eq]
    rfl
  · rfl

theorem Holds.finish {r : Batch} {total size : Nat} {e : Bool} (h : Holds s w total n r) :
    ∃ bs, Adds s (batchFinish w total size r e).1 w total n bs := by
  unfold batchFinish
  split
  · rename_i hn
    have h2 := h.2
    rw [hn] at h2
    exact ⟨[], h2.keeps ⟨h.1, fun _ => rfl⟩⟩
  · have hmem : ∀ b ∈ (r.blocks.map ((r.state.pool w).cfg.relink size)).reverse,
        ∃ c ∈ r.blocks, Alike c b := by
      intro b hb
      obtain ⟨c, hc, rfl⟩ := List.mem_map.1 (List.mem_reverse.1 hb)
      refine ⟨c, hc, ?_⟩
      unfold Config.relink
      split <;> exact ⟨rfl, rfl, rfl⟩
    refine ⟨_, congrArg (_ ++ ·) h.1, fun b hb => ?_, fun b hb hne => ?_, ?_, fun v hv => ?_⟩
    · obtain ⟨c, hc, ha⟩ := hmem b hb
      exact ha.owner.trans (h.2.owner c hc)
    · obtain ⟨c, hc, ha⟩ := hmem b hb
      rw [ha.tier] at hne ⊢
      rw [ha.usable]
      exact h.2.tier c hc hne
    · rw [List.filter_reverse, List.length_reverse, List.filter_map, List.length_map]
      refine le_of_eq_of_le (congrArg List.length (List.filter_congr fun b _ => ?_)) h.2.length
      simp only [Function.comp, (relink_fields (r.state.pool w).cfg size b).2.2]
    · rw [amount_relink]
      have hk : Keeps part r.state (r.state.set w ((r.state.pool w).chargeAll r.blocks.length total
          (r.blocks.length - if e then 1 else 0))) := .set (part_chargeAll ..)
      exact (congrArg Prod.snd (hk.part v)).trans (h.2.os v hv)

theorem target_le (p : Counters) (total charge count : Nat) :
    (batchPlan p total charge count).target ≤ count :=
  (batchPlan_spec p total charge count).2.1

theorem mpAllocBatch_adds (s : State) (size count : Nat) (as : List (Option Place)) :
    ∃ bs, Adds s (mpAllocBatch s size count as).1 s.route ((s.pool s.route).cfg.chargeOf size)
      (min count (supply as)) bs := by
  unfold mpAllocBatch
  simp only
  split
  · exact ⟨[], adds_of_keeps (.refl s)⟩
  · generalize (s.pool s.route).cfg.chargeOf size = total
    have hle := target_le (s.pool s.route) total total count
    generalize batchPlan (s.pool s.route) total total count = plan at hle ⊢
    generalize hs₁ :
      s.set s.route ((List.replicate plan.oomCount (Event.oom total)).foldl Counters.event
      (s.pool s.route)) = s₁
    have h₁ : Keeps part s s₁ := by
      subst hs₁
      exact .set (blind_part.events _ _)
    split
    · exact ⟨[], adds_of_keeps (h₁.trans (.set (blind_part.event _ _)))⟩
    · exact (batchRun_holds h₁ (by omega)).finish

/-! ## Release -/

theorem validate_eq (t : Tiers) (w : Who) :
    (t.validate w).pool = t.pool ∧ (t.validate w).tlsf = t.tlsf := by
  unfold validate
  split <;> exact ⟨rfl, rfl⟩

theorem touch_eq (t : Tiers) (w : Who) (size : Nat) (single : Bool) :
    (t.touch w size single).pool = t.pool ∧ (t.touch w size single).tlsf = t.tlsf := by
  unfold touch
  split
  · exact validate_eq t w
  · simp only
    split
    · split <;> exact validate_eq t w
    · exact validate_eq t w
  · exact ⟨rfl, rfl⟩
  · exact ⟨rfl, rfl⟩

theorem Exact.congr (h : Exact t) (hl : t'.pool.live = t.pool.live)
    (hp : ∀ w, (t'.pool.pool w).osAllocatedBytes = (t.pool.pool w).osAllocatedBytes)
    (ht : t'.tlsf = t.tlsf) :
    Exact t' := by
  refine .of (fun w => ?_) fun w => ?_
  · rw [ht, hl]
    exact h.tlsf w
  · rw [hp, hl]
    exact h.os w

theorem release_os (s : State) (b : Block) (intact : Bool) (v : Who) :
    ((s.release b intact).pool v).osAllocatedBytes =
      if b.tier = .os ∧ b.owner = v then wrap ((s.pool v).osAllocatedBytes + (2 ^ 64 - b.requested))
      else (s.pool v).osAllocatedBytes := by
  have hver (p : Counters) :
    (p.verifyCanary b.requested intact).osAllocatedBytes = p.osAllocatedBytes := by
    unfold Counters.verifyCanary
    split
    · rw [event_os]
      exact event_os _ _
    · rfl
  have hpay (p : Counters) :
      (if b.counted then p.discharge b.requested else p).osAllocatedBytes = p.osAllocatedBytes := by
    split <;> rfl
  have hrel (p : Counters) : (p.release b intact).osAllocatedBytes =
      if b.tier = .os then wrap (p.osAllocatedBytes + (2 ^ 64 - b.requested))
      else p.osAllocatedBytes := by
    unfold Counters.release
    simp only [event_os]
    by_cases ho : b.tier = .os
    · rw [if_pos ho, if_neg (by rw [ho]; exact nofun), if_pos ho]
      show wrap ((if b.counted then _ else _ : Counters).osAllocatedBytes + _) = _
      rw [hpay, hver]
    · rw [if_neg ho, if_neg ho]
      split <;> exact (hpay _).trans (hver _)
  unfold State.release
  by_cases e : v = b.home .master
  · subst e
    refine (congrArg Counters.osAllocatedBytes (set_self ..)).trans ((hrel _).trans ?_)
    by_cases ho : b.tier = .os
    · rw [if_pos ho, if_pos ⟨ho, (if_neg (by rw [ho]; exact nofun)).symm⟩]
    · rw [if_neg ho, if_neg fun h => ho h.1]
  · refine (congrArg Counters.osAllocatedBytes (set_ne _ _ e)).trans ?_
    rw [if_neg fun h => e (h.2.symm.trans (if_neg (by rw [h.1]; exact nofun)).symm)]

/-- What comes off a counter is what was on it. -/
theorem wrap_sub {a n : Nat} (ha : a < 2 ^ 64) (hn : n ≤ a) : wrap (a + (2 ^ 64 - n)) = a - n := by
  unfold wrap
  omega

theorem Returns.tlsf (hr : Returns b) (t : Tiers) : (t.returned b).pool = t.pool ∧
    (t.returned b).tlsf = if b.tier = .tlsf then (t.lower b.owner b.usable).tlsf else t.tlsf := by
  have hv := validate_eq t b.owner
  unfold returned
  cases ht : b.tier with
  | slab => exact hv
  | tlsf =>
    have hlow : ((t.validate b.owner).lower b.owner b.usable).pool = t.pool ∧
        ((t.validate b.owner).lower b.owner b.usable).tlsf = (t.lower b.owner b.usable).tlsf := by
      unfold lower
      rw [hv.1, hv.2]
      exact ⟨rfl, rfl⟩
    simp only [if_true]
    split
    · exact hlow
    · rename_i ha
      rw [(hr.1 ht).resolve_left ha]
      exact hlow
  | os => exact ⟨rfl, rfl⟩
  | emergency => exact ⟨rfl, rfl⟩

theorem Exact.release (h : Exact t) (hb : b ∈ t.pool.live) (hr : Returns b) (intact : Bool) :
    Exact (t.release b intact) := by
  refine .of (fun v => ?_) fun v => ?_
  · have hval :
      (t.release b intact).tlsf v = t.tlsf v - if b.tier = .tlsf ∧ b.owner = v then b.usable
        else 0 := by
      show (t.returned b).tlsf v = _
      rw [(hr.tlsf t).2]
      by_cases ht : b.tier = .tlsf
      · rw [if_pos ht]
        by_cases e : v = b.owner
        · subst e
          have hle : b.usable ≤ t.tlsf b.owner := by
            rw [(h.tlsf b.owner).1, amount_erase hb, if_pos ⟨ht, rfl⟩]
            exact Nat.le_add_right ..
          rw [if_pos ⟨ht, rfl⟩]
          exact (Function.update_self ..).trans (wrap_sub (h.tlsf _).2 hle)
        · rw [if_neg fun h => e h.2.symm]
          exact Function.update_of_ne e _ _
      · rw [if_neg ht, if_neg fun h => ht h.1]
        rfl
    have := (h.tlsf v).2
    refine ⟨?_, by omega⟩
    show _ = amount .tlsf v (t.pool.live.erase b)
    rw [hval, (h.tlsf v).1, amount_erase hb]
    omega
  · have hval : ((t.release b intact).pool.pool v).osAllocatedBytes =
        (t.pool.pool v).osAllocatedBytes - if b.tier = .os ∧ b.owner = v then b.usable else 0 := by
      show ((t.pool.release b intact).pool v).osAllocatedBytes = _
      rw [release_os]
      by_cases e : b.tier = .os ∧ b.owner = v
      · have hle : b.usable ≤ (t.pool.pool v).osAllocatedBytes := by
          rw [(h.os v).1, amount_erase hb, if_pos e]
          exact Nat.le_add_right ..
        rw [if_pos e, if_pos e, hr.2 e.1, wrap_sub (h.os v).2 hle]
      · rw [if_neg e, if_neg e]
        rfl
    have := (h.os v).2
    refine ⟨?_, by omega⟩
    show _ = amount .os v (t.pool.live.erase b)
    rw [hval, (h.os v).1, amount_erase hb]
    omega

theorem amount_foldl_erase {τ : Tier} (h : ∀ b ∈ bs, b.tier ≠ τ) (w : Who) (live : List Block) :
    amount τ w (bs.foldl List.erase live) = amount τ w live := by
  induction bs generalizing live with
  | nil => rfl
  | cons b bs ih =>
    rw [List.foldl_cons, ih fun c hc => h c (List.mem_cons_of_mem _ hc),
      amount_erase_ne (h b List.mem_cons_self)]

theorem foldl_os (f : Counters → Block → Counters)
    (hf : ∀ p b, (f p b).osAllocatedBytes = p.osAllocatedBytes) (p : Counters) :
    (bs.foldl f p).osAllocatedBytes = p.osAllocatedBytes := by
  induction bs generalizing p with
  | nil => rfl
  | cons b bs ih => rw [List.foldl_cons, ih, hf]

theorem flush_live (hdrs : List Block) :
    (t.flush hdrs).pool.live = hdrs.foldl List.erase t.pool.live := rfl

/-- The slab blocks of a batch leave the counters as they are. -/
theorem Exact.flush (h : Exact t) {hdrs : List Block} (hs : ∀ b ∈ hdrs, b.tier = .slab) :
    Exact (t.flush hdrs) := by
  have htlsf : (t.flush hdrs).tlsf = t.tlsf := by
    unfold Tiers.flush
    simp only
    split
    · rfl
    · exact (validate_eq t .master).2
  have hos :
    ∀ v, ((t.flush hdrs).pool.pool v).osAllocatedBytes = (t.pool.pool v).osAllocatedBytes :=
    fun v => by
    show ((flushSlabBlock t.pool hdrs).pool v).osAllocatedBytes = _
    unfold flushSlabBlock
    by_cases e : v = .master
    · subst e
      refine (congrArg Counters.osAllocatedBytes (set_self ..)).trans ?_
      exact (foldl_os _ (fun p b => event_os p _) _).trans
        (foldl_os _ (fun p b => by split <;> rfl) _)
    · exact congrArg Counters.osAllocatedBytes (set_ne _ _ e)
  refine .of (fun v => ?_) fun v => ?_
  · rw [htlsf, flush_live, amount_foldl_erase fun b hb => by rw [hs b hb]; decide]
    exact h.tlsf v
  · rw [hos, flush_live, amount_foldl_erase fun b hb => by rw [hs b hb]; decide]
    exact h.os v

theorem batchable_slab (h : b.batchable = true) : b.tier = .slab := by
  unfold Block.batchable at h
  simp only [Bool.and_eq_true, decide_eq_true_eq] at h
  exact h.1

theorem mem_foldl_erase {c : Block} {live : List Block} (h : c ∈ bs.foldl List.erase live) :
    c ∈ live := by
  induction bs generalizing live with
  | nil => exact h
  | cons b bs ih => exact List.mem_of_mem_erase (ih h)

theorem Exact.freeBatch {ptrs : List (Nat × Bool)} {hdrs : List Block} (h : Exact t)
    (hs : ∀ b ∈ hdrs, b.tier = .slab)
    (hr : ∀ q ∈ ptrs, ∀ b ∈ t.pool.live, b.ptr = q.1 → Returns b) :
    Exact (freeBatch ptrs hdrs t) := by
  induction ptrs generalizing t hdrs with
  | nil => exact h.flush hs
  | cons q ptrs ih =>
    obtain ⟨ptr, intact⟩ := q
    have hr' := fun q hq => hr q (List.mem_cons_of_mem _ hq)
    unfold Tiers.freeBatch
    split
    · exact ih h hs hr'
    · split
      · exact ih h hs hr'
      · rename_i b hb
        obtain ⟨hmem, hptr⟩ := find_spec hb
        split
        · rename_i hba
          have hs' : ∀ c ∈ hdrs ++ [b], c.tier = .slab := fun c hc => by
            rcases List.mem_append.1 hc with hc | hc
            · exact hs c hc
            · rw [List.mem_singleton.1 hc]
              exact batchable_slab hba
          split
          · exact ih (h.flush hs') nofun fun q hq c hc => hr' q hq c (mem_foldl_erase hc)
          · exact ih h hs' hr'
        · exact ih (h.release hmem (hr _ List.mem_cons_self b hmem hptr) intact) hs
            fun q hq c hc => hr' q hq c (List.mem_of_mem_erase hc)

theorem Exact.free (h : Exact t) {ptr : Nat} (hr : ∀ b ∈ t.pool.live, b.ptr = ptr → Returns b)
    (intact : Bool) : Exact (t.free ptr intact) := by
  unfold Tiers.free
  split
  · exact h
  · split
    · exact h
    · rename_i b hb
      obtain ⟨hmem, hptr⟩ := find_spec hb
      exact h.release hmem (hr b hmem hptr) intact

/-! ## Runs -/

theorem supply_single (ans : Option Place) : min 1 (supply [ans]) = supply [ans] := by
  cases ans <;> rfl

theorem Exact.alloc (h : Exact t) (size : Nat) (ans : Option Place) (hr : RoomFor t size 1 [ans]) :
    Exact (t.alloc size ans) := by
  obtain ⟨bs, ha⟩ := mpAlloc_adds t.pool size ans
  unfold RoomFor at hr
  rw [supply_single] at hr
  unfold Tiers.alloc
  simp only
  split
  · exact h.enter ha hr (touch_eq ..).1 (touch_eq ..).2
  · exact h.enter ha hr rfl rfl

theorem Exact.alignedAlloc (h : Exact t) {alignment size : Nat} {ans : Option Place}
    (hr : Room t .master
    (wrap (size + alignment + headerSize + (t.pool.pool .master).cfg.canaryLen))
      (supply [ans])) : Exact (t.alignedAlloc alignment size ans) := by
  obtain ⟨bs, ha⟩ := mpAlignedAlloc_adds t.pool alignment size ans
  unfold Tiers.alignedAlloc
  simp only
  split
  · exact h.enter ha hr (touch_eq ..).1 (touch_eq ..).2
  · exact h.enter ha hr rfl rfl

theorem Exact.allocBatch (h : Exact t) {size count : Nat} {as : List (Option Place)}
    (hr : RoomFor t size count as) : Exact (t.allocBatch size count as) := by
  obtain ⟨bs, ha⟩ := mpAllocBatch_adds t.pool size count as
  unfold Tiers.allocBatch
  simp only
  split
  · exact h.enter ha hr (touch_eq ..).1 (touch_eq ..).2
  · exact h.enter ha hr rfl rfl

theorem free_pool (t : Tiers) (ptr : Nat) (intact : Bool) :
    (t.free ptr intact).pool = mpFree t.pool ptr intact := by
  unfold Tiers.free mpFree
  split
  · rfl
  · cases t.pool.find ptr <;> rfl

theorem alloc_pool (t : Tiers) (size : Nat) (ans : Option Place) :
    (t.alloc size ans).pool = (mpAlloc t.pool size ans).1 := rfl

/-- A header that keeps its size changes no counter. -/
theorem Exact.resize (h : Exact t) (hb : b ∈ t.pool.live) {c : Block} (ha : Alike b c) {t' : Tiers}
    (hl : t'.pool.live = c :: t.pool.live.erase b)
    (hp : ∀ w, (t'.pool.pool w).osAllocatedBytes = (t.pool.pool w).osAllocatedBytes)
    (ht : t'.tlsf = t.tlsf) :
    Exact t' := by
  have hv : ∀ τ w, amount τ w t'.pool.live = amount τ w t.pool.live := fun τ w => by
    rw [hl, amount_cons, amount_erase hb, ha.tier, ha.owner, ha.usable]
  refine .of (fun w => ?_) fun w => ?_
  · rw [ht, hv]
    exact h.tlsf w
  · rw [hp, hv]
    exact h.os w

/-- A block that grows in place is booked on its pool. -/
theorem Exact.grown (h : Exact t) (hb : b ∈ t.pool.live) (htier : b.tier = .tlsf)
    {c : Block} {u : Nat} (hc : c.tier = b.tier ∧ c.owner = b.owner ∧ c.usable = u)
    (hw : b.arena = true ∨ b.owner = .master) (hlt : t.tlsf b.owner - b.usable + u < 2 ^ 64)
    {t' : Tiers} (hl : t'.pool.live = c :: t.pool.live.erase b)
    (hp : ∀ w, (t'.pool.pool w).osAllocatedBytes = (t.pool.pool w).osAllocatedBytes)
    (ht : t'.tlsf = (t.grown b u).tlsf) : Exact t' := by
  obtain ⟨h1, h2, h3⟩ := hc
  have hown : (if b.arena then b.owner else .master) = b.owner := by
    split
    · rfl
    · rename_i ha
      exact (hw.resolve_left ha).symm
  have hin : b.usable ≤ t.tlsf b.owner := by
    rw [(h.tlsf b.owner).1, amount_erase hb, if_pos ⟨htier, rfl⟩]
    exact Nat.le_add_right ..
  refine .of (fun v => ?_) fun v => ?_
  · have hval : t'.tlsf v = if v = b.owner then t.tlsf v - b.usable + u else t.tlsf v := by
      rw [ht]
      unfold Tiers.grown
      simp only [hown]
      by_cases e : v = b.owner
      · subst e
        rw [if_pos rfl, Function.update_self]
        have := (h.tlsf b.owner).2
        unfold wrap
        omega
      · rw [if_neg e, Function.update_of_ne e]
    have hsum :
        amount .tlsf v t'.pool.live = if v = b.owner then amount .tlsf v t.pool.live - b.usable + u
        else amount .tlsf v t.pool.live := by
      rw [hl, amount_cons, amount_erase hb, h1, h2, h3]
      by_cases e : v = b.owner
      · subst e
        rw [if_pos ⟨htier, rfl⟩, if_pos rfl, if_pos ⟨htier, rfl⟩]
        omega
      · rw [if_neg fun h => e h.2.symm, if_neg e, if_neg fun h => e h.2.symm]
    rw [hval, hsum]
    have hv := h.tlsf v
    by_cases e : v = b.owner
    · subst e
      rw [if_pos rfl, if_pos rfl, ← hv.1]
      exact ⟨rfl, hlt⟩
    · rw [if_neg e, if_neg e]
      exact hv
  · have hne : ¬ (b.tier = .os ∧ b.owner = v) := fun hx => by
      rw [htier] at hx
      cases hx.1
    rw [hp, hl, amount_cons, h1, h2, if_neg hne, (h.os v).1]
    refine ⟨?_, (h.os v).1 ▸ (h.os v).2⟩
    rw [amount_erase hb, if_neg hne]

theorem note_os (s : State) (e : Event) (v : Who) :
    ((s.set .master ((s.pool .master).event e)).pool v).osAllocatedBytes =
      (s.pool v).osAllocatedBytes :=
  congrArg Prod.snd ((Keeps.set (f := part) (blind_part.event (s.pool .master) e)).part v)

theorem Exact.realloc (h : Exact t) {ptr newSize : Nat} {grow : Option Grown} {ans : Option Place}
    {intact : Bool} (hs : Sound t (.realloc ptr newSize grow ans intact)) :
    Exact (t.realloc ptr newSize grow ans intact) := by
  simp only [Sound] at hs
  unfold Tiers.realloc
  simp only
  by_cases h0 : ptr = 0
  · rw [if_pos h0] at hs ⊢
    exact h.alloc _ _ hs
  rw [if_neg h0] at hs ⊢
  by_cases h1 : newSize = 0
  · rw [if_pos h1]
    exact h.free (fun b hb hp => by simpa [h1] using hs b hb hp) intact
  rw [if_neg h1]
  cases hf : t.pool.find ptr with
  | none => exact h
  | some b =>
    obtain ⟨hmem, hptr⟩ := find_spec hf
    have hb := hs b hmem hptr
    rw [if_neg h1] at hb
    simp only
    by_cases h2 : newSize ≤ b.usable
    · -- in place: the requested size only
      rw [if_pos h2]
      have he : (mpRealloc t.pool ptr newSize grow ans intact).1 =
          (t.pool.resize b { b with requested := newSize }).set .master
            (((t.pool.resize b { b with requested := newSize }).pool .master).event
              (.realloc newSize)) := by
        unfold mpRealloc
        rw [if_neg h0, if_neg h1, hf]
        simp only [h2, if_true]
      refine h.resize hmem (c := { b with requested := newSize }) ⟨rfl, rfl, rfl⟩ ?_
        (fun w => ?_) rfl
      · rw [he]
        rfl
      · show ((mpRealloc t.pool ptr newSize grow ans intact).1.pool w).osAllocatedBytes = _
        rw [he]
        exact note_os _ _ w
    rw [if_neg h2]
    have hb := hb.2 (by omega)
    generalize hg : (if b.tier = .tlsf then grow else none) = g at hb ⊢
    -- the cache is given back; pool and counters are as before
    have hun : (if b.tier = .tlsf then t.uncache else t).pool = t.pool ∧
        (if b.tier = .tlsf then t.uncache else t).tlsf = t.tlsf := by
      split
      · exact validate_eq t .master
      · exact ⟨rfl, rfl⟩
    generalize (if b.tier = .tlsf then t.uncache else t) = t₁ at hun ⊢
    have h₁ : Exact t₁ := h.congr (by rw [hun.1]) (by rw [hun.1]; exact fun _ => rfl) hun.2
    cases g with
    | some g =>
      have htier : b.tier = .tlsf := by
        by_contra hne
        rw [if_neg hne] at hg
        cases hg
      have he : (mpRealloc t.pool ptr newSize grow ans intact).1 =
          (t.pool.resize b { b with requested := newSize, usable := g.usable, hi := g.hi }).set
            .master
            (((t.pool.resize b { b with requested := newSize, usable := g.usable, hi := g.hi }).pool
              .master).event
              (.realloc newSize)) := by
        unfold mpRealloc
        rw [if_neg h0, if_neg h1, hf]
        simp only [h2, if_false, hg]
      refine h₁.grown (b := b) (by rw [hun.1]; exact hmem) htier (u := g.usable)
        (c := { b with requested := newSize, usable := g.usable, hi := g.hi }) ⟨rfl, rfl, rfl⟩ hb.1
        (by rw [hun.2]; exact hb.2.1) ?_ (fun w => ?_) rfl
      · rw [he, hun.1]
        rfl
      · show ((mpRealloc t.pool ptr newSize grow ans intact).1.pool w).osAllocatedBytes = _
        rw [he, hun.1]
        exact note_os _ _ w
    | none =>
      have ha := h₁.alloc newSize ans (by
        have hroom := hb.1
        unfold RoomFor Room at hroom ⊢
        rw [hun.1, hun.2]
        exact hroom)
      dsimp only
      split
      · exact ha
      · obtain ⟨bs, hadds⟩ := mpAlloc_adds t₁.pool newSize ans
        refine ha.release ?_ hb.2 intact
        rw [alloc_pool, hadds.live, hun.1]
        exact List.mem_append_right _ hmem

theorem Exact.step (h : Exact t) {l : Act} (hs : Sound t l) : Exact (next t l) := by
  cases l with
  | alloc size ans => exact h.alloc _ _ hs
  | alignedAlloc alignment size ans => exact h.alignedAlloc hs
  | allocBatch size count as => exact h.allocBatch hs
  | realloc ptr newSize grow ans intact => exact h.realloc hs
  | free ptr intact => exact h.free hs intact
  | freeBatch ptrs => exact h.freeBatch nofun hs

theorem freeBatch_pool (ptrs : List (Nat × Bool)) (hdrs : List Block) (t : Tiers) :
    (Tiers.freeBatch ptrs hdrs t).pool = mpFreeBatch ptrs hdrs t.pool := by
  induction ptrs generalizing hdrs t with
  | nil => rfl
  | cons q ptrs ih =>
    obtain ⟨ptr, intact⟩ := q
    unfold Tiers.freeBatch mpFreeBatch
    by_cases h0 : ptr = 0
    · rw [if_pos h0, if_pos h0]
      exact ih ..
    rw [if_neg h0, if_neg h0]
    cases hf : t.pool.find ptr with
    | none => exact ih ..
    | some b =>
      simp only
      by_cases hb : b.batchable = true
      · rw [if_pos hb, if_pos hb]
        by_cases hn : hdrs.length + 1 = 256
        · rw [if_pos hn, if_pos hn]
          exact ih ..
        · rw [if_neg hn, if_neg hn]
          exact ih ..
      · rw [if_neg hb, if_neg hb]
        exact ih ..

theorem realloc_pool (t : Tiers) (ptr newSize : Nat) (grow : Option Grown) (ans : Option Place)
    (intact : Bool) :
    (t.realloc ptr newSize grow ans intact).pool =
      (mpRealloc t.pool ptr newSize grow ans intact).1 := by
  unfold Tiers.realloc
  simp only
  by_cases h0 : ptr = 0
  · rw [if_pos h0]
    unfold mpRealloc
    rw [if_pos h0, alloc_pool]
  rw [if_neg h0]
  by_cases h1 : newSize = 0
  · rw [if_pos h1]
    unfold mpRealloc
    rw [if_neg h0, if_pos h1, free_pool]
  rw [if_neg h1]
  cases hf : t.pool.find ptr with
  | none =>
    unfold mpRealloc
    rw [if_neg h0, if_neg h1, hf]
  | some b =>
    dsimp only
    by_cases h2 : newSize ≤ b.usable
    · rw [if_pos h2]
    rw [if_neg h2]
    have hun : (if b.tier = .tlsf then t.uncache else t).pool = t.pool := by
      split
      · exact (validate_eq t .master).1
      · rfl
    generalize (if b.tier = .tlsf then t.uncache else t) = t₁ at hun ⊢
    generalize hg : (if b.tier = .tlsf then grow else none) = g
    cases g with
    | some g => rfl
    | none =>
      unfold mpRealloc
      rw [if_neg h0, if_neg h1, hf]
      simp only [if_neg h2, hg, hun]
      have hpool : (t₁.alloc newSize ans).pool = (mpAlloc t.pool newSize ans).1 := by
        rw [alloc_pool, hun]
      generalize mpAlloc t.pool newSize ans = q at hpool ⊢
      obtain ⟨s', o⟩ := q
      cases o with
      | none => exact hpool
      | some q => exact congrArg (State.release · b intact) hpool

/-- The pool of the counters is the pool of `Cmem.L3Pool.Model`. -/
theorem next_pool (t : Tiers) (l : Act) : (next t l).pool = t.pool.step l := by
  cases l with
  | alloc size ans => exact alloc_pool t size ans
  | alignedAlloc alignment size ans => rfl
  | allocBatch size count as => rfl
  | realloc ptr newSize grow ans intact => exact realloc_pool t ptr newSize grow ans intact
  | free ptr intact => exact free_pool t ptr intact
  | freeBatch ptrs => exact freeBatch_pool ptrs [] t

end Run

instance decRoom (t : Tiers) (w : Who) (charge n : Nat) : Decidable (Room t w charge n) := by
  unfold Room; exact inferInstance

instance decReturns (b : Block) : Decidable (Returns b) := by
  unfold Returns; exact inferInstance

instance decEnlarges (t : Tiers) (b : Block) (newSize : Nat) (ans : Option Place) :
    (g : Option Grown) → Decidable (Enlarges t b newSize ans g)
  | some g => inferInstanceAs (Decidable ((b.arena = true ∨ b.owner = .master) ∧
      t.tlsf b.owner - b.usable + g.usable < 2 ^ 64 ∧
      b.Inside (t.pool.pool .master).cfg newSize g.hi))
  | none => inferInstanceAs (Decidable (Room t _ _ _ ∧ Returns b))

instance decRoomFor (t : Tiers) (size count : Nat) (as : List (Option Place)) :
    Decidable (RoomFor t size count as) := by
  unfold RoomFor; exact inferInstance

instance decUnwrapped (t : Tiers) : (l : Act) → Decidable (Unwrapped t l)
  | .alloc .. | .allocBatch .. | .realloc .. | .alignedAlloc .. =>
    inferInstanceAs (Decidable (Config.Whole ..))
  | .free .. | .freeBatch _ => .isTrue trivial

instance decSound (t : Tiers) : (l : Act) → Decidable (Sound t l)
  | .alloc size ans => inferInstanceAs (Decidable (RoomFor t size 1 [ans]))
  | .alignedAlloc .. => inferInstanceAs (Decidable (Room t _ _ _))
  | .allocBatch size count as => inferInstanceAs (Decidable (RoomFor t size count as))
  | .realloc .. => by unfold Sound; exact inferInstance
  | .free .. => inferInstanceAs (Decidable (∀ _ ∈ _, _ → Returns _))
  | .freeBatch _ => inferInstanceAs (Decidable (∀ _ ∈ _, ∀ _ ∈ _, _ → Returns _))

def large : Place := ⟨0x1000098, 0x1000000, 0x1800099, false⟩

end Tiers

end Cmem.L3.Pool

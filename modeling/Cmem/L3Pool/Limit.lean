import Cmem.L3Pool.Account

/-!
# The memory limit

With a limit and without fallback, the live blocks outside the emergency buffer
stay under the limit, in runs of a single pool in which no block grows in place and
no sum of sizes wraps. A resize in place is not checked against the limit, a child
arena has no limit, and `active_bytes + size` is compared modulo `2 ^ 64`.
-/
namespace Cmem.L3.Pool

/-- The requested bytes of the blocks outside the emergency buffer. -/
def held (bs : List Block) : Nat :=
  ((bs.filter fun b => b.tier ≠ .emergency).map Block.requested).sum

section Held
variable {bs cs : List Block} {b : Block}

@[simp] theorem held_append : held (bs ++ cs) = held bs + held cs := by simp [held]

theorem held_cons :
    held (b :: bs) = (if b.tier ≠ .emergency then b.requested else 0) + held bs := by
  unfold held
  by_cases h : b.tier = .emergency <;> simp [h]

theorem perm_held (h : bs.Perm cs) : held bs = held cs := ((h.filter _).map _).sum_eq

theorem held_le_owed (h : ∀ b ∈ bs, b.counted = true) : held bs ≤ owed bs := by
  induction bs with
  | nil => simp [held]
  | cons b bs ih =>
    have := ih fun c hc => h c (List.mem_cons_of_mem _ hc)
    have hb : b.owes = b.requested := if_pos (h b List.mem_cons_self)
    rw [held_cons, owed_cons, hb]
    split <;> omega

end Held

/-- The size and what is charged for it do not wrap. -/
def Unwrapped (s : State) (size : Nat) : Prop :=
  ((s.pool .master).cfg.cacheAligned = true →
    size + 64 + headerSize + (s.pool .master).cfg.canaryLen < 2 ^ 64) ∧
    (s.pool .master).activeBytes + (s.pool .master).cfg.chargeOf size < 2 ^ 64

instance decUnwrapped (s : State) (size : Nat) : Decidable (Unwrapped s size) := by
  unfold Unwrapped; exact inferInstance

/-- The block does not grow in place. -/
def Block.Stays (b : Block) (newSize : Nat) (grow : Option Grown) : Prop :=
  (newSize ≤ b.usable → newSize ≤ b.requested) ∧
  (b.usable < newSize → b.tier = .tlsf → grow.isNone = true)

instance decStays (b : Block) (newSize : Nat) (grow : Option Grown) :
    Decidable (b.Stays newSize grow) := by
  unfold Block.Stays; exact inferInstance

/-- One pool, no growth in place, no wrapping sum. -/
def Bounded (s : State) (l : Act) : Prop :=
  s.arenas = false ∧ match l with
  | .alloc size _ => Unwrapped s size
  | .alignedAlloc alignment size _ =>
    size + alignment + headerSize + (s.pool .master).cfg.canaryLen < 2 ^ 64 ∧
      (s.pool .master).activeBytes +
        (size + alignment + headerSize + (s.pool .master).cfg.canaryLen) < 2 ^ 64
  | .allocBatch size _ _ =>
    Unwrapped s size ∧ (s.pool .master).cfg.limit + (s.pool .master).cfg.chargeOf size < 2 ^ 64
  | .realloc ptr newSize grow _ _ =>
    Unwrapped s newSize ∧ ∀ b ∈ s.live, b.ptr = ptr → b.Stays newSize grow
  | .free _ _ | .freeBatch _ => True

instance decBounded (s : State) (l : Act) : Decidable (Bounded s l) := by
  unfold Bounded; cases l <;> exact inferInstance

structure Capped (L : Nat) (s : State) : Prop where
  owner : ∀ b ∈ s.live, b.owner = .master ∧ b.counted = true
  limit : (s.pool .master).cfg.limit = L
  fallback : (s.pool .master).cfg.fallback = false
  owed : owed s.live ≤ (s.pool .master).activeBytes
  active : (s.pool .master).activeBytes < 2 ^ 64
  cap : held s.live ≤ L

section Step
variable {s s' : State} {size charge n L : Nat}

theorem le_chargeOf (h : Unwrapped s size) : size ≤ (s.pool .master).cfg.chargeOf size := by
  unfold Config.chargeOf
  split
  · rename_i hc
    rw [wrap, Nat.mod_eq_of_lt (h.1 hc)]
    omega
  · exact Nat.le_refl _

theorem owed_alike {bs : List Block}
    (h : ∀ b ∈ bs, b.counted = true ∧ b.requested = size ∧ b.owner = .master) :
    owed bs = bs.length * size ∧
    held bs = (bs.filter fun b => b.tier ≠ .emergency).length * size := by
  induction bs with
  | nil => simp [held]
  | cons b bs ih =>
    obtain ⟨hc, hr, -⟩ := h b List.mem_cons_self
    obtain ⟨h1, h2⟩ := ih fun c hc => h c (List.mem_cons_of_mem _ hc)
    have hb : b.owes = size := (if_pos hc).trans hr
    rw [owed_cons, held_cons, h1, h2, hb, hr, List.length_cons, Nat.succ_mul]
    refine ⟨Nat.add_comm .., ?_⟩
    by_cases he : b.tier = .emergency
    · simp [he]
    · rw [List.filter_cons_of_pos (by simpa using he), List.length_cons, Nat.succ_mul, if_pos he,
        Nat.add_comm]

theorem Capped.admits (h : Capped L s) (hL : 0 < L) (ha : Admits s s' size charge n)
    (hsz : size ≤ charge) (hlt : (s.pool .master).activeBytes + charge < 2 ^ 64)
    (hn : n ≤ 1 ∨ L + charge < 2 ^ 64) : Capped L s' := by
  obtain ⟨bs, hlive, hlen, hact, hbs, k, hk, hfilter, hlim⟩ := ha.blocks
  obtain ⟨h1, h2⟩ := owed_alike hbs
  have hlim := hlim (by rw [h.limit]; exact hL) h.fallback hlt
  rw [h.limit] at hlim
  -- what is charged does not wrap
  have hsum : (s.pool .master).activeBytes + bs.length * charge < 2 ^ 64 := by
    rcases Nat.lt_or_ge 1 bs.length with hgt | hle
    · have hmul := Nat.mul_le_mul_right charge hk
      rw [Nat.succ_mul] at hmul
      rcases hlim with rfl | hlim
      · omega
      · have := hn.resolve_left (by omega)
        omega
    · have := Nat.mul_le_mul_right charge hle
      omega
  rw [wrap, Nat.mod_eq_of_lt hsum] at hact
  have hmul := Nat.mul_le_mul_left bs.length hsz
  refine ⟨fun b hb => ?_, by rw [ha.cfg]; exact h.limit, by rw [ha.cfg]; exact h.fallback, ?_,
    by omega, ?_⟩
  · rw [hlive] at hb
    rcases List.mem_append.mp hb with hb | hb
    · exact ⟨(hbs b hb).2.2, (hbs b hb).1⟩
    · exact h.owner b hb
  · rw [hlive, owed_append, h1, hact]
    have := h.owed
    omega
  · rw [hlive, held_append, h2]
    have hheld := held_le_owed fun b hb => (h.owner b hb).2
    have h3 := Nat.mul_le_mul hfilter hsz
    rcases hlim with rfl | hlim
    · have := h.cap
      have : (bs.filter fun b => b.tier ≠ .emergency).length = 0 := by omega
      rw [this, Nat.zero_mul]
      omega
    · have := h.owed
      omega

theorem Capped.releases {bs : List Block} (h : Capped L s) (hr : Releases s s' bs) :
    Capped L s' := by
  have hp := perm_owed hr.live
  have hq := perm_held hr.live
  rw [owed_append] at hp
  rw [held_append] at hq
  have h1 := h.owed
  have hact := hr.active (by omega) h.active
  have h2 := h.active
  have h3 := h.cap
  refine ⟨fun b hb => h.owner b (hr.live.subset (List.mem_append_right _ hb)),
    by rw [hr.cfg]; exact h.limit, by rw [hr.cfg]; exact h.fallback, by omega, by omega, by omega⟩

theorem Capped.same (h : Capped L s) (hs : SameAccount s s') : Capped L s' := by
  refine ⟨by rw [hs.live]; exact h.owner, by rw [hs.cfg]; exact h.limit,
    by rw [hs.cfg]; exact h.fallback, ?_, by rw [hs.active]; exact h.active, by
    rw [hs.live]; exact h.cap⟩
  rw [hs.live, hs.active]; exact h.owed

/-- A block that does not grow. -/
theorem Capped.resize {b b' : Block} (h : Capped L s) (hb : b ∈ s.live) (ho : b'.owner = b.owner)
    (hc : b'.counted = b.counted) (ht : b'.tier = b.tier) (hr : b'.requested ≤ b.requested) :
    Capped L (s.resize b b') := by
  have hp := List.perm_cons_erase hb
  have h1 := perm_owed hp
  have h2 := perm_held hp
  obtain ⟨hbo, hbc⟩ := h.owner b hb
  rw [owed_cons, show b.owes = b.requested from if_pos hbc] at h1
  rw [held_cons] at h2
  have h3 := h.owed
  have h4 := h.cap
  refine ⟨fun c hc' => ?_, h.limit, h.fallback, ?_, h.active, ?_⟩
  · rcases List.mem_cons.mp hc' with rfl | hc'
    · exact ⟨ho.trans hbo, hc.trans hbc⟩
    · exact h.owner c (List.mem_of_mem_erase hc')
  · show Pool.owed (b' :: s.live.erase b) ≤ _
    rw [owed_cons, show b'.owes = b'.requested from if_pos (hc.trans hbc)]
    show _ ≤ (s.pool .master).activeBytes
    omega
  · show held (b' :: s.live.erase b) ≤ L
    rw [held_cons, ht]
    split at h2 <;> split <;> first | omega | contradiction

theorem Capped.alloc (h : Capped L s) (hL : 0 < L) (ha : s.arenas = false) (hu : Unwrapped s size)
    (ans : Option Place) : Capped L (mpAlloc s size ans).1 :=
  h.admits hL (mpAlloc_admits s size ans ha h.active) (le_chargeOf hu) hu.2 (.inl (Nat.le_refl 1))

theorem Capped.realloc {ptr newSize : Nat} {grow : Option Grown} {ans : Option Place}
    {intact : Bool} (h : Capped L s) (hL : 0 < L)
    (hst : Bounded s (.realloc ptr newSize grow ans intact)) :
    Capped L (mpRealloc s ptr newSize grow ans intact).1 := by
  obtain ⟨ha, hu, hm⟩ := hst
  have howner : ∀ b ∈ s.live, b.owner = .master := fun b hb => (h.owner b hb).1
  unfold mpRealloc
  split
  · exact h.alloc hL ha hu ans
  · split
    · obtain ⟨bs, hbs⟩ := mpFree_releases ptr intact howner
      exact h.releases hbs
    · split
      · exact h
      · rename_i b hb
        obtain ⟨hmem, hptr⟩ := find_spec hb
        obtain ⟨hkeep, hgrow⟩ := hm b hmem hptr
        simp only
        split
        · rename_i hle
          have hres : Capped L (s.resize b { b with requested := newSize }) :=
            h.resize hmem rfl rfl rfl (hkeep hle)
          exact hres.same (set_same (by simp) (by simp) (by simp))
        · rename_i hgt
          have hg : (if b.tier = .tlsf then grow else none) = none := by
            split
            · rename_i ht
              exact Option.isNone_iff_eq_none.mp (hgrow (by omega) ht)
            · rfl
          rw [hg]
          simp only
          have hinv := h.alloc hL ha hu ans
          have hadm := (mpAlloc_admits s newSize ans ha h.active).blocks
          split
          · rename_i he
            rw [he] at hinv; exact hinv
          · rename_i s₁ q he
            rw [he] at hinv hadm
            obtain ⟨bs, hlive, -⟩ := hadm
            have hmem₁ : b ∈ s₁.live := by rw [hlive]; exact List.mem_append_right _ hmem
            exact hinv.releases (release_releases intact hmem₁ (howner b hmem))

theorem step_capped {l : Act} (h : Capped L s) (hL : 0 < L) (hpre : s.pre l) (hst : Bounded s l) :
    Capped L (s.step l) := by
  have howner : ∀ b ∈ s.live, b.owner = .master := fun b hb => (h.owner b hb).1
  cases l with
  | alloc size ans => exact h.alloc hL hst.1 hst.2 ans
  | alignedAlloc alignment size ans =>
    obtain ⟨-, h1, h2⟩ := hst
    have ha := mpAlignedAlloc_admits s alignment size ans h.active
    rw [wrap, Nat.mod_eq_of_lt h1] at ha
    exact h.admits hL ha (by omega) h2 (.inl (Nat.le_refl 1))
  | allocBatch size count as =>
    obtain ⟨ha, hu, hlim⟩ := hst
    rw [h.limit] at hlim
    exact h.admits hL (mpAllocBatch_admits s size count as ha h.active) (le_chargeOf hu) hu.2
      (.inr hlim)
  | realloc ptr newSize grow ans intact => exact h.realloc hL hst
  | free ptr intact =>
    obtain ⟨bs, hbs⟩ := mpFree_releases ptr intact howner
    exact h.releases hbs
  | freeBatch ptrs =>
    obtain ⟨bs, hbs⟩ : ∃ bs, Releases s (mpFreeBatch ptrs [] s) bs :=
      mpFreeBatch_releases howner hpre.1 ⟨s.live, .refl _⟩ (fun _ hb => absurd hb List.not_mem_nil)
    exact h.releases hbs

end Step

theorem inductive_capped (c : Config) (arenas : Bool) (hL : 0 < c.limit) (hf : c.fallback = false) :
    ((poolSystem c arenas).guard Bounded).Inductive (Capped c.limit) where
  init s hs := by
    obtain ⟨q, n, rfl⟩ := hs
    exact ⟨nofun, rfl, hf, Nat.le_refl 0, Nat.two_pow_pos 64, Nat.zero_le _⟩
  step s l s' hi hs := by
    obtain ⟨⟨hpre, rfl⟩, hst⟩ := hs
    exact step_capped hi hL hpre hst

/-- **The memory limit is a hard cap** in every run of bounded steps. -/
theorem limit_is_cap (c : Config) (arenas : Bool) (hL : 0 < c.limit) (hf : c.fallback = false)
    {s : State} (hr : ((poolSystem c arenas).guard Bounded).Reachable s) : held s.live ≤ c.limit :=
  ((inductive_capped c arenas hL hf).reachable hr).cap

/-- A limit of 100 bytes. -/
def limited : Config := { plain with limit := 100 }

theorem limit_is_cap_at_limit :
    let s :=
      [Act.alloc 100 (some ⟨0x10098, 0x10000, 0x10118, false⟩), .alloc 1 none].foldl State.step
      (State.init limited false 0 0)
    held s.live ≤ limited.limit ∧ s.live.length = 1 := by
  intro s
  have hr : ((poolSystem limited false).guard Bounded).Reachable s :=
    LTS.Reachable.run (.init ⟨0, 0, rfl⟩) (by decide +kernel)
  exact ⟨limit_is_cap limited false (by decide) rfl hr, by decide +kernel⟩

/-- **Defect.** The slot of a 100-byte block has room for 128 bytes, and the resize
takes it although the limit is 100. -/
theorem resize_exceeds_limit :
    ∃ s, (poolSystem limited false).Reachable s ∧ limited.fallback = false ∧
    ¬ held s.live ≤ limited.limit := by
  refine ⟨[Act.alloc 100 (some ⟨0x10098, 0x10000, 0x10118, false⟩),
    .realloc 0x10098 128 none none true].foldl
    State.step (State.init limited false 0 0), ?_, rfl, by decide +kernel⟩
  refine LTS.Reachable.of_guard (C := fun _ _ => True) (LTS.Reachable.run (.init ⟨0, 0, rfl⟩) ?_)
  decide +kernel

end Cmem.L3.Pool

import Cmem.L3Pool.Account

/-!
# `active_bytes` balances

In a run without aligned allocations, without resizing in place and without sizes that wrap,
`active_bytes` is at all times the sum of what the live blocks will return. Both exceptions are
defects: an aligned block is charged with its raw size and returns its user size, and a resize in
place changes what a block returns without touching the counter.
-/
namespace Cmem.L3.Pool

def Balanced (s : State) : Prop := (s.pool .master).activeBytes = owed s.live

/-- The resize is not done in place, or it keeps the size. -/
def Block.Moves (b : Block) (newSize : Nat) (grow : Option Grown) : Prop :=
  (newSize ≤ b.usable → newSize = b.requested) ∧
  (b.usable < newSize → b.tier = .tlsf → grow.isNone = true)

instance decMoves (b : Block) (newSize : Nat) (grow : Option Grown) :
    Decidable (b.Moves newSize grow) :=
  inferInstanceAs (Decidable ((newSize ≤ b.usable → newSize = b.requested) ∧
    (b.usable < newSize → b.tier = .tlsf → grow.isNone = true)))

/-- The pool does not align its blocks, and `n` blocks of a size wrap no sum. -/
def Plain (s : State) (size n : Nat) : Prop :=
  (s.pool .master).cfg.cacheAligned = false ∧ (s.pool .master).cfg.Whole size 0 ∧
    (s.pool .master).activeBytes + n * size < 2 ^ 64

instance decPlainSize (s : State) (size n : Nat) : Decidable (Plain s size n) := by
  unfold Plain; exact inferInstance

/-- No aligned allocation, no resize in place, and no wrapping sum. -/
def Steady (s : State) : Act → Prop
  | .alloc size _ => Plain s size 1
  | .alignedAlloc alignment _ _ => isPow2 alignment = false ∨ alignment < 8
  | .allocBatch size count _ => Plain s size count
  | .realloc ptr newSize grow _ _ =>
    Plain s newSize 1 ∧ ∀ b ∈ s.live, b.ptr = ptr → b.Moves newSize grow
  | .free _ _ | .freeBatch _ => True

instance decSteady (s : State) : (l : Act) → Decidable (Steady s l)
  | .alloc size _ => inferInstanceAs (Decidable (Plain s size 1))
  | .alignedAlloc alignment _ _ =>
    inferInstanceAs (Decidable (isPow2 alignment = false ∨ alignment < 8))
  | .allocBatch size count _ => inferInstanceAs (Decidable (Plain s size count))
  | .realloc ptr newSize grow _ _ =>
    inferInstanceAs (Decidable (Plain s newSize 1 ∧ ∀ b ∈ s.live, b.ptr = ptr →
      b.Moves newSize grow))
  | .free _ _ | .freeBatch _ => .isTrue trivial

structure Inv (s : State) : Prop where
  arenas : s.arenas = false
  owner : ∀ b ∈ s.live, b.owner = .master
  balanced : Balanced s
  active : (s.pool .master).activeBytes < 2 ^ 64

section Step
variable {s s' : State} {size n : Nat}

theorem Inv.admits (h : Inv s) (ha : Admits s s' size size n)
    (hlt : (s.pool .master).activeBytes + n * size < 2 ^ 64) : Inv s' := by
  obtain ⟨bs, hlive, hn, hact, hbs, -⟩ := ha.blocks
  have hmul := Nat.mul_le_mul_right size hn
  have howed : owed bs = bs.length * size := by
    clear hlive hn hact hmul
    induction bs with
    | nil => simp
    | cons b bs ih =>
      obtain ⟨hc, hr, -⟩ := hbs b List.mem_cons_self
      rw [owed_cons, ih (fun c hc' => hbs c (List.mem_cons_of_mem _ hc')) , Block.owes,
        if_pos hc, hr, List.length_cons, Nat.succ_mul, Nat.add_comm]
  have hval : (s'.pool .master).activeBytes = (s.pool .master).activeBytes + bs.length * size := by
    rw [hact, wrap, Nat.mod_eq_of_lt (by omega)]
  refine ⟨ha.arenas.trans h.arenas, fun b hb => ?_, ?_, by omega⟩
  · rw [hlive] at hb
    rcases List.mem_append.mp hb with hb | hb
    · exact (hbs b hb).2.2
    · exact h.owner b hb
  · have hb : (s.pool .master).activeBytes = owed s.live := h.balanced
    show _ = _
    rw [hval, hlive, owed_append, howed, ← hb, Nat.add_comm]

theorem Inv.releases {bs : List Block} (h : Inv s) (hr : Releases s s' bs) : Inv s' := by
  have hb : (s.pool .master).activeBytes = owed s.live := h.balanced
  have hp := perm_owed hr.live
  rw [owed_append] at hp
  have hact := hr.active (by omega) h.active
  refine ⟨hr.arenas.trans h.arenas,
    fun b hb => h.owner b (hr.live.subset (List.mem_append_right _ hb)), ?_, ?_⟩
  · show _ = _
    omega
  · have := h.active
    omega

theorem Inv.same (h : Inv s) (hs : SameAccount s s') : Inv s' := by
  refine ⟨hs.arenas.trans h.arenas, by rw [hs.live]; exact h.owner, ?_,
    by rw [hs.active]; exact h.active⟩
  show _ = _
  rw [hs.active, hs.live]; exact h.balanced

theorem chargeOf_eq (c : Config) (hc : c.cacheAligned = false) (size : Nat) :
    c.chargeOf size = size := by
  unfold Config.chargeOf
  rw [if_neg (by simp [hc])]

theorem Inv.alloc (h : Inv s) (hp : Plain s size 1) (ans : Option Place) :
    Inv (mpAlloc s size ans).1 := by
  have ha := mpAlloc_admits s size ans h.arenas h.active
  rw [chargeOf_eq _ hp.1] at ha
  exact h.admits ha hp.2.2

theorem Inv.realloc {ptr newSize : Nat} {grow : Option Grown} {ans : Option Place} {intact : Bool}
    (h : Inv s) (hst : Steady s (.realloc ptr newSize grow ans intact)) :
    Inv (mpRealloc s ptr newSize grow ans intact).1 := by
  obtain ⟨hplain, hm⟩ := hst
  unfold mpRealloc
  split
  · exact h.alloc hplain ans
  · split
    · obtain ⟨bs, hbs⟩ := mpFree_releases ptr intact h.owner
      exact h.releases hbs
    · split
      · exact h
      · rename_i b hb
        obtain ⟨hmem, hptr⟩ := find_spec hb
        obtain ⟨hkeep, hgrow⟩ := hm b hmem hptr
        simp only
        split
        · rename_i hle
          -- in place, with the size it has
          have hres : Inv (s.resize b { b with requested := newSize }) := by
            have heq : { b with requested := newSize } = b := by rw [hkeep hle]
            rw [heq]
            have hp : (b :: s.live.erase b).Perm s.live := (List.perm_cons_erase hmem).symm
            refine ⟨h.arenas, fun c hc' => h.owner c (hp.subset hc'), ?_, h.active⟩
            exact h.balanced.trans (perm_owed hp).symm
          exact hres.same (set_same (by simp) (by simp) (by simp))
        · rename_i hgt
          have hg : (if b.tier = .tlsf then grow else none) = none := by
            split
            · rename_i ht
              exact Option.isNone_iff_eq_none.mp (hgrow (by omega) ht)
            · rfl
          rw [hg]
          simp only
          have hinv := h.alloc hplain ans
          have hadm := (mpAlloc_admits s newSize ans h.arenas h.active).blocks
          split
          · rename_i he
            rw [he] at hinv; exact hinv
          · rename_i s₁ q he
            rw [he] at hinv hadm
            obtain ⟨bs, hlive, -⟩ := hadm
            have hmem₁ : b ∈ s₁.live := by rw [hlive]; exact List.mem_append_right _ hmem
            exact hinv.releases (release_releases intact hmem₁ (h.owner b hmem))

theorem step_balanced {l : Act} (h : Inv s) (hpre : s.pre l) (hst : Steady s l) :
    Inv (s.step l) := by
  cases l with
  | alloc size ans => exact h.alloc hst ans
  | alignedAlloc alignment size ans =>
    have hno : mpAlignedAlloc s .master alignment size ans = (s, none) := if_pos hst
    show Inv (mpAlignedAlloc s .master alignment size ans).1
    rw [hno]
    exact h
  | allocBatch size count as =>
    have ha := mpAllocBatch_admits s size count as h.arenas h.active
    rw [chargeOf_eq _ hst.1] at ha
    exact h.admits ha hst.2.2
  | realloc ptr newSize grow ans intact => exact h.realloc hst
  | free ptr intact =>
    obtain ⟨bs, hbs⟩ := mpFree_releases ptr intact h.owner
    exact h.releases hbs
  | freeBatch ptrs =>
    obtain ⟨bs, hbs⟩ : ∃ bs, Releases s (mpFreeBatch ptrs [] s) bs :=
      mpFreeBatch_releases h.owner hpre.1 ⟨s.live, .refl _⟩ nofun
    exact h.releases hbs

end Step

theorem inductive_balanced (c : Config) : ((poolSystem c false).guard Steady).Inductive Inv where
  init s hs := by
    obtain ⟨q, n, rfl⟩ := hs
    exact ⟨rfl, nofun, rfl, Nat.two_pow_pos 64⟩
  step s l s' hi hs := by
    obtain ⟨⟨hpre, rfl⟩, hst⟩ := hs
    exact step_balanced hi hpre hst

/-- **`active_bytes` balances** in every run of steady steps: it is what the live
blocks return, no free takes it below zero, and it is zero once all are freed. -/
theorem active_bytes_balances (c : Config) {s : State}
    (hr : ((poolSystem c false).guard Steady).Reachable s) :
    Balanced s ∧ (∀ b ∈ s.live, b.owes ≤ (s.pool .master).activeBytes) ∧
      (s.live = [] → (s.pool .master).activeBytes = 0) := by
  have hb : (s.pool .master).activeBytes = owed s.live :=
    ((inductive_balanced c).reachable hr).balanced
  refine ⟨hb, fun b hm => ?_, fun h0 => by rw [hb, h0]; rfl⟩
  rw [hb, ← perm_owed (List.perm_cons_erase hm).symm, owed_cons]
  omega

/-- A slab slot of the class for 100 bytes. -/
def slot100 : Place := ⟨0x10098, 0x10000, 0x10118, false⟩

theorem active_bytes_balances_after_move :
    let s :=
      [Act.alloc 100 (some slot100),
        .realloc 0x10098 1000 none (some ⟨0x20098, 0x20000, 0x20480, false⟩) true].foldl
      State.step (State.init plain false 0 0)
    Balanced s ∧ (s.pool .master).activeBytes = 1000 := by
  intro s
  have hr : ((poolSystem plain false).guard Steady).Reachable s :=
    LTS.Reachable.run (.init ⟨0, 0, rfl⟩) (by decide +kernel)
  exact ⟨(active_bytes_balances plain hr).1, by decide +kernel⟩

/-- **Defect.** A resize in place changes what the block returns, and
`active_bytes` stays. -/
theorem resize_unbalanced : ∃ s, (poolSystem plain false).Reachable s ∧ ¬ Balanced s := by
  refine ⟨[Act.alloc 100 (some slot100), .realloc 0x10098 50 none none true].foldl State.step
    (State.init plain false 0 0), ?_, ?_⟩
  · refine LTS.Reachable.of_guard (C := fun _ _ => True) (LTS.Reachable.run (.init ⟨0, 0, rfl⟩) ?_)
    decide +kernel
  · unfold Balanced
    decide +kernel

end Cmem.L3.Pool

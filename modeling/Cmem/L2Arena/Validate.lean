import Cmem.L2Arena.Run

/-!
# When the arena validator holds

`tlsf_arena_validate` also checks PREV_FREE. Every operation but one keeps
that bit right. The exception is the in-place grow of `mp_realloc`: it stores
`need` (or `total`) over the block's whole `size_and_flags`
(src/src/cmem_alloc.c:1502 and 1508), which clears PREV_FREE even when the
physical predecessor is FREE.

* `validate_of_inv`: the invariant with PREV_FREE right makes the validator
  return true.
* `validate_on_run`: it does so in every state of every run whose absorbing
  grows have no free predecessor.
* `validate_false_after_grow`: a run of four operations that breaks it.
-/
namespace Cmem.L2.ThreadArena

variable {A : Arena} {s : Sys} {as mb : List Nat}

/-! ## The two loops -/

/-- The predecessor's state as the validator reads it. -/
def predFree (m : Mem) (prev : Nat) : Bool := decide (prev ≠ 0) && isFree m prev

theorem validateChain_of_walk {m : Mem} {fin fuel prev block : Nat} {bs : List Nat}
    (hw : Walk m prev block bs fin) (hf : Flags True m (predFree m prev) bs) (h0 : m fin = 0)
    (hpos : 0 < block) (hfuel : bs.length < fuel) : validateChain m fin fuel prev block = true := by
  induction bs generalizing fuel prev block with
  | nil =>
    obtain ⟨rfl, hp⟩ := hw
    cases fuel with
    | zero => cases hfuel
    | succ n => simp [validateChain, h0, hp]
  | cons a bs ih =>
    obtain ⟨rfl, hp, h3, h4, hw⟩ := hw
    obtain ⟨-, hpf, hf⟩ := hf
    have hle := hw.le
    cases fuel with
    | zero => cases hfuel
    | succ n =>
      unfold minBlock at h3
      have hpred : predFree m a = isFree m a := by
        simp [predFree, Nat.pos_iff_ne_zero.mp hpos]
      have hpf' := hpf trivial
      unfold predFree at hpf'
      rw [validateChain, if_pos (by omega)]
      dsimp only
      rw [if_neg (by unfold minBlock; omega), if_neg (by omega), if_neg (by simpa using hp),
        if_neg (by rw [hpf']; simp)]
      exact ih hw (by rw [hpred]; exact hf) (by omega) (by simpa using hfuel)

theorem validateList_of_seg {m : Mem} {raw fin fuel prev block t : Nat} {l : List Nat}
    (hs : Seg (nextFree m) (prevFree m) prev block l 0 t) (hfree : ∀ a ∈ l, isFree m a = true)
    (hb : ∀ a ∈ l, raw ≤ a ∧ a + span m a ≤ fin)
    (hsort : (prev :: l).Pairwise fun a c => a = 0 ∨ a < c ∧ a + span m a ≠ c)
    (hfuel : l.length < fuel) : validateList m raw fin fuel prev block = true := by
  induction l generalizing fuel prev block with
  | nil =>
    obtain ⟨rfl, -⟩ := hs
    cases fuel with
    | zero => cases hfuel
    | succ n => simp [validateList]
  | cons a l ih =>
    obtain ⟨rfl, h0, hp, hs⟩ := hs
    obtain ⟨h1, h2⟩ := List.pairwise_cons.mp hsort
    have hprev := h1 block List.mem_cons_self
    have hbb := hb block List.mem_cons_self
    cases fuel with
    | zero => cases hfuel
    | succ n =>
      rw [validateList, if_neg h0, if_neg (by simp [hfree block List.mem_cons_self]),
        if_neg (by simpa using hp), if_neg (by omega), if_neg (by omega)]
      exact ih hs (fun c hc => hfree c (List.mem_cons_of_mem _ hc))
        (fun c hc => hb c (List.mem_cons_of_mem _ hc)) h2 (by simpa using hfuel)

/-- **The validator accepts** every arena that satisfies the invariant with
PREV_FREE right. -/
theorem validate_of_inv (h : InvWith True s as mb) : tlsfArenaValidate s.arena = true := by
  have ht := h.tiled
  have hfin : s.arena.raw + s.arena.size - blockHdr = s.arena.sentinel := by
    have := h.sent; unfold blockHdr; omega
  have hlen : as.length < s.arena.size := by
    have := ht.walk.length_le
    have := h.sent
    have := h.size
    unfold arenaDefaultSize at this
    omega
  have hpos := ht.pos
  unfold tlsfArenaValidate
  rw [if_neg (by omega)]
  dsimp only
  rw [hfin, Bool.and_eq_true]
  constructor
  · exact validateChain_of_walk ht.walk ht.flags ht.sent hpos hlen
  · obtain ⟨t, hs⟩ := ht.list
    refine validateList_of_seg hs (fun a ha => (List.mem_filter.mp ha).2) (fun a ha => ?_) ?_ ?_
    · have := ht.mem_bounds (List.mem_filter.mp ha).1
      exact ⟨this.1, this.2.1⟩
    · refine List.pairwise_cons.mpr ⟨fun _ _ => .inl rfl, ?_⟩
      have hs := (List.pairwise_append.mp ht.sorted).1
      refine (hs.filter (isFree s.arena.mem)).imp_of_mem fun {a c} ha hc hac => .inr ⟨by omega, ?_⟩
      exact ht.no_adjacent (List.mem_filter.mp ha).1 (List.mem_filter.mp hc).1
        (List.mem_filter.mp ha).2 (List.mem_filter.mp hc).2
    · have := List.length_filter_le (isFree s.arena.mem) as
      omega

/-! ## Runs -/

/-- An in-place grow that takes over its successor starts, once the mailbox is
drained, from a block whose physical predecessor is not FREE. -/
def GrowKeepsFlag (s : Sys) : Op → Prop
  | .grow _ b newSize canary => Absorbs s.arena b newSize canary →
      predFree (reapIfAny s.arena).mem (prevPhysical (reapIfAny s.arena).mem b) = false
  | _ => True

instance (s : Sys) : (l : Op) → Decidable (GrowKeepsFlag s l)
  | .grow _ b newSize canary => inferInstanceAs (Decidable (Absorbs s.arena b newSize canary →
      predFree (reapIfAny s.arena).mem (prevPhysical (reapIfAny s.arena).mem b) = false))
  | .alloc _ | .free _ _ | .reap | .write _ _ _ => inferInstanceAs (Decidable True)

/-- PREV_FREE is set exactly on the blocks whose predecessor is FREE. -/
theorem flags_iff {m : Mem} {prev lo hi : Nat} {bs : List Nat} (hw : Walk m prev lo bs hi)
    (hf : Flags True m (predFree m prev) bs) (hpos : 0 < lo) :
    ∀ a ∈ bs, prevFreeBit (m a) = predFree m (prevPhysical m a) := by
  induction bs generalizing prev lo with
  | nil => simp
  | cons b bs ih =>
    obtain ⟨rfl, hp, -, -, hw⟩ := hw
    obtain ⟨-, hpf, hf⟩ := hf
    have hpred : predFree m b = isFree m b := by simp [predFree, Nat.pos_iff_ne_zero.mp hpos]
    intro a ha
    rcases List.mem_cons.mp ha with rfl | ha
    · rw [hp]; exact hpf trivial
    · exact ih hw (by rw [hpred]; exact hf) (by omega) a ha

theorem InvWith.flags_iff (h : InvWith True s as mb) :
    ∀ a ∈ as, prevFreeBit (s.arena.mem a) = predFree s.arena.mem (prevPhysical s.arena.mem a) :=
  ThreadArena.flags_iff h.tiled.walk h.tiled.flags h.tiled.pos

theorem inductive_flags :
    (system.guard fun s l => CanaryInside s l ∧ GrowKeepsFlag s l).Inductive (Inv True) where
  init s hs := by
    obtain ⟨raw, m, hr, h8, rfl⟩ := hs
    exact init_inv m hr h8
  step s l s' h hs := by
    obtain ⟨⟨hpre, rfl⟩, hc, hg⟩ := hs
    refine step_inv h hpre hc fun _ ptr b newSize canary hl habs => ?_
    subst hl
    -- in the drained arena the bit says what the predecessor is
    obtain ⟨as, mb, hi⟩ := h
    obtain ⟨as₁, mb₁, h₁, -⟩ := reapIfAny_inv hi
    have hb := (mem_usedOf.mp (h₁.live_used hpre.1)).1
    exact (h₁.flags_iff b hb).trans (hg habs)

/-- The validator's verdict together with the PREV_FREE reading of it. -/
def Validates (s : Sys) : Prop :=
  tlsfArenaValidate s.arena = true ∧
    ∃ as, Walk s.arena.mem 0 s.arena.raw as s.arena.sentinel ∧
      ∀ a ∈ as, prevFreeBit (s.arena.mem a) = predFree s.arena.mem (prevPhysical s.arena.mem a)

/-- **The validator holds** in every state of every run whose absorbing grows
have no free predecessor. -/
theorem validate_on_run {s : Sys}
    (hr : (system.guard fun s l => CanaryInside s l ∧ GrowKeepsFlag s l).Reachable s) :
    Validates s := by
  obtain ⟨as, mb, h⟩ := inductive_flags.reachable hr
  exact ⟨validate_of_inv h, as, h.tiled.walk, h.flags_iff⟩

theorem validate_on_run_after_grow :
    Validates ([.alloc 192, .alloc 192, .grow 4472 4288 100 true].foldl Sys.next fresh) :=
  validate_on_run (fresh_reachable.run (by decide +kernel))

/-! ## The failing grow -/

/-- **Defect.** Two blocks of 192 bytes; the first is released; the second, now
with a free block on either side, is grown in place to 100 payload bytes. It no
longer says that its predecessor is FREE, and the validator returns false. -/
theorem validate_false_after_grow :
    ∃ s, (system.guard CanaryInside).Reachable s ∧ tlsfArenaValidate s.arena = false :=
  ⟨[.alloc 192, .alloc 192, .free 4096 true, .grow 4472 4288 100 false].foldl Sys.next fresh,
    fresh_reachable.run (by decide +kernel), by decide +kernel⟩

end Cmem.L2.ThreadArena

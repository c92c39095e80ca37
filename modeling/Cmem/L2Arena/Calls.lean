import Cmem.L2Arena.Payload
import Cmem.L2Tlsf.Calls

/-!
# Whole calls on a per-thread arena

As on the shared tier, a call reads the header of a block back from memory. A block
behind an aligned pointer has its header elsewhere; `aligned` lists these, and the
operations of `Run` are what is done to them. The owner retires the arena once, with
blocks that are still live or not; from then on they are only resized where they are
and freed.

`Headed k s`: the arena is sound, and the header of each live block that is not
aligned says what it should. With `k` that is the whole span, for which an allocation
must not leave a rest in its block (`NoSlack`) and the owner's grow must not be one of a
pool with canaries (`NoCanaryGrow`).
-/
namespace Cmem.L2.ThreadArena

open SharedTlsf (Cfg stampBlock restamp)

/-- mirrors `tlsf_arena_retire`, src/src/cmem_slab.c:237-252 -/
def tlsfArenaRetire (A : Arena) : Arena :=
  let A := { A with retired := true }
  if A.liveBytes = 0 ∧ ¬ A.cleanupClaimed then
    tlsfArenaCleanup { A with cleanupClaimed := true }
  else A

structure Tenant where
  sys : Sys
  aligned : List Nat

/-- `owner`: the calling thread is attached to the arena. `align`: the last part of
`mp_aligned_alloc`; `other`: a call on an aligned block. -/
inductive Call where
  | alloc (size : Nat) (c : Cfg)
  | free (b : Nat) (owner : Bool)
  | reap
  | realloc (b newSize : Nat) (canary owner : Bool)
  | retire
  | write (b a v : Nat)
  | align (b : Nat)
  | other (l : Op)

/-- The calls on aligned blocks; only the owner of an arena that is not retired grows one. -/
def Tenant.OnAligned (s : Tenant) : Op → Prop
  | .free b _ | .write b _ _ => b ∈ s.aligned
  | .grow _ b _ _ => b ∈ s.aligned ∧ s.sys.arena.retired = false
  | .alloc _ | .reap => False

/-- Only the owner of an arena that is not retired allocates from it, reaps it and retires it. -/
def Tenant.pre (s : Tenant) : Call → Prop
  | .alloc _ _ | .reap | .retire => s.sys.arena.retired = false
  | .free b _ | .realloc b _ _ _ | .align b => b ∈ s.sys.live ∧ b ∉ s.aligned
  | .write b a _ =>
    b ∈ s.sys.live ∧ b ∉ s.aligned ∧ b + blockHdr + hdrSize ≤ a ∧ a < b + span s.sys.arena.mem b
  | .other l => s.OnAligned l ∧ s.sys.pre l

/-- The arena's branch of `mp_alloc_internal`, src/src/cmem_alloc.c:331-361, and the others
likewise; `self` is the address of the `tlsf_arena_t`. A `realloc` that cannot be done in place
goes on with `alloc`, `write` and `free`. -/
def Tenant.next (self : Nat) (s : Tenant) : Call → Tenant
  | .alloc size c =>
    let total := totalNeeded size c.canary.toNat
    let r := tlsfArenaAlloc s.sys.arena total
    if r.2 = 0 then ⟨⟨r.1, s.sys.live⟩, s.aligned⟩
    else ⟨⟨{ r.1 with mem := stampBlock c r.1.mem self r.2 size total 3 }, r.2 :: s.sys.live⟩,
      s.aligned.filter (· ≠ r.2)⟩
  | .free b owner => { s with sys := s.sys.next (.free b owner) }
  | .reap => { s with sys := s.sys.next .reap }
  | .realloc b newSize canary owner =>
    if newSize ≤ usableSize s.sys.arena.mem b then
      { s with sys := { s.sys with arena := { s.sys.arena with
          mem := restamp ⟨canary, false, false⟩ s.sys.arena.mem (b + blockHdr) newSize } } }
    else if owner && !s.sys.arena.retired then
      { s with sys := s.sys.next (.grow (b + blockHdr + hdrSize) b newSize canary) }
    else s
  | .retire => { s with sys := { s.sys with arena := tlsfArenaRetire s.sys.arena } }
  | .write b a v => { s with sys := s.sys.next (.write b a v) }
  | .align b => { s with aligned := b :: s.aligned }
  | .other l => { s with sys := s.sys.next l }

/-- A fresh arena in the address space. -/
def Tenant.Fresh (s : Tenant) : Prop :=
  ∃ raw m, 0 < raw ∧ 8 ∣ raw ∧ raw + arenaDefaultSize < sizeMod ∧
  s = ⟨⟨tlsfArenaInit raw m, []⟩, []⟩

/-- No total wraps. -/
def Sized : Call → Prop
  | .alloc size c => 184 + size + c.canary.toNat + 7 < sizeMod
  | .realloc _ newSize canary _ => 184 + newSize + canary.toNat + 7 < sizeMod
  | _ => True

/-- The canary byte of a `mp_realloc` that leaves the block as it is lands in that block, and
so does that of a grow of an aligned block. -/
def CanaryOwn (s : Tenant) : Call → Prop
  | .realloc b newSize canary _ =>
    canary = true → newSize ≤ usableSize s.sys.arena.mem b → 184 + newSize < span s.sys.arena.mem b
  | .other l => CanaryInside s.sys l
  | _ => True

/-- The free block that an allocation takes is cut, or has exactly the size needed. -/
def NoSlack (s : Tenant) : Call → Prop
  | .alloc size c =>
    let A := reapIfAny s.sys.arena
    let total := totalNeeded size c.canary.toNat
    firstFit A.mem total A.size A.freeList ≠ 0 →
    Splits A.mem total (firstFit A.mem total A.size A.freeList)
  | _ => True

/-- With a canary the owner finds no room to grow in place. -/
def NoCanaryGrow (s : Tenant) : Call → Prop
  | .realloc b newSize canary owner => canary = true → owner = true → s.sys.arena.retired = false →
      usableSize s.sys.arena.mem b < newSize →
      span (reapIfAny s.sys.arena).mem b < totalNeeded newSize 1 ∧
          growable (reapIfAny s.sys.arena) b (totalNeeded newSize 1) = false
  | _ => True

instance decOnAligned (s : Tenant) : ∀ l, Decidable (s.OnAligned l)
  | .free b _ | .write b _ _ => inferInstanceAs (Decidable (b ∈ s.aligned))
  | .grow _ b _ _ => inferInstanceAs (Decidable (b ∈ s.aligned ∧ s.sys.arena.retired = false))
  | .alloc _ | .reap => .isFalse id

instance decCallPre (s : Tenant) : ∀ l, Decidable (s.pre l)
  | .alloc _ _ | .reap | .retire => inferInstanceAs (Decidable (s.sys.arena.retired = false))
  | .free b _ | .realloc b _ _ _ | .align b =>
    inferInstanceAs (Decidable (b ∈ s.sys.live ∧ b ∉ s.aligned))
  | .write b a _ => inferInstanceAs (Decidable
      (b ∈ s.sys.live ∧ b ∉ s.aligned ∧ b + blockHdr + hdrSize ≤ a ∧
        a < b + span s.sys.arena.mem b))
  | .other l => inferInstanceAs (Decidable (s.OnAligned l ∧ s.sys.pre l))

instance decSized : ∀ l, Decidable (Sized l)
  | .alloc size c => inferInstanceAs (Decidable (184 + size + c.canary.toNat + 7 < sizeMod))
  | .realloc _ newSize canary _ =>
    inferInstanceAs (Decidable (184 + newSize + canary.toNat + 7 < sizeMod))
  | .free .. | .reap | .retire | .write .. | .align _ | .other _ => .isTrue trivial

instance decCanaryOwn (s : Tenant) : ∀ l, Decidable (CanaryOwn s l)
  | .realloc b newSize canary _ => inferInstanceAs (Decidable
      (canary = true → newSize ≤ usableSize s.sys.arena.mem b →
        184 + newSize < span s.sys.arena.mem b))
  | .other l => inferInstanceAs (Decidable (CanaryInside s.sys l))
  | .alloc .. | .free .. | .reap | .retire | .write .. | .align _ => .isTrue trivial

instance decNoSlack (s : Tenant) : ∀ l, Decidable (NoSlack s l)
  | .alloc size c => inferInstanceAs (Decidable
      (firstFit (reapIfAny s.sys.arena).mem (totalNeeded size c.canary.toNat)
        (reapIfAny s.sys.arena).size
        (reapIfAny s.sys.arena).freeList ≠ 0 →
      Splits (reapIfAny s.sys.arena).mem (totalNeeded size c.canary.toNat)
        (firstFit (reapIfAny s.sys.arena).mem (totalNeeded size c.canary.toNat)
          (reapIfAny s.sys.arena).size
          (reapIfAny s.sys.arena).freeList)))
  | .free .. | .reap | .realloc .. | .retire | .write .. | .align _ | .other _ => .isTrue trivial

instance decNoCanaryGrow (s : Tenant) : ∀ l, Decidable (NoCanaryGrow s l)
  | .realloc b newSize canary owner => inferInstanceAs (Decidable
      (canary = true → owner = true → s.sys.arena.retired = false →
        usableSize s.sys.arena.mem b < newSize →
        span (reapIfAny s.sys.arena).mem b < totalNeeded newSize 1 ∧
          growable (reapIfAny s.sys.arena) b (totalNeeded newSize 1) = false))
  | .alloc .. | .free .. | .reap | .retire | .write .. | .align _ | .other _ => .isTrue trivial

/-! ## The invariant -/

/-- The arena without its retirement. -/
def active (A : Arena) : Arena := { A with retired := false }

structure Headed (k : Prop) (s : Tenant) : Prop where
  inv : Inv False ⟨active s.sys.arena, s.sys.live⟩
  space : s.sys.arena.raw + arenaDefaultSize < sizeMod
  stamp : ∀ b ∈ s.sys.live, b ∉ s.aligned → Stamp k s.sys.arena.mem b

/-- ... or everything is freed and the arena is out of use. -/
def TenantInv (k : Prop) (s : Tenant) : Prop :=
  Headed k s ∨ s.sys.live = [] ∧ s.sys.arena.retired = true

section
variable {k : Prop} {s : Tenant} {A A' : Arena} {m m' : Mem} {live as mb : List Nat}
  {a b newSize : Nat}
  {canary owner : Bool}

theorem active_eq (h : A.retired = false) : active A = A := by
  cases A
  cases h
  rfl

theorem InvWith.apart {s : Sys} (h : InvWith k s as mb) (ha : a ∈ s.live) (hb : b ∈ s.live)
    (hne : a ≠ b) : a + span s.arena.mem a ≤ b ∨ b + span s.arena.mem b ≤ a :=
  spans_apart h.tiled.walk.pairwise (mem_usedOf.mp (h.live_used ha)).1
    (mem_usedOf.mp (h.live_used hb)).1 hne

theorem Headed.bounds (h : Headed k s) (hb : b ∈ s.sys.live) :
    8 ∣ b ∧ 8 ∣ span s.sys.arena.mem b ∧ b + span s.sys.arena.mem b < sizeMod := by
  obtain ⟨as, mb, hi⟩ := h.inv
  have hm := (mem_usedOf.mp (hi.live_used hb)).1
  obtain ⟨-, h2, -, h4⟩ := hi.tiled.mem_bounds hm
  have h5 := hi.sent
  have h6 := hi.size
  have h7 := h.space
  dsimp only [active] at h2 h4 h5 h6 h7
  exact ⟨hi.tiled.aligned hi.align hm, h4, by omega⟩

/-- Writes into one live block. -/
theorem Headed.write (h : Headed k s) (hb : b ∈ s.sys.live)
    (hw : ∀ x, x < b + 32 ∨ b + span s.sys.arena.mem b ≤ x → m' x = s.sys.arena.mem x)
    (hst : b ∉ s.aligned → Stamp k m' b) :
    Headed k { s with sys := { s.sys with arena := { s.sys.arena with mem := m' } } } := by
  obtain ⟨as, mb, hi⟩ := h.inv
  refine ⟨⟨as, mb, payload_inv hi hb hw⟩, h.space, fun a ha hna => ?_⟩
  by_cases e : a = b
  · rw [e] at hna ⊢
    exact hst hna
  · have hst := h.stamp a ha hna
    have hroom := hst.room
    have hap := hi.apart ha hb e
    unfold blockHdr hdrSize at hroom
    dsimp only [active] at hap
    have hword : ∀ i, i < span s.sys.arena.mem a → m' (a + i) = s.sys.arena.mem (a + i) :=
      fun i hi' =>
      hw _ (by omega)
    refine hst.congr ?_ ?_ (congrArg blockSize (hword 0 (by omega)))
    · unfold requestedSize blockHdr
      rw [Nat.add_assoc]
      exact hword _ (by omega)
    · unfold usableSize blockHdr
      rw [Nat.add_assoc]
      exact hword _ (by omega)

/-- A header in a payload that an operation leaves alone. -/
theorem stamp_payload (h : Stamp k A.mem a) (ha : a ∈ live)
    (hq : ∀ x, Payload A live x → A'.mem x = A.mem x) (hs : span A'.mem a = span A.mem a) :
    Stamp k A'.mem a := by
  have hroom := h.room
  unfold blockHdr hdrSize at hroom
  refine h.congr (hq _ (.inl ⟨a, ha, ?_, ?_⟩)) (hq _ (.inl ⟨a, ha, ?_, ?_⟩)) hs <;>
    unfold blockHdr <;> omega

theorem Headed.of {aligned : List Nat} (h : Inv False ⟨A, live⟩)
    (hsp : A.raw + arenaDefaultSize < sizeMod) (hst : ∀ b ∈ live, b ∉ aligned → Stamp k A.mem b) :
    Headed k ⟨⟨A, live⟩, aligned⟩ := by
  obtain ⟨as, mb, hi⟩ := h
  refine ⟨⟨as, mb, ?_⟩, hsp, hst⟩
  rw [active_eq hi.active]
  exact hi

/-- The header of `b` was the last to be written. -/
theorem Headed.headed {S : Sys} {al al' : List Nat} (h : Headed k ⟨S, b :: al⟩)
    (hst : b ∉ al' → Stamp k S.arena.mem b) (hal : ∀ a ∈ al, a ≠ b → a ∈ al') :
    Headed k ⟨S, al'⟩ := by
  refine ⟨h.inv, h.space, fun a ha hna => ?_⟩
  by_cases e : a = b
  · rw [e] at hna ⊢
    exact hst hna
  · refine h.stamp a ha fun hm => hna (hal a ?_ e)
    exact (List.mem_cons.mp hm).resolve_left e

/-! ## Calls -/

/-- In a state with the owner attached. -/
theorem Headed.inv_of (h : Headed k s) (hr : s.sys.arena.retired = false) :
    ∃ as mb, InvWith False s.sys as mb := by
  obtain ⟨as, mb, hi⟩ := h.inv
  rw [active_eq hr] at hi
  exact ⟨as, mb, hi⟩

theorem alloc_raw (total : Nat) (h : InvWith False s.sys as mb) :
    (tlsfArenaAlloc s.sys.arena total).1.raw = s.sys.arena.raw := by
  unfold tlsfArenaAlloc
  dsimp only
  have hraw := (reapIfAny_region h.filled).1
  split
  · exact hraw
  · exact (carve_kept ..).raw.trans hraw

theorem Headed.alloc (h : Headed k s) (hr : s.sys.arena.retired = false) {size self : Nat} {c : Cfg}
    (hsane : 184 + size + c.canary.toNat + 7 < sizeMod) (hk : k → NoSlack s (.alloc size c)) :
    Headed k (s.next self (.alloc size c)) := by
  obtain ⟨as, mb, hi⟩ := h.inv_of hr
  have hle := le_totalNeeded size c.canary.toNat
  have hd := totalNeeded_dvd size c.canary.toNat
  have hroom := (totalNeeded_bounds hsane).1
  have hinv := alloc_inv hi hle hd
  obtain ⟨hq, hs, hnew⟩ := alloc_payload hi hle hd
  have hraw := alloc_raw (totalNeeded size c.canary.toNat) hi
  have hfit : k → (tlsfArenaAlloc s.sys.arena (totalNeeded size c.canary.toNat)).2 ≠ 0 →
      Splits (reapIfAny s.sys.arena).mem (totalNeeded size c.canary.toNat)
        (tlsfArenaAlloc s.sys.arena (totalNeeded size c.canary.toNat)).2 := by
    intro hk' h0
    have hk := hk hk'
    unfold NoSlack at hk
    unfold tlsfArenaAlloc at h0 ⊢
    dsimp only at hk h0 ⊢
    split at h0
    · exact absurd rfl h0
    · rename_i hne
      rw [if_neg hne]
      exact hk hne
  have hsp := h.space
  have hst := h.stamp
  unfold Tenant.next
  dsimp only [Sys.next] at hinv ⊢
  generalize totalNeeded size c.canary.toNat = total at *
  generalize tlsfArenaAlloc s.sys.arena total = r at *
  obtain ⟨A, b⟩ := r
  dsimp only at *
  have hold : ∀ a ∈ s.sys.live, a ∉ s.aligned → Stamp k A.mem a := fun a ha hna =>
    stamp_payload (hst a ha hna) ha hq (hs a ha)
  by_cases hb0 : b = 0
  · rw [if_pos hb0] at hinv ⊢
    exact .of hinv (by omega) hold
  rw [if_neg hb0] at hinv ⊢
  obtain ⟨hle', hex⟩ := hnew hb0
  -- the other blocks, before the header is stamped
  have hw : Headed False ⟨⟨A, b :: s.sys.live⟩, b :: s.sys.live⟩ :=
    .of hinv (by omega) fun a ha hna => absurd ha hna
  obtain ⟨h8, hs8, hmod⟩ := hw.bounds (b := b) List.mem_cons_self
  dsimp only at hs8 hmod
  have hframe : ∀ x, x < b + 32 ∨ b + span A.mem b ≤ x →
    stampBlock c A.mem self b size total 3 x = A.mem x :=
    fun x hx => SharedTlsf.stampBlock_frame h8 hd hroom (by omega) (by omega)
  obtain ⟨z1, z2⟩ := SharedTlsf.stampBlock_sizes (m := A.mem) (t := self) c 3 h8 hd hroom (by omega)
  have hsp' : span (stampBlock c A.mem self b size total 3) b = span A.mem b :=
    SharedTlsf.span_of_write hframe
  obtain ⟨as₁, mb₁, hi₁⟩ := hinv
  have hbl : b ∉ s.sys.live := (List.nodup_cons.mp (List.nodup_append.mp hi₁.nodup).1).1
  have hpre : Headed k ⟨⟨A, b :: s.sys.live⟩, b :: s.aligned⟩ := by
    refine .of ⟨as₁, mb₁, hi₁⟩ (by omega) fun a ha hna => ?_
    rw [List.mem_cons, not_or] at hna
    obtain ⟨hne, hna⟩ := hna
    exact hold a ((List.mem_cons.mp ha).resolve_left hne) hna
  have hpost := hpre.write (b := b) List.mem_cons_self hframe fun hn => absurd List.mem_cons_self hn
  refine hpost.headed (fun _ => ?_) fun a ha e => List.mem_filter.mpr ⟨ha, by simpa using e⟩
  exact SharedTlsf.Stamped.stamp ⟨z1, z2, fun hp => hsp'.trans (hex hp)⟩ (by omega)
    (hle'.trans_eq hsp'.symm)
    fun hk' => hfit hk' hb0

theorem Headed.reap (h : Headed k s) (hr : s.sys.arena.retired = false) :
    Headed k { s with sys := s.sys.next .reap } := by
  obtain ⟨as, mb, hi⟩ := h.inv_of hr
  obtain ⟨as', hi', hs⟩ := reap_inv hi
  have hraw : (tlsfArenaReap s.sys.arena).raw = s.sys.arena.raw := (reap_kept hi.filled).raw
  refine .of ⟨as', [], hi'⟩ (by rw [hraw]; exact h.space) fun a ha hna => ?_
  exact stamp_payload (h.stamp a ha hna) ha (fun x hx => reap_quiet hi.filled hx) (hs a ha)

theorem Headed.reapIfAny (h : Headed k s) (hr : s.sys.arena.retired = false) :
    Headed k ⟨⟨reapIfAny s.sys.arena, s.sys.live⟩, s.aligned⟩ := by
  unfold ThreadArena.reapIfAny
  split
  · exact h.reap hr
  · exact h

theorem stampHeader_sizes (newSize usable : Nat) (canary : Bool) (h8 : 8 ∣ b)
    (hmod : b + blockHdr + hdrSize + newSize < sizeMod) :
    requestedSize (stampHeader m (b + blockHdr + hdrSize) newSize usable canary) b = newSize ∧
      usableSize (stampHeader m (b + blockHdr + hdrSize) newSize usable canary) b = usable := by
  have hB : blockHdr = 32 := rfl
  have hH : hdrSize = 152 := rfl
  have hset : ∀ x, x < b + 184 → stampHeader m (b + blockHdr + hdrSize) newSize usable canary x =
      ((m.set (b + 40) newSize).set (b + 48) usable) x := by
    intro x hx
    unfold stampHeader
    rw [sizeAdd_of_lt hmod, Nat.add_sub_cancel, hB]
    split
    · exact Mem.setByte_ne _ _ (by omega)
    · rfl
  refine ⟨(hset _ (by omega)).trans ?_, (hset _ (by omega)).trans ?_⟩
  · rw [Mem.set_ne _ _ (by omega), hB]
    exact Mem.set_self ..
  · rw [hB]
    exact Mem.set_self ..

theorem grown_raw (newSize : Nat) (canary : Bool) (h : InvWith False s.sys as mb)
    (hb : b ∈ s.sys.live) : (grown s.sys.arena b newSize canary).raw = s.sys.arena.raw := by
  have hreg := (reapIfAny_region h.filled).1
  obtain ⟨as₁, mb₁, h₁, -⟩ := reapIfAny_inv h
  unfold grown
  dsimp only
  split
  · rename_i hc
    obtain ⟨-, -, -, hk, -⟩ :=
      absorbNext_spec h₁.tiled (h₁.live_used hb) (totalNeeded_dvd ..) hc.1 hc.2 False.elim
    exact hk.raw.trans hreg
  · exact hreg

theorem Headed.grown (h : Headed k s) (newSize : Nat) (canary : Bool) (hb : b ∈ s.sys.live)
    (hr : s.sys.arena.retired = false) :
    Headed k ⟨⟨ThreadArena.grown s.sys.arena b newSize canary, s.sys.live⟩, b :: s.aligned⟩ := by
  obtain ⟨as, mb, hi⟩ := h.inv_of hr
  obtain ⟨hq, hs⟩ := grown_payload newSize canary hi hb
  obtain ⟨hinv, -⟩ := grown_inv newSize canary hi hb False.elim
  have hraw := grown_raw newSize canary hi hb
  have hsp := h.space
  refine .of hinv (by omega) fun a ha hna => ?_
  rw [List.mem_cons, not_or] at hna
  obtain ⟨hne, hna⟩ := hna
  exact stamp_payload (h.stamp a ha hna) ha hq (hs a ha hne)

/-- The owner's in-place grow. -/
theorem Headed.grow (h : Headed k s) (hb : b ∈ s.sys.live) (hr : s.sys.arena.retired = false)
    (hsane : 184 + newSize + canary.toNat + 7 < sizeMod)
    (hk : k → canary = true →
    span (ThreadArena.reapIfAny s.sys.arena).mem b < totalNeeded newSize 1 ∧
      growable (ThreadArena.reapIfAny s.sys.arena) b (totalNeeded newSize 1) = false) :
    Headed k { s with sys := s.sys.next (.grow (b + blockHdr + hdrSize) b newSize canary) } := by
  obtain ⟨as, mb, hi⟩ := h.inv_of hr
  have hB : blockHdr = 32 := rfl
  have hH : hdrSize = 152 := rfl
  unfold Sys.next
  dsimp only
  rw [mpReallocArena_eq]
  split
  swap
  · -- nothing was found
    rename_i hlt
    have hc : ¬ Absorbs s.sys.arena b newSize canary := by
      intro hc
      obtain ⟨as₁, mb₁, h₁, -⟩ := reapIfAny_inv hi
      obtain ⟨-, -, -, -, -, hle, -⟩ :=
        absorbNext_spec h₁.tiled (h₁.live_used hb) (totalNeeded_dvd ..) hc.1 hc.2
        False.elim
      have e : ThreadArena.grown s.sys.arena b newSize canary = absorbNext _ _ _ := if_pos hc
      rw [e] at hlt
      exact hlt hle
    have e : ThreadArena.grown s.sys.arena b newSize canary = ThreadArena.reapIfAny s.sys.arena :=
      if_neg hc
    rw [e]
    exact h.reapIfAny hr
  rename_i hneed
  have hgrown := h.grown newSize canary hb hr
  have hex : k → canary = false := by
    intro hk'
    refine Bool.eq_false_iff.mpr fun hc => ?_
    obtain ⟨h1, h2⟩ := hk hk' hc
    subst hc
    have e : ThreadArena.grown s.sys.arena b newSize true = ThreadArena.reapIfAny s.sys.arena :=
      if_neg fun hc =>
      Bool.false_ne_true (h2.symm.trans hc.2)
    rw [e] at hneed
    exact absurd hneed (Nat.not_le.mpr h1)
  have hbounds := (totalNeeded_bounds hsane).1
  generalize ThreadArena.grown s.sys.arena b newSize canary = A at *
  obtain ⟨h8, hs8, hmod⟩ := hgrown.bounds hb
  dsimp only at hs8 hmod
  rw [sizeSub_of_le (by omega) (by omega)]
  generalize hu : span A.mem b - (blockHdr + hdrSize + canary.toNat) = usable
  have hcan : canary = true → canary.toNat = 1 := fun hc => hc ▸ rfl
  have hw : ∀ x, x < b + 32 ∨ b + span A.mem b ≤ x →
      stampHeader A.mem (b + blockHdr + hdrSize) newSize usable canary x = A.mem x := by
    intro x hx
    refine stampHeader_frame (b + 32) (b + span A.mem b) (by omega) (by omega) (by omega) (by omega)
      (fun hc => ?_) hx
    have := hcan hc
    rw [sizeAdd_of_lt (by omega)]
    omega
  obtain ⟨z1, z2⟩ := stampHeader_sizes (m := A.mem) newSize usable canary h8 (by omega)
  have hsp' :
    span (stampHeader A.mem (b + blockHdr + hdrSize) newSize usable canary) b = span A.mem b :=
    SharedTlsf.span_of_write hw
  refine (hgrown.write hb hw fun hn => absurd List.mem_cons_self hn).headed
    (fun _ => ⟨?_, ?_, fun hk' => ?_⟩)
    fun a ha _ => ha
  · dsimp only
    omega
  · dsimp only
    omega
  · have hc := hex hk'
    subst hc
    rw [Bool.toNat_false] at *
    dsimp only
    omega

theorem spans_nil {l : List Nat} (h : ∀ a ∈ l, 32 ≤ span m a)
    (h0 : (l.map (span m)).sum = 0) : l = [] := by
  cases l with
  | nil => rfl
  | cons a l =>
    have := h a List.mem_cons_self
    rw [List.map_cons, List.sum_cons] at h0
    omega

theorem InvWith.spans {s : Sys} (h : InvWith k s as mb) : ∀ a ∈ s.live, 32 ≤ span s.arena.mem a :=
  fun _ ha =>
  (h.tiled.mem_bounds (mem_usedOf.mp (h.live_used ha)).1).2.2.1

/-- The mailbox takes a block whether the arena is retired or not. -/
theorem settle_unretired (sp : Nat) (h : ¬ (A.liveBytes = sp ∧ A.retired ∧ ¬ A.cleanupClaimed)) :
    active (settle A sp) = settle (active A) sp := by
  unfold settle
  rw [if_neg h, if_neg fun hc => Bool.false_ne_true hc.2.1]
  dsimp only [active]
  generalize sizeSub A.liveBytes sp = n
  rfl

theorem recount_raw (n : Nat) (c : Bool) : (recount A n c).raw = A.raw := rfl

theorem recount_mem (n : Nat) (c : Bool) : (recount A n c).mem = A.mem := rfl

theorem cleanup_retired {s : Sys} (n : Nat) (c : Bool) (h : Filled k s as mb) :
    (tlsfArenaCleanup (recount s.arena n c)).retired = s.arena.retired :=
  (reap_kept (h.recount n c)).retired

theorem push_retired (hr : A.retired = true) :
    active (pushOrInsert A b owner) = pushOrInsert (active A) b false := by
  unfold pushOrInsert
  rw [hr, Bool.not_true, Bool.and_false, Bool.false_and, if_neg Bool.false_ne_true,
    if_neg Bool.false_ne_true]
  rfl

theorem Headed.filled (h : Headed k s) : ∃ as mb, Filled False s.sys as mb := by
  obtain ⟨as, mb, hi⟩ := h.inv
  exact ⟨as, mb, hi.tiled.congr rfl rfl rfl rfl (fun _ _ => ⟨rfl, rfl⟩) fun _ _ _ => ⟨rfl, rfl⟩,
    hi.perm, hi.mail⟩

/-- A release that does not clean up. -/
theorem Headed.freed (h : Headed k s) (hb : b ∈ s.sys.live)
    (hc : ¬ ((pushOrInsert s.sys.arena b owner).liveBytes = span s.sys.arena.mem b ∧
      (pushOrInsert s.sys.arena b owner).retired ∧
      ¬ (pushOrInsert s.sys.arena b owner).cleanupClaimed)) :
    Headed k { s with sys := s.sys.next (.free b owner) } := by
  obtain ⟨as, mb, hi⟩ := h.inv
  obtain ⟨as₀, mb₀, hf⟩ := h.filled
  have hq := fun x => free_payload owner hf hb (x := x)
  obtain ⟨as', mb', r⟩ := pushOrInsert_released hf owner hb
  have heq := freeBlock_settle s.sys.arena b owner
  have hn : settle (pushOrInsert s.sys.arena b owner) (span s.sys.arena.mem b) =
      recount (pushOrInsert s.sys.arena b owner) _ _ := if_neg hc
  refine ⟨?_, ?_, fun a ha hna => ?_⟩
  · show Inv False ⟨active (tlsfArenaFreeBlock s.sys.arena b owner), s.sys.live.erase b⟩
    cases hr : s.sys.arena.retired with
    | false =>
      rw [active_eq hr] at hi
      obtain ⟨as₁, mb₁, hi₁⟩ := free_inv owner hi hb
      have hact : (tlsfArenaFreeBlock s.sys.arena b owner).retired = false := hi₁.active
      rw [active_eq hact]
      exact ⟨as₁, mb₁, hi₁⟩
    | true =>
      have hinv := free_inv false hi hb
      have e :
        active (tlsfArenaFreeBlock s.sys.arena b owner) =
          tlsfArenaFreeBlock (active s.sys.arena) b false := by
        rw [heq, settle_unretired _ hc, push_retired hr, freeBlock_settle]
        rfl
      rw [e]
      exact hinv
  · show (tlsfArenaFreeBlock s.sys.arena b owner).raw + _ < _
    rw [heq, hn, recount_raw, r.kept.raw]
    exact h.space
  · have ha' := List.mem_of_mem_erase ha
    have hst := h.stamp a ha' hna
    have hroom := hst.room
    unfold blockHdr hdrSize at hroom
    have hs : span (tlsfArenaFreeBlock s.sys.arena b owner).mem a = span s.sys.arena.mem a := by
      rw [heq, hn, recount_mem]
      exact r.spans a ha
    refine hst.congr (hq _ (.inl ⟨a, ha, ?_, ?_⟩)) (hq _ (.inl ⟨a, ha, ?_, ?_⟩)) hs <;>
      unfold blockHdr <;> omega

/-- A release that cleans up. -/
def LastOut (A : Arena) (b : Nat) (owner : Bool) : Prop :=
  (pushOrInsert A b owner).liveBytes = span A.mem b ∧ (pushOrInsert A b owner).retired ∧
    ¬ (pushOrInsert A b owner).cleanupClaimed

theorem Headed.last_out (h : Headed k s) (hb : b ∈ s.sys.live) (hc : LastOut s.sys.arena b owner) :
    s.sys.live.erase b = [] := by
  obtain ⟨as, mb, hi⟩ := h.inv
  obtain ⟨as₀, mb₀, hf⟩ := h.filled
  obtain ⟨as', mb', r⟩ := pushOrInsert_released hf owner hb
  -- the counter was the span of this block alone
  have hsum : span s.sys.arena.mem b + ((s.sys.live.erase b).map (span s.sys.arena.mem)).sum =
      (s.sys.live.map (span s.sys.arena.mem)).sum := List.sum_map_erase _ hb
  have hbytes : s.sys.arena.liveBytes = (s.sys.live.map (span s.sys.arena.mem)).sum := hi.bytes
  have hl : (pushOrInsert s.sys.arena b owner).liveBytes = s.sys.arena.liveBytes := r.kept.liveBytes
  have h0 : ((s.sys.live.erase b).map (span s.sys.arena.mem)).sum = 0 := by
    have := hc.1
    omega
  exact spans_nil (fun a ha => hi.spans a (List.mem_of_mem_erase ha)) h0

theorem TenantInv.free (h : Headed k s) (hb : b ∈ s.sys.live) :
    TenantInv k { s with sys := s.sys.next (.free b owner) } := by
  by_cases hc : LastOut s.sys.arena b owner
  · obtain ⟨as, mb, hf⟩ := h.filled
    obtain ⟨as', mb', r⟩ := pushOrInsert_released hf owner hb
    refine .inr ⟨h.last_out hb hc, ?_⟩
    show (tlsfArenaFreeBlock s.sys.arena b owner).retired = true
    have hn : settle (pushOrInsert s.sys.arena b owner) (span s.sys.arena.mem b) =
        tlsfArenaCleanup (recount (pushOrInsert s.sys.arena b owner) _ _) := if_pos hc
    rw [freeBlock_settle, hn, cleanup_retired _ _ r.filled]
    exact hc.2.1
  · exact .inl (h.freed hb hc)

theorem Headed.retire (h : Headed k s) (hr : s.sys.arena.retired = false) :
    TenantInv k { s with sys := { s.sys with arena := tlsfArenaRetire s.sys.arena } } := by
  obtain ⟨as, mb, hi⟩ := h.inv_of hr
  unfold tlsfArenaRetire
  dsimp only
  split
  · rename_i hc
    refine .inr ⟨spans_nil hi.spans (hi.bytes.symm.trans hc.1), ?_⟩
    have hf :
      Filled False ⟨{ s.sys.arena with retired := true, cleanupClaimed := true },
        s.sys.live⟩ as mb :=
      ⟨hi.tiled.congr rfl rfl rfl rfl (fun _ _ => ⟨rfl, rfl⟩) fun _ _ _ => ⟨rfl, rfl⟩,
        hi.perm, hi.mail⟩
    exact (reap_kept hf).retired
  · exact .inl ⟨h.inv, h.space, h.stamp⟩

/-- ... of an aligned block, whose header is not at its start. -/
theorem Headed.growAligned (h : Headed k s) (hr : s.sys.arena.retired = false) (hba : b ∈ s.aligned)
    {ptr : Nat} (hpre : s.sys.pre (.grow ptr b newSize canary))
    (hin : CanaryInside s.sys (.grow ptr b newSize canary)) :
    Headed k { s with sys := s.sys.next (.grow ptr b newSize canary) } := by
  obtain ⟨hb, hp1, hp2, hp8⟩ := hpre
  obtain ⟨as, mb, hi⟩ := h.inv_of hr
  have hgrown := h.grown newSize canary hb hr
  obtain ⟨-, hle⟩ := grown_inv newSize canary hi hb False.elim
  have hcan : canary = true → (mpReallocArena s.sys.arena ptr b newSize canary).2 = true →
      b + blockHdr ≤ sizeAdd ptr newSize ∧
        sizeAdd ptr newSize <
          b + span (mpReallocArena s.sys.arena ptr b newSize canary).1.mem b := by
    intro hc
    subst hc
    exact hin
  unfold Sys.next
  dsimp only
  rw [mpReallocArena_eq] at hcan ⊢
  split at hcan
  · rename_i hneed
    rw [if_pos hneed]
    generalize ThreadArena.grown s.sys.arena b newSize canary = A at *
    obtain ⟨h8, hs8, -⟩ := hgrown.bounds hb
    refine (hgrown.write hb ?_ fun hn => absurd List.mem_cons_self hn).headed
      (fun hn => absurd hba hn)
      fun a ha _ => ha
    exact stampHeader_inside hp1 (hp2.trans (Nat.add_le_add_left hle b)) hp8 h8 hs8 fun hc =>
      hcan hc rfl
  · rename_i hneed
    rw [if_neg hneed]
    exact hgrown.headed (fun hn => absurd hba hn) fun a ha _ => ha

/-- A byte behind the headers. -/
theorem Headed.store (h : Headed k s) (hb : b ∈ s.sys.live)
    (hin : b + 32 ≤ a ∧ a < b + span s.sys.arena.mem b)
    (hp : b ∈ s.aligned ∨ b + blockHdr + hdrSize ≤ a) (v : Nat) :
    Headed k { s with sys := s.sys.next (.write b a v) } := by
  obtain ⟨h8, hs8, -⟩ := h.bounds hb
  refine h.write hb (fun x hx => Mem.setByte_ne _ _ (by omega)) fun hna => ?_
  have hst := h.stamp b hb hna
  have hp := hp.resolve_left hna
  unfold blockHdr hdrSize at hp
  refine hst.congr (Mem.setByte_ne _ _ ?_) (Mem.setByte_ne _ _ ?_)
    (congrArg blockSize (Mem.setByte_ne _ _ ?_)) <;> (try unfold blockHdr) <;> omega

theorem Headed.realloc (h : Headed k s) (hb : b ∈ s.sys.live) (hna : b ∉ s.aligned) (self : Nat)
    (hsane : 184 + newSize + canary.toNat + 7 < sizeMod)
    (hc : CanaryOwn s (.realloc b newSize canary owner))
    (hk : k → NoCanaryGrow s (.realloc b newSize canary owner)) :
    Headed k (s.next self (.realloc b newSize canary owner)) := by
  unfold Tenant.next
  dsimp only
  split
  · rename_i hle
    obtain ⟨h8, hs8, hmod⟩ := h.bounds hb
    obtain ⟨hw, hst⟩ :=
      SharedTlsf.restamp_spec (c := ⟨canary, false, false⟩) h8 hs8 hmod (h.stamp b hb hna) hle
      fun hcan => hc hcan hle
    exact h.write hb hw fun _ => hst
  rename_i hgt
  split
  · rename_i ho
    rw [Bool.and_eq_true, Bool.not_eq_true'] at ho
    exact h.grow hb ho.2 hsane fun hk' hcan => hk hk' hcan ho.1 ho.2 (Nat.lt_of_not_le hgt)
  · exact h

/-- **One call on an arena** keeps its blocks and their headers. -/
theorem tenant_step (h : TenantInv k s) {l : Call} {self : Nat} (hpre : s.pre l) (hsz : Sized l)
    (hc : CanaryOwn s l) (hk : k → NoSlack s l ∧ NoCanaryGrow s l) :
    TenantInv k (s.next self l) := by
  rcases h with h | ⟨hnil, hret⟩
  swap
  · -- an arena out of use has no callers
    have hno : ∀ b, b ∉ s.sys.live := fun b hb => by rw [hnil] at hb; exact nomatch hb
    cases l with
    | alloc size c => exact absurd (hret.symm.trans hpre) nofun
    | free b owner => exact absurd hpre.1 (hno b)
    | reap => exact absurd (hret.symm.trans hpre) nofun
    | realloc b newSize canary owner => exact absurd hpre.1 (hno b)
    | retire => exact absurd (hret.symm.trans hpre) nofun
    | write b a v => exact absurd hpre.1 (hno b)
    | align b => exact absurd hpre.1 (hno b)
    | other l =>
      cases l with
      | alloc total => exact hpre.1.elim
      | free b attached => exact absurd hpre.2 (hno b)
      | reap => exact hpre.1.elim
      | grow ptr b newSize canary => exact absurd hpre.2.1 (hno b)
      | write b a v => exact absurd hpre.2.1 (hno b)
  cases l with
  | alloc size c => exact .inl (h.alloc hpre hsz fun hk' => (hk hk').1)
  | free b owner => exact .free h hpre.1
  | reap => exact .inl (h.reap hpre)
  | realloc b newSize canary owner =>
    exact .inl (h.realloc hpre.1 hpre.2 self hsz hc fun hk' => (hk hk').2)
  | retire => exact h.retire hpre
  | write b a v =>
    obtain ⟨hb, -, h1, h2⟩ := hpre
    unfold blockHdr hdrSize at h1
    exact .inl (h.store hb ⟨by omega, h2⟩ (.inr h1) v)
  | align b =>
    exact .inl
      ⟨h.inv, h.space, fun a ha hna => h.stamp a ha fun hm => hna (List.mem_cons_of_mem _ hm)⟩
  | other l =>
    cases l with
    | alloc total => exact hpre.1.elim
    | free b attached => exact .free h hpre.2
    | reap => exact hpre.1.elim
    | grow ptr b newSize canary => exact .inl (h.growAligned hpre.1.2 hpre.1.1 hpre.2 hc)
    | write b a v =>
      obtain ⟨hba, hb, h1, h2⟩ := hpre
      exact .inl (h.store hb ⟨h1, h2⟩ (.inl hba) v)

theorem fresh_inv (h : s.Fresh) : TenantInv k s := by
  obtain ⟨raw, m, hr, h8, hsp, rfl⟩ := h
  exact .inl (.of (init_inv m hr h8) hsp fun _ ha => nomatch ha)

end

end Cmem.L2.ThreadArena

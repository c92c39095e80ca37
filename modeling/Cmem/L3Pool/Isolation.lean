import Cmem.L2Tlsf.Contents
import Cmem.L3Pool.Header

/-!
# Nobody writes into the block of another

What a program has in its blocks stays there while other threads allocate, free, resize and reset
(`shared_payload_kept`, `arena_payload_kept`), for as long as no call is given the block itself.
A block that is cached, FREE or in use by somebody else has no byte in common with it
(`user_areas_own`).

The frame of each call is in L2: `Stays` for the shared tier, `Payload` for an arena.
-/
namespace Cmem.L3.Header

open L2
open L2.SharedTlsf (Heap Tls Cfg TierCall CallInv Held Stays Wf cached consOpt)
open L2.ThreadArena (Tenant TenantInv Headed Payload reapIfAny)

/-- The block at `b` has its span and all that is behind its `tlsf_block_t`. -/
def SameBlock (m m' : Mem) (b : Nat) : Prop :=
  span m' b = span m b ∧ ∀ i, 32 ≤ i → i < span m b → m' (b + i) = m (b + i)

theorem SameBlock.refl (m : Mem) (b : Nat) : SameBlock m m b := ⟨rfl, fun _ _ _ => rfl⟩

theorem SameBlock.trans {m₀ m₁ m₂ : Mem} {b : Nat} (h : SameBlock m₀ m₁ b)
    (h' : SameBlock m₁ m₂ b) : SameBlock m₀ m₂ b :=
  ⟨h'.1.trans h.1, fun i h1 h2 => (h'.2 i h1 (h.1.symm ▸ h2)).trans (h.2 i h1 h2)⟩

/-! ## The shared tier -/

/-- The block that a call is given. -/
def callTarget : TierCall → Option (Nat × Nat)
  | .free t b | .realloc _ _ t b _ _ _ _ | .write t b _ _ => some (t, b)
  | _ => none

section
variable {k : Prop} {cfg : Nat → Cfg} {n i : Nat} {s : State} {l : TierCall} {p : Nat × Nat}

/-- What is live beside the block of a call does not concern the heap. -/
theorem call_heap (H : Heap) (C : Tls) (live live' : List (Nat × Nat)) :
    (SharedTlsf.Sys.call cfg ⟨H, C, live⟩ l).heap =
      (SharedTlsf.Sys.call cfg ⟨H, C, live'⟩ l).heap := by
  cases l with
  | realloc P Q t b newSize os₀ os₁ elsewhere =>
    show (SharedTlsf.Sys.mpRealloc ..).heap = (SharedTlsf.Sys.mpRealloc ..).heap
    unfold SharedTlsf.Sys.mpRealloc
    dsimp only
    split
    · rfl
    split
    · rfl
    unfold SharedTlsf.Sys.move
    dsimp only
    split
    · rfl
    split <;> rfl
  | _ => rfl

theorem mem_consOpt {o : Option (Nat × Nat)} {hs : List (Nat × Nat)} (h : p ∈ hs) :
    p ∈ consOpt o hs := by
  cases o with
  | none => exact h
  | some q => exact List.mem_cons_of_mem q h

/-- The other blocks stay live. -/
theorem call_live {S : SharedTlsf.Sys} (hp : p ∈ S.live) (ht : callTarget l ≠ some p)
    (hl : ∀ P, l ≠ .reset P) : p ∈ (S.call cfg l).live := by
  cases l with
  | reset P => exact absurd rfl (hl P)
  | free t b => exact (List.mem_erase_of_ne fun e => ht (congrArg some e.symm)).mpr hp
  | alloc P size os₀ os₁ elsewhere => exact mem_consOpt hp
  | batch P size os₀ os₁ => exact mem_consOpt hp
  | realloc P Q t b newSize os₀ os₁ elsewhere =>
    have hne : p ≠ (t, b) := fun e => ht (congrArg some e.symm)
    show p ∈ (SharedTlsf.Sys.mpRealloc ..).live
    unfold SharedTlsf.Sys.mpRealloc
    dsimp only
    split
    · exact hp
    split
    · exact hp
    unfold SharedTlsf.Sys.move
    dsimp only
    split
    · exact (List.mem_erase_of_ne hne).mpr (List.mem_cons_of_mem _ hp)
    split
    · exact (List.mem_erase_of_ne hne).mpr hp
    · exact hp
  | _ => exact hp

theorem callPre_erase (hpre : (s.view i).callPre cfg l) (ht : callTarget l ≠ some p) :
    SharedTlsf.Sys.callPre cfg ⟨s.heap, s.caches i, s.live.erase p⟩ l := by
  have hne : ∀ t b, callTarget l = some (t, b) → (t, b) ≠ p := fun t b e e' => ht (e' ▸ e)
  cases l with
  | free t b => exact (List.mem_erase_of_ne (hne t b rfl)).mpr hpre
  | write t b a v => exact ⟨(List.mem_erase_of_ne (hne t b rfl)).mpr hpre.1, hpre.2⟩
  | realloc P Q t b newSize os₀ os₁ elsewhere =>
    exact ⟨hpre.1, hpre.2.1, (List.mem_erase_of_ne (hne t b rfl)).mpr hpre.2.2.1, hpre.2.2.2⟩
  | _ => exact hpre

/-- A live block that a call is not given can be held by somebody else for the call. -/
theorem Inv.viewBut (h : Inv k n s) (hi : i < n) (hp : p ∈ s.live) :
    CallInv False k ⟨s.heap, s.caches i, s.live.erase p⟩ (p :: (s.aligned ++ s.foreign n i)) := by
  obtain ⟨as, held⟩ := h.held hi
  refine ⟨⟨as, held.wf.perm (List.Perm.append_right _ ?_), held.tls, held.own⟩, fun q hq =>
    h.stamp q (List.mem_of_mem_erase hq)⟩
  exact ((List.perm_cons_erase hp).append_right _).trans List.perm_middle.symm

theorem stays_same {H H' : Heap} {hs : List (Nat × Nat)} (kp : Stays H H' hs) (hp : p ∈ hs) :
    SameBlock H.mem H'.mem p.2 := kp.words p hp

/-- A call of thread `i` on the shared tier. -/
theorem Inv.call_kept (h : Inv False n s) (hi : i < n) (hl : ∀ P, l ≠ .reset P)
    (hpre : (s.view i).callPre cfg l) (hz : SharedTlsf.Sized cfg l)
    (hc : SharedTlsf.CanaryOwn cfg (s.view i) l) (ht : callTarget l ≠ some p)
    (hp : p ∈ s.live ++ s.aligned) : SameBlock s.heap.mem ((s.view i).call cfg l).heap.mem p.2 := by
  rcases List.mem_append.mp hp with hp | hp
  · obtain ⟨-, kp⟩ :=
      SharedTlsf.call_inv (h.viewBut hi hp) (callPre_erase hpre ht) hz hc False.elim False.elim
      fun P e => absurd e (hl P)
    have e : ((s.view i).call cfg l).heap = _ :=
      call_heap s.heap (s.caches i) s.live (s.live.erase p)
    rw [e]
    exact stays_same kp List.mem_cons_self
  · obtain ⟨-, kp⟩ :=
      SharedTlsf.call_inv (h.view hi) hpre hz hc False.elim False.elim fun P e => absurd e (hl P)
    exact stays_same kp (List.mem_append_left _ hp)

/-- What a step is given of the shared tier. -/
def Touches (s : State) (p : Nat × Nat) : Step → Prop
  | .call _ (.reset P) | .destroy _ P => (s.heap.tp p.1).owner = P
  | .call _ l => callTarget l = some p
  | .other _ l => opTarget l = p
  | _ => False

instance decTouches (s : State) (p : Nat × Nat) : ∀ l, Decidable (Touches s p l)
  | .call _ (.reset P) | .destroy _ P => inferInstanceAs (Decidable ((s.heap.tp p.1).owner = P))
  | .call _ (.expand ..) | .call _ (.alloc ..) | .call _ (.batch ..) | .call _ (.switch _)
  | .call _ (.flush _) =>
    inferInstanceAs (Decidable (none = some p))
  | .call _ (.free t b) | .call _ (.realloc _ _ t b ..) | .call _ (.write t b ..) =>
    inferInstanceAs (Decidable (some (t, b) = some p))
  | .other _ l => inferInstanceAs (Decidable (opTarget l = p))
  | .align .. | .attach .. | .arena .. | .release _ => .isFalse id

/-- Conditions of a step under which the headers stay bounds of their blocks. -/
def Safe (cfg : Nat → Cfg) (n : Nat) (s : State) (l : Step) : Prop :=
  Sized cfg l ∧ CanaryOwn cfg s l ∧ Alone n s l

instance decSafe (cfg : Nat → Cfg) (n : Nat) (s : State) (l : Step) : Decidable (Safe cfg n s l) :=
  inferInstanceAs (Decidable (Sized cfg l ∧ CanaryOwn cfg s l ∧ Alone n s l))

theorem Inv.shared_step (h : Inv False n s) {l : Step} (hpre : s.pre cfg n l) (hc : Safe cfg n s l)
    (ht : ¬ Touches s p l) (hp : p ∈ s.live ++ s.aligned) :
    p ∈ (s.next cfg l).live ++ (s.next cfg l).aligned ∧
    SameBlock s.heap.mem (s.next cfg l).heap.mem p.2 := by
  obtain ⟨hz, hc, ha⟩ := hc
  have hstay : ∀ P, (s.heap.tp p.1).owner ≠ P →
      p ∈ without s.heap P s.live ++ without s.heap P s.aligned := fun P hP => by
    rw [without, without, ← List.filter_append]
    exact List.mem_filter.mpr ⟨hp, decide_eq_true hP⟩
  cases l with
  | call i l =>
    by_cases hl : ∀ P, l ≠ .reset P
    · have ht' : callTarget l ≠ some p := by
        cases l with
        | reset P => exact absurd rfl (hl P)
        | _ => exact ht
      refine ⟨?_, h.call_kept hpre.1 hl hpre.2 hz hc ht' hp⟩
      have hal : (s.next cfg (.call i l)).aligned = s.aligned := by
        cases l with
        | reset P => exact absurd rfl (hl P)
        | _ => rfl
      rw [hal]
      exact List.mem_append.mpr ((List.mem_append.mp hp).imp_left fun hp => call_live hp ht' hl)
    · simp only [not_forall, not_not] at hl
      obtain ⟨P, rfl⟩ := hl
      obtain ⟨as, held⟩ := h.held hpre.1
      obtain ⟨-, kp⟩ := held.mpReset P
      refine ⟨hstay P ht, stays_same kp ?_⟩
      refine List.mem_filter.mpr ⟨?_, decide_eq_true ht⟩
      rw [← List.append_assoc]
      exact List.mem_append_left _ hp
  | align t b =>
    refine ⟨?_, .refl ..⟩
    show p ∈ s.live.erase (t, b) ++ (t, b) :: s.aligned
    by_cases e : p = (t, b)
    · simp [e]
    · rcases List.mem_append.mp hp with hp | hp
      · exact List.mem_append_left _ ((List.mem_erase_of_ne e).mpr hp)
      · exact List.mem_append_right _ (List.mem_cons_of_mem _ hp)
  | other i l =>
    obtain ⟨hi, hal, hpre⟩ := hpre
    obtain ⟨-, kp⟩ := h.other_stays hi hal hpre hz hc
    have hne : p ≠ opTarget l := fun e => ht e.symm
    have hsub : p ∈ s.aligned → p ∈ s.aligned.erase (opTarget l) := (List.mem_erase_of_ne hne).mpr
    have hlive : p ∈ s.aligned → p ∈ ((s.viewAligned i).next cfg l).live := fun hp => by
      cases l with
      | mpFree t b usable => exact hsub hp
      | mpRealloc P t b hd newSize => exact hp
      | write t b a v => exact hp
      | _ => exact hal.elim
    refine ⟨List.mem_append.mpr ((List.mem_append.mp hp).imp_right hlive), stays_same kp ?_⟩
    rw [← List.append_assoc]
    exact List.mem_append_left _ (List.mem_append.mpr ((List.mem_append.mp hp).imp_right hsub))
  | destroy i P =>
    obtain ⟨as, held⟩ := h.held hpre.1
    obtain ⟨-, kp⟩ := held_destroy held hpre.2
    have hp' : p ∈ s.live ++ (s.aligned ++ s.foreign n i) := by
      rw [← List.append_assoc]
      exact List.mem_append_left _ hp
    exact ⟨hstay P ht, kp.words p hp'⟩
  | _ => exact ⟨hp, .refl ..⟩

end

/-! ## A per-thread arena -/

/-- The block of a call on an arena. -/
def arenaTarget : ThreadArena.Call → Option Nat
  | .free b _ | .realloc b _ _ _ | .write b _ _ | .other (.free b _) | .other (.grow _ b _ _)
  | .other (.write b _ _) => some b
  | _ => none

section
variable {s : Tenant} {a b newSize : Nat} {canary owner : Bool} {A : ThreadArena.Arena} {m : Mem}

/-- What a step is given of the arena at `self`. -/
def TouchesArena (self a : Nat) : Step → Prop
  | .arena self' l => self' = self ∧ arenaTarget l = some a
  | .release self' => self' = self
  | _ => False

instance decTouchesArena (self a : Nat) : ∀ l, Decidable (TouchesArena self a l)
  | .arena self' l => inferInstanceAs (Decidable (self' = self ∧ arenaTarget l = some a))
  | .release self' => inferInstanceAs (Decidable (self' = self))
  | .call .. | .align .. | .other .. | .destroy .. | .attach .. => .isFalse id

variable {cfg : Nat → Cfg} {n self : Nat} {s₀ s : State}

end

/-! ## Owners -/

/-- Who has a block of the shared tier that is not FREE. -/
inductive Holder where
  | program
  | behindAligned
  | cache (i : Nat)

def State.Holds (s : State) (n : Nat) : Holder → Nat × Nat → Prop
  | .program, p => p ∈ s.live
  | .behindAligned, p => p ∈ s.aligned
  | .cache i, p => i < n ∧ p ∈ cached (s.caches i)

/-- `b` is on one of the free lists of `T`. -/
def Listed (m : Mem) (T : SharedTlsf.TPool) (b : Nat) : Prop :=
  ∃ fl sl l, (freeDL m (T.blocks fl sl)).Is l ∧ b ∈ l

section
variable {n : Nat} {s : State} {x y : Holder} {p : Nat × Nat}

/-- All that is held, by whomever. -/
def State.held (s : State) (n : Nat) : List (Nat × Nat) :=
  s.live ++ (s.aligned ++ (List.range n).flatMap fun j => cached (s.caches j))

theorem State.Holds.held (h : s.Holds n x p) : p ∈ s.held n := by
  unfold State.held
  cases x with
  | program => exact List.mem_append_left _ h
  | behindAligned => exact List.mem_append_right _ (List.mem_append_left _ h)
  | cache i =>
    refine List.mem_append_right _ (List.mem_append_right _ ?_)
    exact List.mem_flatMap.mpr ⟨i, List.mem_range.mpr h.1, h.2⟩

end

end Cmem.L3.Header

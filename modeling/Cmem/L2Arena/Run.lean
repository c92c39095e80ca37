import Mathlib
import Cmem.Core.LTS
import Cmem.L2Arena.Ops

/-!
# Runs of one arena

The single-threaded runs of an arena: allocation, release on the owner or the
mailbox path, reap, the in-place grow of `mp_realloc`, and byte writes by the
user or by the canary code inside a live block. The state adds the list of
live blocks, which the code keeps only in its callers' hands.

`Inv k` is the invariant of these runs. `Inv False` needs nothing of a step
but that canary bytes stay in their block, and gives conservation
(`arena_conservation`). `Inv True` is the part with PREV_FREE right, used by
the validator.
-/
namespace Cmem.L2.ThreadArena

structure Sys where
  arena : Arena
  live : List Nat

inductive Op where
  | alloc (total : Nat)
  | free (b : Nat) (attached : Bool)
  | reap
  | grow (ptr b newSize : Nat) (canary : Bool)
  | write (b a v : Nat)

/-- What the callers promise: sizes are rounded, only live blocks are freed,
grown or written, a grown block holds its `mp_block_header_t`, and a user write
stays past the `tlsf_block_t` and inside the block. -/
def Sys.pre (s : Sys) : Op → Prop
  | .alloc total => minBlock ≤ total ∧ 8 ∣ total
  | .free b _ => b ∈ s.live
  | .reap => True
  | .grow ptr b _ _ => b ∈ s.live ∧ b + blockHdr + hdrSize ≤ ptr ∧
      ptr ≤ b + span s.arena.mem b ∧ 8 ∣ ptr
  | .write b a _ => b ∈ s.live ∧ b + blockHdr ≤ a ∧ a < b + span s.arena.mem b

instance Sys.decPre (s : Sys) : (l : Op) → Decidable (s.pre l)
  | .alloc total => inferInstanceAs (Decidable (minBlock ≤ total ∧ 8 ∣ total))
  | .free b _ => inferInstanceAs (Decidable (b ∈ s.live))
  | .reap => inferInstanceAs (Decidable True)
  | .grow ptr b _ _ => inferInstanceAs (Decidable (b ∈ s.live ∧ b + blockHdr + hdrSize ≤ ptr ∧
      ptr ≤ b + span s.arena.mem b ∧ 8 ∣ ptr))
  | .write b a _ => inferInstanceAs (Decidable (b ∈ s.live ∧ b + blockHdr ≤ a ∧
      a < b + span s.arena.mem b))

def Sys.next (s : Sys) : Op → Sys
  | .alloc total =>
    let r := tlsfArenaAlloc s.arena total
    ⟨r.1, if r.2 = 0 then s.live else r.2 :: s.live⟩
  | .free b attached => ⟨tlsfArenaFreeBlock s.arena b attached, s.live.erase b⟩
  | .reap => ⟨tlsfArenaReap s.arena, s.live⟩
  | .grow ptr b newSize canary => ⟨(mpReallocArena s.arena ptr b newSize canary).1, s.live⟩
  | .write _ a v => ⟨{ s.arena with mem := s.arena.mem.setByte a v }, s.live⟩

/-- Arenas from `tlsf_arena_init` on an 8-aligned, non-null region. -/
def system : LTS Sys Op :=
  .det (fun s => ∃ raw m, 0 < raw ∧ 8 ∣ raw ∧ s = ⟨tlsfArenaInit raw m, []⟩) Sys.pre Sys.next

/-- The canary byte of a successful in-place grow lands in the block's own
payload. -/
def CanaryInside (s : Sys) : Op → Prop
  | .grow ptr b newSize true =>
    let r := mpReallocArena s.arena ptr b newSize true
    r.2 = true → b + blockHdr ≤ sizeAdd ptr newSize ∧
      sizeAdd ptr newSize < b + span r.1.mem b
  | _ => True

instance (s : Sys) : (l : Op) → Decidable (CanaryInside s l)
  | .grow ptr b newSize true => inferInstanceAs (Decidable
      ((mpReallocArena s.arena ptr b newSize true).2 = true → b + blockHdr ≤ sizeAdd ptr newSize ∧
        sizeAdd ptr newSize < b + span (mpReallocArena s.arena ptr b newSize true).1.mem b))
  | .grow _ _ _ false => inferInstanceAs (Decidable True)
  | .alloc _ | .free _ _ | .reap | .write _ _ _ => inferInstanceAs (Decidable True)

/-! ## The invariant -/

structure InvWith (k : Prop) (s : Sys) (as mb : List Nat) : Prop where
  tiled : Tiled k s.arena as
  perm : (s.live ++ mb).Perm (usedOf s.arena.mem as)
  mail : Chain (nextFree s.arena.mem) s.arena.remoteFree mb
  bytes : s.arena.liveBytes = (s.live.map (span s.arena.mem)).sum
  size : s.arena.size = arenaDefaultSize
  sent : s.arena.sentinel + 32 = s.arena.raw + s.arena.size
  align : 8 ∣ s.arena.raw
  active : s.arena.retired = false

/-- The part of it that is about the blocks, retired or not. -/
structure Filled (k : Prop) (s : Sys) (as mb : List Nat) : Prop where
  tiled : Tiled k s.arena as
  perm : (s.live ++ mb).Perm (usedOf s.arena.mem as)
  mail : Chain (nextFree s.arena.mem) s.arena.remoteFree mb

/-- **The run invariant.** -/
def Inv (k : Prop) (s : Sys) : Prop := ∃ as mb, InvWith k s as mb

section
variable {k : Prop} {s : Sys} {A : Arena} {as mb : List Nat} {b : Nat}

theorem InvWith.filled (h : InvWith k s as mb) : Filled k s as mb := ⟨h.tiled, h.perm, h.mail⟩

theorem Filled.live_used (h : Filled k s as mb) (hb : b ∈ s.live) : b ∈ usedOf s.arena.mem as :=
  h.perm.mem_iff.mp (List.mem_append_left _ hb)

theorem Filled.nodup (h : Filled k s as mb) : (s.live ++ mb).Nodup :=
  h.perm.nodup_iff.mpr (h.tiled.nodup.filter _)

theorem InvWith.live_used (h : InvWith k s as mb) (hb : b ∈ s.live) : b ∈ usedOf s.arena.mem as :=
  h.filled.live_used hb

theorem InvWith.nodup (h : InvWith k s as mb) : (s.live ++ mb).Nodup := h.filled.nodup

/-- The mailbox has room in the fuel of a reap. -/
theorem Filled.length_mail (h : Filled k s as mb) : mb.length ≤ s.arena.size := by
  have h1 := h.perm.length_eq
  have h2 := h.tiled.length_le
  have h3 := List.length_filter_le (fun a => !isFree s.arena.mem a) as
  simp only [List.length_append] at h1
  unfold usedOf at h1
  omega

theorem walk_sum {m : Mem} {prev lo hi : Nat} {bs : List Nat} (h : Walk m prev lo bs hi) :
    lo + (bs.map (span m)).sum = hi := by
  induction bs generalizing prev lo with
  | nil => simpa using h.1
  | cons a bs ih =>
    obtain ⟨rfl, -, -, -, h⟩ := h
    have := ih h
    simp only [List.map_cons, List.sum_cons]
    omega

/-- Blocks in use fit in the region together. -/
theorem Tiled.sum_le (h : Tiled k A as) {l mb : List Nat} (hp : (l ++ mb).Perm (usedOf A.mem as)) :
    (l.map (span A.mem)).sum ≤ A.size := by
  have h1 := walk_sum h.walk
  have h2 : ((usedOf A.mem as).map (span A.mem)).sum ≤ (as.map (span A.mem)).sum :=
    (List.Sublist.map _ List.filter_sublist).sum_le_sum (fun _ _ => Nat.zero_le _)
  have h3 := (hp.map (span A.mem)).sum_eq
  rw [List.map_append, List.sum_append] at h3
  have := h.fits
  omega

theorem Tiled.aligned (h : Tiled k A as) (ha : 8 ∣ A.raw) (hb : b ∈ as) : 8 ∣ b :=
  h.walk.aligned ha hb

/-! ## Steps -/

/-- Assembling the invariant of an arena whose counter has just been written. -/
theorem InvWith.counted {live : List Nat} {n : Nat} (ht : Tiled k A as)
    (hp : (live ++ mb).Perm (usedOf A.mem as)) (hm : Chain (nextFree A.mem) A.remoteFree mb)
    (hn : n = (live.map (span A.mem)).sum) (hk : A.size = arenaDefaultSize)
    (hs : A.sentinel + 32 = A.raw + A.size) (ha : 8 ∣ A.raw) (hr : A.retired = false) :
    InvWith k ⟨{ A with liveBytes := n }, live⟩ as mb :=
  ⟨ht.congr rfl rfl rfl rfl (fun _ _ => ⟨rfl, rfl⟩) (fun _ _ _ => ⟨rfl, rfl⟩), hp, hm, hn,
    hk, hs, ha, hr⟩

theorem sum_congr {m m' : Mem} {l : List Nat} (h : ∀ a ∈ l, span m' a = span m a) :
    (l.map (span m')).sum = (l.map (span m)).sum := by
  rw [List.map_congr_left h]

/-- Draining a chain `l` of blocks in use: afterwards only `live` is in use. -/
theorem reapLoop_spec {l : List Nat} (live : List Nat) {block fuel : Nat} (h : Tiled k A as)
    (hc : Chain (nextFree A.mem) block l) (hp : (live ++ l).Perm (usedOf A.mem as))
    (hf : l.length ≤ fuel) :
    let A' := reapLoop fuel A block
    ∃ as', Tiled k A' as' ∧ Kept A A' ∧ live.Perm (usedOf A'.mem as') ∧
      ∀ a ∈ live, span A'.mem a = span A.mem a := by
  induction l generalizing A as block fuel with
  | nil =>
    cases hc
    have hA : reapLoop fuel A 0 = A := by cases fuel <;> rfl
    rw [hA]
    exact ⟨as, h, Kept.refl A, by simpa using hp, fun _ _ => rfl⟩
  | cons c l ih =>
    obtain ⟨rfl, h0, hc⟩ := hc
    have hbu : block ∈ usedOf A.mem as := hp.mem_iff.mp (by simp)
    have hnd : (live ++ block :: l).Nodup := hp.nodup_iff.mpr (h.nodup.filter _)
    rw [List.nodup_middle] at hnd
    have hne : ∀ a ∈ live ++ l, a ≠ block := fun a ha e =>
      (List.nodup_cons.mp hnd).1 (e ▸ ha)
    have hin : ∀ a ∈ live ++ l, a ∈ usedOf A.mem as := fun a ha =>
      hp.mem_iff.mp (by simp only [List.mem_append, List.mem_cons] at ha ⊢; tauto)
    obtain ⟨as₁, t₁, k₁, u₁, keep₁⟩ := release_spec h hbu
    cases fuel with
    | zero => simp at hf
    | succ n =>
      have hstep : reapLoop (n + 1) A block = reapLoop n
          (tlsfArenaInsertFree (stampFree A block (span A.mem block)) block)
            (nextFree A.mem block) := by
        rw [reapLoop, if_neg h0]
      have hp₁ : (live ++ l).Perm
          (usedOf (tlsfArenaInsertFree (stampFree A block (span A.mem block)) block).mem as₁) := by
        rw [u₁]
        have := (hp.symm.trans List.perm_middle).symm.erase block
        rwa [List.erase_cons_head] at this
      obtain ⟨as', t, hk, hpl, hs⟩ := ih t₁
        (hc.congr fun a ha => (keep₁ a (hin a (by simp [ha])) (hne a (by simp [ha]))).2)
        hp₁ (by simpa using hf)
      rw [hstep]
      refine ⟨as', t, k₁.trans hk, hpl, fun a ha => (hs a ha).trans ?_⟩
      exact (keep₁ a (hin a (by simp [ha])) (hne a (by simp [ha]))).1

/-- **Reap** empties the mailbox and leaves exactly the live blocks in use. -/
theorem reap_inv (h : InvWith k s as mb) :
    ∃ as', InvWith k ⟨tlsfArenaReap s.arena, s.live⟩ as' [] ∧
      (∀ a ∈ s.live, span (tlsfArenaReap s.arena).mem a = span s.arena.mem a) := by
  have hlen := h.filled.length_mail
  have ht : Tiled k { s.arena with remoteFree := 0 } as :=
    h.tiled.congr rfl rfl rfl rfl (fun _ _ => ⟨rfl, rfl⟩) (fun _ _ _ => ⟨rfl, rfl⟩)
  obtain ⟨as', t, hk, hp, hs⟩ := reapLoop_spec s.live ht h.mail h.perm hlen
  refine ⟨as', ⟨t, ?_, ?_, ?_, ?_, ?_, ?_, ?_⟩, hs⟩
  · rw [List.append_nil]; exact hp
  · rw [Chain.nil_iff]; exact hk.remoteFree
  · exact (hk.liveBytes.trans h.bytes).trans (sum_congr hs).symm
  · exact hk.size.trans h.size
  · have e1 : (tlsfArenaReap s.arena).sentinel = s.arena.sentinel := hk.sentinel
    have e2 : (tlsfArenaReap s.arena).raw = s.arena.raw := hk.raw
    have e3 : (tlsfArenaReap s.arena).size = s.arena.size := hk.size
    simp only [e1, e2, e3]; exact h.sent
  · have e2 : (tlsfArenaReap s.arena).raw = s.arena.raw := hk.raw
    simp only [e2]; exact h.align
  · exact hk.retired.trans h.active

theorem reapIfAny_inv (h : InvWith k s as mb) :
    ∃ as' mb', InvWith k ⟨reapIfAny s.arena, s.live⟩ as' mb' ∧
      (∀ a ∈ s.live, span (reapIfAny s.arena).mem a = span s.arena.mem a) := by
  unfold reapIfAny
  split
  · obtain ⟨as', h', hs⟩ := reap_inv h
    exact ⟨as', [], h', hs⟩
  · exact ⟨as, mb, h, fun _ _ => rfl⟩

/-- The scan finds a free block that is large enough, if it finds one. -/
theorem Tiled.firstFit (h : Tiled k A as) (total : Nat)
    (h0 : ThreadArena.firstFit A.mem total A.size A.freeList ≠ 0) :
    ThreadArena.firstFit A.mem total A.size A.freeList ∈ as.filter (isFree A.mem) ∧
      total ≤ span A.mem (ThreadArena.firstFit A.mem total A.size A.freeList) := by
  have hfit : ThreadArena.firstFit A.mem total A.size A.freeList =
      ((as.filter (isFree A.mem)).find? fun a => decide (total ≤ span A.mem a)).getD 0 :=
    firstFit_spec _ _ h.list.chain ((List.length_filter_le ..).trans h.length_le)
  rw [hfit] at h0 ⊢
  cases hfind : (as.filter (isFree A.mem)).find? fun a => decide (total ≤ span A.mem a) with
  | none => rw [hfind] at h0; exact absurd rfl h0
  | some b => exact ⟨List.mem_of_find?_eq_some hfind, by simpa using List.find?_some hfind⟩

theorem alloc_inv (h : InvWith k s as mb) {total : Nat} (ht : minBlock ≤ total) (hd : 8 ∣ total) :
    Inv k (s.next (.alloc total)) := by
  obtain ⟨as₁, mb₁, h₁, -⟩ := reapIfAny_inv h
  simp only [Sys.next, tlsfArenaAlloc]
  set A₁ := reapIfAny s.arena
  by_cases hb0 : firstFit A₁.mem total A₁.size A₁.freeList = 0
  · rw [if_pos hb0]
    exact ⟨as₁, mb₁, h₁⟩
  · rw [if_neg hb0]
    obtain ⟨hb, hle⟩ := h₁.tiled.firstFit total hb0
    generalize firstFit A₁.mem total A₁.size A₁.freeList = b at *
    simp only [if_neg hb0]
    obtain ⟨as', t, hk, hp, -, hkeep⟩ := carve_spec h₁.tiled hb ht hd hle
    have hused : ∀ a ∈ s.live ++ mb₁, a ∈ usedOf A₁.mem as₁ := fun a ha => h₁.perm.mem_iff.mp ha
    have hperm : (b :: s.live ++ mb₁).Perm (usedOf (carve A₁ b total).mem as') :=
      (List.Perm.cons b h₁.perm).trans hp.symm
    have hsum := t.sum_le hperm
    have hbytes := h₁.bytes
    have hsame : (s.live.map (span (carve A₁ b total).mem)).sum = (s.live.map (span A₁.mem)).sum :=
      sum_congr fun a ha => (hkeep a (hused a (List.mem_append_left _ ha))).1
    have hsize : (carve A₁ b total).size = arenaDefaultSize := hk.size.trans h₁.size
    refine ⟨as', mb₁, InvWith.counted t hperm ?_ ?_ hsize ?_ ?_ (hk.retired.trans h₁.active)⟩
    · rw [hk.remoteFree]
      exact h₁.mail.congr fun a ha => (hkeep a (hused a (List.mem_append_right _ ha))).2
    · simp only [List.map_cons, List.sum_cons] at hsum ⊢
      rw [hk.liveBytes, hsame]
      rw [hsame, hsize] at hsum
      dsimp only at hbytes
      unfold arenaDefaultSize at hsum
      rw [hbytes, sizeAdd_of_lt (by unfold sizeMod; omega), Nat.add_comm]
    · rw [hk.sentinel, hk.raw, hk.size]; exact h₁.sent
    · rw [hk.raw]; exact h₁.align

/-- Removing one live block from the count. -/
theorem sum_erase {m : Mem} {l : List Nat} (hb : b ∈ l) (hlt : (l.map (span m)).sum < sizeMod) :
    sizeSub (l.map (span m)).sum (span m b) = ((l.erase b).map (span m)).sum := by
  have h := List.sum_map_erase (span m) hb
  rw [sizeSub_of_le (by omega) hlt]
  omega

/-- The state change of a release before the counter is updated. -/
def pushOrInsert (A : Arena) (b : Nat) (attached : Bool) : Arena :=
  if attached && !A.retired then tlsfArenaInsertFree (stampFree A b (span A.mem b)) b
  else { A with mem := setNextFree A.mem b A.remoteFree, remoteFree := b }

/-- Without retirement the counter update is the last thing a release does. -/
theorem freeBlock_eq {attached : Bool} (hr : (pushOrInsert A b attached).retired = false) :
    tlsfArenaFreeBlock A b attached = { pushOrInsert A b attached with
      liveBytes := sizeSub (pushOrInsert A b attached).liveBytes (span A.mem b) } := by
  unfold tlsfArenaFreeBlock
  exact if_neg fun hc => by rw [pushOrInsert] at hr; rw [hr] at hc; exact absurd hc.2.1 (by decide)

/-- What a release leaves before the counter is updated: the block has moved
from `live` to the free list or to the mailbox. -/
structure Released (k : Prop) (s : Sys) (b : Nat) (A₁ : Arena) (as mb : List Nat) : Prop where
  tiled : Tiled k A₁ as
  perm : (s.live.erase b ++ mb).Perm (usedOf A₁.mem as)
  mail : Chain (nextFree A₁.mem) A₁.remoteFree mb
  spans : ∀ a ∈ s.live.erase b, span A₁.mem a = span s.arena.mem a
  kept : Kept { s.arena with remoteFree := A₁.remoteFree } A₁

theorem Filled.erase_ne (h : Filled k s as mb) (hb : b ∈ s.live) :
    ∀ a ∈ s.live.erase b ++ mb, a ≠ b ∧ a ∈ usedOf s.arena.mem as := by
  intro a ha
  have hnd := h.nodup
  refine ⟨?_, h.perm.mem_iff.mp ?_⟩
  · rintro rfl
    rcases List.mem_append.mp ha with ha | ha
    · exact absurd ha ((List.nodup_append.mp hnd).1.not_mem_erase)
    · exact List.disjoint_of_nodup_append hnd hb ha
  · rcases List.mem_append.mp ha with ha | ha
    · exact List.mem_append_left _ (List.mem_of_mem_erase ha)
    · exact List.mem_append_right _ ha

theorem insert_released (h : Filled k s as mb) (hb : b ∈ s.live) :
    ∃ as',
    Released k s b (tlsfArenaInsertFree (stampFree s.arena b (span s.arena.mem b)) b) as' mb := by
  have hne := h.erase_ne hb
  obtain ⟨as', t, hk, hu, hkeep⟩ := release_spec h.tiled (h.live_used hb)
  have hk' := hk.remoteFree
  refine ⟨as', t, ?_, ?_, fun a ha => ?_, ?_⟩
  · rw [hu]
    have := h.perm.erase b
    rwa [List.erase_append_left _ hb] at this
  · rw [hk']
    refine h.mail.congr fun a ha => ?_
    obtain ⟨h1, h2⟩ := hne a (List.mem_append_right _ ha)
    exact (hkeep a h2 h1).2
  · obtain ⟨h1, h2⟩ := hne a (List.mem_append_left _ ha)
    exact (hkeep a h2 h1).1
  · rw [hk']; exact hk

theorem push_released (h : Filled k s as mb) (hb : b ∈ s.live) :
    Released k s b { s.arena with mem := setNextFree s.arena.mem b s.arena.remoteFree,
                                  remoteFree := b } as (b :: mb) := by
  have hne := h.erase_ne hb
  have hbm := (mem_usedOf.mp (h.live_used hb)).1
  obtain ⟨t, hbl, hnx⟩ := h.tiled.setNext (h.live_used hb) s.arena.remoteFree
  have hin : ∀ a ∈ s.live.erase b ++ mb, a ∈ as := fun a ha => (mem_usedOf.mp (hne a ha).2).1
  refine ⟨t.congr rfl rfl rfl rfl (fun _ _ => ⟨rfl, rfl⟩) (fun _ _ _ => ⟨rfl, rfl⟩), ?_, ?_,
    fun a ha => congrArg blockSize (hbl a (hin a (List.mem_append_left _ ha))), rfl⟩
  · dsimp only
    rw [usedOf_congr fun a ha => congrArg freeBit (hbl a ha)]
    refine List.perm_middle.trans ?_
    rw [← List.cons_append]
    exact ((List.perm_cons_erase hb).symm.append_right mb).trans h.perm
  · refine ⟨rfl, ?_, ?_⟩
    · rintro rfl
      exact absurd (h.tiled.mem_bounds hbm).1 (by have := h.tiled.pos; omega)
    · have e : nextFree (setNextFree s.arena.mem b s.arena.remoteFree) b = s.arena.remoteFree :=
        Mem.set_self ..
      dsimp only
      rw [e]
      refine h.mail.congr fun a ha => ?_
      exact hnx a (hin a (List.mem_append_right _ ha)) (hne a (List.mem_append_right _ ha)).1

theorem pushOrInsert_released (h : Filled k s as mb) (attached : Bool) (hb : b ∈ s.live) :
    ∃ as' mb', Released k s b (pushOrInsert s.arena b attached) as' mb' := by
  unfold pushOrInsert
  split
  · obtain ⟨as', h'⟩ := insert_released h hb
    exact ⟨as', mb, h'⟩
  · exact ⟨as, b :: mb, push_released h hb⟩

theorem free_inv (attached : Bool) (h : InvWith k s as mb) (hb : b ∈ s.live) :
    Inv k (s.next (.free b attached)) := by
  obtain ⟨as', mb', r⟩ := pushOrInsert_released h.filled attached hb
  have hret := r.kept.retired.trans h.active
  have hlt : (s.live.map (span s.arena.mem)).sum < sizeMod := by
    have := h.tiled.sum_le h.perm
    rw [h.size] at this
    unfold arenaDefaultSize at this; unfold sizeMod; omega
  simp only [Sys.next]
  rw [freeBlock_eq hret]
  set A₁ := pushOrInsert s.arena b attached
  have e1 : A₁.sentinel = s.arena.sentinel := r.kept.sentinel
  have e2 : A₁.raw = s.arena.raw := r.kept.raw
  have e3 : A₁.size = s.arena.size := r.kept.size
  have hct :
    sizeSub A₁.liveBytes (span s.arena.mem b) = ((s.live.erase b).map (span A₁.mem)).sum := by
    have hlb : A₁.liveBytes = s.arena.liveBytes := r.kept.liveBytes
    rw [hlb, h.bytes, sum_erase hb hlt]
    exact (sum_congr r.spans).symm
  refine ⟨as', mb', InvWith.counted r.tiled r.perm r.mail hct (e3.trans h.size) ?_ ?_ hret⟩
  · rw [e1, e2, e3]; exact h.sent
  · rw [e2]; exact h.align

/-- Payload writes inside one live block. -/
theorem payload_inv (h : InvWith k s as mb) {m' : Mem} (hb : b ∈ s.live)
    (hw : ∀ x, x < b + 32 ∨ b + span s.arena.mem b ≤ x → m' x = s.arena.mem x) :
    InvWith k ⟨{ s.arena with mem := m' }, s.live⟩ as mb := by
  have hbm := (mem_usedOf.mp (h.live_used hb)).1
  obtain ⟨t, hl⟩ := h.tiled.payload (B := { s.arena with mem := m' }) hbm rfl rfl rfl rfl hw
  have hin : ∀ a ∈ s.live ++ mb, a ∈ as := fun a ha => (mem_usedOf.mp (h.perm.mem_iff.mp ha)).1
  refine ⟨t, ?_, ?_, ?_, h.size, h.sent, h.align, h.active⟩
  · simp only
    rw [usedOf_congr fun a ha => congrArg freeBit (hl a ha).1]
    exact h.perm
  · exact h.mail.congr fun a ha => (hl a (hin a (List.mem_append_right _ ha))).2
  · exact h.bytes.trans
      (sum_congr fun a ha => congrArg blockSize (hl a (hin a (List.mem_append_left _ ha))).1).symm

theorem write_inv (h : InvWith k s as mb) {a v : Nat} (hb : b ∈ s.live) (h1 : b + blockHdr ≤ a)
    (h2 : a < b + span s.arena.mem b) : Inv k (s.next (.write b a v)) := by
  have hbm := (mem_usedOf.mp (h.live_used hb)).1
  have h8 := h.tiled.aligned h.align hbm
  have hs8 := (h.tiled.mem_bounds hbm).2.2.2
  unfold blockHdr at h1
  refine ⟨as, mb, payload_inv h hb fun x hx => Mem.setByte_ne _ _ ?_⟩
  omega

/-- Whether the grow takes over the successor, once the mailbox is drained. -/
def Absorbs (A : Arena) (b newSize : Nat) (canary : Bool) : Prop :=
  span (reapIfAny A).mem b < totalNeeded newSize canary.toNat ∧
    growable (reapIfAny A) b (totalNeeded newSize canary.toNat) = true

instance (A : Arena) (b newSize : Nat) (canary : Bool) : Decidable (Absorbs A b newSize canary) :=
  inferInstanceAs (Decidable (_ ∧ _))

/-- The absorbing half of a grow. -/
theorem absorb_inv (h : InvWith k s as mb) {need : Nat} (hb : b ∈ s.live) (hn : 8 ∣ need)
    (hgt : span s.arena.mem b < need) (hgr : growable s.arena b need = true)
    (hpf : k → prevFreeBit (s.arena.mem b) = false) :
    Inv k ⟨absorbNext s.arena b need, s.live⟩ ∧
      span s.arena.mem b ≤ span (absorbNext s.arena b need).mem b := by
  obtain ⟨as', t, hp, hk, hlb, hle, hs, hnx⟩ :=
    absorbNext_spec h.tiled (h.live_used hb) hn hgt hgr hpf
  generalize absorbNext s.arena b need = A' at *
  have hnd := h.nodup
  have hlnd : s.live.Nodup := (List.nodup_append.mp hnd).1
  have hin : ∀ a ∈ s.live ++ mb, a ∈ usedOf s.arena.mem as := fun a ha => h.perm.mem_iff.mp ha
  have hperm : (s.live ++ mb).Perm (usedOf A'.mem as') := h.perm.trans hp.symm
  have hsum := t.sum_le hperm
  have hsize : A'.size = arenaDefaultSize := hk.size.trans h.size
  -- only the grown block's span changed
  have hdiff : (s.live.map (span A'.mem)).sum
      = (s.live.map (span s.arena.mem)).sum + (span A'.mem b - span s.arena.mem b) := by
    have e1 := List.sum_map_erase (span A'.mem) hb
    have e2 := List.sum_map_erase (span s.arena.mem) hb
    have e3 :
      ((s.live.erase b).map (span A'.mem)).sum = ((s.live.erase b).map (span s.arena.mem)).sum :=
      sum_congr fun a ha => hs a (hin a (List.mem_append_left _ (List.mem_of_mem_erase ha)))
        (fun e => hlnd.not_mem_erase (e ▸ ha))
    omega
  have hr : A'.remoteFree = s.arena.remoteFree := hk.remoteFree
  have e1 : A'.sentinel = s.arena.sentinel := hk.sentinel
  have e2 : A'.raw = s.arena.raw := hk.raw
  have e3 : A'.size = s.arena.size := hk.size
  refine ⟨⟨as', mb, ⟨t, hperm, ?_, ?_, hsize, ?_, ?_, hk.retired.trans h.active⟩⟩, by omega⟩
  · dsimp only
    rw [hr]
    refine h.mail.congr fun a ha => hnx a (hin a (List.mem_append_right _ ha)) ?_
    rintro rfl
    exact List.disjoint_of_nodup_append hnd hb ha
  · rw [hsize] at hsum
    unfold arenaDefaultSize at hsum
    dsimp only
    rw [hlb, h.bytes, hdiff, sizeAdd_of_lt]
    unfold sizeMod; omega
  · dsimp only; rw [e1, e2, e3]; exact h.sent
  · dsimp only; rw [e2]; exact h.align

/-- The state of a grow before the header is written. -/
def grown (A : Arena) (b newSize : Nat) (canary : Bool) : Arena :=
  let need := totalNeeded newSize canary.toNat
  if span (reapIfAny A).mem b < need ∧ growable (reapIfAny A) b need then
    absorbNext (reapIfAny A) b need
  else reapIfAny A

/-- The header and canary writes of a successful grow. -/
def stampHeader (m : Mem) (ptr newSize usable : Nat) (canary : Bool) : Mem :=
  let m := (m.set (ptr - hdrSize + 8) newSize).set (ptr - hdrSize + 16) usable
  if canary then m.setByte (sizeAdd ptr newSize) canaryByte else m

theorem mpReallocArena_eq (A : Arena) (ptr b newSize : Nat) (canary : Bool) :
    mpReallocArena A ptr b newSize canary =
      if totalNeeded newSize canary.toNat ≤ span (grown A b newSize canary).mem b then
        ({ grown A b newSize canary with
            mem := stampHeader (grown A b newSize canary).mem ptr newSize
              (sizeSub (span (grown A b newSize canary).mem b)
                (blockHdr + hdrSize + canary.toNat)) canary }, true)
      else (grown A b newSize canary, false) := by
  rfl

theorem grown_inv (newSize : Nat) (canary : Bool) (h : InvWith k s as mb) (hb : b ∈ s.live)
    (hpf : k → Absorbs s.arena b newSize canary →
      prevFreeBit ((reapIfAny s.arena).mem b) = false) :
    Inv k ⟨grown s.arena b newSize canary, s.live⟩ ∧
      span s.arena.mem b ≤ span (grown s.arena b newSize canary).mem b := by
  obtain ⟨as₁, mb₁, h₁, hs₁⟩ := reapIfAny_inv h
  rw [← hs₁ b hb]
  by_cases hc : Absorbs s.arena b newSize canary
  · have e : grown s.arena b newSize canary
        = absorbNext (reapIfAny s.arena) b (totalNeeded newSize canary.toNat) := if_pos hc
    rw [e]
    exact absorb_inv (s := ⟨reapIfAny s.arena, s.live⟩) h₁ hb (totalNeeded_dvd ..) hc.1 hc.2
      fun hk => hpf hk hc
  · have e : grown s.arena b newSize canary = reapIfAny s.arena := if_neg hc
    rw [e]
    exact ⟨⟨as₁, mb₁, h₁⟩, Nat.le_refl _⟩

/-- The words the header and canary writes touch. -/
theorem stampHeader_frame {m : Mem} {ptr newSize usable x : Nat} {canary : Bool} (lo hi : Nat)
    (hlo : lo + hdrSize ≤ ptr) (hhi : ptr ≤ hi) (hlo8 : 8 ∣ lo) (hhi8 : 8 ∣ hi)
    (hc : canary = true → lo ≤ sizeAdd ptr newSize ∧ sizeAdd ptr newSize < hi)
    (hx : x < lo ∨ hi ≤ x) : stampHeader m ptr newSize usable canary x = m x := by
  unfold hdrSize at hlo
  have e : ((m.set (ptr - hdrSize + 8) newSize).set (ptr - hdrSize + 16) usable) x = m x := by
    unfold hdrSize
    exact (Mem.set_ne _ _ (by omega)).trans (Mem.set_ne _ _ (by omega))
  cases canary with
  | false => exact e
  | true =>
    have := hc rfl
    exact (Mem.setByte_ne _ _ (by omega)).trans e

/-- ... are in the grown block, if the canary is in what they leave of it. -/
theorem stampHeader_inside {m : Mem} {ptr newSize usable : Nat} {canary : Bool}
    (hp1 : b + 32 + hdrSize ≤ ptr) (hp2 : ptr ≤ b + span m b) (hp8 : 8 ∣ ptr) (hb8 : 8 ∣ b)
    (hs8 : 8 ∣ span m b) (hc : canary = true → b + 32 ≤ sizeAdd ptr newSize ∧
      sizeAdd ptr newSize < b + span (stampHeader m ptr newSize usable canary) b) :
    ∀ x, x < b + 32 ∨ b + span m b ≤ x → stampHeader m ptr newSize usable canary x = m x := by
  -- the block's own size word is written by none of these
  have hspan :
    canary = true → b + 32 ≤ sizeAdd ptr newSize ∧ sizeAdd ptr newSize < b + span m b := by
    intro hcan
    obtain ⟨h1, h2⟩ := hc hcan
    refine ⟨h1, ?_⟩
    have e : stampHeader m ptr newSize usable canary b = m b := by
      refine stampHeader_frame (b + 32) (max ptr (sizeAdd ptr newSize + 1) / 8 * 8 + 8)
        hp1 (by omega) (by omega) (by omega) (fun _ => ⟨h1, by omega⟩) (.inl (by omega))
    have e' : span (stampHeader m ptr newSize usable canary) b = span m b := congrArg blockSize e
    rwa [e'] at h2
  intro x hx
  exact stampHeader_frame (b + 32) (b + span m b) hp1 hp2 (by omega) (by omega) hspan hx

theorem grow_inv (h : InvWith k s as mb) {ptr newSize : Nat} {canary : Bool}
    (hpre : s.pre (.grow ptr b newSize canary)) (hin : CanaryInside s (.grow ptr b newSize canary))
    (hpf : k → Absorbs s.arena b newSize canary →
      prevFreeBit ((reapIfAny s.arena).mem b) = false) :
    Inv k (s.next (.grow ptr b newSize canary)) := by
  obtain ⟨hb, hp1, hp2, hp8⟩ := hpre
  obtain ⟨⟨as₁, mb₁, h₁⟩, hle⟩ := grown_inv newSize canary h hb hpf
  have hnext : s.next (.grow ptr b newSize canary)
      = ⟨(mpReallocArena s.arena ptr b newSize canary).1, s.live⟩ := rfl
  have hcan : canary = true → (mpReallocArena s.arena ptr b newSize canary).2 = true →
      b + blockHdr ≤ sizeAdd ptr newSize ∧
        sizeAdd ptr newSize < b + span (mpReallocArena s.arena ptr b newSize canary).1.mem b := by
    rintro rfl; exact hin
  rw [hnext]
  rw [mpReallocArena_eq] at hcan ⊢
  generalize grown s.arena b newSize canary = A₁ at h₁ hle hcan ⊢
  by_cases hneed : totalNeeded newSize canary.toNat ≤ span A₁.mem b
  · simp only [if_pos hneed] at hcan ⊢
    have hbm := (mem_usedOf.mp (h₁.live_used hb)).1
    have hb8 := h₁.tiled.aligned h₁.align hbm
    have hs8 := (h₁.tiled.mem_bounds hbm).2.2.2
    dsimp only at hs8
    unfold blockHdr at hp1 hcan
    exact ⟨as₁, mb₁, payload_inv h₁ hb
      (stampHeader_inside hp1 (hp2.trans (Nat.add_le_add_left hle b)) hp8 hb8 hs8 fun hc =>
        hcan hc trivial)⟩
  · simp only [if_neg hneed]
    exact ⟨as₁, mb₁, h₁⟩

/-! ## Runs -/

theorem init_inv {raw : Nat} (m : Mem) (hr : 0 < raw) (h8 : 8 ∣ raw) :
    Inv k ⟨tlsfArenaInit raw m, []⟩ := by
  obtain ⟨as, ht, hu⟩ := init_tiled (k := k) m hr
  have hs : raw + arenaDefaultSize - blockHdr + 32 = raw + arenaDefaultSize := by
    unfold arenaDefaultSize blockHdr; omega
  refine ⟨as, [], ⟨ht, ?_, rfl, rfl, rfl, hs, h8, rfl⟩⟩
  rw [hu]; exact List.Perm.refl _

/-- One step keeps the invariant; with `k`, provided that a grow which absorbs
its successor starts from a block without PREV_FREE. -/
theorem step_inv {l : Op} (h : Inv k s) (hpre : s.pre l) (hc : CanaryInside s l)
    (hpf : k → ∀ ptr b newSize canary, l = .grow ptr b newSize canary →
      Absorbs s.arena b newSize canary → prevFreeBit ((reapIfAny s.arena).mem b) = false) :
    Inv k (s.next l) := by
  obtain ⟨as, mb, h⟩ := h
  cases l with
  | alloc total => exact alloc_inv h hpre.1 hpre.2
  | free b attached => exact free_inv attached h hpre
  | reap =>
    obtain ⟨as', h', -⟩ := reap_inv h
    exact ⟨as', [], h'⟩
  | grow ptr b newSize canary => exact grow_inv h hpre hc fun hk => hpf hk _ _ _ _ rfl
  | write b a v => exact write_inv h hpre.1 hpre.2.1 hpre.2.2

/-- Without the PREV_FREE part the invariant is inductive. -/
theorem inductive_inv : (system.guard CanaryInside).Inductive (Inv False) where
  init s hs := by
    obtain ⟨raw, m, hr, h8, rfl⟩ := hs
    exact init_inv m hr h8
  step s l s' h hs := by
    obtain ⟨⟨hpre, rfl⟩, hc⟩ := hs
    exact step_inv h hpre hc fun hf => hf.elim

/-! ## Conservation -/

/-- A free block's neighbour is not free. -/
theorem Tiled.no_adjacent (h : Tiled k A as) {a c : Nat} (ha : a ∈ as) (hc : c ∈ as)
    (hfa : isFree A.mem a = true) (hfc : isFree A.mem c = true) : a + span A.mem a ≠ c := by
  intro e
  obtain ⟨pre, post, rfl⟩ := Tiled.split ha
  have hg := h.gap
  have hroom := hg.room
  have hcp : c ∈ post := by
    simp only [List.mem_append, List.mem_cons] at hc
    rcases hc with hc | rfl | hc
    · have := hg.below hc; omega
    · omega
    · exact hc
  obtain ⟨p, hw⟩ := hg.right
  cases post with
  | nil => cases hcp
  | cons d post =>
    have hd : d = c := by rw [hg.takeNext.1, e]
    have := h.flags.append.2.2.2
    rw [hfa] at this
    exact this.1 ⟨rfl, hd ▸ hfc⟩

/-- When every block is free there is only one. -/
theorem Tiled.all_free (h : Tiled k A as) (hu : usedOf A.mem as = []) (hlt : A.raw < A.sentinel) :
    as = [A.raw] ∧ A.raw + span A.mem A.raw = A.sentinel := by
  have hall : ∀ a ∈ as, isFree A.mem a = true := by
    intro a ha
    by_contra hf
    have : a ∈ usedOf A.mem as := mem_usedOf.mpr ⟨ha, by simpa using hf⟩
    rw [hu] at this; cases this
  have hw := h.walk
  cases as with
  | nil => exact absurd hw.1 (by omega)
  | cons a as =>
    obtain ⟨rfl, -, -, -, hw'⟩ := hw
    cases as with
    | nil => exact ⟨rfl, hw'.1⟩
    | cons c as =>
      exact absurd hw'.1.symm
        (h.no_adjacent (by simp) (by simp) (hall _ (by simp)) (hall _ (by simp)))

/-- The live, mailboxed and free blocks (`as`) tile the region with true
back-links; the byte counter is the sum of the live spans; the free list is the
set of FREE blocks in strictly increasing order with no two adjacent; and with
nothing live and nothing mailboxed it is one block. -/
def Conserved (s : Sys) : Prop :=
  ∃ as mb fl : List Nat,
    Walk s.arena.mem 0 s.arena.raw as s.arena.sentinel ∧
    s.arena.sentinel + blockHdr = s.arena.raw + arenaDefaultSize ∧
    as.Perm (s.live ++ mb ++ fl) ∧ as.Nodup ∧
    Chain (nextFree s.arena.mem) s.arena.remoteFree mb ∧
    s.arena.liveBytes = (s.live.map (span s.arena.mem)).sum ∧
    (freeDL s.arena.mem s.arena.freeList).Is fl ∧
    (∀ a, a ∈ fl ↔ a ∈ as ∧ isFree s.arena.mem a = true) ∧
    fl.Pairwise (· < ·) ∧
    (∀ a ∈ fl, ∀ c ∈ fl, a + span s.arena.mem a ≠ c) ∧
    (s.arena.liveBytes = 0 → s.arena.remoteFree = 0 →
      fl = [s.arena.raw] ∧ s.arena.raw + span s.arena.mem s.arena.raw = s.arena.sentinel)

/-- **Arena conservation**, in every state of every single-threaded run whose
canary bytes stay in their block. -/
theorem arena_conservation {s : Sys} (hr : (system.guard CanaryInside).Reachable s) :
    Conserved s := by
  obtain ⟨as, mb, h⟩ := inductive_inv.reachable hr
  have ht := h.tiled
  refine ⟨as, mb, as.filter (isFree s.arena.mem), ht.walk, ?_, ?_, ht.nodup, h.mail,
    h.bytes, ht.list,
    fun a => List.mem_filter, ?_, fun a ha c hc => ?_, fun hb hm => ?_⟩
  · rw [← h.size]; exact h.sent
  · have hsplit : as.Perm (usedOf s.arena.mem as ++ as.filter (isFree s.arena.mem)) := by
      have := List.filter_append_perm (fun a => !isFree s.arena.mem a) as
      simpa [usedOf] using this.symm
    exact hsplit.trans (h.perm.symm.append_right _)
  · have hs := (List.pairwise_append.mp ht.sorted).1
    exact (hs.imp fun hab => by omega).filter _
  · obtain ⟨h1, h2⟩ := List.mem_filter.mp ha
    obtain ⟨h3, h4⟩ := List.mem_filter.mp hc
    exact ht.no_adjacent h1 h3 h2 h4
  · -- nothing live: the sum of the spans is zero, and spans are positive
    have hmb : mb = [] := by
      have := h.mail; rw [hm] at this; exact this.eq_nil_of_zero
    have hlive : s.live = [] := by
      rcases hl : s.live with _ | ⟨a, l⟩
      · rfl
      · have ha : a ∈ s.live := by rw [hl]; simp
        have h1 := (ht.mem_bounds (mem_usedOf.mp (h.live_used ha)).1).2.2.1
        have h2 := h.bytes
        rw [hb, hl, List.map_cons, List.sum_cons] at h2
        omega
    have hu : usedOf s.arena.mem as = [] := by
      have := h.perm
      rw [hlive, hmb] at this
      exact List.perm_nil.mp this.symm
    have hlt : s.arena.raw < s.arena.sentinel := by
      have h1 := h.sent
      rw [h.size] at h1
      unfold arenaDefaultSize at h1; omega
    obtain ⟨rfl, h2⟩ := ht.all_free hu hlt
    refine ⟨?_, h2⟩
    refine List.filter_eq_self.mpr fun a ha => ?_
    by_contra hf
    have : a ∈ usedOf s.arena.mem [s.arena.raw] := mem_usedOf.mpr ⟨ha, by simpa using hf⟩
    rw [hu] at this; cases this

/-- A fresh arena at address 4096. -/
def fresh : Sys := ⟨tlsfArenaInit 4096 fun _ => 0, []⟩

theorem fresh_reachable {C : Sys → Op → Prop} : (system.guard C).Reachable fresh :=
  .init ⟨4096, fun _ => 0, by decide, by decide, rfl⟩

theorem arena_conservation_after_grow :
    Conserved ([.alloc 192, .alloc 192, .grow 4472 4288 100 true].foldl Sys.next fresh) :=
  arena_conservation (fresh_reachable.run (by decide +kernel))

end

end Cmem.L2.ThreadArena

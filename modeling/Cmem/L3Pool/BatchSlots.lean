import Mathlib
import Cmem.L3Pool.BatchFree

/-!
# Free slots, wherever they are

A freed slot may be in the thread cache, with the processor, on the remote queue or in
its page. `Tiers.free` counts it in all of them; a switch of the cache (`validateOwner`)
only moves slots, and `putAt` adds one. What is written then are the words of free
slots (`Scratch`), and the first byte of a free slot stays even, so that no free slot
begins like a header (`World.Tidy`). The arena of the thread is retired with the switch
(`Ledger.leave`); freeing a block of it before or behind that comes to the same.
-/
namespace Cmem.L3.BatchFree

open Cmem.L3.Pool (classCount)

/-! ## Counting -/

def total (f : Nat → List Nat) (x : Nat) : Nat :=
  ((List.range classCount).map fun c => (f c).count x).sum

def Slab.count (s : Slab) (x : Nat) : Nat :=
  total s.percpu x + total s.remoteFree x + (s.pages (x / 65536)).count x

def Tiers.inCache (t : Tiers) (q x : Nat) : Nat := if t.owner = q then total t.slots x else 0

/-- How often a slot is free in a pool. -/
def Tiers.free (t : Tiers) (q x : Nat) : Nat := t.inCache q x + (t.slab q).count x

def Tiers.IsFree (t : Tiers) (x : Nat) : Prop := ∃ q, 0 < t.free q x

/-- The bytes of a slot that are written while it is free. -/
def Word (slot i : Nat) : Prop := slot ≤ i ∧ i < slot + 8 ∨ slot + 24 ≤ i ∧ i < slot + 32

def Tiers.Scratch (t : Tiers) (i : Nat) : Prop := ∃ x, t.IsFree x ∧ Word x i

def Tiers.slotLen (t : Tiers) (q cls : Nat) : Nat := if t.owner = q then (t.slots cls).length else 0

def World.tlsfLen (w : World) (q i : Nat) : Nat :=
  if w.tiers.owner = q then (w.tlsfSlots i).length else 0

/-- What a pool keeps of its free slots, and the thread of its arena. -/
structure World.Tidy (e : Env) (w : World) : Prop where
  slot : ∀ q cls a sp, ∀ x ∈ w.tiers.list q cls a sp, SlotOk x
  link : ∀ x, w.tiers.IsFree x → (w.mem x).toNat % 2 = 0
  room : ∀ cls, (w.tiers.slots cls).length ≤ slotsMax
  idle : w.tiers.owner = 0 → (∀ cls, w.tiers.slots cls = []) ∧ ∀ i, w.tlsfSlots i = []
  home : w.arenas.current ≠ 0 → w.tiers.owner ≠ 0 ∧ e.arenaOwner w.arenas.current = w.tiers.owner

section
variable {e : Env} {t : Tiers} {w : World} {q cls slot x i : Nat} {sp : Spot}

theorem sum_push (f : Nat → List Nat) (k x y n : Nat) :
    ((List.range n).map fun c => (Function.update f k (x :: f k) c).count y).sum =
      ((List.range n).map fun c => (f c).count y).sum + if k < n ∧ y = x then 1 else 0 := by
  induction n with
  | zero => simp
  | succ n ih =>
    rw [List.range_succ, List.map_append, List.map_append, List.sum_append, List.sum_append, ih]
    simp only [List.map_cons, List.map_nil, List.sum_cons, List.sum_nil]
    by_cases hk : k = n
    · subst hk
      simp only [Function.update_self, List.count_cons, Nat.lt_irrefl, false_and, if_false,
        Nat.lt_succ_self, true_and]
      by_cases hx : y = x
      · simp [hx]; omega
      · simp [hx, Ne.symm hx]
    · have : k < n + 1 ↔ k < n := by omega
      simp only [Function.update_of_ne (Ne.symm hk), this]; omega

theorem total_push {f : Nat → List Nat} {k : Nat} (hk : k < classCount) (x y : Nat) :
    total (Function.update f k (x :: f k)) y = total f y + if y = x then 1 else 0 := by
  unfold total; rw [sum_push]; simp [hk]

theorem total_pos {f : Nat → List Nat} (h : 0 < total f x) : ∃ c, x ∈ f c := by
  obtain ⟨n, hn, hp⟩ := List.sum_pos_iff_exists_pos_nat.1 h
  obtain ⟨c, -, rfl⟩ := List.mem_map.1 hn
  exact ⟨c, List.count_pos_iff.1 hp⟩

theorem total_empty {f : Nat → List Nat} (h : ∀ c, f c = []) : total f x = 0 := by
  rcases Nat.eq_zero_or_pos (total f x) with h0 | h0
  · exact h0
  · obtain ⟨c, hc⟩ := total_pos h0
    rw [h c] at hc; exact absurd hc (List.not_mem_nil)

/-- A free slot is on a list. -/
theorem Tiers.IsFree.listed (h : t.IsFree x) : ∃ q cls sp, x ∈ t.list q cls x sp := by
  obtain ⟨q, h⟩ := h
  unfold Tiers.free Tiers.inCache Slab.count at h
  by_cases h1 : 0 < total t.slots x
  · obtain ⟨c, hc⟩ := total_pos h1
    exact ⟨0, c, .cache, hc⟩
  · by_cases h2 : 0 < total (t.slab q).percpu x
    · obtain ⟨c, hc⟩ := total_pos h2
      exact ⟨q, c, .percpu, hc⟩
    · by_cases h3 : 0 < total (t.slab q).remoteFree x
      · obtain ⟨c, hc⟩ := total_pos h3
        exact ⟨q, c, .remote, hc⟩
      · have h4 : 0 < ((t.slab q).pages (x / 65536)).count x := by split at h <;> omega
        exact ⟨q, 0, .page, List.count_pos_iff.1 h4⟩

theorem World.Tidy.ok (h : w.Tidy e) (hx : w.tiers.IsFree x) : SlotOk x := by
  obtain ⟨q, c, sp, hm⟩ := hx.listed
  exact h.slot q c x sp x hm

/-! ## One slot -/

@[simp] theorem Tiers.owner_put : (t.put e q cls slot sp).owner = t.owner := by cases sp <;> rfl

theorem Tiers.free_onSlab (f : Slab → Slab) (q' y : Nat) :
    (t.onSlab q f).free q' y =
      t.inCache q' y + (if q' = q then f (t.slab q') else t.slab q').count y := by
  unfold Tiers.free Tiers.onSlab
  by_cases hq : q' = q
  · subst hq; simp only [Function.update_self, if_true]; rfl
  · simp only [Function.update_of_ne hq, hq, if_false]; rfl

theorem Slab.count_free {s : Slab} {size : Nat} (y : Nat) :
    (s.free size slot).count y = s.count y + if y = slot then 1 else 0 := by
  simp only [Slab.count, Slab.free]
  by_cases hy : y = slot
  · subst hy; simp only [Function.update_self, List.count_cons_self, if_true]; omega
  · by_cases hp : y / 65536 = slot / 65536
    · simp only [hp, Function.update_self, List.count_cons_of_ne (Ne.symm hy), hy, if_false]; omega
    · simp only [Function.update_of_ne hp, hy, if_false]; omega

theorem Tiers.free_put (hc : cls < classCount) (ho : sp = .cache → t.owner = q) (q' y : Nat) :
    (t.put e q cls slot sp).free q' y = t.free q' y + if q' = q ∧ y = slot then 1 else 0 := by
  have onSlab :
      ∀ f : Slab → Slab, (∀ s : Slab, (f s).count y = s.count y + if y = slot then 1 else 0) →
      (t.onSlab q f).free q' y = t.free q' y + if q' = q ∧ y = slot then 1 else 0 := by
    intro f hf
    rw [Tiers.free_onSlab]
    unfold Tiers.free
    by_cases hq : q' = q
    · simp only [hq, if_true, true_and, hf]; omega
    · simp only [hq, if_false, false_and]; omega
  cases sp with
  | cache =>
    have ho := ho rfl
    simp only [Tiers.put, Tiers.free, Tiers.inCache, total_push hc]
    by_cases hq : q' = q
    · subst hq; simp only [ho, if_true, true_and]; omega
    · simp only [ho, Ne.symm hq, hq, if_false, false_and]; omega
  | percpu => exact onSlab _ fun s => by simp only [Slab.count, total_push hc]; omega
  | remote => exact onSlab _ fun s => by simp only [Slab.count, total_push hc]; omega
  | page => exact onSlab _ fun s => Slab.count_free y

theorem Tiers.list_put {q' cls' a : Nat} {sp' : Spot}
    (h : x ∈ (t.put e q cls slot sp).list q' cls' a sp') :
    x = slot ∨ ∃ b, x ∈ t.list q' cls' b sp' := by
  have upd : ∀ (f : Nat → List Nat) (k c : Nat), x ∈ Function.update f k (slot :: f k) c →
    x = slot ∨ x ∈ f c := by
    intro f k c hx
    by_cases hk : c = k
    · subst hk; rw [Function.update_self] at hx; exact List.mem_cons.1 hx
    · rw [Function.update_of_ne hk] at hx; exact .inr hx
  cases sp <;> cases sp' <;> simp only [Tiers.put, Tiers.onSlab, Tiers.list] at h ⊢ <;>
    first
    | exact (upd _ _ _ h).imp id fun h => ⟨a, h⟩
    | exact .inr ⟨a, h⟩
    | (by_cases hq : q' = q
       · subst hq
         rw [Function.update_self] at h
         first
         | exact (upd _ _ _ h).imp id fun h => ⟨a, h⟩
         | exact .inr ⟨a, h⟩
       · rw [Function.update_of_ne hq] at h; exact .inr ⟨a, h⟩)

theorem store_even {m : Bytes} {a v : Nat} (ha : a % 8 = 0) (hv : v % 2 = 0) (hx : x % 8 = 0)
    (h : (m x).toNat % 2 = 0) : ((m.store a 8 v) x).toNat % 2 = 0 := by
  unfold Bytes.store
  split
  · have : x = a := by omega
    subst this
    simp only [Nat.sub_self, Nat.pow_zero, Nat.div_one, UInt8.toNat_ofNat']
    omega
  · exact h

theorem World.Tidy.head (h : w.Tidy e) (q cls a : Nat) (sp : Spot) :
    (w.tiers.list q cls a sp).headD 0 % 2 = 0 := by
  cases hl : w.tiers.list q cls a sp with
  | nil => rfl
  | cons y l =>
    have := h.slot q cls a sp y (by rw [hl]; exact List.mem_cons_self)
    unfold SlotOk at this
    simp only [List.headD_cons]; omega

theorem Tiers.IsFree.put (hc : cls < classCount) (ho : sp = .cache → t.owner = q)
    (h : (t.put e q cls slot sp).IsFree x) : x = slot ∨ t.IsFree x := by
  obtain ⟨q', h⟩ := h
  rw [Tiers.free_put hc ho] at h
  split at h
  · exact .inl (by tauto)
  · exact .inr ⟨q', by omega⟩

/-- A slot is put on a list. -/
theorem World.Tidy.putAt (h : w.Tidy e) (hs : SlotOk slot) (hc : cls < classCount) (hq : q ≠ 0)
    (ho : sp = .cache → w.tiers.owner = q ∧ (w.tiers.slots cls).length < slotsMax) :
    (w.putAt e q cls slot sp).Tidy e where
  slot q' c a sp' x hx := by
    rcases Tiers.list_put hx with rfl | ⟨b, hb⟩
    · exact hs
    · exact h.slot _ _ _ _ _ hb
  link x hx := by
    have hv := h.head q cls slot sp
    rcases Tiers.IsFree.put hc (fun hsp => (ho hsp).1) hx with rfl | hf
    · unfold SlotOk at hs
      unfold World.putAt Bytes.store
      simp only [Nat.le_refl, true_and]
      rw [if_pos (by omega)]
      simp only [Nat.sub_self, Nat.pow_zero, Nat.div_one, UInt8.toNat_ofNat']
      omega
    · exact store_even hs.1 hv (h.ok hf).1 (h.link x hf)
  room c := by
    cases sp with
    | cache =>
      simp only [World.putAt, Tiers.put]
      by_cases hk : c = cls
      · subst hk; rw [Function.update_self, List.length_cons]; exact (ho rfl).2
      · rw [Function.update_of_ne hk]; exact h.room c
    | _ => exact h.room c
  idle h0 := by
    have h0 : w.tiers.owner = 0 := by simpa [World.putAt] using h0
    cases sp with
    | cache => exact absurd ((ho rfl).1.symm.trans h0) hq
    | _ => exact h.idle h0
  home := by
    rw [World.putAt, Tiers.owner_put]
    exact h.home

theorem Tiers.scratch_put (hc : cls < classCount) (ho : sp = .cache → t.owner = q) :
    (t.put e q cls slot sp).Scratch i ↔ t.Scratch i ∨ Word slot i := by
  constructor
  · rintro ⟨x, hx, hw⟩
    rcases hx.put hc ho with rfl | hx
    · exact .inr hw
    · exact .inl ⟨x, hx, hw⟩
  · rintro (⟨x, ⟨q', hx⟩, hw⟩ | hw)
    · exact ⟨x, ⟨q', by rw [Tiers.free_put hc ho]; omega⟩, hw⟩
    · exact ⟨slot, ⟨q, by rw [Tiers.free_put hc ho, if_pos ⟨rfl, rfl⟩]; omega⟩, hw⟩

theorem Tiers.scratch_congr {t' : Tiers} (h : ∀ q x, t'.free q x = t.free q x) : t'.Scratch i ↔
    t.Scratch i := by
  simp only [Tiers.Scratch, Tiers.IsFree, h]

theorem World.tiers_putAt : (w.putAt e q cls slot sp).tiers = w.tiers.put e q cls slot sp := rfl

theorem World.mem_putAt (h : ¬ Word slot i) : (w.putAt e q cls slot sp).mem i = w.mem i :=
  Bytes.store_apart (by unfold Word at h; unfold Bytes.Apart; omega)

theorem Tiers.spot_cache (h : t.spot e q cls = .cache) : (t.slots cls).length < slotsMax := by
  unfold Tiers.spot at h
  by_contra hn
  rw [if_neg hn] at h
  split at h
  · cases h
  · split at h <;> cases h

theorem Tiers.spot_room (h : t.spot e q cls ≠ .cache) : slotsMax ≤ (t.slots cls).length := by
  unfold Tiers.spot at h
  by_contra hn
  exact h (if_pos (by omega))

theorem Tiers.spot_eq_cache : t.spot e q cls = .cache ↔ (t.slots cls).length < slotsMax := by
  refine ⟨Tiers.spot_cache, fun h => ?_⟩
  by_contra hn
  exact absurd (Tiers.spot_room hn) (by omega)

theorem Tiers.spot_owner (ho : t.owner = q) (h : t.spot e q cls = .cache) :
    t.owner = q ∧ (t.slots cls).length < slotsMax := ⟨ho, Tiers.spot_cache h⟩

/-! ## The ledger -/

section Ledger
variable {l : Ledger} {pool a b span : Nat} {f : Stats → Stats}

theorem less_comm (a n k : Nat) : less (less a n) k = less (less a k) n := by
  unfold less Cmem.L3.Pool.wrap
  omega

theorem Ledger.ext {l l' : Ledger} (hs : l.stats = l'.stats)
    (ha : l.arenas = l'.arenas) : l = l' := by
  cases l
  cases l'
  cases hs
  cases ha
  rfl

@[simp] theorem Ledger.arenas_onStats (l : Ledger) (q : Nat) (f : Stats → Stats) :
    (l.onStats q f).arenas = l.arenas := rfl

theorem Ledger.onStats_comm {g : Stats → Stats} (hfg : ∀ s, f (g s) = g (f s)) (q q' : Nat) :
    (l.onStats q f).onStats q' g = (l.onStats q' g).onStats q f := by
  refine Ledger.ext ?_ rfl
  unfold Ledger.onStats
  dsimp only
  by_cases hq : q = q'
  · subst hq
    simp only [Function.update_self, Function.update_idem, hfg]
  · rw [Function.update_of_ne hq, Function.update_of_ne (Ne.symm hq), Function.update_comm hq]

theorem Ledger.cleanUp_onStats (hf : ∀ s n, f (s.dropPool n) = (f s).dropPool n) (q : Nat) :
    (l.onStats q f).cleanUp e a = (l.cleanUp e a).onStats q f := by
  unfold Ledger.cleanUp
  rw [Ledger.arenas_onStats]
  by_cases hc : l.arenas.claimed a = true
  · rw [if_pos hc, if_pos hc]
  · rw [if_neg hc, if_neg hc]
    exact congrArg (·.onArenas (·.claim a))
      (Ledger.onStats_comm (g := (·.dropPool arenaSize)) (fun s => hf s arenaSize) q
        (e.arenaOwner a))

theorem Ledger.retire_onStats (hf : ∀ s n, f (s.dropPool n) = (f s).dropPool n) (q : Nat) :
    (l.onStats q f).retire e pool = (l.retire e pool).onStats q f := by
  unfold Ledger.retire
  dsimp only [Ledger.arenas_onStats]
  by_cases hR : l.arenas.current = 0 ∨ e.arenaOwner l.arenas.current ≠ pool
  · rw [if_pos hR, if_pos hR]
  · rw [if_neg hR, if_neg hR]
    by_cases h0 : (l.onArenas (·.detach l.arenas.current)).arenas.liveBytes l.arenas.current = 0
    · rw [if_pos h0]
      exact (if_pos h0).trans
        (Ledger.cleanUp_onStats (l := l.onArenas (·.detach l.arenas.current)) hf q)
    · rw [if_neg h0]
      exact if_neg h0

theorem Ledger.freeBlock_onStats (hf : ∀ s n, f (s.dropPool n) = (f s).dropPool n) (q : Nat) :
    (l.onStats q f).freeBlock e a span = (l.freeBlock e a span).onStats q f := by
  unfold Ledger.freeBlock
  dsimp only
  by_cases hl : l.arenas.liveBytes a = span ∧ l.arenas.retired a = true
  · rw [if_pos hl]
    exact (if_pos hl).trans (Ledger.cleanUp_onStats (l := l.onArenas (·.pay a span)) hf q)
  · rw [if_neg hl]
    exact if_neg hl

/-- What a cleanup reads and writes of the arenas is who has claimed them. -/
theorem Ledger.cleanUp_onArenas {g : Arenas → Arenas} (hg : ∀ s, (g s).claimed = s.claimed)
    (hc : ∀ s, (g s).claim a = g (s.claim a)) :
    (l.onArenas g).cleanUp e a = (l.cleanUp e a).onArenas g := by
  have hclaimed : (l.onArenas g).arenas.claimed = l.arenas.claimed := hg _
  unfold Ledger.cleanUp
  rw [hclaimed]
  by_cases h : l.arenas.claimed a = true
  · rw [if_pos h, if_pos h]
  · rw [if_neg h, if_neg h]
    exact Ledger.ext rfl (hc l.arenas)

theorem Ledger.cleanUp_detach (b : Nat) :
    (l.onArenas (·.detach b)).cleanUp e a = (l.cleanUp e a).onArenas (·.detach b) :=
  Ledger.cleanUp_onArenas (fun _ => rfl) fun _ => rfl

theorem Ledger.cleanUp_pay (b span : Nat) :
    (l.onArenas (·.pay b span)).cleanUp e a = (l.cleanUp e a).onArenas (·.pay b span) :=
  Ledger.cleanUp_onArenas (fun _ => rfl) fun _ => rfl

/-- An arena is cleaned up once. -/
theorem Ledger.cleanUp_twice : (l.cleanUp e a).cleanUp e a = l.cleanUp e a := by
  by_cases h : l.arenas.claimed a = true
  · have h1 : l.cleanUp e a = l := if_pos h
    rw [h1, h1]
  · have h1 : (l.cleanUp e a).arenas.claimed a = true := by
      unfold Ledger.cleanUp
      rw [if_neg h]
      exact Function.update_self ..
    exact if_pos h1

theorem Ledger.cleanUp_comm (h : a ≠ b) :
    (l.cleanUp e a).cleanUp e b = (l.cleanUp e b).cleanUp e a := by
  have hother (l : Ledger) {a b : Nat} (h : a ≠ b) :
    (l.cleanUp e a).arenas.claimed b = l.arenas.claimed b := by
    unfold Ledger.cleanUp
    split
    · rfl
    · exact Function.update_of_ne (Ne.symm h) ..
  by_cases ha : l.arenas.claimed a = true
  · rw [show l.cleanUp e a = l from if_pos ha]
    exact (if_pos ((hother l (Ne.symm h)).trans ha)).symm
  by_cases hb : l.arenas.claimed b = true
  · rw [show l.cleanUp e b = l from if_pos hb]
    exact if_pos ((hother l h).trans hb)
  have ha' : ¬ (l.cleanUp e b).arenas.claimed a = true := by rwa [hother l (Ne.symm h)]
  have hb' : ¬ (l.cleanUp e a).arenas.claimed b = true := by rwa [hother l h]
  rw [Ledger.cleanUp, if_neg hb', Ledger.cleanUp, if_neg ha, Ledger.cleanUp, if_neg ha',
    Ledger.cleanUp, if_neg hb]
  refine Ledger.ext ?_ ?_
  · have hc :=
      Ledger.onStats_comm (l := l) (f := (·.dropPool arenaSize)) (g := (·.dropPool arenaSize))
      (fun _ => rfl) (e.arenaOwner a) (e.arenaOwner b)
    have hs := congrArg Ledger.stats hc
    exact hs
  · show (l.arenas.claim a).claim b = (l.arenas.claim b).claim a
    unfold Arenas.claim
    dsimp only
    rw [Function.update_comm h]

theorem Ledger.cleanUp_fields :
    (l.cleanUp e a).arenas.current = l.arenas.current ∧
    (l.cleanUp e a).arenas.liveBytes = l.arenas.liveBytes ∧
      (l.cleanUp e a).arenas.retired = l.arenas.retired := by
  unfold Ledger.cleanUp
  split <;> exact ⟨rfl, rfl, rfl⟩

theorem Ledger.freeBlock_current : (l.freeBlock e a span).arenas.current = l.arenas.current := by
  unfold Ledger.freeBlock
  dsimp only
  split
  · exact Ledger.cleanUp_fields.1
  · rfl

theorem Ledger.freeBlock_liveBytes :
    (l.freeBlock e a span).arenas.liveBytes =
      Function.update l.arenas.liveBytes a (less (l.arenas.liveBytes a) span) := by
  unfold Ledger.freeBlock
  dsimp only
  split
  · exact Ledger.cleanUp_fields.2.1
  · rfl

theorem Ledger.retire_fields (h : l.arenas.current ≠ 0 → e.arenaOwner l.arenas.current = pool) :
    (l.retire e pool).arenas.current = 0 ∧
    (l.retire e pool).arenas.liveBytes = l.arenas.liveBytes := by
  unfold Ledger.retire
  dsimp only
  split
  · rename_i h1
    refine ⟨?_, rfl⟩
    by_contra hne
    exact h1.elim hne fun ho => ho (h hne)
  · split
    · exact ⟨Ledger.cleanUp_fields.1, Ledger.cleanUp_fields.2.1⟩
    · exact ⟨rfl, rfl⟩

/-- **A block of an arena is freed before the arena is retired or behind it**: while it is
live the arena has not gone, and the last of the two gives the arena back. -/
theorem Ledger.retire_freeBlock (h0 : 0 < span) (hle : span ≤ l.arenas.liveBytes a)
    (hlt : l.arenas.liveBytes a < 2 ^ 64) :
    (l.freeBlock e a span).retire e pool = (l.retire e pool).freeBlock e a span := by
  have hcur : (l.freeBlock e a span).arenas.current = l.arenas.current := Ledger.freeBlock_current
  by_cases hR : l.arenas.current = 0 ∨ e.arenaOwner l.arenas.current ≠ pool
  · rw [show l.retire e pool = l from if_pos hR]
    exact if_pos (by rwa [hcur])
  have hretire (l : Ledger) (hR : ¬(l.arenas.current = 0 ∨ e.arenaOwner l.arenas.current ≠ pool)) :
      l.retire e pool = if l.arenas.liveBytes l.arenas.current = 0
        then (l.onArenas (·.detach l.arenas.current)).cleanUp e l.arenas.current
        else l.onArenas (·.detach l.arenas.current) := if_neg hR
  rw [hretire _ (by rwa [hcur]), hretire l hR, hcur, Ledger.freeBlock_liveBytes]
  generalize l.arenas.current = b at hR
  have hlast (l : Ledger) : l.freeBlock e a span =
      if l.arenas.liveBytes a = span ∧ l.arenas.retired a = true then
        (l.onArenas (·.pay a span)).cleanUp e a
      else l.onArenas (·.pay a span) := rfl
  have hdet : ((l.onArenas (·.detach b)).onArenas (·.pay a span)) =
      (l.onArenas (·.pay a span)).onArenas (·.detach b) := rfl
  by_cases hab : a = b
  · -- the arena of the block: whoever is last cleans up
    subst hab
    have hpaid : less (l.arenas.liveBytes a) span = 0 ↔ l.arenas.liveBytes a = span := by
      unfold less Cmem.L3.Pool.wrap
      omega
    have hret : (l.onArenas (·.detach a)).arenas.retired a = true := Function.update_self ..
    rw [Function.update_self, if_neg (by omega : ¬ l.arenas.liveBytes a = 0), hlast, hlast, hdet]
    by_cases hl : l.arenas.liveBytes a = span
    · have hboth : (l.onArenas (·.detach a)).arenas.liveBytes a = span ∧
          (l.onArenas (·.detach a)).arenas.retired a = true := ⟨hl, hret⟩
      rw [if_pos (hpaid.mpr hl), if_pos hboth]
      split
      · rw [Ledger.cleanUp_detach, Ledger.cleanUp_twice, Ledger.cleanUp_detach]
      · rfl
    · rw [if_neg fun h => hl (hpaid.mp h), if_neg fun h => hl h.1, if_neg fun h => hl h.1]
  · -- another arena: the two have nothing to do with each other
    have hret : (l.onArenas (·.detach b)).arenas.retired a = l.arenas.retired a :=
      Function.update_of_ne hab ..
    rw [Function.update_of_ne (Ne.symm hab)]
    by_cases h1 : l.arenas.liveBytes b = 0
    · rw [if_pos h1, if_pos h1, hlast, hlast, Ledger.cleanUp_fields.2.1,
        Ledger.cleanUp_fields.2.2, hret,
        show (l.onArenas (·.detach b)).arenas.liveBytes a = l.arenas.liveBytes a
          from rfl, ← Ledger.cleanUp_pay, hdet]
      split
      · rw [← Ledger.cleanUp_detach, Ledger.cleanUp_comm hab]
      · rfl
    · rw [if_neg h1, if_neg h1, hlast, hlast, hret,
        show (l.onArenas (·.detach b)).arenas.liveBytes a = l.arenas.liveBytes a from rfl, hdet]
      split
      · rw [Ledger.cleanUp_detach]
      · rfl

/-- The thread goes to a pool: its arena is retired unless it is of that pool. -/
def Ledger.leave (e : Env) (l : Ledger) (q : Nat) : Ledger :=
  if e.arenaOwner l.arenas.current = q then l else l.retire e (e.arenaOwner l.arenas.current)

theorem Ledger.leave_none (h : l.arenas.current = 0) (q : Nat) : l.leave e q = l := by
  unfold Ledger.leave
  split
  · rfl
  · exact if_pos (.inl h)

theorem Ledger.leave_current (q : Nat) :
    (l.leave e q).arenas.current = 0 ∨ (l.leave e q = l ∧ e.arenaOwner l.arenas.current = q) := by
  unfold Ledger.leave
  split
  · exact .inr ⟨rfl, by assumption⟩
  · exact .inl (Ledger.retire_fields fun _ => rfl).1

theorem Ledger.leave_liveBytes (q : Nat) : (l.leave e q).arenas.liveBytes = l.arenas.liveBytes := by
  unfold Ledger.leave
  split
  · rfl
  · exact (Ledger.retire_fields fun _ => rfl).2

theorem Ledger.leave_twice (q : Nat) : (l.leave e q).leave e q = l.leave e q := by
  rcases Ledger.leave_current (e := e) (l := l) q with h | ⟨h, -⟩
  · exact Ledger.leave_none h q
  · rw [h, h]

/-- The arena is retired by the first switch that leaves its pool, whichever that is. -/
theorem Ledger.leave_comm (q q' : Nat) : (l.leave e q).leave e q' = (l.leave e q').leave e q := by
  have hleave (q : Nat) (h : e.arenaOwner l.arenas.current ≠ q) :
      l.leave e q = l.retire e (e.arenaOwner l.arenas.current) := if_neg h
  have hnone (q : Nat) : (l.retire e (e.arenaOwner l.arenas.current)).leave e q =
      l.retire e (e.arenaOwner l.arenas.current) :=
    Ledger.leave_none (Ledger.retire_fields fun _ => rfl).1 q
  by_cases h : e.arenaOwner l.arenas.current = q
  · rw [show l.leave e q = l from if_pos h]
    by_cases h' : e.arenaOwner l.arenas.current = q'
    · rw [show l.leave e q' = l from if_pos h', show l.leave e q = l from if_pos h]
    · rw [hleave q' h', hnone]
  · rw [hleave q h, hnone]
    by_cases h' : e.arenaOwner l.arenas.current = q'
    · rw [show l.leave e q' = l from if_pos h', hleave q h]
    · rw [hleave q' h', hnone]

theorem Ledger.leave_onStats (hf : ∀ s n, f (s.dropPool n) = (f s).dropPool n) (q q' : Nat) :
    (l.onStats q f).leave e q' = (l.leave e q').onStats q f := by
  unfold Ledger.leave
  rw [Ledger.arenas_onStats]
  split
  · rfl
  · exact Ledger.retire_onStats hf q

theorem Ledger.leave_freeBlock (h0 : 0 < span) (hle : span ≤ l.arenas.liveBytes a)
    (hlt : l.arenas.liveBytes a < 2 ^ 64) (q : Nat) :
    (l.freeBlock e a span).leave e q = (l.leave e q).freeBlock e a span := by
  unfold Ledger.leave
  rw [Ledger.freeBlock_current]
  split
  · rfl
  · exact Ledger.retire_freeBlock h0 hle hlt

end Ledger

/-! ## The switch of the cache -/

theorem Tiers.mem_cached {y : Nat × Nat} (h : y ∈ t.cached) :
    y.1 < classCount ∧ SlotOk y.2 ∧ y.2 ∈ t.slots y.1 := by
  obtain ⟨c, hc, hy⟩ := List.mem_flatMap.1 h
  obtain ⟨x, hx, rfl⟩ := List.mem_map.1 hy
  exact ⟨List.mem_range.1 hc, by simpa using List.mem_takeWhile_imp hx,
    (List.takeWhile_prefix _).sublist.subset hx⟩

theorem World.Tidy.count_cached (h : w.Tidy e) (x : Nat) :
    (w.tiers.cached.map Prod.snd).count x = total w.tiers.slots x := by
  unfold Tiers.cached total
  rw [List.map_flatMap, List.count_flatMap]
  congr 1
  apply List.map_congr_left
  intro c _
  have hw : (w.tiers.slots c).takeWhile (fun y => decide (SlotOk y)) = w.tiers.slots c :=
    List.takeWhile_eq_self_iff.2 fun y hy => by simpa using h.slot 0 c 0 .cache y hy
  simp only [Function.comp_apply, List.map_map, hw]
  congr 1
  exact List.map_id _

/-- A slot of the cache is put on its page. -/
theorem World.Tidy.giveBack (h : w.Tidy e) {y : Nat × Nat} (hy : SlotOk y.2) (hc : y.1 < classCount)
    (hq : q ≠ 0) : (w.giveBack e q y).Tidy e := by
  have stamped : World.Tidy e { w with mem := w.mem.store (y.2 + 24) 8 y.2 } := by
    refine ⟨h.slot, fun x hx => ?_, h.room, h.idle, h.home⟩
    have := hy.1
    exact store_even (by omega) (by omega) (h.ok hx).1 (h.link x hx)
  exact stamped.putAt hy hc hq fun h => nomatch h

theorem giveBack_fold (hq : q ≠ 0) (l : List (Nat × Nat)) (w : World)
    (hl : ∀ y ∈ l, y.1 < classCount ∧ SlotOk y.2) (h : w.Tidy e) :
    let w' := l.foldl (World.giveBack e q) w
    w'.Tidy e ∧ w'.tiers.owner = w.tiers.owner ∧ w'.tiers.slots = w.tiers.slots ∧
      (∀ q' x, (w'.tiers.slab q').count x =
        (w.tiers.slab q').count x + if q' = q then (l.map Prod.snd).count x else 0) ∧
      ∀ i, (∀ y ∈ l, ¬ Word y.2 i) → w'.mem i = w.mem i := by
  induction l generalizing w with
  | nil => exact ⟨h, rfl, rfl, fun q' x => by simp, fun _ _ => rfl⟩
  | cons y l ih =>
    obtain ⟨hc, hy⟩ := hl y List.mem_cons_self
    obtain ⟨h1, h2, h3, h5, h6⟩ :=
      ih (w.giveBack e q y) (fun z hz => hl z (List.mem_cons_of_mem _ hz))
      (h.giveBack hy hc hq)
    refine ⟨h1, h2, h3, fun q' x => ?_, fun i hi => ?_⟩
    · rw [List.foldl_cons, h5]
      simp only [World.giveBack, World.putAt, Tiers.put, Tiers.onSlab]
      by_cases hqq : q' = q
      · subst hqq
        simp only [Function.update_self, Slab.count_free, if_true, List.map_cons]
        by_cases hx : x = y.2
        · subst hx; simp only [if_true, List.count_cons_self]; omega
        · simp only [hx, if_false, List.count_cons_of_ne (Ne.symm hx), Nat.add_zero]
      · simp only [Function.update_of_ne hqq, hqq, if_false]
    · have hyi := hi y List.mem_cons_self
      rw [List.foldl_cons, h6 i fun z hz => hi z (List.mem_cons_of_mem _ hz)]
      unfold World.giveBack
      rw [World.mem_putAt hyi]
      exact Bytes.store_apart (by unfold Word at hyi; unfold Bytes.Apart; omega)

/-- What the switch of the cache to a pool leaves. -/
structure Switched (e : Env) (w : World) (q : Nat) (w' : World) : Prop where
  tidy : w'.Tidy e
  owner : w'.tiers.owner = q
  ledger : w'.toLedger = w.toLedger.leave e q
  free : ∀ q' x, w'.tiers.free q' x = w.tiers.free q' x
  mem : ∀ i, ¬ w.tiers.Scratch i → w'.mem i = w.mem i
  slotLen : ∀ cls, w'.tiers.slotLen q cls = w.tiers.slotLen q cls
  tlsfLen : ∀ i, w'.tlsfLen q i = w.tlsfLen q i

theorem World.Tidy.switched (h : w.Tidy e) (q : Nat) : Switched e w q (w.validateOwner e q) := by
  have hhome : w.arenas.current = 0 ∨ e.arenaOwner w.arenas.current = w.tiers.owner :=
    or_iff_not_imp_left.mpr fun hne => (h.home hne).2
  unfold World.validateOwner
  by_cases ho : w.tiers.owner = q
  · rw [if_pos ho]
    have hstays : w.toLedger.leave e q = w.toLedger := by
      rcases hhome with hn | hn
      · exact Ledger.leave_none hn q
      · exact if_pos (hn.trans ho)
    exact ⟨h, ho, hstays.symm, fun _ _ => rfl, fun _ _ => rfl, fun _ => rfl, fun _ => rfl⟩
  rw [if_neg ho]
  by_cases h0 : w.tiers.owner = 0
  · obtain ⟨hs, ht⟩ := h.idle h0
    have hnone : w.arenas.current = 0 := by
      by_contra hne
      exact (h.home hne).1 h0
    have hstays : w.toLedger.leave e q = w.toLedger := Ledger.leave_none hnone q
    have hfree : ∀ q' x, (w.own q).tiers.free q' x = w.tiers.free q' x := by
      intro q' x
      unfold Tiers.free Tiers.inCache World.own
      rw [total_empty hs, total_empty fun _ => rfl]; simp only [ite_self]
    rw [if_pos h0]
    refine ⟨⟨?_, ?_, fun _ => Nat.zero_le _, fun _ => ⟨fun _ => rfl, ht⟩,
      fun hne => absurd hnone hne⟩, rfl, hstays.symm, hfree, fun _ _ => rfl, ?_, ?_⟩
    · intro q' c a sp x hx
      cases sp with
      | cache => exact absurd hx List.not_mem_nil
      | percpu => exact h.slot q' c a .percpu x hx
      | remote => exact h.slot q' c a .remote x hx
      | page => exact h.slot q' c a .page x hx
    · rintro x ⟨q', hx⟩
      rw [hfree] at hx
      exact h.link x ⟨q', hx⟩
    · intro c; simp [Tiers.slotLen, World.own, ho]
    · intro i; simp [World.tlsfLen, World.own, ho, ht]
  · rw [if_neg h0]
    obtain ⟨f1, f2, f3, f5, f6⟩ := giveBack_fold (e := e) h0 w.tiers.cached w
      (fun y hy => ⟨(Tiers.mem_cached hy).1, (Tiers.mem_cached hy).2.1⟩) h
    have hfree : ∀ q' x, ((w.flushCache e).own q).tiers.free q' x = w.tiers.free q' x := by
      intro q' x
      unfold Tiers.free Tiers.inCache World.own World.flushCache
      simp only [f5, h.count_cached, total_empty fun _ => rfl, ite_self]
      by_cases hq : q' = w.tiers.owner
      · simp only [hq, if_true]; omega
      · simp only [hq, Ne.symm hq, if_false]; omega
    have hgoes : w.toLedger.retire e w.tiers.owner = w.toLedger.leave e q := by
      rcases hhome with hn | hn
      · exact (if_pos (.inl hn)).trans (Ledger.leave_none hn q).symm
      · have hgo : w.toLedger.leave e q = w.toLedger.retire e (e.arenaOwner w.arenas.current) :=
          if_neg (by rwa [hn])
        rw [hgo, hn]
    refine ⟨⟨?_, ?_, fun _ => Nat.zero_le _, fun _ => ⟨fun _ => rfl, fun _ => rfl⟩, fun hne => ?_⟩,
      rfl, hgoes, hfree, ?_, ?_, ?_⟩
    · intro q' c a sp x hx
      cases sp with
      | cache => exact absurd hx List.not_mem_nil
      | percpu => exact f1.slot q' c a .percpu x hx
      | remote => exact f1.slot q' c a .remote x hx
      | page => exact f1.slot q' c a .page x hx
    · rintro x ⟨q', hx⟩
      refine f1.link x ⟨q', Nat.lt_of_lt_of_le hx ?_⟩
      unfold Tiers.free Tiers.inCache World.own World.flushCache
      simp only [total_empty fun _ => rfl, ite_self]
      omega
    · exact absurd (Ledger.retire_fields fun hne => (h.home hne).2).1 hne
    · intro i hi
      refine f6 i fun y hy hw => hi ⟨y.2, ⟨w.tiers.owner, ?_⟩, hw⟩
      have : 0 < total w.tiers.slots y.2 := by
        rw [← h.count_cached]
        exact List.count_pos_iff.2 (List.mem_map_of_mem hy)
      unfold Tiers.free Tiers.inCache
      simp only [if_true]; omega
    · intro c; simp [Tiers.slotLen, World.own, World.flushCache, ho]
    · intro i; simp [World.tlsfLen, World.own, World.flushCache, ho]

/-- Where the switch moves the slots depends on the slots alone. -/
theorem tiers_validateOwner {w w' : World} (h : w.tiers = w'.tiers) :
    (w.validateOwner e q).tiers = (w'.validateOwner e q).tiers := by
  have fold : ∀ (q' : Nat) (l : List (Nat × Nat)) (v v' : World), v.tiers = v'.tiers →
      (l.foldl (World.giveBack e q') v).tiers = (l.foldl (World.giveBack e q') v').tiers := by
    intro q' l
    induction l with
    | nil => exact fun _ _ h => h
    | cons y l ih => exact fun v v' h => ih _ _ (by simp only [World.giveBack, World.putAt, h])
  unfold World.validateOwner World.flushCache World.own
  rw [h]
  split
  · exact h
  · split
    · rfl
    · simp only [fold w'.tiers.owner w'.tiers.cached w w' h]

theorem validateOwner_self (h : w.tiers.owner = q) : w.validateOwner e q = w := if_pos h

end

end Cmem.L3.BatchFree

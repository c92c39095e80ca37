import Mathlib
import Cmem.L3Pool.BatchSlots

/-!
# `mp_free_batch` and the same frees one by one

While blocks are collected, the state of the batch is behind the state of the single
frees (`Behind`): the statistics of the collected blocks are not yet settled, their
slots not yet free, their payloads not yet poisoned, and the thread may still have the arena
of another pool. Both states may have their slots in different places, because an element of
another pool that goes to `mp_free` switches the thread cache between them; what is counted
and what is free is the same.

`Quiet` compares an element as the two loops meet it, and says when it does not notice the
blocks collected before it.
-/
namespace Cmem.L3.BatchFree

open Cmem.L3.Pool (headerSize classCount)

/-! ## When an element is quiet -/

/-- The bytes of the header that are read. -/
def Head (p i : Nat) : Prop := p - headerSize ≤ i ∧ i < p - headerSize + 40

/-- The payload, with the canary. -/
def Body (p : Nat) (h : Header) (i : Nat) : Prop := p ≤ i ∧ i ≤ p + h.requested

/-- What freeing the block reads and writes. -/
def Foot (p : Nat) (h : Header) (i : Nat) : Prop :=
  Head p i ∨ Body p h i ∨ h.allocType = typeSlab ∧ Word h.rawBase i ∨
    h.inArena = true ∧ h.rawBase ≤ i ∧ i < h.rawBase + 8

/-- A header as the allocator writes them. -/
structure Genuine (e : Env) (p : Nat) (h : Header) : Prop where
  base : headerSize ≤ p
  arena : h.inArena = true → e.arenaOwner h.subpool ≠ 0 ∧ h.rawBase + 8 ≤ p
  slab : h.allocType = typeSlab → h.inArena = false ∧ h.slabClass < classCount ∧ SlotOk h.rawBase

/-- The byte is neither in a free slot's words nor in the blocks collected. -/
def Unwritten (w : World) (ps : List Nat) (i : Nat) : Prop :=
  ¬ w.tiers.Scratch i ∧ ∀ a ∈ ps, ¬ Foot a (header w.mem a) i

/-- The release of block `a` leaves the header of `p` alone, and its link the payload. -/
structure Beside (p : Nat) (h : Header) (a : Nat) (k : Header) : Prop where
  head : ∀ i, Head p i → ¬ Body a k i
  word : ∀ i, Head p i ∨ Body p h i → ¬ Word k.rawBase i

/-- An element that is collected: its header reads the same in both states and stands until
the release, its canary stands, and an uncounted one is counted as freed. It may have been
freed before, or be collected already. -/
structure Taken (e : Env) (pool : Nat) (s w : World) (ps : List Nat) (p : Nat)
    (h : Header) : Prop where
  genuine : Genuine e p h
  same : header s.mem p = h
  canary : (e.cfg pool).canary = true → s.mem (p + h.requested) = 0xDE
  counted : (e.cfg pool).threadSafe = true → h.counted = false →
    (e.cfg pool).fastPath = true ∧ s.tiers.slotLen pool h.slabClass < slotsMax
  off : ∀ i, Head p i ∨ Body p h i → ¬ w.tiers.Scratch i
  beside : ∀ a ∈ ps, Beside p h a (header w.mem a) ∧ Beside a (header w.mem a) p h

/-- An element that goes to `mp_free`: the thread cache is full in both states or in neither
where the statistics depend on it. No slot is free twice; a list with such a slot is a cycle,
which a switch of the cache would follow. -/
structure Passed (e : Env) (pool : Nat) (s w : World) (ps : List Nat) (p : Nat)
    (h : Header) : Prop where
  genuine : Genuine e p h
  foot : ∀ i, Foot p h i → Unwritten w ps i
  once : ∀ q x, s.tiers.free q x ≤ 1
  slab : h.allocType = typeSlab → (e.cfg (e.poolOf pool h)).threadSafe = true →
    (e.cfg (e.poolOf pool h)).fastPath = true → h.counted = false →
    (s.tiers.slotLen (e.poolOf pool h) h.slabClass < slotsMax ↔
      w.tiers.slotLen (e.poolOf pool h) h.slabClass < slotsMax)
  tlsf : h.allocType = typeTlsf → h.inArena = false → ∀ i, tlsfCacheIndex h.usable = some i →
    (s.tlsfLen (e.poolOf pool h) i < 8 ↔ w.tlsfLen (e.poolOf pool h) i < 8)
  arena : h.inArena = true → ps ≠ [] → 0 < arenaSpan w.mem h.rawBase ∧
    arenaSpan w.mem h.rawBase ≤ w.arenas.liveBytes h.subpool ∧ w.arenas.liveBytes h.subpool < 2 ^ 64

/-- The element, which one loop meets in state `s` and the batch in state `w` with the blocks
`ps` collected, does not notice them. -/
inductive Quiet (e : Env) (pool : Nat) (s w : World) (ps : List Nat) (p : Nat) : Prop
  | null (h : p = 0)
  | bare (hs : (header s.mem p).magic ≠ magicHead) (hw : (header w.mem p).magic ≠ magicHead)
  | alone (hs : s = w) (hp : ps = []) (hf : falls pool (header w.mem p) = true)
  | passed (hm : (header w.mem p).magic = magicHead) (hf : falls pool (header w.mem p) = true)
      (hp : Passed e pool s w ps p (header w.mem p))
  | taken (hf : falls pool (header w.mem p) = false) (ht : Taken e pool s w ps p (header w.mem p))
      (hw : s = w → w.Tidy e)

/-- A condition on every pair of states of the two loops and the element they meet there. -/
def Along (e : Env) (pool : Nat) (P : World → World → List Nat → Nat → Prop) :
    World → World × List Nat → List Nat → Prop
  | _, _, [] => True
  | s, b, p :: ptrs =>
    P s b.1 b.2 p ∧ Along e pool P (mpFree e pool s p) (batchStep e pool b p) ptrs

/-! ## Headers -/

section
variable {e : Env} {pool q p n i : Nat} {m m' : Bytes} {w : World} {h : Header}

theorem header_congr (hm : ∀ i, Head p i → m' i = m i) : header m' p = header m p := by
  unfold header
  simp only [Header.mk.injEq]
  refine ⟨?_, ?_, ?_, ?_, ?_, ?_, ?_, ?_⟩ <;>
    exact Bytes.le_congr fun i h1 h2 => hm i ⟨by omega, by omega⟩

/-! ## Statistics commute -/

/-- A change of the statistics that may change places with the release of a slab block and
with the cleanup of an arena. -/
structure Neutral (f : Stats → Stats) : Prop where
  discharge : ∀ s k, f (s.discharge k) = (f s).discharge k
  freeOp : ∀ s, f s.freeOp = (f s).freeOp
  unlink : ∀ s a, f (s.unlink a) = (f s).unlink a
  dropPool : ∀ s k, f (s.dropPool k) = (f s).dropPool k

theorem Neutral.comp {f g : Stats → Stats} (hf : Neutral f) (hg : Neutral g) :
    Neutral fun s => f (g s) :=
  ⟨fun s k => by rw [hg.discharge, hf.discharge], fun s => by rw [hg.freeOp, hf.freeOp],
    fun s a => by rw [hg.unlink, hf.unlink], fun s k => by rw [hg.dropPool, hf.dropPool]⟩

theorem Neutral.id : Neutral fun s => s :=
  ⟨fun _ _ => rfl, fun _ => rfl, fun _ _ => rfl, fun _ _ => rfl⟩

theorem neutral_discharge (k : Nat) : Neutral (·.discharge k) :=
  ⟨fun s j => by simp only [Stats.discharge, less_comm], fun _ => rfl, fun _ _ => rfl,
    fun _ _ => rfl⟩

theorem neutral_freeOp : Neutral (·.freeOp) :=
  ⟨fun _ _ => rfl, fun _ => rfl, fun _ _ => rfl, fun _ _ => rfl⟩

theorem neutral_unlink (a : Nat) : Neutral (·.unlink a) :=
  ⟨fun _ _ => rfl, fun _ => rfl, fun s b => by simp only [Stats.unlink, List.erase_comm],
    fun _ _ => rfl⟩

theorem neutral_report (r : Report) : Neutral (·.report r) :=
  ⟨fun _ _ => rfl, fun _ => rfl, fun _ _ => rfl, fun _ _ => rfl⟩

theorem neutral_dropTlsf (k : Nat) : Neutral (·.dropTlsf k) :=
  ⟨fun _ _ => rfl, fun _ => rfl, fun _ _ => rfl, fun _ _ => rfl⟩

theorem neutral_dropOs (k j : Nat) : Neutral (·.dropOs k j) :=
  ⟨fun _ _ => rfl, fun _ => rfl, fun _ _ => rfl,
    fun s n => by simp only [Stats.dropOs, Stats.dropPool, less_comm]⟩

theorem neutral_dropEmergency : Neutral (·.dropEmergency) :=
  ⟨fun _ _ => rfl, fun _ => rfl, fun _ _ => rfl, fun _ _ => rfl⟩

theorem neutral_dropPool (k : Nat) : Neutral (·.dropPool k) :=
  ⟨fun _ _ => rfl, fun _ => rfl, fun _ _ => rfl,
    fun s n => by simp only [Stats.dropPool, less_comm]⟩

theorem neutral_update (c : PoolCfg) (k a : Nat) : Neutral (·.update c k a) := by
  unfold Stats.update
  refine neutral_freeOp.comp ((neutral_discharge k).comp ?_)
  cases c.fastPath
  · exact neutral_unlink a
  · exact .id

theorem neutral_updateNoLock (k : Nat) : Neutral (·.updateNoLock k) :=
  neutral_freeOp.comp (neutral_discharge k)

theorem Neutral.ite {f g : Stats → Stats} (c : Prop) [Decidable c] (hf : Neutral f)
    (hg : Neutral g) : Neutral fun s => if c then f s else g s := by
  by_cases h : c
  · simpa only [h, if_true] using hf
  · simpa only [h, if_false] using hg

theorem neutral_slab (c : PoolCfg) (sp : Spot) (h h' : Header) (p : Nat) :
    Neutral (·.slab c sp h h' p) := by
  have hu := (neutral_updateNoLock h'.requested).ite h.counted Neutral.id
  refine Neutral.ite _ ?_ (Neutral.ite _ (Neutral.ite _ ?_ hu) ((neutral_unlink _).comp hu))
  · exact (neutral_update _ _ _).ite _ .id
  · exact neutral_freeOp.comp ((neutral_discharge _).ite _ .id)

theorem Neutral.slabBatch {f : Stats → Stats} (hf : Neutral f) (c : PoolCfg) (h : Header) (p : Nat)
    (s : Stats) : f (s.slabBatch c h p) = (f s).slabBatch c h p := by
  unfold Stats.slabBatch Stats.update
  by_cases h1 : (c.threadSafe : Prop) ∧ c.fastPath <;> by_cases h2 :
    (h.counted : Prop) <;> cases hc : c.fastPath <;>
    simp_all [hf.freeOp, hf.discharge, hf.unlink]

/-- The statistics of the collected blocks. -/
def settle (c : PoolCfg) (its : List (Nat × Header)) (s : Stats) : Stats :=
  its.foldl (fun s x => s.slabBatch c x.2 x.1) s

theorem Neutral.settle {f : Stats → Stats} (hf : Neutral f) (c : PoolCfg)
    (its : List (Nat × Header)) (s : Stats) : f (settle c its s) = settle c its (f s) := by
  induction its generalizing s with
  | nil => rfl
  | cons x its ih =>
    exact (ih _).trans (congrArg (BatchFree.settle c its) (hf.slabBatch c x.2 x.1 s))

/-- The two ways a slab block is counted agree. -/
theorem slab_eq {c : PoolCfg} {sp : Spot} {h : Header} {s : Stats}
    (hc : c.threadSafe = true → h.counted = false → c.fastPath = true ∧ sp = .cache) :
    s.slab c sp h h p = s.slabBatch c h p := by
  unfold Stats.slab Stats.slabBatch Stats.update Stats.updateNoLock
  cases h1 : c.threadSafe <;> cases h2 : h.counted <;> cases h3 : c.fastPath <;> simp_all
  rfl

end

/-! ## The relation -/

/-- A byte of a payload that the release of the collected blocks poisons. -/
def Poisoned (e : Env) (pool : Nat) (its : List (Nat × Header)) (i : Nat) : Prop :=
  (e.cfg pool).poison = true ∧ ∃ x ∈ its, x.1 ≤ i ∧ i < x.1 + x.2.requested

/-- Two collected blocks. -/
def Clash (x y : Nat × Header) : Prop := Beside x.1 x.2 y.1 y.2 ∧ Beside y.1 y.2 x.1 x.2

/-- The headers of the collected blocks. -/
structure Collected (e : Env) (w : World) (its : List (Nat × Header)) : Prop where
  reads : ∀ x ∈ its, header w.mem x.1 = x.2
  base : ∀ x ∈ its, headerSize ≤ x.1
  slab : ∀ x ∈ its, x.2.allocType = typeSlab ∧ x.2.slabClass < classCount ∧ SlotOk x.2.rawBase
  apart : its.Pairwise Clash
  off : ∀ x ∈ its, ∀ i, Head x.1 i ∨ Body x.1 x.2 i → ¬ w.tiers.Scratch i

/-- The ledger of the batch, as it is when the thread has gone to the pool of the collected
blocks. -/
def World.ahead (e : Env) (b : World) (pool : Nat) (its : List (Nat × Header)) : Ledger :=
  if its = [] then b.toLedger else b.toLedger.leave e pool

/-- The places of collected blocks, one after the other. -/
def placed (e : Env) (pool : Nat) (its : List (Nat × Header)) (t : Tiers) : Tiers :=
  its.foldl (fun t x => t.put e pool x.2.slabClass x.2.rawBase (t.spot e pool x.2.slabClass)) t

/-- `s` has freed the blocks one by one that `b` has only collected. `M`: an element went
to `mp_free` after the first of them. -/
structure Behind (e : Env) (pool : Nat) (M : Prop) (s b : World)
    (its : List (Nat × Header)) : Prop where
  tidy : s.Tidy e
  tidy' : b.Tidy e
  coll : Collected e b its
  ledger : s.toLedger = (b.ahead e pool its).onStats pool (settle (e.cfg pool) its)
  free : ∀ q x, s.tiers.free q x =
    b.tiers.free q x + if q = pool then (its.map fun y => y.2.rawBase).count x else 0
  mem : ∀ i, ¬ s.tiers.Scratch i → ¬ Poisoned e pool its i → s.mem i = b.mem i
  poison : ∀ i, ¬ s.tiers.Scratch i → Poisoned e pool its i → s.mem i = 0xDD
  same :
    ¬ M → s.tiers = if its = [] then b.tiers else placed e pool its (b.validateOwner e pool).tiers

section
variable {e : Env} {pool q p n i : Nat} {M : Prop} {s b : World} {its : List (Nat × Header)}
  {h : Header}

theorem onStats_nil (l : Ledger) : l.onStats pool (settle (e.cfg pool) []) = l :=
  Ledger.ext (Function.update_eq_self ..) rfl

theorem Behind.refl (h : s.Tidy e) : Behind e pool M s s [] where
  tidy := h
  tidy' := h
  coll := ⟨nofun, nofun, nofun, .nil, nofun⟩
  ledger := (onStats_nil _).symm
  free q x := by simp
  mem _ _ _ := rfl
  poison _ _ hp := by obtain ⟨-, x, hx, -⟩ := hp; exact absurd hx List.not_mem_nil
  same _ := (if_pos rfl).symm

/-- A free slot of the one state is one of the other, or that of a collected block. -/
theorem Behind.isFree (hB : Behind e pool M s b its) {x : Nat} (h : s.tiers.IsFree x) :
    b.tiers.IsFree x ∨ ∃ y ∈ its, y.2.rawBase = x := by
  obtain ⟨q, h⟩ := h
  rw [hB.free] at h
  by_cases h0 : 0 < b.tiers.free q x
  · exact .inl ⟨q, h0⟩
  · split at h
    · have := List.count_pos_iff.1 (show 0 < (its.map fun y => y.2.rawBase).count x by omega)
      exact .inr (by simpa using this)
    · omega

theorem Behind.isFree' (hB : Behind e pool M s b its) {x : Nat} (h : b.tiers.IsFree x) :
    s.tiers.IsFree x := by
  obtain ⟨q, h⟩ := h
  exact ⟨q, by rw [hB.free]; omega⟩

theorem Behind.scratch (hB : Behind e pool M s b its) (h : s.tiers.Scratch i) :
    b.tiers.Scratch i ∨ ∃ x ∈ its, Word x.2.rawBase i := by
  obtain ⟨x, hx, hw⟩ := h
  rcases hB.isFree hx with hf | ⟨y, hy, rfl⟩
  · exact .inl ⟨x, hf, hw⟩
  · exact .inr ⟨y, hy, hw⟩

theorem Behind.scratch' (hB : Behind e pool M s b its) (h : b.tiers.Scratch i) :
    s.tiers.Scratch i := by
  obtain ⟨x, hx, hw⟩ := h
  exact ⟨x, hB.isFree' hx, hw⟩

/-- Bytes that are neither scratch nor of a collected block. -/
def Clear (b : World) (its : List (Nat × Header)) (i : Nat) : Prop :=
  ¬ b.tiers.Scratch i ∧ ∀ x ∈ its, ¬ Foot x.1 x.2 i

theorem Behind.clear_of (hB : Behind e pool M s b its) (h : Unwritten b (its.map Prod.fst) i) :
    Clear b its i :=
  ⟨h.1, fun x hx hf => h.2 x.1 (List.mem_map_of_mem hx) (by rwa [hB.coll.reads x hx])⟩

theorem Clear.scratch (h : Clear b its i) (hB : Behind e pool M s b its) : ¬ s.tiers.Scratch i := by
  intro hs
  rcases hB.scratch hs with hb | ⟨y, hy, hw⟩
  · exact h.1 hb
  · exact h.2 y hy (.inr (.inr (.inl ⟨(hB.coll.slab y hy).1, hw⟩)))

theorem Clear.poisoned (h : Clear b its i) : ¬ Poisoned e pool its i := by
  rintro ⟨-, x, hx, h1, h2⟩
  exact h.2 x hx (.inr (.inl ⟨h1, Nat.le_of_lt h2⟩))

theorem Clear.mem (h : Clear b its i) (hB : Behind e pool M s b its) : s.mem i = b.mem i :=
  hB.mem i (h.scratch hB) h.poisoned

theorem Behind.mixed (hB : Behind e pool M s b its) : Behind e pool True s b its :=
  { hB with same := fun h => absurd trivial h }

theorem Tiers.IsFree.scratch {t : Tiers} {x : Nat} (h : t.IsFree x) : t.Scratch x :=
  ⟨x, h, .inl ⟨Nat.le_refl _, by omega⟩⟩

theorem World.Tidy.congr {w w' : World} (hw : w.Tidy e) (ht : w'.tiers = w.tiers)
    (hi : w'.tiers.owner = 0 → ∀ i, w'.tlsfSlots i = []) (hc : w'.arenas.current = w.arenas.current)
    (hm : ∀ i, w.tiers.Scratch i → w'.mem i = w.mem i) : w'.Tidy e where
  slot := by rw [ht]; exact hw.slot
  link x hx := by
    rw [ht] at hx
    rw [hm x hx.scratch]; exact hw.link x hx
  room := by rw [ht]; exact hw.room
  idle h := ⟨by rw [ht] at h ⊢; exact (hw.idle h).1, hi h⟩
  home := by rw [ht, hc]; exact hw.home

/-- Freeing a block changes the payload, the statistics and nothing else before its tier is
reached. -/
structure Kept (p n : Nat) (w w' : World) : Prop where
  tiers : w'.tiers = w.tiers
  arenas : w'.arenas = w.arenas
  slots : w'.tlsfSlots = w.tlsfSlots
  mem : ∀ i, ¬(p ≤ i ∧ i < p + n) → w'.mem i = w.mem i

theorem Kept.trans {w w' w'' : World} (h : Kept p n w w') (h' : Kept p n w' w'') : Kept p n w w'' :=
  ⟨h'.tiers.trans h.tiers, h'.arenas.trans h.arenas, h'.slots.trans h.slots,
    fun i hi => (h'.mem i hi).trans (h.mem i hi)⟩

theorem Kept.onStats (w : World) (q : Nat) (f : Stats → Stats) : Kept p n w (w.onStats q f) :=
  ⟨rfl, rfl, rfl, fun _ _ => rfl⟩

theorem Kept.poisonFill (w : World) (e : Env) (q : Nat) : Kept p n w (w.poisonFill e q p n) := by
  unfold World.poisonFill
  split
  · exact ⟨rfl, rfl, rfl, fun _ hi => if_neg hi⟩
  · exact ⟨rfl, rfl, rfl, fun _ _ => rfl⟩

theorem Kept.verifyCanary (w : World) (e : Env) (q : Nat) :
    Kept p n w (w.verifyCanary e q p n) := by
  unfold World.verifyCanary
  split
  · exact .onStats ..
  · exact ⟨rfl, rfl, rfl, fun _ _ => rfl⟩

theorem Kept.header {w w' : World} (hk : Kept p n w w') (hb : headerSize ≤ p) :
    BatchFree.header w'.mem p = BatchFree.header w.mem p :=
  header_congr fun i hi => hk.mem i fun h => by unfold Head at hi; unfold headerSize at *; omega

theorem Kept.tidy {w w' : World} (hk : Kept p n w w') (hw : w.Tidy e)
    (hs : ∀ i, p ≤ i → i < p + n → ¬ w.tiers.Scratch i) : w'.Tidy e :=
  hw.congr hk.tiers (fun h => by rw [hk.tiers] at h; rw [hk.slots]; exact (hw.idle h).2)
    (congrArg _ hk.arenas)
    fun i hi => hk.mem i fun hp => hs i hp.1 hp.2 hi

theorem Collected.header (hC : Collected e b its) {m : Bytes}
    (hm : ∀ x ∈ its, ∀ i, Head x.1 i → m i = b.mem i) {x : Nat × Header} (hx : x ∈ its) :
    BatchFree.header m x.1 = x.2 :=
  (header_congr fun i hi => hm x hx i hi).trans (hC.reads x hx)

theorem ahead_onStats {f : Stats → Stats} (hf : Neutral f) :
    (b.onStats q f).ahead e pool its = (b.ahead e pool its).onStats q f := by
  unfold World.ahead
  split
  · rfl
  · exact Ledger.leave_onStats hf.dropPool q pool

theorem neutral_settle (e : Env) (pool : Nat) (its : List (Nat × Header)) :
    Neutral (settle (e.cfg pool) its) where
  discharge s k := ((neutral_discharge k).settle _ _ s).symm
  freeOp s := (neutral_freeOp.settle _ _ s).symm
  unlink s a := ((neutral_unlink a).settle _ _ s).symm
  dropPool s k := ((neutral_dropPool k).settle _ _ s).symm

/-- An element that goes to `mp_free` changes the ledgers of both states, and bytes that
the collected blocks leave alone. -/
theorem Behind.step (hB : Behind e pool True s b its) {s' b' : World} (hs : s'.Tidy e)
    (hb : b'.Tidy e) (ts : s'.tiers = s.tiers) (tb : b'.tiers = b.tiers)
    (hm : ∀ i, s'.mem i = s.mem i ∧ b'.mem i = b.mem i ∨ Clear b its i ∧ s'.mem i = b'.mem i)
    (hst : s'.toLedger = (b'.ahead e pool its).onStats pool (settle (e.cfg pool) its)) :
    Behind e pool True s' b' its where
  tidy := hs
  tidy' := hb
  coll :=
    { hB.coll with
      reads := fun x hx => hB.coll.header (fun y hy i hf => by
        rcases hm i with ⟨-, h⟩ | ⟨hc, -⟩
        · exact h
        · exact absurd (.inl hf) (hc.2 y hy)) hx
      off := by rw [tb]; exact hB.coll.off }
  ledger := hst
  free := by rw [ts, tb]; exact hB.free
  mem i h1 h2 := by
    rw [ts] at h1
    rcases hm i with ⟨h3, h4⟩ | ⟨-, h⟩
    · rw [h3, h4]; exact hB.mem i h1 h2
    · exact h
  poison i h1 h2 := by
    rw [ts] at h1
    rcases hm i with ⟨h3, -⟩ | ⟨hc, -⟩
    · rw [h3]; exact hB.poison i h1 h2
    · exact absurd h2 hc.poisoned
  same h := absurd trivial h

theorem Behind.onStats (hB : Behind e pool True s b its) {f : Stats → Stats} (hf : Neutral f)
    (q : Nat) : Behind e pool True (s.onStats q f) (b.onStats q f) its := by
  refine hB.step (hB.tidy.congr rfl (fun h => (hB.tidy.idle h).2) rfl fun _ _ => rfl)
    (hB.tidy'.congr rfl (fun h => (hB.tidy'.idle h).2) rfl fun _ _ => rfl) rfl rfl
      (fun _ => .inl ⟨rfl, rfl⟩) ?_
  rw [ahead_onStats hf]
  show s.toLedger.onStats q f = _
  rw [hB.ledger]
  exact Ledger.onStats_comm (fun st => (hf.settle _ _ st).symm) pool q

theorem Behind.poisonFill (hB : Behind e pool True s b its)
    (hc : ∀ i, p ≤ i → i < p + n → Clear b its i) (q : Nat) :
    Behind e pool True (s.poisonFill e q p n) (b.poisonFill e q p n) its := by
  have ks : Kept p n s (s.poisonFill e q p n) := .poisonFill s e q
  have kb : Kept p n b (b.poisonFill e q p n) := .poisonFill b e q
  refine hB.step (ks.tidy hB.tidy fun i h1 h2 => (hc i h1 h2).scratch hB)
    (kb.tidy hB.tidy' fun i h1 h2 => (hc i h1 h2).1) ks.tiers kb.tiers (fun i => ?_) ?_
  · by_cases hi : p ≤ i ∧ i < p + n
    · refine .inr ⟨hc i hi.1 hi.2, ?_⟩
      unfold World.poisonFill
      split
      · exact (if_pos hi).trans (if_pos hi).symm
      · exact (hc i hi.1 hi.2).mem hB
    · exact .inl ⟨ks.mem i hi, kb.mem i hi⟩
  · have hl (w : World) : (w.poisonFill e q p n).toLedger = w.toLedger := by
      unfold World.poisonFill
      split <;> rfl
    unfold World.ahead
    rw [hl, hl]
    exact hB.ledger

theorem Behind.verifyCanary (hB : Behind e pool True s b its) (hc : Clear b its (p + n)) (q : Nat) :
    Behind e pool True (s.verifyCanary e q p n) (b.verifyCanary e q p n) its := by
  unfold World.verifyCanary
  rw [hc.mem hB]
  split
  · exact hB.onStats (neutral_report _) q
  · exact hB

/-- The switch of the cache in both states. -/
theorem Behind.switch (hB : Behind e pool True s b its) (q : Nat) :
    Behind e pool True (s.validateOwner e q) (b.validateOwner e q) its := by
  have hs := hB.tidy.switched q
  have hb := hB.tidy'.switched q
  refine ⟨hs.tidy, hb.tidy, ?_, ?_, ?_, ?_, ?_, fun h => absurd trivial h⟩
  · refine { hB.coll with reads := fun x hx => ?_, off := fun x hx i hf => ?_ }
    · exact hB.coll.header (fun y hy i hf => hb.mem i (hB.coll.off y hy i (.inl hf))) hx
    · rw [Tiers.scratch_congr hb.free]; exact hB.coll.off x hx i hf
  · have hahead : (b.validateOwner e q).ahead e pool its = (b.ahead e pool its).leave e q := by
      unfold World.ahead
      rw [hb.ledger]
      split
      · rfl
      · exact Ledger.leave_comm q pool
    rw [hs.ledger, hB.ledger, hahead]
    exact Ledger.leave_onStats (neutral_settle e pool its).dropPool pool q
  · intro q' x; rw [hs.free, hb.free, hB.free]
  · intro i h1 h2
    rw [Tiers.scratch_congr hs.free] at h1
    rw [hs.mem i h1, hb.mem i fun h => h1 (hB.scratch' h)]
    exact hB.mem i h1 h2
  · intro i h1 h2
    rw [Tiers.scratch_congr hs.free] at h1
    rw [hs.mem i h1]
    exact hB.poison i h1 h2

/-- The slot of an element of another pool is put in its place. -/
theorem Behind.place (hB : Behind e pool True s b its) {cls slot : Nat} (ho : s.tiers.owner = q)
    (ho' : b.tiers.owner = q) (hq : q ≠ 0) (hs : SlotOk slot) (hc : cls < classCount)
    (hw : ∀ i, Word slot i → Clear b its i) :
    Behind e pool True (s.putAt e q cls slot (s.tiers.spot e q cls))
      (b.putAt e q cls slot (b.tiers.spot e q cls)) its := by
  have one : ∀ {t : Tiers}, t.owner = q → (t.spot e q cls = .cache → t.owner = q) := fun h _ => h
  refine ⟨hB.tidy.putAt hs hc hq fun h => Tiers.spot_owner ho h,
    hB.tidy'.putAt hs hc hq fun h => Tiers.spot_owner ho' h, ?_, hB.ledger, ?_, ?_, ?_,
    fun h => absurd trivial h⟩
  · refine { hB.coll with reads := fun x hx => ?_, off := fun x hx i hf => ?_ }
    · exact hB.coll.header (fun y hy i hf => World.mem_putAt fun h => (hw i h).2 y hy (.inl hf)) hx
    · rw [World.tiers_putAt, Tiers.scratch_put hc (one ho')]
      rintro (h | h)
      · exact hB.coll.off x hx i hf h
      · exact (hw i h).2 x hx (hf.imp_right .inl)
  · intro q' x
    simp only [World.putAt, Tiers.free_put hc (one ho), Tiers.free_put hc (one ho'), hB.free]
    omega
  · intro i h1 h2
    rw [World.tiers_putAt, Tiers.scratch_put hc (one ho), not_or] at h1
    rw [World.mem_putAt h1.2, World.mem_putAt h1.2]
    exact hB.mem i h1.1 h2
  · intro i h1 h2
    rw [World.tiers_putAt, Tiers.scratch_put hc (one ho), not_or] at h1
    rw [World.mem_putAt h1.2]
    exact hB.poison i h1.1 h2

/-- A block goes to its arena in both states. -/
theorem Behind.freeArenaBlock (hB : Behind e pool True s b its) {a block : Nat}
    (hsp : arenaSpan s.mem block = arenaSpan b.mem block)
    (ha : its ≠ [] → 0 < arenaSpan b.mem block ∧ arenaSpan b.mem block ≤ b.arenas.liveBytes a ∧
      b.arenas.liveBytes a < 2 ^ 64) :
    Behind e pool True (s.freeArenaBlock e a block) (b.freeArenaBlock e a block) its := by
  refine hB.step
    (hB.tidy.congr rfl (fun h => (hB.tidy.idle h).2) Ledger.freeBlock_current fun _ _ => rfl)
    (hB.tidy'.congr rfl (fun h => (hB.tidy'.idle h).2) Ledger.freeBlock_current fun _ _ => rfl) rfl
      rfl
    (fun _ => .inl ⟨rfl, rfl⟩) ?_
  have hahead : (b.freeArenaBlock e a block).ahead e pool its =
      (b.ahead e pool its).freeBlock e a (arenaSpan b.mem block) := by
    unfold World.ahead
    split
    · rfl
    · rename_i h0
      obtain ⟨h1, h2, h3⟩ := ha h0
      exact Ledger.leave_freeBlock h1 h2 h3 pool
  show s.toLedger.freeBlock e a (arenaSpan s.mem block) = _
  rw [hsp, hB.ledger, hahead]
  exact Ledger.freeBlock_onStats (neutral_settle e pool its).dropPool pool

/-- A TLSF block goes to its arena, to the cache or to its area in both states. -/
theorem Behind.pushTlsf (hB : Behind e pool True s b its) (ho : s.tiers.owner = q)
    (ho' : b.tiers.owner = q) (hq : q ≠ 0)
    (hsp : h.inArena = true → arenaSpan s.mem h.rawBase = arenaSpan b.mem h.rawBase)
    (ha : h.inArena = true → its ≠ [] → 0 < arenaSpan b.mem h.rawBase ∧
      arenaSpan b.mem h.rawBase ≤ b.arenas.liveBytes h.subpool ∧
      b.arenas.liveBytes h.subpool < 2 ^ 64)
    (hl : h.inArena = false → ∀ i, tlsfCacheIndex h.usable = some i →
    (s.tlsfLen q i < 8 ↔ b.tlsfLen q i < 8)) :
    Behind e pool True (s.pushTlsf e q h) (b.pushTlsf e q h) its := by
  have h0 : ∀ {t : Tiers}, t.owner = q → t.owner = 0 → False := fun h1 h2 => hq (h1.symm.trans h2)
  have tlsf : ∀ {s' b' : World}, Behind e pool True s' b' its → s'.tiers.owner = q →
      b'.tiers.owner = q → ∀ s'' b'' : World, s''.toLedger = s'.toLedger →
      b''.toLedger = b'.toLedger → s''.tiers = s'.tiers → b''.tiers = b'.tiers → s''.mem = s'.mem →
      b''.mem = b'.mem → Behind e pool True s'' b'' its := by
    intro s' b' hB ho ho' s'' b'' hl hl' ht ht' hm hm'
    refine hB.step
      (hB.tidy.congr ht (fun h => (h0 ho (by rwa [ht] at h)).elim) (congrArg (·.arenas.current) hl)
      fun i _ => congrFun hm i) (hB.tidy'.congr ht' (fun h => (h0 ho' (by rwa [ht'] at h)).elim)
      (congrArg (·.arenas.current) hl') fun i _ => congrFun hm' i) ht ht'
      (fun i => .inl ⟨congrFun hm i, congrFun hm' i⟩) ?_
    unfold World.ahead
    rw [hl, hl']
    exact hB.ledger
  have drop : Behind e pool True
      { s.onStats q (·.dropTlsf h.usable) with tlsfFree := (h.rawBase, h.subpool) :: s.tlsfFree }
      { b.onStats q (·.dropTlsf h.usable) with
        tlsfFree := (h.rawBase, h.subpool) :: b.tlsfFree } its :=
    tlsf (hB.onStats (neutral_dropTlsf h.usable) q) ho ho' _ _ rfl rfl rfl rfl rfl rfl
  unfold World.pushTlsf
  split
  · rename_i hin
    exact hB.freeArenaBlock (hsp hin) (ha hin)
  rename_i hin
  split
  · rename_i i hi
    have hls : s.tlsfLen q i = (s.tlsfSlots i).length := if_pos ho
    have hlb : b.tlsfLen q i = (b.tlsfSlots i).length := if_pos ho'
    have same := hl (by simpa using hin) i hi
    rw [hls, hlb] at same
    simp only [same]
    split
    · exact tlsf hB ho ho' _ _ rfl rfl rfl rfl rfl rfl
    · exact drop
  · exact drop

theorem Clear.congr {b' : World} (h : Clear b its i) (ht : b'.tiers = b.tiers) : Clear b' its i :=
  ⟨by rw [ht]; exact h.1, h.2⟩

theorem arenaSpan_congr {m m' : Bytes} {block : Nat}
    (hm : ∀ i, block ≤ i → i < block + 8 → m' i = m i) :
    arenaSpan m' block = arenaSpan m block := by
  unfold arenaSpan
  rw [Bytes.le_congr hm]

/-- What the two states know of an element before its tier is reached. -/
structure Fits (e : Env) (s b : World) (its : List (Nat × Header)) (q p : Nat)
    (h : Header) : Prop where
  reads : header b.mem p = h
  clear : ∀ i, Foot p h i → Clear b its i
  slab : h.allocType = typeSlab → (e.cfg q).threadSafe = true → (e.cfg q).fastPath = true →
    h.counted = false →
    (s.tiers.slotLen q h.slabClass < slotsMax ↔ b.tiers.slotLen q h.slabClass < slotsMax)
  tlsf : h.allocType = typeTlsf → h.inArena = false → ∀ i, tlsfCacheIndex h.usable = some i →
    (s.tlsfLen q i < 8 ↔ b.tlsfLen q i < 8)
  arena : h.inArena = true → its ≠ [] → 0 < arenaSpan b.mem h.rawBase ∧
    arenaSpan b.mem h.rawBase ≤ b.arenas.liveBytes h.subpool ∧ b.arenas.liveBytes h.subpool < 2 ^ 64

theorem Fits.kept {s' b' : World} (hf : Fits e s b its q p h) (hg : Genuine e p h)
    (hs : Kept p n s s') (hb : Kept p n b b') : Fits e s' b' its q p h where
  reads := (hb.header hg.base).trans hf.reads
  clear i hi := (hf.clear i hi).congr hb.tiers
  slab := by rw [hs.tiers, hb.tiers]; exact hf.slab
  tlsf := by
    unfold World.tlsfLen
    rw [hs.tiers, hb.tiers, hs.slots, hb.slots]; exact hf.tlsf
  arena ha := by
    have hblock := (hg.arena ha).2
    rw [arenaSpan_congr (m := b.mem) fun i _ h2 => hb.mem i (by omega), hb.arenas]
    exact hf.arena ha

/-- The switch of the cache to the pool of the element. -/
theorem Fits.switch (hB : Behind e pool True s b its) (hf : Fits e s b its q p h) :
    Fits e (s.validateOwner e q) (b.validateOwner e q) its q p h := by
  have hs := hB.tidy.switched q
  have hb := hB.tidy'.switched q
  refine ⟨(header_congr fun i hi => hb.mem i (hf.clear i (.inl hi)).1).trans hf.reads,
    fun i hi => ?_, ?_, ?_, fun ha => ?_⟩
  · exact ⟨by rw [Tiers.scratch_congr hb.free]; exact (hf.clear i hi).1, (hf.clear i hi).2⟩
  · rw [hs.slotLen, hb.slotLen]; exact hf.slab
  · intro h1 h2 i hi
    rw [hs.tlsfLen, hb.tlsfLen]; exact hf.tlsf h1 h2 i hi
  · have hlive : (b.validateOwner e q).arenas.liveBytes = b.arenas.liveBytes :=
      (congrArg (·.arenas.liveBytes) hb.ledger).trans (Ledger.leave_liveBytes q)
    rw [arenaSpan_congr (m := b.mem) fun i h1 h2 =>
      hb.mem i (hf.clear i (.inr (.inr (.inr ⟨ha, h1, h2⟩)))).1, hlive]
    exact hf.arena ha

/-- Both states read the same header. -/
theorem Fits.header (hB : Behind e pool True s b its) (hf : Fits e s b its q p h) :
    BatchFree.header s.mem p = h :=
  (header_congr fun i hi => (hf.clear i (.inl hi)).mem hB).trans hf.reads

theorem Behind.release (hB : Behind e pool True s b its) (hq : q ≠ 0) (hf : Fits e s b its q p h) :
    Behind e pool True (s.release e q p h) (b.release e q p h) its := by
  unfold World.release
  split
  · rename_i ht
    have hB' := hB.switch q
    have hf' := hf.switch hB
    simp only [hf'.header hB', hf'.reads]
    refine hB'.pushTlsf (hB.tidy.switched q).owner (hB.tidy'.switched q).owner hq (fun ha => ?_)
      hf'.arena (hf'.tlsf ht)
    exact arenaSpan_congr fun i h1 h2 => (hf'.clear i (.inr (.inr (.inr ⟨ha, h1, h2⟩)))).mem hB'
  · split
    · have hd :=
        hB.onStats (neutral_dropOs h.requested (headerSize + if (e.cfg q).canary then 1 else 0)) q
      exact hd.step (hd.tidy.congr rfl (fun h => (hB.tidy.idle h).2) rfl fun _ _ => rfl)
        (hd.tidy'.congr rfl (fun h => (hB.tidy'.idle h).2) rfl fun _ _ => rfl) rfl rfl
          (fun _ => .inl ⟨rfl, rfl⟩) hd.ledger
    · split
      · exact hB.onStats neutral_dropEmergency q
      · exact hB

theorem Genuine.poolOf_ne (hg : Genuine e p h) (hpool : pool ≠ 0) : e.poolOf pool h ≠ 0 := by
  unfold Env.poolOf
  split
  · exact (hg.arena (by assumption)).1
  · split
    · exact hpool
    · split
      · split
        · exact hpool
        · assumption
      · assumption

theorem slab_spot {c : PoolCfg} {sp sp' : Spot} {st : Stats}
    (hc : c.threadSafe = true → c.fastPath = true → h.counted = false →
    (sp = .cache ↔ sp' = .cache)) : st.slab c sp h h p = st.slab c sp' h h p := by
  unfold Stats.slab Stats.updateNoLock
  cases h1 : c.threadSafe <;> cases h2 : h.counted <;> cases h3 : c.fastPath <;> simp_all

theorem Behind.freeSlab (hB : Behind e pool True s b its) (hq : q ≠ 0) (hg : Genuine e p h)
    (hf : Fits e s b its q p h) (ht : h.allocType = typeSlab) :
    Behind e pool True (s.freeSlab e q p h) (b.freeSlab e q p h) its := by
  obtain ⟨-, hcl, hsl⟩ := hg.slab ht
  have hB' := hB.switch q
  have hf' := hf.switch hB
  have hs := (hB.tidy.switched q).owner
  have hb := (hB.tidy'.switched q).owner
  have spots : (e.cfg q).threadSafe = true → (e.cfg q).fastPath = true → h.counted = false →
      ((s.validateOwner e q).tiers.spot e q h.slabClass = .cache ↔
        (b.validateOwner e q).tiers.spot e q h.slabClass = .cache) := by
    intro h1 h2 h3
    have hlen := hf'.slab ht h1 h2 h3
    rw [Tiers.slotLen, if_pos hs, Tiers.slotLen, if_pos hb] at hlen
    rw [Tiers.spot_eq_cache, Tiers.spot_eq_cache]
    exact hlen
  unfold World.freeSlab
  simp only [hf'.header hB', hf'.reads]
  have hst :=
    hB'.onStats (neutral_slab (e.cfg q) ((b.validateOwner e q).tiers.spot e q h.slabClass) h h p) q
  rw [show ((s.validateOwner e q).onStats q fun st =>
      st.slab (e.cfg q) ((s.validateOwner e q).tiers.spot e q h.slabClass) h h p) =
      (s.validateOwner e q).onStats q fun st =>
        st.slab (e.cfg q) ((b.validateOwner e q).tiers.spot e q h.slabClass) h h p from
    congrArg _ (funext fun _ => slab_spot spots)]
  exact hst.place hs hb hq hsl hcl fun i hi => hf'.clear i (.inr (.inr (.inl ⟨ht, hi⟩)))

theorem Behind.freeOther (hB : Behind e pool True s b its) (hq : q ≠ 0) (hg : Genuine e p h)
    (hf : Fits e s b its q p h) :
    Behind e pool True (s.freeOther e q p h) (b.freeOther e q p h) its := by
  unfold World.freeOther
  by_cases hcnt : h.counted = true
  · rw [if_pos hcnt, if_pos hcnt]
    exact (hB.onStats (neutral_update (e.cfg q) h.requested (p - headerSize)) q).release hq
      (hf.kept (n := 0) hg (.onStats ..) (.onStats ..))
  · rw [if_neg hcnt, if_neg hcnt]
    exact hB.release hq hf

/-! ## The element goes to `mp_free` -/

/-- What `mp_free` does before the tier of the block is reached. -/
def World.prepare (e : Env) (w : World) (q p : Nat) (h : Header) : World :=
  ((if h.inArena then w.onStats q (·.dropTlsf h.usable) else w).poisonFill e q p
    h.requested).verifyCanary e q p h.requested

theorem mpFree_genuine {w : World} (hh : header w.mem p = h) (hg : Genuine e p h)
    (hm : h.magic = magicHead) : mpFree e pool w p =
      if h.allocType = typeSlab then
        (w.prepare e (e.poolOf pool h) p h).freeSlab e (e.poolOf pool h) p h
      else (w.prepare e (e.poolOf pool h) p h).freeOther e (e.poolOf pool h) p h := by
  have hp0 : p ≠ 0 := by have := hg.base; unfold headerSize at this; omega
  unfold mpFree
  simp only [hh, if_neg hp0, hm, ne_eq, not_true_eq_false, if_false]
  rfl

theorem Kept.prepare (w : World) (e : Env) (q p : Nat) (h : Header) :
    Kept p h.requested w (w.prepare e q p h) := by
  refine .trans (.trans ?_ (.poisonFill _ e q)) (.verifyCanary _ e q)
  split
  · exact .onStats ..
  · exact ⟨rfl, rfl, rfl, fun _ _ => rfl⟩

theorem Behind.prepare (hB : Behind e pool True s b its) (hc : ∀ i, Foot p h i → Clear b its i)
    (q : Nat) : Behind e pool True (s.prepare e q p h) (b.prepare e q p h) its := by
  have B1 : Behind e pool True (if h.inArena then s.onStats q (·.dropTlsf h.usable) else s)
      (if h.inArena then b.onStats q (·.dropTlsf h.usable) else b) its := by
    split
    · exact hB.onStats (neutral_dropTlsf _) q
    · exact hB
  have t1 : (if h.inArena then b.onStats q (·.dropTlsf h.usable) else b).tiers = b.tiers := by
    split <;> rfl
  have hbody :
    ∀ i, Body p h i → Clear (if h.inArena then b.onStats q (·.dropTlsf h.usable) else b) its i :=
    fun i hi => (hc i (.inr (.inl hi))).congr t1
  have B2 := B1.poisonFill (n := h.requested) (fun i h1 h2 => hbody i ⟨h1, Nat.le_of_lt h2⟩) q
  exact B2.verifyCanary
    ((hbody _ ⟨Nat.le_add_right .., Nat.le_refl _⟩).congr (Kept.poisonFill _ e q).tiers) q

theorem Behind.passed (hB : Behind e pool True s b its) (hpool : pool ≠ 0)
    (hm : (header b.mem p).magic = magicHead)
    (hp : Passed e pool s b (its.map Prod.fst) p (header b.mem p)) :
    Behind e pool True (mpFree e pool s p) (mpFree e pool b p) its := by
  have hg := hp.genuine
  have hf : Fits e s b its (e.poolOf pool (header b.mem p)) p (header b.mem p) :=
    ⟨rfl, fun i hi => hB.clear_of (hp.foot i hi), hp.slab, hp.tlsf,
      fun ha h0 => hp.arena ha (by simpa using h0)⟩
  have hq := hg.poolOf_ne hpool
  generalize header b.mem p = h at *
  have hB' := hB.prepare hf.clear (e.poolOf pool h)
  have hf' := hf.kept hg (.prepare s e (e.poolOf pool h) p h) (.prepare b e (e.poolOf pool h) p h)
  rw [mpFree_genuine (hf.header hB) hg hm, mpFree_genuine hf.reads hg hm]
  by_cases ht : h.allocType = typeSlab
  · rw [if_pos ht, if_pos ht]
    exact hB'.freeSlab hq hg hf' ht
  · rw [if_neg ht, if_neg ht]
    exact hB'.freeOther hq hg hf'

/-- An element that `mp_free` reports. -/
theorem Behind.reported (hB : Behind e pool True s b its) (h1 : (header s.mem p).magic ≠ magicHead)
    (h2 : (header b.mem p).magic ≠ magicHead) :
    Behind e pool True (mpFree e pool s p) (mpFree e pool b p) its := by
  unfold mpFree
  by_cases h0 : p = 0
  · rw [if_pos h0, if_pos h0]; exact hB
  · simp only [if_neg h0, h1, h2, ne_eq, not_false_eq_true, if_true]
    exact hB.onStats (neutral_report _) pool

/-! ## A block is collected -/

theorem settle_append (c : PoolCfg) (its : List (Nat × Header)) (x : Nat × Header) (st : Stats) :
    settle c (its ++ [x]) st = (settle c its st).slabBatch c x.2 x.1 := by
  simp only [settle, List.foldl_append, List.foldl_cons, List.foldl_nil]

theorem placed_append (x : Nat × Header) (t : Tiers) : placed e pool (its ++ [x]) t =
    (placed e pool its t).put e pool x.2.slabClass x.2.rawBase
      ((placed e pool its t).spot e pool x.2.slabClass) := by
  simp only [placed, List.foldl_append, List.foldl_cons, List.foldl_nil]

theorem owner_placed (t : Tiers) : (placed e pool its t).owner = t.owner := by
  unfold placed
  induction its generalizing t with
  | nil => rfl
  | cons x its ih => rw [List.foldl_cons, ih, Tiers.owner_put]

theorem falls_eq_false (hf : falls pool h = false) :
    h.magic = magicHead ∧ (h.subpool = 0 ∨ h.subpool = pool) ∧ h.allocType = typeSlab := by
  simp only [falls, ne_eq, Bool.or_eq_false_iff, decide_eq_false_iff_not, Decidable.not_not,
    Bool.and_eq_false_imp, decide_eq_true_eq] at hf
  exact ⟨hf.1.1, by tauto, hf.2⟩

theorem Genuine.poolOf_self (hg : Genuine e p h) (hf : falls pool h = false) :
    e.poolOf pool h = pool := by
  obtain ⟨-, hs, ht⟩ := falls_eq_false hf
  obtain ⟨ha, -, -⟩ := hg.slab ht
  unfold Env.poolOf
  rw [ha, if_neg (by decide), ht, if_neg (by decide : ¬ typeSlab = typeTlsf)]
  rcases hs with h0 | h0
  · rw [if_pos h0]
  · split
    · rfl
    · exact h0

/-- The state in which the slot of a collected block is put in its place by `mp_free`: the
payload is poisoned, and the cache is that of the pool. -/
structure Ready (e : Env) (pool : Nat) (s : World) (p : Nat) (h : Header) (w : World) : Prop where
  tidy : w.Tidy e
  owner : w.tiers.owner = pool
  ledger : w.toLedger = s.toLedger.leave e pool
  free : ∀ q x, w.tiers.free q x = s.tiers.free q x
  mem : ∀ i, ¬ s.tiers.Scratch i → w.mem i = (s.poisonFill e pool p h.requested).mem i
  tiers : w.tiers = (s.validateOwner e pool).tiers
  frees :
    mpFree e pool s p =
      (w.onStats pool (·.slabBatch (e.cfg pool) h p)).putAt e pool h.slabClass h.rawBase
    (w.tiers.spot e pool h.slabClass)

/-- A byte of the element is not scratch in the other state either. -/
theorem Behind.off {ps : List Nat} (hB : Behind e pool M s b its) (ht : Taken e pool s b ps p h)
    (hps : ps = its.map Prod.fst) (hi : Head p i ∨ Body p h i) : ¬ s.tiers.Scratch i := by
  intro hs
  rcases hB.scratch hs with hb | ⟨x, hx, hw⟩
  · exact ht.off i hi hb
  · have hbes := (ht.beside x.1 (by rw [hps]; exact List.mem_map_of_mem hx)).1
    rw [hB.coll.reads x hx] at hbes
    exact hbes.word i hi hw

theorem Behind.ready (hB : Behind e pool M s b its) (hf : falls pool h = false)
    (ht : Taken e pool s b (its.map Prod.fst) p h) :
    Ready e pool s p h ((s.poisonFill e pool p h.requested).validateOwner e pool) := by
  obtain ⟨hm, -, hty⟩ := falls_eq_false hf
  have hg := ht.genuine
  obtain ⟨ha, -, -⟩ := hg.slab hty
  have kept : Kept p h.requested s (s.poisonFill e pool p h.requested) := .poisonFill s e pool
  have hoff : ∀ i, Head p i ∨ Body p h i → ¬ s.tiers.Scratch i := fun i hi => hB.off ht rfl hi
  have tidy1 : (s.poisonFill e pool p h.requested).Tidy e :=
    kept.tidy hB.tidy fun i h1 h2 => hoff i (.inr ⟨h1, Nat.le_of_lt h2⟩)
  have sw := tidy1.switched pool
  have hled : (s.poisonFill e pool p h.requested).toLedger = s.toLedger := by
    unfold World.poisonFill
    split <;> rfl
  have hmem : ∀ i, ¬ s.tiers.Scratch i →
      ((s.poisonFill e pool p h.requested).validateOwner e pool).mem i =
        (s.poisonFill e pool p h.requested).mem i :=
    fun i hi => sw.mem i (by rw [kept.tiers]; exact hi)
  -- the canary stands, so that nothing is reported
  have hv : (s.poisonFill e pool p h.requested).verifyCanary e pool p h.requested =
      s.poisonFill e pool p h.requested := by
    refine if_neg fun hc => hc.2 ?_
    rw [kept.mem _ (by omega)]
    exact ht.canary hc.1
  have hprep : s.prepare e pool p h = s.poisonFill e pool p h.requested := by
    unfold World.prepare
    rw [ha]
    exact hv
  have hread : header ((s.poisonFill e pool p h.requested).validateOwner e pool).mem p = h := by
    refine (header_congr fun i hi => hmem i (hoff i (.inl hi))).trans
      ((kept.header hg.base).trans ht.same)
  have hcache : (e.cfg pool).threadSafe = true → h.counted = false → (e.cfg pool).fastPath = true ∧
      ((s.poisonFill e pool p h.requested).validateOwner e pool).tiers.spot e pool h.slabClass =
        .cache := by
    intro h1 h2
    obtain ⟨h3, h4⟩ := ht.counted h1 h2
    have hlen := sw.slotLen h.slabClass
    rw [kept.tiers] at hlen
    rw [← hlen, Tiers.slotLen, if_pos sw.owner] at h4
    exact ⟨h3, Tiers.spot_eq_cache.mpr h4⟩
  refine ⟨sw.tidy, sw.owner, sw.ledger.trans (by rw [hled]),
    fun q x => (sw.free q x).trans (by rw [kept.tiers]), hmem, tiers_validateOwner kept.tiers, ?_⟩
  rw [mpFree_genuine ht.same hg hm, if_pos hty, hg.poolOf_self hf, hprep]
  unfold World.freeSlab
  simp only [hread]
  congr 2
  exact funext fun st => slab_eq hcache

theorem Collected.snoc (hC : Collected e b its) (hh : BatchFree.header b.mem p = h)
    (hs : h.allocType = typeSlab ∧ h.slabClass < classCount ∧ SlotOk h.rawBase)
    (ht : Taken e pool s b (its.map Prod.fst) p h) : Collected e b (its ++ [(p, h)]) := by
  refine ⟨?_, ?_, ?_, ?_, ?_⟩
  · intro x hx
    rcases List.mem_append.1 hx with hx | hx
    · exact hC.reads x hx
    · rw [List.mem_singleton.1 hx]; exact hh
  · intro x hx
    rcases List.mem_append.1 hx with hx | hx
    · exact hC.base x hx
    · rw [List.mem_singleton.1 hx]; exact ht.genuine.base
  · intro x hx
    rcases List.mem_append.1 hx with hx | hx
    · exact hC.slab x hx
    · rw [List.mem_singleton.1 hx]; exact hs
  · refine List.pairwise_append.2 ⟨hC.apart, List.pairwise_singleton _ _, fun x hx y hy => ?_⟩
    have hbes := ht.beside x.1 (List.mem_map_of_mem hx)
    rw [hC.reads x hx] at hbes
    rw [List.mem_singleton.1 hy]
    exact ⟨hbes.2, hbes.1⟩
  · intro x hx i hi
    rcases List.mem_append.1 hx with hx | hx
    · exact hC.off x hx i hi
    · rw [List.mem_singleton.1 hx] at hi; exact ht.off i hi

theorem Poisoned.snoc : Poisoned e pool (its ++ [(p, h)]) i ↔
    Poisoned e pool its i ∨ (e.cfg pool).poison = true ∧ p ≤ i ∧ i < p + h.requested := by
  unfold Poisoned
  simp only [List.mem_append, List.mem_singleton, or_and_right, exists_or, exists_eq_left,
    and_or_left]

/-- The payloads of the collected blocks and that of one more. -/
theorem Behind.poisoned (hB : Behind e pool M s b its) (hs : ¬ s.tiers.Scratch i) :
    (¬ Poisoned e pool (its ++ [(p, h)]) i → (s.poisonFill e pool p h.requested).mem i = b.mem i) ∧
      (Poisoned e pool (its ++ [(p, h)]) i → (s.poisonFill e pool p h.requested).mem i = 0xDD) := by
  rw [Poisoned.snoc]
  by_cases hp : (e.cfg pool).poison = true ∧ p ≤ i ∧ i < p + h.requested
  · have hfill : (s.poisonFill e pool p h.requested).mem i = 0xDD := by
      unfold World.poisonFill
      rw [if_pos hp.1]
      exact if_pos hp.2
    exact ⟨fun h => absurd (.inr hp) h, fun _ => hfill⟩
  · have hsame : (s.poisonFill e pool p h.requested).mem i = s.mem i := by
      unfold World.poisonFill
      split
      · rename_i hc
        exact if_neg fun h => hp ⟨hc, h⟩
      · rfl
    rw [hsame, or_iff_left hp]
    exact ⟨hB.mem i hs, hB.poison i hs⟩

theorem Ready.same {w : World} (hR : Ready e pool s p h w) (hB : Behind e pool M s b its)
    (hM : ¬ M) : w.tiers = placed e pool its (b.validateOwner e pool).tiers := by
  have hsame := hB.same hM
  rw [hR.tiers]
  by_cases h0 : its = []
  · rw [if_pos h0] at hsame
    rw [tiers_validateOwner hsame, h0]
    rfl
  · rw [if_neg h0] at hsame
    have ho : s.tiers.owner = pool := by
      rw [hsame, owner_placed]
      exact (hB.tidy'.switched pool).owner
    rw [validateOwner_self ho, hsame]

/-- An element that the batch collects is freed in the other state. -/
theorem Behind.taken (hB : Behind e pool M s b its) (hpool : pool ≠ 0) (hh : header b.mem p = h)
    (hf : falls pool h = false) (ht : Taken e pool s b (its.map Prod.fst) p h) :
    Behind e pool M (mpFree e pool s p) b (its ++ [(p, h)]) := by
  obtain ⟨-, -, hty⟩ := falls_eq_false hf
  obtain ⟨-, hcl, hsl⟩ := ht.genuine.slab hty
  have hR := hB.ready hf ht
  generalize (s.poisonFill e pool p h.requested).validateOwner e pool = w at hR
  have own : w.tiers.spot e pool h.slabClass = .cache → w.tiers.owner = pool := fun _ => hR.owner
  have tiers' : (mpFree e pool s p).tiers =
      w.tiers.put e pool h.slabClass h.rawBase (w.tiers.spot e pool h.slabClass) :=
    congrArg World.tiers hR.frees
  have scr : ∀ {i}, ¬ (mpFree e pool s p).tiers.Scratch i →
    ¬ s.tiers.Scratch i ∧ ¬ Word h.rawBase i := by
    intro i hi
    rw [tiers', Tiers.scratch_put hcl own, not_or, Tiers.scratch_congr hR.free] at hi
    exact hi
  have mem' : ∀ i, ¬ (mpFree e pool s p).tiers.Scratch i →
      (mpFree e pool s p).mem i = (s.poisonFill e pool p h.requested).mem i := by
    intro i hi
    obtain ⟨h1, h2⟩ := scr hi
    rw [hR.frees, World.mem_putAt h2]
    exact hR.mem i h1
  refine ⟨?_, hB.tidy', hB.coll.snoc hh ⟨hty, hcl, hsl⟩ ht, ?_, ?_, ?_, ?_, ?_⟩
  · rw [hR.frees]
    exact World.Tidy.putAt (hR.tidy.congr rfl (fun h => (hR.tidy.idle h).2) rfl fun _ _ => rfl)
      hsl hcl hpool
      fun h => Tiers.spot_owner hR.owner h
  · have hahead : b.ahead e pool (its ++ [(p, h)]) = (b.ahead e pool its).leave e pool := by
      unfold World.ahead
      rw [if_neg (by simp)]
      split
      · rfl
      · exact (Ledger.leave_twice pool).symm
    have hleft :
      w.toLedger = (b.ahead e pool (its ++ [(p, h)])).onStats pool (settle (e.cfg pool) its) := by
      rw [hR.ledger, hB.ledger, hahead]
      exact Ledger.leave_onStats (neutral_settle e pool its).dropPool pool pool
    rw [hR.frees]
    show w.toLedger.onStats pool (·.slabBatch (e.cfg pool) h p) = _
    rw [hleft]
    refine Ledger.ext ?_ rfl
    simp only [Ledger.onStats, Function.update_self, Function.update_idem, settle_append]
  · intro q x
    rw [tiers', Tiers.free_put hcl own, hR.free, hB.free]
    by_cases hq : q = pool
    · simp only [hq, if_true, true_and, List.map_append, List.count_append, List.map_cons,
        List.map_nil]
      by_cases hx : x = h.rawBase
      · subst hx; simp only [if_true, List.count_singleton_self]; omega
      · simp only [hx, if_false, List.count_cons_of_ne (Ne.symm hx), List.count_nil]
        omega
    · simp only [hq, if_false, false_and]
  · intro i h1 h2
    rw [mem' i h1]
    exact (hB.poisoned (scr h1).1).1 h2
  · intro i h1 h2
    rw [mem' i h1]
    exact (hB.poisoned (scr h1).1).2 h2
  · intro hM
    rw [if_neg (by simp), placed_append, tiers', hR.same hB hM]

/-! ## The collected blocks are released -/

theorem Collected.not_poisoned (hC : Collected e b its) {x : Nat × Header} (hx : x ∈ its)
    (hi : Head x.1 i) : ¬ Poisoned e pool its i := by
  have : Std.Symm Clash := ⟨fun _ _ h => ⟨h.2, h.1⟩⟩
  rintro ⟨-, y, hy, h3, h4⟩
  by_cases hxy : x = y
  · subst hxy
    have := hC.base x hx
    unfold Head headerSize at *; omega
  · exact (hC.apart.forall hx hy hxy).1.head i hi ⟨h3, Nat.le_of_lt h4⟩

/-- Phase A. -/
theorem poison_fold (e : Env) (pool : Nat) (w : World) (hr : ∀ x ∈ its, header w.mem x.1 = x.2)
    (ha : its.Pairwise Clash) :
    let w' :=
      (its.map Prod.fst).foldl (fun w p => w.poisonFill e pool p (header w.mem p).requested) w
    w'.tiers = w.tiers ∧ w'.tlsfSlots = w.tlsfSlots ∧ w'.toLedger = w.toLedger ∧
      ∀ i, (Poisoned e pool its i → w'.mem i = 0xDD) ∧
      (¬ Poisoned e pool its i → w'.mem i = w.mem i) := by
  induction its generalizing w with
  | nil =>
    exact ⟨rfl, rfl, rfl, fun i => ⟨fun ⟨_, x, hx, _⟩ => absurd hx List.not_mem_nil, fun _ => rfl⟩⟩
  | cons x its ih =>
    obtain ⟨hax, hat⟩ := List.pairwise_cons.1 ha
    have hx := hr x List.mem_cons_self
    have kept : Kept x.1 x.2.requested w (w.poisonFill e pool x.1 x.2.requested) :=
      .poisonFill w e pool
    have hfst : (x :: its).map Prod.fst = x.1 :: its.map Prod.fst := rfl
    rw [hfst, List.foldl_cons, hx]
    obtain ⟨h1, h2, h3, h4⟩ := ih (w.poisonFill e pool x.1 x.2.requested) (fun y hy => by
      rw [← hr y (List.mem_cons_of_mem _ hy)]
      exact header_congr fun i hi => kept.mem i fun h =>
        (hax y hy).2.head i hi ⟨h.1, Nat.le_of_lt h.2⟩) hat
    have hl : (w.poisonFill e pool x.1 x.2.requested).toLedger = w.toLedger := by
      unfold World.poisonFill; split <;> rfl
    refine ⟨h1.trans kept.tiers, h2.trans kept.slots, h3.trans hl, fun i => ⟨?_, fun hi => ?_⟩⟩
    · rintro ⟨hp, y, hy, hyi⟩
      by_cases hin : Poisoned e pool its i
      · exact (h4 i).1 hin
      · rcases List.mem_cons.1 hy with rfl | hy
        · rw [(h4 i).2 hin, World.poisonFill, if_pos hp]
          exact if_pos hyi
        · exact absurd ⟨hp, y, hy, hyi⟩ hin
    · have hn : ¬ Poisoned e pool its i := by
        rintro ⟨hp, y, hy, hyi⟩
        exact hi ⟨hp, y, List.mem_cons_of_mem _ hy, hyi⟩
      rw [(h4 i).2 hn]
      unfold World.poisonFill
      split
      · rename_i hp
        exact if_neg fun h => hi ⟨hp, x, List.mem_cons_self, h⟩
      · rfl

/-- Phase B. -/
theorem settle_fold (w : World) (hr : ∀ x ∈ its, header w.mem x.1 = x.2) :
    (its.map Prod.fst).foldl
      (fun w p => w.onStats pool (·.slabBatch (e.cfg pool) (header w.mem p) p)) w =
        w.onStats pool (settle (e.cfg pool) its) := by
  induction its generalizing w with
  | nil =>
    show w = { w with toLedger := w.toLedger.onStats pool (settle (e.cfg pool) []) }
    rw [onStats_nil]
  | cons x its ih =>
    have hfst : (x :: its).map Prod.fst = x.1 :: its.map Prod.fst := rfl
    rw [hfst, List.foldl_cons, hr x List.mem_cons_self]
    refine (ih (w.onStats pool (·.slabBatch (e.cfg pool) x.2 x.1)) fun y hy =>
      hr y (List.mem_cons_of_mem _ hy)).trans ?_
    simp only [World.onStats, Ledger.onStats, Function.update_self, Function.update_idem]
    rfl

/-- Phase D. -/
theorem place_fold (hpool : pool ≠ 0) (w : World) (hw : w.Tidy e) (ho : w.tiers.owner = pool)
    (hr : ∀ x ∈ its, header w.mem x.1 = x.2)
    (hs : ∀ x ∈ its, x.2.allocType = typeSlab ∧ x.2.slabClass < classCount ∧ SlotOk x.2.rawBase)
    (ha : its.Pairwise Clash) :
    let w' := (its.map Prod.fst).foldl
      (fun w p => w.place e pool (header w.mem p).slabClass (header w.mem p).rawBase) w
    w'.Tidy e ∧ w'.tiers = placed e pool its w.tiers ∧ w'.toLedger = w.toLedger ∧
      ∀ i, (∀ x ∈ its, ¬ Word x.2.rawBase i) → w'.mem i = w.mem i := by
  induction its generalizing w with
  | nil => exact ⟨hw, rfl, rfl, fun _ _ => rfl⟩
  | cons x its ih =>
    obtain ⟨hax, hat⟩ := List.pairwise_cons.1 ha
    obtain ⟨-, hcl, hsl⟩ := hs x List.mem_cons_self
    have hfst : (x :: its).map Prod.fst = x.1 :: its.map Prod.fst := rfl
    rw [hfst, List.foldl_cons, hr x List.mem_cons_self]
    obtain ⟨h1, h2, h3, h4⟩ := ih (w.place e pool x.2.slabClass x.2.rawBase)
      (hw.putAt hsl hcl hpool fun h => Tiers.spot_owner ho h)
        (by rw [World.place, World.tiers_putAt, Tiers.owner_put, ho])
      (fun y hy => by
        rw [← hr y (List.mem_cons_of_mem _ hy)]
        exact header_congr fun i hi => World.mem_putAt fun h => (hax y hy).2.word i (.inl hi) h)
      (fun y hy => hs y (List.mem_cons_of_mem _ hy)) hat
    refine ⟨h1, h2, h3, fun i hi => ?_⟩
    rw [h4 i fun y hy => hi y (List.mem_cons_of_mem _ hy)]
    exact World.mem_putAt (hi x List.mem_cons_self)

theorem free_placed (hs : ∀ x ∈ its, x.2.slabClass < classCount) {t : Tiers} (ho : t.owner = pool)
    (q x : Nat) : (placed e pool its t).free q x =
      t.free q x + if q = pool then (its.map fun y => y.2.rawBase).count x else 0 := by
  induction its generalizing t with
  | nil => simp [placed]
  | cons y its ih =>
    rw [placed, List.foldl_cons]
    refine (ih (fun z hz => hs z (List.mem_cons_of_mem _ hz)) (by rw [Tiers.owner_put, ho])).trans
      ?_
    rw [Tiers.free_put (hs y List.mem_cons_self) fun _ => ho]
    by_cases hq : q = pool
    · simp only [hq, true_and, if_true, List.map_cons]
      by_cases hx : x = y.2.rawBase
      · subst hx; simp only [if_true, List.count_cons_self]; omega
      · simp only [hx, if_false, List.count_cons_of_ne (Ne.symm hx), Nat.add_zero]
    · simp only [hq, false_and, if_false]

/-- The batch releases what it has collected. -/
structure Flushed (e : Env) (M : Prop) (s b' : World) : Prop where
  tidy : b'.Tidy e
  ledger : s.toLedger = b'.toLedger
  free : ∀ q x, s.tiers.free q x = b'.tiers.free q x
  mem : ∀ i, ¬ s.tiers.Scratch i → s.mem i = b'.mem i
  same : ¬ M → s.tiers = b'.tiers

theorem Behind.flushed (hB : Behind e pool M s b its) (hpool : pool ≠ 0) (h0 : its ≠ []) :
    Flushed e M s (flushSlabBlock e pool b (its.map Prod.fst)) := by
  have sw := hB.tidy'.switched pool
  have hr1 : ∀ x ∈ its, header (b.validateOwner e pool).mem x.1 = x.2 := fun x hx =>
    hB.coll.header (fun y hy i hf => sw.mem i (hB.coll.off y hy i (.inl hf))) hx
  obtain ⟨a1, a2, a3, a4⟩ := poison_fold e pool (b.validateOwner e pool) hr1 hB.coll.apart
  unfold flushSlabBlock
  dsimp only
  generalize (its.map Prod.fst).foldl (fun w p => w.poisonFill e pool p (header w.mem p).requested)
    (b.validateOwner e pool) = w2 at a1 a2 a3 a4 ⊢
  have hr2 : ∀ x ∈ its, header w2.mem x.1 = x.2 := fun x hx => by
    rw [← hr1 x hx]
    exact header_congr fun i hi => (a4 i).2 (hB.coll.not_poisoned hx hi)
  rw [settle_fold w2 hr2]
  have tidy2 : w2.Tidy e := sw.tidy.congr a1 (fun h i => by
      rw [a1] at h
      rw [a2]
      exact (sw.tidy.idle h).2 i) (congrArg (·.arenas.current) a3) fun i hi =>
        (a4 i).2 fun ⟨_, x, hx, h1, h2⟩ =>
    hB.coll.off x hx i (.inr ⟨h1, Nat.le_of_lt h2⟩) ((Tiers.scratch_congr sw.free).1 hi)
  obtain ⟨d1, d2, d3, d4⟩ := place_fold hpool (w2.onStats pool (settle (e.cfg pool) its))
    (tidy2.congr rfl (fun h => (tidy2.idle h).2) rfl fun _ _ => rfl) (by rw [← sw.owner, ← a1]; rfl)
      hr2 hB.coll.slab
    hB.coll.apart
  generalize (its.map Prod.fst).foldl
    (fun w p => w.place e pool (header w.mem p).slabClass (header w.mem p).rawBase)
    (w2.onStats pool (settle (e.cfg pool) its)) = w3 at d1 d2 d3 d4
  have d2 : w3.tiers = placed e pool its (b.validateOwner e pool).tiers :=
    d2.trans (by rw [← a1]; rfl)
  refine ⟨d1, ?_, ?_, ?_, ?_⟩
  · have hahead : b.ahead e pool its = (b.validateOwner e pool).toLedger :=
      (if_neg h0).trans sw.ledger.symm
    rw [d3, hB.ledger, hahead, ← a3]
    rfl
  · intro q x
    rw [hB.free, d2, free_placed (fun y hy => (hB.coll.slab y hy).2.1) sw.owner, sw.free]
  · intro i hi
    have hw : ∀ x ∈ its, ¬ Word x.2.rawBase i := by
      intro x hx hw
      refine hi ⟨x.2.rawBase, ⟨pool, ?_⟩, hw⟩
      rw [hB.free, if_pos rfl]
      have :=
        List.count_pos_iff.2 (List.mem_map_of_mem (f := fun y : Nat × Header => y.2.rawBase) hx)
      omega
    have hb := sw.mem i fun h => hi (hB.scratch' h)
    rw [d4 i hw, show (w2.onStats pool (settle (e.cfg pool) its)).mem = w2.mem from rfl]
    by_cases hp : Poisoned e pool its i
    · rw [(a4 i).1 hp, hB.poison i hi hp]
    · rw [(a4 i).2 hp, hB.mem i hi hp, hb]
  · intro hM
    rw [hB.same hM, if_neg h0, d2]

/-- At the end of a chunk nothing is collected. -/
theorem Flushed.behind {b' : World} (hF : Flushed e M s b') (hs : s.Tidy e) :
    Behind e pool M s b' [] where
  tidy := hs
  tidy' := hF.tidy
  coll := ⟨nofun, nofun, nofun, .nil, nofun⟩
  ledger := hF.ledger.trans (onStats_nil _).symm
  free q x := by rw [hF.free]; simp
  mem i h _ := hF.mem i h
  poison _ _ hp := by obtain ⟨-, x, hx, -⟩ := hp; exact absurd hx List.not_mem_nil
  same hM := (hF.same hM).trans (if_pos rfl).symm

/-! ## The loop -/

/-- The element is not handed to `mp_free`, or both loops are in one state. -/
def Collects (pool : Nat) (s w : World) (ps : List Nat) (p : Nat) : Prop :=
  p = 0 ∨ falls pool (header w.mem p) = false ∨ s = w ∧ ps = []

/-- The two loops: they are in one state until a block is collected. -/
def Follows (e : Env) (pool : Nat) (M : Prop) (s b : World) (its : List (Nat × Header)) : Prop :=
  s = b ∧ its = [] ∨ Behind e pool M s b its

theorem falls_of_bare (hm : h.magic ≠ magicHead) : falls pool h = true := by
  simp only [falls, hm, ne_eq, not_false_eq_true, decide_true, Bool.true_or]

theorem batchStep_falls {w : World} {ps : List Nat} (h0 : p ≠ 0)
    (hf : falls pool (header w.mem p) = true) :
    batchStep e pool (w, ps) p = (mpFree e pool w p, ps) := by
  unfold batchStep
  rw [if_neg h0, if_pos hf]

/-- A block is collected, and the chunk is released when it is full. -/
theorem Behind.collect (hB : Behind e pool M s b its) (hpool : pool ≠ 0) (h0 : p ≠ 0)
    (hf : falls pool (header b.mem p) = false)
    (ht : Taken e pool s b (its.map Prod.fst) p (header b.mem p)) :
    ∃ its', (batchStep e pool (b, its.map Prod.fst) p).2 = its'.map Prod.fst ∧
      Behind e pool M (mpFree e pool s p) (batchStep e pool (b, its.map Prod.fst) p).1 its' := by
  have hB' := hB.taken hpool rfl hf ht
  have hps : its.map Prod.fst ++ [p] = (its ++ [(p, header b.mem p)]).map Prod.fst := by
    rw [List.map_append]
    rfl
  unfold batchStep
  simp only [if_neg h0, hf, Bool.false_eq_true, if_false]
  split
  · refine ⟨[], rfl, ?_⟩
    rw [hps]
    exact (hB'.flushed hpool (by simp)).behind hB'.tidy
  · exact ⟨_, hps, hB'⟩

theorem Behind.batchStep (hB : Behind e pool M s b its) (hpool : pool ≠ 0)
    (hq : Quiet e pool s b (its.map Prod.fst) p)
    (hM : ¬ M → Collects pool s b (its.map Prod.fst) p) :
    ∃ its', (batchStep e pool (b, its.map Prod.fst) p).2 = its'.map Prod.fst ∧
      Follows e pool M (mpFree e pool s p) (batchStep e pool (b, its.map Prod.fst) p).1 its' := by
  by_cases h0 : p = 0
  · refine ⟨its, ?_, ?_⟩
    · rw [BatchFree.batchStep, if_pos h0]
    · rw [BatchFree.batchStep, if_pos h0, mpFree, if_pos h0]
      exact .inr hB
  by_cases hsb : s = b ∧ its = []
  · -- both loops do the same, until the first block is collected
    obtain ⟨rfl, rfl⟩ := hsb
    by_cases hf : falls pool (header s.mem p) = true
    · refine ⟨[], ?_, ?_⟩
      · rw [batchStep_falls h0 hf]
      · rw [batchStep_falls h0 hf]
        exact .inl ⟨rfl, rfl⟩
    · rw [Bool.not_eq_true] at hf
      cases hq with
      | null h => exact absurd h h0
      | bare hs hw => exact absurd (hf.symm.trans (falls_of_bare hw)) (by decide)
      | alone _ _ h => exact absurd (hf.symm.trans h) (by decide)
      | passed _ h _ => exact absurd (hf.symm.trans h) (by decide)
      | taken _ ht _ =>
        obtain ⟨its', h1, h2⟩ := hB.collect hpool h0 hf ht
        exact ⟨its', h1, .inr h2⟩
  -- where the element falls, a mixed array is no longer compared slot by slot
  have fallen : falls pool (header b.mem p) = true →
      (Behind e pool True s b its →
        Behind e pool True (mpFree e pool s p) (mpFree e pool b p) its) →
      ∃ its', (BatchFree.batchStep e pool (b, its.map Prod.fst) p).2 = its'.map Prod.fst ∧
        Follows e pool M (mpFree e pool s p) (BatchFree.batchStep e pool (b, its.map Prod.fst) p).1
          its' := by
    intro hf hstep
    have hm : M := by
      by_contra h
      rcases hM h with h | h | ⟨h1, h2⟩
      · exact h0 h
      · exact absurd (h.symm.trans hf) (by decide)
      · exact hsb ⟨h1, by simpa using h2⟩
    rw [batchStep_falls h0 hf]
    exact ⟨its, rfl, .inr { hstep hB.mixed with same := fun h => absurd hm h }⟩
  cases hq with
  | null h => exact absurd h h0
  | bare hs hw => exact fallen (falls_of_bare hw) fun hB => hB.reported hs hw
  | alone h1 h2 _ => exact absurd ⟨h1, by simpa using h2⟩ hsb
  | passed hm hf hp => exact fallen hf fun hB => hB.passed hpool hm hp
  | taken hf ht _ =>
    obtain ⟨its', h1, h2⟩ := hB.collect hpool h0 hf ht
    exact ⟨its', h1, .inr h2⟩

theorem Follows.batchStep (hF : Follows e pool M s b its) (hpool : pool ≠ 0)
    (hq : Quiet e pool s b (its.map Prod.fst) p)
    (hM : ¬ M → Collects pool s b (its.map Prod.fst) p) :
    ∃ its', (batchStep e pool (b, its.map Prod.fst) p).2 = its'.map Prod.fst ∧
      Follows e pool M (mpFree e pool s p) (batchStep e pool (b, its.map Prod.fst) p).1 its' := by
  rcases hF with ⟨rfl, rfl⟩ | hB
  · by_cases h0 : p = 0
    · refine ⟨[], ?_, ?_⟩
      · rw [BatchFree.batchStep, if_pos h0]
      · rw [BatchFree.batchStep, if_pos h0, mpFree, if_pos h0]
        exact .inl ⟨rfl, rfl⟩
    by_cases hf : falls pool (header s.mem p) = true
    · refine ⟨[], ?_, ?_⟩
      · rw [batchStep_falls h0 hf]
      · rw [batchStep_falls h0 hf]
        exact .inl ⟨rfl, rfl⟩
    · rw [Bool.not_eq_true] at hf
      have hw : s.Tidy e := by
        cases hq with
        | null h => exact absurd h h0
        | bare hs hw => exact absurd (hf.symm.trans (falls_of_bare hw)) (by decide)
        | alone _ _ h => exact absurd (hf.symm.trans h) (by decide)
        | passed _ h _ => exact absurd (hf.symm.trans h) (by decide)
        | taken _ _ hw => exact hw rfl
      have hB : Behind e pool M s s [] := .refl hw
      exact hB.batchStep hpool hq hM
  · exact hB.batchStep hpool hq hM

theorem Follows.loop (hF : Follows e pool M s b its) (hpool : pool ≠ 0) (ptrs : List Nat)
    (hq : Along e pool (Quiet e pool) s (b, its.map Prod.fst) ptrs)
    (hM : ¬ M → Along e pool (Collects pool) s (b, its.map Prod.fst) ptrs) :
    ∃ its', (ptrs.foldl (BatchFree.batchStep e pool) (b, its.map Prod.fst)).2 = its'.map Prod.fst ∧
      Follows e pool M (ptrs.foldl (mpFree e pool) s)
        (ptrs.foldl (BatchFree.batchStep e pool) (b, its.map Prod.fst)).1 its' := by
  induction ptrs generalizing s b its with
  | nil => exact ⟨its, rfl, hF⟩
  | cons p ptrs ih =>
    obtain ⟨its', h1, h2⟩ := hF.batchStep hpool hq.1 fun h => (hM h).1
    have hpair : BatchFree.batchStep e pool (b, its.map Prod.fst) p =
        ((BatchFree.batchStep e pool (b, its.map Prod.fst) p).1, its'.map Prod.fst) :=
      Prod.ext rfl h1
    rw [List.foldl_cons, List.foldl_cons, hpair]
    refine ih h2 ?_ fun h => ?_
    · rw [← hpair]; exact hq.2
    · rw [← hpair]; exact (hM h).2

/-! ## The batch -/

/-- The two states have the same statistics, live blocks, reports and dirty state, and
the same free slots. -/
def Same (x y : World) : Prop :=
  x.stats = y.stats ∧ ∀ q slot, x.tiers.free q slot = y.tiers.free q slot

end

/-! ## A block twice -/

end Cmem.L3.BatchFree

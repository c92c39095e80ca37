import Mathlib
import Cmem.Core.LTS
import Cmem.L2Arena.Ops

/-!
# Retiring an arena while other threads free its blocks

`tlsf_arena_alloc`, `tlsf_arena_free_block`, `tlsf_arena_reap`,
`tlsf_arena_retire` and `tlsf_arena_cleanup` (src/src/cmem_slab.c:199-364, an
NDEBUG build), broken up at their atomic operations. Threads are the elements
of an arbitrary finite type `T`; thread `o` owns the arena. Each thread has a
program counter `Pc`; one `tick` performs one atomic operation, or the accesses
to region memory that stand between two of them. Those accesses are to blocks
nobody else touches (the thread's own block, or the free list, which only the
attached owner and the one cleaner walk), so their grouping loses no
interleaving of the atomics.

The freed block's span is read first and used for the decrement, as in the C
code; `live_bytes` is a `Nat` (it counts at most one span per thread beyond the
region).

The freer that sees `prev_live == span` looks at `retired` in a later step.
Between the two the owner may allocate again and retire; the freer then claims
an arena that has a live block (`cleanup_with_live_block`). `CheckTimely` says
that this does not happen: a freer that finds the arena retired finds
`live_bytes` still at zero. Under it cleanup is safe (`retire_safe`).
-/
namespace Cmem.L2.ThreadArena

/-- Program counters. `none` in a reap is a plain `tlsf_arena_reap`, `some n`
the one at the head of `tlsf_arena_alloc(n)`. -/
inductive Pc where
  | idle
  | allocLoad (total : Nat)
  | reapExch (k : Option Nat)
  | reapNext (block : Nat) (k : Option Nat)
  | allocFind (total : Nat)
  | allocAdd (block : Nat)
  | freeOwner (block sp : Nat)
  | freeInsert (block sp : Nat)
  | pushLoad (block sp : Nat)
  | pushLink (block sp expected : Nat)
  | pushCas (block sp expected : Nat)
  | dec (sp : Nat)
  | check
  | claim
  | retireStore
  | retireLoad
  | cleanExch
  | cleanNext (block : Nat)
  | cleanRelease
  | cleanFinish
  deriving DecidableEq

/-- Descriptor, program counters, `tls_cache.tlsf_arena == arena` of the owner,
the blocks in callers' hands, and how often cleanup was entered. -/
structure Shared (T : Type) where
  A : Arena
  pc : T → Pc
  attached : Bool
  live : List Nat
  cleanups : Nat

variable {T : Type} [DecidableEq T]

def Shared.goto (s : Shared T) (t : T) (p : Pc) : Shared T :=
  { s with pc := Function.update s.pc t p }

/-- Take one block off a detached chain and insert it: the body of the loop of
`tlsf_arena_reap`. -/
def reapBlock (A : Arena) (block : Nat) : Arena :=
  tlsfArenaInsertFree (stampFree A block (span A.mem block)) block

/-- One step of thread `t`. -/
def Shared.tick (o : T) (s : Shared T) (t : T) : Shared T :=
  match s.pc t with
  | .idle => s
  -- tlsf_arena_alloc
  | .allocLoad n => s.goto t (if s.A.remoteFree ≠ 0 then .reapExch (some n) else .allocFind n)
  | .allocFind n =>
    let block := firstFit s.A.mem n s.A.size s.A.freeList
    if block = 0 then s.goto t .idle
    else { s with A := carve s.A block n }.goto t (.allocAdd block)
  | .allocAdd block =>
    { s with A := { s.A with liveBytes := s.A.liveBytes + span s.A.mem block },
             live := block :: s.live }.goto t .idle
  -- tlsf_arena_reap
  | .reapExch k => { s with A := { s.A with remoteFree := 0 } }.goto t (.reapNext s.A.remoteFree k)
  | .reapNext block k =>
    if block = 0 then s.goto t (match k with | none => .idle | some n => .allocFind n)
    else { s with A := reapBlock s.A block }.goto t (.reapNext (nextFree s.A.mem block) k)
  -- tlsf_arena_free_block
  | .freeOwner block sp =>
    s.goto t
      (if t = o ∧ s.attached ∧ ¬ s.A.retired then .freeInsert block sp else .pushLoad block sp)
  | .freeInsert block sp =>
    { s with A := tlsfArenaInsertFree (stampFree s.A block sp) block }.goto t (.dec sp)
  | .pushLoad block sp => s.goto t (.pushLink block sp s.A.remoteFree)
  | .pushLink block sp e =>
    { s with A := { s.A with mem := setNextFree s.A.mem block e } }.goto t (.pushCas block sp e)
  | .pushCas block sp e =>
    if s.A.remoteFree = e then { s with A := { s.A with remoteFree := block } }.goto t (.dec sp)
    else s.goto t (.pushLink block sp s.A.remoteFree)
  | .dec sp =>
    { s with A := { s.A with liveBytes := s.A.liveBytes - sp } }.goto t
      (if s.A.liveBytes = sp then .check else .idle)
  | .check => s.goto t (if s.A.retired then .claim else .idle)
  | .claim =>
    if s.A.cleanupClaimed then s.goto t .idle
    else
      { s with A := { s.A with cleanupClaimed := true }, cleanups := s.cleanups + 1 }.goto t
        .cleanExch
  -- tlsf_arena_retire
  | .retireStore =>
    { s with A := { s.A with retired := true }, attached := false }.goto t .retireLoad
  | .retireLoad => s.goto t (if s.A.liveBytes = 0 then .claim else .idle)
  -- tlsf_arena_cleanup
  | .cleanExch => { s with A := { s.A with remoteFree := 0 } }.goto t (.cleanNext s.A.remoteFree)
  | .cleanNext block =>
    if block = 0 then s.goto t .cleanRelease
    else { s with A := reapBlock s.A block }.goto t (.cleanNext (nextFree s.A.mem block))
  | .cleanRelease => { s with A := { s.A with raw := 0 } }.goto t .cleanFinish
  | .cleanFinish => { s with A := { s.A with finished := true } }.goto t .idle

/-- Calls, and steps inside them. -/
inductive Act (T : Type) where
  | callAlloc (total : Nat)
  | callReap
  | callRetire
  | callFree (t : T) (block : Nat)
  | tick (t : T)

/-- Only the owner allocates, reaps and retires, and only while attached; a
freed block is live. -/
def Shared.pre (o : T) (s : Shared T) : Act T → Prop
  | .callAlloc n => s.pc o = .idle ∧ s.attached = true ∧ minBlock ≤ n ∧ 8 ∣ n
  | .callReap => s.pc o = .idle ∧ s.attached = true
  | .callRetire => s.pc o = .idle ∧ s.attached = true
  | .callFree t b => s.pc t = .idle ∧ b ∈ s.live
  | .tick _ => True

instance Shared.decPre (o : T) (s : Shared T) : (l : Act T) → Decidable (s.pre o l)
  | .callAlloc n =>
    inferInstanceAs (Decidable (s.pc o = .idle ∧ s.attached = true ∧ minBlock ≤ n ∧ 8 ∣ n))
  | .callReap => inferInstanceAs (Decidable (s.pc o = .idle ∧ s.attached = true))
  | .callRetire => inferInstanceAs (Decidable (s.pc o = .idle ∧ s.attached = true))
  | .callFree t b => inferInstanceAs (Decidable (s.pc t = .idle ∧ b ∈ s.live))
  | .tick _ => inferInstanceAs (Decidable True)

/-- A freed block leaves its caller's hands with the call, which begins by
reading its span. -/
def Shared.next (o : T) (s : Shared T) : Act T → Shared T
  | .callAlloc n => s.goto o (.allocLoad n)
  | .callReap => s.goto o (.reapExch none)
  | .callRetire => s.goto o .retireStore
  | .callFree t b => { s with live := s.live.erase b }.goto t (.freeOwner b (span s.A.mem b))
  | .tick t => s.tick o t

/-- Runs from `tlsf_arena_init` with every thread idle. -/
def protocol (o : T) : LTS (Shared T) (Act T) :=
  .det (fun s => ∃ raw m, 0 < raw ∧ s = ⟨tlsfArenaInit raw m, fun _ => .idle, true, [], 0⟩)
    (Shared.pre o) (Shared.next o)

/-- Whether a step reads or writes region memory. -/
def Pc.touches : Pc → Bool
  | .reapNext block _ | .cleanNext block => block ≠ 0
  | .allocFind _ | .allocAdd _ | .freeInsert _ _ | .pushLink _ _ _ => true
  | _ => false

def Shared.accesses (s : Shared T) : Act T → Bool
  | .callFree _ _ => true
  | .tick t => (s.pc t).touches
  | _ => false

/-- A freer that saw the count reach zero and finds the arena retired finds the
count still at zero. -/
def CheckTimely (s : Shared T) : Act T → Prop
  | .tick t => s.pc t = .check → s.A.retired = true → s.A.liveBytes = 0
  | _ => True

instance (s : Shared T) : (l : Act T) → Decidable (CheckTimely s l)
  | .tick t =>
    inferInstanceAs (Decidable (s.pc t = .check → s.A.retired = true → s.A.liveBytes = 0))
  | .callAlloc _ | .callReap | .callRetire | .callFree _ _ => inferInstanceAs (Decidable True)

/-! ## What a program counter holds -/

/-- The block a thread has in its hands. -/
def Pc.held : Pc → Multiset Nat
  | .allocAdd b | .freeOwner b _ | .freeInsert b _ | .pushLoad b _ | .pushLink b _ _
  | .pushCas b _ _ => {b}
  | _ => 0

/-- The bytes a thread has still to subtract from `live_bytes`. -/
def Pc.owes : Pc → Nat
  | .freeOwner _ sp | .freeInsert _ sp | .pushLoad _ sp | .pushLink _ sp _ | .pushCas _ sp _
  | .dec sp => sp
  | _ => 0

/-- The rest of a detached mailbox chain. -/
def Pc.chain : Pc → Option Nat
  | .reapNext b _ | .cleanNext b => some b
  | _ => none

/-- Steps only the attached owner takes. -/
def Pc.ownerOnly : Pc → Bool
  | .allocLoad _ | .reapExch _ | .reapNext _ _ | .allocFind _ | .allocAdd _ | .freeInsert _ _
  | .retireStore => true
  | _ => false

/-- Inside `tlsf_arena_cleanup`. -/
def Pc.cleaning : Pc → Bool
  | .cleanExch | .cleanNext _ | .cleanRelease | .cleanFinish => true
  | _ => false

/-- What a thread knows about the block in its hands. -/
def Pc.Knows (m : Mem) : Pc → Prop
  | .freeOwner b sp | .freeInsert b sp | .pushLoad b sp | .pushLink b sp _ => span m b = sp
  | .pushCas b sp e => span m b = sp ∧ nextFree m b = e
  | .dec sp => minBlock ≤ sp
  | .allocLoad n | .allocFind n => minBlock ≤ n ∧ 8 ∣ n
  | .reapExch (some n) | .reapNext _ (some n) => minBlock ≤ n ∧ 8 ∣ n
  | _ => True

theorem Pc.Knows.congr {m m' : Mem} {p : Pc} (h : p.Knows m)
    (hb : ∀ b ∈ p.held, span m' b = span m b ∧ nextFree m' b = nextFree m b) : p.Knows m' := by
  cases p with
  | freeOwner b sp => exact (hb b (by simp [Pc.held])).1.trans h
  | freeInsert b sp => exact (hb b (by simp [Pc.held])).1.trans h
  | pushLoad b sp => exact (hb b (by simp [Pc.held])).1.trans h
  | pushLink b sp e => exact (hb b (by simp [Pc.held])).1.trans h
  | pushCas b sp e =>
    have hb := hb b (by simp [Pc.held])
    exact ⟨hb.1.trans h.1, hb.2.trans h.2⟩
  | reapExch k => cases k <;> exact h
  | reapNext b k => cases k <;> exact h
  | _ => exact h

/-! ## The structural half of the invariant -/

variable [Fintype T]

/-- All blocks in use: with callers, in the mailbox, on a detached chain, in a
thread's hands. -/
def inUse (pc : T → Pc) (live mb ch : List Nat) : Multiset Nat :=
  ↑live + ↑mb + ↑ch + ∑ t, (pc t).held

/-- Mailbox, chains, threads' knowledge and the byte count. -/
structure Facts (m : Mem) (rf lb : Nat) (pc : T → Pc) (live mb ch : List Nat) : Prop where
  mail : Chain (nextFree m) rf mb
  knows : ∀ t, (pc t).Knows m
  chain : ∀ t h, (pc t).chain = some h → Chain (nextFree m) h ch
  noChain : (∀ t, (pc t).chain = none) → ch = []
  count : lb = (live.map (span m)).sum + ∑ t, (pc t).owes

structure Core (A : Arena) (pc : T → Pc) (live as mb ch : List Nat) : Prop where
  tiled : Tiled False A as
  part : inUse pc live mb ch = ↑(usedOf A.mem as)
  facts : Facts A.mem A.remoteFree A.liveBytes pc live mb ch

section Structural
variable {A A' : Arena} {m m' : Mem} {rf lb b : Nat} {pc : T → Pc}
  {live mb ch as as' : List Nat} {t : T}
  {p : Pc}

theorem sum_goto {M : Type} [AddCommMonoid M] (f : Pc → M) (pc : T → Pc) (t : T) (p : Pc) :
    ∑ x, f (Function.update pc t p x) + f (pc t) = ∑ x, f (pc x) + f p := by
  have h1 :
    (fun x => f (Function.update pc t p x)) = Function.update (fun x => f (pc x)) t (f p) := by
    funext x
    exact Function.apply_update (fun _ => f) pc t p x
  rw [h1, Finset.sum_update_of_mem (Finset.mem_univ t),
    Finset.sum_eq_add_sum_sdiff_singleton_of_mem (Finset.mem_univ t) fun x => f (pc x)]
  rw [add_comm (f p), add_comm (f (pc t)), add_right_comm]

theorem sum_goto_eq {M : Type} [AddCommMonoid M] {f : Pc → M} (h : f p = f (pc t)) :
    ∑ x, f (Function.update pc t p x) = ∑ x, f (pc x) := by
  refine Finset.sum_congr rfl fun x _ => ?_
  by_cases e : x = t
  · subst e; rw [Function.update_self, h]
  · rw [Function.update_of_ne e]

omit [DecidableEq T] in
theorem Core.nodup (h : Core A pc live as mb ch) : (inUse pc live mb ch).Nodup := by
  rw [h.part]
  exact h.tiled.nodup.filter _

omit [DecidableEq T] in
theorem held_mem (hb : b ∈ (pc t).held) : b ∈ inUse pc live mb ch := by
  refine Multiset.mem_add.mpr (.inr ?_)
  exact Multiset.mem_sum.mpr ⟨t, Finset.mem_univ t, hb⟩

omit [DecidableEq T] in
theorem live_mem (hb : b ∈ live) : b ∈ inUse pc live mb ch := by
  simp [inUse, hb]

omit [DecidableEq T] in
/-- The facts survive memory changes outside the blocks in use. -/
theorem Facts.congr (h : Facts m rf lb pc live mb ch)
    (hk : ∀ a ∈ inUse pc live mb ch, span m' a = span m a ∧ nextFree m' a = nextFree m a) :
    Facts m' rf lb pc live mb ch := by
  refine ⟨h.mail.congr fun a ha => (hk a (by simp [inUse, ha])).2, fun t => (h.knows t).congr
    fun b hb => hk b (held_mem hb), fun t x hx => (h.chain t x hx).congr fun a ha =>
      (hk a (by simp [inUse, ha])).2, h.noChain, ?_⟩
  rw [h.count, List.map_congr_left fun a ha => ((hk a (live_mem ha)).1).symm]

/-- A step that only moves a program counter. -/
theorem Facts.goto (h : Facts m rf lb pc live mb ch) (ho : p.owes = (pc t).owes) (hkn : p.Knows m)
    (hp : p.chain = none) (ht : (pc t).chain = none ∨ ch = []) :
    Facts m rf lb (Function.update pc t p) live mb ch := by
  refine ⟨h.mail, fun x => ?_, fun x y hx => ?_, fun hn => ?_, ?_⟩
  · by_cases e : x = t
    · subst e; rw [Function.update_self]; exact hkn
    · rw [Function.update_of_ne e]; exact h.knows x
  · by_cases e : x = t
    · subst e; rw [Function.update_self, hp] at hx; cases hx
    · rw [Function.update_of_ne e] at hx; exact h.chain x y hx
  · rcases ht with ht | ht
    · refine h.noChain fun x => ?_
      by_cases e : x = t
      · rw [e]; exact ht
      · have := hn x; rwa [Function.update_of_ne e] at this
    · exact ht
  · rw [h.count, sum_goto_eq ho]

theorem inUse_goto (hh : p.held = (pc t).held) :
    inUse (Function.update pc t p) live mb ch = inUse pc live mb ch := by
  unfold inUse; rw [sum_goto_eq hh]

omit [DecidableEq T] in
/-- Only the fields the structure lives in matter. -/
theorem Core.descr (h : Core A pc live as mb ch) (h1 : A'.raw = A.raw) (h2 : A'.size = A.size)
    (h3 : A'.sentinel = A.sentinel) (h4 : A'.freeList = A.freeList) (h5 : A'.mem = A.mem)
    (h6 : A'.remoteFree = A.remoteFree) (h7 : A'.liveBytes = A.liveBytes) :
    Core A' pc live as mb ch := by
  refine ⟨h.tiled.congr h1 h2 h3 h4 (fun _ _ => by rw [h5]; exact ⟨rfl, rfl⟩)
    (fun _ _ _ => by rw [h5]; exact ⟨rfl, rfl⟩), by rw [h5]; exact h.part, ?_⟩
  rw [h5, h6, h7]; exact h.facts

theorem Core.goto (h : Core A pc live as mb ch) (hh : p.held = (pc t).held)
    (ho : p.owes = (pc t).owes) (hkn : p.Knows A.mem) (hp : p.chain = none)
    (ht : (pc t).chain = none ∨ ch = []) : Core A (Function.update pc t p) live as mb ch :=
  ⟨h.tiled, by rw [inUse_goto hh]; exact h.part, h.facts.goto ho hkn hp ht⟩

/-- The exchange: the mailbox becomes a detached chain. -/
theorem Core.exch (h : Core A pc live as mb ch) (hn : ∀ x, (pc x).chain = none)
    (hh : p.held = (pc t).held) (ho : p.owes = (pc t).owes) (hkn : p.Knows A.mem)
    (hp : p.chain = some A.remoteFree) :
    Core { A with remoteFree := 0 } (Function.update pc t p) live as [] mb := by
  obtain ⟨h1, h2, h3, h4, h5⟩ := h.facts
  have hch := h4 hn
  subst hch
  refine ⟨h.tiled.congr rfl rfl rfl rfl (fun _ _ => ⟨rfl, rfl⟩) (fun _ _ _ => ⟨rfl, rfl⟩), ?_, rfl,
    fun x => ?_, fun x y hx => ?_, fun hx => ?_, ?_⟩
  · rw [inUse_goto hh, ← h.part]
    simp [inUse]
  · by_cases e : x = t
    · subst e; rw [Function.update_self]; exact hkn
    · rw [Function.update_of_ne e]; exact h2 x
  · by_cases e : x = t
    · subst e; rw [Function.update_self, hp] at hx; cases hx; exact h1
    · rw [Function.update_of_ne e, hn x] at hx; cases hx
  · have := hx t; rw [Function.update_self, hp] at this; cases this
  · rw [sum_goto_eq ho]; exact h5

omit [DecidableEq T] in
/-- Releasing one block in use: what is left in use keeps its spans and links. -/
theorem Core.release (h : Core A pc live as mb ch) {pc' : T → Pc} {ch' : List Nat}
    (hb : inUse pc live mb ch = b ::ₘ inUse pc' live mb ch')
    (hf : Facts A.mem A.remoteFree A.liveBytes pc' live mb ch') :
    ∃ as', Core (tlsfArenaInsertFree (stampFree A b (span A.mem b)) b) pc' live as' mb ch' := by
  have hpart := h.part
  rw [hb] at hpart
  have hbu : b ∈ usedOf A.mem as := by
    rw [← Multiset.mem_coe, ← hpart]; exact Multiset.mem_cons_self _ _
  obtain ⟨as', t', hk, hu, hkeep⟩ := release_spec h.tiled hbu
  have hnd := h.nodup
  rw [hb, Multiset.nodup_cons] at hnd
  refine ⟨as', t', ?_, ?_⟩
  · rw [hu, ← Multiset.coe_erase, ← hpart, Multiset.erase_cons_head]
  · rw [hk.remoteFree, hk.liveBytes]
    refine hf.congr fun a ha => hkeep a ?_ ?_
    · rw [← Multiset.mem_coe, ← hpart]; exact Multiset.mem_cons_of_mem ha
    · rintro rfl; exact hnd.1 ha

/-- One round of a reap. -/
theorem Core.pop (h : Core A pc live as mb ch) (hc : (pc t).chain = some b) (h0 : b ≠ 0)
    (hu : ∀ x, x ≠ t → (pc x).chain = none) (hh : p.held = (pc t).held) (ho : p.owes = (pc t).owes)
    (hkn : p.Knows A.mem) (hp : p.chain = some (nextFree A.mem b)) :
    ∃ as' ch', Core (reapBlock A b) (Function.update pc t p) live as' mb ch' := by
  obtain ⟨ch', rfl, hch'⟩ := (h.facts.chain t b hc).exists_cons h0
  obtain ⟨h1, h2, h3, h4, h5⟩ := h.facts
  have hf : Facts A.mem A.remoteFree A.liveBytes (Function.update pc t p) live mb ch' := by
    refine ⟨h1, fun x => ?_, fun x y hx => ?_, fun hx => ?_, ?_⟩
    · by_cases e : x = t
      · subst e; rw [Function.update_self]; exact hkn
      · rw [Function.update_of_ne e]; exact h2 x
    · by_cases e : x = t
      · subst e; rw [Function.update_self, hp] at hx; cases hx; exact hch'
      · rw [Function.update_of_ne e, hu x e] at hx; cases hx
    · have := hx t; rw [Function.update_self, hp] at this; cases this
    · rw [sum_goto_eq ho]; exact h5
  obtain ⟨as', hc'⟩ := h.release (b := b) (by
    rw [inUse_goto hh]
    simp only [inUse, ← Multiset.cons_coe, Multiset.add_cons, Multiset.cons_add]) hf
  exact ⟨as', ch', hc'⟩

/-- The owner inserts the block it frees. -/
theorem Core.insert {sp : Nat} (h : Core A pc live as mb ch) (hpc : pc t = .freeInsert b sp) :
    ∃ as', Core (tlsfArenaInsertFree (stampFree A b sp) b) (Function.update pc t (.dec sp)) live as'
      mb ch := by
  have hk : span A.mem b = sp := by
    have := h.facts.knows t
    rwa [hpc] at this
  subst hk
  have hbu : b ∈ inUse pc live mb ch := held_mem (t := t) (by rw [hpc]; simp [Pc.held])
  rw [h.part, Multiset.mem_coe] at hbu
  have hmin := (h.tiled.mem_bounds (mem_usedOf.mp hbu).1).2.2.1
  have hsum := sum_goto Pc.held pc t (.dec (span A.mem b))
  rw [hpc] at hsum
  refine h.release ?_ (h.facts.goto (by rw [hpc]; rfl) hmin rfl (.inl (by rw [hpc]; rfl)))
  have h2 :
    ∑ x, (pc x).held = b ::ₘ ∑ x, (Function.update pc t (Pc.dec (span A.mem b)) x).held := by
    rw [← Multiset.singleton_add, Multiset.add_comm]
    exact (hsum.trans (add_zero _)).symm
  simp only [inUse, h2, Multiset.add_cons]

/-- A free block is carved; it is in the owner's hands until it is counted. -/
theorem Core.carve {n : Nat} (h : Core A pc live as mb ch) (hpc : pc t = .allocFind n)
    (hb : firstFit A.mem n A.size A.freeList = b) (h0 : b ≠ 0) :
    ∃ as', Core (carve A b n) (Function.update pc t (.allocAdd b)) live as' mb ch := by
  obtain ⟨hn, hd⟩ : minBlock ≤ n ∧ 8 ∣ n := by
    have := h.facts.knows t
    rwa [hpc] at this
  have hfit := firstFit_spec n A.size h.tiled.list.chain
    ((List.length_filter_le ..).trans h.tiled.length_le)
  have hfind : (as.filter (isFree A.mem)).find? (fun a => decide (n ≤ span A.mem a)) = some b := by
    have e := hfit.symm.trans hb
    cases hf : (as.filter (isFree A.mem)).find? fun a => decide (n ≤ span A.mem a) with
    | none => rw [hf] at e; exact absurd e.symm h0
    | some c => rw [hf] at e; exact congrArg some e
  obtain ⟨as', t', hk, hp, -, hkeep⟩ := carve_spec h.tiled (List.mem_of_find?_eq_some hfind) hn hd
    (by simpa using List.find?_some hfind)
  have hsum := sum_goto Pc.held pc t (.allocAdd b)
  rw [hpc] at hsum
  have h2 : ∑ x, (Function.update pc t (Pc.allocAdd b) x).held = b ::ₘ ∑ x, (pc x).held := by
    rw [← Multiset.singleton_add, Multiset.add_comm]
    exact (add_zero _).symm.trans hsum
  have hall :
    inUse (Function.update pc t (Pc.allocAdd b)) live mb ch = b ::ₘ inUse pc live mb ch := by
    simp only [inUse, h2, Multiset.add_cons]
  refine ⟨as', t', ?_, ?_⟩
  · rw [hall, h.part, Multiset.cons_coe]
    exact (Multiset.coe_eq_coe.mpr hp).symm
  · rw [hk.remoteFree, hk.liveBytes]
    -- the carved block is in nobody else's hands, so only old blocks in use matter
    obtain ⟨h1, h2, h3, h4, h5⟩ :
      Facts (ThreadArena.carve A b n).mem A.remoteFree A.liveBytes pc live mb ch :=
      h.facts.congr fun a ha => hkeep a (by rw [h.part] at ha; exact ha)
    exact Facts.goto ⟨h1, h2, h3, h4, h5⟩ (by rw [hpc]; rfl) trivial rfl (.inl (by rw [hpc]; rfl))

/-- The carved block is counted and handed out. -/
theorem Core.add (h : Core A pc live as mb ch) (hpc : pc t = .allocAdd b) :
    Core { A with liveBytes := A.liveBytes + span A.mem b } (Function.update pc t .idle)
      (b :: live) as mb
      ch := by
  have hsum := sum_goto Pc.held pc t .idle
  rw [hpc] at hsum
  obtain ⟨h1, h2, h3, h4, h5⟩ := h.facts.goto (t := t) (p := .idle) (by rw [hpc]; rfl) trivial rfl
    (.inl (by rw [hpc]; rfl))
  refine ⟨h.tiled.congr rfl rfl rfl rfl (fun _ _ => ⟨rfl, rfl⟩) (fun _ _ _ => ⟨rfl, rfl⟩), ?_,
    h1, h2, h3, h4, ?_⟩
  · rw [← h.part]
    have e : ∑ x, (pc x).held = b ::ₘ ∑ x, (Function.update pc t Pc.idle x).held := by
      rw [← Multiset.singleton_add, Multiset.add_comm]
      exact (hsum.trans (add_zero _)).symm
    simp only [inUse, e, ← Multiset.cons_coe, Multiset.add_cons, Multiset.cons_add]
  · dsimp only
    rw [List.map_cons, List.sum_cons, h5]; omega

/-- A call of `tlsf_arena_free_block` takes the block out of its caller's hands. -/
theorem Core.call (h : Core A pc live as mb ch) (hpc : pc t = .idle) (hb : b ∈ live) :
    Core A (Function.update pc t (.freeOwner b (span A.mem b))) (live.erase b) as mb ch := by
  have hsum := sum_goto Pc.held pc t (.freeOwner b (span A.mem b))
  have hsum2 := sum_goto Pc.owes pc t (.freeOwner b (span A.mem b))
  rw [hpc] at hsum hsum2
  obtain ⟨h1, h2, h3, h4, h5⟩ := h.facts
  have hl : (↑live : Multiset Nat) = b ::ₘ ↑(live.erase b) := by
    rw [← Multiset.coe_erase, Multiset.cons_erase (by simpa using hb)]
  refine ⟨h.tiled, ?_, h1, fun x => ?_, fun x y hx => ?_, fun hx => h4 fun x => ?_, ?_⟩
  · rw [← h.part]
    have e : ∑ x, (Function.update pc t (Pc.freeOwner b (span A.mem b)) x).held
        = b ::ₘ ∑ x, (pc x).held := by
      rw [← Multiset.singleton_add, Multiset.add_comm]
      exact (add_zero _).symm.trans hsum
    simp only [inUse, e, hl, Multiset.add_cons, Multiset.cons_add]
  · by_cases e : x = t
    · subst e; rw [Function.update_self]; exact rfl
    · rw [Function.update_of_ne e]; exact h2 x
  · by_cases e : x = t
    · subst e; rw [Function.update_self] at hx; cases hx
    · rw [Function.update_of_ne e] at hx; exact h3 x y hx
  · by_cases e : x = t
    · rw [e, hpc]; rfl
    · have := hx x; rwa [Function.update_of_ne e] at this
  · have e := List.sum_map_erase (span A.mem) hb
    simp only [Pc.owes] at hsum2 h5 ⊢
    omega

/-- Linking one's own block, before it is published. -/
theorem Core.link {sp e : Nat} (h : Core A pc live as mb ch) (hpc : pc t = .pushLink b sp e) :
    Core { A with mem := setNextFree A.mem b e } (Function.update pc t (.pushCas b sp e)) live as
      mb ch := by
  have hbh : b ∈ inUse pc live mb ch := held_mem (t := t) (by rw [hpc]; simp [Pc.held])
  have hbu : b ∈ usedOf A.mem as := by rw [h.part] at hbh; exact hbh
  obtain ⟨ht, hbl, hnx⟩ := h.tiled.setNext hbu e
  have hsp : span A.mem b = sp := by
    have := h.facts.knows t
    rwa [hpc] at this
  have hin : ∀ a ∈ inUse pc live mb ch, a ∈ as := by
    intro a ha
    rw [h.part] at ha
    exact (mem_usedOf.mp ha).1
  have hspan : ∀ a ∈ as, span (setNextFree A.mem b e) a = span A.mem a := fun a ha =>
    congrArg blockSize (hbl a ha)
  -- `b` is in this thread's hands and nowhere else
  have hsum := sum_goto Pc.held pc t .idle
  rw [hpc] at hsum
  have hsplit : inUse pc live mb ch = b ::ₘ inUse (Function.update pc t .idle) live mb ch := by
    have e : ∑ x, (pc x).held = b ::ₘ ∑ x, (Function.update pc t Pc.idle x).held := by
      rw [← Multiset.singleton_add, Multiset.add_comm]
      exact (hsum.trans (add_zero _)).symm
    simp only [inUse, e, Multiset.add_cons]
  have hnd := h.nodup
  rw [hsplit, Multiset.nodup_cons] at hnd
  have hother : ∀ a ∈ inUse (Function.update pc t .idle) live mb ch,
      span (setNextFree A.mem b e) a = span A.mem a ∧
        nextFree (setNextFree A.mem b e) a = nextFree A.mem a := by
    intro a ha
    have ham := hin a (by rw [hsplit]; exact Multiset.mem_cons_of_mem ha)
    exact ⟨hspan a ham, hnx a ham (by rintro rfl; exact hnd.1 ha)⟩
  obtain ⟨h1, h2, h3, h4, h5⟩ := h.facts
  have hupd : ∀ x, x ≠ t → Function.update pc t .idle x = pc x :=
    fun x hx => Function.update_of_ne hx ..
  refine ⟨ht, ?_, h1.congr fun a ha => (hother a (by simp [inUse, ha])).2, fun x => ?_,
    fun x y hx => ?_,
    fun hx => h4 fun x => ?_, ?_⟩
  · rw [inUse_goto (by rw [hpc]; rfl), h.part]
    exact congrArg _ (usedOf_congr fun a ha => congrArg freeBit (hbl a ha)).symm
  · by_cases ex : x = t
    · subst ex; rw [Function.update_self]
      exact ⟨(hspan b (hin b hbh)).trans hsp, Mem.set_self ..⟩
    · rw [Function.update_of_ne ex]
      refine (h2 x).congr fun a ha => hother a (held_mem (t := x) ?_)
      rw [hupd x ex]; exact ha
  · by_cases ex : x = t
    · subst ex; rw [Function.update_self] at hx; cases hx
    · rw [Function.update_of_ne ex] at hx
      exact (h3 x y hx).congr fun a ha => (hother a (by simp [inUse, ha])).2
  · by_cases ex : x = t
    · rw [ex, hpc]; rfl
    · have := hx x; rwa [Function.update_of_ne ex] at this
  · rw [sum_goto_eq (by rw [hpc]; rfl)]
    have e : live.map (span (setNextFree A.mem b e)) = live.map (span A.mem) :=
      List.map_congr_left fun a ha => (hother a (live_mem ha)).1
    dsimp only
    rw [e]; exact h5

/-- Publishing it. -/
theorem Core.push {sp : Nat} (h : Core A pc live as mb ch)
    (hpc : pc t = .pushCas b sp A.remoteFree) :
    Core { A with remoteFree := b } (Function.update pc t (.dec sp)) live as (b :: mb) ch := by
  have hbh : b ∈ inUse pc live mb ch := held_mem (t := t) (by rw [hpc]; simp [Pc.held])
  have hbm : b ∈ as := by rw [h.part] at hbh; exact (mem_usedOf.mp hbh).1
  obtain ⟨hb1, -, hb2, -⟩ := h.tiled.mem_bounds hbm
  have hpos := h.tiled.pos
  have hk : span A.mem b = sp ∧ nextFree A.mem b = A.remoteFree := by
    have := h.facts.knows t
    rwa [hpc] at this
  have hsum := sum_goto Pc.held pc t (.dec sp)
  rw [hpc] at hsum
  obtain ⟨h1, h2, h3, h4, h5⟩ := h.facts.goto (t := t) (p := .dec sp) (by rw [hpc]; rfl)
    (by rw [← hk.1]; exact hb2) rfl (.inl (by rw [hpc]; rfl))
  refine ⟨h.tiled.congr rfl rfl rfl rfl (fun _ _ => ⟨rfl, rfl⟩) (fun _ _ _ => ⟨rfl, rfl⟩), ?_,
    ⟨rfl, by omega, ?_⟩, h2, h3, h4, h5⟩
  · rw [← h.part]
    have e : ∑ x, (pc x).held = b ::ₘ ∑ x, (Function.update pc t (Pc.dec sp) x).held := by
      rw [← Multiset.singleton_add, Multiset.add_comm]
      exact (hsum.trans (add_zero _)).symm
    simp only [inUse, e, ← Multiset.cons_coe, Multiset.add_cons, Multiset.cons_add]
  · dsimp only
    rw [hk.2]; exact h1

/-- The decrement. -/
theorem Core.dec {sp : Nat} (h : Core A pc live as mb ch) (hpc : pc t = .dec sp) (hh : p.held = 0)
    (ho : p.owes = 0) (hkn : p.Knows A.mem) (hp : p.chain = none) :
    sp ≤ A.liveBytes ∧
      Core { A with liveBytes := A.liveBytes - sp } (Function.update pc t p) live as mb ch := by
  have hsum := sum_goto Pc.owes pc t p
  have hcount := h.facts.count
  rw [hpc, ho] at hsum
  simp only [Pc.owes] at hsum hcount
  refine ⟨by omega,
    h.tiled.congr rfl rfl rfl rfl (fun _ _ => ⟨rfl, rfl⟩) (fun _ _ _ => ⟨rfl, rfl⟩), ?_, ?_⟩
  · rw [inUse_goto (by rw [hpc, hh]; rfl)]; exact h.part
  · obtain ⟨h1, h2, h3, h4, h5⟩ := h.facts
    refine ⟨h1, fun x => ?_, fun x y hx => ?_, fun hx => h4 fun x => ?_, ?_⟩
    · by_cases e : x = t
      · subst e; rw [Function.update_self]; exact hkn
      · rw [Function.update_of_ne e]; exact h2 x
    · by_cases e : x = t
      · subst e; rw [Function.update_self, hp] at hx; cases hx
      · rw [Function.update_of_ne e] at hx; exact h3 x y hx
    · by_cases e : x = t
      · rw [e, hpc]; rfl
      · have := hx x; rwa [Function.update_of_ne e] at this
    · dsimp only
      simp only [Pc.owes] at h5 ⊢
      omega

omit [DecidableEq T] in
/-- A count of zero: nothing is live and no free is under way. -/
theorem Core.quiet (h : Core A pc live as mb ch) (h0 : A.liveBytes = 0) :
    live = [] ∧ ∀ t, (pc t).owes = 0 := by
  have hc := h.facts.count
  rw [h0] at hc
  constructor
  · cases live with
    | nil => rfl
    | cons a l =>
      have ha : a ∈ inUse pc (a :: l) mb ch := live_mem (by simp)
      rw [h.part] at ha
      have := (h.tiled.mem_bounds (mem_usedOf.mp ha).1).2.2.1
      rw [List.map_cons, List.sum_cons] at hc
      omega
  · intro t
    have : ∑ t, (pc t).owes = 0 := by omega
    exact (Finset.sum_eq_zero_iff.mp this) t (Finset.mem_univ t)

end Structural

/-! ## The control half -/

/-- Flags and program counters. -/
structure Ctl (o : T) (s : Shared T) : Prop where
  att : s.attached = !s.A.retired
  own : ∀ t, (s.pc t).ownerOnly = true → t = o ∧ s.attached = true
  atLoad : ∀ t, s.pc t = .retireLoad → s.A.retired = true
  atClaim : ∀ t, s.pc t = .claim → s.A.retired = true ∧ s.A.liveBytes = 0
  claimed : s.A.cleanupClaimed = true → s.A.retired = true ∧ s.A.liveBytes = 0
  cleaner : ∀ t, (s.pc t).cleaning = true → s.A.cleanupClaimed = true
  unique : ∀ t t', (s.pc t).cleaning = true → (s.pc t').cleaning = true → t = t'
  once : s.cleanups = if s.A.cleanupClaimed then 1 else 0

/-- After the release nobody is left inside the region. -/
def Pc.outside : Pc → Bool
  | .idle | .check | .claim | .retireLoad | .cleanFinish => true
  | _ => false

theorem Pc.outside_not_owner {p : Pc} (h : p.outside = true) : p.ownerOnly = false := by
  cases p <;> first | rfl | cases h

theorem Pc.outside_not_touching {p : Pc} (h : p.outside = true) : p.touches = false := by
  cases p <;> first | rfl | cases h

structure Gone (s : Shared T) : Prop where
  claimed : s.A.cleanupClaimed = true
  live : s.live = []
  outside : ∀ t, (s.pc t).outside = true

/-- **The protocol invariant.** -/
structure Safe (o : T) (s : Shared T) : Prop where
  ctl : Ctl o s
  core : s.A.raw ≠ 0 → ∃ as mb ch, Core s.A s.pc s.live as mb ch
  gone : s.A.raw = 0 → Gone s

section Control
variable {o t : T} {s s' : Shared T} {p : Pc}

/-- What is asked of a thread that goes on at `p`. -/
structure MayGo (o : T) (s : Shared T) (t : T) (p : Pc) : Prop where
  own : p.ownerOnly = true → t = o ∧ s.attached = true
  load : p = .retireLoad → s.A.retired = true
  claim : p = .claim → s.A.retired = true ∧ s.A.liveBytes = 0
  clean : p.cleaning = true → (s.pc t).cleaning = true

/-- Nothing is asked there. -/
def Pc.plain : Pc → Bool
  | .idle | .freeOwner _ _ | .pushLoad _ _ | .pushLink _ _ _ | .pushCas _ _ _ | .dec _
  | .check => true
  | _ => false

omit [DecidableEq T] [Fintype T] in
theorem MayGo.plain (hp : p.plain = true) : MayGo o s t p := by
  cases p <;> first | exact absurd hp Bool.false_ne_true | exact ⟨nofun, nofun, nofun, nofun⟩

omit [DecidableEq T] [Fintype T] in
theorem MayGo.owner (ht : t = o ∧ s.attached = true) (hp : p.ownerOnly = true) : MayGo o s t p := by
  cases p <;> first | exact absurd hp Bool.false_ne_true | exact ⟨fun _ => ht, nofun, nofun, nofun⟩

omit [DecidableEq T] [Fintype T] in
theorem MayGo.cleaner (ht : (s.pc t).cleaning = true) (hp : p.cleaning = true) : MayGo o s t p := by
  cases p <;> first | exact absurd hp Bool.false_ne_true | exact ⟨nofun, nofun, nofun, fun _ => ht⟩

omit [DecidableEq T] [Fintype T] in
theorem MayGo.claims (hr : s.A.retired = true) (h0 : s.A.liveBytes = 0) : MayGo o s t .claim :=
  ⟨nofun, nofun, fun _ => ⟨hr, h0⟩, nofun⟩

omit [Fintype T] in
/-- A step of one thread that sets neither flag. -/
theorem Ctl.move (h : Ctl o s) (hg : MayGo o s t p) (hpc : s'.pc = Function.update s.pc t p)
    (hat : s'.attached = s.attached) (hcl : s'.cleanups = s.cleanups)
    (hr : s'.A.retired = s.A.retired) (hc : s'.A.cleanupClaimed = s.A.cleanupClaimed)
    (hl : s.A.retired = true → s.A.liveBytes = 0 → s'.A.liveBytes = 0) : Ctl o s' := by
  have hup : ∀ x, s'.pc x = p ∧ x = t ∨ s'.pc x = s.pc x ∧ x ≠ t := by
    intro x
    rw [hpc]
    by_cases e : x = t
    · subst e; exact .inl ⟨Function.update_self .., rfl⟩
    · exact .inr ⟨Function.update_of_ne e .., e⟩
  have hcln : ∀ x, (s'.pc x).cleaning = true → (s.pc x).cleaning = true := by
    intro x hx
    rcases hup x with ⟨e, rfl⟩ | ⟨e, -⟩
    · rw [e] at hx; exact hg.clean hx
    · rwa [e] at hx
  refine ⟨by rw [hat, hr]; exact h.att, fun x hx => ?_, fun x hx => ?_, fun x hx => ?_,
    fun hx => ?_,
    fun x hx => ?_, fun x y hx hy => h.unique x y (hcln x hx) (hcln y hy), by
      rw [hcl, hc]; exact h.once⟩
  · rw [hat]
    rcases hup x with ⟨e, rfl⟩ | ⟨e, -⟩
    · rw [e] at hx; exact hg.own hx
    · rw [e] at hx; exact h.own x hx
  · rw [hr]
    rcases hup x with ⟨e, rfl⟩ | ⟨e, -⟩
    · exact hg.load (e.symm.trans hx)
    · exact h.atLoad x (e.symm.trans hx)
  · rw [hr]
    rcases hup x with ⟨e, rfl⟩ | ⟨e, -⟩
    · obtain ⟨h1, h2⟩ := hg.claim (e.symm.trans hx)
      exact ⟨h1, hl h1 h2⟩
    · obtain ⟨h1, h2⟩ := h.atClaim x (e.symm.trans hx)
      exact ⟨h1, hl h1 h2⟩
  · rw [hc] at hx
    obtain ⟨h1, h2⟩ := h.claimed hx
    rw [hr]; exact ⟨h1, hl h1 h2⟩
  · rw [hc]; exact h.cleaner x (hcln x hx)

omit [DecidableEq T] [Fintype T] in
theorem Ctl.not_retired (h : Ctl o s) (ha : s.attached = true) : s.A.retired = false := by
  have := h.att
  rw [ha] at this
  cases hr : s.A.retired with
  | false => rfl
  | true => rw [hr] at this; cases this

omit [DecidableEq T] [Fintype T] in
theorem Ctl.not_claimed (h : Ctl o s) (ha : s.attached = true) : s.A.cleanupClaimed = false := by
  by_contra hc
  have := (h.claimed (by simpa using hc)).1
  rw [h.not_retired ha] at this; cases this

/-- Threads that walk a mailbox chain, or are about to. -/
def Pc.walker : Pc → Bool
  | .reapExch _ | .reapNext _ _ | .cleanExch | .cleanNext _ => true
  | _ => false

theorem Pc.walker_of_chain {p : Pc} {b : Nat} (h : p.chain = some b) : p.walker = true := by
  cases p <;> first | rfl | cases h

theorem Pc.walker_cases {p : Pc} (h : p.walker = true) :
    p.ownerOnly = true ∨ p.cleaning = true := by
  cases p <;> first | exact .inl rfl | exact .inr rfl | cases h

omit [DecidableEq T] [Fintype T] in
/-- There is only one of them. -/
theorem Ctl.walker_unique (h : Ctl o s) (ht : (s.pc t).walker = true) {x : T}
    (hx : (s.pc x).walker = true) : x = t := by
  rcases Pc.walker_cases ht with ht | ht <;> rcases Pc.walker_cases hx with hx | hx
  · exact (h.own x hx).1.trans (h.own t ht).1.symm
  · have := h.cleaner x hx
    rw [h.not_claimed (h.own t ht).2] at this; cases this
  · have := h.cleaner t ht
    rw [h.not_claimed (h.own x hx).2] at this; cases this
  · exact h.unique x t hx ht

omit [DecidableEq T] [Fintype T] in
theorem Ctl.no_chain (h : Ctl o s) (ht : (s.pc t).walker = true) {x : T} (hx : x ≠ t) :
    (s.pc x).chain = none := by
  cases hc : (s.pc x).chain with
  | none => rfl
  | some b => exact absurd (h.walker_unique ht (Pc.walker_of_chain hc)) hx

omit [DecidableEq T] in
/-- A step inside the region: what remains to be shown is local. -/
theorem Safe.of (hc : Ctl o s') (hr : s'.A.raw ≠ 0)
    (h : ∃ as mb ch, Core s'.A s'.pc s'.live as mb ch) : Safe o s' :=
  ⟨hc, fun _ => h, fun e => absurd e hr⟩

/-- A step in which the arena keeps everything but its memory and its free list. -/
theorem Safe.keep {B : Arena} (h : Safe o s) (hraw : s.A.raw ≠ 0) (hk : Kept s.A B)
    (hg : MayGo o s t p) (hc : ∃ as mb ch, Core B (Function.update s.pc t p) s.live as mb ch) :
    Safe o ({ s with A := B }.goto t p) :=
  Safe.of (h.ctl.move hg rfl rfl rfl hk.retired hk.cleanupClaimed fun _ e => hk.liveBytes.trans e)
    (fun e => hraw (hk.raw.symm.trans e)) hc

/-- A step that only moves a program counter, inside the region. -/
theorem Safe.goto (h : Safe o s) (hraw : s.A.raw ≠ 0) (hh : p.held = (s.pc t).held)
    (how : p.owes = (s.pc t).owes) (hkn : p.Knows s.A.mem) (hp : p.chain = none)
    (hch : (s.pc t).chain = none ∨ (s.pc t).chain = some 0) (hg : MayGo o s t p) :
    Safe o (s.goto t p) := by
  obtain ⟨as, mb, ch, hc⟩ := h.core hraw
  refine h.keep hraw (.refl s.A) hg ⟨as, mb, ch, hc.goto hh how hkn hp ?_⟩
  rcases hch with hch | hch
  · exact .inl hch
  · exact .inr (hc.facts.chain t 0 hch).eq_nil_of_zero

/-- The thread takes the mailbox, and begins to walk it. -/
theorem Safe.exch (h : Safe o s) (hraw : s.A.raw ≠ 0) (hw : (s.pc t).walker = true)
    (ht : (s.pc t).chain = none) (hh : p.held = (s.pc t).held) (how : p.owes = (s.pc t).owes)
    (hkn : p.Knows s.A.mem) (hp : p.chain = some s.A.remoteFree) (hg : MayGo o s t p) :
    Safe o ({ s with A := { s.A with remoteFree := 0 } }.goto t p) := by
  obtain ⟨as, mb, ch, hc⟩ := h.core hraw
  have hnone : ∀ x, (s.pc x).chain = none := by
    intro x
    by_cases e : x = t
    · rw [e]; exact ht
    · exact h.ctl.no_chain hw e
  exact Safe.of (h.ctl.move hg rfl rfl rfl rfl rfl fun _ e => e) hraw
    ⟨as, [], mb, hc.exch hnone hh how hkn hp⟩

/-- The thread puts the first block of its chain on the free list. -/
theorem Safe.pop {b : Nat} (h : Safe o s) (hraw : s.A.raw ≠ 0) (ht : (s.pc t).chain = some b)
    (h0 : b ≠ 0) (hh : p.held = (s.pc t).held) (how : p.owes = (s.pc t).owes)
    (hkn : p.Knows s.A.mem) (hp : p.chain = some (nextFree s.A.mem b)) (hg : MayGo o s t p) :
    Safe o ({ s with A := reapBlock s.A b }.goto t p) := by
  obtain ⟨as, mb, ch, hc⟩ := h.core hraw
  obtain ⟨as', ch', hc'⟩ :=
    hc.pop ht h0 (fun x e => h.ctl.no_chain (Pc.walker_of_chain ht) e) hh how hkn hp
  exact h.keep hraw (insertStamped_kept ..) hg ⟨as', mb, ch', hc'⟩

omit [DecidableEq T] in
/-- The freeing threads owe a positive number of bytes. -/
theorem owes_pos {A : Arena} {pc : T → Pc} {live as mb ch : List Nat} (h : Core A pc live as mb ch)
    (h0 : (pc t).owes = 0) : (pc t).ownerOnly = true ∨ (pc t).cleaning = true ∨
    (pc t).outside = true := by
  have hk := h.facts.knows t
  have hheld : ∀ b, b ∈ (pc t).held → minBlock ≤ span A.mem b := by
    intro b hb
    have : b ∈ inUse pc live mb ch := held_mem hb
    rw [h.part] at this
    exact (h.tiled.mem_bounds (mem_usedOf.mp this).1).2.2.1
  cases hpc : pc t <;> rw [hpc] at hk h0 hheld <;>
    simp only [Pc.owes, Pc.Knows, Pc.held, Multiset.mem_singleton, forall_eq, minBlock] at * <;>
    first
    | exact .inl rfl
    | exact .inr (.inl rfl)
    | exact .inr (.inr rfl)
    | omega

omit [DecidableEq T] in
/-- When the arena is retired and the count is zero, everybody but the cleaner
is outside the region. -/
theorem Safe.alone (h : Safe o s) (hraw : s.A.raw ≠ 0) (hr : s.A.retired = true)
    (h0 : s.A.liveBytes = 0) :
    s.live = [] ∧ ∀ x, (s.pc x).cleaning = true ∨ (s.pc x).outside = true := by
  obtain ⟨as, mb, ch, hc⟩ := h.core hraw
  obtain ⟨h1, h2⟩ := hc.quiet h0
  refine ⟨h1, fun x => ?_⟩
  rcases owes_pos hc (h2 x) with hx | hx
  · have := h.ctl.not_retired (h.ctl.own x hx).2
    rw [hr] at this; cases this
  · exact hx

omit [Fintype T] in
/-- Winning the claim. -/
theorem Ctl.claim (h : Ctl o s) (hpc : s.pc t = .claim) (hn : s.A.cleanupClaimed = false) :
    Ctl o ({ s with A := { s.A with cleanupClaimed := true }, cleanups := s.cleanups + 1 }.goto t
      .cleanExch) := by
  have hat := h.atClaim t hpc
  have hnobody : ∀ x, (s.pc x).cleaning = true → False := by
    intro x hx
    have := h.cleaner x hx
    rw [hn] at this; cases this
  have hup : ∀ x, x = t ∨ x ≠ t ∧ Function.update s.pc t .cleanExch x = s.pc x := by
    intro x
    by_cases e : x = t
    · exact .inl e
    · exact .inr ⟨e, Function.update_of_ne e ..⟩
  have honly : ∀ x, (Function.update s.pc t .cleanExch x).cleaning = true → x = t := by
    intro x hx
    rcases hup x with e | ⟨-, e⟩
    · exact e
    · rw [e] at hx; exact (hnobody x hx).elim
  refine ⟨h.att, fun x hx => ?_, fun x hx => ?_, fun x hx => ?_, fun _ => hat, fun _ _ => rfl,
    fun x y hx hy => (honly x hx).trans (honly y hy).symm, ?_⟩
  · simp only [Shared.goto] at hx ⊢
    rcases hup x with rfl | ⟨-, e⟩
    · rw [Function.update_self] at hx; cases hx
    · rw [e] at hx; exact h.own x hx
  · simp only [Shared.goto] at hx
    rcases hup x with rfl | ⟨-, e⟩
    · rw [Function.update_self] at hx; cases hx
    · rw [e] at hx; exact h.atLoad x hx
  · simp only [Shared.goto] at hx
    rcases hup x with rfl | ⟨-, e⟩
    · rw [Function.update_self] at hx; cases hx
    · rw [e] at hx; exact h.atClaim x hx
  · have := h.once
    rw [hn] at this
    simp [Shared.goto, this]

omit [Fintype T] in
/-- Publishing the retirement. -/
theorem Ctl.retire (h : Ctl o s) (hpc : s.pc t = .retireStore) :
    Ctl o ({ s with A := { s.A with retired := true }, attached := false }.goto t .retireLoad) := by
  obtain ⟨hto, hatt⟩ := h.own t (by rw [hpc]; rfl)
  have hnr := h.not_retired hatt
  have hnc := h.not_claimed hatt
  have hup : ∀ x, x = t ∨ x ≠ t ∧ Function.update s.pc t .retireLoad x = s.pc x := by
    intro x
    by_cases e : x = t
    · exact .inl e
    · exact .inr ⟨e, Function.update_of_ne e ..⟩
  have hcl : ∀ x, (Function.update s.pc t .retireLoad x).cleaning = true → False := by
    intro x hx
    rcases hup x with rfl | ⟨-, e⟩
    · rw [Function.update_self] at hx; cases hx
    · rw [e] at hx
      have := h.cleaner x hx
      rw [hnc] at this; cases this
  refine ⟨rfl, fun x hx => ?_, fun _ _ => rfl, fun x hx => ?_, fun hx => ?_,
    fun x hx => (hcl x hx).elim,
    fun x _ hx => (hcl x hx).elim, h.once⟩
  · simp only [Shared.goto] at hx
    rcases hup x with rfl | ⟨hne, e⟩
    · rw [Function.update_self] at hx; cases hx
    · rw [e] at hx; exact absurd ((h.own x hx).1.trans hto.symm) hne
  · simp only [Shared.goto] at hx
    rcases hup x with rfl | ⟨-, e⟩
    · rw [Function.update_self] at hx; cases hx
    · rw [e] at hx
      have := (h.atClaim x hx).1
      rw [hnr] at this; cases this
  · simp only [Shared.goto] at hx
    rw [hnc] at hx; cases hx

/-- Releasing the region. -/
theorem Safe.releaseRegion (h : Safe o s) (hraw : s.A.raw ≠ 0) (hpc : s.pc t = .cleanRelease) :
    Safe o ({ s with A := { s.A with raw := 0 } }.goto t .cleanFinish) := by
  have hct : (s.pc t).cleaning = true := by rw [hpc]; rfl
  have hcl := h.ctl.cleaner t hct
  obtain ⟨hr, h0⟩ := h.ctl.claimed hcl
  obtain ⟨hl, hal⟩ := h.alone hraw hr h0
  refine ⟨h.ctl.move (.cleaner hct rfl) rfl rfl rfl rfl rfl fun _ e => e,
    fun e => absurd rfl e, fun _ =>
    ⟨hcl, hl, fun x => ?_⟩⟩
  simp only [Shared.goto]
  by_cases e : x = t
  · rw [e, Function.update_self]; rfl
  · rw [Function.update_of_ne e]
    rcases hal x with hx | hx
    · exact absurd (h.ctl.unique x t hx hct) e
    · exact hx

/-! ### The steps inside the region -/

section Inside
variable {n b sp e : Nat} {k : Option Nat}

omit [DecidableEq T] in
theorem Safe.knows (h : Safe o s) (hraw : s.A.raw ≠ 0) (hpc : s.pc t = p) : p.Knows s.A.mem := by
  obtain ⟨as, mb, ch, hc⟩ := h.core hraw
  exact hpc ▸ hc.facts.knows t

theorem tick_allocLoad (h : Safe o s) (hraw : s.A.raw ≠ 0) (hpc : s.pc t = .allocLoad n) :
    Safe o (s.tick o t) := by
  have hown := h.ctl.own t (by rw [hpc]; rfl)
  have hkn : minBlock ≤ n ∧ 8 ∣ n := h.knows hraw hpc
  unfold Shared.tick
  rw [hpc]
  simp only
  split
  · exact h.goto hraw (by rw [hpc]; rfl) (by rw [hpc]; rfl) hkn rfl (.inl (by rw [hpc]; rfl))
      (.owner hown rfl)
  · exact h.goto hraw (by rw [hpc]; rfl) (by rw [hpc]; rfl) hkn rfl (.inl (by rw [hpc]; rfl))
      (.owner hown rfl)

theorem tick_allocFind (h : Safe o s) (hraw : s.A.raw ≠ 0) (hpc : s.pc t = .allocFind n) :
    Safe o (s.tick o t) := by
  have hown := h.ctl.own t (by rw [hpc]; rfl)
  unfold Shared.tick
  rw [hpc]
  simp only
  split
  · exact h.goto hraw (by rw [hpc]; rfl) (by rw [hpc]; rfl) trivial rfl (.inl (by rw [hpc]; rfl))
      (.plain rfl)
  · rename_i h0
    obtain ⟨as, mb, ch, hc⟩ := h.core hraw
    obtain ⟨as', hc'⟩ := hc.carve hpc rfl h0
    exact h.keep hraw (carve_kept ..) (.owner hown rfl) ⟨as', mb, ch, hc'⟩

/-- The block is the caller's, and the arena is not retired. -/
theorem tick_allocAdd (h : Safe o s) (hraw : s.A.raw ≠ 0) (hpc : s.pc t = .allocAdd b) :
    Safe o (s.tick o t) := by
  have hnr := h.ctl.not_retired (h.ctl.own t (by rw [hpc]; rfl)).2
  obtain ⟨as, mb, ch, hc⟩ := h.core hraw
  unfold Shared.tick
  rw [hpc]
  exact Safe.of
    (h.ctl.move (.plain (p := .idle) rfl) rfl rfl rfl rfl rfl fun e => by rw [hnr] at e; cases e)
      hraw
    ⟨as, mb, ch, hc.add hpc⟩

theorem tick_reapExch (h : Safe o s) (hraw : s.A.raw ≠ 0) (hpc : s.pc t = .reapExch k) :
    Safe o (s.tick o t) := by
  have hown := h.ctl.own t (by rw [hpc]; rfl)
  have hkn := h.knows hraw hpc
  unfold Shared.tick
  rw [hpc]
  exact h.exch hraw (by rw [hpc]; rfl) (by rw [hpc]; rfl) (by rw [hpc]; rfl) (by rw [hpc]; rfl)
    (by cases k <;> exact hkn) rfl (.owner hown rfl)

/-- The chain is reaped block by block; then the allocation goes on, if there is one. -/
theorem tick_reapNext (h : Safe o s) (hraw : s.A.raw ≠ 0) (hpc : s.pc t = .reapNext b k) :
    Safe o (s.tick o t) := by
  have hown := h.ctl.own t (by rw [hpc]; rfl)
  have hkn := h.knows hraw hpc
  unfold Shared.tick
  rw [hpc]
  simp only
  split
  · rename_i h0
    subst h0
    cases k with
    | none =>
      exact h.goto hraw (by rw [hpc]; rfl) (by rw [hpc]; rfl) trivial rfl (.inr (by rw [hpc]; rfl))
        (.plain rfl)
    | some n =>
      exact h.goto hraw (by rw [hpc]; rfl) (by rw [hpc]; rfl) hkn rfl (.inr (by rw [hpc]; rfl))
        (.owner hown rfl)
  · rename_i h0
    exact h.pop hraw (by rw [hpc]; rfl) h0 (by rw [hpc]; rfl) (by rw [hpc]; rfl)
      (by cases k <;> exact hkn) rfl
      (.owner hown rfl)

/-- The attached owner frees to the free list, everybody else to the mailbox. -/
theorem tick_freeOwner (h : Safe o s) (hraw : s.A.raw ≠ 0) (hpc : s.pc t = .freeOwner b sp) :
    Safe o (s.tick o t) := by
  have hkn : span s.A.mem b = sp := h.knows hraw hpc
  unfold Shared.tick
  rw [hpc]
  simp only
  split
  · rename_i hif
    exact h.goto hraw (by rw [hpc]; rfl) (by rw [hpc]; rfl) hkn rfl (.inl (by rw [hpc]; rfl))
      (.owner ⟨hif.1, hif.2.1⟩ rfl)
  · exact h.goto hraw (by rw [hpc]; rfl) (by rw [hpc]; rfl) hkn rfl (.inl (by rw [hpc]; rfl))
      (.plain rfl)

theorem tick_freeInsert (h : Safe o s) (hraw : s.A.raw ≠ 0) (hpc : s.pc t = .freeInsert b sp) :
    Safe o (s.tick o t) := by
  obtain ⟨as, mb, ch, hc⟩ := h.core hraw
  obtain ⟨as', hc'⟩ := hc.insert hpc
  unfold Shared.tick
  rw [hpc]
  exact h.keep hraw (insertStamped_kept ..) (.plain rfl) ⟨as', mb, ch, hc'⟩

theorem tick_pushCas (h : Safe o s) (hraw : s.A.raw ≠ 0) (hpc : s.pc t = .pushCas b sp e) :
    Safe o (s.tick o t) := by
  have hkn : span s.A.mem b = sp ∧ nextFree s.A.mem b = e := h.knows hraw hpc
  obtain ⟨as, mb, ch, hc⟩ := h.core hraw
  unfold Shared.tick
  rw [hpc]
  simp only
  split
  · rename_i he
    rw [← he] at hpc
    exact Safe.of (h.ctl.move (.plain (p := .dec sp) rfl) rfl rfl rfl rfl rfl fun _ e => e) hraw
      ⟨as, b :: mb, ch, hc.push hpc⟩
  · exact h.goto hraw (by rw [hpc]; rfl) (by rw [hpc]; rfl) hkn.1 rfl (.inl (by rw [hpc]; rfl))
      (.plain rfl)

theorem tick_dec (h : Safe o s) (hraw : s.A.raw ≠ 0) (hpc : s.pc t = .dec sp) :
    Safe o (s.tick o t) := by
  obtain ⟨as, mb, ch, hc⟩ := h.core hraw
  unfold Shared.tick
  rw [hpc]
  simp only
  split
  · obtain ⟨-, hc'⟩ := hc.dec (p := .check) hpc rfl rfl trivial rfl
    exact Safe.of
      (h.ctl.move (.plain (p := .check) rfl) rfl rfl rfl rfl rfl
        fun _ e => by simp [Shared.goto, e])
      hraw ⟨as, mb, ch, hc'⟩
  · obtain ⟨-, hc'⟩ := hc.dec (p := .idle) hpc rfl rfl trivial rfl
    exact Safe.of
      (h.ctl.move (.plain (p := .idle) rfl) rfl rfl rfl rfl rfl fun _ e => by simp [Shared.goto, e])
      hraw ⟨as, mb, ch, hc'⟩

/-- The one step that has to be timely. -/
theorem tick_check (h : Safe o s) (hraw : s.A.raw ≠ 0) (htime : CheckTimely s (.tick t))
    (hpc : s.pc t = .check) : Safe o (s.tick o t) := by
  unfold Shared.tick
  rw [hpc]
  simp only
  split
  · rename_i hr
    exact h.goto hraw (by rw [hpc]; rfl) (by rw [hpc]; rfl) trivial rfl (.inl (by rw [hpc]; rfl))
      (.claims hr (htime hpc hr))
  · exact h.goto hraw (by rw [hpc]; rfl) (by rw [hpc]; rfl) trivial rfl (.inl (by rw [hpc]; rfl))
      (.plain rfl)

theorem tick_claim (h : Safe o s) (hraw : s.A.raw ≠ 0) (hpc : s.pc t = .claim) :
    Safe o (s.tick o t) := by
  unfold Shared.tick
  rw [hpc]
  simp only
  split
  · exact h.goto hraw (by rw [hpc]; rfl) (by rw [hpc]; rfl) trivial rfl (.inl (by rw [hpc]; rfl))
      (.plain rfl)
  · rename_i hn
    obtain ⟨as, mb, ch, hc⟩ := h.core hraw
    have hgo := hc.goto (t := t) (p := .cleanExch) (by rw [hpc]; rfl) (by rw [hpc]; rfl) trivial rfl
      (.inl (by rw [hpc]; rfl))
    exact Safe.of (h.ctl.claim hpc (by simpa using hn)) hraw
      ⟨as, mb, ch, hgo.descr rfl rfl rfl rfl rfl rfl rfl⟩

theorem tick_retireStore (h : Safe o s) (hraw : s.A.raw ≠ 0) (hpc : s.pc t = .retireStore) :
    Safe o (s.tick o t) := by
  obtain ⟨as, mb, ch, hc⟩ := h.core hraw
  have hgo := hc.goto (t := t) (p := .retireLoad) (by rw [hpc]; rfl) (by rw [hpc]; rfl) trivial rfl
    (.inl (by rw [hpc]; rfl))
  unfold Shared.tick
  rw [hpc]
  exact Safe.of (h.ctl.retire hpc) hraw ⟨as, mb, ch, hgo.descr rfl rfl rfl rfl rfl rfl rfl⟩

theorem tick_retireLoad (h : Safe o s) (hraw : s.A.raw ≠ 0) (hpc : s.pc t = .retireLoad) :
    Safe o (s.tick o t) := by
  unfold Shared.tick
  rw [hpc]
  simp only
  split
  · rename_i h0
    exact h.goto hraw (by rw [hpc]; rfl) (by rw [hpc]; rfl) trivial rfl (.inl (by rw [hpc]; rfl))
      (.claims (h.ctl.atLoad t hpc) h0)
  · exact h.goto hraw (by rw [hpc]; rfl) (by rw [hpc]; rfl) trivial rfl (.inl (by rw [hpc]; rfl))
      (.plain rfl)

theorem tick_cleanNext (h : Safe o s) (hraw : s.A.raw ≠ 0) (hpc : s.pc t = .cleanNext b) :
    Safe o (s.tick o t) := by
  have hclean : (s.pc t).cleaning = true := by rw [hpc]; rfl
  unfold Shared.tick
  rw [hpc]
  simp only
  split
  · rename_i h0
    subst h0
    exact h.goto hraw (by rw [hpc]; rfl) (by rw [hpc]; rfl) trivial rfl (.inr (by rw [hpc]; rfl))
      (.cleaner hclean rfl)
  · rename_i h0
    exact h.pop hraw (by rw [hpc]; rfl) h0 (by rw [hpc]; rfl) (by rw [hpc]; rfl) trivial rfl
      (.cleaner hclean rfl)

/-- The steps of the attached owner, of the freeing threads and of the cleaner. -/
theorem tick_safe_inside (h : Safe o s) (hraw : s.A.raw ≠ 0) (htime : CheckTimely s (.tick t)) :
    Safe o (s.tick o t) := by
  cases hpc : s.pc t with
  | idle =>
    unfold Shared.tick
    rw [hpc]
    exact h
  | allocLoad n => exact tick_allocLoad h hraw hpc
  | allocFind n => exact tick_allocFind h hraw hpc
  | allocAdd b => exact tick_allocAdd h hraw hpc
  | reapExch k => exact tick_reapExch h hraw hpc
  | reapNext b k => exact tick_reapNext h hraw hpc
  | freeOwner b sp => exact tick_freeOwner h hraw hpc
  | freeInsert b sp => exact tick_freeInsert h hraw hpc
  | pushLoad b sp =>
    have hkn : span s.A.mem b = sp := h.knows hraw hpc
    unfold Shared.tick
    rw [hpc]
    exact h.goto hraw (by rw [hpc]; rfl) (by rw [hpc]; rfl) hkn rfl (.inl (by rw [hpc]; rfl))
      (.plain rfl)
  | pushLink b sp e =>
    obtain ⟨as, mb, ch, hc⟩ := h.core hraw
    unfold Shared.tick
    rw [hpc]
    exact h.keep hraw (.setMem ..) (.plain rfl) ⟨as, mb, ch, hc.link hpc⟩
  | pushCas b sp e => exact tick_pushCas h hraw hpc
  | dec sp => exact tick_dec h hraw hpc
  | check => exact tick_check h hraw htime hpc
  | claim => exact tick_claim h hraw hpc
  | retireStore => exact tick_retireStore h hraw hpc
  | retireLoad => exact tick_retireLoad h hraw hpc
  | cleanExch =>
    unfold Shared.tick
    rw [hpc]
    exact h.exch hraw (by rw [hpc]; rfl) (by rw [hpc]; rfl) (by rw [hpc]; rfl) (by rw [hpc]; rfl)
      trivial rfl
      (.cleaner (by rw [hpc]; rfl) rfl)
  | cleanNext b => exact tick_cleanNext h hraw hpc
  | cleanRelease =>
    unfold Shared.tick
    rw [hpc]
    exact h.releaseRegion hraw hpc
  | cleanFinish =>
    obtain ⟨as, mb, ch, hc⟩ := h.core hraw
    have hgo := hc.goto (t := t) (p := .idle) (by rw [hpc]; rfl) (by rw [hpc]; rfl) trivial rfl
      (.inl (by rw [hpc]; rfl))
    unfold Shared.tick
    rw [hpc]
    exact Safe.of (h.ctl.move (.plain (p := .idle) rfl) rfl rfl rfl rfl rfl fun _ e => e) hraw
      ⟨as, mb, ch, hgo.descr rfl rfl rfl rfl rfl rfl rfl⟩

end Inside

/-- After the release: the threads outside find their way out. -/
theorem tick_safe_gone (h : Safe o s) (hraw : s.A.raw = 0) : Safe o (s.tick o t) := by
  have hctl := h.ctl
  obtain ⟨hcl, hl, hout⟩ := h.gone hraw
  obtain ⟨hr, h0⟩ := hctl.claimed hcl
  have hgoto : ∀ {p : Pc} {B : Arena}, B.raw = 0 → B.retired = s.A.retired →
      B.cleanupClaimed = s.A.cleanupClaimed → B.liveBytes = s.A.liveBytes → p.outside = true →
      (p.cleaning = true → (s.pc t).cleaning = true) → Safe o ({ s with A := B }.goto t p) := by
    intro p B h1 h2 h3 h4 hp hcn
    have hg : MayGo o s t p :=
      ⟨fun e => absurd e (by rw [Pc.outside_not_owner hp]; decide), fun _ => hr,
        fun _ => ⟨hr, h0⟩, hcn⟩
    refine ⟨hctl.move hg rfl rfl rfl h2 h3 fun _ e => h4.trans e, fun e => absurd h1 e, fun _ =>
      ⟨h3.trans hcl, hl, fun x => ?_⟩⟩
    simp only [Shared.goto]
    by_cases e : x = t
    · rw [e, Function.update_self]; exact hp
    · rw [Function.update_of_ne e]; exact hout x
  have hpt := hout t
  unfold Shared.tick
  cases hpc : s.pc t with
  | idle => exact h
  | check =>
    simp only
    split <;> exact hgoto (B := s.A) hraw rfl rfl rfl rfl (fun e => by cases e)
  | claim =>
    simp only
    rw [if_pos hcl]
    exact hgoto (B := s.A) hraw rfl rfl rfl rfl (fun e => by cases e)
  | retireLoad =>
    simp only
    split <;> exact hgoto (B := s.A) hraw rfl rfl rfl rfl (fun e => by cases e)
  | cleanFinish => exact hgoto hraw rfl rfl rfl rfl (fun e => by cases e)
  | _ => rw [hpc] at hpt; cases hpt

theorem step_safe {l : Act T} (h : Safe o s) (hs : s.pre o l) (htime : CheckTimely s l) :
    Safe o (s.next o l) := by
  have hctl := h.ctl
  -- while the owner is attached the region is there
  have hthere : s.attached = true → s.A.raw ≠ 0 := by
    intro ha e
    have := (h.gone e).claimed
    rw [hctl.not_claimed ha] at this; cases this
  cases l with
  | callAlloc n =>
    obtain ⟨hpc, ha, hn, hd⟩ := hs
    exact h.goto (hthere ha) (by rw [hpc]; rfl) (by rw [hpc]; rfl) ⟨hn, hd⟩ rfl
      (.inl (by rw [hpc]; rfl))
      (.owner ⟨rfl, ha⟩ rfl)
  | callReap =>
    obtain ⟨hpc, ha⟩ := hs
    exact h.goto (hthere ha) (by rw [hpc]; rfl) (by rw [hpc]; rfl) trivial rfl
      (.inl (by rw [hpc]; rfl))
      (.owner ⟨rfl, ha⟩ rfl)
  | callRetire =>
    obtain ⟨hpc, ha⟩ := hs
    exact h.goto (hthere ha) (by rw [hpc]; rfl) (by rw [hpc]; rfl) trivial rfl
      (.inl (by rw [hpc]; rfl))
      (.owner ⟨rfl, ha⟩ rfl)
  | callFree t b =>
    obtain ⟨hpc, hb⟩ := hs
    have hraw : s.A.raw ≠ 0 := by
      intro e
      rw [(h.gone e).live] at hb; cases hb
    obtain ⟨as, mb, ch, hc⟩ := h.core hraw
    exact Safe.of
      (hctl.move (.plain (p := .freeOwner b (span s.A.mem b)) rfl) rfl rfl rfl rfl rfl fun _ e => e)
      hraw ⟨as, mb, ch, hc.call hpc hb⟩
  | tick t =>
    by_cases hraw : s.A.raw = 0
    · exact tick_safe_gone h hraw
    · exact tick_safe_inside h hraw htime

theorem inductive_safe (o : T) : ((protocol o).guard CheckTimely).Inductive (Safe o) where
  init s hs := by
    obtain ⟨raw, m, hr, rfl⟩ := hs
    have hraw : (tlsfArenaInit raw m).raw = raw := rfl
    refine Safe.of ⟨rfl, fun t ht => (by cases ht), fun t ht => (by cases ht),
      fun t ht => (by cases ht),
      fun h => (by cases h), fun t ht => (by cases ht), fun t _ ht => (by cases ht), rfl⟩
      (fun e => (by rw [hraw] at e; omega)) ?_
    obtain ⟨as, ht, hu⟩ := init_tiled m hr
    refine ⟨as, [], [], ht, ?_, rfl, fun _ => trivial, fun t h ht => (by cases ht),
      fun _ => rfl, ?_⟩
    · rw [hu]; simp [inUse, Pc.held]
    · simp [Pc.owes, tlsfArenaInit]
  step s l s' h hs := by
    obtain ⟨⟨hpre, rfl⟩, htime⟩ := hs
    exact step_safe h hpre htime

end Control

/-! ## Retirement safety -/

/-- Cleanup is entered at most once; whoever enters it finds the arena retired,
the count at zero and every block on the free list or in the mailbox; and once
the region is released no step of any thread reads or writes it. -/
def RetireSafe (o : T) (s : Shared T) : Prop :=
  s.cleanups ≤ 1 ∧
  (∀ t, s.pc t = .cleanExch → s.A.retired = true ∧ s.A.liveBytes = 0 ∧
    ∃ as mb fl, Walk s.A.mem 0 s.A.raw as s.A.sentinel ∧
    Chain (nextFree s.A.mem) s.A.remoteFree mb ∧
      (freeDL s.A.mem s.A.freeList).Is fl ∧ ∀ a ∈ as, a ∈ fl ∨ a ∈ mb) ∧
  (s.A.raw = 0 → ∀ l, s.pre o l → s.accesses l = false)

/-- **Retirement safety**, in every interleaving in which a freer that finds the
arena retired finds the count still at zero. -/
theorem retire_safe {o : T} {s : Shared T} (hr : ((protocol o).guard CheckTimely).Reachable s) :
    RetireSafe o s := by
  have h := (inductive_safe o).reachable hr
  refine ⟨?_, fun t ht => ?_, fun h0 l hs => ?_⟩
  · rw [h.ctl.once]; split <;> omega
  · have hct : (s.pc t).cleaning = true := by rw [ht]; rfl
    have hcl := h.ctl.cleaner t hct
    obtain ⟨hret, hz⟩ := h.ctl.claimed hcl
    have hraw : s.A.raw ≠ 0 := by
      intro e
      have := (h.gone e).outside t
      rw [ht] at this; cases this
    obtain ⟨as, mb, ch, hc⟩ := h.core hraw
    obtain ⟨hl, hal⟩ := h.alone hraw hret hz
    -- nothing is held: the others are outside, and this thread has not started to reap
    have hpc : ∀ x, (s.pc x).held = 0 ∧ (s.pc x).chain = none := by
      intro x
      by_cases e : x = t
      · rw [e, ht]; exact ⟨rfl, rfl⟩
      · have hx : (s.pc x).outside = true :=
          (hal x).resolve_left fun hx => e (h.ctl.unique x t hx hct)
        cases hp : s.pc x <;> rw [hp] at hx <;> first | exact ⟨rfl, rfl⟩ | cases hx
    have hch : ch = [] := hc.facts.noChain fun x => (hpc x).2
    have hpart := hc.part
    simp only [inUse, hl, hch, fun x => (hpc x).1, Finset.sum_const_zero] at hpart
    refine ⟨hret, hz, as, mb, as.filter (isFree s.A.mem), hc.tiled.walk, hc.facts.mail,
      hc.tiled.list,
      fun a ha => ?_⟩
    cases hf : isFree s.A.mem a with
    | true => exact .inl (List.mem_filter.mpr ⟨ha, hf⟩)
    | false =>
      right
      have : a ∈ (↑(usedOf s.A.mem as) : Multiset Nat) := mem_usedOf.mpr ⟨ha, hf⟩
      rw [← hpart] at this
      simpa using this
  · obtain ⟨-, hl, hout⟩ := h.gone h0
    cases l with
    | callFree t b => obtain ⟨-, hb⟩ := hs; rw [hl] at hb; cases hb
    | tick t => exact Pc.outside_not_touching (hout t)
    | _ => rfl

/-- Two threads, `false` the owner, on a fresh arena at address 4096. -/
def freshShared : Shared Bool := ⟨tlsfArenaInit 4096 fun _ => 0, fun _ => .idle, true, [], 0⟩

theorem freshShared_reachable {C : Shared Bool → Act Bool → Prop} :
    ((protocol false).guard C).Reachable freshShared :=
  .init ⟨4096, fun _ => 0, by decide, rfl⟩

/-- The owner allocates a block, the other thread frees it up to and including
the decrement that reaches zero. -/
def freeToZero : List (Act Bool) :=
  [.callAlloc 192, .tick false, .tick false, .tick false,
   .callFree true 4096, .tick true, .tick true, .tick true, .tick true, .tick true]

/-- The owner retires, and finds the count at zero or not. -/
def retire : List (Act Bool) := [.callRetire, .tick false, .tick false]

/-- The freer looks at `retired` and, when it is set, tries to claim the arena. -/
def checkRetired : List (Act Bool) := [.tick true, .tick true]

/-- The owner claims the arena, takes the block out of the mailbox and gives the region back. -/
def cleanUp : List (Act Bool) := List.replicate 6 (.tick false)

theorem retire_safe_after_free :
    let s := (freeToZero ++ .tick true :: retire ++ cleanUp).foldl (Shared.next false) freshShared
    (s.A.raw = 0 ∧ s.cleanups = 1) ∧ RetireSafe false s := by
  intro s
  exact ⟨by decide +kernel, retire_safe (freshShared_reachable.run (by decide +kernel))⟩

/-- The freer is stopped before it looks at `retired`; the owner takes the block
back from the mailbox, allocates it again and retires. -/
def reuseThenRetire : List (Act Bool) :=
  freeToZero ++
    [.callAlloc 192, .tick false, .tick false, .tick false, .tick false, .tick false, .tick false]
    ++ retire

/-- **Defect.** The freer then finds the arena retired, wins the claim and
enters cleanup while 192 bytes are live. -/
theorem cleanup_with_live_block :
    ∃ s : Shared Bool, (protocol false).Reachable s ∧ ¬ RetireSafe false s := by
  refine ⟨(reuseThenRetire ++ checkRetired).foldl (Shared.next false) freshShared, ?_, fun h => ?_⟩
  · exact (freshShared_reachable (C := fun _ _ => True)).run (by decide +kernel) |>.of_guard
  · have hpc : ((reuseThenRetire ++ checkRetired).foldl (Shared.next false) freshShared).pc true
        = .cleanExch := by decide +kernel
    have hz := (h.2.1 true hpc).2.1
    exact absurd hz (by decide +kernel)

end Cmem.L2.ThreadArena

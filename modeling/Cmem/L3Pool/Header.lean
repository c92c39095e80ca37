import Cmem.L2Arena.Calls

/-!
# The header of a block and its span

`mp_free` takes the size of a block from `usable_size`, and files the block in the
cache by it, so the header must agree with `size_and_flags`: `usable_size` and the two
headers are the span (`Agrees`).

`State` is the shared tier with the caches of `n` threads beside the per-thread arenas. A call
of a thread is one step; what it does outside `pool->lock` concerns its own block and
its own cache. Thread `i` sees the shared tier as the `Sys` of one thread (`view`), in which
the blocks of the other caches are held by somebody else (`foreign`).

`Agrees` does not hold in every run. `tlsf_alloc` and `tlsf_arena_alloc` write
`total - 184` also into the header of a block that they leave longer than `total`, and the
in-place grow of an arena block writes one less on a pool with canaries. It holds in the runs
in which no step does this (`Exact`) or breaks a header in other ways.
-/
namespace Cmem.L3.Header

open L2
open L2.SharedTlsf (Heap Tls Cfg TierCall CallInv Held TlsOk Wf Stays cached)
open L2.ThreadArena (Tenant TenantInv tlsfArenaInit arenaDefaultSize)

/-- `aligned`: blocks of the shared tier behind an aligned pointer. The per-thread arenas are
found by the address of their `tlsf_arena_t`. -/
structure State where
  heap : Heap
  caches : Nat → Tls
  live : List (Nat × Nat)
  aligned : List (Nat × Nat)
  arenas : Nat → Option Tenant

/-- `call i`: thread `i` calls on the shared tier. `align`: the last part of
`mp_aligned_alloc`; `other`: a call on a block behind an aligned pointer. `release`: the end of
an arena, as in `tlsf_arena_registry_release`. -/
inductive Step where
  | call (i : Nat) (l : TierCall)
  | align (t b : Nat)
  | other (i : Nat) (l : SharedTlsf.Op)
  | destroy (i P : Nat)
  | attach (a raw : Nat) (m : Mem)
  | arena (a : Nat) (l : ThreadArena.Call)
  | release (a : Nat)

/-- The shared tier for thread `i`. -/
def State.view (s : State) (i : Nat) : SharedTlsf.Sys := ⟨s.heap, s.caches i, s.live⟩

def State.viewAligned (s : State) (i : Nat) : SharedTlsf.Sys := ⟨s.heap, s.caches i, s.aligned⟩

/-- What the caches of the other threads hold. -/
def State.foreign (s : State) (n i : Nat) : List (Nat × Nat) :=
  ((List.range n).erase i).flatMap fun j => cached (s.caches j)

/-- The calls on aligned blocks. -/
def State.OnAligned (s : State) : SharedTlsf.Op → Prop
  | .mpFree t b _ | .mpRealloc _ t b _ _ | .write t b _ _ => (t, b) ∈ s.aligned
  | _ => False

instance (s : State) : ∀ l, Decidable (s.OnAligned l)
  | .mpFree t b _ | .mpRealloc _ t b _ _ | .write t b _ _ =>
    inferInstanceAs (Decidable ((t, b) ∈ s.aligned))
  | .addArena .. | .tlsfAlloc .. | .tlsfFree .. | .tlsfExpand .. | .mpAlloc .. | .flushPool ..
  | .mpReset .. =>
    .isFalse id

/-- On the arena at `a`, if there is one. -/
def State.at (s : State) (a : Nat) (p : Tenant → Prop) : Prop :=
  match s.arenas a with
  | some A => p A
  | none => False

instance decAt (s : State) (a : Nat) (p : Tenant → Prop) [∀ A, Decidable (p A)] :
    Decidable (s.at a p) :=
  match h : s.arenas a with
  | some A => decidable_of_iff (p A) (by rw [State.at, h])
  | none => .isFalse (by rw [State.at, h]; exact id)

def State.pre (cfg : Nat → Cfg) (n : Nat) (s : State) : Step → Prop
  | .call i l => i < n ∧ (s.view i).callPre cfg l
  | .align t b => (t, b) ∈ s.live
  | .other i l => i < n ∧ s.OnAligned l ∧ (s.viewAligned i).pre cfg l
  | .destroy i P => i < n ∧ P ≠ 0
  | .attach a raw _ => (s.arenas a).isNone ∧ 0 < raw ∧ 8 ∣ raw ∧ raw + arenaDefaultSize < sizeMod
  | .arena a l => s.at a fun A => A.pre l
  | .release _ => True

/-- The arenas of `P` go back to the system. -/
def drop (H : Heap) (P : Nat) : Heap :=
  { H with arenas := H.arenas.filter fun t => (H.tp t).owner ≠ P }

/-- The handles that do not belong to `P`. -/
def without (H : Heap) (P : Nat) (hs : List (Nat × Nat)) : List (Nat × Nat) :=
  hs.filter fun p => (H.tp p.1).owner ≠ P

def State.next (cfg : Nat → Cfg) (s : State) : Step → State
  | .call i l =>
    let r := (s.view i).call cfg l
    { s with
      heap := r.heap, caches := Function.update s.caches i r.tls, live := r.live
      aligned := match l with
        | .reset P => without s.heap P s.aligned
        | _ => s.aligned }
  | .align t b => { s with live := s.live.erase (t, b), aligned := (t, b) :: s.aligned }
  | .other i l =>
    let r := (s.viewAligned i).next cfg l
    { s with heap := r.heap, caches := Function.update s.caches i r.tls, aligned := r.live }
  | .destroy i P =>
    let r := SharedTlsf.tlsCacheFlushPool s.heap (s.caches i) P
    { s with
      heap := drop r.1 P, caches := Function.update s.caches i r.2
      live := without s.heap P s.live, aligned := without s.heap P s.aligned }
  | .attach a raw m =>
    { s with arenas := Function.update s.arenas a (some ⟨⟨tlsfArenaInit raw m, []⟩, []⟩) }
  | .arena a l =>
    { s with arenas := Function.update s.arenas a ((s.arenas a).map fun A => A.next a l) }
  | .release a => { s with arenas := Function.update s.arenas a none }

/-- Nothing is created yet. -/
def empty (m : Mem) : State :=
  let s := SharedTlsf.start m
  ⟨s.heap, fun _ => s.tls, [], [], fun _ => none⟩

/-- The runs of `n` threads; `cfg` has the flags of each pool. -/
def system (cfg : Nat → Cfg) (n : Nat) : LTS State Step :=
  .det (fun s => ∃ m, s = empty m) (State.pre cfg n) (State.next cfg)

/-! ## Conditions -/

/-- Totals do not wrap, and what the shared tier has to find is in the range of its search. -/
def Sized (cfg : Nat → Cfg) : Step → Prop
  | .call _ l => SharedTlsf.Sized cfg l
  | .other _ l => SharedTlsf.NoWrap cfg l
  | .arena _ l => ThreadArena.Sized l
  | _ => True

/-- The canary byte of a `mp_realloc` lands in the block that is resized. -/
def CanaryOwn (cfg : Nat → Cfg) (s : State) : Step → Prop
  | .call i l => SharedTlsf.CanaryOwn cfg (s.view i) l
  | .other i l => SharedTlsf.CanaryInside cfg (s.viewAligned i) l
  | .arena a l => s.at a fun A => ThreadArena.CanaryOwn A l
  | _ => True

/-- A pool is reset or destroyed when no other thread has blocks of it in its cache. -/
def Alone (n : Nat) (s : State) : Step → Prop
  | .call i (.reset P) | .destroy i P => ∀ p ∈ s.foreign n i, (s.heap.tp p.1).owner ≠ P
  | _ => True

/-- A block that is taken is cut or fits, and no arena block grows in place on a pool with canaries.
-/
def Exact (cfg : Nat → Cfg) (s : State) : Step → Prop
  | .call i l => SharedTlsf.NoSlack cfg (s.view i) l
  | .arena a l => s.at a fun A => ThreadArena.NoSlack A l ∧ ThreadArena.NoCanaryGrow A l
  | _ => True

instance decPre (cfg : Nat → Cfg) (n : Nat) (s : State) : ∀ l, Decidable (s.pre cfg n l)
  | .call i l => inferInstanceAs (Decidable (i < n ∧ (s.view i).callPre cfg l))
  | .align t b => inferInstanceAs (Decidable ((t, b) ∈ s.live))
  | .other i l => inferInstanceAs (Decidable (i < n ∧ s.OnAligned l ∧ (s.viewAligned i).pre cfg l))
  | .destroy i P => inferInstanceAs (Decidable (i < n ∧ P ≠ 0))
  | .attach a raw _ => inferInstanceAs (Decidable
      ((s.arenas a).isNone ∧ 0 < raw ∧ 8 ∣ raw ∧ raw + arenaDefaultSize < sizeMod))
  | .arena a l => inferInstanceAs (Decidable (s.at a fun A => A.pre l))
  | .release _ => .isTrue trivial

instance decSized (cfg : Nat → Cfg) : ∀ l, Decidable (Sized cfg l)
  | .call _ l => inferInstanceAs (Decidable (SharedTlsf.Sized cfg l))
  | .other _ l => inferInstanceAs (Decidable (SharedTlsf.NoWrap cfg l))
  | .arena _ l => inferInstanceAs (Decidable (ThreadArena.Sized l))
  | .align .. | .destroy .. | .attach .. | .release _ => .isTrue trivial

instance decCanaryOwn (cfg : Nat → Cfg) (s : State) : ∀ l, Decidable (CanaryOwn cfg s l)
  | .call i l => inferInstanceAs (Decidable (SharedTlsf.CanaryOwn cfg (s.view i) l))
  | .other i l => inferInstanceAs (Decidable (SharedTlsf.CanaryInside cfg (s.viewAligned i) l))
  | .arena a l => inferInstanceAs (Decidable (s.at a fun A => ThreadArena.CanaryOwn A l))
  | .align .. | .destroy .. | .attach .. | .release _ => .isTrue trivial

instance decAlone (n : Nat) (s : State) : ∀ l, Decidable (Alone n s l)
  | .call i (.reset P) | .destroy i P =>
    inferInstanceAs (Decidable (∀ p ∈ s.foreign n i, (s.heap.tp p.1).owner ≠ P))
  | .call _ (.expand ..) | .call _ (.alloc ..) | .call _ (.batch ..) | .call _ (.free ..)
  | .call _ (.realloc ..)
  | .call _ (.switch _) | .call _ (.flush _) | .call _ (.write ..) | .align .. | .other ..
  | .attach .. | .arena ..
  | .release _ => .isTrue trivial

instance decExact (cfg : Nat → Cfg) (s : State) : ∀ l, Decidable (Exact cfg s l)
  | .call i l => inferInstanceAs (Decidable (SharedTlsf.NoSlack cfg (s.view i) l))
  | .arena a l =>
    inferInstanceAs (Decidable (s.at a fun A => ThreadArena.NoSlack A l ∧
      ThreadArena.NoCanaryGrow A l))
  | .align .. | .other .. | .destroy .. | .attach .. | .release _ => .isTrue trivial

structure Inv (k : Prop) (n : Nat) (s : State) : Prop where
  wf :
    ∃ as,
    Wf False s.heap
      (s.live ++ (s.aligned ++ (List.range n).flatMap fun j => cached (s.caches j))) as
  tls : ∀ i < n, TlsOk (s.caches i) ∧
    ∀ p ∈ cached (s.caches i), (s.heap.tp p.1).owner = (s.caches i).owner
  stamp : ∀ p ∈ s.live, Stamp k s.heap.mem p.2
  arenas : ∀ a A, s.arenas a = some A → TenantInv k A

section
variable {k : Prop} {cfg : Nat → Cfg} {n i : Nat} {s : State}

theorem caches_perm (hi : i < n) (f : Nat → List (Nat × Nat)) :
    ((List.range n).flatMap f).Perm (((List.range n).erase i).flatMap f ++ f i) :=
  ((List.perm_cons_erase (List.mem_range.mpr hi)).flatMap_right f).trans List.perm_append_comm

theorem foreign_update {C : Tls} :
    (((List.range n).erase i).flatMap fun j => cached (Function.update s.caches i C j)) =
      s.foreign n i := by
  refine List.flatMap_congr fun j hj => ?_
  have hne := (List.nodup_range.mem_erase_iff.mp hj).1
  rw [Function.update_of_ne hne]

/-- The shared tier as thread `i` sees it. -/
theorem Inv.view (h : Inv k n s) (hi : i < n) :
    CallInv False k (s.view i) (s.aligned ++ s.foreign n i) := by
  obtain ⟨as, w⟩ := h.wf
  obtain ⟨h1, h2⟩ := h.tls i hi
  refine ⟨⟨as, w.perm ?_, h1, h2⟩, h.stamp⟩
  have hp := caches_perm hi fun j => cached (s.caches j)
  show (_ : List _).Perm (s.live ++ (s.aligned ++ s.foreign n i) ++ cached (s.caches i))
  rw [List.append_assoc, List.append_assoc]
  exact (hp.append_left s.aligned).append_left s.live

theorem Inv.held (h : Inv k n s) (hi : i < n) :
    ∃ as, Held False s.heap (s.caches i) (s.live ++ (s.aligned ++ s.foreign n i)) as :=
  (h.view hi).held

/-- ... and what thread `i` makes of it. -/
theorem Inv.back (h : Inv k n s) (hi : i < n) {H : Heap} {C : Tls} {live aligned : List (Nat × Nat)}
    (held : ∃ as, Held False H C (live ++ (aligned ++ s.foreign n i)) as)
    (hown : ∀ p ∈ s.foreign n i, (H.tp p.1).owner = (s.heap.tp p.1).owner)
    (hst : ∀ p ∈ live, Stamp k H.mem p.2) :
    Inv k n ⟨H, Function.update s.caches i C, live, aligned, s.arenas⟩ := by
  obtain ⟨as, held⟩ := held
  refine ⟨⟨as, held.wf.perm ?_⟩, fun j hj => ?_, hst, h.arenas⟩
  · have hp := caches_perm hi fun j => cached (Function.update s.caches i C j)
    rw [foreign_update, Function.update_self] at hp
    rw [List.append_assoc, List.append_assoc]
    exact (hp.symm.append_left aligned).append_left live
  · dsimp only
    by_cases e : j = i
    · subst e
      rw [Function.update_self]
      exact ⟨held.tls, held.own⟩
    · rw [Function.update_of_ne e]
      obtain ⟨h1, h2⟩ := h.tls j hj
      refine ⟨h1, fun p hp => (hown p ?_).trans (h2 p hp)⟩
      exact List.mem_flatMap.mpr
        ⟨j, List.nodup_range.mem_erase_iff.mpr ⟨e, List.mem_range.mpr hj⟩, hp⟩

/-! ## Steps -/

/-- The pool of a block that another cache holds stays as it is. -/
theorem Inv.owners (h : Inv k n s) (hi : i < n) {H : Heap} {hs : List (Nat × Nat)}
    (kp : Stays s.heap H hs) : ∀ p ∈ s.foreign n i, (H.tp p.1).owner = (s.heap.tp p.1).owner := by
  obtain ⟨as, held⟩ := h.held hi
  intro p hp
  refine (kp.arenas p.1 (held.wf.known p ?_)).2.2.2
  exact List.mem_append_left _ (List.mem_append_right _ (List.mem_append_right _ hp))

theorem Inv.call (h : Inv k n s) (hi : i < n) {l : TierCall} (hl : ∀ P, l ≠ .reset P)
    (hpre : (s.view i).callPre cfg l) (hz : SharedTlsf.Sized cfg l)
    (hc : SharedTlsf.CanaryOwn cfg (s.view i) l) (hk : k → SharedTlsf.NoSlack cfg (s.view i) l) :
    Inv k n (s.next cfg (.call i l)) := by
  obtain ⟨h₁, kp⟩ :=
    SharedTlsf.call_inv (h.view hi) hpre hz hc hk False.elim fun P e => absurd e (hl P)
  have hb := h.back hi h₁.held (h.owners hi kp) h₁.stamp
  cases l with
  | reset P => exact absurd rfl (hl P)
  | _ => exact hb

theorem filter_foreign {H : Heap} {P : Nat} (hno : ∀ p ∈ s.foreign n i, (H.tp p.1).owner ≠ P) :
    (s.foreign n i).filter (fun p => decide ((H.tp p.1).owner ≠ P)) = s.foreign n i :=
  List.filter_eq_self.mpr fun p hp => decide_eq_true (hno p hp)

theorem Inv.reset (h : Inv k n s) (hi : i < n) {P : Nat}
    (hno : ∀ p ∈ s.foreign n i, (s.heap.tp p.1).owner ≠ P) :
    Inv k n (s.next cfg (.call i (.reset P))) := by
  obtain ⟨as, held⟩ := h.held hi
  obtain ⟨⟨as', held'⟩, kp⟩ := held.mpReset P
  have hall :
    (s.foreign n i).filter (fun p => decide ((s.heap.tp p.1).owner ≠ P)) = s.foreign n i :=
    filter_foreign hno
  rw [List.filter_append, List.filter_append, hall] at held' kp
  refine h.back hi ⟨as', held'.mono False.elim⟩ (h.owners hi kp) fun p hp => ?_
  exact kp.stamp (h.stamp p (List.mem_filter.mp hp).1) (List.mem_append_left _ hp)

theorem Inv.align (h : Inv k n s) {t b : Nat} (hp : (t, b) ∈ s.live) :
    Inv k n (s.next cfg (.align t b)) := by
  obtain ⟨as, w⟩ := h.wf
  refine ⟨⟨as, w.perm ?_⟩, h.tls, fun p hm => h.stamp p (List.mem_of_mem_erase hm), h.arenas⟩
  exact ((List.perm_cons_erase hp).append_right _).trans List.perm_middle.symm

theorem drop_wf {H : Heap} {hs : List (Nat × Nat)} {as : Nat → List Nat} (h : Wf k H hs as)
    (P : Nat) : Wf k (drop H P) (without H P hs) as := by
  have hin : ∀ t ∈ (drop H P).arenas, t ∈ H.arenas := fun t ht => (List.mem_filter.mp ht).1
  refine ⟨h.nodup.filter _, fun t ht => h.sound t (hin t ht), fun t ht => h.geo t (hin t ht),
    fun t ht => h.space t (hin t ht), fun t ht u hu => h.disj t (hin t ht) u (hin u hu),
      h.handles.filter _,
    fun t ht b => ?_, fun p hp => ?_⟩
  · obtain ⟨h1, h2⟩ := List.mem_filter.mp ht
    rw [without, List.mem_filter]
    exact (h.used t h1 b).trans ⟨fun hb => ⟨hb, h2⟩, And.left⟩
  · obtain ⟨h1, h2⟩ := List.mem_filter.mp hp
    exact List.mem_filter.mpr ⟨h.known p h1, h2⟩

theorem held_destroy {H : Heap} {C : Tls} {hs : List (Nat × Nat)} {as : Nat → List Nat}
    (h : Held k H C hs as) {P : Nat} (hP : P ≠ 0) :
    (∃ as', Held False (drop (SharedTlsf.tlsCacheFlushPool H C P).1 P)
      (SharedTlsf.tlsCacheFlushPool H C P).2
        (without H P hs) as') ∧
      Stays H (SharedTlsf.tlsCacheFlushPool H C P).1 hs := by
  obtain ⟨⟨⟨as', h'⟩, kp, -⟩, -, hown⟩ := h.flushPool P
  have hknown : ∀ p ∈ hs, p.1 ∈ H.arenas := fun p hp => h.wf.known p (List.mem_append_left _ hp)
  generalize SharedTlsf.tlsCacheFlushPool H C P = r at *
  have w : Wf False _ _ _ := (drop_wf h'.wf P).mono False.elim
  -- the flush has moved no block to another pool, and what is cached now belongs to others
  have hsame : without r.1 P hs = without H P hs :=
    List.filter_congr fun p hp => by rw [(kp.arenas p.1 (hknown p hp)).2.2.2]
  have hmine : without r.1 P (cached r.2) = cached r.2 :=
    List.filter_eq_self.mpr fun p hp => decide_eq_true fun e =>
      hP (hown ((h'.own p hp).symm.trans e))
  have hsplit : without r.1 P (hs ++ cached r.2) = without H P hs ++ cached r.2 := by
    rw [without, List.filter_append]
    exact congrArg₂ _ hsame hmine
  rw [hsplit] at w
  exact ⟨⟨as', w, h'.tls, h'.own⟩, kp⟩

theorem Inv.destroy (h : Inv k n s) (hi : i < n) {P : Nat} (hP : P ≠ 0)
    (hno : ∀ p ∈ s.foreign n i, (s.heap.tp p.1).owner ≠ P) :
    Inv k n (s.next cfg (.destroy i P)) := by
  obtain ⟨as, held⟩ := h.held hi
  obtain ⟨⟨as', held'⟩, kp⟩ := held_destroy held hP
  have hfor : without s.heap P (s.foreign n i) = s.foreign n i := filter_foreign hno
  have hsplit : without s.heap P (s.live ++ (s.aligned ++ s.foreign n i)) =
      without s.heap P s.live ++ (without s.heap P s.aligned ++ s.foreign n i) := by
    rw [without, List.filter_append, List.filter_append]
    exact congrArg (fun l => without s.heap P s.live ++ (without s.heap P s.aligned ++ l)) hfor
  have hown : ∀ p ∈ s.foreign n i,
    ((SharedTlsf.tlsCacheFlushPool s.heap (s.caches i) P).1.tp p.1).owner = _ :=
    h.owners hi kp
  refine h.back hi ⟨as', hsplit ▸ held'⟩ hown fun p hp => ?_
  have hp := (List.mem_filter.mp hp).1
  exact kp.stamp (h.stamp p hp) (List.mem_append_left _ hp)

theorem Inv.tenant (h : Inv k n s) (a : Nat) {o : Option Tenant}
    (ho : ∀ A, o = some A → TenantInv k A) :
    Inv k n { s with arenas := Function.update s.arenas a o } := by
  refine ⟨h.wf, h.tls, h.stamp, fun a' A hA => ?_⟩
  by_cases e : a' = a
  · subst e
    dsimp only at hA
    rw [Function.update_self] at hA
    exact ho A hA
  · dsimp only at hA
    rw [Function.update_of_ne e] at hA
    exact h.arenas a' A hA

theorem State.at_some {a : Nat} {A : Tenant} {p : Tenant → Prop} (hA : s.arenas a = some A)
    (h : s.at a p) : p A := by
  unfold State.at at h
  rw [hA] at h
  exact h

theorem Inv.arena (h : Inv k n s) {a : Nat} {l : ThreadArena.Call} (hpre : s.pre cfg n (.arena a l))
    (hz : Sized cfg (.arena a l)) (hc : CanaryOwn cfg s (.arena a l))
    (hk : k → Exact cfg s (.arena a l)) : Inv k n (s.next cfg (.arena a l)) := by
  refine h.tenant a fun A hA => ?_
  obtain ⟨A₀, h0, rfl⟩ := Option.map_eq_some_iff.mp hA
  exact ThreadArena.tenant_step (h.arenas a A₀ h0) (State.at_some h0 hpre) hz (State.at_some h0 hc)
    fun hk' => State.at_some h0 (hk hk')

/-- The block of a call on an aligned block. -/
def opTarget : SharedTlsf.Op → Nat × Nat
  | .mpFree t b _ | .mpRealloc _ t b _ _ | .write t b _ _ => (t, b)
  | _ => (0, 0)

/-- Such a call leaves the others alone. -/
theorem Inv.other_stays (h : Inv k n s) (hi : i < n) {l : SharedTlsf.Op} (hal : s.OnAligned l)
    (hpre : (s.viewAligned i).pre cfg l) (hz : SharedTlsf.NoWrap cfg l)
    (hc : SharedTlsf.CanaryInside cfg (s.viewAligned i) l) :
    (∃ as, Held False ((s.viewAligned i).next cfg l).heap ((s.viewAligned i).next cfg l).tls
        (s.live ++ (((s.viewAligned i).next cfg l).live ++ s.foreign n i)) as) ∧
      Stays s.heap ((s.viewAligned i).next cfg l).heap
        (s.live ++ (s.aligned.erase (opTarget l) ++ s.foreign n i)) := by
  obtain ⟨as, held⟩ := h.held hi
  have hnd := List.nodup_append.mp (List.nodup_append.mp held.wf.handles).1
  -- the block of the call is none of the live ones
  have hlive : ∀ p ∈ s.aligned, p ∉ s.live :=
    fun p hp hl => hnd.2.2 p hl p (List.mem_append_left _ hp) rfl
  have herase : ∀ p ∈ s.aligned, (s.live ++ (s.aligned ++ s.foreign n i)).erase p =
      s.live ++ (s.aligned.erase p ++ s.foreign n i) := fun p hp => by
    rw [List.erase_append_right _ (hlive p hp), List.erase_append_left _ hp]
  have hin : ∀ p ∈ s.aligned, p ∈ s.live ++ (s.aligned ++ s.foreign n i) := fun p hp =>
    List.mem_append_right _ (List.mem_append_left _ hp)
  cases l with
  | mpFree t b usable =>
    have he := held.erase (hin _ hal)
    rw [herase _ hal] at he
    obtain ⟨⟨as', held'⟩, kp⟩ := he.mpFree usable
    exact ⟨⟨as', held'.mono False.elim⟩, kp⟩
  | mpRealloc P t b hd newSize =>
    have hz' : 184 + newSize + (cfg P).canary.toNat + 7 < sizeMod := hz
    obtain ⟨-, -, hat, hbig⟩ := hpre
    obtain ⟨⟨as', held'⟩, kp⟩ := held.mpReallocInPlace (hin _ hal) hat hbig hz' hc
    rw [herase _ hal] at kp
    dsimp only [State.viewAligned, SharedTlsf.Sys.next]
    exact ⟨⟨as', held'.mono False.elim⟩, kp⟩
  | write t b a v =>
    obtain ⟨-, h1, h2⟩ := hpre
    have held' := held.write (v := v) (hin _ hal) h1 h2
    have hal8 := held.wf.aligned (t := t) (b := b) (List.mem_append_left _ (hin _ hal))
    have hB : blockHdr = 32 := rfl
    have h2' : a < b + span s.heap.mem b := h2
    refine ⟨⟨as, held'⟩, held.wf.write_keeps (t := t) (b := b) (List.mem_append_left _ (hin _ hal))
      (fun x hx => Mem.setByte_ne _ _ (by omega)) fun p hp => ?_⟩
    rw [opTarget, ← herase _ hal] at hp
    refine ⟨List.mem_append_left _ (List.mem_of_mem_erase hp), fun e => ?_⟩
    rw [e] at hp
    exact (List.nodup_append.mp held.wf.handles).1.not_mem_erase hp
  | _ => exact hal.elim

theorem Inv.other (h : Inv k n s) (hi : i < n) {l : SharedTlsf.Op} (hal : s.OnAligned l)
    (hpre : (s.viewAligned i).pre cfg l) (hz : SharedTlsf.NoWrap cfg l)
    (hc : SharedTlsf.CanaryInside cfg (s.viewAligned i) l) : Inv k n (s.next cfg (.other i l)) := by
  obtain ⟨held, kp⟩ := h.other_stays hi hal hpre hz hc
  exact h.back hi held (h.owners hi kp) fun p hp =>
    kp.stamp (h.stamp p hp) (List.mem_append_left _ hp)

/-- **One step.** -/
theorem step_inv {l : Step} (h : Inv k n s) (hpre : s.pre cfg n l) (hz : Sized cfg l)
    (hc : CanaryOwn cfg s l) (ha : Alone n s l) (hk : k → Exact cfg s l) :
    Inv k n (s.next cfg l) := by
  cases l with
  | call i l =>
    cases l with
    | reset P => exact h.reset hpre.1 ha
    | _ => exact h.call hpre.1 nofun hpre.2 hz hc hk
  | align t b => exact h.align hpre
  | other i l => exact h.other hpre.1 hpre.2.1 hpre.2.2 hz hc
  | destroy i P => exact h.destroy hpre.1 hpre.2 ha
  | attach a raw m =>
    obtain ⟨-, h1, h2, h3⟩ := hpre
    refine h.tenant a fun A hA => ?_
    exact Option.some.inj hA ▸ ThreadArena.fresh_inv ⟨raw, m, h1, h2, h3, rfl⟩
  | arena a l => exact h.arena hpre hz hc hk
  | release a => exact h.tenant a nofun

theorem empty_inv (m : Mem) : Inv k n (empty m) := by
  obtain ⟨as, held⟩ := SharedTlsf.start_held (k := False) m
  have hc : ((List.range n).flatMap fun j => cached ((empty m).caches j)) = [] :=
    List.flatMap_eq_nil_iff.mpr fun _ _ => by rfl
  refine ⟨⟨as, ?_⟩, fun i _ => ⟨held.tls, held.own⟩, nofun, nofun⟩
  show Wf False (SharedTlsf.start m).heap ([] ++ ([] ++ _)) as
  rw [hc]
  exact held.wf

/-- Every state of a run whose steps meet the conditions. -/
theorem run_inv {C : State → Step → Prop} (hr : ((system cfg n).guard C).Reachable s)
    (hC : ∀ s l, C s l → Sized cfg l ∧ CanaryOwn cfg s l ∧ Alone n s l ∧ (k → Exact cfg s l)) :
    Inv k n s := by
  refine LTS.Inductive.reachable ⟨?_, ?_⟩ hr
  · rintro _ ⟨m, rfl⟩
    exact empty_inv m
  · rintro s l _ h ⟨⟨hpre, rfl⟩, hl⟩
    obtain ⟨hz, hc, ha, hk⟩ := hC s l hl
    exact step_inv h hpre hz hc ha hk

def runFrom (cfg : Nat → Cfg) (l : List Step) : State := l.foldl (State.next cfg) (empty fun _ => 0)

/-- The header never promises more than the block has. -/
def Fits (s : State) : Prop :=
  (∀ p ∈ s.live, requestedSize s.heap.mem p.2 ≤ usableSize s.heap.mem p.2 ∧
    usableSize s.heap.mem p.2 + (blockHdr + hdrSize) ≤ span s.heap.mem p.2) ∧
    ∀ a A, s.arenas a = some A → ∀ b ∈ A.sys.live, b ∉ A.aligned →
      requestedSize A.sys.arena.mem b ≤ usableSize A.sys.arena.mem b ∧
        usableSize A.sys.arena.mem b + (blockHdr + hdrSize) ≤ span A.sys.arena.mem b

end

end Cmem.L3.Header

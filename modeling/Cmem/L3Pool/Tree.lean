import Mathlib
import Cmem.Core.LTS

/-!
# The pool tree

Pools hang on their parent by `first_child` and `next_sibling`. `mp_create_child`
(src/src/cmem.c:230-264) links a pool in front, `mp_enable_multi_arena`
(src/src/cmem_multi_arena.c:73-128) links one child per arena, and `mp_destroy`
(src/src/cmem_lifecycle.c:11-119) destroys the children first; nothing is ever taken
off a list of children.

Three more pointers to pools are followed. The thread cache has an owner
(`tls_cache.owner_pool`), which is flushed when another pool takes the cache. The
compression area is an ordinary block of the pool `mp_alloc` took it from, with the
pool in its header: the arena of the calling thread where there are arenas.
`mp_free(pool, compressed_area)` follows that header. The bindings of a thread to
arenas are only compared, and dropped with the pool.

A pool is named by the order of its creation, so that a freed structure stays a
different one from any later structure at its address. Following a pointer to a freed
pool, or freeing it again, is a fault.
-/
namespace Cmem.L3.Tree

inductive Fault where
  | freed (pool : Nat)
  | fuel
  deriving DecidableEq, Repr

/-- `memory_pool_t`, its links to other pools. -/
structure Node where
  parent : Option Nat
  firstChild : Option Nat
  nextSibling : Option Nat
  arenas : List Nat
  isMultiArenaChild : Bool
  /-- `MP_FLAG_STATIC_BUFFER` -/
  staticBuffer : Bool
  /-- `compressed_area`, by the pool in its header. -/
  compressedArea : Option Nat
  deriving DecidableEq, Repr

structure Forest where
  node : Nat → Node
  count : Nat
  freed : List Nat
  /-- `tls_cache.owner_pool` -/
  owner : Option Nat
  /-- The pools the caller destroyed. -/
  destroyed : List Nat

/-- What `calloc` leaves. -/
def Node.zero : Node := ⟨none, none, none, [], false, false, none⟩

def Forest.empty : Forest := ⟨fun _ => .zero, 0, [], none, []⟩

/-- Any access to the structure of a pool. -/
def Forest.read (s : Forest) (p : Nat) : Except Fault Node :=
  if p ∈ s.freed then .error (.freed p) else .ok (s.node p)

def Forest.set (s : Forest) (p : Nat) (n : Node) : Forest :=
  { s with node := Function.update s.node p n }

/-! ## Creation -/

/-- mirrors `mp_create_custom_impl`, src/src/cmem.c:282-320, without the arenas -/
def Forest.calloc (s : Forest) (staticBuffer : Bool) : Forest :=
  { s.set s.count { Node.zero with staticBuffer } with count := s.count + 1 }

/-- mirrors `mp_create_child_impl`, src/src/cmem.c:250-262 -/
def Forest.linkChild (s : Forest) (parent child : Nat) : Except Fault Forest := do
  let n ← s.read parent
  let c ← s.read child
  return (s.set child { c with parent := some parent, nextSibling := n.firstChild }).set parent
    { n with firstChild := some child }

/-- The loop of `mp_enable_multi_arena`, src/src/cmem_multi_arena.c:104-119: `made` tells
which children could be created; the pool itself stands in for the others. -/
def Forest.addArenas (s : Forest) (p : Nat) : List Bool → Except Fault (Forest × List Nat)
  | [] => .ok (s, [])
  | true :: made => do
    let n ← s.read p
    let child := s.count
    let s ← (s.calloc n.staticBuffer).linkChild p child
    let c ← s.read child
    let (s, arenas) ← (s.set child { c with isMultiArenaChild := true }).addArenas p made
    return (s, child :: arenas)
  | false :: made => do
    let (s, arenas) ← s.addArenas p made
    return (s, p :: arenas)

/-- mirrors `mp_enable_multi_arena`, src/src/cmem_multi_arena.c:73-128; no arena when the
table cannot be allocated -/
def Forest.mpEnableMultiArena (s : Forest) (p : Nat) (made : List Bool) : Except Fault Forest := do
  let n ← s.read p
  if n.isMultiArenaChild = true ∨ n.arenas ≠ [] ∨ made = [] then return s
  else
    let (s, arenas) ← s.addArenas p made
    let n ← s.read p
    return s.set p { n with arenas }

/-- mirrors `mp_create` and `mp_create_child`, src/src/cmem_lifecycle.c:524-530 and
src/src/cmem.c:230-264; `made` is not empty with `MP_FLAG_MULTI_ARENA` -/
def Forest.mpCreateChild (s : Forest) (parent : Option Nat) (staticBuffer : Bool)
    (made : List Bool) :
    Except Fault Forest := do
  let child := s.count
  match parent with
  | none => (s.calloc staticBuffer).mpEnableMultiArena child made
  | some p => do
    let _ ← s.read p
    let s ← (s.calloc staticBuffer).mpEnableMultiArena child made
    s.linkChild p child

/-! ## The thread cache and the compression area -/

/-- mirrors `tls_cache_validate_owner`, src/src/cmem_slab.c:520-550: the cache of the old
owner is flushed to its pages -/
def Forest.validateOwner (s : Forest) (p : Nat) : Except Fault Forest := do
  if s.owner = some p then return s
  else
    match s.owner with
    | none => return { s with owner := some p }
    | some o => do
      let _ ← s.read o
      return { s with owner := some p }

/-- `mp_alloc` in `cmem_compress_ensure_area`, src/src/cmem_compress.c:244-273. The area has
16 MiB and comes from the system, or from the TLSF tier in a static pool. `arena` is
the binding of the thread. -/
def Forest.ensureArea (s : Forest) (p arena : Nat) : Except Fault Forest := do
  let n ← s.read p
  let home := (n.arenas[arena]?).getD p
  let h ← s.read home
  let s ← if h.staticBuffer then s.validateOwner home else .ok s
  return s.set p { n with compressedArea := some home }

/-- `mp_free(pool, data)` of a block of the pool `d`, which may go through the thread
cache -/
def Forest.freeData (s : Forest) : Option (Nat × Bool) → Except Fault Forest
  | none => .ok s
  | some (d, cached) => do
    let _ ← s.read d
    if cached then s.validateOwner d else return s

/-- mirrors `mp_compress_block`, src/src/cmem_compress.c:295-393: `area` is the binding of
the thread when the area can be allocated, `data` the pool of the block when the block
is compressed and freed -/
def Forest.mpCompressBlock (s : Forest) (p : Nat) (area : Option Nat) (data : Option (Nat × Bool)) :
    Except Fault Forest := do
  let n ← s.read p
  match n.compressedArea, area with
  | none, none => return s
  | none, some arena => do
    let s ← s.ensureArea p arena
    s.freeData data
  | some _, _ => s.freeData data

/-! ## Destruction -/

/-- mirrors `tls_cache_flush_pool`, src/src/cmem_slab.c:455-500 -/
def Forest.flushPool (s : Forest) (p : Nat) : Forest :=
  if s.owner = some p then { s with owner := none } else s

/-- `mp_free(pool, pool->compressed_area)`, src/src/cmem_lifecycle.c:35-44: the pool in the
header of the area is the one that is updated. -/
def Forest.freeArea (s : Forest) (p : Nat) : Except Fault Forest := do
  let n ← s.read p
  match n.compressedArea with
  | none => return s
  | some home => do
    let h ← s.read home
    let s ← if h.staticBuffer then s.validateOwner home else .ok s
    return s.set p { n with compressedArea := none }

/-- `free(pool)` -/
def Forest.release (s : Forest) (p : Nat) : Except Fault Forest := do
  let n ← s.read p
  return if n.staticBuffer then s else { s with freed := p :: s.freed }

mutual

/-- mirrors `mp_destroy`, src/src/cmem_lifecycle.c:11-119 -/
def Forest.destroy : Nat → Forest → Nat → Except Fault Forest
  | 0, _, _ => .error .fuel
  | k + 1, s, p => do
    let n ← s.read p
    let s ← Forest.destroyChildren k (s.flushPool p) n.firstChild
    let s ← s.freeArea p
    s.release p

/-- The loop over the children. -/
def Forest.destroyChildren : Nat → Forest → Option Nat → Except Fault Forest
  | _, s, none => .ok s
  | 0, _, some _ => .error .fuel
  | k + 1, s, some c => do
    let n ← s.read c
    let s ← Forest.destroy k s c
    Forest.destroyChildren k s n.nextSibling

end

/-- A call of the caller. Each pool has at most `count` others below it. -/
def Forest.mpDestroy (s : Forest) (p : Nat) : Except Fault Forest := do
  let s ← s.destroy (s.count * (s.count + 2)) p
  return { s with destroyed := p :: s.destroyed }

/-! ## Runs -/

/-- `q` is `r` or below it. -/
inductive Forest.Under (s : Forest) (r : Nat) : Nat → Prop where
  | refl : s.Under r r
  | up {q t : Nat} : (s.node q).parent = some t → s.Under r t → s.Under r q

inductive Act where
  | create (parent : Option Nat) (staticBuffer : Bool) (made : List Bool)
  | enableMultiArena (p : Nat) (made : List Bool)
  | compressBlock (p : Nat) (area : Option Nat) (data : Option (Nat × Bool))
  | destroy (p : Nat)

def Forest.step (s : Forest) : Act → Except Fault Forest
  | .create parent staticBuffer made => s.mpCreateChild parent staticBuffer made
  | .enableMultiArena p made => s.mpEnableMultiArena p made
  | .compressBlock p area data => s.mpCompressBlock p area data
  | .destroy p => s.mpDestroy p

/-- Neither the pool nor one above it was destroyed. -/
def Forest.Usable (s : Forest) (p : Nat) : Prop := p < s.count ∧ ∀ r ∈ s.destroyed, ¬ s.Under r p

/-- The caller uses no pool behind its end, and destroys only pools it created; a thread
is bound to one of the arenas. -/
def Forest.pre (s : Forest) : Act → Prop
  | .create parent _ _ => ∀ p ∈ parent, s.Usable p
  | .enableMultiArena p _ => s.Usable p
  | .compressBlock p area data =>
    s.Usable p ∧ (∀ i ∈ area, (s.node p).arenas = [] ∨ i < (s.node p).arenas.length) ∧
    ∀ d ∈ data, s.Usable d.1
  | .destroy p => s.Usable p ∧ (s.node p).isMultiArenaChild = false

/-- A run ends with a fault. -/
def treeSystem : LTS (Except Fault Forest) Act :=
  .det (· = .ok .empty) (fun s l => ∃ f, s = .ok f ∧ f.pre l) fun s l => s.bind (·.step l)

/-- A pool is destroyed before the pools below it are, and no compression area below it
is a block of an arena. -/
def Careful (s : Except Fault Forest) : Act → Prop
  | .destroy p => ∀ f, s = .ok f → ∀ q, f.Under p q →
      (q ∈ f.freed → q = p) ∧ ∀ home ∈ (f.node q).compressedArea, home = q
  | _ => True

/-- No step followed a pointer to a freed pool, and none was freed twice. -/
def Safe (s : Except Fault Forest) : Prop := ∃ f, s = .ok f ∧ f.freed.Nodup

/-! ## The links -/

structure Forest.Links (s : Forest) : Prop where
  parent : ∀ q t, (s.node q).parent = some t → t < q ∧ q < s.count
  first : ∀ p c, (s.node p).firstChild = some c → (s.node c).parent = some p
  next : ∀ c d, (s.node c).nextSibling = some d →
    d < c ∧ ∃ t, (s.node c).parent = some t ∧ (s.node d).parent = some t

section Under
variable {s s' : Forest} {p q r t : Nat}

theorem Forest.Under.le (hl : s.Links) (h : s.Under r q) : r ≤ q := by
  induction h with
  | refl => exact Nat.le_refl _
  | up hq _ ih => exact Nat.le_trans ih (Nat.le_of_lt (hl.parent _ _ hq).1)

theorem Forest.Under.trans (h : s.Under p q) (h' : s.Under q r) : s.Under p r := by
  induction h' with
  | refl => exact h
  | up hq _ ih => exact .up hq ih

/-- What lies above a pool is a chain. -/
theorem Forest.Under.total (h : s.Under p q) (h' : s.Under r q) : s.Under p r ∨ s.Under r p := by
  induction h with
  | refl => exact .inr h'
  | up hq hup ih =>
    cases h' with
    | refl => exact .inl (.up hq hup)
    | up hq' hup' =>
      obtain rfl := Option.some.inj (hq.symm.trans hq')
      exact ih hup'

/-- The children of a pool have nothing in common. -/
theorem under_siblings (hl : s.Links) {c d : Nat} (hc : (s.node c).parent = some t)
    (hd : (s.node d).parent = some t) (hne : c ≠ d) (h : s.Under c q) : ¬ s.Under d q := by
  intro h'
  have hno : ∀ {a b : Nat}, (s.node a).parent = some t → (s.node b).parent = some t → a ≠ b →
    ¬ s.Under a b := by
    intro a b ha hb hab hu
    cases hu with
    | refl => exact hab rfl
    | up hq hup =>
      obtain rfl := Option.some.inj (hb.symm.trans hq)
      exact absurd (hup.le hl) (Nat.not_le.mpr (hl.parent _ _ ha).1)
  rcases h.total h' with hu | hu
  · exact hno hc hd hne hu
  · exact hno hd hc hne.symm hu

end Under

/-! ## Tearing down -/

/-- The owner of the thread cache is not freed. -/
def Forest.Owned (s : Forest) : Prop := ∀ o ∈ s.owner, o ∉ s.freed

/-- The pool is not freed, and its compression area is a block of its own. -/
def Forest.Sound (s : Forest) (q : Nat) : Prop :=
  q ∉ s.freed ∧ ∀ home ∈ (s.node q).compressedArea, home = q

/-- Pools of `R` are freed, and compression areas. -/
structure Tears (s s' : Forest) (R : Nat → Prop) : Prop where
  node : ∀ q, s'.node q = s.node q ∨ s'.node q = { s.node q with compressedArea := none }
  count : s'.count = s.count
  destroyed : s'.destroyed = s.destroyed
  freed : ∀ q ∈ s'.freed, q ∈ s.freed ∨ R q
  nodup : s.freed.Nodup → s'.freed.Nodup
  owned : s'.Owned
  owner : ∀ o ∈ s'.owner, o ∈ s.owner ∨ R o

namespace Tears
variable {s s' s'' : Forest} {R R' : Nat → Prop} {p q : Nat}

theorem refl (h : s.Owned) : Tears s s R :=
  ⟨fun _ => .inl rfl, rfl, rfl, fun _ => .inl, id, h, fun _ => .inl⟩

theorem mono (h : Tears s s' R) (hR : ∀ q, R q → R' q) : Tears s s' R' :=
  ⟨h.node, h.count, h.destroyed, fun q hq => (h.freed q hq).imp_right (hR q), h.nodup, h.owned,
    fun o ho => (h.owner o ho).imp_right (hR o)⟩

theorem trans (h : Tears s s' R) (h' : Tears s' s'' R) : Tears s s'' R where
  node q := by
    rcases h.node q with h1 | h1 <;> rcases h'.node q with h2 | h2 <;> rw [h2, h1] <;> simp
  count := h'.count.trans h.count
  destroyed := h'.destroyed.trans h.destroyed
  freed q hq := by
    rcases h'.freed q hq with hq | hq
    · exact h.freed q hq
    · exact .inr hq
  nodup hn := h'.nodup (h.nodup hn)
  owned := h'.owned
  owner o ho := by
    rcases h'.owner o ho with ho | ho
    · exact h.owner o ho
    · exact .inr ho

theorem parent (h : Tears s s' R) (q : Nat) : (s'.node q).parent = (s.node q).parent := by
  rcases h.node q with h | h <;> rw [h]

theorem firstChild (h : Tears s s' R) (q : Nat) :
    (s'.node q).firstChild = (s.node q).firstChild := by
  rcases h.node q with h | h <;> rw [h]

theorem nextSibling (h : Tears s s' R) (q : Nat) :
    (s'.node q).nextSibling = (s.node q).nextSibling := by
  rcases h.node q with h | h <;> rw [h]

theorem links (h : Tears s s' R) (hl : s.Links) : s'.Links where
  parent q t := by rw [h.parent, h.count]; exact hl.parent q t
  first p c := by rw [h.firstChild, h.parent]; exact hl.first p c
  next c d := by rw [h.nextSibling, h.parent, h.parent]; exact hl.next c d

theorem under (h : Tears s s' R) : s'.Under p q ↔ s.Under p q := by
  constructor
  · intro hu
    induction hu with
    | refl => exact .refl
    | up hq _ ih => exact .up ((h.parent _).symm.trans hq) ih
  · intro hu
    induction hu with
    | refl => exact .refl
    | up hq _ ih => exact .up ((h.parent _).trans hq) ih

theorem sound (h : Tears s s' R) (hq : s.Sound q) (hR : ¬ R q) : s'.Sound q := by
  refine ⟨fun hf => ?_, fun home hh => ?_⟩
  · rcases h.freed q hf with hf | hf
    · exact hq.1 hf
    · exact hR hf
  · rcases h.node q with h | h <;> rw [h] at hh
    · exact hq.2 home hh
    · cases hh

end Tears

section Destroy
variable {s : Forest} {p : Nat}

theorem read_ok (h : p ∉ s.freed) : s.read p = .ok (s.node p) := if_neg h

theorem ok_bind {α β : Type} (a : α) (f : α → Except Fault β) : (Except.ok a >>= f) = f a := rfl

theorem freeArea_none (h : p ∉ s.freed) (ha : (s.node p).compressedArea = none) :
    s.freeArea p = .ok s := by
  unfold Forest.freeArea
  rw [read_ok h, ok_bind, ha]
  rfl

/-- An area that is a block of the pool itself. -/
theorem freeArea_own (h : p ∉ s.freed) (ha : (s.node p).compressedArea = some p) :
    s.freeArea p = (do
      let s₁ ← if (s.node p).staticBuffer then s.validateOwner p else .ok s
      return s₁.set p { s.node p with compressedArea := none }) := by
  unfold Forest.freeArea
  rw [read_ok h, ok_bind, ha]
  simp only [read_ok h, ok_bind]

theorem release_eq (h : p ∉ s.freed) :
    s.release p =
      .ok (if (s.node p).staticBuffer then s else { s with freed := p :: s.freed }) := by
  unfold Forest.release
  rw [read_ok h, ok_bind]
  rfl

/-- The old owner of the cache is flushed. -/
theorem validateOwner_eq (ho : s.Owned) : s.validateOwner p = .ok { s with owner := some p } := by
  unfold Forest.validateOwner
  split
  · rename_i h
    exact congrArg Except.ok (by cases s; cases h; rfl)
  · split
    · rfl
    · rename_i o h
      rw [read_ok (ho o h), ok_bind]
      rfl

/-- The pool loses its compression area. -/
theorem Tears.unset (ho : s.Owned) :
    Tears s (s.set p { s.node p with compressedArea := none }) (· = p) := by
  refine ⟨fun q => ?_, rfl, rfl, fun _ => .inl, id, ho, fun _ => .inl⟩
  by_cases hq : q = p
  · rw [hq]
    exact .inr (Function.update_self ..)
  · exact .inl (Function.update_of_ne hq ..)

/-- The end of `mp_destroy`: the compression area, and the structure. -/
theorem release_tears (ho : s.Owned) (hs : s.Sound p) (hne : s.owner ≠ some p) :
    ∃ s', (do let s ← s.freeArea p; s.release p) = .ok s' ∧ Tears s s' (· = p) := by
  -- `free` itself
  have hfree : ∀ s₁ : Forest, Tears s s₁ (· = p) →
      ((s.node p).staticBuffer = false → s₁.owner ≠ some p) → p ∉ s₁.freed →
      ∃ s', s₁.release p = .ok s' ∧ Tears s s' (· = p) := by
    intro s₁ ht hne hp
    have hstatic : (s₁.node p).staticBuffer = (s.node p).staticBuffer := by
      rcases ht.node p with h | h <;> rw [h]
    cases hb : (s.node p).staticBuffer with
    | true => exact ⟨s₁, by rw [release_eq hp, hstatic, hb]; rfl, ht⟩
    | false =>
      refine ⟨{ s₁ with freed := p :: s₁.freed }, by rw [release_eq hp, hstatic, hb]; rfl,
        ht.trans ?_⟩
      refine ⟨fun _ => .inl rfl, rfl, rfl, fun q hq => ?_, fun hn => List.nodup_cons.mpr ⟨hp, hn⟩,
        fun o hm hq => ?_, fun _ => .inl⟩
      · rcases List.mem_cons.mp hq with rfl | hq
        · exact .inr rfl
        · exact .inl hq
      · rcases List.mem_cons.mp hq with rfl | hq
        · exact hne hb hm
        · exact ht.owned o hm hq
  cases ha : (s.node p).compressedArea with
  | none =>
    rw [freeArea_none hs.1 ha]
    exact hfree s (.refl ho) (fun _ => hne) hs.1
  | some home =>
    obtain rfl := hs.2 home ha
    rw [freeArea_own hs.1 ha]
    cases hb : (s.node home).staticBuffer with
    | false => exact hfree _ (.unset ho) (fun _ => hne) hs.1
    | true =>
      -- the block goes through the thread cache of the pool
      have hown : Tears s { s with owner := some home } (· = home) :=
        ⟨fun _ => .inl rfl, rfl, rfl, fun _ => .inl, id, fun o hm => Option.some.inj hm ▸ hs.1,
          fun o hm => .inr (Option.some.inj hm).symm⟩
      simp only [if_true, validateOwner_eq ho, ok_bind]
      exact hfree _ (hown.trans (.unset hown.owned)) (fun h => absurd (hb.symm.trans h) nofun) hs.1

theorem flushPool_tears (p : Nat) (ho : s.Owned) :
    Tears s (s.flushPool p) (fun _ => False) ∧ (s.flushPool p).owner ≠ some p := by
  unfold Forest.flushPool
  split
  · exact ⟨⟨fun _ => .inl rfl, rfl, rfl, fun _ => .inl, id, fun _ hm => (by cases hm),
      fun _ hm => (by cases hm)⟩, nofun⟩
  · rename_i hne
    exact ⟨.refl ho, hne⟩

/-- The region below the children of `t` up to `c`. -/
def Forest.Fringe (s : Forest) (t c q : Nat) : Prop :=
  ∃ d ≤ c, (s.node d).parent = some t ∧ s.Under d q

/-- `mp_destroy` frees pools below `p` only, each once, and follows no pointer to a freed
one: by induction on the fuel, for the pool and for the loop over its children. -/
theorem destroy_tears (k : Nat) :
    (∀ s p, s.Links → s.Owned → p < s.count → (∀ q, s.Under p q → s.Sound q) →
      (s.count - p) * (s.count + 2) ≤ k →
      ∃ s', Forest.destroy k s p = .ok s' ∧ Tears s s' (s.Under p)) ∧
    ∀ s t c, s.Links → s.Owned → (s.node c).parent = some t → (∀ q, s.Fringe t c q → s.Sound q) →
      (s.count - (t + 1)) * (s.count + 2) + (c - t) ≤ k →
      ∃ s', Forest.destroyChildren k s (some c) = .ok s' ∧ Tears s s' (s.Fringe t c) := by
  induction k with
  | zero =>
    constructor
    · intro s p hl ho hp hs hk
      have : 0 < (s.count - p) * (s.count + 2) := Nat.mul_pos (by omega) (by omega)
      omega
    · intro s t c hl ho hc hs hk
      have := (hl.parent c t hc).1
      omega
  | succ k ih =>
    obtain ⟨ihp, ihc⟩ := ih
    constructor
    · intro s p hl ho hp hs hk
      have hsp := hs p .refl
      obtain ⟨ht₁, hne₁⟩ := flushPool_tears p ho
      -- the children
      have hkids : ∃ s₂, Forest.destroyChildren k (s.flushPool p) (s.node p).firstChild = .ok s₂ ∧
          Tears (s.flushPool p) s₂ fun q => s.Under p q ∧ q ≠ p := by
        cases hc : (s.node p).firstChild with
        | none => exact ⟨_, by cases k <;> rfl, .refl ht₁.owned⟩
        | some c =>
          have hpc := hl.first p c hc
          obtain ⟨hlt, hcount⟩ := hl.parent c p hpc
          have hin : ∀ q, (s.flushPool p).Fringe p c q → s.Under p q ∧ q ≠ p := by
            rintro q ⟨d, -, hd, hq⟩
            rw [ht₁.parent] at hd
            rw [ht₁.under] at hq
            have := hq.le hl
            have := (hl.parent d p hd).1
            exact ⟨Forest.Under.trans (.up hd .refl) hq, by omega⟩
          have hfuel :
            (s.count - (p + 1)) * (s.count + 2) + (s.count + 2) =
              (s.count - p) * (s.count + 2) := by
            rw [← Nat.succ_mul]
            congr 1
            omega
          obtain ⟨s₂, he₂, ht₂⟩ :=
            ihc (s.flushPool p) p c (ht₁.links hl) ht₁.owned (by rw [ht₁.parent]; exact hpc)
            (fun q hq => ht₁.sound (hs q (hin q hq).1) id) (by rw [ht₁.count]; omega)
          exact ⟨s₂, he₂, ht₂.mono hin⟩
      obtain ⟨s₂, he₂, ht₂⟩ := hkids
      -- and the pool itself
      have hp₂ : s₂.Sound p := ht₂.sound (ht₁.sound hsp id) fun h => h.2 rfl
      have hne₂ : s₂.owner ≠ some p := fun h => by
        rcases ht₂.owner p h with h | h
        · exact hne₁ h
        · exact h.2 rfl
      obtain ⟨s₃, he₃, ht₃⟩ := release_tears ht₂.owned hp₂ hne₂
      refine ⟨s₃, ?_,
        (ht₁.mono fun _ => False.elim).trans
          ((ht₂.mono fun q h => h.1).trans (ht₃.mono fun q h => h ▸ .refl))⟩
      rw [Forest.destroy, read_ok hsp.1, ok_bind, he₂, ok_bind]
      exact he₃
    · intro s t c hl ho hc hs hk
      obtain ⟨htc, hcount⟩ := hl.parent c t hc
      have hin : ∀ q, s.Under c q → s.Fringe t c q := fun q hq => ⟨c, Nat.le_refl _, hc, hq⟩
      have hcf : c ∉ s.freed := (hs c (hin c .refl)).1
      have hmul : (s.count - c) * (s.count + 2) ≤ (s.count - (t + 1)) * (s.count + 2) :=
        Nat.mul_le_mul_right _ (by omega)
      obtain ⟨s₁, he₁, ht₁⟩ := ihp s c hl ho hcount (fun q hq => hs q (hin q hq)) (by omega)
      have heq :
        Forest.destroyChildren (k + 1) s (some c) =
          Forest.destroyChildren k s₁ (s.node c).nextSibling := by
        rw [Forest.destroyChildren, read_ok hcf, ok_bind, he₁, ok_bind]
      rw [heq]
      cases hn : (s.node c).nextSibling with
      | none => exact ⟨s₁, by cases k <;> rfl, ht₁.mono hin⟩
      | some d =>
        obtain ⟨hdc, t', hc', hd⟩ := hl.next c d hn
        obtain rfl := Option.some.inj (hc.symm.trans hc')
        have hsub : ∀ q, s₁.Fringe t d q → s.Fringe t c q ∧ ¬ s.Under c q := by
          rintro q ⟨e, hle, he, hq⟩
          rw [ht₁.parent] at he
          rw [ht₁.under] at hq
          exact ⟨⟨e, by omega, he, hq⟩, under_siblings hl he hc (by omega) hq⟩
        obtain ⟨s₂, he₂, ht₂⟩ := ihc s₁ t d (ht₁.links hl) ht₁.owned (by rw [ht₁.parent, hd])
          (fun q hq => ht₁.sound (hs q (hsub q hq).1) (hsub q hq).2) (by rw [ht₁.count]; omega)
        exact ⟨s₂, he₂, (ht₁.mono hin).trans (ht₂.mono fun q hq => (hsub q hq).1)⟩

end Destroy

/-! ## The invariant -/

structure Forest.Inv (s : Forest) : Prop where
  links : s.Links
  owned : s.Owned
  nodup : s.freed.Nodup
  up : ∀ q ∈ s.freed, ∃ r ∈ s.destroyed, s.Under r q
  top : ∀ r ∈ s.destroyed, r < s.count ∧ (s.node r).isMultiArenaChild = false
  arena : ∀ q, ∀ a ∈ (s.node q).arenas, a = q ∨
    (s.node a).parent = some q ∧ (s.node a).isMultiArenaChild = true

section Grow
variable {s s' : Forest} {p q r c : Nat}

theorem Forest.Under.mono (h : s.Under r q)
    (hp : ∀ q t, (s.node q).parent = some t → (s'.node q).parent = some t) :
    s'.Under r q := by
  induction h with
  | refl => exact .refl
  | up hq _ ih => exact .up (hp _ _ hq) ih

theorem Forest.Under.lt (hl : s.Links) (h : s.Under r q) (hr : r < s.count) : q < s.count := by
  cases h with
  | refl => exact hr
  | up hq _ => exact (hl.parent _ _ hq).2

theorem Forest.Inv.freed_lt (h : s.Inv) (hq : q ∈ s.freed) : q < s.count := by
  obtain ⟨r, hr, hu⟩ := h.up q hq
  exact hu.lt h.links (h.top r hr).1

theorem Forest.Inv.usable (h : s.Inv) (hp : s.Usable p) : p ∉ s.freed := fun hf => by
  obtain ⟨r, hr, hu⟩ := h.up p hf
  exact hp.2 r hr hu

/-- The arenas of a pool live as long as it does. -/
theorem Forest.Inv.arena_usable (h : s.Inv) (hp : s.Usable p) {a : Nat}
    (ha : a ∈ (s.node p).arenas) : a ∉ s.freed := by
  rcases h.arena p a ha with rfl | ⟨hpar, hchild⟩
  · exact h.usable hp
  · intro hf
    obtain ⟨r, hr, hu⟩ := h.up a hf
    cases hu with
    | refl => exact absurd (hchild.symm.trans (h.top a hr).2) nofun
    | up hq hup =>
      obtain rfl := Option.some.inj (hpar.symm.trans hq)
      exact hp.2 r hr hup

theorem calloc_node (s : Forest) (b : Bool) (q : Nat) :
    (s.calloc b).node q = if q = s.count then { Node.zero with staticBuffer := b } else s.node q :=
  Function.update_apply ..

theorem Forest.Inv.calloc (h : s.Inv) (b : Bool) : (s.calloc b).Inv := by
  have hpar : ∀ q t, (s.node q).parent = some t → ((s.calloc b).node q).parent = some t := by
    intro q t hq
    have := (h.links.parent q t hq).2
    rw [calloc_node, if_neg (by omega)]
    exact hq
  refine ⟨⟨?_, ?_, ?_⟩, h.owned, h.nodup, fun q hq => ?_, fun r hr => ?_, fun q a ha => ?_⟩
  · intro q t hq
    rw [calloc_node] at hq
    split at hq
    · cases hq
    · exact ⟨(h.links.parent q t hq).1, Nat.lt_succ_of_lt (h.links.parent q t hq).2⟩
  · intro p c hc
    rw [calloc_node] at hc
    split at hc
    · cases hc
    · exact hpar c p (h.links.first p c hc)
  · intro c d hd
    rw [calloc_node] at hd
    split at hd
    · cases hd
    · obtain ⟨hlt, t, hc, hd⟩ := h.links.next c d hd
      exact ⟨hlt, t, hpar c t hc, hpar d t hd⟩
  · obtain ⟨r, hr, hu⟩ := h.up q hq
    exact ⟨r, hr, hu.mono hpar⟩
  · obtain ⟨hlt, hch⟩ := h.top r hr
    refine ⟨Nat.lt_succ_of_lt hlt, ?_⟩
    rw [calloc_node, if_neg (by omega)]
    exact hch
  · rw [calloc_node] at ha
    split at ha
    · cases ha
    · refine (h.arena q a ha).imp_right fun ⟨h1, h2⟩ => ⟨hpar a q h1, ?_⟩
      have := (h.links.parent a q h1).2
      rw [calloc_node, if_neg (by omega)]
      exact h2

/-- `c` is the first child of `p` now. -/
structure Linked (s s' : Forest) (p c : Nat) : Prop where
  parent : ∀ q, (s'.node q).parent = if q = c then some p else (s.node q).parent
  first : ∀ q, (s'.node q).firstChild = if q = p then some c else (s.node q).firstChild
  next :
    ∀ q, (s'.node q).nextSibling = if q = c then (s.node p).firstChild else (s.node q).nextSibling
  arenas : ∀ q, (s'.node q).arenas = (s.node q).arenas
  arenaChild : ∀ q, (s'.node q).isMultiArenaChild = (s.node q).isMultiArenaChild
  count : s'.count = s.count
  freed : s'.freed = s.freed
  owner : s'.owner = s.owner
  destroyed : s'.destroyed = s.destroyed

theorem linkChild_linked (hp : p ∉ s.freed) (hc : c ∉ s.freed) (hne : p ≠ c) :
    ∃ s', s.linkChild p c = .ok s' ∧ Linked s s' p c := by
  refine ⟨(s.set c { s.node c with parent := some p, nextSibling := (s.node p).firstChild }).set p
    { s.node p with firstChild := some c }, ?_, ?_⟩
  · unfold Forest.linkChild
    rw [read_ok hp, ok_bind, read_ok hc, ok_bind]
    rfl
  · have hnode :
        ∀ q,
        (((s.set c { s.node c with parent := some p, nextSibling := (s.node p).firstChild }).set p
        { s.node p with firstChild := some c }).node q) =
        if q = p then { s.node p with firstChild := some c }
        else if q = c then { s.node c with parent := some p, nextSibling := (s.node p).firstChild }
        else s.node q := by
      intro q
      simp only [Forest.set, Function.update_apply]
    constructor
    case parent | first | next | arenas | arenaChild =>
      intro q
      rw [hnode]
      by_cases h1 : q = p
      · subst h1
        simp [hne]
      · by_cases h2 : q = c
        · subst h2
          simp [h1]
        · simp [h1, h2]
    all_goals rfl

theorem Linked.inv (h : Linked s s' p c) (hi : s.Inv) (hlt : p < c) (hc : c < s.count)
    (hnone : (s.node c).parent = none)
    (hold : ∀ d, (s.node d).parent = some p → d < c) : s'.Inv := by
  have hpar : ∀ q t, (s.node q).parent = some t → (s'.node q).parent = some t := by
    intro q t hq
    rw [h.parent, if_neg (by rintro rfl; exact absurd (hnone.symm.trans hq) nofun)]
    exact hq
  refine ⟨⟨?_, ?_, ?_⟩, ?_, by rw [h.freed]; exact hi.nodup, ?_, ?_, ?_⟩
  · intro q t hq
    rw [h.count]
    rw [h.parent] at hq
    split at hq
    · obtain rfl := Option.some.inj hq
      subst q
      exact ⟨hlt, hc⟩
    · exact hi.links.parent q t hq
  · intro q d hd
    rw [h.first] at hd
    split at hd
    · obtain rfl := Option.some.inj hd
      subst q
      rw [h.parent, if_pos rfl]
    · exact hpar d q (hi.links.first q d hd)
  · intro q d hd
    rw [h.next] at hd
    split at hd
    · subst q
      have hd := hi.links.first p d hd
      exact ⟨hold d hd, p, by rw [h.parent, if_pos rfl], hpar d p hd⟩
    · obtain ⟨h1, t, h2, h3⟩ := hi.links.next q d hd
      exact ⟨h1, t, hpar q t h2, hpar d t h3⟩
  · intro o ho
    rw [h.owner] at ho
    rw [h.freed]
    exact hi.owned o ho
  · intro q hq
    rw [h.freed] at hq
    rw [h.destroyed]
    obtain ⟨r, hr, hu⟩ := hi.up q hq
    exact ⟨r, hr, hu.mono hpar⟩
  · intro r hr
    rw [h.destroyed] at hr
    rw [h.count, h.arenaChild]
    exact hi.top r hr
  · intro q a ha
    rw [h.arenas] at ha
    rw [h.arenaChild]
    exact (hi.arena q a ha).imp_right fun ⟨h1, h2⟩ => ⟨hpar a q h1, h2⟩

/-- A pool with the same links. -/
theorem Forest.Inv.set (h : s.Inv) {n : Node} (hp : n.parent = (s.node p).parent)
    (hf : n.firstChild = (s.node p).firstChild) (hn : n.nextSibling = (s.node p).nextSibling)
    (ha : ∀ a ∈ n.arenas, a = p ∨ (s.node a).parent = some p ∧ (s.node a).isMultiArenaChild = true)
    (hc : n.isMultiArenaChild = (s.node p).isMultiArenaChild ∨
    n.isMultiArenaChild = true ∧ p ∉ s.destroyed) : (s.set p n).Inv := by
  have hnode : ∀ q, (s.set p n).node q = if q = p then n else s.node q :=
    fun q => Function.update_apply ..
  have hpar : ∀ q, ((s.set p n).node q).parent = (s.node q).parent := by
    intro q
    rw [hnode]
    split
    · subst q; exact hp
    · rfl
  have hchild : ∀ q, (s.node q).isMultiArenaChild = true →
    ((s.set p n).node q).isMultiArenaChild = true := by
    intro q hq
    rw [hnode]
    split
    · subst q
      rcases hc with hc | hc
      · exact hc.trans hq
      · exact hc.1
    · exact hq
  refine ⟨⟨fun q t => by rw [hpar]; exact h.links.parent q t, fun q c hq => ?_, fun c d hd => ?_⟩,
    h.owned, h.nodup,
    fun q hq => ?_, fun r hr => ⟨(h.top r hr).1, ?_⟩, fun q a hq => ?_⟩
  · rw [hpar]
    rw [hnode] at hq
    split at hq
    · subst q; exact h.links.first p c (hf ▸ hq)
    · exact h.links.first q c hq
  · rw [hpar, hpar]
    rw [hnode] at hd
    split at hd
    · subst c; exact h.links.next p d (hn ▸ hd)
    · exact h.links.next c d hd
  · obtain ⟨r, hr, hu⟩ := h.up q hq
    exact ⟨r, hr, hu.mono fun x t hx => (hpar x).trans hx⟩
  · rw [hnode]
    split
    · subst r
      rcases hc with hc | hc
      · exact hc.trans (h.top p hr).2
      · exact absurd hr hc.2
    · exact (h.top r hr).2
  · rw [hpar]
    rw [hnode] at hq
    split at hq
    · subst q; exact (ha a hq).imp_right fun ⟨h1, h2⟩ => ⟨h1, hchild a h2⟩
    · exact (h.arena q a hq).imp_right fun ⟨h1, h2⟩ => ⟨h1, hchild a h2⟩

end Grow

/-! ## Creation -/

/-- Children of `p` are new. -/
structure Grown (s s' : Forest) (p : Nat) : Prop where
  count : s.count ≤ s'.count
  freed : s'.freed = s.freed
  parent : ∀ q < s.count, (s'.node q).parent = (s.node q).parent
  arenaChild : ∀ q < s.count, (s'.node q).isMultiArenaChild = (s.node q).isMultiArenaChild
  new : ∀ q, s.count ≤ q → ∀ t, (s'.node q).parent = some t → t = p

section Create
variable {s s' s'' : Forest} {p : Nat}

theorem Grown.refl (h : s.Inv) (p : Nat) : Grown s s p :=
  ⟨Nat.le_refl _, rfl, fun _ _ => rfl, fun _ _ => rfl,
    fun q hq t ht => absurd (h.links.parent q t ht).2 (Nat.not_lt.mpr hq)⟩

theorem Grown.trans (h : Grown s s' p) (h' : Grown s' s'' p) : Grown s s'' p := by
  refine ⟨Nat.le_trans h.count h'.count, h'.freed.trans h.freed, fun q hq => ?_, fun q hq => ?_,
    fun q hq t ht => ?_⟩
  · rw [h'.parent q (Nat.lt_of_lt_of_le hq h.count), h.parent q hq]
  · rw [h'.arenaChild q (Nat.lt_of_lt_of_le hq h.count), h.arenaChild q hq]
  · rcases Nat.lt_or_ge q s'.count with hlt | hge
    · rw [h'.parent q hlt] at ht
      exact h.new q hq t ht
    · exact h'.new q hge t ht

/-- One arena. -/
theorem addArena (h : s.Inv) (hp : p ∉ s.freed) (hlt : p < s.count) (b : Bool) :
    ∃ s₁, (s.calloc b).linkChild p s.count = .ok s₁ ∧ s.count ∉ s₁.freed ∧
      (s₁.set s.count { s₁.node s.count with isMultiArenaChild := true }).Inv ∧
      Grown s (s₁.set s.count { s₁.node s.count with isMultiArenaChild := true }) p ∧
      (s₁.node s.count).parent = some p := by
  have hc : s.count ∉ s.freed := fun hf => absurd (h.freed_lt hf) (Nat.lt_irrefl _)
  obtain ⟨s₁, he, hl⟩ := linkChild_linked (s := s.calloc b) (c := s.count) hp hc (Nat.ne_of_lt hlt)
  have hnew : ((s.calloc b).node s.count).parent = none := by rw [calloc_node, if_pos rfl]; rfl
  have hi₁ : s₁.Inv := hl.inv (h.calloc b) hlt (Nat.lt_succ_self _) hnew fun d hd => by
    rw [calloc_node] at hd
    split at hd
    · cases hd
    · exact (h.links.parent d p hd).2
  have hd₁ : s.count ∉ s₁.destroyed := by
    rw [hl.destroyed]
    exact fun hd => absurd (h.top _ hd).1 (Nat.lt_irrefl _)
  refine ⟨s₁, he, by rw [hl.freed]; exact hc, hi₁.set rfl rfl rfl (hi₁.arena _) (.inr ⟨rfl, hd₁⟩),
    ?_, by rw [hl.parent, if_pos rfl]⟩
  have hpar :
      ∀ q, ((s₁.set s.count { s₁.node s.count with isMultiArenaChild := true }).node q).parent =
      if q = s.count then some p else (s.node q).parent := by
    intro q
    by_cases hq : q = s.count
    · subst hq
      simp [Forest.set, hl.parent]
    · simp [Forest.set, hl.parent, hq, calloc_node]
  refine ⟨by rw [show (s₁.set _ _).count = s₁.count from rfl, hl.count]; exact Nat.le_succ _,
    hl.freed, fun q hq => ?_,
    fun q hq => ?_, fun q hq t ht => ?_⟩
  · rw [hpar, if_neg (Nat.ne_of_lt hq)]
  · have hne := Nat.ne_of_lt hq
    simp [Forest.set, hl.arenaChild, hne, calloc_node]
  · rw [hpar] at ht
    split at ht
    · exact (Option.some.inj ht).symm
    · exact absurd (h.links.parent q t ht).2 (Nat.not_lt.mpr hq)

theorem addArenas_grown (made : List Bool) : ∀ s : Forest, s.Inv → p ∉ s.freed → p < s.count →
    ∃ s' arenas, s.addArenas p made = .ok (s', arenas) ∧ s'.Inv ∧ Grown s s' p ∧
      ∀ a ∈ arenas, a = p ∨ (s'.node a).parent = some p ∧ (s'.node a).isMultiArenaChild = true := by
  induction made with
  | nil => exact fun s h _ _ => ⟨s, [], rfl, h, .refl h p, nofun⟩
  | cons m made ih =>
    intro s h hp hlt
    cases m with
    | true =>
      obtain ⟨s₁, he₁, hc₁, hi₁, hg₁, hpar₁⟩ := addArena h hp hlt (s.node p).staticBuffer
      have hcount :
        s.count < (s₁.set s.count { s₁.node s.count with isMultiArenaChild := true }).count := by
        have := (hi₁.links.parent s.count p (by simpa [Forest.set] using hpar₁)).2
        exact this
      obtain ⟨s', arenas, he, hi, hg, ha⟩ :=
        ih _ hi₁ (by rw [hg₁.freed]; exact hp) (Nat.lt_of_lt_of_le hlt hg₁.count)
      refine ⟨s', s.count :: arenas, ?_, hi, hg₁.trans hg, fun a hm => ?_⟩
      · rw [Forest.addArenas, read_ok hp, ok_bind]
        simp only [he₁, ok_bind, read_ok hc₁, he]
        rfl
      · rcases List.mem_cons.mp hm with rfl | hm
        · rw [hg.parent _ hcount, hg.arenaChild _ hcount]
          exact .inr ⟨by simpa [Forest.set] using hpar₁, by simp [Forest.set]⟩
        · exact ha a hm
    | false =>
      obtain ⟨s', arenas, he, hi, hg, ha⟩ := ih s h hp hlt
      refine ⟨s', p :: arenas, ?_, hi, hg, fun a hm => ?_⟩
      · rw [Forest.addArenas]
        simp only [he, ok_bind]
        rfl
      · rcases List.mem_cons.mp hm with rfl | hm
        · exact .inl rfl
        · exact ha a hm

theorem mpEnableMultiArena_grown (h : s.Inv) (hp : p ∉ s.freed) (hlt : p < s.count)
    (made : List Bool) : ∃ s', s.mpEnableMultiArena p made = .ok s' ∧ s'.Inv ∧ Grown s s' p := by
  unfold Forest.mpEnableMultiArena
  rw [read_ok hp, ok_bind]
  split
  · exact ⟨s, rfl, h, .refl h p⟩
  · obtain ⟨s₁, arenas, he, hi, hg, ha⟩ := addArenas_grown made s h hp hlt
    have hp₁ : p ∉ s₁.freed := by rw [hg.freed]; exact hp
    refine ⟨s₁.set p { s₁.node p with arenas }, ?_, hi.set rfl rfl rfl ha (.inl rfl), hg.trans ?_⟩
    · simp only [he, ok_bind, read_ok hp₁]
      rfl
    · have hnode : ∀ q, ((s₁.set p { s₁.node p with arenas }).node q).parent = (s₁.node q).parent ∧
          ((s₁.set p { s₁.node p with arenas }).node q).isMultiArenaChild =
            (s₁.node q).isMultiArenaChild := by
        intro q
        by_cases hq : q = p
        · subst hq
          simp [Forest.set]
        · simp [Forest.set, hq]
      exact ⟨Nat.le_refl _, rfl, fun q _ => (hnode q).1, fun q _ => (hnode q).2,
        fun q hq t ht => (Grown.refl hi p).new q hq t ((hnode q).1 ▸ ht)⟩

theorem Forest.Inv.mpCreateChild (h : s.Inv) {parent : Option Nat} (hp : ∀ p ∈ parent, s.Usable p)
    (b : Bool) (made : List Bool) : ∃ s', s.mpCreateChild parent b made = .ok s' ∧ s'.Inv := by
  have hc : s.count ∉ s.freed := fun hf => absurd (h.freed_lt hf) (Nat.lt_irrefl _)
  obtain ⟨s₁, he₁, hi₁, hg₁⟩ :=
    mpEnableMultiArena_grown (h.calloc b) (p := s.count) hc (Nat.lt_succ_self _) made
  unfold Forest.mpCreateChild
  cases parent with
  | none => exact ⟨s₁, he₁, hi₁⟩
  | some p =>
    have hu := hp p rfl
    have hlt : p < s.count := hu.1
    have hpf := h.usable hu
    have hold : ∀ q < s.count, (s₁.node q).parent = (s.node q).parent := by
      intro q hq
      rw [hg₁.parent q (Nat.lt_succ_of_lt hq), calloc_node, if_neg (Nat.ne_of_lt hq)]
    have hnone : (s₁.node s.count).parent = none := by
      rw [hg₁.parent _ (Nat.lt_succ_self _), calloc_node, if_pos rfl]
      rfl
    obtain ⟨s₂, he₂, hl₂⟩ :=
      linkChild_linked (s := s₁) (p := p) (c := s.count) (by rw [hg₁.freed]; exact hpf)
      (by rw [hg₁.freed]; exact hc) (Nat.ne_of_lt hlt)
    refine ⟨s₂, ?_,
      hl₂.inv hi₁ hlt (Nat.lt_of_lt_of_le (Nat.lt_succ_self _) hg₁.count) hnone fun d hd => ?_⟩
    · simp only [read_ok hpf, ok_bind, he₁, he₂]
    · -- the other children of the parent are older
      rcases Nat.lt_trichotomy d s.count with hlt' | rfl | hgt
      · exact hlt'
      · exact absurd (hnone.symm.trans hd) nofun
      · have := hg₁.new d hgt p hd
        omega

end Create

/-! ## Runs -/

section Run
variable {s : Forest} {p : Nat}

theorem Forest.Inv.adopt (h : s.Inv) (hp : p ∉ s.freed) : Forest.Inv { s with owner := some p } :=
  ⟨⟨h.links.parent, h.links.first, h.links.next⟩, fun _ ho => Option.some.inj ho ▸ hp, h.nodup,
    fun q hq => (h.up q hq).imp fun _ hr => ⟨hr.1, hr.2.mono fun _ _ hx => hx⟩, h.top, h.arena⟩

theorem Forest.Inv.ensureArea (h : s.Inv) (hp : s.Usable p) (arena : Nat) :
    ∃ s', s.ensureArea p arena = .ok s' ∧ s'.Inv ∧ s'.freed = s.freed := by
  have hhome : ((s.node p).arenas[arena]?).getD p ∉ s.freed := by
    cases ha : (s.node p).arenas[arena]? with
    | none => exact h.usable hp
    | some a => exact h.arena_usable hp (List.mem_of_getElem? ha)
  unfold Forest.ensureArea
  rw [read_ok (h.usable hp), ok_bind]
  simp only [read_ok hhome, ok_bind, validateOwner_eq h.owned]
  split
  · exact ⟨_, rfl, (h.adopt hhome).set rfl rfl rfl (h.arena p) (.inl rfl), rfl⟩
  · exact ⟨_, rfl, h.set rfl rfl rfl (h.arena p) (.inl rfl), rfl⟩

theorem Forest.Inv.freeData (h : s.Inv) (data : Option (Nat × Bool))
    (hd : ∀ d ∈ data, d.1 ∉ s.freed) : ∃ s', s.freeData data = .ok s' ∧ s'.Inv := by
  match data with
  | none => exact ⟨s, rfl, h⟩
  | some (d, cached) =>
    have hd := hd _ rfl
    unfold Forest.freeData
    simp only [read_ok hd, ok_bind]
    cases cached with
    | true => exact ⟨_, validateOwner_eq h.owned, h.adopt hd⟩
    | false => exact ⟨s, rfl, h⟩

theorem Forest.Inv.mpCompressBlock (h : s.Inv) {area : Option Nat} {data : Option (Nat × Bool)}
    (hp : s.Usable p) (hd : ∀ d ∈ data, s.Usable d.1) :
    ∃ s', s.mpCompressBlock p area data = .ok s' ∧ s'.Inv := by
  have hdata : ∀ d ∈ data, d.1 ∉ s.freed := fun d hm => h.usable (hd d hm)
  unfold Forest.mpCompressBlock
  rw [read_ok (h.usable hp), ok_bind]
  split
  · exact ⟨s, rfl, h⟩
  · rename_i arena _
    obtain ⟨s₁, he, hi, hf⟩ := h.ensureArea hp arena
    simp only [he, ok_bind]
    exact hi.freeData data (by rw [hf]; exact hdata)
  · exact h.freeData data hdata

theorem Forest.Inv.mpDestroy (h : s.Inv) (hp : s.pre (.destroy p))
    (hc : Careful (.ok s) (.destroy p)) : ∃ s', s.mpDestroy p = .ok s' ∧ s'.Inv := by
  obtain ⟨hu, htop⟩ := hp
  have hpf := h.usable hu
  have hsound : ∀ q, s.Under p q → s.Sound q := fun q hq => by
    obtain ⟨h1, h2⟩ := hc s rfl q hq
    exact ⟨fun hf => hpf (h1 hf ▸ hf), h2⟩
  obtain ⟨s₁, he, ht⟩ := (destroy_tears (s.count * (s.count + 2))).1 s p h.links h.owned hu.1 hsound
    (Nat.mul_le_mul_right _ (Nat.sub_le ..))
  refine ⟨{ s₁ with destroyed := p :: s₁.destroyed },
    by simp only [Forest.mpDestroy, he, ok_bind]; rfl, ?_⟩
  have hunder :
    ∀ {r q}, s.Under r q → Forest.Under { s₁ with destroyed := p :: s₁.destroyed } r q := by
    intro r q hq
    exact hq.mono fun x t hx => (ht.parent x).trans hx
  have harenas : ∀ q, (s₁.node q).arenas = (s.node q).arenas ∧
      (s₁.node q).isMultiArenaChild = (s.node q).isMultiArenaChild := by
    intro q
    rcases ht.node q with h | h <;> rw [h] <;> exact ⟨rfl, rfl⟩
  have hl := ht.links h.links
  refine ⟨⟨hl.parent, hl.first, hl.next⟩, ht.owned, ht.nodup h.nodup, fun q hq => ?_,
    fun r hr => ?_, fun q a ha => ?_⟩
  · rcases ht.freed q hq with hq | hq
    · obtain ⟨r, hr, hq⟩ := h.up q hq
      exact ⟨r, List.mem_cons_of_mem _ (ht.destroyed ▸ hr), hunder hq⟩
    · exact ⟨p, List.mem_cons_self, hunder hq⟩
  · show r < s₁.count ∧ (s₁.node r).isMultiArenaChild = false
    rw [ht.count, (harenas r).2]
    rcases List.mem_cons.mp hr with rfl | hr
    · exact ⟨hu.1, htop⟩
    · exact h.top r (ht.destroyed ▸ hr)
  · show a = q ∨ (s₁.node a).parent = some q ∧ (s₁.node a).isMultiArenaChild = true
    rw [ht.parent, (harenas a).2]
    exact h.arena q a ((harenas q).1 ▸ ha)

end Run

theorem inductive_tree : (treeSystem.guard Careful).Inductive fun s => ∃ f, s = .ok f ∧ f.Inv where
  init := by
    rintro _ rfl
    exact ⟨.empty, rfl, ⟨nofun, nofun, nofun⟩, nofun, List.nodup_nil, nofun, nofun, nofun⟩
  step := by
    rintro s l s' ⟨f, rfl, hi⟩ ⟨⟨⟨f', hf, hp⟩, rfl⟩, hc⟩
    obtain rfl := Except.ok.inj hf
    show ∃ f', f.step l = .ok f' ∧ f'.Inv
    cases l with
    | create parent staticBuffer made => exact hi.mpCreateChild hp staticBuffer made
    | enableMultiArena p made =>
      obtain ⟨f', he, hi', -⟩ := mpEnableMultiArena_grown hi (hi.usable hp) hp.1 made
      exact ⟨f', he, hi'⟩
    | compressBlock p area data => exact hi.mpCompressBlock hp.1 hp.2.2
    | destroy p => exact hi.mpDestroy hp hc

/-- **No use after free of a pool**, in every run where a pool is destroyed before the
pools below it are and no compression area of it is a block of an arena. -/
theorem pool_tree_safe {s : Except Fault Forest}
    (hr : (treeSystem.guard Careful).Reachable s) : Safe s := by
  obtain ⟨f, rfl, hi⟩ := inductive_tree.reachable hr
  exact ⟨f, rfl, hi.nodup⟩

def run (ls : List Act) : Except Fault Forest :=
  ls.foldl (fun s l => s.bind (·.step l)) (.ok .empty)

/-- A child keeps a compression area, and the tree is destroyed from its root. -/
def rootFirst : List Act :=
  [.create none false [], .create (some 0) false [], .compressBlock 1 (some 0) none, .destroy 0]

theorem pool_tree_safe_root :
    Safe (run rootFirst) ∧ ((run rootFirst).toOption.map (·.freed)) = some [0, 1] := by
  refine ⟨pool_tree_safe ?_, by decide +kernel⟩
  refine LTS.Reachable.run (.init rfl) ⟨⟨_, rfl, by rintro p ⟨⟩⟩, trivial, ⟨_, rfl, ?_⟩, trivial,
    ⟨_, rfl, ?_⟩, trivial, ⟨_, rfl, ?_⟩, ?_, trivial⟩
  · rintro p ⟨⟩
    exact ⟨by decide, by rintro r ⟨⟩⟩
  · exact ⟨⟨by decide, by rintro r ⟨⟩⟩, fun _ _ => .inl rfl, by rintro d ⟨⟩⟩
  · exact ⟨⟨by decide, by rintro r ⟨⟩⟩, by decide⟩
  · rintro f ⟨⟩ q -
    refine ⟨by rintro ⟨⟩, ?_⟩
    obtain _ | _ | n := q
    · rintro home ⟨⟩
    · rintro home ⟨⟩; rfl
    · rintro home ⟨⟩

/-- The child is destroyed, and then its parent. -/
def childFirst : List Act :=
  [.create none false [], .create (some 0) false [], .destroy 1, .destroy 0]

/-- A pool with one arena compresses a block. -/
def arenaArea : List Act := [.create none false [true], .compressBlock 0 (some 0) none, .destroy 0]

/-- **Defect.** The parent still has the freed child on its list. -/
theorem child_first_faults : ¬ ∀ s, treeSystem.Reachable s → Safe s := by
  intro h
  have hr : (treeSystem.guard fun _ _ => True).Reachable (run childFirst) := by
    refine LTS.Reachable.run (.init rfl) ⟨⟨_, rfl, by rintro p ⟨⟩⟩, trivial, ⟨_, rfl, ?_⟩, trivial,
      ⟨_, rfl, ?_⟩, trivial, ⟨_, rfl, ?_⟩, trivial, trivial⟩
    · rintro p ⟨⟩
      exact ⟨by decide, by rintro r ⟨⟩⟩
    · exact ⟨⟨by decide, by rintro r ⟨⟩⟩, by decide⟩
    · refine ⟨⟨by decide, fun r hr hu => ?_⟩, by decide⟩
      obtain rfl : r = 1 := List.mem_singleton.mp hr
      -- nothing lies above the root
      cases hu with
      | up hq _ => cases hq
  obtain ⟨f, hf, -⟩ := h _ hr.of_guard
  cases hf.symm.trans (show run childFirst = .error (.freed 1) by rfl)

/-- **Defect.** The header of the area names the arena, and the arena is freed before the
area is. -/
theorem arena_area_faults : ∃ s, treeSystem.Reachable s ∧ s = .error (.freed 1) := by
  refine ⟨run arenaArea, ?_, rfl⟩
  have hr : (treeSystem.guard fun _ _ => True).Reachable (run arenaArea) := by
    refine LTS.Reachable.run (.init rfl) ⟨⟨_, rfl, by rintro p ⟨⟩⟩, trivial, ⟨_, rfl, ?_⟩, trivial,
      ⟨_, rfl, ?_⟩, trivial, trivial⟩
    · exact ⟨⟨by decide, by rintro r ⟨⟩⟩,
        fun i hi => .inr (by obtain rfl := Option.some.inj hi; decide), by rintro d ⟨⟩⟩
    · exact ⟨⟨by decide, by rintro r ⟨⟩⟩, by decide⟩
  exact hr.of_guard

end Cmem.L3.Tree

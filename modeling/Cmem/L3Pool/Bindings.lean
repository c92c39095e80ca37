import Mathlib
import Cmem.Core.LTS

/-!
# Arena bindings of a thread

`mp_purge_thread_arena_bindings`, `mp_get_thread_bound_arena` and `mp_bind_thread_to_arena`
(src/src/cmem_multi_arena.c:21-71 and 130-153). The thread has an array of eight bindings and a
count; a removal moves the last binding into the hole while the scan goes downwards.

Results:
* `purge_perm`: a purge keeps the bindings that do not mention the pool, each once, and no other.
* `bindings_sound`: the invariant of every run of the three functions.
-/
namespace Cmem.L3.Bindings

/-- `CMEM_MAX_TLS_BOUND_POOLS` -/
def maxBound : Nat := 8

/-- `cmem_arena_binding_t`; pools are addresses. -/
structure Binding where
  master : Nat
  bound : Nat
  index : Nat
  deriving DecidableEq, Repr

/-- The bindings of the thread cache, and the round-robin counters of the pools. -/
structure Tls where
  boundArena : Nat
  entries : Nat → Binding
  count : Nat
  rrIndex : Nat → Nat

/-- The bindings that count. -/
def Tls.live (t : Tls) : List Binding := (List.range t.count).map t.entries

def Binding.mentions (b : Binding) (pool : Nat) : Bool := b.master = pool || b.bound = pool

/-- The scan of `mp_purge_thread_arena_bindings`, over the entries below `i`. -/
def purgeLoop (pool : Nat) : Nat → Tls → Tls
  | 0, t => t
  | i + 1, t =>
    purgeLoop pool i
      (if (t.entries i).mentions pool then
        { t with
          entries := Function.update t.entries i (t.entries (t.count - 1)), count := t.count - 1 }
      else t)

/-- mirrors `mp_purge_thread_arena_bindings`, src/src/cmem_multi_arena.c:21-35 -/
def mpPurgeThreadArenaBindings (t : Tls) (pool : Nat) : Tls :=
  let t := if t.boundArena = pool then { t with boundArena := 0 } else t
  purgeLoop pool t.count t

/-- A binding behind the others. -/
def Tls.push (t : Tls) (b : Binding) : Tls :=
  { t with entries := Function.update t.entries t.count b, count := t.count + 1 }

/-- The entry of a pool that is found first. -/
def Tls.find (t : Tls) (pool : Nat) : Option Nat :=
  (List.range t.count).find? fun i => (t.entries i).master = pool

section Calls
-- the arenas of the pools; `num_arenas` is the length
variable (arenas : Nat → List Nat)

/-- mirrors `mp_get_thread_bound_arena`, src/src/cmem_multi_arena.c:37-71; `cpu` is the answer of
`cmem_current_cpu` -/
def mpGetThreadBoundArena (t : Tls) (pool : Nat) (cpu : Int) : Tls × Nat :=
  if pool = 0 ∨ arenas pool = [] then (t, pool)
  else
    match t.find pool with
    | some i => (t, (t.entries i).bound)
    | none =>
      let idx :=
        if 0 ≤ cpu then cpu.toNat % (arenas pool).length else t.rrIndex pool % (arenas pool).length
      let t :=
        if 0 ≤ cpu then t
        else { t with rrIndex := Function.update t.rrIndex pool ((t.rrIndex pool + 1) % 2 ^ 64) }
      let arena := (arenas pool).getD idx 0
      (if t.count < maxBound then t.push ⟨pool, arena, idx⟩ else t, arena)

/-- mirrors `mp_bind_thread_to_arena`, src/src/cmem_multi_arena.c:130-153 -/
def mpBindThreadToArena (t : Tls) (pool : Nat) (arenaIndex : Int) : Tls × Bool :=
  if pool = 0 ∨ arenas pool = [] ∨ arenaIndex < 0 ∨ (arenas pool).length ≤ arenaIndex then
    (t, false)
  else
    let arena := (arenas pool).getD arenaIndex.toNat 0
    match t.find pool with
    | some i =>
      ({ t with
        entries :=
          Function.update t.entries i ⟨(t.entries i).master, arena, arenaIndex.toNat⟩ }, true)
    | none =>
      if t.count < maxBound then (t.push ⟨pool, arena, arenaIndex.toNat⟩, true) else (t, false)

inductive Call where
  | get (pool : Nat) (cpu : Int)
  | bind (pool : Nat) (arenaIndex : Int)
  | purge (pool : Nat)

def Tls.step (t : Tls) : Call → Tls
  | .get pool cpu => (mpGetThreadBoundArena arenas t pool cpu).1
  | .bind pool arenaIndex => (mpBindThreadToArena arenas t pool arenaIndex).1
  | .purge pool => mpPurgeThreadArenaBindings t pool

/-- A thread starts without bindings. -/
def system : LTS Tls Call := .det (fun t => t.count = 0) (fun _ _ => True) (Tls.step arenas)

/-- A binding names an arena of its master. -/
def Binding.Valid (b : Binding) : Prop := (arenas b.master)[b.index]? = some b.bound

/-- **The invariant.** -/
structure Inv (t : Tls) : Prop where
  count : t.count ≤ maxBound
  masters : (t.live.map Binding.master).Nodup
  valid : ∀ b ∈ t.live, b.Valid arenas

end Calls

/-! ## Purging -/

section Purge
variable {α : Type*} {t : Tls} {pool i n : Nat}

theorem map_update {l : List Nat} (f : Nat → α) (a : α) (h : i ∉ l) :
    l.map (Function.update f i a) = l.map f :=
  List.map_congr_left fun j hj => Function.update_of_ne (fun he => h (by rw [← he]; exact hj)) _ _

/-- The last entry moves into the hole. -/
theorem swap_remove_perm (f : Nat → α) (h : i ≤ n) :
    ((List.range (n + 1)).map f).Perm (f i :: (List.range n).map (Function.update f i (f n))) := by
  rw [List.range_succ, List.map_append, List.map_singleton]
  rcases Nat.eq_or_lt_of_le h with rfl | hlt
  · rw [map_update f (f i) (by simp)]
    exact List.perm_append_singleton ..
  · obtain ⟨l₁, l₂, hl⟩ := List.append_of_mem (List.mem_range.mpr hlt)
    have hnd : (l₁ ++ i :: l₂).Nodup := hl ▸ List.nodup_range
    have h₁ : i ∉ l₁ := fun hm => List.disjoint_of_nodup_append hnd hm List.mem_cons_self
    have h₂ : i ∉ l₂ := (List.nodup_cons.mp (List.nodup_append.mp hnd).2.1).1
    rw [hl, List.map_append, List.map_append, List.map_cons, List.map_cons, map_update f (f n) h₁,
      map_update f (f n) h₂, Function.update_self]
    have hmid : (l₁.map f ++ f i :: l₂.map f).Perm (f i :: (l₁.map f ++ l₂.map f)) :=
      List.perm_middle
    refine (hmid.append_right _).trans (List.Perm.cons _ ?_)
    exact (List.perm_append_singleton ..).trans List.perm_middle.symm

/-- The entries from `i` on have been seen. -/
theorem purgeLoop_perm (hi : i ≤ t.count)
    (h : ∀ j, i ≤ j → j < t.count → (t.entries j).mentions pool = false) :
    (purgeLoop pool i t).live.Perm (t.live.filter fun b => !b.mentions pool) := by
  induction i generalizing t with
  | zero =>
    have hall : t.live.filter (fun b => !b.mentions pool) = t.live := by
      refine List.filter_eq_self.mpr fun b hb => ?_
      obtain ⟨j, hj, rfl⟩ := List.mem_map.mp hb
      rw [h j (Nat.zero_le _) (List.mem_range.mp hj)]
      rfl
    rw [hall]
    exact .refl _
  | succ i ih =>
    rw [purgeLoop]
    split
    · rename_i hm
      obtain ⟨n, hn⟩ : ∃ n, t.count = n + 1 := ⟨t.count - 1, by omega⟩
      refine (ih ?_ fun j hij hj => ?_).trans ?_
      · show i ≤ t.count - 1
        omega
      · -- the hole has the entry that was last, which has been seen
        change j < t.count - 1 at hj
        show (Function.update t.entries i (t.entries (t.count - 1)) j).mentions pool = false
        by_cases he : j = i
        · subst he
          rw [Function.update_self]
          exact h _ (by omega) (by omega)
        · rw [Function.update_of_ne he]
          exact h j (by omega) (by omega)
      · have hswap :=
          (swap_remove_perm t.entries (show i ≤ n by omega)).filter fun b => !b.mentions pool
        rw [List.filter_cons_of_neg (by simpa using hm), ← hn] at hswap
        show (List.filter _ ((List.range (t.count - 1)).map
          (Function.update t.entries i (t.entries (t.count - 1))))).Perm _
        rw [hn, Nat.add_sub_cancel]
        exact hswap.symm
    · rename_i hm
      refine ih (by omega) fun j hij hj => ?_
      rcases Nat.eq_or_lt_of_le hij with rfl | hlt
      · exact Bool.eq_false_iff.mpr hm
      · exact h j hlt hj

theorem purge_perm (t : Tls) (pool : Nat) :
    (mpPurgeThreadArenaBindings t pool).live.Perm (t.live.filter fun b => !b.mentions pool) := by
  have hlive : (if t.boundArena = pool then { t with boundArena := 0 } else t).live = t.live := by
    split <;> rfl
  unfold mpPurgeThreadArenaBindings
  rw [← hlive]
  exact purgeLoop_perm (Nat.le_refl _) fun j h1 h2 => absurd h1 (Nat.not_le_of_lt h2)

end Purge

/-! ## Runs -/

section Runs
variable {arenas : Nat → List Nat} {t : Tls} {pool i idx : Nat}

theorem find_none (h : t.find pool = none) : pool ∉ t.live.map Binding.master := by
  intro hm
  obtain ⟨b, hb, rfl⟩ := List.mem_map.mp hm
  obtain ⟨j, hj, rfl⟩ := List.mem_map.mp hb
  exact List.find?_eq_none.mp h j hj (decide_eq_true rfl)

theorem find_some (h : t.find pool = some i) : i < t.count ∧ (t.entries i).master = pool :=
  by
  have hm := List.find?_some (p := fun i => decide ((t.entries i).master = pool)) h
  exact ⟨List.mem_range.mp (List.mem_of_find?_eq_some h), of_decide_eq_true hm⟩

theorem live_push (t : Tls) (b : Binding) : (t.push b).live = t.live ++ [b] := by
  show (List.range (t.count + 1)).map (Function.update t.entries t.count b) = _
  rw [List.range_succ, List.map_append, map_update _ _ (by simp), List.map_singleton,
    Function.update_self]
  rfl

theorem valid_getD (h : idx < (arenas pool).length) :
    Binding.Valid arenas ⟨pool, (arenas pool).getD idx 0, idx⟩ := by
  show (arenas pool)[idx]? = some ((arenas pool).getD idx 0)
  rw [List.getD_eq_getElem _ _ h, List.getElem?_eq_getElem h]

theorem Inv.push (h : Inv arenas t) (hc : t.count < maxBound) (hf : t.find pool = none)
    (hi : idx < (arenas pool).length) :
    Inv arenas (t.push ⟨pool, (arenas pool).getD idx 0, idx⟩) where
  count := hc
  masters := by
    rw [live_push, List.map_append, List.map_singleton]
    refine List.nodup_append.mpr ⟨h.masters, List.nodup_singleton _, fun a ha b hb => ?_⟩
    obtain rfl := List.mem_singleton.mp hb
    rintro rfl
    exact find_none hf ha
  valid b hb := by
    rw [live_push] at hb
    rcases List.mem_append.mp hb with hb | hb
    · exact h.valid b hb
    · obtain rfl := List.mem_singleton.mp hb
      exact valid_getD hi

theorem Inv.purge (h : Inv arenas t) (pool : Nat) :
    Inv arenas (mpPurgeThreadArenaBindings t pool) := by
  have hp := purge_perm t pool
  have hsub := List.filter_sublist (p := fun b => !b.mentions pool) (l := t.live)
  refine ⟨?_, ?_, fun b hb => h.valid b (hsub.subset (hp.mem_iff.mp hb))⟩
  · have hlen : ∀ t : Tls, t.live.length = t.count :=
      fun t => by rw [Tls.live, List.length_map, List.length_range]
    rw [← hlen, hp.length_eq]
    exact Nat.le_trans hsub.length_le (hlen t ▸ h.count)
  · exact (hp.map _).nodup_iff.mpr (h.masters.sublist (hsub.map _))

theorem Inv.get (h : Inv arenas t) (pool : Nat) (cpu : Int) :
    Inv arenas (mpGetThreadBoundArena arenas t pool cpu).1 := by
  unfold mpGetThreadBoundArena
  split
  · exact h
  · rename_i hno
    have hpos : 0 < (arenas pool).length := List.length_pos_iff.mpr fun h0 => hno (.inr h0)
    split
    · exact h
    · rename_i hf
      have hidx :
          (if 0 ≤ cpu then cpu.toNat % (arenas pool).length else t.rrIndex pool %
            (arenas pool).length) < (arenas pool).length := by
        split <;> exact Nat.mod_lt _ hpos
      -- the counter of the pool is not part of the bindings
      have hrr : Inv arenas (if 0 ≤ cpu then t else
          { t with rrIndex := Function.update t.rrIndex pool ((t.rrIndex pool + 1) % 2 ^ 64) }) ∧
          (if 0 ≤ cpu then t else
            { t with
              rrIndex :=
                Function.update t.rrIndex pool ((t.rrIndex pool + 1) % 2 ^ 64) }).find pool =
                  none := by
        split
        · exact ⟨h, hf⟩
        · exact ⟨⟨h.count, h.masters, h.valid⟩, hf⟩
      dsimp only
      generalize (if 0 ≤ cpu then t else
        { t with
          rrIndex := Function.update t.rrIndex pool ((t.rrIndex pool + 1) % 2 ^ 64) }) = t₁ at *
      split
      · exact hrr.1.push ‹_› hrr.2 hidx
      · exact hrr.1

/-- Another arena for a pool that has a binding. -/
theorem Inv.rebind (h : Inv arenas t) (hm : (t.entries i).master = pool)
    (hidx : idx < (arenas pool).length) : Inv arenas { t with
      entries :=
        Function.update t.entries i ⟨(t.entries i).master, (arenas pool).getD idx 0, idx⟩ } := by
  generalize hb : (⟨(t.entries i).master, (arenas pool).getD idx 0, idx⟩ : Binding) = b
  have hmaster : b.master = (t.entries i).master := by rw [← hb]
  have hvalid : b.Valid arenas := by
    rw [← hb, hm]
    exact valid_getD hidx
  refine ⟨h.count, ?_, fun a ha => ?_⟩
  · have hmap : ((List.range t.count).map (Function.update t.entries i b)).map Binding.master =
        t.live.map Binding.master := by
      rw [Tls.live, List.map_map, List.map_map]
      refine List.map_congr_left fun j _ => ?_
      by_cases he : j = i
      · subst he
        exact (congrArg Binding.master (Function.update_self ..)).trans hmaster
      · exact congrArg Binding.master (Function.update_of_ne he _ _)
    exact hmap ▸ h.masters
  · obtain ⟨j, hj, rfl⟩ := List.mem_map.mp ha
    show (Function.update t.entries i b j).Valid arenas
    by_cases he : j = i
    · subst he
      rw [Function.update_self]
      exact hvalid
    · rw [Function.update_of_ne he]
      exact h.valid _ (List.mem_map_of_mem hj)

theorem Inv.bind (h : Inv arenas t) (pool : Nat) (arenaIndex : Int) :
    Inv arenas (mpBindThreadToArena arenas t pool arenaIndex).1 := by
  unfold mpBindThreadToArena
  split
  · exact h
  · rename_i hno
    simp only [not_or, Int.not_lt, Int.not_le] at hno
    obtain ⟨-, -, h0, hlt⟩ := hno
    have hidx : arenaIndex.toNat < (arenas pool).length := by omega
    dsimp only
    split
    · rename_i i hf
      exact h.rebind (find_some hf).2 hidx
    · rename_i hf
      split
      · exact h.push ‹_› hf hidx
      · exact h

theorem inductive_bindings : (system arenas).Inductive (Inv arenas) where
  init t ht := by
    have hnil : t.live = [] := by
      rw [Tls.live, ht]
      rfl
    refine ⟨ht ▸ Nat.zero_le _, ?_, ?_⟩ <;> rw [hnil]
    · exact List.nodup_nil
    · exact nofun
  step := by
    rintro t c t' h ⟨-, rfl⟩
    cases c with
    | get pool cpu => exact h.get pool cpu
    | bind pool arenaIndex => exact h.bind pool arenaIndex
    | purge pool => exact h.purge pool

/-- **Arena bindings.** In every run there are at most eight bindings, at most one of each master,
each with an arena of its master; a purge removes the bindings that mention the pool, and keeps the
others. -/
theorem bindings_sound (hr : (system arenas).Reachable t) :
    Inv arenas t ∧
      ∀ pool,
      (mpPurgeThreadArenaBindings t pool).live.Perm (t.live.filter fun b => !b.mentions pool) :=
  ⟨inductive_bindings.reachable hr, purge_perm t⟩

end Runs

/-- Three pools with two arenas each, and one of these arenas with an arena of its own. -/
def arenasOf (pool : Nat) : List Nat :=
  if pool ≤ 3 then [10 * pool, 10 * pool + 1] else if pool = 30 then [300] else []

/-- The second and the third binding mention pool 30, the one as the arena and the other as the
master. -/
def calls : List Call := [.get 1 0, .bind 3 0, .get 30 0, .get 2 (-1), .bind 2 1, .purge 30]

theorem bindings_sound_calls :
    let t := calls.foldl (Tls.step arenasOf) ⟨0, fun _ => ⟨0, 0, 0⟩, 0, fun _ => 0⟩
    Inv arenasOf t ∧ t.live = [⟨1, 10, 0⟩, ⟨2, 21, 1⟩] := by
  intro t
  have hr : ((system arenasOf).guard fun _ _ => True).Reachable t :=
    LTS.Reachable.run (.init rfl) ⟨trivial, trivial, trivial, trivial, trivial, trivial, trivial,
      trivial, trivial, trivial, trivial, trivial, trivial⟩
  exact ⟨(bindings_sound hr.of_guard).1, by decide⟩

end Cmem.L3.Bindings

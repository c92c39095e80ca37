import Mathlib
import Cmem.L2Compress.Reset

/-!
# The handle table over long runs

Generations and sequence numbers have 32 bits. Here the table takes its steps one by
one: an eviction, a store behind the evictions, a free; the codec's answer is the size
with the label of a store. The history counts without bound: all stores, the stores of
each entry, the store an entry was last filled by, and the handles that ended.

`mp_compress_block` is evictions and then at most one store (`store_of_table`). A handle
that ended is rejected as long as its entry is not filled by the `2 ^ 31`st store after
the one it was issued for (`stale_rejected`). The scan for the oldest entry goes by the
number of the store modulo `2 ^ 32`, and does not see the last of these numbers
(`evicts_oldest`).
-/
namespace Cmem.L2.Compress

structure Logged where
  pool : Pool
  /-- All stores. -/
  count : Nat
  /-- The number of the store that filled the entry. -/
  age : Nat → Nat
  /-- The stores of each entry. -/
  stores : Nat → Nat
  /-- The handles freed or evicted. -/
  ended : List Nat

/-- The success of `cmem_compress_ensure_area`, src/src/cmem_compress.c:249-272. -/
def Pool.setUp (p : Pool) (a : Nat) : Pool :=
  { p with
    entries := fun _ => ⟨0, 0, 0, 0, 0, false⟩
    capacity := maxEntries
    budget := areaWant p.budget
    area := some a
    areaSize := areaWant p.budget }

def Pool.offsetFor (p : Pool) (clen : Nat) : Nat :=
  firstFit p (alignSlot clen) (p.areaSize / slotSize + 1) 0

/-- The entry that takes a block of `clen` bytes, src/src/cmem_compress.c:336-375. -/
def Pool.slotFor (p : Pool) (clen : Nat) : Option Nat :=
  match (List.range p.capacity).find? fun i => !(p.entries i).used with
  | none => none
  | some slot => if p.areaSize < p.offsetFor clen + alignSlot clen then none else some slot

inductive TableAct where
  | setUp (a : Nat)
  | setBudget (n : Nat)
  | evict
  | store (size clen : Nat)
  | free (handle : Nat)

def Logged.pre (s : Logged) : TableAct → Prop
  | .setUp _ => s.pool.area = none
  | .setBudget _ => True
  | .evict => True
  | .store size clen =>
    s.pool.area ≠ none ∧ 64 ≤ size ∧ size < 2 ^ 31 ∧ clen < size ∧
    s.pool.usedBytes + clen ≤ s.pool.budget
  | .free _ => True

def Logged.step (s : Logged) : TableAct → Logged
  | .setUp a => { s with pool := s.pool.setUp a }
  | .setBudget n => { s with pool := { s.pool with budget := n } }
  | .evict => { s with pool := (evictOldest s.pool).1, ended := (evictOldest s.pool).2 ++ s.ended }
  | .store size clen =>
    match s.pool.slotFor clen with
    | none => s
    | some slot =>
      { s with
        pool := s.pool.put slot size (s.pool.offsetFor clen) clen
        count := s.count + 1
        age := Function.update s.age slot s.count
        stores := Function.update s.stores slot (s.stores slot + 1) }
  | .free handle =>
    let r := mpFreeCompressed s.pool handle
    { s with pool := r.1, ended := if r.2 then handle :: s.ended else s.ended }

def Pool.empty : Pool := ⟨fun _ => ⟨0, 0, 0, 0, 0, false⟩, 0, 0, 0, 0, none, 0⟩

def tableSystem : LTS Logged TableAct :=
  .det (· = ⟨Pool.empty, 0, fun _ => 0, fun _ => 0, []⟩) Logged.pre Logged.step

/-! ## `mp_compress_block` in steps of the table -/

section Micro
variable {t : Logged} {p : Pool}

theorem reach_step (hr : tableSystem.Reachable t) {l : TableAct} (hp : t.pre l) :
    tableSystem.Reachable (t.step l) :=
  .step l hr ⟨hp, rfl⟩

/-- From `t` the table has come to `u`, with the pool `p`, and the handles `ev` have ended. -/
structure Took (t u : Logged) (p : Pool) (ev : List Nat) : Prop where
  reach : tableSystem.Reachable u
  pool : u.pool = p
  ended : ∀ k, k ∈ u.ended ↔ k ∈ ev ∨ k ∈ t.ended

theorem Took.refl (hr : tableSystem.Reachable t) : Took t t t.pool [] := ⟨hr, rfl, fun k => by simp⟩

theorem reach_makeRoom (clen : Nat) : ∀ (fuel : Nat) {t : Logged}, tableSystem.Reachable t →
    ∃ u, Took t u (makeRoom clen fuel t.pool).1 (makeRoom clen fuel t.pool).2.1 ∧
      ((makeRoom clen fuel t.pool).2.2 = true → t.pool.usedBytes < fuel →
        u.pool.usedBytes + clen ≤ u.pool.budget)
  | 0, t, hr => ⟨t, .refl hr, fun _ h => absurd h (Nat.not_lt_zero _)⟩
  | fuel + 1, t, hr => by
    have he := reach_step hr (l := .evict) trivial
    unfold makeRoom
    split
    · dsimp only
      split
      · exact ⟨_, ⟨he, rfl, fun k => List.mem_append⟩, fun h => absurd h Bool.false_ne_true⟩
      · rename_i hne
        obtain ⟨u, h1, h2⟩ := reach_makeRoom clen fuel he
        have hle : (evictOldest t.pool).1.usedBytes ≤ t.pool.usedBytes := by
          unfold evictOldest
          split
          · exact Nat.le_refl _
          · exact Nat.sub_le _ _
        refine ⟨u, ⟨h1.reach, h1.pool, fun k => ?_⟩, fun hok hlt =>
          h2 hok (show (evictOldest t.pool).1.usedBytes < fuel by omega)⟩
        have hk : k ∈ (t.step .evict).ended ↔ k ∈ (evictOldest t.pool).2 ∨ k ∈ t.ended :=
          List.mem_append
        rw [h1.ended, hk, List.mem_append, or_assoc, or_left_comm]
        rfl
    · exact ⟨t, .refl hr, fun _ _ => by omega⟩

theorem reach_place (hr : tableSystem.Reachable t) (ha : t.pool.area ≠ none) (h : Heap)
    (area data : Nat) {size clen : Nat} (scratch junk : Buf) (hs : 64 ≤ size ∧ size < 2 ^ 31)
    (hc : clen < size) : ∃ u, Took t u (place t.pool h area data size clen scratch junk).pool
      (place t.pool h area data size clen scratch junk).evicted := by
  obtain ⟨u, h1, h2⟩ := reach_makeRoom clen (t.pool.usedBytes + 1) hr
  have h3 := makeRoom_area clen (t.pool.usedBytes + 1) t.pool
  unfold place
  generalize makeRoom clen (t.pool.usedBytes + 1) t.pool = m at h1 h2 h3
  obtain ⟨q, ev, ok⟩ := m
  obtain ⟨hreach, rfl, hended⟩ := h1
  dsimp only at h2 h3 hended ⊢
  cases ok with
  | false => exact ⟨u, hreach, rfl, hended⟩
  | true =>
    have hpre : u.pre (.store size clen) :=
      ⟨by rw [h3]; exact ha, hs.1, hs.2, hc, h2 rfl (Nat.lt_succ_self _)⟩
    have hstep := reach_step hreach hpre
    unfold Logged.step Pool.slotFor at hstep
    rw [if_pos rfl]
    cases hfind : (List.range u.pool.capacity).find? fun i => !(u.pool.entries i).used with
    | none => exact ⟨u, hreach, rfl, hended⟩
    | some slot =>
      dsimp only
      by_cases hoff : u.pool.areaSize < u.pool.offsetFor clen + alignSlot clen
      · rw [if_pos (by exact hoff)]
        exact ⟨u, hreach, rfl, hended⟩
      · simp only [hfind, if_neg hoff] at hstep
        rw [if_neg (by exact hoff)]
        exact ⟨_, hstep, rfl, hended⟩

theorem reach_ensureArea (hr : tableSystem.Reachable t) (h : Heap) (e : Env) :
    ∃ u, tableSystem.Reachable u ∧ u.pool = (ensureArea t.pool h e).1 ∧ u.ended = t.ended := by
  unfold ensureArea
  cases ha : t.pool.area with
  | some a => exact ⟨t, hr, rfl, rfl⟩
  | none =>
    have hb := reach_step hr (l := .setBudget (areaWant t.pool.budget)) trivial
    have hbud : ∀ q : Pool, q = { t.pool with area := none, budget := areaWant t.pool.budget } →
        ∃ u, tableSystem.Reachable u ∧ u.pool = q ∧ u.ended = t.ended := fun q hq =>
      ⟨_, hb, hq ▸ by rw [← ha]; rfl, rfl⟩
    dsimp only
    split
    · split
      · exact hbud _ rfl
      · rename_i a _
        split
        · exact ⟨_, reach_step hr (l := .setUp a) ha, rfl, rfl⟩
        · exact hbud _ rfl
    · exact hbud _ rfl

theorem reach_compress (hr : tableSystem.Reachable t) (h : Heap) (data size : Nat) (e : Env) :
    ∃ u, Took t u (mpCompressBlock t.pool h data size e).pool
      (mpCompressBlock t.pool h data size e).evicted := by
  unfold mpCompressBlock
  split
  · exact ⟨t, .refl hr⟩
  rename_i hs
  obtain ⟨u, h1, h2, h3⟩ := reach_ensureArea hr h e
  generalize ensureArea t.pool h e = r at h2
  obtain ⟨q, h', ok⟩ := r
  dsimp only at h2 ⊢
  subst h2
  have hnone : Took t u u.pool [] := ⟨h1, rfl, fun k => by rw [h3]; simp⟩
  split
  · rename_i area ha
    split
    · exact ⟨u, hnone⟩
    · cases e.scratch with
      | none => exact ⟨u, hnone⟩
      | some scratch =>
        dsimp only
        split
        · exact ⟨u, hnone⟩
        · rename_i scratch' clen _
          split
          · exact ⟨u, hnone⟩
          · have hsize : 64 ≤ size ∧ size < 2 ^ 31 := by omega
            have hclen : clen < size := by omega
            obtain ⟨v, hv⟩ :=
              reach_place h1 (by rw [ha]; exact nofun) h' area data scratch' e.freeJunk hsize hclen
            exact ⟨v, hv.reach, hv.pool, fun k => by rw [hv.ended, h3]⟩
  · exact ⟨u, hnone⟩

/-- The table of the store takes the steps of the table, and the handles that were returned and are
not stored any more have ended there. -/
theorem store_of_table {s : Sys} (hr : storeSystem.Reachable s) :
    ∃ t, tableSystem.Reachable t ∧ t.pool = s.pool ∧ ∀ k ∈ s.returned, s.stored k = none →
    k ∈ t.ended := by
  induction hr with
  | init hi =>
    obtain ⟨mem, rfl⟩ := hi
    exact ⟨_, .init rfl, rfl, nofun⟩
  | step l _ hs ih =>
    rename_i s _ _
    obtain ⟨t, ht, he, hended⟩ := ih
    obtain ⟨-, rfl⟩ := hs
    cases l with
    | compress data size e =>
      obtain ⟨u, hu⟩ := reach_compress ht s.heap data size e
      rw [he] at hu
      refine ⟨u, hu.reach, hu.pool, fun k hk hnone => (hu.ended k).mpr ?_⟩
      simp only [Sys.step] at hk hnone
      by_cases h0 : (mpCompressBlock s.pool s.heap data size e).handle ≠ 0 ∧
          k = (mpCompressBlock s.pool s.heap data size e).handle
      · rw [if_pos h0] at hnone
        cases hnone
      rw [if_neg h0] at hnone
      by_cases hev : k ∈ (mpCompressBlock s.pool s.heap data size e).evicted
      · exact .inl hev
      rw [if_neg hev] at hnone
      refine .inr (hended k ?_ hnone)
      split at hk
      · rename_i hne
        exact (List.mem_cons.mp hk).resolve_left fun hke => h0 ⟨hne, hke⟩
      · exact hk
    | freeCompressed k =>
      have hstep := reach_step ht (l := .free k) trivial
      refine ⟨_, hstep, by show (mpFreeCompressed t.pool k).1 = _; rw [he]; rfl,
        fun j hj hnone => ?_⟩
      show j ∈ if (mpFreeCompressed t.pool k).2 then k :: t.ended else t.ended
      simp only [Sys.step] at hj hnone
      rw [he]
      split at hnone
      · rename_i hfreed
        rw [if_pos hfreed]
        by_cases hjk : j = k
        · exact List.mem_cons.mpr (.inl hjk)
        · rw [Function.update_of_ne hjk] at hnone
          exact List.mem_cons_of_mem _ (hended j hj hnone)
      · rename_i hfreed
        rw [if_neg hfreed]
        exact hended j hj hnone
    | setBudget n e =>
      have hb := reach_step ht (l := .setBudget n) trivial
      unfold Sys.step mpSetCompressedBudget
      dsimp only
      split
      · obtain ⟨u, h1, h2, h3⟩ := reach_ensureArea hb s.heap e
        exact ⟨u, h1, h2.trans (by rw [← he]; rfl), fun k hk hnone => h3 ▸ hended k hk hnone⟩
      · exact ⟨_, hb, by rw [← he]; rfl, hended⟩
    | _ => exact ⟨t, ht, he, hended⟩

end Micro

/-! ## What the table keeps -/

/-- The generation of the `j`th block of an entry. -/
def genOf (j : Nat) : Nat := (2 * j - 1) % 2 ^ 32

/-- The entry holds the last block that was stored to it, or none. -/
structure EntryOk (e : Entry) (stores : Nat) : Prop where
  gen : e.generation = (2 * stores - if e.used then 1 else 0) % 2 ^ 32
  pos : e.used = true → 0 < stores

structure Logged.Inv (s : Logged) : Prop where
  capacity : s.pool.capacity ≤ maxEntries
  fresh : s.pool.area = none → s.pool.capacity = 0 ∧ ∀ i, s.stores i = 0
  entry : ∀ i < s.pool.capacity, EntryOk (s.pool.entries i) (s.stores i)
  seq : s.pool.seq = s.count % 2 ^ 32
  age : ∀ i < s.pool.capacity, (s.pool.entries i).used = true →
    (s.pool.entries i).allocSeq = s.age i % 2 ^ 32 ∧ s.age i < s.count
  apart : ∀ i < s.pool.capacity, ∀ j < s.pool.capacity, (s.pool.entries i).used = true →
    (s.pool.entries j).used = true → s.age i = s.age j → i = j
  ended : ∀ k, k ∈ s.ended ↔ ∃ i < s.pool.capacity, ∃ j, 0 < j ∧ j ≤ s.stores i ∧
    ((s.pool.entries i).used = true → j < s.stores i) ∧ k = handleOf i (genOf j)

section Inv
variable {s : Logged} {p : Pool} {i j k clen : Nat}

theorem lookup_eq : p.lookup k = some i ↔
    k ≠ 0 ∧ i = k / 2 ^ 32 ∧ i < p.capacity ∧ (p.entries i).used = true ∧
    (p.entries i).generation = k % 2 ^ 32 := by
  unfold Pool.lookup
  constructor
  · intro h
    split at h
    · cases h
    · dsimp only at h
      split at h
      · cases h
      · split at h
        · rename_i h0 hc hu
          obtain rfl := Option.some.inj h
          exact ⟨h0, rfl, by omega, hu⟩
        · cases h
  · rintro ⟨h0, rfl, hc, hu⟩
    rw [if_neg h0]
    dsimp only
    rw [if_neg (by omega), if_pos hu]

theorem genOf_lt (j : Nat) : genOf j < 2 ^ 32 := Nat.mod_lt _ (by decide)

theorem EntryOk.used_gen {e : Entry} {n : Nat} (h : EntryOk e n) (hu : e.used = true) :
    e.generation = genOf n := by
  rw [h.gen, if_pos hu, genOf]

theorem EntryOk.drop {e : Entry} {n : Nat} (h : EntryOk e n) (hu : e.used = true) :
    EntryOk { e with used := false, generation := (e.generation + 1) % 2 ^ 32 } n where
  gen := by
    have := h.pos hu
    have := h.gen
    rw [if_pos hu] at this
    simp only [Bool.false_eq_true, if_false]
    omega
  pos h0 := by cases h0

theorem Logged.Inv.drop (h : s.Inv) (hi : i < s.pool.capacity)
    (hu : (s.pool.entries i).used = true) :
    Logged.Inv { s with pool := s.pool.drop i,
                        ended := handleOf i (s.pool.entries i).generation :: s.ended } where
  capacity := h.capacity
  fresh := h.fresh
  entry j hj := by
    by_cases hji : j = i
    · subst hji; simp only [Pool.drop, Function.update_self]; exact (h.entry j hj).drop hu
    · simp only [Pool.drop, Function.update_of_ne hji]; exact h.entry j hj
  seq := h.seq
  age j hj hju := by
    by_cases hji : j = i
    · subst hji; simp [Pool.drop] at hju
    · simp only [Pool.drop, Function.update_of_ne hji] at hju ⊢; exact h.age j hj hju
  apart j hj l hl hju hlu := by
    have hji : j ≠ i := by rintro rfl; simp [Pool.drop] at hju
    have hli : l ≠ i := by rintro rfl; simp [Pool.drop] at hlu
    simp only [Pool.drop, Function.update_of_ne hji, Function.update_of_ne hli] at hju hlu
    exact h.apart j hj l hl hju hlu
  ended k := by
    rw [List.mem_cons, h.ended, (h.entry i hi).used_gen hu]
    have hpos := (h.entry i hi).pos hu
    constructor
    · rintro (rfl | ⟨j, hj, n, h1, h2, h3, rfl⟩)
      · exact ⟨i, hi, s.stores i, hpos, Nat.le_refl _, fun hf => by simp [Pool.drop] at hf, rfl⟩
      · refine ⟨j, hj, n, h1, h2, fun hf => h3 ?_, rfl⟩
        by_cases hji : j = i
        · subst hji; exact hu
        · simpa only [Pool.drop, Function.update_of_ne hji] using hf
    · rintro ⟨j, hj, n, h1, h2, h3, rfl⟩
      by_cases hji : j = i
      · subst hji
        by_cases hn : n = s.stores j
        · exact .inl (by rw [hn])
        · exact .inr ⟨j, hj, n, h1, h2, fun _ => Nat.lt_of_le_of_ne h2 hn, rfl⟩
      · exact .inr ⟨j, hj, n, h1, h2,
          fun hf => h3 (by simpa only [Pool.drop, Function.update_of_ne hji] using hf), rfl⟩

theorem slotFor_spec {slot : Nat} (h : p.slotFor clen = some slot) :
    slot < p.capacity ∧ (p.entries slot).used = false := by
  unfold Pool.slotFor at h
  split at h
  · cases h
  · rename_i i hi
    split at h
    · cases h
    · obtain rfl := Option.some.inj h
      exact ⟨List.mem_range.1 (List.mem_of_find?_eq_some hi), by simpa using List.find?_some hi⟩

theorem Logged.Inv.put (h : s.Inv) (ha : s.pool.area ≠ none) {slot size off : Nat}
    (hc : slot < s.pool.capacity) (hu : (s.pool.entries slot).used = false) :
    Logged.Inv { s with
      pool := s.pool.put slot size off clen
      count := s.count + 1
      age := Function.update s.age slot s.count
      stores := Function.update s.stores slot (s.stores slot + 1) } where
  capacity := h.capacity
  fresh h0 := absurd h0 ha
  entry j hj := by
    by_cases hjs : j = slot
    · subst hjs
      have := (h.entry j hj).gen
      rw [hu] at this
      refine ⟨?_, fun _ => by simp⟩
      simp only [Pool.put, Function.update_self, if_true]
      simp only [Bool.false_eq_true, if_false] at this
      omega
    · simp only [Pool.put, Function.update_of_ne hjs]; exact h.entry j hj
  seq := by
    have := h.seq
    simp only [Pool.put]; omega
  age j hj hju := by
    by_cases hjs : j = slot
    · subst hjs
      simp only [Pool.put, Function.update_self]
      exact ⟨h.seq, Nat.lt_succ_self _⟩
    · simp only [Pool.put, Function.update_of_ne hjs] at hju ⊢
      obtain ⟨h1, h2⟩ := h.age j hj hju
      exact ⟨h1, Nat.lt_succ_of_lt h2⟩
  apart j hj l hl hju hlu he := by
    by_cases hjs : j = slot
    · subst hjs
      by_cases hlj : l = j
      · exact hlj.symm
      · simp only [Pool.put, Function.update_self, Function.update_of_ne hlj] at hlu he
        have := (h.age l hl hlu).2
        omega
    · by_cases hls : l = slot
      · subst hls
        simp only [Pool.put, Function.update_self, Function.update_of_ne hjs] at hju he
        have := (h.age j hj hju).2
        omega
      · simp only [Pool.put, Function.update_of_ne hjs, Function.update_of_ne hls] at hju hlu he
        exact h.apart j hj l hl hju hlu he
  ended k := by
    rw [h.ended]
    constructor
    · rintro ⟨j, hj, n, h1, h2, h3, rfl⟩
      by_cases hjs : j = slot
      · subst hjs
        refine ⟨j, hj, n, h1, ?_, fun _ => ?_, rfl⟩ <;> simp only [Function.update_self] <;> omega
      · refine ⟨j, hj, n, h1, by simpa only [Function.update_of_ne hjs], fun hf => ?_, rfl⟩
        simp only [Function.update_of_ne hjs]
        exact h3 (by simpa only [Pool.put, Function.update_of_ne hjs] using hf)
    · rintro ⟨j, hj, n, h1, h2, h3, rfl⟩
      by_cases hjs : j = slot
      · subst hjs
        have := h3 (by simp [Pool.put])
        simp only [Function.update_self] at this
        exact ⟨j, hj, n, h1, by omega, fun hf => absurd (hu.symm.trans hf) (by decide), rfl⟩
      · simp only [Function.update_of_ne hjs] at h2
        refine ⟨j, hj, n, h1, h2, fun hf => ?_, rfl⟩
        have := h3 (by simpa only [Pool.put, Function.update_of_ne hjs] using hf)
        simpa only [Function.update_of_ne hjs] using this

theorem Logged.Inv.setUp (h : s.Inv) (ha : s.pool.area = none) (a : Nat) :
    Logged.Inv { s with pool := s.pool.setUp a } := by
  obtain ⟨h0, hs⟩ := h.fresh ha
  constructor
  · exact Nat.le_refl _
  · intro h; cases h
  · intro i _
    refine ⟨?_, fun h => by cases h⟩
    show (0 : Nat) = _
    rw [hs i]; rfl
  · exact h.seq
  · intro i _ h; cases h
  · intro i _ j _ h; cases h
  · intro k
    rw [h.ended]
    constructor
    · rintro ⟨i, hi, -⟩; omega
    · rintro ⟨i, -, n, h1, h2, -⟩
      have : n ≤ s.stores i := h2
      have := hs i
      omega

theorem table_inductive : tableSystem.Inductive Logged.Inv where
  init s hs := by
    obtain rfl : s = _ := hs
    refine ⟨by decide, fun _ => ⟨rfl, fun _ => rfl⟩, fun i hi => ?_, rfl, fun i hi => ?_,
      fun i hi => ?_, fun k => ?_⟩
    · exact absurd hi (Nat.not_lt_zero _)
    · exact absurd hi (Nat.not_lt_zero _)
    · exact absurd hi (Nat.not_lt_zero _)
    · exact ⟨fun h => absurd h List.not_mem_nil, fun ⟨i, hi, _⟩ => absurd hi (Nat.not_lt_zero _)⟩
  step s l s' hi hs := by
    obtain ⟨hp, rfl⟩ := hs
    cases l with
    | setUp a => exact hi.setUp hp a
    | setBudget n => exact ⟨hi.capacity, hi.fresh, hi.entry, hi.seq, hi.age, hi.apart, hi.ended⟩
    | evict =>
      unfold Logged.step evictOldest
      dsimp only
      split
      · exact hi
      · rename_i i h
        obtain ⟨h1, h2⟩ := oldestOf_used h
        exact hi.drop (List.mem_range.1 h1) h2
    | store size clen =>
      unfold Logged.step
      dsimp only
      split
      · exact hi
      · rename_i slot h
        obtain ⟨h1, h2⟩ := slotFor_spec h
        exact hi.put hp.1 h1 h2
    | free handle =>
      unfold Logged.step mpFreeCompressed
      dsimp only
      split
      · exact hi
      · rename_i i h
        obtain ⟨-, h1, h2, h3, h4⟩ := lookup_eq.1 h
        have hd := hi.drop h2 h3
        rwa [show handleOf i (s.pool.entries i).generation = handle by unfold handleOf; omega] at hd

/-! ## Stale handles -/

/-- `mp_free_compressed` and `mp_decompress_block` refuse the handle. -/
def Rejected (p : Pool) (k : Nat) : Prop :=
  (mpFreeCompressed p k).2 = false ∧
  ∀ h ans junk undo, (mpDecompressBlock p h k ans junk undo).2 = none

theorem rejected_iff : Rejected p k ↔ p.lookup k = none := by
  unfold Rejected mpFreeCompressed mpDecompressBlock
  cases h : p.lookup k with
  | none => exact ⟨fun _ => rfl, fun _ => ⟨rfl, fun _ _ _ _ => rfl⟩⟩
  | some i => exact ⟨fun h => Bool.noConfusion h.1, fun h => by cases h⟩

/-- The handles that ended are refused as long as no entry in use has been stored to more
than `2 ^ 31` times. -/
theorem stale_rejected {s : Logged} (hr : tableSystem.Reachable s) :
    (∀ k ∈ s.ended, Rejected s.pool k) ↔ ∀ i < s.pool.capacity, (s.pool.entries i).used = true →
    s.stores i ≤ 2 ^ 31 := by
  have hi := table_inductive.reachable hr
  constructor
  · intro h i hc hu
    by_contra hn
    -- the handle of the block stored `2 ^ 31` stores earlier is issued again
    have hk := (hi.ended (handleOf i (genOf (s.stores i - 2 ^ 31)))).2
      ⟨i, hc, s.stores i - 2 ^ 31, by omega, by omega, fun _ => by omega, rfl⟩
    have hg := (hi.entry i hc).used_gen hu
    have hsame : genOf (s.stores i - 2 ^ 31) = genOf (s.stores i) := by unfold genOf; omega
    have hlt := genOf_lt (s.stores i)
    have hodd : genOf (s.stores i) ≠ 0 := by unfold genOf; omega
    have hfound : s.pool.lookup (handleOf i (genOf (s.stores i - 2 ^ 31))) = some i := by
      rw [lookup_eq, hsame, hg]
      unfold handleOf
      exact ⟨by omega, by omega, hc, hu, by omega⟩
    rw [rejected_iff.1 (h _ hk)] at hfound
    cases hfound
  · intro h k hk
    obtain ⟨i, hc, j, h1, h2, h3, rfl⟩ := (hi.ended k).1 hk
    rw [rejected_iff]
    cases hl : s.pool.lookup (handleOf i (genOf j)) with
    | none => rfl
    | some l =>
      obtain ⟨-, h5, -, h6, h7⟩ := lookup_eq.1 hl
      have hlt := genOf_lt j
      obtain rfl : l = i := by rw [h5]; exact handleOf_div hlt
      have hmod : handleOf l (genOf j) % 2 ^ 32 = genOf j := by unfold handleOf; omega
      rw [hmod, (hi.entry l hc).used_gen h6] at h7
      have h8 := h l hc h6
      have h9 := h3 h6
      unfold genOf at h7
      omega

/-! ## The oldest entry -/

/-- The used entry that was stored first. -/
def Logged.Earliest (s : Logged) (i : Nat) : Prop :=
  i < s.pool.capacity ∧ (s.pool.entries i).used = true ∧
    ∀ j < s.pool.capacity, (s.pool.entries j).used = true → j ≠ i → s.age i < s.age j

/-- `cmem_compress_evict_oldest` removes the entry that was stored first, and leaves the table
alone only when no entry is used. -/
def Logged.EvictsOldest (s : Logged) : Prop :=
  ((∃ i < s.pool.capacity, (s.pool.entries i).used = true) →
    ∃ i, s.Earliest i ∧
    evictOldest s.pool = (s.pool.drop i, [handleOf i (s.pool.entries i).generation])) ∧
  ((∀ i < s.pool.capacity, (s.pool.entries i).used = false) → evictOldest s.pool = (s.pool, []))

/-- What the scan has found in the first `n` entries. -/
def Found (entries : Nat → Entry) (n : Nat) (o : Nat × Option Nat) : Prop :=
  match o.2 with
  | none => o.1 = 2 ^ 32 - 1 ∧ ∀ j < n, (entries j).used = true → 2 ^ 32 - 1 ≤ (entries j).allocSeq
  | some i => i < n ∧ (entries i).used = true ∧ o.1 = (entries i).allocSeq ∧ o.1 < 2 ^ 32 - 1 ∧
    ∀ j < n, (entries j).used = true → j ≠ i →
      (entries i).allocSeq < (entries j).allocSeq ∨
      (entries i).allocSeq = (entries j).allocSeq ∧ i < j

theorem oldestOf_found (entries : Nat → Entry) (n : Nat) :
    Found entries n (oldestOf entries (List.range n)) := by
  induction n with
  | zero => exact ⟨rfl, fun j hj => absurd hj (Nat.not_lt_zero _)⟩
  | succ n ih =>
    have hstep : oldestOf entries (List.range (n + 1)) =
        if (entries n).used && (entries n).allocSeq < (oldestOf entries (List.range n)).1 then
          ((entries n).allocSeq, some n) else oldestOf entries (List.range n) := by
      rw [List.range_succ]
      unfold oldestOf
      rw [List.foldl_append, List.foldl_cons, List.foldl_nil]
    rw [hstep]
    generalize oldestOf entries (List.range n) = o at ih
    obtain ⟨m, r⟩ := o
    by_cases hc : ((entries n).used && (entries n).allocSeq < m) = true
    · rw [if_pos hc]
      obtain ⟨hu, hlt⟩ := Bool.and_eq_true_iff.1 hc
      have hlt : (entries n).allocSeq < m := by simpa using hlt
      cases r with
      | none =>
        obtain ⟨rfl, hj⟩ := ih
        refine ⟨Nat.lt_succ_self _, hu, rfl, hlt, fun j hjn hju hne => .inl ?_⟩
        exact Nat.lt_of_lt_of_le hlt (hj j (by omega) hju)
      | some i =>
        obtain ⟨h1, h2, h3, h4, h5⟩ := ih
        dsimp only at h3 h4
        refine ⟨Nat.lt_succ_self _, hu, rfl, by dsimp only; omega, fun j hjn hju hne => .inl ?_⟩
        by_cases hji : j = i
        · subst hji; omega
        · rcases h5 j (by omega) hju hji with h | h <;> omega
    · rw [if_neg hc]
      have hge : (entries n).used = true → m ≤ (entries n).allocSeq := by
        intro hu
        by_contra hlt
        exact hc (by simp [hu]; omega)
      cases r with
      | none =>
        obtain ⟨rfl, hj⟩ := ih
        refine ⟨rfl, fun j hjn hju => ?_⟩
        rcases Nat.lt_succ_iff_lt_or_eq.1 hjn with h | rfl
        · exact hj j h hju
        · exact hge hju
      | some i =>
        obtain ⟨h1, h2, h3, h4, h5⟩ := ih
        dsimp only at h3 h4
        refine ⟨Nat.lt_succ_of_lt h1, h2, h3, h4, fun j hjn hju hne => ?_⟩
        rcases Nat.lt_succ_iff_lt_or_eq.1 hjn with h | rfl
        · exact h5 j h hju hne
        · have := hge hju
          omega

theorem Logged.Inv.earliest (h : s.Inv)
    (hu : ∃ i < s.pool.capacity, (s.pool.entries i).used = true) : ∃ i, s.Earliest i := by
  obtain ⟨i0, hc0, hu0⟩ := hu
  obtain ⟨i, hi, hmin⟩ := Finset.exists_min_image
    ((Finset.range s.pool.capacity).filter fun i => (s.pool.entries i).used = true) s.age
    ⟨i0, by simpa using ⟨hc0, hu0⟩⟩
  obtain ⟨hc, hui⟩ := by simpa using hi
  refine ⟨i, hc, hui,
    fun j hj hju hne => Nat.lt_of_le_of_ne (hmin j (by simpa using ⟨hj, hju⟩)) fun he => ?_⟩
  exact hne (h.apart i hc j hj hui hju he).symm

theorem Logged.Earliest.unique (h : s.Earliest i) (h' : s.Earliest j) : i = j := by
  by_contra hne
  have h1 := h.2.2 j h'.1 h'.2.1 (Ne.symm hne)
  have h2 := h'.2.2 i h.1 h.2.1 hne
  omega

/-- The number of its store, modulo `2 ^ 32`, is not the last one and not above that of
another used entry; of two equal ones the first in the table is taken. -/
def Logged.SeenOldest (s : Logged) (i : Nat) : Prop :=
  s.age i % 2 ^ 32 ≠ 2 ^ 32 - 1 ∧ ∀ j < s.pool.capacity, (s.pool.entries j).used = true → j ≠ i →
    s.age i % 2 ^ 32 < s.age j % 2 ^ 32 ∨ s.age i % 2 ^ 32 = s.age j % 2 ^ 32 ∧ i < j

theorem evicts_oldest {s : Logged} (hr : tableSystem.Reachable s) :
    s.EvictsOldest ↔ ∀ i, s.Earliest i → s.SeenOldest i := by
  have hi := table_inductive.reachable hr
  have hf := oldestOf_found s.pool.entries s.pool.capacity
  have hev :
    evictOldest s.pool = match (oldestOf s.pool.entries (List.range s.pool.capacity)).2 with
    | none => (s.pool, [])
    | some i => (s.pool.drop i, [handleOf i (s.pool.entries i).generation]) := rfl
  generalize oldestOf s.pool.entries (List.range s.pool.capacity) = o at hf hev
  obtain ⟨m, r⟩ := o
  constructor
  · rintro ⟨h1, -⟩ i he
    obtain ⟨i', he', hev'⟩ := h1 ⟨i, he.1, he.2.1⟩
    obtain rfl := he.unique he'
    cases r with
    | none => rw [hev] at hev'; exact absurd (congrArg (·.2.length) hev') (by simp)
    | some l =>
      obtain ⟨g1, g2, g3, g4, g5⟩ := hf
      dsimp only at g3 g4 hev
      obtain rfl : l = i := by
        rw [hev] at hev'
        have hh : handleOf l _ = handleOf i _ := (List.cons.inj (congrArg Prod.snd hev')).1
        rw [(hi.entry l g1).used_gen g2, (hi.entry i he.1).used_gen he.2.1] at hh
        exact (handleOf_inj (genOf_lt _) (genOf_lt _) hh).1
      have hl := (hi.age l g1 g2).1
      refine ⟨by omega, fun j hj hju hne => ?_⟩
      have hs := (hi.age j hj hju).1
      have := g5 j hj hju hne
      omega
  · intro h
    refine ⟨fun hu => ?_, fun hno => ?_⟩
    · obtain ⟨i, he⟩ := hi.earliest hu
      obtain ⟨hne, hle⟩ := h i he
      have hs := (hi.age i he.1 he.2.1).1
      refine ⟨i, he, ?_⟩
      cases r with
      | none =>
        have := hf.2 i he.1 he.2.1
        omega
      | some l =>
        obtain ⟨g1, g2, g3, g4, g5⟩ := hf
        obtain rfl : l = i := by
          by_contra hli
          have h1 := g5 i he.1 he.2.1 (Ne.symm hli)
          have h2 := hle l g1 g2 hli
          have := (hi.age l g1 g2).1
          omega
        exact hev
    · cases r with
      | none => exact hev
      | some l =>
        obtain ⟨g1, g2, -⟩ := hf
        exact absurd ((hno l g1).symm.trans g2) (by decide)

/-! ## Store and free, again and again -/

/-- The table is empty, and its first entry has been filled and freed `n` times. -/
structure Cycled (s : Logged) (n : Nat) : Prop where
  reach : tableSystem.Reachable s
  area : s.pool.area ≠ none
  size :
    s.pool.capacity = maxEntries ∧ s.pool.areaSize = defaultBudget ∧ s.pool.budget = defaultBudget
  unused : ∀ i, (s.pool.entries i).used = false
  bytes : s.pool.usedBytes = 0
  count : s.count = n
  stores : s.stores 0 = n

theorem step_store {size slot : Nat} (h : s.pool.slotFor clen = some slot) :
    s.step (.store size clen) =
    { s with
      pool := s.pool.put slot size (s.pool.offsetFor clen) clen
      count := s.count + 1
      age := Function.update s.age slot s.count
      stores := Function.update s.stores slot (s.stores slot + 1) } := by
  simp only [Logged.step, h]

theorem step_free (h : s.pool.lookup k = some i) :
    s.step (.free k) = { s with pool := s.pool.drop i, ended := k :: s.ended } := by
  simp only [Logged.step, mpFreeCompressed, h, if_true]

example : (cmemLz4Compress (fun _ => 0) (fun _ => 0) 64 64).2 = some 5 := by decide +kernel

/-- The first entry that is not used, and the first place that is not busy. -/
theorem slotFor_eq (hsize : s.pool.capacity = maxEntries ∧ s.pool.areaSize = defaultBudget)
    (hi : i < maxEntries) (hused : ∀ k < i, (s.pool.entries k).used = true)
    (hfree : (s.pool.entries i).used = false) (hoff : s.pool.offsetFor 5 ≤ slotSize) :
    s.pool.slotFor 5 = some i := by
  have hfind : (List.range s.pool.capacity).find? (fun i => !(s.pool.entries i).used) = some i := by
    rw [List.find?_range_eq_some, hsize.1, List.mem_range]
    exact ⟨by rw [hfree]; rfl, hi, fun k hk => by rw [hused k hk]; rfl⟩
  have halign : alignSlot 5 = slotSize := by decide
  unfold Pool.slotFor
  rw [hfind, halign, hsize.2]
  exact if_neg (by unfold slotSize defaultBudget at *; omega)

theorem Cycled.offset (h : Cycled s j) : s.pool.offsetFor 5 = 0 := by
  have hbusy : ∀ off n, s.pool.busy off n = false := by
    intro off n
    unfold Pool.busy
    rw [List.any_eq_false]
    intro i _
    simp [h.unused i]
  unfold Pool.offsetFor firstFit
  simp [hbusy]

theorem Cycled.slotFor (h : Cycled s j) : s.pool.slotFor 5 = some 0 :=
  slotFor_eq ⟨h.size.1, h.size.2.1⟩ (by decide) (fun _ hk => absurd hk (Nat.not_lt_zero _))
    (h.unused 0)
    (by rw [h.offset]; exact Nat.zero_le _)

/-- A block of 64 bytes, all the same, is stored. -/
theorem Cycled.store (h : Cycled s j) :
    ∃ t, s.step (.store 64 5) = t ∧ tableSystem.Reachable t ∧ t.pool.area ≠ none ∧ t.pool.capacity =
      maxEntries ∧ (t.pool.entries 0).used = true ∧ (∀ i, i ≠ 0 → (t.pool.entries i).used = false) ∧
    t.age 0 = j ∧ t.stores 0 = j + 1 := by
  have hr : tableSystem.Reachable (s.step (.store 64 5)) :=
    reach_step h.reach ⟨h.area, by decide, by decide, by decide,
      by rw [h.bytes, h.size.2.2]; decide⟩
  refine ⟨_, rfl, hr, ?_⟩
  rw [step_store h.slotFor]
  refine ⟨h.area, h.size.1, by simp [Pool.put], fun i hi => ?_, by simp [h.count],
    by simp [h.stores]⟩
  simp only [Pool.put, Function.update_of_ne hi, h.unused i]

theorem Cycled.next (h : Cycled s j) : ∃ t, Cycled t (j + 1) := by
  obtain ⟨t, ht, hr, ha, hc, hu, ho, -, hst⟩ := h.store
  have hi := table_inductive.reachable hr
  have hg := (hi.entry 0 (by rw [hc]; decide)).used_gen hu
  have hodd : genOf (j + 1) ≠ 0 := by unfold genOf; omega
  have hl : t.pool.lookup (handleOf 0 (genOf (j + 1))) = some 0 := by
    have hlt := genOf_lt (j + 1)
    rw [lookup_eq, hg, hst]
    unfold handleOf
    exact ⟨by omega, by omega, by rw [hc]; decide, hu, by omega⟩
  have hr' := reach_step hr (l := .free (handleOf 0 (genOf (j + 1)))) trivial
  have hpool : (t.step (.free (handleOf 0 (genOf (j + 1))))).pool = t.pool.drop 0 := by
    rw [step_free hl]
  have hput : t.pool = s.pool.put 0 64 (s.pool.offsetFor 5) 5 ∧ t.count = s.count + 1 := by
    rw [← ht, step_store h.slotFor]; exact ⟨rfl, rfl⟩
  refine ⟨_, hr', by rw [hpool]; exact ha, ⟨?_, ?_, ?_⟩, fun i => ?_, ?_, ?_,
    by rw [step_free hl]; exact hst⟩
  · rw [hpool]; exact hc
  · rw [hpool, hput.1]; exact h.size.2.1
  · rw [hpool, hput.1]; exact h.size.2.2
  · rw [hpool]
    by_cases h0 : i = 0
    · subst h0; simp [Pool.drop]
    · simp only [Pool.drop, Function.update_of_ne h0, ho i h0]
  · rw [hpool, hput.1]
    simp [Pool.drop, Pool.put, h.bytes]
  · rw [step_free hl]
    exact hput.2.trans (by rw [h.count])

theorem cycled (n : Nat) : ∃ s, Cycled s n := by
  induction n with
  | zero =>
    have hr := reach_step (.init rfl : tableSystem.Reachable _) (l := .setUp 0x10000) rfl
    exact ⟨_, hr, by simp [Logged.step, Pool.setUp], ⟨rfl, rfl, rfl⟩, fun _ => rfl, rfl, rfl, rfl⟩
  | succ n ih =>
    obtain ⟨s, hs⟩ := ih
    exact hs.next

/-- The handle of the first store is accepted again after `2 ^ 31` stores to its entry. -/
theorem stale_accepted : ¬ ∀ s, tableSystem.Reachable s → ∀ k ∈ s.ended, Rejected s.pool k := by
  intro h
  obtain ⟨s, hs⟩ := cycled (2 ^ 31)
  obtain ⟨t, -, hr, -, hc, hu, -, -, hst⟩ := hs.store
  have := (stale_rejected hr).1 (h t hr) 0 (by rw [hc]; decide) hu
  omega

/-- The store with the number `2 ^ 32 - 1` is not evicted though it is the only one. -/
theorem last_not_evicted : ¬ ∀ s, tableSystem.Reachable s → s.EvictsOldest := by
  intro h
  obtain ⟨s, hs⟩ := cycled (2 ^ 32 - 1)
  obtain ⟨t, -, hr, -, hc, hu, ho, hage, -⟩ := hs.store
  have he : t.Earliest 0 :=
    ⟨by rw [hc]; decide, hu, fun j _ hju hj => by rw [ho j hj] at hju; cases hju⟩
  have := ((evicts_oldest hr).1 (h t hr) 0 he).1
  rw [hage] at this
  exact this (by decide)

theorem stale_rejected_first :
    ∃ s, tableSystem.Reachable s ∧ s.ended ≠ [] ∧ ∀ k ∈ s.ended, Rejected s.pool k := by
  obtain ⟨s, hs⟩ := cycled 1
  have hi := table_inductive.reachable hs.reach
  refine ⟨s, hs.reach, ?_,
    (stale_rejected hs.reach).2 fun i _ hu => absurd ((hs.unused i).symm.trans hu) (by decide)⟩
  exact List.ne_nil_of_mem
    ((hi.ended _).2 ⟨0, by rw [hs.size.1]; decide, 1, by decide, by rw [hs.stores],
    fun hu => absurd ((hs.unused 0).symm.trans hu) (by decide), rfl⟩)

/-- Behind the first block another one is stored. -/
theorem Cycled.storeTwo (h : Cycled s j) :
    ∃ t, tableSystem.Reachable t ∧ t.pool.capacity = maxEntries ∧ (t.pool.entries 0).used = true ∧
    (t.pool.entries 1).used = true ∧ (∀ i, 1 < i → (t.pool.entries i).used = false) ∧ t.age 0 = j ∧
    t.age 1 = j + 1 := by
  obtain ⟨t, rfl, hr, ha, hc, hu, ho, hage, -⟩ := h.store
  have hpool : (s.step (.store 64 5)).pool = s.pool.put 0 64 0 5 := by
    rw [step_store h.slotFor, h.offset]
  have hcount : (s.step (.store 64 5)).count = j + 1 := by rw [step_store h.slotFor, h.count]
  generalize s.step (.store 64 5) = t at hr ha hc hu ho hage hpool hcount
  have harea : t.pool.areaSize = defaultBudget := by rw [hpool]; exact h.size.2.1
  have hslot : (t.pool.entries 0).compOffset = 0 ∧ (t.pool.entries 0).compSize = 5 := by
    rw [hpool]
    exact ⟨rfl, rfl⟩
  -- the first place is busy, and the one behind it is not
  have hbusy : t.pool.busy slotSize (alignSlot 5) = false := by
    unfold Pool.busy
    rw [List.any_eq_false]
    intro i _
    by_cases h0 : i = 0
    · have hbehind : ¬slotSize < 0 + 5 := by decide
      rw [h0, hslot.1, hslot.2, decide_eq_false hbehind, Bool.and_false]
      exact Bool.false_ne_true
    · simp [ho i h0]
  have hoff : t.pool.offsetFor 5 ≤ slotSize := by
    have hfuel : t.pool.areaSize / slotSize + 1 = 4095 + 1 + 1 := by rw [harea]; rfl
    have halign : alignSlot 5 = slotSize := by decide
    unfold Pool.offsetFor
    rw [hfuel, firstFit]
    split
    · rw [firstFit, Nat.zero_add, if_neg fun hb => by rw [hbusy] at hb; cases hb.2]
    · exact Nat.zero_le _
  have hnext := slotFor_eq ⟨hc, harea⟩ (show 1 < maxEntries by decide)
    (fun k hk => by rw [Nat.lt_one_iff.mp hk]; exact hu) (ho 1 (by decide)) hoff
  have hbytes : t.pool.usedBytes + 5 ≤ t.pool.budget := by
    have h1 : t.pool.usedBytes = s.pool.usedBytes + 5 := by rw [hpool]; rfl
    have h2 : t.pool.budget = s.pool.budget := by rw [hpool]; rfl
    rw [h1, h2, h.bytes, h.size.2.2]
    decide
  have hr' := reach_step hr (l := .store 64 5) ⟨ha, by decide, by decide, by decide, hbytes⟩
  rw [step_store hnext] at hr'
  have hput : ∀ i, ((t.pool.put 1 64 (t.pool.offsetFor 5) 5).entries i).used =
      if i = 1 then true else (t.pool.entries i).used := fun i => by
    by_cases hi : i = 1
    · simp [Pool.put, hi]
    · simp [Pool.put, hi]
  refine ⟨_, hr', hc, (hput 0).trans hu, hput 1, fun i hi => ?_, ?_, ?_⟩
  · rw [hput, if_neg (by omega)]
    exact ho i (by omega)
  · show Function.update t.age 1 t.count 0 = j
    rw [Function.update_of_ne Nat.zero_ne_one]
    exact hage
  · show Function.update t.age 1 t.count 1 = j + 1
    rw [Function.update_self]
    exact hcount

/-- Of two blocks the first one is evicted. -/
theorem evicts_oldest_first :
    ∃ s, tableSystem.Reachable s ∧ (s.Earliest 0 ∧ (s.pool.entries 1).used = true) ∧
    s.EvictsOldest := by
  obtain ⟨s, hs⟩ := cycled 0
  obtain ⟨t, hr, hc, hu0, hu1, ho, h0, h1⟩ := hs.storeTwo
  have hother : ∀ k, (t.pool.entries k).used = true → k ≠ 0 → k = 1 := fun k hu hk => by
    by_contra hne
    rw [ho k (by omega)] at hu
    cases hu
  have he : t.Earliest 0 := ⟨by rw [hc]; decide, hu0, fun k _ hku hk => by
    obtain rfl := hother k hku hk
    omega⟩
  refine ⟨t, hr, ⟨he, hu1⟩, (evicts_oldest hr).2 fun i hi => ?_⟩
  obtain rfl := hi.unique he
  refine ⟨by rw [h0]; decide, fun k _ hku hk => .inl ?_⟩
  obtain rfl := hother k hku hk
  rw [h0, h1]
  decide

end Inv

end Cmem.L2.Compress

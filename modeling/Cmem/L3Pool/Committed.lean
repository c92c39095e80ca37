import Cmem.L3Pool.Backing

/-!
# The committed size

`total_pool_size` against what a pool holds. Slab pages, the arenas that `tlsf_alloc` makes,
the private arenas of threads and the OS blocks go through the atomic; the initial capacity,
`mp_expand_pool` and `mp_compact` go through the copy in `stats`, and `mp_free` takes off an
OS block what its header says by then. As long as none of these happens the atomic is exact,
and `mp_get_expandable_size`, which reads the copy, is right only of a pool without a limit
or without memory.
-/
namespace Cmem.L3.Pool.Backing

open L2.SharedTlsf (tpoolHdr)

/-! ## Which steps are counted -/

/-- The header of an OS block still has the size its region was obtained for. -/
def Unchanged (t : Backing) (b : Block) : Prop :=
  b.tier = .os → ∀ r ∈ (t.hold b.owner).os, r.base = b.lo →
  r.size = osSize (t.cfg b.owner) b.requested

/-- No arena is obtained through the statistics, no page is compacted, and no OS block is
freed with another size. -/
def Counted (t : Backing) : Act → Prop
  | .create size ans | .expand size ans => size = 0 ∨ ans = none
  | .free ptr _ _ => ∀ b ∈ t.pool.live, b.ptr = ptr → t.Unchanged b
  | .realloc ptr newSize _ ans _ sup _ =>
    ∀ b ∈ t.pool.live, b.ptr = ptr → (newSize = 0 → t.Unchanged b) ∧
      -- a block that moves is freed behind the allocation
      (b.usable < newSize → (mpAlloc t.pool newSize ans).2.isSome →
        (t.alloc newSize ans sup).Unchanged b)
  | .compact now => ∀ p ∈ (t.hold .master).pages.partials, p.shouldFree t.idle now = false
  | _ => True

/-! ## Pages -/

section Pages
variable {s : PageLists} {p : SlabPage} {c : Config} {cls : Nat}

@[simp] theorem count_draw (s : PageLists) (p : SlabPage) : (s.draw p).count = s.count + 1 := by
  unfold PageLists.draw
  generalize (p.free + 65535) % 65536 = n
  dsimp only
  split <;> (unfold PageLists.count; simp only [List.length_cons]; omega)

theorem length_erase_mem {l : List SlabPage} (h : p ∈ l) : (l.erase p).length + 1 = l.length := by
  have := List.length_pos_of_mem h
  rw [List.length_erase_of_mem h]
  omega

theorem count_take (fresh : Option Nat) :
    (s.take c cls fresh).1.count = s.count + (s.take c cls fresh).2 := by
  unfold PageLists.take
  split
  · rename_i p hp
    have := length_erase_mem (List.mem_of_find?_eq_some hp)
    rw [count_draw]
    unfold PageLists.count
    dsimp only
    omega
  · split
    · rename_i p hp
      have := length_erase_mem (List.mem_of_find?_eq_some hp)
      rw [count_draw]
      unfold PageLists.count
      dsimp only
      omega
    · cases fresh with
      | none => rfl
      | some base => rw [count_draw]

theorem count_takes (l : List (Option Nat)) (s : PageLists) :
    (PageLists.takes c cls l s).1.count = s.count + (PageLists.takes c cls l s).2 := by
  induction l generalizing s with
  | nil => rfl
  | cons fresh l ih =>
    unfold PageLists.takes
    dsimp only
    rw [ih, count_take]
    omega

theorem count_give (s : PageLists) (x : Nat × Nat) : (s.give x).count = s.count := by
  unfold PageLists.give
  split
  · rename_i p hp
    have := length_erase_mem (List.mem_of_find?_eq_some hp)
    dsimp only
    split
    · unfold PageLists.count
      simp only [List.length_cons]
      omega
    · unfold PageLists.count
      simp only [List.length_cons]
      omega
  · split
    · rename_i p hp
      have := length_erase_mem (List.mem_of_find?_eq_some hp)
      dsimp only
      split
      · unfold PageLists.count
        simp only [List.length_cons]
        omega
      · unfold PageLists.count
        simp only [List.length_map]
    · rfl

theorem count_gives (l : List (Nat × Nat)) (s : PageLists) :
    (l.foldl PageLists.give s).count = s.count := by
  induction l generalizing s with
  | nil => rfl
  | cons x l ih => rw [List.foldl_cons, ih, count_give]

theorem length_sweep (i : IdleReclaim) (now cls : Nat) (l : List SlabPage) (n : Nat) :
    (sweep i now cls l n).1.length ≤ l.length := by
  induction l generalizing n with
  | nil => exact Nat.le_refl 0
  | cons p l ih =>
    unfold sweep
    have h1 := ih n
    have h2 := ih (n + 1)
    split
    · dsimp only
      split <;> simp only [List.length_cons] <;> omega
    · simp only [List.length_cons]
      omega

theorem length_sweeps (i : IdleReclaim) (now : Nat) (cs : List Nat) (r : List SlabPage × Nat) :
    (cs.foldl (fun r c => sweep i now c r.1 r.2) r).1.length ≤ r.1.length := by
  induction cs generalizing r with
  | nil => exact Nat.le_refl _
  | cons c cs ih => exact (ih _).trans (length_sweep i now c r.1 r.2)

theorem lessPages (n k : Nat) (h : slabPageSize * n ≤ k) :
    lessPage^[n] k = k - slabPageSize * n := by
  induction n generalizing k with
  | zero => rw [Nat.mul_zero, Nat.sub_zero, Function.iterate_zero, id]
  | succ n ih =>
    have hp : slabPageSize * (n + 1) = slabPageSize * n + slabPageSize := Nat.mul_succ ..
    have hk : lessPage k = k - slabPageSize := if_pos (by omega)
    rw [Function.iterate_succ_apply, hk, ih _ (by omega)]
    omega

end Pages

/-! ## What one operation counts -/

/-- The OS blocks of a pool. -/
def osBlocks (w : Who) (bs : List Block) : List Block :=
  bs.filter fun b => b.tier = .os ∧ b.owner = w

/-- The atomic tells what is held, up to a wrap; every OS block has its region. -/
structure Says (t : Backing) (bs : List Block) : Prop where
  told : ∀ w, (t.hold w).total = wrap (t.hold w).bytes
  stats : ∀ w, (t.hold w).statsTotal = 0
  sized : ∀ w, ∀ a ∈ (t.hold w).arenas, a.region.size = arenaSize
  os : ∀ w, ((t.hold w).os.map Region.base).Perm ((osBlocks w bs).map Block.lo)

section Says
variable {t t' : Backing} {w : Who} {f : Holding → Holding} {b : Block} {bs : List Block}

theorem wrap_add_wrap (m n : Nat) : wrap (wrap m + n) = wrap (m + n) := by
  unfold wrap
  omega

/-- A pool whose holding changes, but not its OS regions. -/
theorem Says.onHold (h : Says t bs) (ht : (f (t.hold w)).total = wrap (f (t.hold w)).bytes)
    (hs : (f (t.hold w)).statsTotal = (t.hold w).statsTotal)
    (ha : ∀ a ∈ (f (t.hold w)).arenas, a.region.size = arenaSize)
    (ho : (f (t.hold w)).os = (t.hold w).os) : Says (t.onHold w f) bs := by
  refine ⟨fun v => ?_, fun v => ?_, fun v => ?_, fun v => ?_⟩ <;> unfold Backing.onHold <;>
    dsimp only <;>
    by_cases e : v = w
  · subst e
    rw [Function.update_self]
    exact ht
  · rw [Function.update_of_ne e]
    exact h.told v
  · subst e
    rw [Function.update_self]
    exact hs.trans (h.stats v)
  · rw [Function.update_of_ne e]
    exact h.stats v
  · subst e
    rw [Function.update_self]
    exact ha
  · rw [Function.update_of_ne e]
    exact h.sized v
  · subst e
    rw [Function.update_self, ho]
    exact h.os v
  · rw [Function.update_of_ne e]
    exact h.os v

/-- What `sys_mem_alloc` and `sys_mem_free` are called with is not counted. -/
theorem Says.congr (h : Says t bs) (hh : t'.hold = t.hold) : Says t' bs := by
  refine ⟨?_, ?_, ?_, ?_⟩
  · rw [hh]
    exact h.told
  · rw [hh]
    exact h.stats
  · rw [hh]
    exact h.sized
  · rw [hh]
    exact h.os

theorem Says.obtain (h : Says t bs) {size base : Nat} {g : Region → Holding → Holding}
    (ht : (g (sysMemAlloc t.vtable (t.cfg w) size base) (t.hold w)).total =
      wrap (g (sysMemAlloc t.vtable (t.cfg w) size base) (t.hold w)).bytes)
    (hs : (g (sysMemAlloc t.vtable (t.cfg w) size base) (t.hold w)).statsTotal =
    (t.hold w).statsTotal)
    (ha : ∀ a ∈ (g (sysMemAlloc t.vtable (t.cfg w) size base) (t.hold w)).arenas,
    a.region.size = arenaSize)
    (ho : (g (sysMemAlloc t.vtable (t.cfg w) size base) (t.hold w)).os = (t.hold w).os) :
    Says (t.obtain w size base g) bs :=
  (h.onHold ht hs ha ho).congr rfl

theorem Says.gives (h : Says t bs) (w : Who) (gives : List (Nat × Nat)) :
    Says (t.onHold w fun h => { h with pages := gives.foldl PageLists.give h.pages }) bs := by
  refine h.onHold ?_ rfl (h.sized w) rfl
  dsimp only
  rw [h.told w]
  unfold Holding.bytes
  rw [count_gives]

theorem Says.slabs (h : Says t bs) (w : Who) (cls : Nat) (gives : List (Nat × Nat))
    (l : List (Option Nat)) : Says (t.slabs w cls gives l) bs := by
  refine h.onHold ?_ rfl (h.sized w) rfl
  dsimp only
  rw [h.told w, wrap_add_wrap]
  unfold Holding.bytes
  dsimp only
  rw [count_takes, count_gives, Nat.mul_add]
  congr 1
  omega

theorem Says.tlsfArenaInit (h : Says t bs) (w : Who) (base : Nat) (made : Bool) :
    Says (t.tlsfArenaInit w base made) bs := by
  unfold Backing.tlsfArenaInit
  split
  · refine h.obtain ?_ rfl ?_ rfl
    · dsimp only
      rw [h.told w, wrap_add_wrap]
      unfold Holding.bytes sysMemAlloc
      simp only [List.map_cons, List.sum_cons]
      congr 1
      omega
    · intro a ha
      rcases List.mem_cons.mp ha with rfl | ha
      · rfl
      · exact h.sized w a ha
  · have hk : Says (t.obtain w arenaSize base fun _ h => h) bs :=
      h.obtain (h.told w) rfl (h.sized w) rfl
    exact hk.congr rfl

/-- An arena of a multiple of eight bytes is as large as it is counted. -/
theorem rawSize_eight {n : Nat} (h : n % 8 = 0) (m : Nat) :
    wrap (m + wrap (tpoolHdr + rawSize n)) = wrap (m + (n + tpoolHdr)) := by
  unfold wrap rawSize wrap tpoolHdr
  omega

theorem Says.tlsfGrow (h : Says t bs) (w : Who) {size : Nat} (h8 : size % 8 = 0) (base : Nat) :
    Says (t.tlsfGrow w size base) bs := by
  unfold Backing.tlsfGrow Backing.tlsfCreatePool
  refine h.obtain ?_ rfl (h.sized w) rfl
  dsimp only
  rw [h.told w, wrap_add_wrap, ← rawSize_eight h8]
  unfold Holding.bytes sysMemAlloc
  simp only [List.map_cons, List.sum_cons]
  congr 1
  omega

theorem Says.tlsfAlloc (h : Says t bs) (w : Who) (size : Nat) (root more : Option Nat) :
    Says (t.tlsfAlloc w size root more) bs :=
  tlsfAlloc_keeps (P := fun t => Says t bs) (fun h h8 base => h.tlsfGrow w h8 base) h size root more

theorem Says.serve (h : Says t bs) (w : Who) (size : Nat) (sup : Supply) :
    Says (t.serve w size sup) bs := by
  unfold Backing.serve
  split
  · exact h.slabs ..
  · dsimp only
    refine Says.tlsfAlloc ?_ w size sup.root sup.more
    split
    · exact h
    · exact h.tlsfArenaInit ..
  · exact h
  · exact h

/-! ## Blocks of the OS tier -/

theorem Says.perm (h : Says t bs) {cs : List Block} (hp : bs.Perm cs) : Says t cs :=
  ⟨h.told, h.stats, h.sized, fun w => (h.os w).trans ((hp.filter _).map _)⟩

theorem Says.obtainOs (h : Says t bs) (charge : Nat) (hb : b.owner = w) :
    Says (Backing.obtainOs w charge t b) (b :: bs) := by
  unfold Backing.obtainOs
  split
  · rename_i ht
    refine ⟨fun v => ?_, fun v => ?_, fun v => ?_, fun v => ?_⟩ <;>
      unfold Backing.obtain Backing.onHold <;>
      dsimp only <;> by_cases e : v = w
    · subst e
      rw [Function.update_self]
      dsimp only
      rw [h.told v, wrap_add_wrap]
      unfold Holding.bytes sysMemAlloc
      simp only [List.map_cons, List.sum_cons]
      congr 1
      omega
    · rw [Function.update_of_ne e]
      exact h.told v
    · subst e
      rw [Function.update_self]
      exact h.stats v
    · rw [Function.update_of_ne e]
      exact h.stats v
    · subst e
      rw [Function.update_self]
      exact h.sized v
    · rw [Function.update_of_ne e]
      exact h.sized v
    · subst e
      have hos : osBlocks v (b :: bs) = b :: osBlocks v bs :=
        List.filter_cons_of_pos (by simp [ht, hb])
      rw [Function.update_self, hos]
      exact (h.os v).cons _
    · have hos : osBlocks v (b :: bs) = osBlocks v bs :=
        List.filter_cons_of_neg (by simp [hb, Ne.symm e])
      rw [Function.update_of_ne e, hos]
      exact h.os v
  · rename_i ht
    have hos (v : Who) : osBlocks v (b :: bs) = osBlocks v bs :=
      List.filter_cons_of_neg (by simp [ht])
    exact ⟨h.told, h.stats, h.sized, fun v => by rw [hos]; exact h.os v⟩

theorem Says.obtainAll {charge : Nat} (cs : List Block) (hc : ∀ b ∈ cs, b.owner = w) {t : Backing}
    {bs : List Block} (h : Says t bs) :
    Says (cs.foldl (Backing.obtainOs w charge) t) (cs ++ bs) := by
  induction cs generalizing t bs with
  | nil => exact h
  | cons b cs ih =>
    have hb := h.obtainOs charge (hc b List.mem_cons_self)
    exact (ih (fun c hm => hc c (List.mem_cons_of_mem _ hm)) hb).perm List.perm_middle

theorem Says.enter (h : Says t t.pool.live) {s : State} {charge n : Nat}
    (ha : Tiers.Adds t.pool s w charge n bs) : Says (t.enter w charge s) s.live := by
  have hnew : s.live.take (s.live.length - t.pool.live.length) = bs := by
    rw [ha.live, List.length_append, Nat.add_sub_cancel, List.take_left']
    rfl
  unfold Backing.enter
  rw [hnew, ha.live]
  exact (h.obtainAll bs ha.owner).congr rfl

/-- A request that gets to a tier or does not. -/
theorem Says.served (h : Says t t.pool.live) (c : Prop) [Decidable c] (w : Who) (size : Nat)
    (sup : Supply) {s : State} {charge n : Nat} (ha : Tiers.Adds t.pool s w charge n bs) :
    Says ((if c then t.serve w size sup else t).enter w charge s) s.live := by
  split
  · exact Says.enter (by rw [serve_pool]; exact h.serve ..) (by rw [serve_pool]; exact ha)
  · exact h.enter ha

theorem Says.alloc (h : Says t t.pool.live) (size : Nat) (ans : Option Place) (sup : Supply) :
    Says (t.alloc size ans sup) (t.alloc size ans sup).pool.live := by
  obtain ⟨bs, ha⟩ := Tiers.mpAlloc_adds t.pool size ans
  exact h.served _ _ _ sup ha

theorem Says.alignedAlloc (h : Says t t.pool.live) (alignment size : Nat) (ans : Option Place)
    (sup : Supply) :
    Says (t.alignedAlloc alignment size ans sup)
      (t.alignedAlloc alignment size ans sup).pool.live := by
  obtain ⟨bs, ha⟩ := Tiers.mpAlignedAlloc_adds t.pool alignment size ans
  exact h.served _ _ _ sup ha

/-! ## Release -/

theorem sum_eraseP {α : Type*} {p : α → Bool} {g : α → Nat} {l : List α} {a : α} (ha : a ∈ l)
    (hp : p a = true) {n : Nat}
    (hn : ∀ x ∈ l, g x = n) : (l.map g).sum = ((l.eraseP p).map g).sum + n := by
  obtain ⟨x, l₁, l₂, -, -, hl, he⟩ := List.exists_of_eraseP ha hp
  rw [he, hl]
  have hx := hn x (by rw [hl]; simp)
  simp only [List.map_append, List.map_cons, List.sum_append, List.sum_cons, hx]
  omega

theorem Says.tlsfArenaCleanup (h : Says t bs) {a : ThreadArena} (ha : a ∈ (t.hold w).arenas) :
    Says (t.tlsfArenaCleanup w a) bs := by
  refine Says.congr (t := t.onHold w fun h => { h with
    arenas := h.arenas.eraseP fun x => x.region = a.region, total :=
      wrap (h.total + (2 ^ 64 - arenaSize)) }) ?_ rfl
  refine h.onHold ?_ rfl (fun x hx => h.sized w x (List.mem_of_mem_eraseP hx)) rfl
  have hsum :=
    sum_eraseP (p := fun x : ThreadArena => decide (x.region = a.region)) ha (by simp) (h.sized w)
  dsimp only
  rw [h.told w]
  unfold Holding.bytes wrap
  dsimp only
  rw [hsum]
  unfold arenaSize
  omega

theorem Says.reapArena (h : Says t bs) (w : Who) (b : Block) : Says (t.reapArena w b) bs := by
  unfold Backing.reapArena
  split
  · rename_i a ha
    split
    · exact h.tlsfArenaCleanup (List.mem_of_find?_eq_some ha)
    · exact h
  · exact h

theorem Says.tlsfArenaRetire (h : Says t bs) (w : Who) (base : Nat) :
    Says (t.tlsfArenaRetire w base) bs := by
  unfold Backing.tlsfArenaRetire
  split
  · rename_i a ha
    split
    · exact h.tlsfArenaCleanup (List.mem_of_find?_eq_some ha)
    · have hmap : ∀ x : ThreadArena,
          (if x.region = a.region then { x with retired := true } else x).region = x.region :=
        fun x => by split <;> rfl
      refine h.onHold ?_ rfl (fun x hx => ?_) rfl
      · dsimp only
        rw [h.told w]
        unfold Holding.bytes
        simp only [List.map_map, Function.comp_def, hmap]
      · obtain ⟨y, hy, rfl⟩ := List.mem_map.mp hx
        rw [hmap]
        exact h.sized w y hy
  · exact h

theorem sum_erase_size {l : List Region} {x : Region} (h : x ∈ l) :
    (l.map Region.size).sum = ((l.erase x).map Region.size).sum + x.size := by
  rw [((List.perm_cons_erase h).map Region.size).sum_eq, List.map_cons, List.sum_cons]
  omega

theorem osBlocks_erase {bs : List Block} (hb : b ∈ bs) (h : b.tier = .os ∧ b.owner = w) :
    (osBlocks w bs).Perm (b :: osBlocks w (bs.erase b)) := by
  have hp := (List.perm_cons_erase hb).filter fun b => decide (b.tier = .os ∧ b.owner = w)
  rwa [List.filter_cons_of_pos (by simpa using h)] at hp

theorem osBlocks_erase_ne {bs : List Block} (hb : b ∈ bs) (h : ¬ (b.tier = .os ∧ b.owner = w)) :
    (osBlocks w bs).Perm (osBlocks w (bs.erase b)) := by
  have hp := (List.perm_cons_erase hb).filter fun b => decide (b.tier = .os ∧ b.owner = w)
  rwa [List.filter_cons_of_neg (by simpa using h)] at hp

/-- A block of the OS tier goes with its region. -/
theorem Says.freeOs (h : Says t t.pool.live) (hb : b ∈ t.pool.live) (ht : b.tier = .os)
    (hu : t.Unchanged b) (intact : Bool) :
    Says ({ t with pool := t.pool.release b intact }.freeOs b.owner b) (t.pool.live.erase b) := by
  have hmem : b.lo ∈ (t.hold b.owner).os.map Region.base :=
    (h.os b.owner).mem_iff.mpr (List.mem_map_of_mem (List.mem_filter.mpr ⟨hb, by simp [ht]⟩))
  obtain ⟨x, hx, hbase⟩ := List.mem_map.mp hmem
  have hfind : ∃ r, (t.hold b.owner).os.find? (fun r => r.base = b.lo) = some r :=
    Option.isSome_iff_exists.mp (List.find?_isSome.mpr ⟨x, hx, by simpa using hbase⟩)
  obtain ⟨r, hr⟩ := hfind
  have hrm := List.mem_of_find?_eq_some hr
  have hrb : r.base = b.lo := by simpa using List.find?_some hr
  have hsize := hu ht r hrm hrb
  unfold Backing.freeOs
  simp only [Backing.onHold, Function.update_self, hr]
  have hcfg : Backing.cfg { t with pool := t.pool.release b intact } b.owner = t.cfg b.owner :=
    release_cfg ..
  refine ⟨fun v => ?_, fun v => ?_, fun v => ?_, fun v => ?_⟩ <;> unfold Backing.giveUp <;>
    dsimp only <;>
    by_cases e : v = b.owner
  · subst e
    rw [Function.update_self]
    dsimp only
    rw [h.told, hcfg, ← hsize]
    have hs := sum_erase_size hrm
    have hlt : r.size < 2 ^ 64 := hsize ▸ Tiers.wrap_lt _
    unfold Holding.bytes
    dsimp only
    rw [hs]
    unfold wrap
    omega
  · rw [Function.update_of_ne e, Function.update_of_ne e]
    exact h.told v
  · subst e
    rw [Function.update_self]
    exact h.stats _
  · rw [Function.update_of_ne e, Function.update_of_ne e]
    exact h.stats v
  · subst e
    rw [Function.update_self]
    exact h.sized _
  · rw [Function.update_of_ne e, Function.update_of_ne e]
    exact h.sized v
  · subst e
    rw [Function.update_self]
    have hregions := ((List.perm_cons_erase hrm).map Region.base).symm.trans (h.os b.owner)
    have hblocks := hregions.trans ((osBlocks_erase hb ⟨ht, rfl⟩).map Block.lo)
    rw [List.map_cons, List.map_cons, hrb] at hblocks
    exact hblocks.cons_inv
  · rw [Function.update_of_ne e, Function.update_of_ne e]
    exact (h.os v).trans ((osBlocks_erase_ne hb fun x => e x.2.symm).map Block.lo)

/-- Any other block changes no region. -/
theorem Says.leave (h : Says t t.pool.live) (hb : b ∈ t.pool.live) (ht : b.tier ≠ .os) :
    Says t (t.pool.live.erase b) :=
  ⟨h.told, h.stats, h.sized,
    fun v => (h.os v).trans ((osBlocks_erase_ne hb fun x => ht x.1).map Block.lo)⟩

theorem Says.release (h : Says t t.pool.live) (hb : b ∈ t.pool.live) (hu : t.Unchanged b)
    (intact : Bool) (back : Option (Nat × Nat)) :
    Says (t.release b intact back) (t.pool.live.erase b) := by
  unfold Backing.release
  simp only
  split
  · rename_i ht
    have hl : Says { t with pool := t.pool.release b intact } (t.pool.live.erase b) :=
      (h.leave hb (by rw [ht]; decide)).congr rfl
    exact hl.gives _ _
  · rename_i ht
    have hl : Says { t with pool := t.pool.release b intact } (t.pool.live.erase b) :=
      (h.leave hb (by rw [ht]; decide)).congr rfl
    split
    · exact hl.reapArena ..
    · exact hl
  · rename_i ht
    have hhome : b.home .master = b.owner := if_neg (by rw [ht]; decide)
    rw [hhome]
    exact h.freeOs hb ht hu intact
  · rename_i ht
    exact (h.leave hb (by rw [ht]; decide)).congr rfl

theorem Says.free (h : Says t t.pool.live) {ptr : Nat}
    (hu : ∀ b ∈ t.pool.live, b.ptr = ptr → t.Unchanged b) (intact : Bool)
    (back : Option (Nat × Nat)) :
    Says (t.free ptr intact back) (t.free ptr intact back).pool.live := by
  unfold Backing.free
  split
  · exact h
  · split
    · exact h
    · rename_i b hb
      obtain ⟨hmem, hptr⟩ := find_spec hb
      rw [release_pool]
      exact h.release hmem (hu b hmem hptr) intact back

/-- A header that changes in place stays with its region. -/
theorem Says.resize (h : Says t t.pool.live) (hb : b ∈ t.pool.live) {c : Block}
    (hc : c.tier = b.tier ∧ c.owner = b.owner ∧ c.lo = b.lo) :
    Says t (c :: t.pool.live.erase b) := by
  refine ⟨h.told, h.stats, h.sized, fun v => ?_⟩
  by_cases e : b.tier = .os ∧ b.owner = v
  · have hos : osBlocks v (c :: t.pool.live.erase b) = c :: osBlocks v (t.pool.live.erase b) :=
      List.filter_cons_of_pos (by simpa [hc] using e)
    rw [hos, List.map_cons, hc.2.2, ← List.map_cons]
    exact (h.os v).trans ((osBlocks_erase hb e).map Block.lo)
  · have hos : osBlocks v (c :: t.pool.live.erase b) = osBlocks v (t.pool.live.erase b) :=
      List.filter_cons_of_neg (by simpa [hc] using e)
    rw [hos]
    exact (h.os v).trans ((osBlocks_erase_ne hb e).map Block.lo)

theorem Says.realloc (h : Says t t.pool.live) {ptr newSize : Nat} {grow : Option Grown}
    {ans : Option Place} {intact : Bool}
    {sup : Supply} {back : Option (Nat × Nat)}
    (hu : t.Counted (.realloc ptr newSize grow ans intact sup back)) :
    Says (t.realloc ptr newSize grow ans intact sup back)
      (t.realloc ptr newSize grow ans intact sup back).pool.live := by
  unfold Backing.realloc
  split
  · exact h.alloc newSize ans sup
  · rename_i h0
    split
    · rename_i h1
      exact h.free (fun b hb hptr => (hu b hb hptr).1 h1) intact back
    · rename_i h1
      cases hf : t.pool.find ptr with
      | none => exact h
      | some b =>
        obtain ⟨hmem, hptr⟩ := find_spec hf
        dsimp only
        by_cases hmove : b.usable < newSize ∧ (if b.tier = .tlsf then grow else none).isNone
        · rw [if_pos hmove]
          split
          · rename_i hsome
            obtain ⟨bs, ha⟩ := Tiers.mpAlloc_adds t.pool newSize ans
            have hlive : b ∈ (t.alloc newSize ans sup).pool.live := by
              rw [alloc_pool, ha.live]
              exact List.mem_append_right _ hmem
            rw [release_pool]
            exact (h.alloc newSize ans sup).release hlive ((hu b hmem hptr).2 hmove.1 hsome)
              intact back
          · exact h.alloc newSize ans sup
        · rw [if_neg hmove]
          have hp : ∃ c : Block, (c.tier = b.tier ∧ c.owner = b.owner ∧ c.lo = b.lo) ∧
              (mpRealloc t.pool ptr newSize grow ans intact).1.live = c :: t.pool.live.erase b := by
            unfold mpRealloc
            rw [if_neg h0, if_neg h1, hf]
            dsimp only
            generalize (if b.tier = .tlsf then grow else none) = g at hmove ⊢
            by_cases hle : newSize ≤ b.usable
            · rw [if_pos hle]
              exact ⟨{ b with requested := newSize }, ⟨rfl, rfl, rfl⟩, rfl⟩
            · rw [if_neg hle]
              cases g with
              | none => exact absurd ⟨Nat.lt_of_not_le hle, rfl⟩ hmove
              | some g => exact ⟨{ b with requested := newSize, usable := g.usable, hi := g.hi },
                ⟨rfl, rfl, rfl⟩, rfl⟩
          obtain ⟨c, hc, hl⟩ := hp
          rw [hl]
          exact (h.resize hmem hc).congr rfl

/-! ## Upkeep -/

theorem Says.compact (h : Says t bs) {now : Nat} (hk : t.Counted (.compact now)) :
    Says (t.mpCompact now).1 bs := by
  have hkept : (t.hold .master).pages.partials.filter (fun p => !p.shouldFree t.idle now) =
      (t.hold .master).pages.partials := List.filter_eq_self.mpr fun p hp => by rw [hk p hp]; rfl
  unfold Backing.mpCompact
  dsimp only
  rw [hkept, Nat.sub_self]
  exact h.onHold (h.told .master) rfl (h.sized .master) rfl

theorem Says.reclaim (h : Says t bs) (hm : (t.hold .master).bytes < 2 ^ 64) (now : Nat)
    (gives : List (Nat × Nat)) : Says (t.mpReclaimIdlePages now gives).1 bs := by
  unfold Backing.mpReclaimIdlePages
  dsimp only
  have hcount := count_gives gives (t.hold .master).pages
  generalize gives.foldl PageLists.give (t.hold .master).pages = pages at hcount ⊢
  have hle := length_sweeps t.idle now (List.range classCount) (pages.partials, 0)
  generalize ((List.range classCount).foldl (fun r c => sweep t.idle now c r.1 r.2)
    (pages.partials, 0)).1 = kept
    at hle ⊢
  refine h.onHold ?_ rfl (h.sized .master) rfl
  have htold : (t.hold .master).total = (t.hold .master).bytes :=
    (h.told .master).trans (Nat.mod_eq_of_lt hm)
  dsimp only at hle ⊢
  rw [htold]
  unfold Holding.bytes wrap at *
  rw [← hcount] at hm ⊢
  unfold PageLists.count at *
  dsimp only
  rw [lessPages _ _ (by unfold slabPageSize; omega), Nat.mod_eq_of_lt]
  · simp only [List.length_nil]
    unfold slabPageSize
    omega
  · simp only [List.length_nil]
    unfold slabPageSize at *
    omega

theorem Says.flush (h : Says t bs) (w : Who) (gives : List (Nat × Nat)) (arena : Option Nat) :
    Says (t.tlsCacheFlush w gives arena) bs := by
  unfold Backing.tlsCacheFlush
  dsimp only
  split
  · exact (h.gives w gives).tlsfArenaRetire ..
  · exact h.gives w gives

/-- **One step** keeps the atomic exact. -/
theorem Says.step (h : Says t t.pool.live) (hm : t.Mapped) {l : Act} (hc : t.Counted l)
    (hl : l ≠ .destroy) : Says (t.next l) (t.next l).pool.live := by
  cases l with
  | create size ans =>
    unfold Backing.next Backing.mpCreate
    dsimp only
    rcases hc with rfl | rfl
    · exact h.congr rfl
    · split <;> exact h.congr rfl
  | alloc size ans sup => exact h.alloc ..
  | alignedAlloc alignment size ans sup => exact h.alignedAlloc ..
  | realloc ptr newSize grow ans intact sup back => exact h.realloc hc
  | free ptr intact back => exact h.free hc intact back
  | expand size ans =>
    unfold Backing.next Backing.mpExpandPool
    dsimp only
    rcases hc with rfl | rfl
    · exact h
    · split <;> exact h
  | compact now => exact h.compact hc
  | reclaim now gives => exact h.reclaim (hm .master) now gives
  | flush w gives arena =>
    have hp : (t.tlsCacheFlush w gives arena).pool = t.pool := by
      unfold Backing.tlsCacheFlush Backing.tlsfArenaRetire
      dsimp only
      split
      · split
        · split <;> rfl
        · rfl
      · rfl
    show Says (t.tlsCacheFlush w gives arena) (t.tlsCacheFlush w gives arena).pool.live
    rw [hp]
    exact h.flush w gives arena
  | reparseEnvFlags env => exact h.congr rfl
  | destroy => exact absurd rfl hl

end Says

/-! ## Runs -/

section Run
variable {c : Config} {arenas : Bool} {v : Vtable} {i : IdleReclaim} {t : Backing}

/-- What a run with these steps keeps, up to `mp_destroy`. -/
structure Inv (t : Backing) : Prop where
  tells : t.stage ≠ .gone → Says t t.pool.live
  mapped : t.Mapped
  limit : ∀ w, (t.cfg w).limit < 2 ^ 64

theorem inv_counted : ((system c arenas v i).guard Counted).Inductive Inv where
  init t h := by
    obtain ⟨hc, q, n, rfl⟩ := h
    have hempty : Holding.empty.bytes = 0 := rfl
    refine ⟨fun _ => ⟨fun w => rfl, fun w => rfl, nofun, fun w => .refl _⟩, fun w => ?_,
      fun w => ?_⟩
    · show Holding.empty.bytes < 2 ^ 64
      rw [hempty]
      decide
    · cases w
      · exact hc
      · show (0 : Nat) < 2 ^ 64
        decide
  step t l t' h hs := by
    obtain ⟨⟨⟨hpre, hm⟩, rfl⟩, hc⟩ := hs
    refine ⟨fun hg => ?_, hm, fun w => ?_⟩
    · have hl : l ≠ .destroy := by
        rintro rfl
        exact hg rfl
      have hstage : t.stage ≠ .gone := by
        intro e
        cases l <;> simp [Backing.pre, e] at hpre
      exact (h.tells hstage).step h.mapped hc hl
    · by_cases henv : ∃ env, l = .reparseEnvFlags env
      · obtain ⟨env, rfl⟩ := henv
        have hlim : ∀ e, (mpParseEnvFlags (t.cfg .master) e).limit = (t.cfg .master).limit := by
          rintro (_ | _) <;> rfl
        show ((t.pool.set .master _).pool w).cfg.limit < _
        cases w
        · rw [set_self]
          exact (hlim env).symm ▸ h.limit .master
        · rw [set_ne _ _ (by decide)]
          exact h.limit .child
      · rw [next_cfg t l w fun env he => henv ⟨env, he⟩]
        exact h.limit w

/-- **The committed size.** In every run whose steps are all counted, `mp_resident` tells what
a pool holds, until it is destroyed. `mp_get_expandable_size` then tells what is left of the
limit exactly where there is no limit, or nothing that is held. -/
theorem committed_exact (hr : ((system c arenas v i).guard Counted).Reachable t)
    (ht : t.stage ≠ .gone) (w : Who) : t.mpResident w = (t.hold w).bytes ∧
      ((0 < (t.cfg w).limit → t.mpGetExpandableSize w = (t.cfg w).limit - (t.hold w).bytes) ↔
        (t.cfg w).limit = 0 ∨ (t.hold w).bytes = 0) := by
  have hi := inv_counted.reachable hr
  have hs := hi.tells ht
  refine ⟨(hs.told w).trans (Nat.mod_eq_of_lt (hi.mapped w)), ?_⟩
  have hlim := hi.limit w
  unfold mpGetExpandableSize wrap
  rw [hs.stats w, Nat.sub_zero, Nat.add_mod_right, Nat.mod_eq_of_lt hlim]
  split
  · omega
  · omega

instance decUnchanged (t : Backing) (b : Block) : Decidable (t.Unchanged b) := by
  unfold Unchanged; exact inferInstance

instance decCounted (t : Backing) (l : Act) : Decidable (t.Counted l) := by
  unfold Counted; cases l <;> exact inferInstance

/-- A slab page, the first TLSF arena and an OS block, which is freed again. -/
def threeTiers : List Act :=
  [.create 0 none,
    .alloc 100 (some ⟨0x100e0, 0x10048, 0x10160, false⟩) ⟨[], [some 0x10000], none, none, none⟩,
    .alloc 5000 (some ⟨0x205b80, 0x205ac8, 0x206f08, false⟩) ⟨[], [], none, some 0x200000, none⟩,
    .alloc 5000000 (some ⟨0x1000098, 0x1000000, 0x14c4bd8, false⟩) ⟨[], [], none, none, none⟩,
      .free 0x1000098 true none]

theorem committed_exact_tiers :
    (threeTiers.foldl next (start plain false ⟨false, false⟩ ⟨false, 0, 0⟩ 0 0)).mpResident
      .master = slabPageSize + 4 * 1024 * 1024 + tpoolHdr := by
  have hr : ((system plain false ⟨false, false⟩ ⟨false, 0, 0⟩).guard Counted).Reachable
      (threeTiers.foldl next (start plain false ⟨false, false⟩ ⟨false, 0, 0⟩ 0 0)) :=
    LTS.Reachable.run (.init ⟨by decide, 0, 0, rfl⟩) (by decide +kernel)
  exact (committed_exact hr (by decide +kernel) .master).1.trans (by decide +kernel)

/-- **Defect.** The initial capacity is held, and `mp_resident` knows nothing of it. -/
theorem capacity_unseen : ∃ t, (system plain false ⟨false, false⟩ ⟨false, 0, 0⟩).Reachable t ∧
    t.stage = .running ∧ t.mpResident .master = 0 ∧ (t.hold .master).bytes = 4096 + tpoolHdr := by
  refine ⟨(start plain false ⟨false, false⟩ ⟨false, 0, 0⟩ 0 0).next (.create 4096 (some 0x100000)),
    ?_, by decide +kernel, by decide +kernel, by decide +kernel⟩
  exact .step _ (.init ⟨by decide, 0, 0, rfl⟩) ⟨by decide +kernel, rfl⟩

end Run

end Cmem.L3.Pool.Backing

import Cmem.L3Pool.Backing

/-!
# Regions go back as they came

`sys_mem_free` chooses again, from the vtable and the flags of the moment, whom a region is
returned to, and it is told a size. The size is right for the arenas, whose descriptors keep
it, and wrong for an OS block, for which `mp_free` passes what the user asked for. The choice
is the one of `sys_mem_alloc` when the vtable has both functions or none of them and no flag
that decides it is set while the pool holds a region.
-/
namespace Cmem.L3.Pool.Backing

open L2.SharedTlsf (tpoolHdr)

/-- **Regions go back as they came**: each exactly once, with its size, and to the backend
that served it. -/
structure Returned (t : Backing) : Prop where
  once : (t.released.map Release.region).Perm t.obtained
  alike : ∀ x ∈ t.released, x.size = x.region.size ∧ x.backend = x.region.backend

/-! ## Which steps keep to that -/

/-- The vtable has both functions, or none. -/
def Paired (v : Vtable) : Prop := v.sysAlloc = v.sysFree

/-- A request does not end in the OS tier, and an arena comes from a paired vtable. -/
def Fits (t : Backing) (w : Who) (charge : Nat) (ans : Option Place) (sup : Supply) : Prop :=
  ((t.cfg w).tierOf charge = .os → ans = none) ∧
    (Paired t.vtable ∨ sup.arena = none ∧ sup.root = none ∧ sup.more = none)

/-- What the environment does to the flags does not change the backend of regions that are
held. -/
def Fitting (t : Backing) : Act → Prop
  | .create size ans | .expand size ans => size = 0 ∨ ans = none ∨ Paired t.vtable
  | .alloc size ans sup | .realloc _ size _ ans _ sup _ =>
    t.Fits t.pool.route ((t.cfg t.pool.route).chargeOf size) ans sup
  | .alignedAlloc alignment size ans sup =>
    t.Fits .master (wrap (size + alignment + headerSize + (t.cfg .master).canaryLen)) ans sup
  | .reparseEnvFlags env =>
    (mpParseEnvFlags (t.cfg .master) env).backend t.vtable.sysFree =
      (t.cfg .master).backend t.vtable.sysFree ∨ (t.hold .master).regions = []
  | _ => True

/-! ## What a pool holds -/

/-- How often a region is held. -/
def held (h : Holding) (r : Region) : Nat :=
  (h.areas.map Area.region).count r + (h.arenas.map ThreadArena.region).count r + h.os.count r

/-- The regions of a pool have the sizes their descriptors say, and all one backend. -/
structure Proper (b : Backend) (h : Holding) : Prop where
  areas : ∀ a ∈ h.areas, a.region.size = wrap (a.rawSize + tpoolHdr) ∧ a.region.backend = b
  arenas : ∀ a ∈ h.arenas, a.region.size = arenaSize ∧ a.region.backend = b
  os : h.os = []

/-- What the steps keep, for the configurations `C` of the moment. -/
structure Fit (C : Who → Config) (v : Vtable) (g : Stage) (t : Backing) : Prop where
  cfg : ∀ w, t.cfg w = C w
  vtable : t.vtable = v
  stage : t.stage = g
  proper : ∀ w, Proper ((C w).backend v.sysFree) (t.hold w)
  alike : ∀ x ∈ t.released, x.size = x.region.size ∧ x.backend = x.region.backend
  once :
    ∀ r, held (t.hold .master) r + held (t.hold .child) r + (t.released.map Release.region).count
      r = t.obtained.count r

section Fit
variable {C : Who → Config} {v : Vtable} {g : Stage} {t t' : Backing} {w : Who}
  {f : Holding → Holding}

theorem held_empty (os : List Region) (r : Region) :
    held { Holding.empty with os := os } r = os.count r := by
  simp [held, Holding.empty]

/-- The pool inside is not looked at, its configuration apart. -/
theorem Fit.congr (h : Fit C v g t) (hc : ∀ w, t'.cfg w = t.cfg w) (hv : t'.vtable = t.vtable)
    (hs : t'.stage = t.stage)
    (hh : t'.hold = t.hold) (ho : t'.obtained = t.obtained) (hr : t'.released = t.released) :
    Fit C v g t' :=
  ⟨fun w => (hc w).trans (h.cfg w), hv.trans h.vtable, hs.trans h.stage, by rw [hh]; exact h.proper,
    by rw [hr]; exact h.alike,
    by rw [hh, ho, hr]; exact h.once⟩

/-- One pool loses `m` and gets `n`. -/
theorem held_onHold {m n : Region → Nat}
    (hc : ∀ r, held (f (t.hold w)) r + m r = held (t.hold w) r + n r) (r : Region) :
    held ((t.onHold w f).hold .master) r + held ((t.onHold w f).hold .child) r + m r =
      held (t.hold .master) r + held (t.hold .child) r + n r := by
  have := hc r
  unfold onHold
  cases w
  · simp only [Function.update_self, Function.update_of_ne (show Who.child ≠ .master by decide)]
    omega
  · simp only [Function.update_self, Function.update_of_ne (show Who.master ≠ .child by decide)]
    omega

theorem proper_onHold (h : Fit C v g t) (hp : Proper ((C w).backend v.sysFree) (f (t.hold w)))
    (u : Who) : Proper ((C u).backend v.sysFree) ((t.onHold w f).hold u) := by
  unfold onHold
  by_cases e : u = w
  · subst e
    simp only [Function.update_self]
    exact hp
  · simp only [Function.update_of_ne e]
    exact h.proper u

theorem Fit.onHold (h : Fit C v g t) (hp : Proper ((C w).backend v.sysFree) (f (t.hold w)))
    (hc : ∀ r, held (f (t.hold w)) r = held (t.hold w) r) : Fit C v g (t.onHold w f) := by
  refine ⟨h.cfg, h.vtable, h.stage, proper_onHold h hp, h.alike, fun r => ?_⟩
  have hk :=
    held_onHold (t := t) (w := w) (f := f) (m := fun _ => 0) (n := fun _ => 0)
      (fun r => by rw [hc]) r
  have := h.once r
  show held ((t.onHold w f).hold .master) r + held ((t.onHold w f).hold .child) r +
    (t.released.map Release.region).count r = t.obtained.count r
  omega

/-- A region is obtained. -/
theorem Fit.obtain (h : Fit C v g t) {size base : Nat} {k : Region → Holding → Holding}
    (hp : Proper ((C w).backend v.sysFree) (k ⟨base, size, (C w).backend v.sysAlloc⟩ (t.hold w)))
    (hc : ∀ r, held (k ⟨base, size, (C w).backend v.sysAlloc⟩ (t.hold w)) r =
      held (t.hold w) r + [(⟨base, size, (C w).backend v.sysAlloc⟩ : Region)].count r) :
    Fit C v g (t.obtain w size base k) := by
  have hr : sysMemAlloc t.vtable (t.cfg w) size base = ⟨base, size, (C w).backend v.sysAlloc⟩ := by
    rw [h.cfg, h.vtable]
    rfl
  unfold Backing.obtain
  dsimp only
  rw [hr]
  generalize (⟨base, size, (C w).backend v.sysAlloc⟩ : Region) = x at hp hc
  refine ⟨h.cfg, h.vtable, h.stage, proper_onHold h hp, h.alike, fun r => ?_⟩
  have hk :=
    held_onHold (t := t) (w := w) (f := k x) (m := fun _ => 0) (n := fun r => [x].count r) hc r
  have := h.once r
  show held ((t.onHold w (k x)).hold .master) r + held ((t.onHold w (k x)).hold .child) r +
    (t.released.map Release.region).count r = (x :: t.obtained).count r
  rw [← List.singleton_append, List.count_append]
  omega

/-- A region is given back with its size, to the backend it has. -/
theorem Fit.giveUp {x : Region} {size : Nat} (hcfg : ∀ w, t.cfg w = C w) (hv : t.vtable = v)
    (hg : t.stage = g) (hp : ∀ w, Proper ((C w).backend v.sysFree) (t.hold w))
    (ha : ∀ x ∈ t.released, x.size = x.region.size ∧ x.backend = x.region.backend)
    (ho : ∀ r,
    held (t.hold .master) r + held (t.hold .child) r + (t.released.map Release.region).count r +
      [x].count r = t.obtained.count r)
    (hs : size = x.size) (hb : x.backend = (C w).backend v.sysFree) :
    Fit C v g (t.giveUp w x size) := by
  refine ⟨hcfg, hv, hg, hp, fun y hy => ?_, fun r => ?_⟩
  · rcases List.mem_cons.mp hy with rfl | hy
    · refine ⟨hs, ?_⟩
      show (t.cfg w).backend t.vtable.sysFree = x.backend
      rw [hcfg, hv, hb]
    · exact ha y hy
  · have := ho r
    show _ + _ + (x :: t.released.map Release.region).count r = _
    rw [← List.singleton_append, List.count_append]
    show held (t.hold .master) r + held (t.hold .child) r + _ = t.obtained.count r
    omega

/-! ## The parts of the operations -/

/-- Slab pages and what is counted are not looked at. -/
theorem Fit.pages (h : Fit C v g t) (w : Who)
    (hg : ∀ x : Holding, (f x).areas = x.areas ∧ (f x).arenas = x.arenas ∧ (f x).os = x.os) :
    Fit C v g (t.onHold w f) := by
  obtain ⟨h1, h2, h3⟩ := hg (t.hold w)
  have hp := h.proper w
  refine h.onHold ⟨by rw [h1]; exact hp.areas, by rw [h2]; exact hp.arenas, h3.trans hp.os⟩
    fun r => ?_
  unfold held
  rw [h1, h2, h3]

theorem paired_backend (hv : Paired v) (c : Config) :
    c.backend v.sysAlloc = c.backend v.sysFree := by
  rw [show v.sysAlloc = v.sysFree from hv]

theorem Fit.tlsfArenaInit (h : Fit C v g t) (hv : Paired v) (w : Who) (base : Nat) (made : Bool) :
    Fit C v g (t.tlsfArenaInit w base made) := by
  unfold Backing.tlsfArenaInit
  have hp := h.proper w
  split
  · refine h.obtain ⟨hp.areas, ?_, hp.os⟩ fun r => ?_
    · intro a ha
      rcases List.mem_cons.mp ha with rfl | ha
      · exact ⟨rfl, paired_backend hv _⟩
      · exact hp.arenas a ha
    · unfold held
      simp only [List.map_cons, List.count_cons, List.count_nil]
      omega
  · have hr :
      sysMemAlloc t.vtable (t.cfg w) arenaSize base =
        ⟨base, arenaSize, (C w).backend v.sysAlloc⟩ := by
      rw [h.cfg, h.vtable]
      rfl
    unfold Backing.obtain
    dsimp only
    rw [hr]
    refine Fit.giveUp h.cfg h.vtable h.stage
      (fun u => proper_onHold h (f := fun h => h) hp u) h.alike
      (fun r => ?_) rfl
      (paired_backend hv _)
    have hk :=
      held_onHold (t := t) (w := w) (f := fun h => h) (m := fun _ => 0) (n := fun _ => 0)
        (fun _ => rfl) r
    have := h.once r
    rw [← List.singleton_append, List.count_append]
    show held ((t.onHold w fun h => h).hold .master) r +
      held ((t.onHold w fun h => h).hold .child) r + (t.released.map Release.region).count r + _ =
        _ + t.obtained.count r
    omega

theorem Fit.tlsfCreatePool (h : Fit C v g t) (hv : Paired v) (w : Who) (size base : Nat)
    (n m : Holding → Nat) :
    Fit C v g
      (t.tlsfCreatePool w size base fun h => { h with total := n h, statsTotal := m h }) := by
  have hp := h.proper w
  unfold Backing.tlsfCreatePool
  refine h.obtain ⟨?_, hp.arenas, hp.os⟩ fun r => ?_
  · intro a ha
    rcases List.mem_cons.mp ha with rfl | ha
    · exact ⟨by rw [Nat.add_comm], paired_backend hv _⟩
    · exact hp.areas a ha
  · unfold held
    simp only [List.map_cons, List.count_cons, List.count_nil]
    omega

theorem Fit.tlsfAlloc (h : Fit C v g t) {root more : Option Nat}
    (hv : Paired v ∨ root = none ∧ more = none) (w : Who) (size : Nat) :
    Fit C v g (t.tlsfAlloc w size root more) := by
  rcases hv with hv | ⟨rfl, rfl⟩
  · exact tlsfAlloc_keeps (P := Fit C v g) (fun h _ base => h.tlsfCreatePool hv w _ base _ _) h
      size root more
  · unfold Backing.tlsfAlloc
    dsimp only
    split <;> exact h

theorem Fit.serve (h : Fit C v g t) (sup : Supply)
    (hv : Paired v ∨ sup.arena = none ∧ sup.root = none ∧ sup.more = none)
    (w : Who) (size : Nat) : Fit C v g (t.serve w size sup) := by
  unfold Backing.serve
  split
  · exact h.pages w fun _ => ⟨rfl, rfl, rfl⟩
  · dsimp only
    refine Fit.tlsfAlloc ?_ (hv.imp id And.right) w size
    split
    · exact h
    · rename_i hsome
      rcases hv with hv | ⟨hn, -⟩
      · exact h.tlsfArenaInit hv ..
      · rw [hn, ite_self] at hsome
        cases hsome
  · exact h
  · exact h

theorem count_eraseP {l : List ThreadArena} {a : ThreadArena} (ha : a ∈ l) (r : Region) :
    ((l.eraseP fun x => x.region = a.region).map ThreadArena.region).count r + [a.region].count r =
      (l.map ThreadArena.region).count r := by
  obtain ⟨x, l₁, l₂, -, hx, hl, he⟩ :=
    List.exists_of_eraseP (p := fun x => decide (x.region = a.region)) ha (by simp)
  have hxa : x.region = a.region := by simpa using hx
  rw [he, hl]
  simp only [List.map_append, List.map_cons, List.count_append, List.count_cons,
    List.count_nil, hxa]
  omega

theorem Fit.tlsfArenaCleanup (h : Fit C v g t) {a : ThreadArena} (ha : a ∈ (t.hold w).arenas) :
    Fit C v g (t.tlsfArenaCleanup w a) := by
  have hp := h.proper w
  obtain ⟨hs, hb⟩ := hp.arenas a ha
  unfold Backing.tlsfArenaCleanup
  refine Fit.giveUp h.cfg h.vtable h.stage
    (proper_onHold h ⟨hp.areas, fun x hx => hp.arenas x (List.mem_of_mem_eraseP hx), hp.os⟩)
    h.alike (fun r => ?_) hs.symm hb
  have hk := held_onHold (t := t) (w := w) (f := fun h : Holding => { h with
      arenas := h.arenas.eraseP fun x => x.region = a.region, total :=
        wrap (h.total + (2 ^ 64 - arenaSize)) })
    (m := fun r => [a.region].count r) (n := fun _ => 0) (fun r => by
      have := count_eraseP ha r
      unfold held
      dsimp only
      omega) r
  have := h.once r
  show _ + _ + (t.released.map Release.region).count r + _ = t.obtained.count r
  omega

theorem Fit.reapArena (h : Fit C v g t) (w : Who) (b : Block) : Fit C v g (t.reapArena w b) := by
  unfold Backing.reapArena
  split
  · rename_i a ha
    split
    · exact h.tlsfArenaCleanup (List.mem_of_find?_eq_some ha)
    · exact h
  · exact h

theorem Fit.tlsfArenaRetire (h : Fit C v g t) (w : Who) (base : Nat) :
    Fit C v g (t.tlsfArenaRetire w base) := by
  unfold Backing.tlsfArenaRetire
  split
  · rename_i a ha
    split
    · exact h.tlsfArenaCleanup (List.mem_of_find?_eq_some ha)
    · have hmap : ∀ x : ThreadArena,
          (if x.region = a.region then { x with retired := true } else x).region = x.region :=
        fun x => by split <;> rfl
      have hp := h.proper w
      refine h.onHold ⟨hp.areas, fun x hx => ?_, hp.os⟩ fun r => ?_
      · obtain ⟨y, hy, rfl⟩ := List.mem_map.mp hx
        rw [hmap]
        exact hp.arenas y hy
      · unfold held
        simp only [List.map_map, Function.comp_def, hmap]
  · exact h

/-! ## The operations -/

/-- A request that fits adds no OS block. -/
theorem enter_fits (t : Backing) {s : State} {w : Who} {charge : Nat} {ans : Option Place}
    {bs : List Block} (hc : (t.cfg w).tierOf charge = .os → ans = none)
    (ha : Tiers.Adds t.pool s w charge (supply [ans]) bs) (t' : Backing) (hp : t'.pool = t.pool) :
    t'.enter w charge s = { t' with pool := s } := by
  have hnew : s.live.take (s.live.length - t'.pool.live.length) = bs := by
    rw [hp, ha.live, List.length_append, Nat.add_sub_cancel, List.take_left']
    rfl
  have hno : ∀ b ∈ bs, b.tier ≠ .os := by
    intro b hb hos
    have htier := (ha.tier b hb (by rw [hos]; decide)).1
    have hnone := hc (htier.symm.trans hos)
    subst hnone
    have hmem : b ∈ bs.filter fun b => b.tier ≠ .emergency :=
      List.mem_filter.mpr ⟨hb, by rw [hos]; rfl⟩
    have := List.length_pos_of_mem hmem
    have := ha.length
    have hz : supply [(none : Option Place)] = 0 := rfl
    omega
  have hfold : ∀ l : List Block, (∀ b ∈ l, b.tier ≠ .os) → l.foldl (obtainOs w charge) t' = t' := by
    intro l
    induction l with
    | nil => exact fun _ => rfl
    | cons b l ih =>
      intro hl
      rw [List.foldl_cons, obtainOs, if_neg (hl b List.mem_cons_self)]
      exact ih fun c hm => hl c (List.mem_cons_of_mem _ hm)
  unfold enter
  rw [hnew, hfold bs hno]

theorem Fit.served (h : Fit C v g t) {c : Prop} [Decidable c] {charge : Nat} {ans : Option Place}
    {sup : Supply} (hf : t.Fits w charge ans sup) {s : State} {bs : List Block}
    (ha : Tiers.Adds t.pool s w charge (supply [ans]) bs)
    (hcfg : ∀ u, (s.pool u).cfg = (t.pool.pool u).cfg) :
    Fit C v g ((if c then t.serve w charge sup else t).enter w charge s) := by
  have hserve : Fit C v g (if c then t.serve w charge sup else t) := by
    split
    · exact h.serve sup (h.vtable ▸ hf.2) w charge
    · exact h
  have hpool : (if c then t.serve w charge sup else t).pool = t.pool := by
    split
    · exact serve_pool ..
    · rfl
  rw [enter_fits t hf.1 ha _ hpool]
  refine hserve.congr (fun u => ?_) rfl rfl rfl rfl rfl
  unfold Backing.cfg
  rw [hpool]
  exact hcfg u

theorem Fit.alloc (h : Fit C v g t) {size : Nat} {ans : Option Place} {sup : Supply}
    (hf : t.Fits t.pool.route ((t.cfg t.pool.route).chargeOf size) ans sup) :
    Fit C v g (t.alloc size ans sup) := by
  obtain ⟨bs, ha⟩ := Tiers.mpAlloc_adds t.pool size ans
  exact h.served hf ha fun u => mpAlloc_cfg ..

theorem Fit.alignedAlloc (h : Fit C v g t) {alignment size : Nat} {ans : Option Place}
    {sup : Supply} (hf : t.Fitting (.alignedAlloc alignment size ans sup)) :
    Fit C v g (t.alignedAlloc alignment size ans sup) := by
  obtain ⟨bs, ha⟩ := Tiers.mpAlignedAlloc_adds t.pool alignment size ans
  exact h.served hf ha fun u => mpAlignedAlloc_cfg ..

/-- Without OS blocks `mp_free` finds none. -/
theorem Fit.freeOs (h : Fit C v g t) (w : Who) (b : Block) : Fit C v g (t.freeOs w b) := by
  have hos : (t.hold w).os = [] := (h.proper w).os
  unfold Backing.freeOs
  simp only [Backing.onHold, Function.update_self, hos, List.find?_nil]
  have hp := h.proper w
  refine h.onHold
    (f := fun x =>
      { x with os := [], total := wrap (x.total + (2 ^ 64 - osSize (t.cfg w) b.requested)) })
    ⟨hp.areas, hp.arenas, rfl⟩ fun r => ?_
  unfold held
  rw [hos]

theorem Fit.release (h : Fit C v g t) (b : Block) (intact : Bool) (back : Option (Nat × Nat)) :
    Fit C v g (t.release b intact back) := by
  have hpool : Fit C v g { t with pool := t.pool.release b intact } :=
    h.congr (fun u => release_cfg ..) rfl rfl rfl rfl rfl
  unfold Backing.release
  dsimp only
  split
  · exact hpool.pages _ fun _ => ⟨rfl, rfl, rfl⟩
  · split
    · exact hpool.reapArena ..
    · exact hpool
  · exact hpool.freeOs ..
  · exact hpool

theorem Fit.free (h : Fit C v g t) (ptr : Nat) (intact : Bool) (back : Option (Nat × Nat)) :
    Fit C v g (t.free ptr intact back) := by
  unfold Backing.free
  split
  · exact h
  · split
    · exact h
    · exact h.release ..

theorem Fit.realloc (h : Fit C v g t) {ptr newSize : Nat} {grow : Option Grown} {ans : Option Place}
    {intact : Bool} {sup : Supply} {back : Option (Nat × Nat)}
    (hf : t.Fitting (.realloc ptr newSize grow ans intact sup back)) :
    Fit C v g (t.realloc ptr newSize grow ans intact sup back) := by
  unfold Backing.realloc
  split
  · exact h.alloc hf
  · split
    · exact h.free ..
    · split
      · exact h
      · rename_i b hb
        by_cases hmove : b.usable < newSize ∧ (if b.tier = .tlsf then grow else none).isNone
        · rw [if_pos hmove]
          split
          · exact (h.alloc hf).release ..
          · exact h.alloc hf
        · rw [if_neg hmove]
          exact h.congr (mpRealloc_cfg t.pool ptr newSize grow ans intact) rfl rfl rfl rfl rfl

theorem Fit.expand (h : Fit C v g t) {size : Nat} {ans : Option Nat}
    (hf : t.Fitting (.expand size ans)) : Fit C v g (t.mpExpandPool size ans) := by
  unfold Backing.mpExpandPool
  split
  · exact h
  · rename_i h0
    cases ans with
    | none => exact h
    | some base => exact h.tlsfCreatePool (h.vtable ▸ (hf.resolve_left h0).resolve_left nofun) ..

theorem Fit.create (h : Fit C v g t) {size : Nat} {ans : Option Nat}
    (hf : t.Fitting (.create size ans)) : Fit C v .running (t.mpCreate size ans) := by
  have hrun : Fit C v .running { t with stage := .running } :=
    ⟨h.cfg, h.vtable, rfl, h.proper, h.alike, h.once⟩
  unfold Backing.mpCreate
  dsimp only
  split
  · exact hrun
  · rename_i h0
    cases ans with
    | none => exact hrun
    | some base => exact hrun.tlsfCreatePool (h.vtable ▸ (hf.resolve_left h0).resolve_left nofun) ..

theorem Fit.compact (h : Fit C v g t) (now : Nat) : Fit C v g (t.mpCompact now).1 := by
  unfold mpCompact
  dsimp only
  refine h.pages .master ?_
  exact fun _ => ⟨rfl, rfl, rfl⟩

theorem Fit.reclaim (h : Fit C v g t) (now : Nat) (gives : List (Nat × Nat)) :
    Fit C v g (t.mpReclaimIdlePages now gives).1 := by
  unfold mpReclaimIdlePages
  dsimp only
  refine h.pages .master ?_
  exact fun _ => ⟨rfl, rfl, rfl⟩

/-- What is held of a pool goes back when it is destroyed. -/
theorem destroyed_spec (h : Fit C v g t) (w : Who) :
    (∀ x ∈ t.destroyed w, x.size = x.region.size ∧ x.backend = x.region.backend) ∧
      ∀ r, ((t.destroyed w).map Release.region).count r = held (t.hold w) r := by
  have hp := h.proper w
  have hback : (t.cfg w).backend t.vtable.sysFree = (C w).backend v.sysFree := by
    rw [h.cfg, h.vtable]
  refine ⟨fun x hx => ?_, fun r => ?_⟩
  · unfold destroyed at hx
    rcases List.mem_append.mp hx with hx | hx
    · obtain ⟨a, ha, rfl⟩ := List.mem_map.mp hx
      obtain ⟨h1, h2⟩ := hp.areas a ha
      exact ⟨h1.symm, hback.trans h2.symm⟩
    · obtain ⟨a, ha, rfl⟩ := List.mem_map.mp hx
      obtain ⟨h1, h2⟩ := hp.arenas a ha
      exact ⟨h1.symm, hback.trans h2.symm⟩
  · unfold destroyed held
    rw [List.map_append, List.count_append, List.map_map, List.map_map, hp.os, List.count_nil,
      Nat.add_zero]
    rfl

theorem Fit.destroy (h : Fit C v g t) : Fit C v .gone t.mpDestroy := by
  obtain ⟨hm, hmc⟩ := destroyed_spec h .master
  obtain ⟨hc, hcc⟩ := destroyed_spec h .child
  have hos (w : Who) : (t.hold w).os = [] := (h.proper w).os
  refine ⟨h.cfg, h.vtable, rfl, fun w => ⟨nofun, nofun, hos w⟩, fun x hx => ?_, fun r => ?_⟩
  · rcases List.mem_append.mp hx with hx | hx
    · rcases List.mem_append.mp hx with hx | hx
      · exact hm x hx
      · exact hc x hx
    · exact h.alike x hx
  · have := h.once r
    have := hmc r
    have := hcc r
    show held { Holding.empty with os := (t.hold .master).os } r +
      held { Holding.empty with os := (t.hold .child).os } r +
      ((t.destroyed .master ++ t.destroyed .child ++ t.released).map Release.region).count r =
        t.obtained.count r
    rw [held_empty, held_empty, hos, hos, List.count_nil, List.map_append, List.map_append,
      List.count_append, List.count_append]
    omega

/-- The environment changes the configuration of the master. -/
theorem Fit.reparse (h : Fit C v g t) {env : Option String}
    (hf : t.Fitting (.reparseEnvFlags env)) :
    Fit (t.mpReparseEnvFlags env).cfg v g (t.mpReparseEnvFlags env) := by
  refine ⟨fun _ => rfl, h.vtable, h.stage, fun w => ?_, h.alike, h.once⟩
  have hp := h.proper w
  have hcfg : (t.mpReparseEnvFlags env).cfg w =
      if w = .master then mpParseEnvFlags (t.cfg .master) env else t.cfg w := by
    unfold Backing.cfg mpReparseEnvFlags
    dsimp only
    split
    · rename_i e
      subst e
      rw [set_self]
      rfl
    · rename_i e
      rw [set_ne _ _ e]
  show Proper (((t.mpReparseEnvFlags env).cfg w).backend v.sysFree) (t.hold w)
  rw [hcfg]
  split
  · rename_i e
    subst e
    rcases hf with hf | hf
    · rw [h.vtable] at hf
      rw [hf, h.cfg]
      exact hp
    · have hnil := List.append_eq_nil_iff.mp hf
      have hnil' := List.append_eq_nil_iff.mp hnil.1
      refine ⟨fun a ha => ?_, fun a ha => ?_, hnil.2⟩
      · rw [List.map_eq_nil_iff.mp hnil'.1] at ha
        cases ha
      · rw [List.map_eq_nil_iff.mp hnil'.2] at ha
        cases ha
  · rw [h.cfg]
    exact hp

/-- **One step** keeps what is held in order. -/
theorem Fit.step {l : Act} (h : Fit t.cfg v t.stage t) (hf : t.Fitting l) (hp : t.pre l) :
    ∃ g, Fit (t.next l).cfg v g (t.next l) ∧ (g = .gone → l = .destroy) := by
  by_cases henv : ∃ env, l = .reparseEnvFlags env
  · obtain ⟨env, rfl⟩ := henv
    have hrun : t.stage = .running := hp
    exact ⟨_, h.reparse hf, fun e => by rw [hrun] at e; cases e⟩
  · have hcfg : (t.next l).cfg = t.cfg :=
      funext fun w => next_cfg t l w fun env he => henv ⟨env, he⟩
    rw [hcfg]
    have same {t' : Backing} (hr : t.stage = .running) (h' : Fit t.cfg v t.stage t') :
        ∃ g, Fit t.cfg v g t' ∧ (g = .gone → l = .destroy) :=
      ⟨_, h', fun e => by rw [hr] at e; cases e⟩
    cases l with
    | create size ans => exact ⟨_, h.create hf, nofun⟩
    | alloc size ans sup => exact same hp.1 (h.alloc hf)
    | alignedAlloc alignment size ans sup => exact same hp.1 (h.alignedAlloc hf)
    | realloc ptr newSize grow ans intact sup back => exact same hp.1 (h.realloc hf)
    | free ptr intact back => exact same hp.1 (h.free ..)
    | expand size ans => exact same hp.1 (h.expand hf)
    | compact now =>
      exact same hp (h.compact now)
    | reclaim now gives =>
      exact same hp (h.reclaim now gives)
    | flush w gives arena =>
      have hg :
        Fit t.cfg v t.stage
          (t.onHold w fun h => { h with pages := gives.foldl PageLists.give h.pages }) :=
        h.pages w fun _ => ⟨rfl, rfl, rfl⟩
      refine same hp ?_
      unfold Backing.next Backing.tlsCacheFlush
      dsimp only
      split
      · exact hg.tlsfArenaRetire ..
      · exact hg
    | reparseEnvFlags env => exact absurd ⟨env, rfl⟩ henv
    | destroy => exact ⟨_, h.destroy, fun _ => rfl⟩

end Fit

/-! ## Runs -/

section Run
variable {c : Config} {arenas : Bool} {v : Vtable} {i : IdleReclaim} {t : Backing}

instance decFits (t : Backing) (w : Who) (charge : Nat) (ans : Option Place) (sup : Supply) :
    Decidable (t.Fits w charge ans sup) := by
  unfold Fits Paired; exact inferInstance

instance decFitting (t : Backing) : (l : Act) → Decidable (t.Fitting l)
  | .create .. | .expand .. | .reparseEnvFlags _ => by unfold Fitting Paired; exact inferInstance
  | .alloc .. | .realloc .. | .alignedAlloc .. => inferInstanceAs (Decidable (t.Fits _ _ _ _))
  | .free .. | .compact _ | .reclaim .. | .flush .. | .destroy => inferInstanceAs (Decidable True)

end Run

end Cmem.L3.Pool.Backing

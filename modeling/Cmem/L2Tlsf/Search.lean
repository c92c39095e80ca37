import Cmem.L2Tlsf.Run

/-!
# What a search finds

`tlsf_find_suitable_block` (src/src/cmem_tlsf.c:297-320) is asked for a size and looks for that
size rounded up to a segment boundary, while a block is listed by its size rounded down.
`find_sound_complete` says what it finds in any arena whose index is right. The arena that
`tlsf_alloc` makes when its chain has nothing (src/src/cmem_tlsf.c:403-447) is one block, twice
as large as the request or 4 MiB less a header: that is enough for the rounding, so
`alloc_serves`: with memory from the system `tlsf_alloc` does not fail.
-/
namespace Cmem.L2.SharedTlsf

section Search
variable {k : Prop} {m : Mem} {T : TPool} {as : List Nat} {total : Nat}

/-- The free lists and the bitmaps of an arena with the blocks `as`: every FREE block is in the
list of its class, there are 30 first-level classes, and the bits tell which lists have blocks. -/
structure FreeIndex (m : Mem) (T : TPool) (as : List Nat) : Prop where
  idx : ∃ L, Indexed m T (fun c => c ∈ as ∧ isFree m c = true) L
  classes : ∀ c ∈ as, isFree m c = true → Nat.log2 (span m c) < 30

theorem Sound.freeIndex (h : Sound k m T as) : FreeIndex m T as := by
  refine ⟨h.idx, fun c hc _ => ?_⟩
  have := h.bounds hc
  exact (Nat.log2_lt (by omega)).mpr (h.span_lt hc)

/-- So is the index of every arena of a run. -/
theorem freeIndex_of_run {cfg : Nat → Cfg} {s : Sys} {t : Nat}
    (hr : ((system cfg).guard fun s l => CanaryInside cfg s l ∧ NoWrap cfg l).Reachable s)
    (ht : t ∈ s.heap.arenas) : ∃ as, FreeIndex s.heap.mem (s.heap.tp t) as := by
  obtain ⟨as, h⟩ := run_inv hr
  exact ⟨as t, (h.wf.sound t ht).freeIndex⟩

/-- **The search is sound and complete.** It returns a FREE block that is large enough, or nothing
when every FREE block is smaller than the request rounded up to its segment. -/
theorem find_sound_complete (h : FreeIndex m T as) (h16 : 16 ≤ total) (ht : total < 2 ^ 29) :
    (tlsfFindSuitableBlock T total ≠ 0 →
      tlsfFindSuitableBlock T total ∈ as ∧ isFree m (tlsfFindSuitableBlock T total) = true ∧
        total ≤ span m (tlsfFindSuitableBlock T total)) ∧
    (tlsfFindSuitableBlock T total = 0 → ∀ c ∈ as, isFree m c = true →
      span m c < searchSize total) := by
  obtain ⟨L, hi⟩ := h.idx
  have hsz : ∀ c, c ∈ as ∧ isFree m c = true → span m c < 2 ^ 30 := by
    intro c hc
    by_cases h0 : span m c = 0
    · omega
    · exact (Nat.log2_lt h0).mp (h.classes c hc.1 hc.2)
  constructor
  · intro h0
    obtain ⟨⟨hm, hf⟩, hle⟩ := find_spec hi hsz h16 (by omega) h0
    exact ⟨hm, hf, hle⟩
  · intro h0 c hc hf
    exact find_complete hi hsz h16 (by omega) h0 ⟨hc, hf⟩

/-- The one block of a new arena of 4096 bytes is found for 3968 bytes. -/
theorem find_sound_complete_new :
    3968 ≤ span (reseed (fun _ => 0) (emptyIndex 64 4096 1)).1
      (tlsfFindSuitableBlock (reseed (fun _ => 0) (emptyIndex 64 4096 1)).2 3968) := by
  have hs := (reseed_spec (k := True) (m := fun _ => 0) (T := emptyIndex 64 4096 1)
    ⟨by decide, by decide, by decide⟩ ⟨512, rfl⟩).1
  exact ((find_sound_complete hs.freeIndex (by decide) (by decide)).1 (by decide +kernel)).2.2

/-! ## A new arena -/

/-- The rounding adds at most a sixteenth. -/
theorem searchSize_le {n : Nat} (h : 16 ≤ n) : searchSize n ≤ n + n / 16 := by
  have h1 := (log2_bounds (n := n) (by omega)).1
  have hl : 4 ≤ Nat.log2 n := (Nat.le_log2 (n := n) (by omega)).mpr h
  have e1 : 2 ^ Nat.log2 n = 16 * 2 ^ (Nat.log2 n - 4) := by
    rw [show Nat.log2 n = 4 + (Nat.log2 n - 4) by omega, Nat.pow_add]
    simp
  have h2 : searchSize n ≤ n + (2 ^ (Nat.log2 n - 4) - 1) := Nat.div_mul_le_self _ _
  omega

/-- The block of the arena that is made for a request has the size the search looks for. -/
theorem searchSize_le_expand (h32 : 32 ≤ total) (h8 : 8 ∣ total) (ht : total < 2 ^ 29) :
    searchSize total ≤ sizeAlign8 (expandSize total) - blockHdr := by
  have h1 := searchSize_le (n := total) (by omega)
  have h2 : total * 2 % sizeMod = total * 2 := Nat.mod_eq_of_lt (by unfold sizeMod; omega)
  rw [expandSize, h2]
  unfold sizeAlign8 blockHdr initSize sizeMod
  split
  · rw [Nat.mod_eq_of_lt (by omega)]
    omega
  · omega

variable {H H' : Heap} {hs : List (Nat × Nat)} {bs : Nat → List Nat} {P t b : Nat}

/-- A new arena is one FREE block, as large as the arena but for the sentinel. -/
theorem addArena_seed (h : Wf k H hs bs) (hP : P ≠ 0) {size : Nat} (hf : Fresh H size t) :
    Sound k (H.addArena P size t).mem ((H.addArena P size t).tp t) [t + tpoolHdr] ∧
      isFree (H.addArena P size t).mem (t + tpoolHdr) = true ∧
      span (H.addArena P size t).mem (t + tpoolHdr) = sizeAlign8 size - blockHdr := by
  obtain ⟨w, -⟩ := addArena_wf h hP hf
  have hmem : t ∈ (H.addArena P size t).arenas := List.mem_cons_self
  have hnew : t ∉ H.arenas := (List.nodup_cons.mp w.nodup).1
  have hs := w.sound t hmem
  have hu := w.used t hmem (t + tpoolHdr)
  rw [Function.update_self] at hs hu
  refine ⟨hs, ?_, ?_⟩
  · by_contra hno
    rw [Bool.not_eq_true] at hno
    exact hnew (h.known _ (hu.mp ⟨List.mem_singleton_self _, hno⟩))
  · have hraw : ((H.addArena P size t).tp t).raw = t + tpoolHdr := (w.geo t hmem).1
    have hsize : ((H.addArena P size t).tp t).size = sizeAlign8 size := by
      simp only [Heap.addArena, Function.update_self]
      rfl
    have hend : t + tpoolHdr + span (H.addArena P size t).mem (t + tpoolHdr) =
        ((H.addArena P size t).tp t).sentinel := hs.walk.2.2.2.2.1
    rw [TPool.sentinel, hraw, hsize] at hend
    have hlo := hs.region.lo
    rw [hsize] at hlo
    unfold blockHdr at *
    omega

/-- The search finds it. -/
theorem addArena_find (h : Wf k H hs bs) (hP : P ≠ 0) (h32 : 32 ≤ total) (h8 : 8 ∣ total)
    (ht : total < 2 ^ 29) (hf : Fresh H (expandSize total) t) :
    tlsfFindSuitableBlock ((H.addArena P (expandSize total) t).tp t) total = t + tpoolHdr := by
  obtain ⟨hs, hfree, hspan⟩ := addArena_seed h hP hf
  generalize H.addArena P (expandSize total) t = H' at *
  by_cases h0 : tlsfFindSuitableBlock (H'.tp t) total = 0
  · have hlt :=
      (find_sound_complete hs.freeIndex (by omega) ht).2 h0 _ (List.mem_singleton_self _) hfree
    rw [hspan] at hlt
    exact absurd (searchSize_le_expand h32 h8 ht) (Nat.not_le.mpr hlt)
  · exact List.mem_singleton.mp ((find_sound_complete hs.freeIndex (by omega) ht).1 h0).1

/-- There is room for a second block behind the request. -/
theorem expand_splits (h184 : 184 ≤ total) (ht : total < 2 ^ 29)
    (hs : span m b = sizeAlign8 (expandSize total) - blockHdr) :
    Splits m total b := by
  have h2 : total * 2 % sizeMod = total * 2 := Nat.mod_eq_of_lt (by unfold sizeMod; omega)
  refine .inl ?_
  rw [hs, expandSize, h2]
  unfold sizeAlign8 minBlock blockHdr initSize sizeMod
  split
  · rw [Nat.mod_eq_of_lt (by omega)]
    omega
  · omega

/-- Where the search finds nothing, nothing has to be cut. -/
theorem chainSplits_of_none {ts : List Nat} (h : searchChain H total ts = none) :
    ChainSplits H total ts := by
  induction ts with
  | nil => trivial
  | cons t ts ih =>
    rw [searchChain_cons] at h
    unfold ChainSplits
    split at h
    · cases h
    · rename_i h0
      rw [if_neg h0]
      exact ih h

/-- A request that is served by a new arena is cut from it. -/
theorem allocSplits_new {cfg : Cfg} {req os₀ os₁ : Nat} (h : Wf k (firstArena H P os₀) hs bs)
    (hP : P ≠ 0) (h184 : 184 ≤ totalNeeded req cfg.canary.toNat)
    (ht : totalNeeded req cfg.canary.toNat < 2 ^ 29)
    (hf : Fresh (firstArena H P os₀) (expandSize (totalNeeded req cfg.canary.toNat)) os₁)
    (hnone : searchChain (firstArena H P os₀) (totalNeeded req cfg.canary.toNat)
    ((firstArena H P os₀).root P) = none) :
    AllocSplits cfg H P req os₀ os₁ := by
  refine ⟨chainSplits_of_none hnone, fun _ => ?_⟩
  unfold ChainSplits
  rw [addArena_find h hP (by omega) (totalNeeded_dvd ..) ht hf, if_pos (by unfold tpoolHdr; omega)]
  exact expand_splits h184 ht (addArena_seed h hP hf).2.2

/-- The pool has an arena once the first one is there. -/
theorem root_firstArena {os₀ : Nat} (h₀ : H.root P = [] → os₀ ≠ 0) :
    (firstArena H P os₀).root P ≠ [] := by
  unfold firstArena
  split
  · refine List.ne_nil_of_mem (mem_root.mpr ⟨List.mem_cons_self, ?_⟩)
    simp only [Heap.addArena, Function.update_self]
    rfl
  · rename_i hno
    exact fun e => hno ⟨e, h₀ e⟩

/-- Block `b` of arena `t` is handed out for `total` bytes: the heap is sound with `b` in use beside
the blocks `hs`, which are as they were, and what `b` has beyond `total` is too small for a block.
-/
structure Handed (k : Prop) (H : Heap) (hs : List (Nat × Nat)) (H' : Heap)
    (t b total : Nat) : Prop where
  wf : ∃ as', Wf k H' ((t, b) :: hs) as'
  kept : Stays H H' hs
  inUse : isFree H'.mem b = false
  fits : total ≤ span H'.mem b
  cut : span H'.mem b < total + (minBlock + blockHdr)

/-- **An expansion is enough.** With memory from the system a request of at most `TLSF_MAX_SIZE`
is served: by an arena of the pool, or by the one block of a new arena, which the search finds and
which is cut to the request. -/
theorem alloc_serves (h : Wf k H hs bs) {cfg : Cfg} {req os₀ os₁ : Nat} (hP : P ≠ 0)
    (hstatic : cfg.staticBuffer = false) (hreq : req ≤ 4 * 1024 * 1024)
    (hf : FreshPair H P (totalNeeded req cfg.canary.toNat) os₀ os₁) (h₀ : H.root P = [] → os₀ ≠ 0)
    (h₁ : searchChain (firstArena H P os₀) (totalNeeded req cfg.canary.toNat)
    ((firstArena H P os₀).root P) = none →
      os₁ ≠ 0) :
    ∃ t b, (tlsfAlloc cfg H P req os₀ os₁).2 = some (t, b) ∧
      Handed k H hs (tlsfAlloc cfg H P req os₀ os₁).1 t b (totalNeeded req cfg.canary.toNat) ∧
      (searchChain (firstArena H P os₀) (totalNeeded req cfg.canary.toNat)
        ((firstArena H P os₀).root P) = none → t = os₁ ∧ b = os₁ + tpoolHdr ∧
          tlsfFindSuitableBlock (((firstArena H P os₀).addArena P
            (expandSize (totalNeeded req cfg.canary.toNat)) os₁).tp os₁)
              (totalNeeded req cfg.canary.toNat) = b ∧
          span (tlsfAlloc cfg H P req os₀ os₁).1.mem b = totalNeeded req cfg.canary.toNat) := by
  have hc : cfg.canary.toNat ≤ 1 := Bool.toNat_le _
  have hlt := totalNeeded_bounds (n := req) (c := cfg.canary.toNat) (by unfold sizeMod; omega)
  have hsane : SaneRequest req cfg.canary.toNat := ⟨by unfold sizeMod; omega, by omega⟩
  obtain ⟨bs', hwf, hstays, hspec⟩ := alloc_spec h (k := k) hP hsane hf
  have hhanded : ∀ t b, (tlsfAlloc cfg H P req os₀ os₁).2 = some (t, b) →
      Handed k H hs (tlsfAlloc cfg H P req os₀ os₁).1 t b (totalNeeded req cfg.canary.toNat) := by
    intro t b hb
    obtain ⟨-, hle, hcut, -⟩ := hspec (t, b) hb
    rw [hb] at hwf
    exact ⟨⟨bs', hwf⟩, hstays, (hwf.used_of (t := t) (b := b) List.mem_cons_self).2.2, hle, hcut⟩
  obtain ⟨bs₁, w₁⟩ : ∃ as', Wf k (firstArena H P os₀) hs as' := by
    unfold firstArena
    split
    next hc => exact ⟨_, (addArena_wf h hP (hf.1 hc.2)).1⟩
    · exact ⟨bs, h⟩
  have hfind :=
    fun h₁ => addArena_find w₁ hP (by omega) (totalNeeded_dvd req _) (by omega) (hf.2 h₁)
  have hsplit : os₁ ≠ 0 → searchChain (firstArena H P os₀) (totalNeeded req cfg.canary.toNat)
      ((firstArena H P os₀).root P) = none → AllocSplits cfg H P req os₀ os₁ := fun h₁ =>
    allocSplits_new w₁ hP (by omega) (by omega) (hf.2 h₁)
  have hroot := root_firstArena h₀
  generalize hr : tlsfAlloc cfg H P req os₀ os₁ = r at *
  unfold tlsfAlloc at hr
  generalize AllocSplits cfg H P req os₀ os₁ = cut at *
  generalize firstArena H P os₀ = H₁ at *
  generalize totalNeeded req cfg.canary.toNat = total at *
  rw [if_neg hroot] at hr
  cases hs : searchChain H₁ total (H₁.root P) with
  | some q =>
    obtain ⟨H', t, b⟩ := q
    rw [hs] at hr
    subst hr
    exact ⟨t, b, rfl, hhanded t b rfl, fun h => absurd h (Option.some_ne_none _)⟩
  | none =>
    have h₁ := h₁ hs
    have hfind := hfind h₁
    have hnew : searchChain (H₁.addArena P (expandSize total) os₁) total [os₁] = some
        ((H₁.addArena P (expandSize total) os₁).put os₁
          (takeBlock (H₁.addArena P (expandSize total) os₁).mem
          ((H₁.addArena P (expandSize total) os₁).tp os₁) (os₁ + tpoolHdr) total), os₁,
          os₁ + tpoolHdr) := by
      rw [searchChain_cons, hfind, if_pos (by unfold tpoolHdr; omega)]
    rw [hs] at hr
    dsimp only at hr
    rw [if_neg (by rw [hstatic]; simp [h₁]), hnew] at hr
    subst hr
    refine ⟨os₁, os₁ + tpoolHdr, rfl, hhanded _ _ rfl, fun _ => ⟨rfl, rfl, hfind, ?_⟩⟩
    exact (hspec (os₁, os₁ + tpoolHdr) rfl).2.2.2.exact (hsplit h₁ hs)

/-- The largest request, of a pool without an arena: the first arena is too small for it. -/
theorem alloc_serves_largest :
    ((tlsfAlloc ⟨true, false, false⟩ (start fun _ => 0).heap 1 (4 * 1024 * 1024) 65536
      16777216).2).isSome := by
  have hwf : Wf True (start fun _ => 0).heap [] fun _ => [] :=
    ⟨List.nodup_nil, nofun, nofun, nofun, nofun, List.nodup_nil, nofun, nofun⟩
  have hfresh : FreshPair (start fun _ => 0).heap 1
      (totalNeeded (4 * 1024 * 1024) (⟨true, false, false⟩ : Cfg).canary.toNat) 65536 16777216 := by
    decide +kernel
  obtain ⟨t, b, hs, -, -⟩ :=
    alloc_serves hwf (by decide) rfl (by decide) hfresh (fun _ => by decide)
    fun _ => by decide
  rw [hs]
  rfl

end Search

end Cmem.L2.SharedTlsf

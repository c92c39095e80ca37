import Cmem.L3Pool.SlotKeep

/-!
# Liveness on the fast path

`mp_ptr_valid` is false for every slab pointer that was freed: the link of a free slot
overwrites the magic, and a header that `mp_aligned_alloc` moved does not lie at its slot. By
the same test it is false for a live block of `mp_aligned_alloc`, and true for any other live
one. That is so while every write of an allocation stays in its slot (`Contained`): sizes
do not wrap, a canary has room in the slot, which `mp_alloc_fast` may have taken of a pool
without canaries, and the links of a header of another tier do not point into a page.
-/
namespace Cmem.L3.SlotLive

open Cmem.L3.Pool
  (Config Page wrap headerSize classCount defaultClasses slabMaxSize slabPageSize pageHeader
  slabCreatePage isPow2 alignUp alignUp_bounds)
open Cmem.L3.BatchFree (Header header magicHead typeSlab slotsMax percpuMax SlotOk)

open World

/-! ## Classes -/

section Classes
variable {n cls : Nat}

theorem sizeToClass_spec (hn : n ≤ 512) :
    sizeToClass n < classCount ∧ n ≤ (defaultClasses[sizeToClass n]?).getD 0 := by
  have hlt : defaultClasses.findIdx (n ≤ ·) < defaultClasses.length :=
    List.findIdx_lt_length_of_exists ⟨512, by decide, by simpa using hn⟩
  exact ⟨hlt, Pool.findIdx_le hlt⟩

theorem classIndex_default {c : Config} (hc : c.customClasses = none) (h0 : 0 < n) (hn : n ≤ 512) :
    c.classIndex n = sizeToClass n := by
  unfold Config.classIndex
  rw [hc]
  exact if_pos ⟨h0, hn⟩

theorem slabCreatePage_laid {c : Config} (hc : c.customClasses = none) (hcls : cls < classCount)
    (h0 : 0 < n) (hn : n < 2 ^ 48) : Laid n (slabCreatePage c cls (slabPageSize * n)) := by
  have hsize : c.classSize cls = (defaultClasses[cls]?).getD 0 := by
    unfold Config.classSize
    rw [hc]
    rfl
  have hle : (defaultClasses[cls]?).getD 0 ≤ 512 := by
    have : ∀ k < classCount, (defaultClasses[k]?).getD 0 ≤ 512 := by decide
    exact this _ hcls
  have hcan : c.canaryLen ≤ 1 := by unfold Config.canaryLen; split <;> omega
  have hstride :
    c.slotTotal cls = (headerSize + (defaultClasses[cls]?).getD 0 + c.canaryLen + 7) / 8 * 8 := by
    unfold Config.slotTotal wrap headerSize
    rw [hsize, Nat.mod_eq_of_lt (by omega)]
  unfold slabCreatePage
  refine ⟨rfl, h0, hn, hcls, ?_, ?_, ?_, ?_⟩
  · show headerSize + (defaultClasses[cls]?).getD 0 ≤ c.slotTotal cls
    rw [hstride]
    omega
  · show c.slotTotal cls % 8 = 0
    rw [hstride]
    exact Nat.mul_mod_left ..
  · unfold headerSize at hstride
    refine Nat.div_pos ?_ ?_ <;> rw [hstride]
    · unfold slabPageSize pageHeader
      omega
    · omega
  · show pageHeader + (slabPageSize - pageHeader) / c.slotTotal cls * c.slotTotal cls ≤ slabPageSize
    have := Nat.div_mul_le_self (slabPageSize - pageHeader) (c.slotTotal cls)
    unfold slabPageSize pageHeader at *
    omega

end Classes

/-! ## The parts of the operations -/

/-- `Inv` with the blocks of the callers, which the allocator does not look at. -/
structure Holds (L F : List Given) (hand : List Nat) (w : World) : Prop where
  inv : Inv hand w
  live : w.live = L
  freed : w.freed = F

/-- A slot of a class is in hand, or none. -/
structure Yields (L F : List Given) (hand : List Nat) (cls : Nat)
    (r : World × Option Nat) : Prop where
  holds : Holds L F (r.2.toList ++ hand) r.1
  cls : ∀ s ∈ r.2, (Spot.cache cls).Takes r.1 s

section Parts
variable {e : Nat → PoolCfg} {w : World} {L F : List Given} {hand l : List Nat} {q cls n s : Nat}
  {sp : Spot}

theorem head_lt (h : Inv hand w) (sp : Spot) : (w.free sp).headD 0 < 2 ^ 64 := by
  cases hf : w.free sp with
  | nil => exact Nat.pow_pos (by decide)
  | cons a l => exact (IsSlot.bounds h.laid (h.takes sp a (hf ▸ List.mem_cons_self)).1).2.2.2.2

theorem Holds.push (h : Holds L F (s :: hand) w) (ht : sp.Takes w s) :
    Holds L F hand (w.push sp s) := by
  refine ⟨h.inv.put ht (fun i hi => ?_) (Bytes.le_store (head_lt h.inv sp)), h.live, h.freed⟩
  by_contra hc
  exact hi (Bytes.store_apart (by unfold Bytes.Apart; omega))

theorem Holds.setFree (h : Holds L F hand w) (hf : w.free sp = l ++ []) :
    Holds L F (l ++ hand) (w.setFree sp []) :=
  ⟨h.inv.take hf, h.live, h.freed⟩

theorem Holds.clear (h : Holds L F hand w) (sp : Spot) : Holds L F hand (w.setFree sp []) :=
  ⟨(h.inv.take (List.append_nil _).symm).drop (List.sublist_append_right ..), h.live, h.freed⟩

theorem Holds.pop (h : Holds L F hand w) (sp : Spot) (cls : Nat)
    (ht : ∀ s ∈ w.free sp, (Spot.cache cls).Takes w s) : Yields L F hand cls (w.pop sp) := by
  unfold World.pop
  split
  · exact ⟨h, nofun⟩
  · rename_i s l hf
    refine ⟨⟨h.inv.take (l := [s]) hf, h.live, h.freed⟩, fun s' hs' => ?_⟩
    obtain rfl := Option.some.inj hs'
    exact ht _ (hf ▸ List.mem_cons_self)

/-- The slot goes back to its page. -/
theorem Holds.slabFree (h : Holds L F (s :: hand) w) (q : Nat) {m : Bytes}
    (hm : ∀ i, m i ≠ w.mem i → s ≤ i ∧ i < s + 32) :
    Holds L F hand (({ w with mem := m } : World).slabFree e q s) := by
  have hp : Holds L F hand (({ w with mem := m } : World).push (.page (s / slabPageSize)) s) := by
    refine ⟨h.inv.put (show (Spot.page (s / slabPageSize)).Takes w s from rfl) (fun i hi => ?_)
      (Bytes.le_store (head_lt h.inv _)), h.live, h.freed⟩
    by_cases hc : s ≤ i ∧ i < s + 8
    · omega
    · exact hm i fun e => hi ((Bytes.store_apart (by unfold Bytes.Apart; omega)).trans e)
  unfold World.slabFree
  dsimp only
  split
  · exact ⟨hp.inv.publish _, hp.live, hp.freed⟩
  · exact hp

theorem Holds.giveBack (h : Holds L F (s :: hand) w) (q cls : Nat) :
    Holds L F hand ((w.restamp cls s).slabFree e q s) := by
  refine h.slabFree q fun i hi => ?_
  by_contra hc
  refine hi ?_
  rw [Bytes.store_apart, Bytes.store_apart, Bytes.store_apart, Bytes.store_apart] <;>
    unfold Bytes.Apart <;> omega

theorem Holds.giveBacks (h : Holds L F (l ++ hand) w) (q cls : Nat) :
    Holds L F hand (l.foldl (fun w slot => (w.restamp cls slot).slabFree e q slot) w) := by
  induction l generalizing w with
  | nil => exact h
  | cons s l ih => exact ih (h.giveBack q cls)

theorem Holds.restore (h : Holds L F hand w) (q cls : Nat) (sp : Spot) :
    Holds L F hand (w.restore e q cls sp) := by
  have ht : Holds L F (w.free sp ++ hand) (w.setFree sp []) := h.setFree (List.append_nil _).symm
  exact Holds.giveBacks ⟨ht.inv.drop ((List.takeWhile_sublist _).append_right hand), ht.live,
    ht.freed⟩ q cls

/-- What one class after the other keeps. -/
theorem Holds.classes (f : World → Nat → World)
    (hf : ∀ w c, Holds L F hand w → Holds L F hand (f w c)) (cs : List Nat)
    (h : Holds L F hand w) : Holds L F hand (cs.foldl f w) := by
  induction cs generalizing w with
  | nil => exact h
  | cons c cs ih => exact ih (hf w c h)

theorem Holds.own (h : Holds L F hand w) (q : Nat) : Holds L F hand (w.own q) := by
  have hq : Holds L F hand { w with owner := q } :=
    ⟨{ h.inv with
        live := fun b hb => ⟨(h.inv.live b hb).1.congr rfl, (h.inv.live b hb).2.1.congr rfl rfl,
          (h.inv.live b hb).2.2⟩
        freed := fun b hb => ⟨(h.inv.freed b hb).1.congr rfl,
          ⟨(h.inv.freed b hb).2.1.plain, (h.inv.freed b hb).2.1.moved⟩, (h.inv.freed b hb).2.2⟩ },
          h.live, h.freed⟩
  exact hq.classes _ (fun w c hw => hw.clear _) _

theorem Holds.validateOwner (h : Holds L F hand w) (q : Nat) :
    Holds L F hand (w.validateOwner e q) := by
  unfold World.validateOwner
  split
  · exact h
  · split
    · exact h.own q
    · exact (h.classes _ (fun w' c hw => hw.restore _ _ _) _).own q

theorem Holds.harvest (h : Holds L F hand w) (q : Nat) : Holds L F hand (w.harvest e q) := by
  unfold World.harvest
  split
  · exact h.classes _ (fun w c hw => hw.restore _ _ _) _
  · exact h

/-- A page is created. -/
theorem Holds.createPage (h : Holds L F hand w) (he : (e q).customClasses = none)
    (hc : cls < classCount) (h0 : 0 < n) (hn : n < 2 ^ 48) (hnone : w.pages n = none) :
    Holds L F hand (w.createPage e q cls n) := by
  have hlaid : Laid n (slabCreatePage (e q).toConfig cls (slabPageSize * n)) :=
    slabCreatePage_laid he hc h0 hn
  unfold World.createPage
  dsimp only
  generalize slabCreatePage (e q).toConfig cls (slabPageSize * n) = p at hlaid ⊢
  have hwide : headerSize + 8 ≤ p.stride := by
    have hstride := hlaid.stride
    have hclass : 8 ≤ (defaultClasses[p.cls]?).getD 0 := by
      have : ∀ c < classCount, 8 ≤ (defaultClasses[c]?).getD 0 := by decide
      exact this _ hlaid.cls
    omega
  have hfar : ∀ s ∈ slotsOf p, ∀ s' ∈ slotsOf p, s ≠ s' →
    s + (headerSize + 8) ≤ s' ∨ s' + (headerSize + 8) ≤ s :=
    fun s hs s' hs' hne => (slotsOf_apart hs hs' hne).imp (by omega) (by omega)
  have hpoke :
    Inv hand
      { w with mem := linkAll (w.mem.fill (slabPageSize * n) slabPageSize 0) (slotsOf p) } := by
    refine h.inv.poke fun i hi => .inl ?_
    by_contra hc
    refine hi ?_
    have hi' : ¬ (slabPageSize * n ≤ i ∧ i < slabPageSize * n + slabPageSize) := by
      intro hin
      have : i / slabPageSize = n := by unfold slabPageSize at *; omega
      exact hc (this ▸ hnone)
    rw [linkAll_apart, Bytes.fill_apart]
    · unfold Bytes.Apart
      omega
    · intro s hs
      obtain ⟨h1, h2, -, -⟩ := hlaid.slot hs
      have : slabPageSize * (n + 1) = slabPageSize * n + slabPageSize := Nat.mul_succ ..
      unfold headerSize at hwide
      omega
  refine ⟨hpoke.addPage hnone hlaid ?_ fun s hs i h1 h2 => ?_, h.live, h.freed⟩
  · refine linkAll_chain _ hlaid.nodup
      (fun s hs s' hs' hne => (hfar s hs s' hs' hne).imp (by omega) (by omega))
      fun s hs => ?_
    obtain ⟨h1, h2, -, -⟩ := hlaid.slot hs
    unfold slabPageSize headerSize at *
    omega
  · have hin := hlaid.slot hs
    show linkAll (w.mem.fill (slabPageSize * n) slabPageSize 0) (slotsOf p) i = 0
    rw [linkAll_apart]
    · refine if_pos ?_
      have : slabPageSize * (n + 1) = slabPageSize * n + slabPageSize := Nat.mul_succ ..
      omega
    · intro s' hs'
      by_cases hne : s' = s
      · subst hne
        omega
      · have := hfar s hs s' hs' (Ne.symm hne)
        omega

/-- What a supply may name as a page. -/
def PageNo (n : Nat) : Prop := 0 < n ∧ n < 2 ^ 48

theorem Holds.draw (h : Holds L F hand w) (he : (e q).customClasses = none) (hc : cls < classCount)
    (hn : PageNo n) : Yields L F hand cls (w.draw e q cls n) := by
  unfold World.draw
  dsimp only
  have hw : Holds L F hand (if (w.pages n).isNone then w.createPage e q cls n else w) := by
    split
    · rename_i hnone
      exact h.createPage he hc hn.1 hn.2 (Option.isNone_iff_eq_none.mp hnone)
    · exact h
  generalize (if (w.pages n).isNone then w.createPage e q cls n else w) = w at hw ⊢
  split
  · rename_i hany
    cases hp : w.pages n with
    | none =>
      rw [hp] at hany
      cases hany
    | some p =>
      rw [hp] at hany
      refine hw.pop _ _ fun s hs => ⟨p, ?_, by simpa using hany⟩
      rw [show s / slabPageSize = n from (hw.inv.takes _ s hs).2]
      exact hp
  · exact ⟨hw, nofun⟩

theorem Holds.perm {hand' : List Nat} (h : Holds L F hand w) (hp : hand.Perm hand') :
    Holds L F hand' w :=
  ⟨{ h.inv with
      hands := hp.nodup_iff.mp h.inv.hands
      hand := fun s hs => h.inv.hand s (hp.mem_iff.mpr hs)
      live := fun b hb => ⟨(h.inv.live b hb).1, (h.inv.live b hb).2.1,
        fun hm => (h.inv.live b hb).2.2.1 (hp.mem_iff.mpr hm), (h.inv.live b hb).2.2.2⟩ },
          h.live, h.freed⟩

/-- Pages stay as they are made. -/
theorem draw_grows (e : Nat → PoolCfg) (q cls n : Nat) {k : Nat} {p : Page}
    (hp : w.pages k = some p) : (w.draw e q cls n).1.pages k = some p := by
  unfold World.draw
  dsimp only
  have hw : (if (w.pages n).isNone then w.createPage e q cls n else w).pages k = some p := by
    split
    · rename_i hnone
      have hne : k ≠ n := by
        rintro rfl
        rw [hp] at hnone
        cases hnone
      exact (Function.update_of_ne hne ..).trans hp
    · exact hp
  generalize (if (w.pages n).isNone then w.createPage e q cls n else w) = w at hw ⊢
  split
  · unfold World.pop
    split <;> exact hw
  · exact hw

theorem Holds.drainSlots (h : Holds L F hand w) (he : (e q).customClasses = none)
    (hc : cls < classCount) (hl : ∀ n ∈ l, PageNo n) :
    Holds L F hand (World.drainSlots e q cls l w) := by
  induction l generalizing w with
  | nil => exact h
  | cons n l ih =>
    have hd := h.draw he hc (hl n List.mem_cons_self)
    unfold World.drainSlots
    generalize w.draw e q cls n = r at hd
    obtain ⟨w', _ | s⟩ := r
    · exact hd.holds
    · exact ih (hd.holds.push (hd.cls s rfl)) fun n hn => hl n (List.mem_cons_of_mem _ hn)

theorem takeSlots_grows {k : Nat} {p : Page} (hp : w.pages k = some p) :
    (World.takeSlots e q cls l w).1.pages k = some p := by
  induction l generalizing w with
  | nil => exact hp
  | cons n l ih =>
    have hd := draw_grows e q cls n hp
    unfold World.takeSlots
    generalize w.draw e q cls n = r at hd
    obtain ⟨w', _ | s⟩ := r
    · exact hd
    · exact ih hd

theorem Holds.takeSlots (h : Holds L F hand w) (he : (e q).customClasses = none)
    (hc : cls < classCount) (hl : ∀ n ∈ l, PageNo n) :
    Holds L F ((World.takeSlots e q cls l w).2 ++ hand) (World.takeSlots e q cls l w).1 ∧
      ∀ s ∈ (World.takeSlots e q cls l w).2,
      (Spot.cache cls).Takes (World.takeSlots e q cls l w).1 s := by
  induction l generalizing w hand with
  | nil => exact ⟨h, nofun⟩
  | cons n l ih =>
    have hd := h.draw he hc (hl n List.mem_cons_self)
    unfold World.takeSlots
    generalize w.draw e q cls n = r at hd
    obtain ⟨w', _ | s⟩ := r
    · exact ⟨hd.holds, nofun⟩
    · obtain ⟨h1, h2⟩ := ih hd.holds fun n hn => hl n (List.mem_cons_of_mem _ hn)
      refine ⟨h1.perm List.perm_middle, fun s' hs' => ?_⟩
      rcases List.mem_cons.mp hs' with rfl | hs'
      · obtain ⟨p, hp, hcls⟩ := hd.cls _ rfl
        exact ⟨p, takeSlots_grows hp, hcls⟩
      · exact h2 s' hs'

/-- The slots of a batch go onto a list, the last one first. -/
theorem Holds.pushes (h : Holds L F (l ++ hand) w) (ht : ∀ s ∈ l, sp.Takes w s) :
    Holds L F hand (l.foldr (fun slot w => w.push sp slot) w) ∧
      (l.foldr (fun slot w => w.push sp slot) w).pages = w.pages := by
  induction l generalizing hand with
  | nil => exact ⟨h, rfl⟩
  | cons s l ih =>
    obtain ⟨h1, h2⟩ :=
      ih (h.perm List.perm_middle.symm) fun s hs => ht s (List.mem_cons_of_mem _ hs)
    have hs := ht s List.mem_cons_self
    refine ⟨h1.push ?_, h2⟩
    cases sp <;> unfold Spot.Takes at hs ⊢
    · exact h2 ▸ hs
    · exact h2 ▸ hs
    · exact h2 ▸ hs
    · exact hs

theorem Holds.percpuRefill (h : Holds L F hand w) (he : (e q).customClasses = none)
    (hc : cls < classCount) (hl : ∀ n ∈ l, PageNo n) (cpu : Nat) :
    Holds L F hand (w.percpuRefill e q cpu cls l) := by
  unfold World.percpuRefill
  split
  · obtain ⟨h1, h2⟩ :=
      h.takeSlots (l := l.take percpuMax) he hc fun n hn => hl n (List.mem_of_mem_take hn)
    exact (h1.pushes (show ∀ s ∈ _, (Spot.percpu q cpu cls).Takes _ s from h2)).1
  · exact h

theorem Holds.percpuPop (h : Holds L F hand w) (e : Nat → PoolCfg) (q cpu cls : Nat) :
    Yields L F hand cls (w.percpuPop e q cpu cls) := by
  unfold World.percpuPop
  split
  · exact h.pop _ _ fun s hs => (h.inv.takes _ s hs).2
  · exact ⟨h, nofun⟩

theorem Holds.slabAllocWithTlsRefill (h : Holds L F hand w) (he : (e q).customClasses = none)
    (hc : cls < classCount) {last : Option Nat} (hl : ∀ n ∈ l, PageNo n)
    (hlast : ∀ n ∈ last, PageNo n) :
    Yields L F hand cls (w.slabAllocWithTlsRefill e q cls l last) := by
  unfold World.slabAllocWithTlsRefill
  have hd := h.drainSlots (l := l.take 64) he hc fun n hn => hl n (List.mem_of_mem_take hn)
  have hp := hd.pop (.cache cls) cls fun s hs => (hd.inv.takes (.cache cls) s hs).2
  generalize (World.drainSlots e q cls (l.take 64) w).pop (.cache cls) = r at hp
  obtain ⟨w', _ | s⟩ := r
  · cases last with
    | none => exact hp
    | some n => exact hp.holds.draw he hc (hlast n rfl)
  · exact hp

theorem Holds.takeSlot (h : Holds L F hand w) (he : (e q).customClasses = none)
    (hc : cls < classCount) {sup : Supply} (hs : sup.Ok) :
    Yields L F hand cls (w.takeSlot e q cls sup) := by
  have hrefill : ∀ n ∈ sup.refill, PageNo n := fun n hn => hs n (by simp [hn])
  have hdrain : ∀ n ∈ sup.drain, PageNo n := fun n hn => hs n (by simp [hn])
  have hlast : ∀ n ∈ sup.last, PageNo n := fun n hn => hs n (by simp [Option.mem_def.mp hn])
  unfold World.takeSlot
  have h1 := h.pop (.cache cls) cls fun s hs => (h.inv.takes _ s hs).2
  generalize w.pop (.cache cls) = r at h1
  obtain ⟨w₁, _ | s⟩ := r
  · dsimp only
    have h2 := h1.holds.percpuPop e q sup.cpu cls
    generalize w₁.percpuPop e q sup.cpu cls = r at h2
    obtain ⟨w₂, _ | s⟩ := r
    · dsimp only
      have h3 := (h2.holds.percpuRefill he hc hrefill sup.cpu).percpuPop e q sup.cpu cls
      generalize (w₂.percpuRefill e q sup.cpu cls sup.refill).percpuPop e q sup.cpu cls = r at h3
      obtain ⟨w₃, _ | s⟩ := r
      · exact h3.holds.slabAllocWithTlsRefill he hc hdrain hlast
      · exact h3
    · exact h2
  · exact h1

end Parts

/-! ## Allocation -/

section Alloc
variable {e : Nat → PoolCfg} {w : World} {L F : List Given} {q cls n size slot : Nat} {sup : Supply}

/-- Every pool has the classes it was created with. -/
def Plain (e : Nat → PoolCfg) : Prop := ∀ q, (e q).customClasses = none

theorem Holds.slotFor (h : Holds L F [] w) (he : Plain e) (hs : sup.Ok)
    (ht : (e q).tierOf n = .slab) :
    Yields L F [] (sizeToClass n) (w.slotFor e q n sup) ∧ ((w.slotFor e q n sup).2 ≠ none → 0 < n) ∧
      n ≤ slabMaxSize := by
  have hn : n ≤ slabMaxSize := by
    unfold Config.tierOf at ht
    split at ht
    · rename_i hc
      exact hc.2
    · split at ht <;> cases ht
  unfold World.slotFor
  split
  · exact ⟨⟨h, nofun⟩, fun hne => absurd rfl hne, hn⟩
  · rename_i hc
    have h0 : 0 < n := Nat.pos_of_ne_zero fun e => hc (.inl e)
    rw [classIndex_default (he q) h0 hn]
    exact ⟨((h.validateOwner q).harvest q).takeSlot (he q) (sizeToClass_spec hn).1 hs,
      fun _ => h0, hn⟩

theorem writeHeader_apart {m : Bytes} {a i : Nat} {h : Header} (hi : i < a ∨ a + 40 ≤ i) :
    writeHeader m a h i = m i := by
  unfold writeHeader
  rw [Bytes.store_apart, Bytes.store_apart, Bytes.store_apart, Bytes.store_apart, Bytes.store_apart,
    Bytes.store_apart,
    Bytes.store_apart, Bytes.store_apart] <;> unfold Bytes.Apart <;> omega

theorem writeHeader_fields (m : Bytes) {a : Nat} {h : Header} (h1 : h.magic < 2 ^ 32)
    (h2 : h.allocType < 256) (h3 : h.slabClass < 256) (h4 : h.requested < 2 ^ 64)
    (h5 : h.rawBase < 2 ^ 64) :
    (writeHeader m a h).le a 4 = h.magic ∧ (writeHeader m a h).le (a + 4) 1 = h.allocType ∧
      (writeHeader m a h).le (a + 5) 1 = h.slabClass ∧
      (writeHeader m a h).le (a + 8) 8 = h.requested ∧
      (writeHeader m a h).le (a + 24) 8 = h.rawBase := by
  have far {m : Bytes} {a n v b k : Nat} (h : a + n ≤ b ∨ b + k ≤ a) :
    (m.store a n v).le b k = m.le b k :=
    Bytes.le_store_apart h
  unfold writeHeader
  refine ⟨?_, ?_, ?_, ?_, ?_⟩
  · rw [far (by omega), far (by omega), far (by omega), far (by omega), far (by omega),
      far (by omega), far (by omega)]
    exact Bytes.le_store (by omega)
  · rw [far (by omega), far (by omega), far (by omega), far (by omega), far (by omega),
      far (by omega)]
    exact Bytes.le_store (by omega)
  · rw [far (by omega), far (by omega), far (by omega), far (by omega), far (by omega)]
    exact Bytes.le_store (by omega)
  · rw [far (by omega), far (by omega), far (by omega)]
    exact Bytes.le_store (by omega)
  · rw [far (by omega)]
    exact Bytes.le_store (by omega)

theorem putCanary_apart {c : PoolCfg} {m : Bytes} {a i : Nat} (hi : c.canary = true → i ≠ a) :
    putCanary c m a i = m i := by
  unfold putCanary
  split
  · rename_i hc
    have := hi hc
    exact Bytes.fill_apart (by unfold Bytes.Apart; omega)
  · rfl

/-- What a stamp writes. -/
theorem format_apart {flags i : Nat}
    (hi : i < slot ∨ slot + 40 ≤ i ∧ i < slot + headerSize ∨ slot + headerSize + size < i ∨
    slot + headerSize + size = i ∧ (e q).canary = false) :
    (w.format e q cls slot size flags).mem i = w.mem i := by
  have hm : putCanary (e q) (writeHeader w.mem slot
      ⟨magicHead, typeSlab, cls, flags, size, (defaultClasses[cls]?).getD 0, slot, q⟩)
      (slot + headerSize + size) i = w.mem i := by
    unfold headerSize at *
    rw [putCanary_apart, writeHeader_apart]
    · omega
    · rintro hc rfl
      rcases hi with hi | hi | hi | ⟨-, hi⟩
      · omega
      · omega
      · omega
      · rw [hc] at hi
        cases hi
  unfold World.format
  dsimp only
  split
  · rw [Bytes.fill_apart]
    · exact hm
    · unfold Bytes.Apart headerSize at *
      omega
  · exact hm

/-- The header of a stamp. -/
theorem format_fields (flags : Nat) (hsize : size < 2 ^ 64) (hslot : slot < 2 ^ 64)
    (hcls : cls < classCount) :
    let m := (w.format e q cls slot size flags).mem
    m.le slot 4 = magicHead ∧ m.le (slot + 4) 1 = typeSlab ∧ m.le (slot + 5) 1 = cls ∧
    m.le (slot + 8) 8 = size ∧
      m.le (slot + 24) 8 = slot := by
  intro m
  have hw := writeHeader_fields w.mem (a := slot)
    (h := ⟨magicHead, typeSlab, cls, flags, size, (defaultClasses[cls]?).getD 0, slot, q⟩)
    (show magicHead < 2 ^ 32 by decide) (show typeSlab < 256 by decide)
      (Nat.lt_trans hcls (by decide)) hsize hslot
  have keep (i : Nat) (hi : i < slot + headerSize) : m i = writeHeader w.mem slot
      ⟨magicHead, typeSlab, cls, flags, size, (defaultClasses[cls]?).getD 0, slot, q⟩ i := by
    show (w.format e q cls slot size flags).mem i = _
    unfold World.format
    dsimp only
    split
    · rw [Bytes.fill_apart (by unfold Bytes.Apart; omega)]
      exact putCanary_apart fun _ => by omega
    · exact putCanary_apart fun _ => by omega
  have hle (a k : Nat) (hk : a + k ≤ slot + headerSize) :
      m.le a k = Bytes.le (writeHeader w.mem slot
      ⟨magicHead, typeSlab, cls, flags, size, (defaultClasses[cls]?).getD 0, slot, q⟩) a k :=
    Bytes.le_congr fun i _ h2 => keep i (by omega)
  unfold headerSize at hle
  rw [hle _ _ (by omega), hle _ _ (by omega), hle _ _ (by omega), hle _ _ (by omega),
    hle _ _ (by omega)]
  exact hw

/-- The stamp stays in its slot. -/
theorem Inv.format {hand : List Nat} (h : Inv hand w) (hs : slot ∈ hand)
    (hf : ∀ b ∈ w.freed, b.slot ≠ slot) (hroom : headerSize + size ≤ w.stride slot)
    (hcan : (e q).canary = true → headerSize + size < w.stride slot) (cls flags : Nat) :
    Inv hand (w.format e q cls slot size flags) := by
  refine h.scribble hs hf fun i hi => ?_
  unfold World.Owned headerSize at *
  by_contra hc
  refine hi (format_apart ?_)
  unfold headerSize
  by_cases hlast : slot + 152 + size = i
  · right; right; right
    refine ⟨hlast, ?_⟩
    cases hcanary : (e q).canary with
    | false => rfl
    | true =>
      have := hcan hcanary
      omega
  · omega

/-- A block of a slot that is not moved. -/
theorem Holds.stamped (h : Holds L F [slot] w) (ht : (Spot.cache cls).Takes w slot)
    (hsize : size < 2 ^ 64) (hroom : headerSize + size ≤ w.stride slot)
    (hcan : (e q).canary = true → headerSize + size < w.stride slot) (flags : Nat) :
    Inv [] ((w.format e q cls slot size flags).give ⟨slot + headerSize, slot, size, false⟩) := by
  have hf : ∀ c ∈ w.freed.filter (fun c => decide (c.slot ≠ slot)), c.slot ≠ slot := fun c hc =>
    of_decide_eq_true (List.mem_filter.mp hc).2
  have hi := (h.inv.forget fun c => decide (c.slot ≠ slot)).format (e := e) (q := q)
    List.mem_cons_self hf hroom
    hcan cls flags
  obtain ⟨p, hp, hcls⟩ := ht
  have hslot := (h.inv.hand slot List.mem_cons_self).1
  have hb := IsSlot.bounds h.inv.laid hslot
  obtain ⟨f1, f2, f3, f4, f5⟩ := format_fields (e := e) (w := w) (q := q) flags hsize hb.2.2.2.2
    (hcls ▸ (h.inv.laid _ _ hp).cls)
  refine Inv.give (b := ⟨slot + headerSize, slot, size, false⟩) hi ⟨hslot, fun _ => rfl, nofun, ?_⟩
    ⟨?_, ?_, ?_, ?_, ?_⟩ hf
  · show slot + headerSize + size ≤ slot + w.stride slot
    omega
  · show Bytes.le _ (slot + headerSize - headerSize) 4 = _
    rw [Nat.add_sub_cancel]
    exact f1
  · show Bytes.le _ (slot + headerSize - headerSize + 4) 1 = _
    rw [Nat.add_sub_cancel]
    exact f2
  · intro p' hp'
    obtain rfl := Option.some.inj (hp'.symm.trans hp)
    show Bytes.le _ (slot + headerSize - headerSize + 5) 1 = _
    rw [Nat.add_sub_cancel, hcls]
    exact f3
  · show Bytes.le _ (slot + headerSize - headerSize + 24) 8 = _
    rw [Nat.add_sub_cancel]
    exact f5
  · show Bytes.le _ (slot + headerSize - headerSize + 8) 8 = _
    rw [Nat.add_sub_cancel]
    exact f4

/-- No header of the fast path has links to write through. -/
theorem relink_idle {m : Bytes} (h : ∀ i, slot + 136 ≤ i → i < slot + headerSize → m i = 0)
    (moved : Nat) : relink m slot moved = m := by
  unfold headerSize at h
  have h1 : m.le (slot + 136) 8 = 0 := Bytes.le_eq_zero.mpr fun i h1 h2 => h i h1 (by omega)
  have h2 : m.le (slot + 144) 8 = 0 := Bytes.le_eq_zero.mpr fun i h1 h2 => h i (by omega) (by omega)
  unfold relink
  dsimp only
  rw [if_pos h1, if_pos h2]

/-- A block whose header is moved behind its slot's. -/
theorem Holds.moved (h : Holds L F [slot] w) (ht : (Spot.cache cls).Takes w slot) (hn : n < 2 ^ 64)
    {ptr : Nat} (hroom : headerSize + n ≤ w.stride slot)
    (hcan : (e q).canary = true → headerSize + n < w.stride slot)
    (hlo : slot + 2 * headerSize ≤ ptr) (hhi : ptr + size < slot + headerSize + n) (flags : Nat) :
    Inv []
      (((w.format e q cls slot n flags).move e q slot ptr size).give ⟨ptr, slot, size, true⟩) := by
  have hf : ∀ c ∈ w.freed.filter (fun c => decide (c.slot ≠ slot)), c.slot ≠ slot := fun c hc =>
    of_decide_eq_true (List.mem_filter.mp hc).2
  have hi := (h.inv.forget fun c => decide (c.slot ≠ slot)).format (e := e) (q := q)
    List.mem_cons_self hf hroom
    hcan cls flags
  obtain ⟨p, hp, hcls⟩ := ht
  have hslot := (h.inv.hand slot List.mem_cons_self).1
  have hb := IsSlot.bounds h.inv.laid hslot
  obtain ⟨f1, f2, f3, -, f5⟩ := format_fields (e := e) (w := w) (q := q) flags hn hb.2.2.2.2
    (hcls ▸ (h.inv.laid _ _ hp).cls)
  generalize hw : w.format e q cls slot n flags = w₁ at f1 f2 f3 f5
  have hidle : ∀ i, slot + 136 ≤ i → i < slot + headerSize → w₁.mem i = 0 := by
    subst hw
    exact hi.idle slot hslot
  generalize hm : w₁.move e q slot ptr size = w₂
  have hstride : w.stride slot ≤ 65536 := by
    have := hb.1
    unfold slabPageSize at this
    omega
  -- the copied header, with its own size, and the canary
  have hmem : w₂.mem = putCanary (e q)
      ((w₁.mem.copy (ptr - headerSize) slot headerSize).store (ptr - headerSize + 8) 8 size)
      (ptr + size) := by
    subst hm
    unfold World.move
    dsimp only
    rw [relink_idle]
    intro i h1 h2
    unfold headerSize at *
    rw [Bytes.store_apart, Bytes.copy_apart]
    · exact hidle i h1 h2
    · unfold Bytes.Apart
      omega
    · unfold Bytes.Apart
      omega
  have hkeep (i : Nat) (hi : i + headerSize < ptr ∨ ptr ≤ i ∧ i ≠ ptr + size) :
    w₂.mem i = w₁.mem i := by
    unfold headerSize at *
    rw [hmem, putCanary_apart (by omega), Bytes.store_apart, Bytes.copy_apart]
    · unfold Bytes.Apart
      omega
    · unfold Bytes.Apart
      omega
  have hread (k j : Nat) (hk : k + j ≤ 8 ∨ 16 ≤ k ∧ k + j ≤ headerSize) :
      w₂.mem.le (ptr - headerSize + k) j = w₁.mem.le (slot + k) j := by
    unfold headerSize at *
    have hcanary : w₂.mem.le (ptr - 152 + k) j =
        ((w₁.mem.copy (ptr - 152) slot 152).store (ptr - 152 + 8) 8 size).le (ptr - 152 + k) j :=
      Bytes.le_congr fun i h1 h2 => by rw [hmem]; exact putCanary_apart (by omega)
    rw [hcanary, Bytes.le_store_apart, Bytes.le_copy]
    · omega
    · unfold Bytes.Apart
      omega
  have hsize : w₂.mem.le (ptr - headerSize + 8) 8 = size := by
    unfold headerSize at *
    have hcanary : w₂.mem.le (ptr - 152 + 8) 8 =
        ((w₁.mem.copy (ptr - 152) slot 152).store (ptr - 152 + 8) 8 size).le (ptr - 152 + 8) 8 :=
      Bytes.le_congr fun i h1 h2 => by rw [hmem]; exact putCanary_apart (by omega)
    rw [hcanary]
    exact Bytes.le_store (by omega)
  have hscr : Inv [slot] {
      ({ w with freed := w.freed.filter fun c => decide (c.slot ≠ slot) } : World).format e q cls
        slot n flags
      with mem := w₂.mem } := by
    refine hi.scribble List.mem_cons_self hf fun i hc => ?_
    have hin : ¬ (i + headerSize < ptr ∨ ptr ≤ i ∧ i ≠ ptr + size) :=
      fun hout => hc ((hkeep i hout).trans (by subst hw; rfl))
    show (slot ≤ i ∧ i < slot + w.stride slot) ∧ _
    unfold headerSize at *
    omega
  have heq : w₂ = { w.format e q cls slot n flags with mem := w₂.mem } := by
    subst hm hw
    rfl
  rw [heq]
  refine Inv.give (b := ⟨ptr, slot, size, true⟩) hscr ⟨hslot, nofun, fun _ => hlo, ?_⟩
    ⟨?_, ?_, ?_, ?_, ?_⟩ hf
  · show ptr + size ≤ slot + w.stride slot
    omega
  · have hmagic := hread 0 4 (.inl (by omega))
    rw [Nat.add_zero, Nat.add_zero] at hmagic
    exact hmagic.trans f1
  · exact (hread 4 1 (.inl (by omega))).trans f2
  · intro p' hp'
    obtain rfl := Option.some.inj (hp'.symm.trans hp)
    exact (hread 5 1 (.inl (by omega))).trans (f3.trans hcls.symm)
  · exact (hread 24 8 (.inr (by unfold headerSize; omega))).trans f5
  · exact hsize

/-- A slot of the class of `n` has room for `n` bytes. -/
theorem Takes.room (hl : w.AllLaid) (ht : (Spot.cache (sizeToClass n)).Takes w slot)
    (hn : n ≤ slabMaxSize) : headerSize + n ≤ w.stride slot := by
  obtain ⟨p, hp, hcls⟩ := ht
  have hstride := (hl _ _ hp).stride
  have hsize := (sizeToClass_spec hn).2
  rw [stride_eq hp]
  rw [hcls] at hstride
  omega

/-- The canary of a request has room in the slot. -/
def Roomy (e : Nat → PoolCfg) (q n : Nat) (r : World × Option Nat) : Prop :=
  (e q).canary = true → ∀ s ∈ r.2, headerSize + n < r.1.stride s

instance decRoomy (e : Nat → PoolCfg) (q n : Nat) (r : World × Option Nat) :
    Decidable (Roomy e q n r) := by
  unfold Roomy; exact inferInstance

theorem Inv.holds (h : Inv [] w) : Holds w.live w.freed [] w := ⟨h, rfl, rfl⟩

theorem Inv.alignedAlloc (h : Inv [] w) (he : Plain e) {alignment : Nat} (hs : sup.Ok)
    (ht : (e q).tierOf (wrap (size + alignment + headerSize + (e q).canaryLen)) = .slab)
    (hc : isPow2 alignment = true → 8 ≤ alignment →
    size + alignment + headerSize + (e q).canaryLen < 2 ^ 64 ∧
      Roomy e q (wrap (size + alignment + headerSize + (e q).canaryLen))
        (w.slotFor e q (wrap (size + alignment + headerSize + (e q).canaryLen)) sup)) :
    Inv [] (w.alignedAlloc e q alignment size sup) := by
  unfold World.alignedAlloc
  split
  · exact h
  · rename_i hvalid
    obtain ⟨hwrap, hroomy⟩ :=
      hc (by simpa using fun e => hvalid (.inl e)) (Nat.le_of_not_lt fun e => hvalid (.inr e))
    have hn : wrap (size + alignment + headerSize + (e q).canaryLen) =
        size + alignment + headerSize + (e q).canaryLen :=
      Nat.mod_eq_of_lt hwrap
    have h8 : 8 ≤ alignment := Nat.le_of_not_lt fun e => hvalid (.inr e)
    unfold World.allocInternal
    obtain ⟨hy, hpos, hmax⟩ := h.holds.slotFor (e := e) (q := q) he hs ht
    generalize wrap (size + alignment + headerSize + (e q).canaryLen) = n at *
    generalize w.slotFor e q n sup = r at hy hpos hroomy
    obtain ⟨w', _ | slot⟩ := r
    · exact hy.holds.inv
    · have hcls := hy.cls slot rfl
      have hroom := Takes.room hy.holds.inv.laid hcls hmax
      have hb := IsSlot.bounds hy.holds.inv.laid (hy.holds.inv.hand slot List.mem_cons_self).1
      have hup := alignUp_bounds (slot + headerSize) alignment (by omega) (by
        unfold headerSize slabPageSize at *
        omega)
      dsimp only
      rw [classIndex_default (he q) (hpos nofun) hmax]
      refine hy.holds.moved hcls (Nat.lt_of_le_of_lt hmax (by decide)) hroom
        (fun hcan => hroomy hcan slot rfl) ?_ ?_ _
      · omega
      · unfold headerSize at *
        omega

theorem Inv.alloc (h : Inv [] w) (he : Plain e) (hs : sup.Ok)
    (ht : (e q).tierOf ((e q).chargeOf size) = .slab)
    (hw : (e q).cacheAligned = true → size + 64 + headerSize + (e q).canaryLen < 2 ^ 64)
    (hc : Roomy e q ((e q).chargeOf size) (w.slotFor e q ((e q).chargeOf size) sup)) :
    Inv [] (w.alloc e q size sup) := by
  unfold World.alloc
  unfold Config.chargeOf at ht hc
  split
  · rename_i hca
    rw [if_pos hca] at ht hc
    exact h.alignedAlloc he hs ht fun _ _ => ⟨hw hca, hc⟩
  · rename_i hca
    rw [if_neg hca] at ht hc
    unfold World.allocInternal
    obtain ⟨hy, hpos, hmax⟩ := h.holds.slotFor (e := e) (q := q) he hs ht
    generalize w.slotFor e q size sup = r at hy hpos hc
    obtain ⟨w', _ | slot⟩ := r
    · exact hy.holds.inv
    · have hcls := hy.cls slot rfl
      dsimp only
      rw [classIndex_default (he q) (hpos nofun) hmax]
      exact hy.holds.stamped hcls (Nat.lt_of_le_of_lt hmax (by decide))
        (Takes.room hy.holds.inv.laid hcls hmax)
        (fun hcan => hc hcan slot rfl) _

theorem Inv.allocFast (h : Inv [] w) (hh : w.Hits size)
    (hc : Roomy e q size (w.pop (.cache (sizeToClass size)))) :
    Inv [] (w.allocFast e q size sup) := by
  unfold World.allocFast
  rw [if_pos hh]
  have hy :=
    h.holds.pop (.cache (sizeToClass size)) (sizeToClass size) fun s hs => (h.takes _ s hs).2
  generalize w.pop (.cache (sizeToClass size)) = r at hy hc
  obtain ⟨w', _ | slot⟩ := r
  · exact hy.holds.inv
  · have hcls := hy.cls slot rfl
    exact hy.holds.stamped hcls (Nat.lt_of_le_of_lt hh.2.1 (by decide))
      (Takes.room hy.holds.inv.laid hcls hh.2.1)
      (fun hcan => hc hcan slot rfl) _

end Alloc

/-! ## Freeing -/

section Free
variable {e : Nat → PoolCfg} {w w' : World} {b : Given} {sp : Spot} {q cpu pool s : Nat}
  {hand : List Nat}

theorem Chain.link {m : Bytes} {l : List Nat} (h : Chain m l) (hs : s ∈ l) :
    m.le s 8 = 0 ∨ m.le s 8 ∈ l := by
  induction l with
  | nil => cases hs
  | cons a l ih =>
    rcases List.mem_cons.mp hs with rfl | hs
    · rw [h.1]
      cases l with
      | nil => exact .inl rfl
      | cons b l => exact .inr (by simp)
    · exact (ih h.2 hs).imp id (List.mem_cons_of_mem _)

/-- A free slot begins with a link. -/
theorem Inv.link (h : Inv hand w) (hs : s ∈ w.free sp) : (w.mem s).toNat % 8 = 0 := by
  have hbyte : w.mem.le s 8 % 256 = (w.mem s).toNat := Bytes.le_succ_mod w.mem s 7
  have hlink : w.mem.le s 8 % 8 = 0 := by
    rcases (h.chain sp).link hs with he | hm
    · rw [he]
    · exact (IsSlot.bounds h.laid (h.takes sp _ hm).1).2.1
  omega

/-- A block whose slot is free again was freed. -/
theorem Inv.buried (h : Inv [] w) (hb : b ∈ w.live) (h' : Inv [] w') (hl : w'.live = w.live.erase b)
    (hp : w'.pages = w.pages)
    (hs : b.slot ∈ w'.free sp) (hm : ∀ i, w'.mem i ≠ w.mem i → b.slot ≤ i ∧ i < b.slot + 32) :
    Inv [] { w' with freed := b :: w'.freed } := by
  obtain ⟨hok, hst, -, -⟩ := h.live b hb
  refine h'.mourn (hok.congr hp) ⟨fun _ => h'.link hs, fun ha => ?_⟩ fun c hc he => ?_
  · have hge := hok.moved ha
    have hhead : header w'.mem b.ptr = header w.mem b.ptr := by
      refine header_congr (Nat.le_trans (Nat.le_add_left _ _) hok.ptr_ge) fun i h1 _ => ?_
      by_contra hne
      have := hm i hne
      unfold headerSize at *
      omega
    rw [hhead]
    exact ⟨hst.type, hst.raw⟩
  · rw [hl] at hc
    obtain rfl := List.inj_on_of_nodup_map h.apart (List.mem_of_mem_erase hc) hb he
    exact List.Nodup.not_mem_erase (List.Nodup.of_map _ h.apart) hc

theorem Inv.pushed (h : Inv [] w) (hb : b ∈ w.live) (sp : Spot) (ht : sp.Takes w b.slot) :
    Inv [] ((w.push sp b.slot).bury b) := by
  have hu : Holds (w.live.erase b) w.freed [b.slot] { w with live := w.live.erase b } :=
    ⟨h.unlive hb, rfl, rfl⟩
  have ht' : sp.Takes { w with live := w.live.erase b } b.slot := by
    cases sp <;> exact ht
  have hs : b.slot ∈ (w.push sp b.slot).free sp := by
    show b.slot ∈ Function.update w.free sp (b.slot :: w.free sp) sp
    rw [Function.update_self]
    exact List.mem_cons_self
  refine h.buried hb (hu.push ht').inv rfl rfl hs fun i hi => ?_
  by_contra hc
  exact hi (Bytes.store_apart (by unfold Bytes.Apart; omega))

theorem Inv.returned (h : Inv [] w) (hb : b ∈ w.live) (q : Nat) :
    Inv [] ((w.slabFree e q b.slot).bury b) := by
  have hpush := h.pushed hb (.page (b.slot / slabPageSize)) rfl
  unfold World.slabFree
  dsimp only
  split
  · exact hpush.publish (b.slot / slabPageSize)
  · exact hpush

theorem Inv.place (h : Inv [] w) (hb : b ∈ w.live) (q cpu : Nat) :
    Inv []
      ((w.place e q cpu (header w.mem b.ptr).slabClass (header w.mem b.ptr).rawBase).bury b) := by
  obtain ⟨hok, hst, -, -⟩ := h.live b hb
  have ht : (Spot.cache (header w.mem b.ptr).slabClass).Takes w b.slot := by
    obtain ⟨p, hp, -⟩ := hok.slot
    exact ⟨p, hp, (hst.cls p hp).symm⟩
  rw [hst.raw]
  unfold World.place
  split
  · exact h.pushed hb (.cache _) ht
  · split
    · exact h.pushed hb (.percpu ..) ht
    · split
      · exact h.pushed hb (.remote ..) ht
      · exact h.returned hb q

theorem Inv.free (h : Inv [] w) (hb : b ∈ w.live) (pool cpu : Nat) :
    Inv [] ((w.mpFree e pool cpu b.ptr).bury b) := by
  obtain ⟨-, hst, -, -⟩ := h.live b hb
  unfold World.mpFree
  dsimp only
  rw [if_neg (by rw [hst.magic, hst.type]; simp)]
  generalize (if (header w.mem b.ptr).subpool = 0 then pool else (header w.mem b.ptr).subpool) = q
  have hpoison : Holds w.live w.freed []
      (if (e q).poison then { w with mem := w.mem.fill b.ptr (header w.mem b.ptr).requested 0xDD }
        else w) := by
    split
    · refine ⟨h.poke fun i hi => .inr ⟨b, hb, ?_⟩, rfl, rfl⟩
      rw [hst.requested] at hi
      by_contra hc
      exact hi (Bytes.fill_apart (by unfold Bytes.Apart; omega))
    · exact h.holds
  have hown := hpoison.validateOwner (e := e) q
  generalize World.validateOwner e (if (e q).poison then _ else w) q = w' at hown
  exact hown.inv.place (hown.live ▸ hb) q cpu

theorem Inv.freeFast (h : Inv [] w) (hb : b ∈ w.live) (pool cpu : Nat) :
    Inv [] ((w.mpFreeFast e pool cpu b.ptr).bury b) := by
  obtain ⟨hok, hst, -, -⟩ := h.live b hb
  unfold World.mpFreeFast
  dsimp only
  split
  · obtain ⟨p, hp, -⟩ := hok.slot
    rw [hst.raw]
    exact h.pushed hb (.cache _) ⟨p, hp, (hst.cls p hp).symm⟩
  · exact h.free hb pool cpu

end Free

/-! ## Runs -/

section Run
variable {e : Nat → PoolCfg} {w : World} {b : Given}

/-- The eight bytes at `a` are of no page. -/
def World.Off (w : World) (a : Nat) : Prop :=
  w.pages (a / slabPageSize) = none ∧ w.pages ((a + 7) / slabPageSize) = none

/-- A request whose size does not wrap and whose canary has room. -/
def World.AllocContained (e : Nat → PoolCfg) (w : World) (q size : Nat) (sup : Supply) : Prop :=
  ((e q).cacheAligned = true → size + 64 + headerSize + (e q).canaryLen < 2 ^ 64) ∧
    Roomy e q ((e q).chargeOf size) (w.slotFor e q ((e q).chargeOf size) sup)

/-- Every write of an operation stays in its slot. -/
def World.Contained (e : Nat → PoolCfg) (w : World) : Act → Prop
  | .alloc q size sup => w.AllocContained e q size sup
  | .alignedAlloc q alignment size sup =>
    isPow2 alignment = true → 8 ≤ alignment →
    size + alignment + headerSize + (e q).canaryLen < 2 ^ 64 ∧
      Roomy e q (wrap (size + alignment + headerSize + (e q).canaryLen))
        (w.slotFor e q (wrap (size + alignment + headerSize + (e q).canaryLen)) sup)
  | .allocFast q size sup =>
    if w.Hits size then Roomy e q size (w.pop (.cache (sizeToClass size)))
    else w.AllocContained e q size sup
  | .relink prev next _ => (prev ≠ 0 → w.Off (prev + 144)) ∧ (next ≠ 0 → w.Off (next + 136))
  | _ => True

theorem off_page {a i v : Nat} {m : Bytes} (h : w.Off a) (hi : m.store a 8 v i ≠ m i) :
    w.pages (i / slabPageSize) = none := by
  have hin : a ≤ i ∧ i < a + 8 := by
    by_contra hc
    exact hi (Bytes.store_apart (by unfold Bytes.Apart; omega))
  obtain ⟨h1, h2⟩ := h
  have hcases :
    i / slabPageSize = a / slabPageSize ∨ i / slabPageSize = (a + 7) / slabPageSize := by
    unfold slabPageSize
    omega
  rcases hcases with hp | hp <;> rw [hp]
  · exact h1
  · exact h2

/-- **One step** keeps the invariant. -/
theorem Inv.step (h : Inv [] w) (he : Plain e) {l : Act} (hp : World.pre e w l)
    (hc : w.Contained e l) : Inv [] (World.next e w l) := by
  cases l with
  | alloc q size sup => exact h.alloc he hp.2.1 hp.2.2 hc.1 hc.2
  | alignedAlloc q alignment size sup => exact h.alignedAlloc he hp.2.2.1 hp.2.2.2 hc
  | allocFast q size sup =>
    unfold World.Contained at hc
    dsimp only at hc
    by_cases hh : w.Hits size
    · rw [if_pos hh] at hc
      exact h.allocFast hh hc
    · rw [if_neg hh] at hc
      show Inv [] (w.allocFast e q size sup)
      unfold World.allocFast
      rw [if_neg hh]
      exact h.alloc he hp.2.1 (hp.2.2.resolve_left hh) hc.1 hc.2
  | free pool cpu b => exact h.free hp pool cpu
  | freeFast pool cpu b => exact h.freeFast hp pool cpu
  | turn q => exact (h.holds.validateOwner q).inv
  | relink prev next moved =>
    refine h.poke fun i hi => .inl ?_
    obtain ⟨h1, h2⟩ := hc
    by_cases hprev : prev = 0
    · by_cases hnext : next = 0
      · simp [hprev, hnext] at hi
      · simp only [hprev, hnext, if_true, if_false] at hi
        exact off_page (h2 hnext) hi
    · by_cases hnext : next = 0
      · simp only [hprev, hnext, if_true, if_false] at hi
        exact off_page (h1 hprev) hi
      · simp only [hprev, hnext, if_false] at hi
        by_cases hfirst : w.mem.store (prev + 144) 8 moved i = w.mem i
        · exact off_page (h2 hnext) (hfirst ▸ hi)
        · exact off_page (h1 hprev) hfirst
  | write i x =>
    refine h.poke fun j hj => ?_
    have : j = i := by
      by_contra hc
      exact hj (Bytes.fill_apart (by unfold Bytes.Apart; omega))
    exact this ▸ hp

theorem inv_contained (e : Nat → PoolCfg) : ((World.system e).guard (World.Contained e)).Inductive
    fun w => (∀ q, (e q).fastPath = true ∧ (e q).customClasses = none) ∧ Inv [] w where
  init w h := by
    obtain ⟨he, m, rfl⟩ := h
    refine ⟨he, nofun, nofun, fun s hs => ?_, nofun, fun _ => List.nodup_nil, nofun,
      fun _ => trivial, List.nodup_nil, nofun,
      nofun, List.nodup_nil, nofun⟩
    obtain ⟨p, hp, -⟩ := hs
    cases hp
  step w l w' h hs := by
    obtain ⟨⟨hpre, rfl⟩, hc⟩ := hs
    exact ⟨h.1, h.2.step (fun q => (h.1 q).2) hpre hc⟩

/-! ## What `mp_ptr_valid` says -/

theorem walk_chain {m : Bytes} {l : List Nat} {x : Nat} (h : Chain m l) (hx : x ∉ l) (k : Nat) :
    walk m x (l.headD 0) k = false := by
  induction k generalizing l with
  | zero => rfl
  | succ k ih =>
    cases l with
    | nil => rfl
    | cons a l =>
      rw [List.headD_cons, walk]
      split
      · rfl
      · rw [if_neg fun he : a = x => hx (he ▸ List.mem_cons_self), h.1]
        exact ih h.2 fun hm => hx (List.mem_cons_of_mem _ hm)

/-- A live block that was not moved is valid. -/
theorem ptrValid_plain (h : Inv [] w) (hb : b ∈ w.live) (ha : b.aligned = false) :
    w.ptrValid b.ptr = true := by
  obtain ⟨hok, hst, -, hfree⟩ := h.live b hb
  have hptr := hok.plain ha
  have hbd := IsSlot.bounds h.laid hok.slot
  obtain ⟨p, hp, hm⟩ := hok.slot
  have hlaid := h.laid _ _ hp
  have hin := (hlaid.slot hm).1
  have hpage : b.ptr / slabPageSize = b.slot / slabPageSize := by
    rw [hptr]
    unfold slabPageSize headerSize at *
    omega
  have hoff : ¬ b.ptr - b.slot / slabPageSize * slabPageSize ≤ pageHeader := by
    rw [hptr]
    unfold slabPageSize headerSize pageHeader at *
    omega
  have hraw : b.ptr - headerSize = b.slot := by rw [hptr, Nat.add_sub_cancel]
  have hwalk :=
    walk_chain (h.chain (.page (b.slot / slabPageSize))) (hfree (.page (b.slot / slabPageSize)))
    (w.pageFreeCount (b.slot / slabPageSize))
  have hcls := hlaid.cls
  have htotal := hlaid.total
  have hcount := h.count _ _ hp
  unfold World.ptrValid World.fastpathSlotLive
  simp only [hst.magic, hst.type, hst.raw, hst.cls p hp, hraw, hpage, hp, hwalk]
  have hne : b.ptr ≠ 0 := by
    rw [hptr]
    unfold headerSize
    omega
  simp [hne, hoff, Nat.not_le.mpr hcls, Nat.ne_of_gt htotal, Nat.not_lt.mpr hcount]

/-- A header that was moved does not lie at its slot. -/
theorem ptrValid_moved (hok : GivenOk w b) (ha : b.aligned = true)
    (ht : (header w.mem b.ptr).allocType = typeSlab) (hr : (header w.mem b.ptr).rawBase = b.slot) :
    w.ptrValid b.ptr = false := by
  have hne : b.slot ≠ b.ptr - headerSize := by
    have := hok.moved ha
    unfold headerSize at *
    omega
  unfold World.ptrValid World.fastpathSlotLive
  simp [ht, hr, hne]

theorem ptrValid_freed (h : Inv [] w) (hb : b ∈ w.freed) : w.ptrValid b.ptr = false := by
  obtain ⟨hok, hdead, -⟩ := h.freed b hb
  cases ha : b.aligned with
  | true => exact ptrValid_moved hok ha (hdead.moved ha).1 (hdead.moved ha).2
  | false =>
    have hlink := hdead.plain ha
    have hbyte : w.mem.le b.slot 4 % 256 = (w.mem b.slot).toNat := Bytes.le_succ_mod w.mem b.slot 3
    have hmagic : (header w.mem b.ptr).magic ≠ magicHead := by
      show w.mem.le (b.ptr - headerSize) 4 ≠ magicHead
      rw [hok.plain ha, Nat.add_sub_cancel]
      unfold magicHead
      omega
    unfold World.ptrValid
    simp [hmagic]

/-- Live is what `mp_ptr_valid` takes for live. -/
def World.Exact (w : World) : Prop :=
  (∀ b ∈ w.live, w.ptrValid b.ptr = true) ∧ ∀ b ∈ w.freed, w.ptrValid b.ptr = false

/-- **Liveness on the fast path.** In every run whose writes stay in their slots,
`mp_ptr_valid` is exact in those states where no live block is one of `mp_aligned_alloc`. -/
theorem fastpath_live_exact (hr : ((World.system e).guard (World.Contained e)).Reachable w) :
    w.Exact ↔ ∀ b ∈ w.live, b.aligned = false := by
  obtain ⟨-, h⟩ := (inv_contained e).reachable hr
  refine ⟨fun hx b hb => ?_, fun hall => ⟨fun b hb => ptrValid_plain h hb (hall b hb),
    fun b hb => ptrValid_freed h hb⟩⟩
  cases ha : b.aligned with
  | false => rfl
  | true =>
    have hst := (h.live b hb).2.1
    have hno := ptrValid_moved (h.live b hb).1 ha hst.type hst.raw
    rw [hx.1 b hb] at hno
    cases hno

instance decOk (sup : Supply) : Decidable sup.Ok :=
  inferInstanceAs (Decidable (∀ n ∈ sup.refill ++ sup.drain ++ sup.last.toList, 0 < n ∧ n < 2 ^ 48))

instance decPre (e : Nat → PoolCfg) (w : World) (l : Act) : Decidable (World.pre e w l) := by
  unfold World.pre; cases l <;> exact inferInstance

instance decAllocContained (e : Nat → PoolCfg) (w : World) (q size : Nat) (sup : Supply) :
    Decidable (w.AllocContained e q size sup) := by
  unfold World.AllocContained; exact inferInstance

instance decContained (e : Nat → PoolCfg) (w : World) (l : Act) : Decidable (w.Contained e l) := by
  unfold World.Contained World.Off; cases l <;> exact inferInstance

/-- Pools with FAST_PATH and nothing else. -/
def fastPools (_ : Nat) : PoolCfg :=
  { Pool.plain with fastPath := true, zeroOnAlloc := false, poison := false, numCpus := 1 }

/-- Two blocks of one page; the first is freed, its slot goes to another pool, and the second
is freed. -/
def twoSlots : List Act :=
  [.alloc 7 384 ⟨false, 0, [], [1, 1], none⟩, .alloc 7 300 ⟨false, 0, [1], [], none⟩,
    .free 7 0 ⟨66296, 66144, 384, false⟩,
    .allocFast 9 310 ⟨false, 0, [], [], none⟩, .freeFast 7 0 ⟨65760, 65608, 300, false⟩]

theorem fastpath_live_exact_slots :
    (twoSlots.foldl (World.next fastPools) (World.start fun _ => 0)).Exact := by
  have hr : ((World.system fastPools).guard (World.Contained fastPools)).Reachable
      (twoSlots.foldl (World.next fastPools) (World.start fun _ => 0)) :=
    LTS.Reachable.run (.init ⟨fun _ => ⟨rfl, rfl⟩, _, rfl⟩) (by decide +kernel)
  exact (fastpath_live_exact hr).mpr (by decide +kernel)

/-- **Defect.** A live slab block of `mp_aligned_alloc` is no valid pointer. -/
theorem aligned_slot_invalid :
    ∃ w, (World.system fastPools).Reachable w ∧ ∃ b ∈ w.live, w.ptrValid b.ptr = false := by
  have hr : ((World.system fastPools).guard (World.Contained fastPools)).Reachable
      ([Act.alignedAlloc 7 64 100 ⟨false, 0, [], [1], none⟩].foldl (World.next fastPools)
        (World.start fun _ => 0)) :=
    LTS.Reachable.run (.init ⟨fun _ => ⟨rfl, rfl⟩, _, rfl⟩) (by decide +kernel)
  have hb : (⟨65920, 65608, 100, true⟩ : Given) ∈
      ([Act.alignedAlloc 7 64 100 ⟨false, 0, [], [1], none⟩].foldl
        (World.next fastPools) (World.start fun _ => 0)).live := by
    decide +kernel
  obtain ⟨hok, hst, -⟩ := ((inv_contained _).reachable hr).2.live _ hb
  exact ⟨_, hr.of_guard, _, hb, ptrValid_moved hok rfl hst.type hst.raw⟩

end Run

end Cmem.L3.SlotLive

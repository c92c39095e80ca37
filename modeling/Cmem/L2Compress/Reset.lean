import Cmem.L2Compress.Refine

/-!
# Compressed handles and `mp_reset`

The compression area is a block that `mp_alloc` gave. `mp_reset`
(src/src/cmem_lifecycle.c:127-212) lays out the slab pages and the TLSF areas anew, so
every block in them is free again; it leaves the `compressed_*` fields, the memory of
the system, the emergency buffer, which stays in use, and the private arenas of
threads. Above `TLSF_MAX_SIZE` the memory comes from the system, or is the emergency
buffer.

The store of `Cmem.L2Compress.Store` runs on, with the blocks that `mp_reset` does not
reach, the blocks of the caller, and the handles with the bytes they were issued for.
-/
namespace Cmem.L2.Compress

/-- `SLAB_MAX_SIZE` and `TLSF_MAX_SIZE`, src/src/cmem_internal.h:187-197. -/
def slabMaxSize : Nat := 512

def tlsfMaxSize : Nat := 4 * 1024 * 1024

structure Pooled where
  sys : Sys
  /-- The live blocks that `mp_reset` does not reach. -/
  fixed : List Nat
  /-- The blocks handed out and neither freed nor ended by `mp_reset`. -/
  mine : List (Nat × Nat)
  /-- The blocks the TLSF tier has ever handed out: their memory stays in its areas. -/
  tlsf : List (Nat × Nat)
  issued : List (Nat × List UInt8)

/-- mirrors `mp_reset`, src/src/cmem_lifecycle.c:127-212: what is not fixed is free, and may
be written -/
def Heap.reset (h : Heap) (fixed : List Nat) (junk : Buf) : Heap :=
  { h with live := h.live.filter fun b => b.1 ∈ fixed }.havoc junk

inductive PoolAct where
  /-- `fix`: a block allocated by the operation is out of reach of `mp_reset`. -/
  | store (l : Act) (fix : Bool)
  | reset (junk : Buf)

/-- The operation hands out a block. -/
def Act.hands : Act → Bool
  | .alloc .. | .decompress .. => true
  | _ => false

/-- The size `mp_alloc` is asked for. -/
def Sys.asked (s : Sys) : Act → Nat
  | .compress _ _ _ => if s.pool.area = none then areaWant s.pool.budget else 0
  | .decompress handle _ _ _ =>
    ((s.pool.lookup handle).map fun slot => (s.pool.entries slot).originalSize).getD 0
  | .setBudget maxBytes _ => if s.pool.area = none then areaWant maxBytes else 0
  | .alloc size _ _ => size
  | _ => 0

/-- The caller uses blocks of its own. -/
def Pooled.Owns (s : Pooled) : Act → Prop
  | .compress data _ _ => data = 0 ∨ ∃ b ∈ s.mine, b.1 = data
  | .free p _ => ∃ b ∈ s.mine, b.1 = p
  | .write i _ => ∃ b ∈ s.mine, b.1 ≤ i ∧ i < b.1 + b.2
  | _ => True

/-- What `mp_alloc` answers. -/
def Act.answer : Act → Option Nat
  | .compress _ _ e | .setBudget _ e => e.area
  | .decompress _ ans _ _ | .alloc _ ans _ => ans
  | _ => none

/-- A small request is served from a slab page, src/src/cmem_alloc.c:200, which no area of the
TLSF tier contains. -/
def Pooled.Paged (s : Pooled) (l : Act) : Prop :=
  0 < s.sys.asked l → s.sys.asked l ≤ slabMaxSize →
  ∀ a ∈ l.answer, ∀ b ∈ s.tlsf, Apart a (s.sys.asked l) b.1 b.2

def Pooled.pre (s : Pooled) : PoolAct → Prop
  | .store l fix => s.sys.pre l ∧ s.Owns l ∧ s.Paged l ∧ (tlsfMaxSize < s.sys.asked l → fix = true)
  | .reset _ => True

def Heap.bases (h : Heap) : List Nat := h.live.map (·.1)

/-- The handle an operation issues, with its bytes. -/
def Sys.issue (s : Sys) : Act → List (Nat × List UInt8)
  | .compress data size e =>
    let handle := (mpCompressBlock s.pool s.heap data size e).handle
    if handle ≠ 0 then [(handle, slice s.heap.mem data size)] else []
  | _ => []

def Pooled.step (s : Pooled) : PoolAct → Pooled
  | .store l fix =>
    let heap := (s.sys.step l).heap
    let new := heap.live.filter fun b => b.1 ∉ s.sys.heap.bases
    { sys := s.sys.step l
      fixed := heap.bases.filter fun a => if a ∈ s.sys.heap.bases then a ∈ s.fixed else fix
      mine := (if l.hands then new else []) ++ s.mine.filter (· ∈ heap.live)
      tlsf := (if fix then [] else new.filter (slabMaxSize < ·.2)) ++ s.tlsf
      issued := s.sys.issue l ++ s.issued }
  | .reset junk =>
    { s with sys := { s.sys with heap := s.sys.heap.reset s.fixed junk }, mine := [] }

/-- `mp_reset` does not reach the area, and no entry of the table is stored to
`2 ^ 31` times. -/
def Settled (s : Pooled) : PoolAct → Prop
  | .store (.compress _ _ _) _ => ∀ i, stores s.sys.returned i + 1 < 2 ^ 31
  | .reset _ => ∀ a ∈ s.sys.pool.area, a ∈ s.fixed
  | _ => True

/-- The handle is rejected, or decompresses to `bs`. -/
def Pooled.Honours (s : Pooled) (handle : Nat) (bs : List UInt8) : Prop :=
  ∀ ans junk undo, s.sys.pre (.decompress handle ans junk undo) →
    ∀ out, (mpDecompressBlock s.sys.pool s.sys.heap handle ans junk undo).2 = some out →
      slice (mpDecompressBlock s.sys.pool s.sys.heap handle ans junk undo).1.mem out bs.length = bs

/-- Every handle issued is honoured, and the area meets no block of the caller. -/
structure Pooled.Holds (s : Pooled) : Prop where
  handles : ∀ k bs, (k, bs) ∈ s.issued → s.Honours k bs
  apart : ∀ a ∈ s.sys.pool.area, ∀ b ∈ s.mine, Apart a s.sys.pool.areaSize b.1 b.2

/-! ## The invariant -/

structure Pooled.Inv (s : Pooled) : Prop where
  few : FewStores s.sys.returned
  ok : Ok s.sys.pool s.sys.heap s.sys.stored s.sys.returned
  mine : ∀ b ∈ s.mine, b ∈ s.sys.heap.live ∧ s.sys.pool.area ≠ some b.1
  keys : s.issued.map (·.1) = s.sys.returned
  fresh : s.sys.returned.Nodup
  stored : ∀ k bs, s.sys.stored k = some bs → (k, bs) ∈ s.issued

section Inv
variable {s : Pooled} {l : Act} {fix : Bool} {junk : Buf}

theorem mem_issued_unique {issued : List (Nat × List UInt8)} (hn : (issued.map (·.1)).Nodup)
    {k : Nat} {bs bs' : List UInt8} (h : (k, bs) ∈ issued) (h' : (k, bs') ∈ issued) : bs = bs' := by
  induction issued with
  | nil => cases h
  | cons x l ih =>
    rw [List.map_cons, List.nodup_cons] at hn
    have hno : ∀ {c : List UInt8}, (k, c) ∈ l → x.1 ≠ k :=
      fun hc e => hn.1 (e ▸ List.mem_map_of_mem hc)
    rcases List.mem_cons.mp h with e | hl <;> rcases List.mem_cons.mp h' with e' | hl'
    · exact congrArg Prod.snd (e.trans e'.symm)
    · exact absurd (congrArg Prod.fst e).symm (hno hl')
    · exact absurd (congrArg Prod.fst e').symm (hno hl)
    · exact ih hn.2 hl hl'

theorem Pooled.Inv.holds (h : s.Inv) : s.Holds where
  handles k bs hk ans junk undo hp out hout := by
    obtain ⟨-, hnone, hsome⟩ := mpDecompressBlock_spec junk undo h.ok h.few hp
    cases hs : s.sys.stored k with
    | none =>
      rw [hnone hs] at hout
      cases hout
    | some bs' =>
      obtain rfl := mem_issued_unique (by rw [h.keys]; exact h.fresh) hk (h.stored k bs' hs)
      cases ans with
      | none =>
        have hno : (mpDecompressBlock s.sys.pool s.sys.heap k none junk undo).2 = none := by
          unfold mpDecompressBlock
          split <;> rfl
        exact absurd (hno.symm.trans hout) nofun
      | some a =>
        obtain ⟨h1, h2⟩ := hsome bs a hs rfl
        obtain rfl := Option.some.inj (h1.symm.trans hout)
        exact h2
  apart a ha b hb := by
    obtain ⟨hl, hne⟩ := h.mine b hb
    exact h.ok.wf.other (h.ok.area a ha) hl fun e => hne (e ▸ ha)

/-- The area is not reached. -/
theorem Pooled.Inv.reset (h : s.Inv) (hs : Settled s (.reset junk)) :
    (s.step (.reset junk)).Inv := by
  have hmem : ∀ a, s.sys.pool.area = some a →
      (a, s.sys.pool.areaSize) ∈ s.sys.heap.live.filter fun b => b.1 ∈ s.fixed := fun a ha =>
    List.mem_filter.mpr ⟨h.ok.area a ha, decide_eq_true (hs a ha)⟩
  refine ⟨h.few, h.ok.keeps (List.Pairwise.filter _ h.ok.wf) fun a ha =>
    ⟨hmem a ha, fun j hj => ?_⟩, nofun, h.keys, h.fresh, h.stored⟩
  exact havoc_mem (h := { s.sys.heap with live := s.sys.heap.live.filter fun b => b.1 ∈ s.fixed })
    (hmem a ha)
    (by omega) (by simp only at hj ⊢; omega)

theorem evictOldest_area (p : Pool) : (evictOldest p).1.area = p.area := by
  unfold evictOldest
  split <;> rfl

theorem makeRoom_area (clen fuel : Nat) : ∀ p : Pool, (makeRoom clen fuel p).1.area = p.area := by
  induction fuel with
  | zero => exact fun _ => rfl
  | succ fuel ih =>
    intro p
    unfold makeRoom
    split
    · simp only
      split
      · exact evictOldest_area p
      · exact (ih _).trans (evictOldest_area p)
    · rfl

theorem place_area (p : Pool) (h : Heap) (area data size clen : Nat) (scratch junk : Buf) :
    (place p h area data size clen scratch junk).pool.area = p.area := by
  have hm := makeRoom_area clen (p.usedBytes + 1) p
  unfold place
  simp only
  split
  · split
    · exact hm
    · split <;> exact hm
  · exact hm

/-- The area is the old one, or a new block. -/
theorem mpCompressBlock_area (p : Pool) (h : Heap) (data size : Nat) (e : Env) :
    (mpCompressBlock p h data size e).pool.area = p.area ∨
      (mpCompressBlock p h data size e).pool.area = (ensureArea p h e).1.area := by
  unfold mpCompressBlock
  split
  · exact .inl rfl
  · refine .inr ?_
    generalize ensureArea p h e = m
    obtain ⟨p₁, h₁, ok⟩ := m
    simp only
    split
    · split
      · rfl
      · split
        · rfl
        · split
          · rfl
          · split
            · rfl
            · exact place_area ..
    · rfl

/-- The caller's blocks stay apart from the area. -/
theorem step_area {s : Sys} {l : Act} {b : Nat × Nat} (hk : Ok s.pool s.heap s.stored s.returned)
    (hp : s.pre l) (hb : b ∈ s.heap.live) (hne : s.pool.area ≠ some b.1) :
    (s.step l).pool.area ≠ some b.1 := by
  cases l with
  | compress data size e =>
    rcases mpCompressBlock_area s.pool s.heap data size e with h | h
    · exact fun e => hne (h ▸ e)
    · exact fun e' => (ensureArea_spec hk hp.2).2.2.2.2 b hb hne (h ▸ e')
  | freeCompressed handle =>
    have : (mpFreeCompressed s.pool handle).1.area = s.pool.area := by
      unfold mpFreeCompressed
      split <;> rfl
    exact fun e => hne (this ▸ e)
  | setBudget maxBytes e =>
    simp only [Sys.step, mpSetCompressedBudget]
    split
    · exact (ensureArea_spec (hk.budget maxBytes) hp).2.2.2.2 b hb hne
    · exact hne
  | decompress | alloc | free | write => exact hne

/-- A handed out block is new, and the area is not. -/
theorem hands_area {s : Sys} {l : Act} {b : Nat × Nat} (hk : Ok s.pool s.heap s.stored s.returned)
    (hl : l.hands = true) (hb : b.1 ∉ s.heap.bases) : (s.step l).pool.area ≠ some b.1 := by
  have hnew : s.pool.area ≠ some b.1 := fun e => hb (List.mem_map.mpr ⟨_, hk.area b.1 e, rfl⟩)
  cases l with
  | decompress | alloc => exact hnew
  | compress | freeCompressed | setBudget | free | write => cases hl

theorem Sys.issue_returned (s : Sys) (l : Act) :
    (s.step l).returned = (s.issue l).map (·.1) ++ s.returned := by
  cases l with
  | compress data size e =>
    simp only [Sys.step, Sys.issue]
    split <;> rfl
  | decompress | freeCompressed | setBudget | alloc | free | write => rfl

/-- What is stored afterwards was stored, or is issued. -/
theorem Sys.issue_stored {s : Sys} {l : Act} {k : Nat} {bs : List UInt8}
    (h : (s.step l).stored k = some bs) : (k, bs) ∈ s.issue l ∨ s.stored k = some bs := by
  cases l with
  | compress data size e =>
    simp only [Sys.step] at h
    split at h
    · rename_i hk
      obtain rfl := Option.some.inj h
      simp only [Sys.issue, if_pos hk.1, hk.2]
      exact .inl List.mem_cons_self
    · split at h
      · cases h
      · exact .inr h
  | freeCompressed handle =>
    simp only [Sys.step] at h
    split at h
    · by_cases hk : k = handle
      · rw [hk, Function.update_self] at h
        cases h
      · rw [Function.update_of_ne hk] at h
        exact .inr h
    · exact .inr h
  | decompress | setBudget | alloc | free | write => exact .inr h

theorem Pooled.Inv.store (h : s.Inv) (hp : s.pre (.store l fix)) (hs : Settled s (.store l fix)) :
    (s.step (.store l fix)).Inv := by
  obtain ⟨hpre, -⟩ := hp
  have hret := s.sys.issue_returned l
  -- the entries are stored to once more at most, by new handles
  have hissue : FewStores (s.sys.step l).returned ∧ ∀ x ∈ s.sys.issue l, x.1 ∉ s.sys.returned ∧
    s.sys.issue l = [x] := by
    cases l with
    | compress data size e =>
      obtain ⟨-, hn⟩ := h.ok.refines (l := .compress data size e) h.few hpre
      simp only [Sys.issue]
      split
      · rename_i h0
        have hfew :
          FewStores ((mpCompressBlock s.sys.pool s.sys.heap data size e).handle ::
            s.sys.returned) := fun i => by
          have := hs i
          unfold stores at this ⊢
          rw [List.map_cons, List.count_cons]
          split <;> omega
        refine ⟨by simp only [Sys.step]; rw [if_pos h0]; exact hfew, fun x hx => ?_⟩
        obtain rfl := List.mem_singleton.mp hx
        exact ⟨(hn h0 hfew).1, rfl⟩
      · rename_i h0
        exact ⟨by simp only [Sys.step]; rw [if_neg h0]; exact h.few,
          fun _ hx => absurd hx List.not_mem_nil⟩
    | decompress | freeCompressed | setBudget | alloc | free | write =>
      exact ⟨h.few, fun _ hx => absurd hx List.not_mem_nil⟩
  refine ⟨hissue.1, step_inv (fun _ => h.ok) hpre hissue.1, fun b hb => ?_, ?_, ?_,
    fun k bs hst => ?_⟩
  · rcases List.mem_append.mp hb with hb | hb
    · split at hb
      · rename_i hh
        obtain ⟨hl, hb⟩ := List.mem_filter.mp hb
        exact ⟨hl, hands_area h.ok hh (by simpa using hb)⟩
      · cases hb
    · obtain ⟨hm, hl⟩ := List.mem_filter.mp hb
      obtain ⟨hold, hne⟩ := h.mine b hm
      exact ⟨of_decide_eq_true hl, step_area h.ok hpre hold hne⟩
  · show (s.sys.issue l ++ s.issued).map (·.1) = (s.sys.step l).returned
    rw [List.map_append, h.keys, hret]
  · show (s.sys.step l).returned.Nodup
    rw [hret]
    cases hi : s.sys.issue l with
    | nil => exact h.fresh
    | cons x xs =>
      obtain ⟨hnew, hone⟩ := hissue.2 x (hi ▸ List.mem_cons_self)
      obtain rfl : xs = [] := by rw [hi] at hone; exact (List.cons.inj hone).2
      exact List.nodup_cons.mpr ⟨hnew, h.fresh⟩
  · rcases Sys.issue_stored hst with hst | hst
    · exact List.mem_append_left _ hst
    · exact List.mem_append_right _ (h.stored k bs hst)

end Inv

instance decOwns (s : Pooled) : (l : Act) → Decidable (s.Owns l)
  | .compress data _ _ => inferInstanceAs (Decidable (data = 0 ∨ ∃ b ∈ s.mine, b.1 = data))
  | .free p _ => inferInstanceAs (Decidable (∃ b ∈ s.mine, b.1 = p))
  | .write i _ => inferInstanceAs (Decidable (∃ b ∈ s.mine, b.1 ≤ i ∧ i < b.1 + b.2))
  | .decompress .. | .freeCompressed _ | .setBudget .. | .alloc .. => .isTrue trivial

instance decPaged (s : Pooled) (l : Act) : Decidable (s.Paged l) :=
  inferInstanceAs (Decidable (0 < s.sys.asked l → s.sys.asked l ≤ slabMaxSize →
    ∀ a ∈ l.answer, ∀ b ∈ s.tlsf, Apart a (s.sys.asked l) b.1 b.2))

instance decPoolPre (s : Pooled) : (l : PoolAct) → Decidable (s.pre l)
  | .store l fix =>
    inferInstanceAs (Decidable
      (s.sys.pre l ∧ s.Owns l ∧ s.Paged l ∧ (tlsfMaxSize < s.sys.asked l → fix = true)))
  | .reset _ => .isTrue trivial

/-- A block of 64 equal bytes is compressed into an area at `0x10000` of `budget` bytes, and
the pool is reset. -/
def resetRun (budget : Nat) (fix : Bool) : List PoolAct :=
  let e : Env := ⟨true, some 0x10000, true, some fun _ => 0, fun _ => 0, fun _ => 0, fun _ => 0⟩
  [.store (.setBudget budget e) fix, .store (.alloc 64 (some 0x1000) (fun _ => 97)) false,
    .store (.compress 0x1000 64 { e with area := none }) false, .reset fun _ => 0]

end Cmem.L2.Compress

import Mathlib
import Cmem.L2Compress.RoundTrip
import Cmem.L2Compress.Store

/-!
# The compressed store is a map

`Ok p h st r` says that the table `p` over the blocks `h` represents the map `st`
from handles to byte strings, when the handles `r` have been returned so far. Every
operation keeps it, as long as no entry has been stored to `2 ^ 31` times: until
then an entry never has the same generation twice.
-/
namespace Cmem.L2.Compress

/-! ## The heap -/

section Heap
variable {h h' h'' : Heap} {b c : Nat × Nat} {size p : Nat} {ans : Option Nat} {junk : Buf}

/-- The live blocks do not meet. -/
def Heap.Wf (h : Heap) : Prop := h.live.Pairwise fun b c => b.1 ≠ c.1 ∧ Apart b.1 b.2 c.1 c.2

/-- The block `b` is still there, with the same bytes. -/
def Heap.Keeps (h h' : Heap) (b : Nat × Nat) : Prop :=
  b ∈ h'.live ∧ ∀ j < b.2, h'.mem (b.1 + j) = h.mem (b.1 + j)

theorem Heap.Keeps.trans (h1 : h.Keeps h' b) (h2 : h'.Keeps h'' b) : h.Keeps h'' b :=
  ⟨h2.1, fun j hj => (h2.2 j hj).trans (h1.2 j hj)⟩

theorem Heap.Wf.other (hw : h.Wf) (hb : b ∈ h.live) (hc : c ∈ h.live) (hne : b.1 ≠ c.1) :
    Apart b.1 b.2 c.1 c.2 := by
  have hsymm : Std.Symm fun b c : Nat × Nat => b.1 ≠ c.1 ∧ Apart b.1 b.2 c.1 c.2 :=
    ⟨fun _ _ h => ⟨h.1.symm, h.2.symm⟩⟩
  exact (List.Pairwise.forall hw hb hc fun e => hne (by rw [e])).2

theorem havoc_mem {i : Nat} (hb : b ∈ h.live) (h1 : b.1 ≤ i) (h2 : i < b.1 + b.2) :
    (h.havoc junk).mem i = h.mem i := by
  refine if_pos (List.any_eq_true.mpr ⟨b, hb, ?_⟩)
  simp [h1, h2]

theorem havoc_keeps (hb : b ∈ h.live) : h.Keeps (h.havoc junk) b :=
  ⟨hb, fun _ hj => havoc_mem hb (by omega) (by omega)⟩

theorem mpAlloc_keeps (hb : b ∈ h.live) : h.Keeps (h.mpAlloc size ans junk) b := by
  cases ans with
  | none => exact havoc_keeps hb
  | some a => exact ⟨List.mem_cons_of_mem _ hb, (havoc_keeps hb).2⟩

theorem mpFree_keeps (hb : b ∈ h.live) (hne : b.1 ≠ p) : h.Keeps (h.mpFree p junk) b := by
  have hl : b ∈ h.live.filter fun b => b.1 ≠ p := List.mem_filter.mpr ⟨hb, by simpa using hne⟩
  exact ⟨hl,
    (havoc_keeps
      (h := { h with live := h.live.filter fun b => b.1 ≠ p, freed := p :: h.freed }) hl).2⟩

theorem Heap.Wf.mpAlloc (hw : h.Wf) (hg : h.Grants size ans) : (h.mpAlloc size ans junk).Wf := by
  cases ans with
  | none => exact hw
  | some a =>
    refine List.pairwise_cons.mpr ⟨fun b hb => ?_, hw⟩
    exact ⟨(hg.2.2 b hb).1.symm, (hg.2.2 b hb).2⟩

theorem Heap.Wf.mpFree (hw : h.Wf) : (h.mpFree p junk).Wf := List.Pairwise.filter _ hw

end Heap

/-! ## The table -/

def Entry.bytes (e : Entry) : Nat := if e.used then e.compSize else 0

/-- The used entries lie apart inside the area, and `compressed_used` adds them up. -/
structure Table (p : Pool) : Prop where
  inside : ∀ i < p.capacity, (p.entries i).used = true →
    0 < (p.entries i).compSize ∧ (p.entries i).compOffset + (p.entries i).compSize ≤ p.areaSize
  apart : ∀ i < p.capacity, ∀ j < p.capacity, i ≠ j → (p.entries i).used = true →
    (p.entries j).used = true →
    Apart (p.entries i).compOffset (p.entries i).compSize (p.entries j).compOffset
      (p.entries j).compSize
  sum : p.usedBytes = ∑ i ∈ Finset.range p.capacity, (p.entries i).bytes

/-- How often entry `i` has been stored to. -/
def stores (r : List Nat) (i : Nat) : Nat := (r.map (· / 2 ^ 32)).count i

def FewStores (r : List Nat) : Prop := ∀ i, stores r i < 2 ^ 31

/-- The area holds the bytes `bs`, coded, where the entry says. -/
def Entry.Holds (e : Entry) (mem : Buf) (area : Nat) (bs : List UInt8) : Prop :=
  ∃ src cs, Coded src e.originalSize 0 cs ∧ cs.length = e.compSize ∧
  At mem (area + e.compOffset) cs ∧
    bs = slice src 0 e.originalSize

structure Ok (p : Pool) (h : Heap) (st : Nat → Option (List UInt8)) (r : List Nat) : Prop where
  wf : h.Wf
  table : Table p
  empty : p.area = none → p.capacity = 0
  area : ∀ a, p.area = some a → (a, p.areaSize) ∈ h.live
  gen : ∀ i < p.capacity, (p.entries i).generation + (if (p.entries i).used then 1 else 0) =
    2 * stores r i
  returned : ∀ k ∈ r, ∃ i g, i < p.capacity ∧ k = handleOf i g ∧ g ≤ (p.entries i).generation
  stored : ∀ k bs, st k = some bs → ∃ i < p.capacity, (p.entries i).used = true ∧
    k = handleOf i (p.entries i).generation ∧ (p.entries i).Holds h.mem (p.area.getD 0) bs
  mapped : ∀ i < p.capacity, (p.entries i).used = true →
    st (handleOf i (p.entries i).generation) ≠ none

section Table
variable {p p' : Pool} {h h' : Heap} {st : Nat → Option (List UInt8)} {r : List Nat} {i k : Nat}

theorem sum_update (e : Nat → Entry) (x : Entry) {n j : Nat} (hj : j < n) :
    (∑ i ∈ Finset.range n, (Function.update e j x i).bytes) + (e j).bytes =
      (∑ i ∈ Finset.range n, (e i).bytes) + x.bytes := by
  have hm := Finset.mem_range.mpr hj
  rw [← Finset.add_sum_erase _ _ hm, ← Finset.add_sum_erase _ (fun i => (e i).bytes) hm,
    Function.update_self]
  have : ∑ i ∈ (Finset.range n).erase j, (Function.update e j x i).bytes =
      ∑ i ∈ (Finset.range n).erase j, (e i).bytes :=
    Finset.sum_congr rfl fun i hi => by rw [Function.update_of_ne (Finset.ne_of_mem_erase hi)]
  omega

theorem handleOf_div {g : Nat} (hg : g < 2 ^ 32) : handleOf i g / 2 ^ 32 = i := by
  unfold handleOf; omega

theorem handleOf_inj {j g g' : Nat} (hg : g < 2 ^ 32) (hg' : g' < 2 ^ 32)
    (he : handleOf i g = handleOf j g') : i = j ∧ g = g' := by
  unfold handleOf at he
  omega

theorem Ok.gen_lt (hk : Ok p h st r) (hf : FewStores r) (hi : i < p.capacity) :
    (p.entries i).generation < 2 ^ 32 := by
  have := hk.gen i hi
  have := hf i
  omega

theorem Ok.lookup_iff (hk : Ok p h st r) (hf : FewStores r) : p.lookup k = some i ↔
    i < p.capacity ∧ (p.entries i).used = true ∧ k = handleOf i (p.entries i).generation := by
  constructor
  · unfold Pool.lookup
    intro hl
    split at hl
    · cases hl
    · simp only at hl
      split at hl
      · cases hl
      · split at hl
        · rename_i h1 h2
          obtain rfl := Option.some.inj hl
          refine ⟨by omega, h2.1, ?_⟩
          rw [h2.2]; unfold handleOf; omega
        · cases hl
  · rintro ⟨hi, hu, rfl⟩
    have hg := hk.gen_lt hf hi
    have h2 := hk.gen i hi
    rw [hu] at h2
    simp only [if_true] at h2
    unfold Pool.lookup
    simp only [handleOf_div hg]
    rw [if_neg (by unfold handleOf; omega), if_neg (by omega),
      if_pos ⟨hu, by unfold handleOf; omega⟩]

/-- A handle is accepted exactly if it is mapped. -/
theorem Ok.lookup_none (hk : Ok p h st r) (hf : FewStores r) : p.lookup k = none ↔ st k = none := by
  constructor
  · intro hl
    by_contra hs
    obtain ⟨bs, hs⟩ := Option.ne_none_iff_exists'.mp hs
    obtain ⟨i, hi, hu, e, -⟩ := hk.stored k bs hs
    rw [(hk.lookup_iff hf).mpr ⟨hi, hu, e⟩] at hl
    cases hl
  · intro hs
    by_contra hl
    obtain ⟨i, hl⟩ := Option.ne_none_iff_exists'.mp hl
    obtain ⟨hi, hu, rfl⟩ := (hk.lookup_iff hf).mp hl
    exact hk.mapped i hi hu hs

/-- The blocks may change as long as the stored bytes do not. -/
theorem Ok.heap (hk : Ok p h st r) (hw : h'.Wf)
    (ha : ∀ a, p.area = some a → (a, p.areaSize) ∈ h'.live)
    (hag : ∀ a i, p.area = some a → i < p.capacity → (p.entries i).used = true →
    ∀ j < (p.entries i).compSize,
      h'.mem (a + (p.entries i).compOffset + j) = h.mem (a + (p.entries i).compOffset + j)) :
      Ok p h' st r where
  wf := hw
  table := hk.table
  empty := hk.empty
  area := ha
  gen := hk.gen
  returned := hk.returned
  mapped := hk.mapped
  stored k bs hs := by
    obtain ⟨i, hi, hu, e, src, cs, hc, hl, hat, hbs⟩ := hk.stored k bs hs
    refine ⟨i, hi, hu, e, src, cs, hc, hl, fun j hj => ?_, hbs⟩
    cases hp : p.area with
    | none => rw [hk.empty hp] at hi; omega
    | some a =>
      rw [hp] at hat
      rw [Option.getD_some, hag a i hp hi hu j (by omega)]
      exact hat j hj

/-- So they may if the area is kept. -/
theorem Ok.keeps (hk : Ok p h st r) (hw : h'.Wf)
    (ha : ∀ a, p.area = some a → h.Keeps h' (a, p.areaSize)) :
    Ok p h' st r := by
  refine hk.heap hw (fun a hp => (ha a hp).1) fun a i hp hi hu j hj => ?_
  rw [Nat.add_assoc]
  have := (hk.table.inside i hi hu).2
  exact (ha a hp).2 _ (by simp only; omega)

theorem Ok.budget (hk : Ok p h st r) (n : Nat) : Ok { p with budget := n } h st r where
  wf := hk.wf
  table := ⟨hk.table.inside, hk.table.apart, hk.table.sum⟩
  empty := hk.empty
  area := hk.area
  gen := hk.gen
  returned := hk.returned
  stored := hk.stored
  mapped := hk.mapped

/-- An entry leaves the table. -/
theorem Ok.drop (hk : Ok p h st r) (hf : FewStores r) (hi : i < p.capacity)
    (hu : (p.entries i).used = true) :
    Ok (p.drop i) h (Function.update st (handleOf i (p.entries i).generation) none) r where
  wf := hk.wf
  table := by
    have hat : ∀ j, ((p.drop i).entries j).used = true →
      j ≠ i ∧ (p.drop i).entries j = p.entries j := by
      intro j hj
      by_cases e : j = i
      · subst e
        simp [Pool.drop] at hj
      · exact ⟨e, Function.update_of_ne e _ _⟩
    refine ⟨fun j hj huj => ?_, fun j hj l hl hne huj hul => ?_, ?_⟩
    · obtain ⟨-, e⟩ := hat j huj
      rw [e] at huj ⊢
      exact hk.table.inside j hj huj
    · obtain ⟨-, e⟩ := hat j huj
      obtain ⟨-, e'⟩ := hat l hul
      rw [e] at huj ⊢
      rw [e'] at hul ⊢
      exact hk.table.apart j hj l hl hne huj hul
    · have hs := hk.table.sum
      have hb : (p.entries i).bytes = (p.entries i).compSize := if_pos hu
      have := sum_update p.entries
        { p.entries i with used := false, generation := ((p.entries i).generation + 1) % 2 ^ 32 } hi
      rw [show (Entry.bytes { p.entries i with used := false, generation := _ }) = 0 from rfl,
        hb, ← hs] at this
      exact Nat.sub_eq_of_eq_add this.symm
  empty := hk.empty
  area := hk.area
  gen j hj := by
    have hg := hk.gen j hj
    show (Function.update p.entries i _ j).generation +
      (if (Function.update p.entries i _ j).used then 1 else 0) = _
    by_cases e : j = i
    · subst e
      have := hf j
      rw [hu] at hg
      rw [Function.update_self]
      simp only [if_true, Bool.false_eq_true, if_false] at hg ⊢
      omega
    · rw [Function.update_of_ne e]
      exact hg
  returned k hkr := by
    obtain ⟨j, g, hj, e, hg⟩ := hk.returned k hkr
    refine ⟨j, g, hj, e, ?_⟩
    show g ≤ (Function.update p.entries i _ j).generation
    by_cases e : j = i
    · subst e
      have hgen := hk.gen j hj
      have := hf j
      rw [hu] at hgen
      rw [Function.update_self]
      simp only [if_true] at hgen ⊢
      omega
    · rw [Function.update_of_ne e]; exact hg
  stored k bs hs := by
    by_cases ek : k = handleOf i (p.entries i).generation
    · rw [ek, Function.update_self] at hs; cases hs
    · rw [Function.update_of_ne ek] at hs
      obtain ⟨j, hj, huj, e, hh⟩ := hk.stored k bs hs
      have hne : j ≠ i := fun e' => ek (by rw [e, e'])
      have he : (p.drop i).entries j = p.entries j := Function.update_of_ne hne _ _
      exact ⟨j, hj, by rw [he]; exact huj, by rw [he]; exact e, by rw [he]; exact hh⟩
  mapped j hj huj := by
    by_cases e : j = i
    · subst e
      simp [Pool.drop] at huj
    · have he : (p.drop i).entries j = p.entries j := Function.update_of_ne e _ _
      rw [he] at huj ⊢
      rw [Function.update_of_ne]
      · exact hk.mapped j hj huj
      · intro hh
        exact e (handleOf_inj (hk.gen_lt hf hj) (hk.gen_lt hf hi) hh).1

section Put
variable {slot size off clen : Nat}

theorem put_ne {j : Nat} (hj : j ≠ slot) :
    (p.put slot size off clen).entries j = p.entries j := Function.update_of_ne hj ..

/-- The range of a new entry is inside and meets no other one. -/
theorem Table.put (ht : Table p) (hs : slot < p.capacity) (hu : (p.entries slot).used = false)
    (hpos : 0 < clen) (hoff : off + clen ≤ p.areaSize)
    (hfree : ∀ i < p.capacity, (p.entries i).used = true →
      Apart off clen (p.entries i).compOffset (p.entries i).compSize) :
    Table (p.put slot size off clen) := by
  obtain ⟨e, he⟩ : ∃ e : Entry,
    e = ⟨size, off, clen, ((p.entries slot).generation + 1) % 2 ^ 32, p.seq, true⟩ := ⟨_, rfl⟩
  have hput : (p.put slot size off clen).entries = Function.update p.entries slot e := by
    rw [he]
    rfl
  have hself : (p.put slot size off clen).entries slot = e := by rw [hput, Function.update_self]
  refine ⟨fun j hj huj => ?_, fun j hj l hl' hne huj hul => ?_, ?_⟩
  · by_cases e1 : j = slot
    · rw [e1, hself, he]
      exact ⟨hpos, hoff⟩
    · rw [put_ne e1] at huj ⊢
      exact ht.inside j hj huj
  · by_cases e1 : j = slot
    · subst e1
      rw [put_ne (Ne.symm hne)] at hul ⊢
      rw [hself, he]
      exact hfree l hl' hul
    · rw [put_ne e1] at huj ⊢
      by_cases e2 : l = slot
      · rw [e2, hself, he]
        exact (hfree j hj huj).symm
      · rw [put_ne e2] at hul ⊢
        exact ht.apart j hj l hl' hne huj hul
  · have hsum := sum_update p.entries e hs
    rw [← ht.sum, show (p.entries slot).bytes = 0 by simp [Entry.bytes, hu],
      show e.bytes = clen by rw [he]; rfl, ← hput] at hsum
    exact hsum.symm

theorem stores_cons {g : Nat} (hg : g < 2 ^ 32) (j : Nat) :
    stores (handleOf slot g :: r) j = stores r j + if j = slot then 1 else 0 := by
  unfold stores
  rw [List.map_cons, handleOf_div hg, List.count_cons]
  by_cases h1 : j = slot
  · simp [h1]
  · simp [h1, Ne.symm h1]

/-- The next generation of a free entry has not been handed out. -/
theorem Ok.handle_new (hk : Ok p h st r) (hf : FewStores r) {g : Nat} (hg : g < 2 ^ 32)
    (hlt : (p.entries slot).generation < g) : handleOf slot g ∉ r := by
  intro hmem
  obtain ⟨j, g', hj, e0, hg'⟩ := hk.returned _ hmem
  have := hk.gen_lt hf hj
  obtain ⟨rfl, rfl⟩ := handleOf_inj hg (by omega) e0
  omega

/-- A store fills a free entry with a range that no used entry meets. -/
theorem Ok.put {src : Buf} {cs : List UInt8} (hk : Ok p h st r)
    (hf : FewStores r) (hf' : stores r slot + 1 < 2 ^ 31) (hs : slot < p.capacity)
    (hu : (p.entries slot).used = false) (hpos : 0 < clen) (hoff : off + clen ≤ p.areaSize)
    (hfree : ∀ i < p.capacity, (p.entries i).used = true →
      Apart off clen (p.entries i).compOffset (p.entries i).compSize)
    (hc : Coded src size 0 cs) (hl : cs.length = clen) (hat : At h.mem (p.area.getD 0 + off) cs) :
    let k := handleOf slot ((p.put slot size off clen).entries slot).generation
    Ok (p.put slot size off clen) h (Function.update st k (some (slice src 0 size))) (k :: r) ∧
    k ∉ r ∧ k ≠ 0 := by
  have hgs := hk.gen slot hs
  rw [hu] at hgs
  simp only [Bool.false_eq_true, if_false, Nat.add_zero] at hgs
  obtain ⟨e, he⟩ : ∃ e : Entry,
    e = ⟨size, off, clen, ((p.entries slot).generation + 1) % 2 ^ 32, p.seq, true⟩ := ⟨_, rfl⟩
  have hgen : e.generation = (p.entries slot).generation + 1 := by
    rw [he]
    simp only
    omega
  have hself : (p.put slot size off clen).entries slot = e := by
    rw [he]
    exact Function.update_self ..
  have hlt : e.generation < 2 ^ 32 := by omega
  have hnew : ∀ j < p.capacity, (p.entries j).used = true →
      handleOf j (p.entries j).generation ≠ handleOf slot e.generation := by
    intro j hj huj heq
    obtain ⟨rfl, -⟩ := handleOf_inj (hk.gen_lt hf hj) hlt heq
    rw [hu] at huj
    cases huj
  intro k
  have hkd : k = handleOf slot e.generation := by
    show handleOf _ _ = _
    rw [hself]
  clear_value k
  subst hkd
  refine ⟨⟨hk.wf, hk.table.put hs hu hpos hoff hfree, hk.empty, hk.area, ?_, ?_, ?_, ?_⟩,
    hk.handle_new hf hlt (by omega), by unfold handleOf; omega⟩
  · intro j hj
    rw [stores_cons hlt]
    by_cases e1 : j = slot
    · subst e1
      rw [hself, hgen, show e.used = true by rw [he]]
      simp only [if_true]
      omega
    · rw [put_ne e1, if_neg e1]
      exact hk.gen j hj
  · intro k hkr
    rcases List.mem_cons.mp hkr with rfl | hkr
    · exact ⟨slot, e.generation, hs, rfl, by rw [hself]⟩
    · obtain ⟨j, g, hj, e0, hg⟩ := hk.returned k hkr
      refine ⟨j, g, hj, e0, ?_⟩
      by_cases e1 : j = slot
      · subst e1
        rw [hself]
        omega
      · rw [put_ne e1]
        exact hg
  · intro k bs hst
    by_cases ek : k = handleOf slot e.generation
    · subst ek
      rw [Function.update_self] at hst
      refine ⟨slot, hs, by rw [hself, he], by rw [hself], ?_⟩
      rw [hself, he]
      exact ⟨src, cs, hc, hl, hat, (Option.some.inj hst).symm⟩
    · rw [Function.update_of_ne ek] at hst
      obtain ⟨j, hj, huj, e0, hh⟩ := hk.stored k bs hst
      have hne : j ≠ slot := fun e1 => by
        rw [e1, hu] at huj
        cases huj
      rw [← put_ne hne] at huj e0 hh
      exact ⟨j, hj, huj, e0, hh⟩
  · intro j hj huj
    by_cases e1 : j = slot
    · rw [e1, hself, Function.update_self]
      exact nofun
    · rw [put_ne e1] at huj ⊢
      rw [Function.update_of_ne (hnew j hj huj)]
      exact hk.mapped j hj huj

end Put

end Table

/-! ## Eviction and placement -/

/-- The map without the handles `ev`. -/
def without (st : Nat → Option (List UInt8)) (ev : List Nat) : Nat → Option (List UInt8) := fun k =>
  if k ∈ ev then none else st k

section Place
variable {p : Pool} {h : Heap} {st : Nat → Option (List UInt8)} {r : List Nat}

theorem without_nil : without st [] = st := by funext k; simp [without]

theorem without_append (ev ev' : List Nat) :
    without (without st ev) ev' = without st (ev ++ ev') := by
  funext k
  unfold without
  by_cases h1 : k ∈ ev <;> by_cases h2 : k ∈ ev' <;> simp [h1, h2]

theorem without_singleton (k : Nat) : without st [k] = Function.update st k none := by
  funext j
  by_cases e : j = k <;> simp [without, e]

theorem oldestOf_used {entries : Nat → Entry} {is : List Nat} {i : Nat}
    (h : (oldestOf entries is).2 = some i) : i ∈ is ∧ (entries i).used = true := by
  -- the scan only ever replaces its candidate by a used entry of the list
  have hfold : ∀ (js : List Nat) (o : Nat × Option Nat), (∀ j ∈ js, j ∈ is) →
      (∀ i, o.2 = some i → i ∈ is ∧ (entries i).used = true) →
      ∀ i, (js.foldl (fun o i => if (entries i).used && (entries i).allocSeq < o.1 then
        ((entries i).allocSeq, some i) else o) o).2 = some i →
        i ∈ is ∧ (entries i).used = true := by
    intro js
    induction js with
    | nil => intro o _ ho; exact ho
    | cons j js ih =>
      intro o hj ho
      refine ih _ (fun l hl => hj l (List.mem_cons_of_mem _ hl)) fun i hi => ?_
      dsimp only at hi
      split at hi
      · rename_i hu
        obtain rfl := Option.some.inj hi
        exact ⟨hj j List.mem_cons_self, (Bool.and_eq_true_iff.mp hu).1⟩
      · exact ho i hi
  exact hfold is _ (fun _ hj => hj) (fun _ h0 => by cases h0) i h

/-- The fields that eviction leaves alone. -/
structure Pool.Frame (p q : Pool) : Prop where
  area : q.area = p.area
  areaSize : q.areaSize = p.areaSize
  capacity : q.capacity = p.capacity
  budget : q.budget = p.budget

theorem evictOldest_spec (hk : Ok p h st r) (hf : FewStores r) :
    Ok (evictOldest p).1 h (without st (evictOldest p).2) r ∧ p.Frame (evictOldest p).1 ∧
      (evictOldest p).1.usedBytes ≤ p.usedBytes := by
  unfold evictOldest
  split
  · exact ⟨by rw [without_nil]; exact hk, ⟨rfl, rfl, rfl, rfl⟩, Nat.le_refl _⟩
  · rename_i i hi
    obtain ⟨hm, hu⟩ := oldestOf_used hi
    refine ⟨?_, ⟨rfl, rfl, rfl, rfl⟩, Nat.sub_le _ _⟩
    rw [without_singleton]
    exact hk.drop hf (List.mem_range.mp hm) hu

theorem makeRoom_spec (clen fuel : Nat) (hk : Ok p h st r) (hf : FewStores r) :
    Ok (makeRoom clen fuel p).1 h (without st (makeRoom clen fuel p).2.1) r ∧
    p.Frame (makeRoom clen fuel p).1 ∧
      ((makeRoom clen fuel p).2.2 = true → p.usedBytes < fuel →
        (makeRoom clen fuel p).1.usedBytes + clen ≤ p.budget) := by
  induction fuel generalizing p st with
  | zero =>
    exact ⟨by rw [makeRoom, without_nil]; exact hk, ⟨rfl, rfl, rfl, rfl⟩, fun _ h0 => by omega⟩
  | succ fuel ih =>
    unfold makeRoom
    split
    · obtain ⟨hk', hfr, hle⟩ := evictOldest_spec hk hf
      simp only
      split
      · exact ⟨hk', hfr, nofun⟩
      · rename_i hne
        obtain ⟨hk'', hfr', hroom⟩ := ih hk'
        rw [without_append] at hk''
        refine ⟨hk'', ⟨?_, ?_, ?_, ?_⟩, fun ht hlt => ?_⟩
        · exact hfr'.area.trans hfr.area
        · exact hfr'.areaSize.trans hfr.areaSize
        · exact hfr'.capacity.trans hfr.capacity
        · exact hfr'.budget.trans hfr.budget
        · rw [← hfr.budget]
          exact hroom ht (by omega)
    · rename_i hle
      exact ⟨by rw [without_nil]; exact hk, ⟨rfl, rfl, rfl, rfl⟩, fun _ _ => by simp only; omega⟩

theorem firstFit_spec (p : Pool) (aligned fuel off : Nat)
    (hf : p.areaSize < off + fuel * slotSize) : p.areaSize < firstFit p aligned fuel off + aligned ∨
    p.busy (firstFit p aligned fuel off) aligned = false := by
  induction fuel generalizing off with
  | zero => exact .inl (by rw [firstFit]; omega)
  | succ fuel ih =>
    unfold firstFit
    split
    · exact ih _ (by rw [Nat.succ_mul] at hf; omega)
    · rename_i hn
      by_cases hb : p.busy off aligned = true
      · exact .inl (by have : ¬ off + aligned ≤ p.areaSize := fun hle => hn ⟨hle, hb⟩
                       omega)
      · exact .inr (Bool.eq_false_iff.mpr hb)

theorem le_alignSlot (clen : Nat) : clen ≤ alignSlot clen := by
  unfold alignSlot slotSize
  simp only
  split <;> omega

theorem apart_of_not_busy {off aligned i clen : Nat} (hb : p.busy off aligned = false)
    (hle : clen ≤ aligned) (hi : i < p.capacity) (hu : (p.entries i).used = true) :
    Apart off clen (p.entries i).compOffset (p.entries i).compSize := by
  have := List.any_eq_false.mp hb i (List.mem_range.mpr hi)
  simp only [hu, Bool.true_and, Bool.and_eq_true, decide_eq_true_eq] at this
  unfold Apart
  omega

theorem handleOf_put_div (slot size off clen : Nat) :
    handleOf slot ((p.put slot size off clen).entries slot).generation / 2 ^ 32 = slot := by
  have : ((p.put slot size off clen).entries slot).generation < 2 ^ 32 := by
    simp only [Pool.put, Function.update_self]
    omega
  exact handleOf_div this

/-- Everything behind the codec. -/
theorem place_spec (junk : Buf) {area data size clen : Nat} {src scratch : Buf} {cs : List UInt8}
    (hk : Ok p h st r) (hf : FewStores r) (ha : p.area = some area) (hne : data ≠ area)
    (hc : Coded src size 0 cs) (hl : cs.length = clen) (hpos : 0 < clen) (hat : At scratch 0 cs) :
    let q := place p h area data size clen scratch junk
    (q.handle = 0 → q.heap = h ∧ Ok q.pool h (without st q.evicted) r) ∧
    (q.handle ≠ 0 → FewStores (q.handle :: r) →
      Ok q.pool q.heap (Function.update (without st q.evicted) q.handle (some (slice src 0 size)))
        (q.handle :: r) ∧
      q.handle ∉ r ∧ q.pool.usedBytes ≤ q.pool.budget ∧ q.heap.freed = data :: h.freed ∧
      (∀ b ∈ q.heap.live, b.1 ≠ data)) := by
  obtain ⟨hk', hfr, hroom⟩ := makeRoom_spec clen (p.usedBytes + 1) hk hf
  unfold place
  generalize makeRoom clen (p.usedBytes + 1) p = m at hk' hfr hroom
  obtain ⟨p', ev, ok⟩ := m
  simp only at hk' hfr hroom ⊢
  split
  · rename_i hok
    split
    · exact ⟨fun _ => ⟨rfl, hk'⟩, fun hn => absurd rfl hn⟩
    · rename_i slot hslot
      split
      · exact ⟨fun _ => ⟨rfl, hk'⟩, fun hn => absurd rfl hn⟩
      · rename_i hfit
        have hs : slot < p'.capacity := List.mem_range.mp (List.mem_of_find?_eq_some hslot)
        have hu : (p'.entries slot).used = false := by simpa using List.find?_some hslot
        have hff := firstFit_spec p' (alignSlot clen) (p'.areaSize / slotSize + 1) 0
          (by unfold slotSize; omega)
        generalize firstFit p' (alignSlot clen) (p'.areaSize / slotSize + 1) 0 = off at hfit hff ⊢
        have hbusy : p'.busy off (alignSlot clen) = false := hff.resolve_left hfit
        have hle := le_alignSlot clen
        have hfree := fun i hi hui => apart_of_not_busy (i := i) hbusy hle hi hui
        have ha' : p'.area = some area := hfr.area.trans ha
        have hk₁ :
          Ok p' { h with mem := h.mem.copy scratch (area + off) 0 clen } (without st ev) r := by
          refine hk'.heap hk'.wf hk'.area fun a i hp hi hui j hj => ?_
          obtain rfl := Option.some.inj (ha'.symm.trans hp)
          have := hfree i hi hui
          unfold Apart at this
          exact if_neg (by omega)
        have hat₁ : At (h.mem.copy scratch (area + off) 0 clen) (p'.area.getD 0 + off) cs := by
          intro j hj
          rw [ha', Option.getD_some]
          unfold Buf.copy
          rw [if_pos (by omega), ← hat j hj]
          congr 1; omega
        have hstores : ∀ k, k / 2 ^ 32 = slot → FewStores (k :: r) →
          stores r slot + 1 < 2 ^ 31 := by
          intro k hkd hfew
          have := hfew slot
          unfold stores at this ⊢
          rw [List.map_cons, hkd, List.count_cons_self] at this
          exact this
        have hgen : (p'.entries slot).generation = 2 * stores r slot := by
          have := hk'.gen slot hs
          rw [hu] at this
          simpa using this
        have hk0 : handleOf slot ((p'.put slot size off clen).entries slot).generation ≠ 0 := by
          have := hf slot
          simp only [Pool.put, Function.update_self]
          unfold handleOf
          omega
        refine ⟨fun e => absurd e hk0, fun _ hfew => ?_⟩
        obtain ⟨hok', hnew, -⟩ :=
          hk₁.put hf (hstores _ (handleOf_put_div ..) hfew) hs hu hpos (by omega) hfree hc hl hat₁
        refine ⟨hok'.keeps hok'.wf.mpFree fun a hp => ?_, hnew, ?_, rfl, fun b hb => ?_⟩
        · obtain rfl := Option.some.inj (ha'.symm.trans hp)
          exact mpFree_keeps (hk₁.area area ha') (Ne.symm hne)
        · have := hroom hok (Nat.lt_succ_self _)
          show p'.usedBytes + clen ≤ p'.budget
          rw [hfr.budget]; exact this
        · simpa using (List.mem_filter.mp hb).2
  · exact ⟨fun _ => ⟨rfl, hk'⟩, fun hn => absurd rfl hn⟩

end Place

/-! ## The operations -/

section Ops
variable {p : Pool} {h : Heap} {st : Nat → Option (List UInt8)} {r : List Nat} {e : Env}

/-- `cmem_compress_ensure_area` keeps every block and the map; it ends a block only
if it has just made it. -/
theorem ensureArea_spec (hk : Ok p h st r) (hg : h.Grants (areaWant p.budget) e.area) :
    Ok (ensureArea p h e).1 (ensureArea p h e).2.1 st r ∧
    (∀ b ∈ h.live, h.Keeps (ensureArea p h e).2.1 b) ∧
      ((ensureArea p h e).2.2 = true → (ensureArea p h e).2.1.freed = h.freed) ∧
      (∀ b ∈ h.live, (ensureArea p h e).2.1.freed.count b.1 = h.freed.count b.1) ∧
      (∀ b ∈ h.live, p.area ≠ some b.1 → (ensureArea p h e).1.area ≠ some b.1) := by
  unfold ensureArea
  split
  · exact ⟨hk, fun b hb => ⟨hb, fun _ _ => rfl⟩, fun _ => rfl, fun _ _ => rfl, fun _ _ h => h⟩
  · rename_i hp
    have hcap := hk.empty hp
    have hno : ∀ {a : Nat} {q : Prop}, p.area = some a → q := fun e => by rw [hp] at e; cases e
    have hr : r = [] := by
      refine List.eq_nil_iff_forall_not_mem.mpr fun k hkr => ?_
      obtain ⟨i, -, hi, -⟩ := hk.returned k hkr
      omega
    have hst : ∀ k, st k = none := by
      intro k
      by_contra hs
      obtain ⟨bs, hs⟩ := Option.ne_none_iff_exists'.mp hs
      obtain ⟨i, hi, -⟩ := hk.stored k bs hs
      omega
    have hsum := hk.table.sum
    rw [hcap, Finset.range_zero, Finset.sum_empty] at hsum
    simp only
    split
    · cases ha : e.area with
      | none =>
        simp only
        exact ⟨(hk.budget _).keeps hk.wf fun a hpa => hno hpa, fun b hb => havoc_keeps hb,
          nofun, fun _ _ => rfl, fun b hb hn => hn⟩
      | some a =>
        simp only
        rw [ha] at hg
        have hw : (h.mpAlloc (areaWant p.budget) (some a) e.allocJunk).Wf := hk.wf.mpAlloc hg
        split
        · refine ⟨⟨hw,
            ⟨fun _ _ hu => absurd hu (by simp), fun _ _ _ _ _ hu => absurd hu (by simp), ?_⟩, nofun,
            fun a' ha' => ?_, fun i _ => ?_, ?_, fun k bs hs => ?_,
              fun _ _ hu => absurd hu (by simp)⟩,
            fun b hb => mpAlloc_keeps hb, fun _ => rfl, fun _ _ => rfl, fun b hb _ e' => ?_⟩
          · simp [hsum, Entry.bytes]
          · obtain rfl := Option.some.inj ha'
            exact List.mem_cons_self
          · simp [hr, stores]
          · intro k hkr; rw [hr] at hkr; cases hkr
          · rw [hst] at hs; cases hs
          · exact (hg.2.2 b hb).1 (Option.some.inj e').symm
        · refine ⟨(hk.budget _).keeps hw.mpFree fun a' hpa => hno hpa,
            fun b hb =>
              (mpAlloc_keeps hb).trans (mpFree_keeps (mpAlloc_keeps hb).1 ((hg.2.2 b hb).1)), nofun,
            fun b hb => ?_, fun b hb hn => hn⟩
          exact List.count_cons_of_ne (hg.2.2 b hb).1.symm
    · exact ⟨(hk.budget _).keeps hk.wf fun a hpa => hno hpa, fun b hb => havoc_keeps hb, nofun,
        fun _ _ => rfl, fun b hb hn => hn⟩

theorem slice_congr {mem mem' : Buf} {pos pos' n : Nat}
    (h : ∀ j < n, mem (pos + j) = mem' (pos' + j)) : slice mem pos n = slice mem' pos' n := by
  unfold slice
  congr 1
  funext j
  exact h j j.isLt

/-- A store that returns 0 keeps every block, and no call of `mp_free` was for one
of them; a store that returns a handle has freed the caller's block. -/
theorem mpCompressBlock_spec {data size : Nat} (hk : Ok p h st r) (hf : FewStores r)
    (hd : data = 0 ∨ ∃ b ∈ h.live, p.area ≠ some b.1 ∧ b.1 = data ∧ size ≤ b.2)
    (hg : h.Grants (areaWant p.budget) e.area) :
    let q := mpCompressBlock p h data size e
    (q.handle = 0 → Ok q.pool q.heap (without st q.evicted) r ∧ (∀ b ∈ h.live, h.Keeps q.heap b) ∧
      ∀ b ∈ h.live, q.heap.freed.count b.1 = h.freed.count b.1) ∧
    (q.handle ≠ 0 → FewStores (q.handle :: r) →
      Ok q.pool q.heap
        (Function.update (without st q.evicted) q.handle (some (slice h.mem data size)))
          (q.handle :: r) ∧
      q.handle ∉ r ∧ q.pool.usedBytes ≤ q.pool.budget ∧ q.heap.freed = data :: h.freed ∧
      ∀ b ∈ q.heap.live, b.1 ≠ data) := by
  obtain ⟨hk₁, hkeep, hfreed, hcount, harea⟩ := ensureArea_spec hk hg
  unfold mpCompressBlock
  split
  · exact ⟨fun _ =>
      ⟨by rw [without_nil]; exact hk, fun b hb => ⟨hb, fun _ _ => rfl⟩, fun _ _ => rfl⟩,
      fun hn => absurd rfl hn⟩
  · rename_i hsize
    obtain ⟨b, hb, hba, rfl, hbs⟩ := hd.resolve_left fun e0 => hsize (.inl e0)
    generalize ensureArea p h e = m at hk₁ hkeep hfreed hcount harea
    obtain ⟨p₁, h₁, ok⟩ := m
    simp only at hk₁ hkeep hfreed hcount harea ⊢
    have hstop : Ok p₁ h₁ (without st []) r ∧ (∀ b ∈ h.live, h.Keeps h₁ b) ∧
        ∀ b ∈ h.live, h₁.freed.count b.1 = h.freed.count b.1 :=
      ⟨by rw [without_nil]; exact hk₁, hkeep, hcount⟩
    split
    · rename_i area hp₁
      split
      · exact ⟨fun _ => hstop, fun hn => absurd rfl hn⟩
      · split
        · exact ⟨fun _ => hstop, fun hn => absurd rfl hn⟩
        · rename_i scratch _
          obtain ⟨-, hret⟩ := compress_coded (fun i => h₁.mem (b.1 + i)) scratch size size
          split
          · exact ⟨fun _ => hstop, fun hn => absurd rfl hn⟩
          · rename_i scratch' clen hcomp
            rw [hcomp] at hret
            obtain ⟨hpos, -, cs, hc, hl, hat⟩ := hret clen rfl
            split
            · exact ⟨fun _ => hstop, fun hn => absurd rfl hn⟩
            · have hne : b.1 ≠ area := fun e0 => harea b hb hba (by rw [e0]; exact hp₁)
              obtain ⟨hz, hnz⟩ := place_spec e.freeJunk hk₁ hf hp₁ hne hc hl hpos hat
              refine ⟨fun h0 => ?_, fun hn hfew => ?_⟩
              · obtain ⟨hheap, hok⟩ := hz h0
                rw [hheap]
                exact ⟨hok, hkeep, hcount⟩
              · obtain ⟨hok, hnew, hle, hfr, hlive⟩ := hnz hn hfew
                rw [hfreed rfl] at hfr
                refine ⟨?_, hnew, hle, hfr, hlive⟩
                have hsl : slice (fun i => h₁.mem (b.1 + i)) 0 size = slice h.mem b.1 size :=
                  slice_congr fun j hj => by
                    rw [Nat.zero_add]; exact (hkeep b hb).2 j (by omega)
                rw [hsl] at hok
                exact hok
    · exact ⟨fun _ => hstop, fun hn => absurd rfl hn⟩

/-- Writing the block `[out, out + n)` keeps the others. -/
theorem write_keeps {buf mem : Buf} {live : List (Nat × Nat)} {freed : List Nat} {out n : Nat}
    {b : Nat × Nat} (hb : b ∈ live) (ha : Apart out n b.1 b.2)
    (hbuf : ∀ i, n ≤ i → buf i = mem (out + i)) :
    Heap.Keeps ⟨mem, live, freed⟩ ⟨fun i => if out ≤ i then buf (i - out) else mem i, live,
      freed⟩ b := by
  refine ⟨hb, fun j hj => ?_⟩
  show (if _ then _ else _) = _
  split
  · unfold Apart at ha
    rw [hbuf _ (by omega)]
    congr 1; omega
  · rfl

theorem mpDecompressBlock_none {k : Nat} {ans : Option Nat} {junk undo : Buf}
    (hl : p.lookup k = none) : mpDecompressBlock p h k ans junk undo = (h, none) := by
  unfold mpDecompressBlock
  rw [hl]

theorem mpDecompressBlock_fail {k slot : Nat} {junk undo : Buf} (hl : p.lookup k = some slot) :
    mpDecompressBlock p h k none junk undo =
      (h.mpAlloc (p.entries slot).originalSize none junk, none) := by
  unfold mpDecompressBlock
  rw [hl]

theorem mpDecompressBlock_some {k slot out : Nat} {junk undo buf : Buf} {h₁ : Heap}
    (hl : p.lookup k = some slot)
    (hh : h.mpAlloc (p.entries slot).originalSize (some out) junk = h₁)
    (hd : cmemLz4Decompress (fun i => h₁.mem (p.area.getD 0 + (p.entries slot).compOffset + i))
      (fun i => h₁.mem (out + i)) (p.entries slot).compSize (p.entries slot).originalSize =
        (buf, some (p.entries slot).originalSize)) :
    mpDecompressBlock p h k (some out) junk undo =
      ({ h₁ with mem := fun i => if out ≤ i then buf (i - out) else h₁.mem i }, some out) := by
  unfold mpDecompressBlock
  simp only [hl, hh, hd, if_true]

theorem mpDecompressBlock_spec {k : Nat} {ans : Option Nat} (junk undo : Buf) (hk : Ok p h st r)
    (hf : FewStores r) (hg : ∀ slot ∈ p.lookup k, h.Grants (p.entries slot).originalSize ans) :
    let q := mpDecompressBlock p h k ans junk undo
    Ok p q.1 st r ∧ (st k = none → q = (h, none)) ∧
      ∀ bs out, st k = some bs → ans = some out →
      q.2 = some out ∧ slice q.1.mem out bs.length = bs := by
  cases hl : p.lookup k with
  | none =>
    have hs := (hk.lookup_none hf).mp hl
    rw [mpDecompressBlock_none hl]
    exact ⟨hk, fun _ => rfl, fun bs _ hbs => by rw [hs] at hbs; cases hbs⟩
  | some slot =>
    replace hg := hg slot hl
    obtain ⟨hi, hu, e⟩ := (hk.lookup_iff hf).mp hl
    have hmap : st k ≠ none := by rw [e]; exact hk.mapped slot hi hu
    obtain ⟨bs, hbs⟩ := Option.ne_none_iff_exists'.mp hmap
    have hk₁ : Ok p (h.mpAlloc (p.entries slot).originalSize ans junk) st r :=
      hk.keeps (hk.wf.mpAlloc hg) fun a hp => mpAlloc_keeps (hk.area a hp)
    cases ans with
    | none =>
      rw [mpDecompressBlock_fail hl]
      exact ⟨hk₁, fun e0 => absurd e0 hmap, fun _ _ _ e0 => by cases e0⟩
    | some out =>
      obtain ⟨j, hj, huj, ej, src, cs, hc, hlen, hat, hsl⟩ := hk₁.stored _ bs hbs
      obtain ⟨rfl, -⟩ := handleOf_inj (hk.gen_lt hf hi) (hk.gen_lt hf hj) (e.symm.trans ej)
      obtain ⟨h₁, hh⟩ :
        ∃ h₁, h.mpAlloc (p.entries slot).originalSize (some out) junk = h₁ := ⟨_, rfl⟩
      rw [hh] at hk₁ hat
      obtain ⟨buf, hdec, hbuf⟩ :=
        decompress_coded (fun i => h₁.mem (p.area.getD 0 + (p.entries slot).compOffset + i))
        hc (fun j hj => by simpa using hat j hj) (fun i => h₁.mem (out + i))
      rw [hlen] at hdec
      have hframe : ∀ i, (p.entries slot).originalSize ≤ i → buf i = h₁.mem (out + i) :=
        fun i hi => by
        have :=
          decompress_outside (fun i => h₁.mem (p.area.getD 0 + (p.entries slot).compOffset + i))
          (fun i => h₁.mem (out + i)) (p.entries slot).compSize hi
        rw [hdec] at this
        exact this
      rw [mpDecompressBlock_some hl hh hdec]
      refine ⟨hk₁.keeps hk₁.wf fun a hp => ?_, fun e0 => absurd e0 hmap, fun bs' out' hbs' e0 => ?_⟩
      · exact write_keeps (hk₁.area a hp) (hg.2.2 (a, p.areaSize) (hk.area a hp)).2 hframe
      · obtain rfl := Option.some.inj e0
        obtain rfl := Option.some.inj (hbs.symm.trans hbs')
        refine ⟨rfl, ?_⟩
        rw [hsl, length_slice]
        refine slice_congr fun j hj => ?_
        show (if _ then _ else _) = _
        rw [if_pos (by omega), Nat.zero_add, ← hbuf j hj]
        congr 1; omega

end Ops

/-! ## Runs -/

def Sys.Inv (s : Sys) : Prop := FewStores s.returned → Ok s.pool s.heap s.stored s.returned

theorem step_inv {s : Sys} {l : Act} (hi : s.Inv) (hpre : s.pre l) : (s.step l).Inv := by
  cases l with
  | compress data size e =>
    intro hf'
    obtain ⟨hd, hg⟩ := hpre
    have hf : FewStores s.returned := by
      intro i
      have := hf' i
      simp only [Sys.step] at this
      split at this
      · unfold stores at this ⊢
        rw [List.map_cons] at this
        exact Nat.lt_of_le_of_lt (List.Sublist.count_le _ (List.sublist_cons_self _ _)) this
      · exact this
    obtain ⟨hz, hnz⟩ := mpCompressBlock_spec (hi hf) hf hd hg
    simp only [Sys.step] at hf' ⊢
    generalize mpCompressBlock s.pool s.heap data size e = q at hf' hz hnz ⊢
    by_cases h0 : q.handle = 0
    · simp only [h0, ne_eq, not_true_eq_false, false_and, if_false]
      exact (hz h0).1
    · rw [if_pos h0] at hf' ⊢
      have hst : (fun k => if q.handle ≠ 0 ∧ k = q.handle then some (slice s.heap.mem data size)
          else if k ∈ q.evicted then none else s.stored k) =
          Function.update (without s.stored q.evicted) q.handle
            (some (slice s.heap.mem data size)) := by
        funext k
        by_cases ek : k = q.handle
        · subst ek; simp [h0]
        · simp [ek, without]
      rw [hst]
      exact (hnz h0 hf').1
  | decompress handle ans junk undo =>
    exact fun hf => (mpDecompressBlock_spec junk undo (hi hf) hf hpre).1
  | freeCompressed handle =>
    intro hf
    simp only [Sys.step] at hf ⊢
    have hk := hi hf
    cases hl : s.pool.lookup handle with
    | none =>
      simp only [mpFreeCompressed, hl, Bool.false_eq_true, if_false]
      exact hk
    | some slot =>
      obtain ⟨hs, hu, e⟩ := (hk.lookup_iff hf).mp hl
      simp only [mpFreeCompressed, hl, if_true]
      rw [e]
      exact hk.drop hf hs hu
  | setBudget maxBytes e =>
    intro hf
    simp only [Sys.step, mpSetCompressedBudget] at hf ⊢
    have hk := (hi hf).budget maxBytes
    split
    · exact (ensureArea_spec hk hpre).1
    · exact hk
  | alloc size ans junk =>
    intro hf
    have hk := hi hf
    exact hk.keeps (hk.wf.mpAlloc hpre) fun a hp => mpAlloc_keeps (hk.area a hp)
  | free p junk =>
    intro hf
    have hk := hi hf
    obtain ⟨b, hb, hba, rfl⟩ := hpre
    exact hk.keeps hk.wf.mpFree fun a hp => mpFree_keeps (hk.area a hp) fun e =>
      hba (by rw [← e]; exact hp)
  | write i v =>
    intro hf
    have hk := hi hf
    obtain ⟨b, hb, hba, h1, h2⟩ := hpre
    refine hk.keeps hk.wf fun a hp => ⟨hk.area a hp, fun j hj => Function.update_of_ne ?_ _ _⟩
    have := hk.wf.other hb (hk.area a hp) fun e => hba (by rw [e]; exact hp)
    unfold Apart at this
    omega

theorem store_inductive : storeSystem.Inductive Sys.Inv where
  init s hs := by
    obtain ⟨mem, rfl⟩ := hs
    refine fun _ => ⟨List.Pairwise.nil, ⟨nofun, nofun, rfl⟩, fun _ => rfl, nofun, nofun, nofun,
      nofun, nofun⟩
  step s l s' hi hs := by
    obtain ⟨hpre, rfl⟩ := hs
    exact step_inv hi hpre

/-- What one more operation does, in terms of the map. -/
def Sys.Refines (s : Sys) : Act → Prop
  | .compress data size e =>
    let q := mpCompressBlock s.pool s.heap data size e
    -- 0: the caller's blocks are live and unchanged, and none of them was freed
    (q.handle = 0 → (∀ b ∈ s.heap.live, s.heap.Keeps q.heap b) ∧
      ∀ b ∈ s.heap.live, q.heap.freed.count b.1 = s.heap.freed.count b.1) ∧
    -- a handle: one that was never returned before, and the block was freed once
    (q.handle ≠ 0 → FewStores (q.handle :: s.returned) →
      q.handle ∉ s.returned ∧ q.pool.usedBytes ≤ q.pool.budget ∧
      q.heap.freed = data :: s.heap.freed ∧
        ∀ b ∈ q.heap.live, b.1 ≠ data)
  | .decompress handle ans junk undo =>
    let q := mpDecompressBlock s.pool s.heap handle ans junk undo
    (s.stored handle = none → q = (s.heap, none)) ∧
      ∀ bs out, s.stored handle = some bs → ans = some out →
      q.2 = some out ∧ slice q.1.mem out bs.length = bs
  | .freeCompressed handle =>
    (mpFreeCompressed s.pool handle).2 = (s.stored handle).isSome ∧
      (s.stored handle = none → (mpFreeCompressed s.pool handle).1 = s.pool)
  | _ => True

theorem Ok.refines {s : Sys} {l : Act} (hk : Ok s.pool s.heap s.stored s.returned)
    (hf : FewStores s.returned) (hpre : s.pre l) : s.Refines l := by
  cases l with
  | compress data size e =>
    obtain ⟨hz, hnz⟩ := mpCompressBlock_spec hk hf hpre.1 hpre.2
    exact ⟨fun h0 => (hz h0).2, fun hn hfew => (hnz hn hfew).2⟩
  | decompress handle ans junk undo =>
    obtain ⟨-, h1, h2⟩ := mpDecompressBlock_spec junk undo hk hf hpre
    exact ⟨h1, h2⟩
  | freeCompressed handle =>
    have hn := hk.lookup_none (k := handle) hf
    simp only [Sys.Refines, mpFreeCompressed]
    cases hl : s.pool.lookup handle with
    | none =>
      rw [hn.mp hl]
      exact ⟨rfl, fun _ => rfl⟩
    | some slot =>
      have hs : s.stored handle ≠ none := fun e => by rw [hn.mpr e] at hl; cases hl
      exact ⟨(Option.isSome_iff_ne_none.mpr hs).symm, fun e => absurd e hs⟩
  | setBudget | alloc | free | write => trivial

/-- **The compressed store is a map from handles to byte strings**, in every run
that has stored to no entry `2 ^ 31` times: used entries lie apart inside the area,
`compressed_used` adds them up, and every operation does to the map what `Refines`
says. -/
theorem compressed_store_refines {s : Sys} (hr : storeSystem.Reachable s)
    (hf : FewStores s.returned) :
    Table s.pool ∧ (∀ a, s.pool.area = some a → (a, s.pool.areaSize) ∈ s.heap.live) ∧ ∀ l, s.pre l →
    s.Refines l := by
  have hk := store_inductive.reachable hr hf
  exact ⟨hk.table, hk.area, fun l hpre => hk.refines hf hpre⟩

/-- A block of 64 equal bytes is stored in an area of 8 KiB. -/
def storeRun : List Act :=
  let e : Env := ⟨true, some 0x10000, true, some fun _ => 0, fun _ => 0, fun _ => 0, fun _ => 0⟩
  [.setBudget 8192 e, .alloc 64 (some 0x1000) (fun _ => 97),
    .compress 0x1000 64 { e with area := none }]

theorem compressed_store_refines_after_store :
    (storeRun.foldl Sys.step (Sys.init fun _ => 0)).returned = [1] ∧
      Table (storeRun.foldl Sys.step (Sys.init fun _ => 0)).pool := by
  have hret : (storeRun.foldl Sys.step (Sys.init fun _ => 0)).returned = [1] := by decide +kernel
  refine ⟨hret, (compressed_store_refines ?_ fun i => ?_).1⟩
  · refine LTS.Reachable.of_guard (C := fun _ _ => True)
      (LTS.Reachable.run (.init ⟨fun _ => 0, rfl⟩) ?_)
    decide +kernel
  · rw [hret]
    exact Nat.lt_of_le_of_lt List.count_le_length (by decide)

end Cmem.L2.Compress

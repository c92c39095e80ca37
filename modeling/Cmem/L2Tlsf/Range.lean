import Cmem.L2Tlsf.Run

/-!
# Sizes and the range of the index

`tlsf_fls` counts the leading zeros of a 32-bit number, so the bucket of a size is the
bucket of its lower half, with a shift of the whole size cut to an `int`. Here the
index functions are written with these cuts; they have no value where the source has
none (`__builtin_clz(0)`, a negative shift). For sizes below `2 ^ 32` they are the
functions of `Cmem.L2Tlsf.Model` (`insertIndex_of_lt`).

Sizes come in by `mp_create`, `mp_expand_pool`, `mp_set_compressed_budget` and
`mp_create_from_buffer`, which make an arena of them, and by `mp_alloc` on a pool in a
static buffer, which searches one. `Call.Respects` is what the tables need of such a
call, `Call.Admitted` says for which sizes they get it (`index_range`).
-/
namespace Cmem.L2.SharedTlsf

/-! ## The index functions -/

/-- mirrors `tlsf_fls`, src/src/cmem_tlsf.c:47-53, for a value that is not 0 -/
def fls32 (val : Nat) : Option Nat :=
  if val % 2 ^ 32 = 0 then none else some (Nat.log2 (val % 2 ^ 32))

/-- mirrors `tlsf_mapping_insert`, src/src/cmem_tlsf.c:83-92; a negative `sl` is one of the
upper half -/
def insertIndex (size : Nat) : Option (Nat × Nat) :=
  if size < 2 ^ 4 then some (0, size)
  else
    match fls32 size with
    | none => none
    | some fl => if fl < 4 then none else some (fl, ((size >>> (fl - 4)) ^^^ 2 ^ 4) % 2 ^ 32)

/-- The first-level index of `tlsf_mapping_search`, src/src/cmem_tlsf.c:106-122. -/
def searchIndex (size : Nat) : Option Nat :=
  if size < 2 ^ 4 then some 0
  else
    match fls32 size with
    | none => none
    | some fl => if fl < 4 then none else some fl

/-- `TLSF_FL_MAX` and `TLSF_SL_COUNT` bound the tables. -/
def InTables (i : Option (Nat × Nat)) : Prop := ∃ fl < 30, ∃ sl < 16, i = some (fl, sl)

/-- The class of a size: its highest bit, and the four bits below it. -/
def sizeClass (n : Nat) : Nat × Nat :=
  if n < 2 ^ 4 then (0, n) else (Nat.log2 n, (n >>> (Nat.log2 n - 4)) ^^^ 2 ^ 4)

/-! ## The calls -/

/-- `tlsf_create_pool_custom`, src/src/cmem_tlsf.c:154-200, on the memory at `self`. -/
def createArena (m : Mem) (owner size self : Nat) : Option (Mem × TPool) :=
  let size := sizeAlign8 size
  let raw := self + tpoolHdr
  let m := seedRegion m raw size
  match insertIndex (span m raw) with
  | none => none
  | some (fl, sl) => some (m, ((emptyIndex raw size owner).mark fl sl).setHead fl sl raw)

inductive Call where
  | create (capacity : Nat)
  | expand (bytes : Nat)
  | budget (bytes : Nat)
  | fromBuffer (size alignOffset : Nat)
  | staticAlloc (size : Nat)

/-- A `size_t` has 64 bits. -/
def Call.IsSize : Call → Prop
  | .create n | .expand n | .budget n | .fromBuffer n _ | .staticAlloc n => n < sizeMod

/-- An arena whose free blocks are indexed and have a class. -/
def Fine (m : Mem) (T : TPool) : Prop :=
  ∃ fs L, Indexed m T fs L ∧ ∀ c, fs c → 16 ≤ span m c ∧ span m c < 2 ^ 30

/-- What a call meets: the pool, memory, the answer of `sys_mem_alloc`, and an arena of the
pool with its free blocks. -/
structure Place where
  mem : Mem
  owner : Nat
  answer : Option Nat
  /-- `sizeof(memory_pool_t)` -/
  poolHdr : Nat
  buffer : Nat
  /-- `MP_FLAG_DEBUG_CANARY` is set -/
  hasCanary : Bool
  /-- `MP_FLAG_STATIC_BUFFER` is set -/
  isStatic : Bool
  /-- `compressed_area` is set -/
  hasArea : Bool
  arena : TPool
  /-- so are the arenas of every run of `Cmem.L2Tlsf.Run` (`fine_of_run`) -/
  fine : Fine mem arena

def Place.canary (p : Place) : Nat := p.hasCanary.toNat

/-- The arena is one free block of all the bytes but the sentinel, in the list of its class. -/
def OneBlock (m : Mem) (T : TPool) (n : Nat) : Prop :=
  span m T.raw = n ∧ isFree m T.raw = true ∧
    ∀ fl sl, (freeDL m (T.blocks fl sl)).Is (if (fl, sl) = sizeClass n then [T.raw] else [])

/-- An arena of `size` bytes at `self` is made as it should be. -/
def Makes (p : Place) (size self : Nat) : Prop :=
  blockHdr ≤ sizeAlign8 size ∧ InTables (insertIndex (sizeSub (sizeAlign8 size) blockHdr)) ∧
    ∃ r, createArena p.mem p.owner size self = some r ∧
    OneBlock r.1 r.2 (sizeAlign8 size - blockHdr)

/-- The tables an allocation of `total` bytes looks into, src/src/cmem_tlsf.c:374-393: for the
search, for the block that is taken, and for the rest that is put back. The second level of
the search masks a bitmap; what it indexes is the list of the block it returns. -/
def Searches (m : Mem) (T : TPool) (total : Nat) : Prop :=
  (∃ fl < 30, searchIndex total = some fl) ∧
    (tlsfFindSuitableBlock T total ≠ 0 →
      InTables (insertIndex (span m (tlsfFindSuitableBlock T total))) ∧
        (minBlock + blockHdr ≤ sizeSub (span m (tlsfFindSuitableBlock T total)) total →
          InTables (insertIndex (sizeSub (span m (tlsfFindSuitableBlock T total)) total))))

/-- `mp_create_from_buffer` takes the buffer, src/src/cmem_config.c:80-93. -/
def Taken (p : Place) (size alignOffset : Nat) : Prop :=
  p.poolHdr + tpoolHdr + minBlock ≤ size ∧ alignOffset + p.poolHdr + tpoolHdr + minBlock < size

/-- Every index of the call lies in the tables, and an arena it makes is well made. -/
def Call.Respects (p : Place) : Call → Prop
  | .create capacity => 0 < capacity → ∀ self ∈ p.answer, Makes p capacity self
  | .expand bytes => p.isStatic = false → 0 < bytes → ∀ self ∈ p.answer, Makes p bytes self
  | .budget bytes =>
    -- the pool is expanded, and then asked for the bytes: above TLSF_MAX_SIZE it asks the
    -- system, below it searches its arenas and expands once more if they have no block
    p.hasArea = false → p.isStatic = false → 0 < bytes → ∀ self ∈ p.answer, Makes p bytes self ∧
      (bytes ≤ 4 * 1024 * 1024 →
        (∀ m T, Fine m T → Searches m T (totalNeeded bytes p.canary)) ∧
          ∀ self, Makes p (expandSize (totalNeeded bytes p.canary)) self)
  | .fromBuffer size alignOffset => Taken p size alignOffset →
      Makes p (size - alignOffset - p.poolHdr - tpoolHdr) (p.buffer + alignOffset + p.poolHdr)
  | .staticAlloc size => Searches p.mem p.arena (totalNeeded size p.canary)

/-! ## Which sizes are admitted -/

/-- An arena has 56 bytes at least, and `2 ^ 30 + 24` at most. -/
def ArenaSize (size : Nat) : Prop := 49 ≤ size ∧ size ≤ 2 ^ 30 + 24

/-- A request of `2 ^ 32` bytes and more whose lower half is taken for its size: no block is
found, or the rest that is put back happens to have a class. -/
def Astray (m : Mem) (T : TPool) (total : Nat) : Prop :=
  2 ^ 32 ≤ total ∧ 16 ≤ total % 2 ^ 32 ∧ total % 2 ^ 32 < 2 ^ 30 ∧
    (tlsfFindSuitableBlock T total ≠ 0 →
      total % 2 ^ 32 + 16 ≤ span m (tlsfFindSuitableBlock T total) ∧
        2 ^ (Nat.log2 (span m (tlsfFindSuitableBlock T total) - total % 2 ^ 32) - 4) ∣
          total / 2 ^ 32)

def Call.Admitted (p : Place) : Call → Prop
  | .create capacity => 0 < capacity → p.answer ≠ none → ArenaSize capacity
  | .expand bytes => p.isStatic = false → 0 < bytes → p.answer ≠ none → ArenaSize bytes
  | .budget bytes =>
    p.hasArea = false → p.isStatic = false → 0 < bytes → p.answer ≠ none → ArenaSize bytes
  | .fromBuffer size alignOffset => Taken p size alignOffset →
      ArenaSize (size - alignOffset - p.poolHdr - tpoolHdr)
  | .staticAlloc size =>
    totalNeeded size p.canary < 2 ^ 30 ∨ Astray p.mem p.arena (totalNeeded size p.canary)

section Range
variable {m : Mem} {T : TPool} {n size total self : Nat} {p : Place}

theorem Sound.fine {k : Prop} {as : List Nat} (h : Sound k m T as) : Fine m T := by
  obtain ⟨L, hi⟩ := h.idx
  refine ⟨_, L, hi, fun c hc => ⟨?_, h.span_lt hc.1⟩⟩
  have := h.bounds hc.1
  omega

theorem fine_of_run {cfg : Nat → Cfg} {s : Sys} {t : Nat}
    (hr : ((system cfg).guard fun s l => CanaryInside cfg s l ∧ NoWrap cfg l).Reachable s)
    (ht : t ∈ s.heap.arenas) : Fine s.heap.mem (s.heap.tp t) := by
  obtain ⟨as, h⟩ := run_inv hr
  exact (h.wf.sound t ht).fine

theorem fls32_of_lt (h : n < 2 ^ 32) (h0 : n ≠ 0) : fls32 n = some (Nat.log2 n) := by
  unfold fls32
  rw [Nat.mod_eq_of_lt h, if_neg h0]

theorem four_le_log2 (h : 16 ≤ n) : 4 ≤ Nat.log2 n := (Nat.le_log2 (by omega)).2 h

theorem insertIndex_of_lt (h : n < 2 ^ 32) : insertIndex n = some (tlsfMappingInsert n) := by
  unfold insertIndex tlsfMappingInsert
  split
  · rfl
  · rename_i h16
    have h4 := four_le_log2 (n := n) (by omega)
    rw [fls32_of_lt h (by omega), tlsfFls_of_lt h]
    dsimp only
    rw [if_neg (by omega)]
    obtain ⟨j, hj, e⟩ := shiftRight_top (n := n) (k := 4) (by omega)
    rw [e, two_pow_add_xor hj]
    have : j < 16 := hj
    rw [Nat.mod_eq_of_lt (by omega)]

theorem sizeClass_of_lt (h : n < 2 ^ 32) : sizeClass n = tlsfMappingInsert n := by
  unfold sizeClass tlsfMappingInsert
  rw [tlsfFls_of_lt h]

theorem sizeClass_lt (h : n < 2 ^ 30) : (sizeClass n).1 < 30 ∧ (sizeClass n).2 < 16 := by
  unfold sizeClass
  split
  · rename_i h16
    exact ⟨Nat.zero_lt_succ _, h16⟩
  · rename_i h16
    obtain ⟨j, hj, e⟩ := shiftRight_top (n := n) (k := 4) (by omega)
    rw [e, two_pow_add_xor hj]
    exact ⟨(Nat.log2_lt (by omega)).2 h, hj⟩

theorem inTables_of_lt (h : n < 2 ^ 30) : InTables (insertIndex n) := by
  obtain ⟨h1, h2⟩ := sizeClass_lt h
  rw [insertIndex_of_lt (by omega), ← sizeClass_of_lt (by omega)]
  exact ⟨_, h1, _, h2, rfl⟩

/-- The bits from 32 on keep off the five that hold `16 + j`. -/
theorem add_xor_sixteen {q j : Nat} (h : j < 16) : (32 * q + (16 + j)) ^^^ 2 ^ 4 = 32 * q + j := by
  have hdiv : ((32 * q + (16 + j)) ^^^ 2 ^ 4) / 2 ^ 5 = q := by
    rw [Nat.xor_div_two_pow, show (32 * q + (16 + j)) / 2 ^ 5 = q by omega]
    exact Nat.xor_zero q
  have hmod : ((32 * q + (16 + j)) ^^^ 2 ^ 4) % 2 ^ 5 = j := by
    rw [Nat.xor_mod_two_pow, show (32 * q + (16 + j)) % 2 ^ 5 = 2 ^ 4 + j by omega]
    exact two_pow_add_xor h
  omega

/-- What an index is when only the lower half of the size is looked at. -/
theorem insertIndex_eq (h : 2 ^ 4 ≤ n) (hL : 16 ≤ n % 2 ^ 32) : ∃ j < 16,
    insertIndex n = some (Nat.log2 (n % 2 ^ 32),
      (n / 2 ^ 32 * 2 ^ (32 - (Nat.log2 (n % 2 ^ 32) - 4)) + j) % 2 ^ 32) := by
  have h4 := four_le_log2 hL
  have h32 : Nat.log2 (n % 2 ^ 32) < 32 := (Nat.log2_lt (by omega)).2 (by omega)
  obtain ⟨j, hj, e⟩ := shiftRight_top (n := n % 2 ^ 32) (k := 4) hL
  have hj' : j < 16 := hj
  refine ⟨j, hj, ?_⟩
  unfold insertIndex fls32
  rw [if_neg (by omega), if_neg (by omega)]
  dsimp only
  rw [if_neg (by omega)]
  generalize hk : Nat.log2 (n % 2 ^ 32) - 4 = k at e ⊢
  have hsplit : n = n % 2 ^ 32 + 2 ^ k * (n / 2 ^ 32 * 2 ^ (32 - k)) := by
    have : 2 ^ k * 2 ^ (32 - k) = 2 ^ 32 := by rw [← Nat.pow_add]; congr 1; omega
    calc n = n % 2 ^ 32 + 2 ^ 32 * (n / 2 ^ 32) := (Nat.mod_add_div ..).symm
      _ = _ := by rw [← this, Nat.mul_comm (n / _), Nat.mul_assoc]
  have hshift : n >>> k = n / 2 ^ 32 * 2 ^ (32 - k) + (16 + j) := by
    have e' : (n % 2 ^ 32) / 2 ^ k = 16 + j := (Nat.shiftRight_eq_div_pow _ _).symm.trans e
    rw [Nat.shiftRight_eq_div_pow]
    conv_lhs => rw [hsplit]
    rw [Nat.add_mul_div_left _ _ (Nat.two_pow_pos k), e', Nat.add_comm]
  have h5 : n / 2 ^ 32 * 2 ^ (32 - k) = 32 * (n / 2 ^ 32 * 2 ^ (27 - k)) := by
    rw [show 32 - k = 27 - k + 5 by omega, Nat.pow_add, ← Nat.mul_assoc]
    exact Nat.mul_comm _ _
  rw [hshift, h5, add_xor_sixteen hj]

/-- Which sizes have a class, when only the lower half is looked at. -/
theorem inTables_iff (h : 2 ^ 4 ≤ n) : InTables (insertIndex n) ↔
    16 ≤ n % 2 ^ 32 ∧ n % 2 ^ 32 < 2 ^ 30 ∧ 2 ^ (Nat.log2 (n % 2 ^ 32) - 4) ∣ n / 2 ^ 32 := by
  have hnone : n % 2 ^ 32 < 16 → insertIndex n = none := by
    intro hL
    unfold insertIndex fls32
    rw [if_neg (by omega)]
    split_ifs with h0
    · rfl
    · have : Nat.log2 (n % 2 ^ 32) < 4 := (Nat.log2_lt h0).2 hL
      exact if_pos this
  by_cases hL : 16 ≤ n % 2 ^ 32
  · have h4 := four_le_log2 hL
    have h32 : Nat.log2 (n % 2 ^ 32) < 32 := (Nat.log2_lt (by omega)).2 (by omega)
    obtain ⟨j, hj, e⟩ := insertIndex_eq h hL
    have h30 : Nat.log2 (n % 2 ^ 32) < 30 ↔ n % 2 ^ 32 < 2 ^ 30 := Nat.log2_lt (by omega)
    generalize Nat.log2 (n % 2 ^ 32) = fl at *
    have hp : 2 ^ (fl - 4) * 2 ^ (32 - (fl - 4)) = 2 ^ 32 := by rw [← Nat.pow_add]; congr 1; omega
    have hdvd : 2 ^ (fl - 4) ∣ n / 2 ^ 32 ↔ 2 ^ 32 ∣ n / 2 ^ 32 * 2 ^ (32 - (fl - 4)) := by
      rw [← hp]
      exact (Nat.mul_dvd_mul_iff_right (Nat.two_pow_pos _)).symm
    have h5 : 32 ∣ n / 2 ^ 32 * 2 ^ (32 - (fl - 4)) :=
      Dvd.dvd.mul_left (Nat.pow_dvd_pow 2 (n := 32 - (fl - 4)) (m := 5) (by omega)) _
    rw [hdvd]
    generalize n / 2 ^ 32 * 2 ^ (32 - (fl - 4)) = a at *
    constructor
    · rintro ⟨fl', hfl, sl, hsl, e'⟩
      obtain ⟨rfl, rfl⟩ := Prod.mk.inj (Option.some.inj (e.symm.trans e'))
      exact ⟨hL, h30.1 hfl, by omega⟩
    · rintro ⟨-, hfl, ha⟩
      exact ⟨fl, h30.2 hfl, (a + j) % 2 ^ 32, by omega, e⟩
  · refine ⟨fun ⟨fl, _, sl, _, e⟩ => ?_, fun hx => absurd hx.1 hL⟩
    rw [hnone (by omega)] at e
    cases e

/-! ## An arena is made -/

/-- What is written into a region before it is an arena. -/
theorem seedRegion_eq (m : Mem) (raw : Nat) (h : blockHdr ≤ size) (hs : size < sizeMod)
    (h8 : 8 ∣ size) :
    ∃ m₁ : Mem, m₁ raw = orFree (size - 32) ∧ m₁ (raw + 16) = 0 ∧ m₁ (raw + 24) = 0 ∧
      seedRegion m raw size =
        setPrevPhysical (setSize m₁ (raw + (size - 32)) 0) (raw + (size - 32)) raw := by
  let m₁ :=
    setPrevFree
      (setNextFree (setPrevPhysical (setSize m raw (orFree (size - 32))) raw 0) raw 0) raw 0
  have e0 : m₁ raw = orFree (size - 32) :=
    (Mem.set_ne _ _ (by omega)).trans ((Mem.set_ne _ _ (by omega)).trans
      ((Mem.set_ne _ _ (by omega)).trans (Mem.set_self ..)))
  refine ⟨m₁, e0, (Mem.set_ne _ _ (by omega)).trans (Mem.set_self ..), Mem.set_self .., ?_⟩
  have hspan : span m₁ raw = size - 32 :=
    (congrArg blockSize e0).trans (blockSize_orFree.trans (blockSize_of_dvd (by omega)))
  unfold seedRegion
  rw [show sizeSub size blockHdr = size - 32 from sizeSub_of_le h hs]
  show setPrevPhysical (setSize m₁ (raw + span m₁ raw) 0) (raw + span m₁ raw) raw = _
  rw [hspan]

/-- A seeded region keeps its first block when there are 24 bytes for it. -/
theorem seedRegion_block (m : Mem) (raw : Nat) (h : 56 ≤ size) (hs : size < sizeMod)
    (h8 : 8 ∣ size) :
    span (seedRegion m raw size) raw = size - 32 ∧ isFree (seedRegion m raw size) raw = true ∧
      nextFree (seedRegion m raw size) raw = 0 ∧ prevFree (seedRegion m raw size) raw = 0 := by
  obtain ⟨m₁, e0, e2, e3, e⟩ := seedRegion_eq m raw (by unfold blockHdr; omega) hs h8
  have hw : ∀ i, i < 24 → seedRegion m raw size (raw + i) = m₁ (raw + i) := by
    intro i hi
    rw [e]
    exact (Mem.set_ne _ _ (by omega)).trans (Mem.set_ne _ _ (by omega))
  have h0 : seedRegion m raw size raw = orFree (size - 32) := (hw 0 (by omega)).trans e0
  refine ⟨?_, ?_, (hw 16 (by omega)).trans e2, ?_⟩
  · exact (congrArg blockSize h0).trans (blockSize_orFree.trans (blockSize_of_dvd (by omega)))
  · exact (congrArg freeBit h0).trans freeBit_orFree
  · show seedRegion m raw size (raw + 24) = 0
    rw [e]
    refine (Mem.set_ne _ _ (by omega)).trans ?_
    by_cases h24 : size = 56
    · -- the size word of the sentinel stands in its place
      subst h24
      exact Mem.set_self ..
    · exact (Mem.set_ne _ _ (by omega)).trans e3

/-- With less than 24 bytes the sentinel is written over the block. -/
theorem seedRegion_short (m : Mem) (raw : Nat) (h : blockHdr ≤ size) (hs : size < 56)
    (h8 : 8 ∣ size) (h0 : raw ≠ 0) :
    isFree (seedRegion m raw size) raw = false ∨ nextFree (seedRegion m raw size) raw ≠ 0 ∨
      prevFree (seedRegion m raw size) raw ≠ 0 := by
  obtain ⟨m₁, e0, e2, e3, e⟩ := seedRegion_eq m raw h (by unfold sizeMod; omega) h8
  unfold blockHdr at h
  rw [e]
  obtain rfl | rfl | rfl : size = 32 ∨ size = 40 ∨ size = 48 := by omega
  · left
    have hw : setPrevPhysical (setSize m₁ (raw + (32 - 32)) 0) (raw + (32 - 32)) raw raw = 0 :=
      (Mem.set_ne _ _ (by omega)).trans (Mem.set_self ..)
    exact congrArg freeBit hw
  · exact .inr (.inl ((Mem.set_self _ (raw + 8 + 8) raw).trans_ne h0))
  · exact .inr (.inr ((Mem.set_self _ (raw + 16 + 8) raw).trans_ne h0))

/-- The list of one block: it is the only one, and no other list has a head. -/
theorem oneBlock_iff {fl sl : Nat} (hraw : T.raw ≠ 0)
    (hb : ∀ x y, T.blocks x y = if x = fl ∧ y = sl then T.raw else 0) : OneBlock m T n ↔
      span m T.raw = n ∧ isFree m T.raw = true ∧ sizeClass n = (fl, sl) ∧
        nextFree m T.raw = 0 ∧ prevFree m T.raw = 0 := by
  refine and_congr_right fun _ => and_congr_right fun _ => ⟨fun h => ?_, fun ⟨h1, h2, h3⟩ x y => ?_⟩
  · have hc := h (sizeClass n).1 (sizeClass n).2
    rw [if_pos rfl, hb] at hc
    by_cases he : (sizeClass n).1 = fl ∧ (sizeClass n).2 = sl
    · rw [if_pos he] at hc
      obtain ⟨t, e, h1, h2, h3⟩ := hc
      exact ⟨Prod.ext he.1 he.2, h3.1, h2⟩
    · rw [if_neg he] at hc
      obtain ⟨t, e, -⟩ := hc
      exact absurd e.symm hraw
  · rw [hb, h1]
    by_cases he : x = fl ∧ y = sl
    · rw [if_pos he, if_pos (Prod.ext he.1 he.2)]
      exact ⟨T.raw, rfl, hraw, h3, h2, rfl⟩
    · rw [if_neg he, if_neg fun e => he (Prod.mk.inj e)]
      exact DL.is_nil_iff.2 rfl

theorem createArena_eq {owner : Nat} {r : Mem × TPool} : createArena m owner size self = some r ↔
    ∃ fl sl,
      insertIndex (span (seedRegion m (self + tpoolHdr) (sizeAlign8 size)) (self + tpoolHdr)) =
        some (fl, sl) ∧
      r = (seedRegion m (self + tpoolHdr) (sizeAlign8 size),
        ((emptyIndex (self + tpoolHdr) (sizeAlign8 size) owner).mark fl sl).setHead fl sl
          (self + tpoolHdr)) := by
  unfold createArena
  dsimp only
  cases insertIndex (span (seedRegion m (self + tpoolHdr) (sizeAlign8 size)) (self + tpoolHdr)) with
  | none => simp
  | some k => simp [Prod.ext_iff, eq_comm]

theorem arenaSize_iff (hs : size < sizeMod) :
    ArenaSize size ↔ 56 ≤ sizeAlign8 size ∧ sizeAlign8 size ≤ 2 ^ 30 + 24 := by
  unfold ArenaSize sizeAlign8
  unfold sizeMod at hs ⊢
  omega

theorem makes_iff (hs : size < sizeMod) : Makes p size self ↔ ArenaSize size := by
  have h8 := sizeAlign8_dvd size
  have hlt : sizeAlign8 size < sizeMod := by unfold sizeAlign8 sizeMod; omega
  rw [arenaSize_iff hs]
  unfold Makes
  have hraw : self + tpoolHdr ≠ 0 := by unfold tpoolHdr; omega
  constructor
  · rintro ⟨h1, h2, ⟨m', T'⟩, h3, h4⟩
    obtain ⟨fl, sl, h5, e⟩ := createArena_eq.1 h3
    obtain ⟨rfl, rfl⟩ := Prod.mk.inj e
    obtain ⟨h6, h7, h8', h9, h10⟩ := (oneBlock_iff hraw fun x y => setHead_blocks ..).1 h4
    rw [show sizeSub (sizeAlign8 size) blockHdr = sizeAlign8 size - blockHdr
      from sizeSub_of_le h1 hlt] at h2
    -- the index of the block is the one of its size, and it is its class
    obtain ⟨fl', hfl, sl', -, h11⟩ := h2
    have h12 : some (fl', sl') = some (fl, sl) :=
      h11.symm.trans ((congrArg insertIndex h6.symm).trans h5)
    obtain ⟨rfl, rfl⟩ := Prod.mk.inj (Option.some.inj h12)
    constructor
    · by_contra hlo
      rcases seedRegion_short p.mem (self + tpoolHdr) h1 (by omega) h8 hraw with h | h | h
      · exact Bool.noConfusion (h.symm.trans h7)
      · exact h h9
      · exact h h10
    · by_contra hhi
      have h13 : Nat.log2 (sizeAlign8 size - blockHdr) = fl' := by
        unfold sizeClass at h8'
        rw [if_neg (by unfold blockHdr; omega)] at h8'
        exact (Prod.mk.inj h8').1
      have h14 :=
        (Nat.log2_lt (n := sizeAlign8 size - blockHdr) (by unfold blockHdr; omega)).1
          (h13.trans_lt hfl)
      unfold blockHdr at h14
      omega
  · rintro ⟨h1, h2⟩
    obtain ⟨e1, e2, e3, e4⟩ := seedRegion_block p.mem (self + tpoolHdr) h1 hlt h8
    have hn : sizeAlign8 size - 32 < 2 ^ 30 := by omega
    have hsub : sizeSub (sizeAlign8 size) blockHdr = sizeAlign8 size - 32 :=
      sizeSub_of_le (by unfold blockHdr; omega) hlt
    have hi : insertIndex (sizeAlign8 size - 32) = some (sizeClass (sizeAlign8 size - 32)) := by
      rw [insertIndex_of_lt (by omega), sizeClass_of_lt (by omega)]
    refine ⟨by unfold blockHdr; omega, hsub ▸ inTables_of_lt hn, _,
      createArena_eq.2 ⟨_, _, (congrArg insertIndex e1).trans hi, rfl⟩, ?_⟩
    exact (oneBlock_iff hraw fun x y => setHead_blocks ..).2 ⟨e1, e2, rfl, e3, e4⟩

/-! ## An arena is searched -/

/-- The search returns a block of the index, also for a size it takes the lower half of. -/
theorem Fine.found (h : Fine m T) (h0 : tlsfFindSuitableBlock T total ≠ 0) :
    16 ≤ span m (tlsfFindSuitableBlock T total) ∧
    span m (tlsfFindSuitableBlock T total) < 2 ^ 30 := by
  obtain ⟨fs, L, hi, hs⟩ := h
  have hm :
    ∀ fl sl, T.blocks fl sl ≠ 0 → 16 ≤ span m (T.blocks fl sl) ∧ span m (T.blocks fl sl) < 2 ^ 30 :=
    fun fl sl h => hs _ (hi.head_mem h).1
  unfold tlsfFindSuitableBlock at h0 ⊢
  dsimp only at h0 ⊢
  split_ifs at h0 ⊢ with h1 h2
  · exact hm _ _ h0
  · exact hm _ _ h0
  · exact absurd rfl h0

/-- A request below `2 ^ 30` searches the tables only. -/
theorem Fine.searches (h : Fine m T) (h32 : 32 ≤ total) (ht : total < 2 ^ 30) :
    Searches m T total := by
  have hl : Nat.log2 total < 30 := (Nat.log2_lt (by omega)).2 ht
  have h4 := four_le_log2 (n := total) (by omega)
  refine ⟨⟨Nat.log2 total, hl, ?_⟩, fun h0 => ⟨inTables_of_lt (h.found h0).2, fun _ => ?_⟩⟩
  · unfold searchIndex
    rw [if_neg (by omega), fls32_of_lt (by omega) (by omega)]
    exact if_neg (by omega)
  · have hf := h.found h0
    obtain ⟨fs, L, hi, hs⟩ := h
    have hle := (find_spec hi (fun c hc => (hs c hc).2) (by omega) (by omega) h0).2
    rw [sizeSub_of_le hle (by unfold sizeMod; omega)]
    exact inTables_of_lt (by omega)

theorem searchIndex_large (ht : 2 ^ 30 ≤ total) : (∃ fl < 30, searchIndex total = some fl) ↔
    16 ≤ total % 2 ^ 32 ∧ total % 2 ^ 32 < 2 ^ 30 := by
  unfold searchIndex fls32
  rw [if_neg (by omega)]
  split_ifs with h0
  · simp
    omega
  · have h4 : Nat.log2 (total % 2 ^ 32) < 4 ↔ total % 2 ^ 32 < 2 ^ 4 := Nat.log2_lt h0
    have h30 : Nat.log2 (total % 2 ^ 32) < 30 ↔ total % 2 ^ 32 < 2 ^ 30 := Nat.log2_lt h0
    generalize Nat.log2 (total % 2 ^ 32) = fl at h4 h30 ⊢
    dsimp only
    split_ifs with hlt
    · simp
      omega
    · simp
      omega

/-- What is put back of a block of `s` bytes after a request far larger than it. -/
theorem rest_iff {s : Nat} (hs : total < sizeMod) (h32 : 2 ^ 32 ≤ total) (hL : 16 ≤ total % 2 ^ 32)
    (hL' : total % 2 ^ 32 < 2 ^ 30) (h1 : 16 ≤ s) (h2 : s < 2 ^ 30) :
    (minBlock + blockHdr ≤ sizeSub s total → InTables (insertIndex (sizeSub s total))) ↔
      total % 2 ^ 32 + 16 ≤ s ∧ 2 ^ (Nat.log2 (s - total % 2 ^ 32) - 4) ∣ total / 2 ^ 32 := by
  unfold sizeMod at hs
  have hsub : sizeSub s total = s + 2 ^ 64 - total := by
    unfold sizeSub sizeMod
    exact Nat.mod_eq_of_lt (by omega)
  have hbig : minBlock + blockHdr ≤ sizeSub s total := by
    rw [hsub]
    unfold minBlock blockHdr
    omega
  rw [imp_iff_right hbig, inTables_iff (by rw [hsub]; omega), hsub]
  by_cases hle : total % 2 ^ 32 ≤ s
  · have e1 : (s + 2 ^ 64 - total) % 2 ^ 32 = s - total % 2 ^ 32 := by omega
    have e2 : (s + 2 ^ 64 - total) / 2 ^ 32 = 2 ^ 32 - total / 2 ^ 32 := by omega
    rw [e1, e2]
    by_cases h16 : total % 2 ^ 32 + 16 ≤ s
    · have hlog : Nat.log2 (s - total % 2 ^ 32) < 30 := (Nat.log2_lt (by omega)).2 (by omega)
      rw [and_iff_right (show 16 ≤ s - total % 2 ^ 32 by omega),
        and_iff_right (show s - total % 2 ^ 32 < 2 ^ 30 by omega), and_iff_right h16]
      exact Nat.dvd_sub_iff_right (by omega) (Nat.pow_dvd_pow 2 (by omega))
    · exact iff_of_false (fun hx => h16 (by omega)) fun hx => h16 hx.1
  · -- the lower half borrows, and its highest bit is 31
    exact iff_of_false (fun hx => by omega) fun hx => hle (by omega)

theorem searches_iff (h : Fine m T) (h32 : 32 ≤ total) (hs : total < sizeMod) :
    Searches m T total ↔ total < 2 ^ 30 ∨ Astray m T total := by
  by_cases ht : total < 2 ^ 30
  · exact iff_of_true (h.searches h32 ht) (.inl ht)
  have hidx := searchIndex_large (show 2 ^ 30 ≤ total by omega)
  unfold Searches Astray
  rw [hidx, or_iff_right ht]
  by_cases hL : 16 ≤ total % 2 ^ 32 ∧ total % 2 ^ 32 < 2 ^ 30
  · rw [and_iff_right hL, and_iff_right (show 2 ^ 32 ≤ total by omega), and_iff_right hL.1,
      and_iff_right hL.2]
    refine imp_congr_right fun h0 => ?_
    obtain ⟨h1, h2⟩ := h.found h0
    rw [and_iff_right (inTables_of_lt h2)]
    exact rest_iff hs (by omega) hL.1 hL.2 h1 h2
  · exact iff_of_false (fun hx => hL hx.1) fun hx => hL ⟨hx.2.1, hx.2.2.1⟩

theorem totalNeeded_lt (n c : Nat) : totalNeeded n c < sizeMod := by
  unfold totalNeeded sizeAlign8 minBlock sizeMod
  dsimp only
  split <;> omega

/-! ## The calls -/

theorem answer_iff {q : Prop} {f : Nat → Prop} (h : ∀ self, f self ↔ q) (o : Option Nat) :
    (∀ self ∈ o, f self) ↔ (o ≠ none → q) := by
  cases o with
  | none => simp
  | some x => simp [h]

/-- `mp_alloc` after an expansion finds its tables whatever arena it gets to. -/
theorem budget_alloc {c bytes : Nat} (hc : c ≤ 1) (hb : bytes ≤ 4 * 1024 * 1024) :
    (∀ m T, Fine m T → Searches m T (totalNeeded bytes c)) ∧
      ∀ self, Makes p (expandSize (totalNeeded bytes c)) self := by
  have h1 := totalNeeded_bounds (n := bytes) (c := c) (by unfold sizeMod; omega)
  have h2 := le_totalNeeded bytes c
  unfold minBlock at h2
  have h3 :
    4194304 ≤ expandSize (totalNeeded bytes c) ∧ expandSize (totalNeeded bytes c) ≤ 2 ^ 30 := by
    unfold expandSize initSize sizeMod
    split <;> omega
  refine ⟨fun m T h => h.searches h2 (by omega), fun self => (makes_iff ?_).2 ?_⟩
  · unfold sizeMod
    omega
  · unfold ArenaSize
    omega

/-- **Sizes and the range of the index.** -/
theorem index_range (p : Place) (c : Call) (h : c.IsSize) : c.Respects p ↔ c.Admitted p := by
  have hc : p.canary ≤ 1 := Bool.toNat_le _
  cases c with
  | create n => exact imp_congr_right fun _ => answer_iff (fun _ => makes_iff h) _
  | expand n =>
    exact imp_congr_right fun _ => imp_congr_right fun _ => answer_iff (fun _ => makes_iff h) _
  | budget n =>
    refine imp_congr_right fun _ => imp_congr_right fun _ => imp_congr_right fun _ =>
      answer_iff (fun self => ?_) _
    rw [makes_iff h]
    exact and_iff_left fun hb => budget_alloc hc hb
  | fromBuffer n off =>
    exact imp_congr_right fun _ => makes_iff (Nat.lt_of_le_of_lt (by omega) h)
  | staticAlloc n => exact searches_iff p.fine (le_totalNeeded _ _) (totalNeeded_lt _ _)

/-- The system answers with memory at 4096; the arena at hand is empty. -/
def place : Place where
  mem _ := 0
  owner := 1
  answer := some 4096
  poolHdr := 4096
  buffer := 65536
  hasCanary := false
  isStatic := false
  hasArea := false
  arena := emptyIndex 0 0 1
  fine := by
    refine ⟨fun _ => False, fun _ _ => [],
      ⟨fun _ _ => DL.is_nil_iff.2 rfl, fun _ _ _ => ?_, fun _ _ => ?_, fun _ => ?_⟩,
      fun _ h => h.elim⟩
    · simp
    · simp [emptyIndex]
    · simp [emptyIndex]

theorem index_range_created : (Call.create 65536).Respects place :=
  (index_range place (.create 65536) (by show 65536 < sizeMod; decide)).2 fun _ _ => by
    unfold ArenaSize
    omega

/-- `mp_create(8, flags)` makes an arena whose block has `2 ^ 64 - 24` bytes. -/
theorem short_capacity : (Call.create 8).IsSize ∧ ¬ (Call.create 8).Respects place := by
  have h8 : 8 < sizeMod := by decide
  refine ⟨h8, fun h => ?_⟩
  have := (makes_iff h8).1 (h (by decide) 4096 rfl)
  unfold ArenaSize at this
  omega

end Range

end Cmem.L2.SharedTlsf

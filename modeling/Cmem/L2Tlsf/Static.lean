import Cmem.L2Tlsf.Range

/-!
# A pool in a buffer of its caller

`mp_create_from_buffer` (src/src/cmem_config.c:73-116) lays the pool, a `tlsf_pool_t` and one
free block with its sentinel out in memory that is not its own. What is left of the buffer is
rounded up to a multiple of 8, and the test of the size does not count the sentinel.
-/
namespace Cmem.L2.SharedTlsf

/-- Memory that a caller owns. -/
structure Buffer where
  base : Nat
  size : Nat
  pos : 0 < base
  top : base + size ≤ 2 ^ 64

/-- `sizeof(memory_pool_t)` -/
structure PoolHdr where
  bytes : Nat
  dvd : 8 ∣ bytes
  small : bytes < 2 ^ 32

/-- What is laid out: memory, the places of the pool and of the `tlsf_pool_t`, and the arena. -/
structure StaticPool where
  mem : Mem
  pool : Nat
  tlsf : Nat
  arena : TPool

/-- `aligned_addr - buf_addr` -/
def Buffer.alignOffset (b : Buffer) : Nat := sizeSub (sizeAlign8 b.base) b.base

/-- mirrors `mp_create_from_buffer`, src/src/cmem_config.c:73-116 -/
def mpCreateFromBuffer (hdr : PoolHdr) (m : Mem) (b : Buffer) : Option StaticPool :=
  if b.size < hdr.bytes + tpoolHdr + minBlock then none
  else if b.size ≤ b.alignOffset + hdr.bytes + tpoolHdr + minBlock then none
  else
    let pool := sizeAlign8 b.base
    let remainMem := pool + hdr.bytes
    let remainSz := b.size - b.alignOffset - hdr.bytes - tpoolHdr
    let r := tlsfCreatePoolCustom m pool remainSz remainMem
    some ⟨r.1, pool, remainMem, r.2⟩

/-- Bytes from `base` on. -/
structure Extent where
  base : Nat
  bytes : Nat

def Extent.Disjoint (x y : Extent) : Prop := x.base + x.bytes ≤ y.base ∨ y.base + y.bytes ≤ x.base

namespace StaticPool

/-- The size of the free block. -/
def seed (s : StaticPool) : Nat := span s.mem s.arena.raw

/-- The pool, the `tlsf_pool_t`, the free block, whose header is there whatever its size, and the
sentinel. -/
def extents (s : StaticPool) (hdr : PoolHdr) : List Extent :=
  [⟨s.pool, hdr.bytes⟩, ⟨s.tlsf, tpoolHdr⟩, ⟨s.arena.raw, max blockHdr s.seed⟩,
    ⟨s.arena.raw + s.seed, blockHdr⟩]

structure LaidOut (s : StaticPool) (hdr : PoolHdr) (b : Buffer) : Prop where
  apart : (s.extents hdr).Pairwise Extent.Disjoint
  inside : s.arena.raw + s.arena.size ≤ b.base + b.size
  least : minBlock ≤ s.seed

end StaticPool

section Static
variable {hdr : PoolHdr} {m : Mem} {b : Buffer} {s : StaticPool}

/-- A region of at least 40 bytes has a block of all but the sentinel. -/
theorem seedRegion_span {raw size : Nat} (h : 40 ≤ size) (hs : size < sizeMod) (h8 : 8 ∣ size) :
    span (seedRegion m raw size) raw = size - 32 := by
  obtain ⟨m₁, e0, -, -, e⟩ := seedRegion_eq m raw (by unfold blockHdr; omega) hs h8
  have hw : seedRegion m raw size raw = orFree (size - 32) := by
    rw [e]
    exact (Mem.set_ne _ _ (by omega)).trans ((Mem.set_ne _ _ (by omega)).trans e0)
  exact (congrArg blockSize hw).trans (blockSize_orFree.trans (blockSize_of_dvd (by omega)))

/-- The first address of the buffer that is a multiple of 8, and how far it is. -/
theorem alignOffset_spec (h : 64 ≤ b.size) :
    sizeAlign8 b.base = b.base + b.alignOffset ∧ 8 ∣ b.base + b.alignOffset ∧
    b.alignOffset < 8 := by
  have htop := b.top
  have h8 := sizeAlign8_dvd b.base
  have he : sizeAlign8 b.base = (b.base + 7) / 8 * 8 := by
    unfold sizeAlign8 sizeMod
    rw [Nat.mod_eq_of_lt (by omega)]
  have ho : b.alignOffset = (b.base + 7) / 8 * 8 - b.base := by
    unfold Buffer.alignOffset
    rw [he]
    exact sizeSub_of_le (by omega) (by unfold sizeMod; omega)
  rw [he, ho]
  omega

/-- Where everything is. -/
theorem mpCreateFromBuffer_eq (h : mpCreateFromBuffer hdr m b = some s) :
    ∃ rest, b.size = b.alignOffset + hdr.bytes + tpoolHdr + rest ∧ minBlock < rest ∧
      s.pool = b.base + b.alignOffset ∧ s.tlsf = s.pool + hdr.bytes ∧
      s.arena.raw = s.tlsf + tpoolHdr ∧ s.arena.size = (rest + 7) / 8 * 8 ∧
      s.seed = (rest + 7) / 8 * 8 - 32 := by
  unfold mpCreateFromBuffer at h
  split at h
  · cases h
  split at h
  · cases h
  next h1 h2 =>
    have htop := b.top
    obtain rfl := Option.some.inj h
    unfold tpoolHdr minBlock at *
    obtain ⟨hpool, -⟩ := alignOffset_spec (b := b) (by omega)
    refine ⟨b.size - b.alignOffset - hdr.bytes - 23240, by omega, by omega, hpool, rfl, rfl, ?_, ?_⟩
    all_goals
      have hsz : sizeAlign8 (b.size - b.alignOffset - hdr.bytes - 23240) =
          (b.size - b.alignOffset - hdr.bytes - 23240 + 7) / 8 * 8 := by
        unfold sizeAlign8 sizeMod
        rw [Nat.mod_eq_of_lt (by omega)]
    · exact hsz
    · refine Eq.trans (seedRegion_span ?_ ?_ (sizeAlign8_dvd _)) (by rw [hsz]) <;> rw [hsz]
      · omega
      · unfold sizeMod
        omega

/-- **The layout of a static pool** is right exactly when the buffer ends at a multiple of 8 and
has 32 bytes more than the least size that is taken. -/
theorem static_layout_iff (h : mpCreateFromBuffer hdr m b = some s) :
    s.LaidOut hdr b ↔
      8 ∣ b.base + b.size ∧
      b.alignOffset + hdr.bytes + tpoolHdr + minBlock + blockHdr ≤ b.size := by
  obtain ⟨rest, hsize, hrest, hpool, htlsf, hraw, harena, hseed⟩ := mpCreateFromBuffer_eq h
  have hdvd := hdr.dvd
  unfold tpoolHdr minBlock blockHdr at *
  obtain ⟨-, h8, -⟩ := alignOffset_spec (b := b) (by omega)
  constructor
  · rintro ⟨-, hin, hleast⟩
    rw [harena] at hin
    unfold minBlock at hleast
    omega
  · rintro ⟨hend, hlen⟩
    refine ⟨?_, ?_, ?_⟩
    · unfold StaticPool.extents Extent.Disjoint blockHdr tpoolHdr
      simp only [List.pairwise_cons, List.mem_cons, List.not_mem_nil, or_false, forall_eq_or_imp,
        forall_eq, List.Pairwise.nil, and_true, false_imp_iff, implies_true]
      omega
    · omega
    · unfold minBlock
      omega

/-- A header of 4096 bytes. -/
def pageHdr : PoolHdr := ⟨4096, ⟨512, rfl⟩, by decide⟩

theorem static_layout_aligned :
    ∃ s, mpCreateFromBuffer pageHdr (fun _ => 0) ⟨65536, 65536, by decide, by decide⟩ = some s ∧
      s.LaidOut pageHdr ⟨65536, 65536, by decide, by decide⟩ := by
  have htaken :
    (mpCreateFromBuffer pageHdr (fun _ => 0) ⟨65536, 65536, by decide, by decide⟩).isSome := by
    decide +kernel
  obtain ⟨s, hs⟩ := Option.isSome_iff_exists.mp htaken
  exact ⟨s, hs, (static_layout_iff hs).mpr ⟨⟨16384, rfl⟩, by decide +kernel⟩⟩

/-- A buffer of 65537 bytes is taken and its arena ends 7 bytes behind it; one of 27376 bytes, 8
more than what is refused, has a block of 8 bytes, with the sentinel written over its header. -/
theorem static_buffer_overrun :
    (mpCreateFromBuffer pageHdr (fun _ => 0) ⟨65536, 65537, by decide, by decide⟩).isSome ∧
    (∀ s ∈ mpCreateFromBuffer pageHdr (fun _ => 0) ⟨65536, 65537, by decide, by decide⟩,
      s.arena.raw + s.arena.size = 65536 + 65537 + 7 ∧
        ¬s.LaidOut pageHdr ⟨65536, 65537, by decide, by decide⟩) ∧
    (mpCreateFromBuffer pageHdr (fun _ => 0) ⟨65536, 27376, by decide, by decide⟩).isSome ∧
    ∀ s ∈ mpCreateFromBuffer pageHdr (fun _ => 0) ⟨65536, 27376, by decide, by decide⟩,
      s.seed = 8 ∧ ¬s.LaidOut pageHdr ⟨65536, 27376, by decide, by decide⟩ := by
  have h0 : ∀ n h h', (⟨65536, n, h, h'⟩ : Buffer).alignOffset = 0 := fun n h h' => by
    show sizeSub (sizeAlign8 65536) 65536 = 0
    decide +kernel
  refine ⟨by decide +kernel, fun s hs => ?_, by decide +kernel, fun s hs => ?_⟩
  · obtain ⟨rest, hsize, -, hpool, htlsf, hraw, harena, -⟩ :=
      mpCreateFromBuffer_eq (Option.mem_def.mp hs)
    rw [h0] at hsize hpool
    unfold pageHdr tpoolHdr at *
    dsimp only at *
    have hend : s.arena.raw + s.arena.size = 65536 + 65537 + 7 := by omega
    refine ⟨hend, fun h => ?_⟩
    have := h.inside
    dsimp only at this
    omega
  · obtain ⟨rest, hsize, -, hpool, htlsf, hraw, harena, hseed⟩ :=
      mpCreateFromBuffer_eq (Option.mem_def.mp hs)
    rw [h0] at hsize hpool
    unfold pageHdr tpoolHdr at *
    dsimp only at *
    have h8 : s.seed = 8 := by omega
    refine ⟨h8, fun h => ?_⟩
    have := h.least
    unfold minBlock at this
    omega

end Static

end Cmem.L2.SharedTlsf

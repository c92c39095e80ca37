import Mathlib
import Cmem.L1Layout.Block

/-!
# FREE and PREV_FREE along the physical chain

Completeness of coalescing: no two FREE blocks are neighbours and, where `k`
holds, PREV_FREE is set exactly behind a FREE block. Both allocators state it of
the block list in address order.
-/
namespace Cmem

/-- No two neighbours are both FREE and, under `k`, PREV_FREE is set exactly
when the predecessor is FREE; `pf` is the predecessor's state. -/
def Flags (k : Prop) (m : Mem) : Bool → List Nat → Prop
  | _, [] => True
  | pf, a :: l => ¬ (pf ∧ isFree m a) ∧ (k → prevFreeBit (m a) = pf) ∧ Flags k m (isFree m a) l

/-- `Flags` of a list whose first block has an unreliable PREV_FREE bit and an
unknown predecessor. -/
def FlagsTail (k : Prop) (m : Mem) : List Nat → Prop
  | [] => True
  | a :: l => Flags k m (isFree m a) l

/-- The state of the last block of a list. -/
def lastFree (m : Mem) (l : List Nat) : Bool := (l.getLast?.map (isFree m)).getD false

/-- The state of the first block of a list. -/
def headFree (m : Mem) (l : List Nat) : Bool := (l.head?.map (isFree m)).getD false

section Flags
variable {k : Prop} {m m' : Mem} {pf : Bool} {l xs ys : List Nat}

/-- Only the two state bits of the blocks matter. -/
theorem Flags.of_bits (h : Flags k m pf l)
    (hag : ∀ a ∈ l, isFree m' a = isFree m a ∧ prevFreeBit (m' a) = prevFreeBit (m a)) :
    Flags k m' pf l := by
  induction l generalizing pf with
  | nil => trivial
  | cons a l ih =>
    obtain ⟨h1, h2, h3⟩ := h
    obtain ⟨e1, e2⟩ := hag a List.mem_cons_self
    refine ⟨by rw [e1]; exact h1, fun hk => e2.trans (h2 hk), ?_⟩
    rw [e1]
    exact ih h3 fun b hb => hag b (List.mem_cons_of_mem _ hb)

theorem Flags.congr (h : Flags k m pf l) (hag : ∀ a ∈ l, m' a = m a) : Flags k m' pf l :=
  h.of_bits fun a ha => ⟨congrArg freeBit (hag a ha), congrArg prevFreeBit (hag a ha)⟩

theorem FlagsTail.congr (h : FlagsTail k m l) (hag : ∀ a ∈ l, m' a = m a) : FlagsTail k m' l := by
  cases l with
  | nil => trivial
  | cons a l =>
    have hf : isFree m' a = isFree m a := congrArg freeBit (hag a List.mem_cons_self)
    simp only [FlagsTail, hf] at h ⊢
    exact h.congr fun b hb => hag b (List.mem_cons_of_mem _ hb)

theorem Flags.tail (h : Flags k m pf l) : FlagsTail k m l := by
  cases l with
  | nil => trivial
  | cons a l => exact h.2.2

theorem Flags.head_not (h : Flags k m true l) : headFree m l = false := by
  cases l with
  | nil => rfl
  | cons a l => simpa [headFree] using h.1

theorem Flags.append_iff : Flags k m pf (xs ++ ys) ↔
    Flags k m pf xs ∧ Flags k m ((xs.getLast?.map (isFree m)).getD pf) ys := by
  induction xs generalizing pf with
  | nil => simp [Flags]
  | cons a xs ih =>
    have e : ((a :: xs).getLast?.map (isFree m)).getD pf
        = (xs.getLast?.map (isFree m)).getD (isFree m a) := by
      cases xs with
      | nil => rfl
      | cons b xs => simp [List.getLast?_cons]
    simp only [List.cons_append, Flags, ih, e, and_assoc]

theorem Flags.append (h : Flags k m false (xs ++ ys)) :
    Flags k m false xs ∧ Flags k m (lastFree m xs) ys :=
  Flags.append_iff.mp h

/-- Rejoin at a block whose own bit is right. -/
theorem Flags.join {b : Nat} (hx : Flags k m false xs)
    (hb : isFree m b = true → lastFree m xs = false) (hp : k → prevFreeBit (m b) = lastFree m xs)
    (hy : Flags k m (isFree m b) ys) : Flags k m false (xs ++ b :: ys) := by
  refine Flags.append_iff.mpr ⟨hx, ?_, hp, hy⟩
  rintro ⟨h1, h2⟩
  have := hb h2
  rw [lastFree] at this
  simp_all

theorem headFree_of_isFree (h : ∀ a ∈ l, isFree m' a = isFree m a) :
    headFree m' l = headFree m l := by
  cases l with
  | nil => rfl
  | cons a l => exact h a List.mem_cons_self

theorem lastFree_of_isFree (h : ∀ a ∈ l, isFree m' a = isFree m a) :
    lastFree m' l = lastFree m l := by
  unfold lastFree
  cases e : l.getLast? with
  | none => rfl
  | some a => exact h a (List.mem_of_getLast? e)

theorem headFree_congr (h : ∀ a ∈ l, m' a = m a) : headFree m' l = headFree m l :=
  headFree_of_isFree fun a ha => congrArg freeBit (h a ha)

theorem lastFree_congr (h : ∀ a ∈ l, m' a = m a) : lastFree m' l = lastFree m l :=
  lastFree_of_isFree fun a ha => congrArg freeBit (h a ha)

end Flags

end Cmem

import Cmem.Core.Links
import Cmem.L2Tlsf.Heap

/-!
# The thread cache as a stack of handles

The entries of bucket `i` are used as a stack: the list from `tlsf_slots[i]`
visits the first `tlsf_counts[i]` entries of the bucket, last pushed first
(`TlsOk`). `cached` lists what they hold. A hit takes one handle off the list, a
push adds one, and a flush is `reinsertAll cached`.
-/
namespace Cmem.L2.SharedTlsf

/-- The entries of bucket `i` in use, last pushed first. -/
def ptrs (i : Nat) : Nat → List Nat
  | 0 => []
  | n + 1 => (i * cacheMaxSlots + n + 1) :: ptrs i n

def Tls.next (C : Tls) (p : Nat) : Nat := (C.entries (p - 1)).next

/-- The handle an entry holds: arena and block. -/
def Tls.handle (C : Tls) (p : Nat) : Nat × Nat :=
  ((C.entries (p - 1)).tpool, (C.entries (p - 1)).block)

def Tls.bucket (C : Tls) (i : Nat) : List (Nat × Nat) := (ptrs i (C.counts i)).map C.handle

def cached (C : Tls) : List (Nat × Nat) := (List.range cacheSizes).flatMap C.bucket

structure TlsOk (C : Tls) : Prop where
  chain : ∀ i < cacheSizes, Chain C.next (C.slots i) (ptrs i (C.counts i))
  le : ∀ i < cacheSizes, C.counts i ≤ cacheMaxSlots

/-- Put cached blocks back into the index of their arenas. -/
def reinsertAll (H : Heap) : List (Nat × Nat) → Heap
  | [] => H
  | p :: ps => reinsertAll (H.put p.1 (reinsert H.mem (H.tp p.1) p.2)) ps

section Cache
variable {k : Prop} {H : Heap} {C : Tls} {hs : List (Nat × Nat)} {as : Nat → List Nat} {i n : Nat}

theorem mem_ptrs {p : Nat} : p ∈ ptrs i n ↔ i * cacheMaxSlots < p ∧ p ≤ i * cacheMaxSlots + n := by
  induction n with
  | zero => simp [ptrs]
  | succ n ih =>
    simp only [ptrs, List.mem_cons, ih]
    omega

theorem length_ptrs : (ptrs i n).length = n := by
  induction n with
  | zero => rfl
  | succ n ih => simp [ptrs, ih]

theorem reinsertAll_append (H : Heap) (l l' : List (Nat × Nat)) :
    reinsertAll H (l ++ l') = reinsertAll (reinsertAll H l) l' := by
  induction l generalizing H with
  | nil => rfl
  | cons p l ih => exact ih _

theorem reinsertAll_wf {l : List (Nat × Nat)} (h : Wf k H (l ++ hs) as) :
    ∃ as', Wf (k ∧ l = []) (reinsertAll H l) hs as' ∧ Stays H (reinsertAll H l) hs ∧
      (reinsertAll H l).arenas = H.arenas := by
  induction l generalizing k H as with
  | nil => exact ⟨as, h.mono And.left, Stays.refl, rfl⟩
  | cons p l ih =>
    obtain ⟨as₁, w, kp⟩ := reinsert_wf (t := p.1) (b := p.2) h
    obtain ⟨as', w', kp', ha⟩ := ih w
    refine ⟨as', w'.mono fun hk => ?_,
      (kp.mono fun q hq => List.mem_append_right _ hq).trans kp', ha⟩
    exact absurd hk.2 (List.cons_ne_nil _ _)

/-! ## Draining -/

theorem drainBucket_eq {ps : List Nat} (fuel : Nat) (hc : Chain C.next (C.slots i) ps)
    (hf : ps.length < fuel) : drainBucket fuel H C i =
      (reinsertAll H (ps.map C.handle), { C with slots := Function.update C.slots i 0 }) := by
  induction ps generalizing fuel H C with
  | nil =>
    obtain ⟨f, rfl⟩ : ∃ f, fuel = f + 1 := ⟨fuel - 1, by omega⟩
    have h0 : C.slots i = 0 := hc
    rw [drainBucket, if_pos h0, ← h0, Function.update_eq_self]
    rfl
  | cons p ps ih =>
    obtain ⟨f, rfl⟩ : ∃ f, fuel = f + 1 := ⟨fuel - 1, by omega⟩
    obtain ⟨hp, h0, hc⟩ := hc
    have hc' : Chain (C.unlink i).next ((C.unlink i).slots i) ps := by
      simp only [Tls.unlink, Function.update_self, hp]
      exact hc
    rw [drainBucket, if_neg (hp ▸ h0), ih f hc' (by simpa using hf)]
    simp only [Tls.unlink, Function.update_idem, hp]
    rfl

/-- The cache after the buckets `is` have been drained. -/
def Tls.drained (C : Tls) (is : List Nat) : Tls :=
  { C with slots := fun i => if i ∈ is then 0 else C.slots i,
           counts := fun i => if i ∈ is then 0 else C.counts i }

theorem flushFrom_eq {is : List Nat} (hnd : is.Nodup)
    (hc : ∀ i ∈ is, Chain C.next (C.slots i) (ptrs i (C.counts i)) ∧ C.counts i ≤ cacheMaxSlots) :
    flushFrom H C is = (reinsertAll H (is.flatMap C.bucket), C.drained is) := by
  induction is generalizing H C with
  | nil => simp [flushFrom, Tls.drained, reinsertAll]
  | cons i is ih =>
    obtain ⟨hi, hnd⟩ := List.nodup_cons.mp hnd
    obtain ⟨h1, h2⟩ := hc i List.mem_cons_self
    have hd := drainBucket_eq (H := H) (cacheMaxSlots + 1) h1 (by rw [length_ptrs]; omega)
    -- the other buckets do not see that bucket `i` is gone
    have hc' :
        ∀ j ∈ is, Chain (C.drained [i]).next ((C.drained [i]).slots j)
          (ptrs j ((C.drained [i]).counts j)) ∧ (C.drained [i]).counts j ≤ cacheMaxSlots := by
      intro j hj
      have hne : j ∉ [i] := fun e => hi (List.mem_singleton.mp e ▸ hj)
      simp only [Tls.drained, if_neg hne]
      exact hc j (List.mem_cons_of_mem _ hj)
    have hb : is.flatMap (C.drained [i]).bucket = is.flatMap C.bucket := by
      refine List.flatMap_congr fun j hj => ?_
      have hne : j ∉ [i] := fun e => hi (List.mem_singleton.mp e ▸ hj)
      simp only [Tls.bucket, Tls.drained, if_neg hne]
      rfl
    have hcl :
      clearCount (drainBucket (cacheMaxSlots + 1) H C i) i =
        (reinsertAll H (C.bucket i), C.drained [i]) := by
      rw [hd]
      simp only [clearCount, Tls.bucket, Tls.drained, List.mem_singleton]
      congr 2 <;> funext j <;> exact Function.update_apply ..
    rw [flushFrom, hcl, ih hnd hc', hb, List.flatMap_cons, reinsertAll_append]
    congr 1
    simp only [Tls.drained, List.mem_cons]
    congr 1 <;> funext j <;> by_cases h1 : j ∈ is <;> by_cases h2 : j = i <;> simp [h1, h2]

theorem TlsOk.flush (h : TlsOk C) :
    flushCache H C = (reinsertAll H (cached C), C.drained (List.range cacheSizes)) :=
  flushFrom_eq List.nodup_range fun i hi =>
    ⟨h.chain i (List.mem_range.mp hi), h.le i (List.mem_range.mp hi)⟩

theorem TlsOk.of_drained : TlsOk (C.drained (List.range cacheSizes)) := by
  refine ⟨fun i hi => ?_, fun i hi => ?_⟩ <;>
    simp only [Tls.drained, if_pos (List.mem_range.mpr hi)]
  · rfl
  · exact Nat.zero_le _

theorem cached_drained : cached (C.drained (List.range cacheSizes)) = [] := by
  refine List.flatMap_eq_nil_iff.mpr fun i hi => ?_
  simp only [Tls.bucket, Tls.drained, if_pos hi]
  rfl

/-! ## Push and pop -/

/-- One bucket of a family gains an element. -/
theorem flatMap_perm_cons {α β : Type} {f g : α → List β} {x : β} {l : List α} {a : α} (ha : a ∈ l)
    (hnd : l.Nodup) (hf : f a = x :: g a) (hne : ∀ b ∈ l, b ≠ a → f b = g b) :
    (l.flatMap f).Perm (x :: l.flatMap g) := by
  induction l with
  | nil => cases ha
  | cons b l ih =>
    obtain ⟨hb, hnd⟩ := List.nodup_cons.mp hnd
    rw [List.flatMap_cons, List.flatMap_cons]
    rcases List.mem_cons.mp ha with rfl | ha
    · rw [hf, List.flatMap_congr fun c hc => hne c (List.mem_cons_of_mem _ hc) fun e => hb (e ▸ hc)]
      exact List.Perm.refl _
    · rw [hne b List.mem_cons_self fun e => hb (e ▸ ha)]
      have := ih ha hnd fun c hc => hne c (List.mem_cons_of_mem _ hc)
      exact (this.append_left _).trans List.perm_middle

theorem TlsOk.pop (h : TlsOk C) (hi : i < cacheSizes) (h0 : C.counts i ≠ 0) :
    TlsOk (C.pop i) ∧
      (cached C).Perm (((C.entries (C.slots i - 1)).tpool, (C.entries (C.slots i - 1)).block) ::
        cached (C.pop i)) := by
  obtain ⟨n, hn⟩ : ∃ n, C.counts i = n + 1 := ⟨C.counts i - 1, by omega⟩
  have hc := h.chain i hi
  rw [hn] at hc
  obtain ⟨e, -, hc⟩ := hc
  have hnext : (C.pop i).next = C.next := rfl
  have hne : ∀ j, j ≠ i → (C.pop i).slots j = C.slots j ∧ (C.pop i).counts j = C.counts j :=
    fun j hj => by
    simp [Tls.pop, Tls.unlink, hj]
  have hself : (C.pop i).slots i = C.next (i * cacheMaxSlots + n + 1) ∧ (C.pop i).counts i = n := by
    simp [Tls.pop, Tls.unlink, hn, e, Tls.next]
  refine ⟨⟨fun j hj => ?_, fun j hj => ?_⟩,
    flatMap_perm_cons (List.mem_range.mpr hi) List.nodup_range ?_ ?_⟩
  · rw [hnext]
    by_cases ej : j = i
    · rw [ej, hself.1, hself.2]; exact hc
    · rw [(hne j ej).1, (hne j ej).2]; exact h.chain j hj
  · by_cases ej : j = i
    · have := h.le i hi
      rw [ej, hself.2]; omega
    · rw [(hne j ej).2]; exact h.le j hj
  · unfold Tls.bucket
    rw [hn, hself.2, e]
    rfl
  · intro j _ hj
    unfold Tls.bucket
    rw [(hne j hj).2]
    rfl

theorem TlsOk.push (h : TlsOk C) {t b : Nat} (hi : i < cacheSizes)
    (hlt : C.counts i < cacheMaxSlots) :
    TlsOk (C.push i b t) ∧ (cached (C.push i b t)).Perm ((t, b) :: cached C) := by
  have hne :
    ∀ j, j ≠ i → (C.push i b t).slots j = C.slots j ∧ (C.push i b t).counts j = C.counts j :=
    fun j hj => by simp [Tls.push, hj]
  have hself : (C.push i b t).slots i = i * cacheMaxSlots + C.counts i + 1 ∧
      (C.push i b t).counts i = C.counts i + 1 := by
    simp [Tls.push]
  -- the entry written is above every entry in use
  have hent : ∀ j < cacheSizes, ∀ p ∈ ptrs j (C.counts j),
    (C.push i b t).entries (p - 1) = C.entries (p - 1) := by
    intro j hj p hp
    rw [mem_ptrs] at hp
    have := h.le j hj
    unfold cacheMaxSlots at *
    have : p - 1 ≠ i * 8 + C.counts i := by
      by_cases ej : j = i
      · rw [ej] at hp; omega
      · omega
    simp only [Tls.push, cacheMaxSlots]
    exact Function.update_of_ne this _ _
  refine ⟨⟨fun j hj => ?_, fun j hj => ?_⟩,
    flatMap_perm_cons (List.mem_range.mpr hi) List.nodup_range ?_ ?_⟩
  · have hc : Chain (C.push i b t).next (C.slots j) (ptrs j (C.counts j)) :=
      (h.chain j hj).congr fun p hp =>
      congrArg Entry.next (hent j hj p hp)
    by_cases ej : j = i
    · rw [ej] at hc ⊢
      rw [hself.1, hself.2]
      refine ⟨rfl, by omega, ?_⟩
      have : (C.push i b t).next (i * cacheMaxSlots + C.counts i + 1) = C.slots i := by
        simp [Tls.push, Tls.next]
      rw [this]
      exact hc
    · rw [(hne j ej).1, (hne j ej).2]; exact hc
  · by_cases ej : j = i
    · rw [ej, hself.2]; exact hlt
    · rw [(hne j ej).2]; exact h.le j hj
  · unfold Tls.bucket
    rw [hself.2, ptrs, List.map_cons]
    congr 1
    · simp [Tls.handle, Tls.push]
    · exact List.map_congr_left fun p hp => by
        unfold Tls.handle; rw [hent i hi p hp]
  · intro j hj ej
    unfold Tls.bucket
    rw [(hne j ej).2]
    exact List.map_congr_left fun p hp => by
      unfold Tls.handle; rw [hent j (List.mem_range.mp hj) p hp]

end Cache

end Cmem.L2.SharedTlsf

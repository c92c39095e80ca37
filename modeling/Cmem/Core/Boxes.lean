import Cmem.Core.Links

/-!
# Slots in shared lists, in threads' hands and with their users

Nodes that several threads move between shared singly linked lists. `loc` says
where each node is: with a user (`hand`), in the shared list `i`, or with the
thread `t`. `Boxed next head Q W loc`: the list from `head i` visits exactly the
nodes of `Q i`, and `W t` lists the nodes of thread `t`. A node has one place, so
all these lists are disjoint. The rules below are the atomic steps of a lock-free
stack and of a queue that is taken as a whole.
-/
namespace Cmem

inductive Box (ι T : Type*) where
  | hand
  | queue (i : ι)
  | thread (t : T)

variable {α ι T : Type*} [Zero α]

structure Boxed (next : α → α) (head : ι → α) (Q : ι → List α) (W : T → List α)
    (loc : α → Box ι T) : Prop where
  chain : ∀ i, Chain next (head i) (Q i)
  inQ : ∀ i a, a ∈ Q i ↔ loc a = .queue i
  inW : ∀ t a, a ∈ W t ↔ loc a = .thread t
  nodup : ∀ t, (W t).Nodup

namespace Boxed

variable [DecidableEq α] [DecidableEq ι] [DecidableEq T]
  {next next' : α → α} {head : ι → α} {Q : ι → List α} {W : T → List α} {loc : α → Box ι T}
  {i : ι} {t : T} {a : α}

omit [DecidableEq α] [DecidableEq ι] [DecidableEq T] in
/-- Nodes outside the shared lists may be written. -/
theorem write (h : Boxed next head Q W loc) (hw : ∀ a i, loc a = .queue i → next' a = next a) :
    Boxed next' head Q W loc :=
  ⟨fun i => (h.chain i).congr fun a ha => hw a i ((h.inQ i a).mp ha), h.inQ, h.inW, h.nodup⟩

omit [DecidableEq ι] in
/-- A thread takes nodes from their users. -/
theorem take {l : List α} (h : Boxed next head Q W loc) (hW : W t = []) (hnd : l.Nodup)
    (hl : ∀ a ∈ l, loc a = .hand) :
    Boxed next head Q (Function.update W t l) (fun a => if a ∈ l then .thread t else loc a) := by
  refine ⟨h.chain, fun j b => ?_, fun u b => ?_, fun u => ?_⟩
  · rw [h.inQ]
    split
    · rename_i hb
      simp [hl b hb]
    · rfl
  · by_cases hb : b ∈ l
    · rw [if_pos hb]
      by_cases e : u = t
      · subst e; simp [hb]
      · rw [Function.update_of_ne e, h.inW, hl b hb]
        simpa using Ne.symm e
    · rw [if_neg hb, ← h.inW]
      by_cases e : u = t
      · subst e
        rw [Function.update_self, hW]
        simp [hb]
      · rw [Function.update_of_ne e]
  · by_cases e : u = t
    · subst e; rw [Function.update_self]; exact hnd
    · rw [Function.update_of_ne e]; exact h.nodup u

omit [DecidableEq ι] in
/-- A thread gives its first node back to a user. -/
theorem give {l : List α} (h : Boxed next head Q W loc) (hW : W t = a :: l) :
    Boxed next head Q (Function.update W t l) (Function.update loc a .hand) := by
  have hnd := h.nodup t
  rw [hW] at hnd
  obtain ⟨hal, hnd⟩ := List.nodup_cons.mp hnd
  have ha : loc a = .thread t := (h.inW t a).mp (by rw [hW]; exact List.mem_cons_self)
  refine ⟨h.chain, fun j b => ?_, fun u b => ?_, fun u => ?_⟩
  · rw [h.inQ, Function.update_apply]
    split
    · rename_i e
      subst e
      simp [ha]
    · rfl
  · rw [Function.update_apply, Function.update_apply]
    by_cases eb : b = a
    · subst eb
      rw [if_pos rfl]
      refine iff_of_false ?_ (by simp)
      split
      · exact hal
      · rename_i eu
        rw [h.inW, ha]
        simpa using Ne.symm eu
    · rw [if_neg eb, ← h.inW]
      split
      · rename_i eu
        rw [eu, hW]
        simp [eb]
      · rfl
  · rw [Function.update_apply]
    split
    · exact hnd
    · exact h.nodup u

/-- A thread publishes its nodes in front of list `i`. -/
theorem publish {ws : List α} {p : α} (h : Boxed next head Q W loc) (hW : W t = ws)
    (hc : Chain next p (ws ++ Q i)) :
    Boxed next (Function.update head i p) (Function.update Q i (ws ++ Q i)) (Function.update W t [])
      (fun a => if a ∈ ws then .queue i else loc a) := by
  have hin : ∀ b, b ∈ ws ↔ loc b = .thread t := fun b => by rw [← hW]; exact h.inW t b
  refine ⟨fun j => ?_, fun j b => ?_, fun u b => ?_, fun u => ?_⟩
  · by_cases e : j = i
    · subst e; rw [Function.update_self, Function.update_self]; exact hc
    · rw [Function.update_of_ne e, Function.update_of_ne e]; exact h.chain j
  · by_cases hb : b ∈ ws
    · rw [if_pos hb]
      have hl := (hin b).mp hb
      by_cases e : j = i
      · subst e; simp [hb]
      · rw [Function.update_of_ne e, h.inQ, hl]
        simpa using Ne.symm e
    · rw [if_neg hb, ← h.inQ]
      by_cases e : j = i
      · subst e; simp [hb]
      · rw [Function.update_of_ne e]
  · by_cases hb : b ∈ ws
    · rw [if_pos hb]
      have hl := (hin b).mp hb
      by_cases e : u = t
      · subst e; simp
      · rw [Function.update_of_ne e, h.inW, hl]
        simpa using Ne.symm e
    · rw [if_neg hb, ← h.inW]
      by_cases e : u = t
      · subst e
        rw [Function.update_self, hW]
        simp [hb]
      · rw [Function.update_of_ne e]
  · by_cases e : u = t
    · subst e; rw [Function.update_self]; exact List.nodup_nil
    · rw [Function.update_of_ne e]; exact h.nodup u

/-- A thread takes the whole list `i`. -/
theorem exchange (h : Boxed next head Q W loc) (hW : W t = []) :
    Boxed next (Function.update head i 0) (Function.update Q i []) (Function.update W t (Q i))
      (fun a => if a ∈ Q i then .thread t else loc a) := by
  refine ⟨fun j => ?_, fun j b => ?_, fun u b => ?_, fun u => ?_⟩
  · by_cases e : j = i
    · subst e; rw [Function.update_self, Function.update_self]; rfl
    · rw [Function.update_of_ne e, Function.update_of_ne e]; exact h.chain j
  · by_cases hb : b ∈ Q i
    · rw [if_pos hb]
      have hl := (h.inQ i b).mp hb
      by_cases e : j = i
      · subst e; simp
      · rw [Function.update_of_ne e, h.inQ, hl]
        simpa using Ne.symm e
    · rw [if_neg hb, ← h.inQ]
      by_cases e : j = i
      · subst e; simp [hb]
      · rw [Function.update_of_ne e]
  · by_cases hb : b ∈ Q i
    · rw [if_pos hb]
      have hl := (h.inQ i b).mp hb
      by_cases e : u = t
      · subst e; simp [hb]
      · rw [Function.update_of_ne e, h.inW, hl]
        simpa using Ne.symm e
    · rw [if_neg hb, ← h.inW]
      by_cases e : u = t
      · subst e
        rw [Function.update_self, hW]
        simp [hb]
      · rw [Function.update_of_ne e]
  · by_cases e : u = t
    · subst e; rw [Function.update_self]; exact (h.chain i).nodup
    · rw [Function.update_of_ne e]; exact h.nodup u

/-- A thread takes the first node of list `i`. -/
theorem pop {l : List α} (h : Boxed next head Q W loc) (hQ : Q i = a :: l) (hW : W t = []) :
    Boxed next (Function.update head i (next a)) (Function.update Q i l) (Function.update W t [a])
      (Function.update loc a (.thread t)) := by
  have hc := h.chain i
  rw [hQ] at hc
  have hnd := hc.nodup
  obtain ⟨hal, -⟩ := List.nodup_cons.mp hnd
  have ha : loc a = .queue i := (h.inQ i a).mp (by rw [hQ]; exact List.mem_cons_self)
  refine ⟨fun j => ?_, fun j b => ?_, fun u b => ?_, fun u => ?_⟩
  · by_cases e : j = i
    · subst e; rw [Function.update_self, Function.update_self]; exact hc.2.2
    · rw [Function.update_of_ne e, Function.update_of_ne e]; exact h.chain j
  · by_cases eb : b = a
    · subst eb
      rw [Function.update_self]
      refine iff_of_false ?_ (by simp)
      by_cases e : j = i
      · subst e; rw [Function.update_self]; exact hal
      · rw [Function.update_of_ne e, h.inQ, ha]
        simpa using Ne.symm e
    · rw [Function.update_of_ne eb, ← h.inQ]
      by_cases e : j = i
      · subst e; rw [Function.update_self, hQ]; simp [eb]
      · rw [Function.update_of_ne e]
  · by_cases eb : b = a
    · subst eb
      rw [Function.update_self]
      by_cases e : u = t
      · subst e; simp
      · rw [Function.update_of_ne e, h.inW, ha]
        simpa using Ne.symm e
    · rw [Function.update_of_ne eb, ← h.inW]
      by_cases e : u = t
      · subst e
        rw [Function.update_self, hW]
        simp [eb]
      · rw [Function.update_of_ne e]
  · by_cases e : u = t
    · subst e; rw [Function.update_self]; simp
    · rw [Function.update_of_ne e]; exact h.nodup u

end Boxed

end Cmem

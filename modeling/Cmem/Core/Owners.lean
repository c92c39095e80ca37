import Mathlib

/-!
# Things that threads pass on

`R p a`: a thread at `p` has the thing `a`. `Owners R pc live`: whatever a thread has is not
`live`, that is, with a user, and no two threads have the same. The rules are for one thread
that moves on; `Has` is the set of all things.
-/
namespace Cmem

variable {T P A : Type*}

structure Owners (R : P → A → Prop) (pc : T → P) (live : A → Prop) : Prop where
  apart : ∀ {t a}, R (pc t) a → ¬live a
  unique : ∀ {t u a}, R (pc t) a → R (pc u) a → t = u

/-- A user or a thread has it. -/
def Has (R : P → A → Prop) (pc : T → P) (live : A → Prop) (a : A) : Prop := live a ∨ ∃ t, R (pc t) a

variable [DecidableEq T] {R : P → A → Prop} {pc : T → P} {live live' : A → Prop} {t : T}
  {p : P} {x a : A}

theorem exists_update : (∃ u, R (Function.update pc t p u) a) ↔
    R p a ∨ ∃ u, u ≠ t ∧ R (pc u) a := by
  constructor
  · rintro ⟨u, hu⟩
    by_cases e : u = t
    · rw [e, Function.update_self] at hu
      exact .inl hu
    · rw [Function.update_of_ne e] at hu
      exact .inr ⟨u, e, hu⟩
  · rintro (h | ⟨u, e, hu⟩)
    · exact ⟨t, by rwa [Function.update_self]⟩
    · exact ⟨u, by rwa [Function.update_of_ne e]⟩

theorem exists_split (pc : T → P) (t : T) :
    (∃ u, R (pc u) a) ↔ R (pc t) a ∨ ∃ u, u ≠ t ∧ R (pc u) a := by
  rw [← exists_update, Function.update_eq_self]

namespace Owners

/-- A thread keeps what it has, or less. -/
theorem keep (h : Owners R pc live) (hp : ∀ a, R p a → R (pc t) a) (hl : ∀ a, live' a → live a) :
    Owners R (Function.update pc t p) live' := by
  have hold : ∀ u a, R (Function.update pc t p u) a → R (pc u) a := by
    intro u a hu
    by_cases e : u = t
    · subst e
      rw [Function.update_self] at hu
      exact hp a hu
    · rwa [Function.update_of_ne e] at hu
  exact ⟨fun hu hlive => h.apart (hold _ _ hu) (hl _ hlive),
    fun hu hv => h.unique (hold _ _ hu) (hold _ _ hv)⟩

/-- A thread gets what nobody else has. -/
theorem gain (h : Owners R pc live) (hp : ∀ a, R p a → a = x) (hl : ∀ a, live' a → live a)
    (hx : ¬live' x) (hu : ∀ u, u ≠ t → ¬R (pc u) x) : Owners R (Function.update pc t p) live' := by
  have hold : ∀ u a, R (Function.update pc t p u) a → (u = t ∧ a = x) ∨ (u ≠ t ∧ R (pc u) a) := by
    intro u a h'
    by_cases e : u = t
    · subst e
      rw [Function.update_self] at h'
      exact .inl ⟨rfl, hp a h'⟩
    · rw [Function.update_of_ne e] at h'
      exact .inr ⟨e, h'⟩
  constructor
  · intro u a h' hlive
    rcases hold u a h' with ⟨-, rfl⟩ | ⟨-, h'⟩
    · exact hx hlive
    · exact h.apart h' (hl a hlive)
  · intro u v a h1 h2
    rcases hold u a h1 with ⟨e1, ha⟩ | ⟨e1, h1'⟩ <;> rcases hold v a h2 with ⟨e2, ha'⟩ | ⟨e2, h2'⟩
    · exact e1.trans e2.symm
    · exact absurd (ha ▸ h2') (hu v e2)
    · exact absurd (ha' ▸ h1') (hu u e1)
    · exact h.unique h1' h2'

/-- A thread gives away what it has. -/
theorem give (h : Owners R pc live) (hx : R (pc t) x) (hp : ∀ a, ¬R p a)
    (hl : ∀ a, live' a → live a ∨ a = x) : Owners R (Function.update pc t p) live' := by
  have hk : Owners R (Function.update pc t p) live :=
    h.keep (fun a ha => absurd ha (hp a)) fun _ h => h
  refine ⟨fun {u a} hu hlive => ?_, hk.unique⟩
  rcases hl a hlive with hlive | rfl
  · exact hk.apart hu hlive
  · by_cases e : u = t
    · subst e
      rw [Function.update_self] at hu
      exact hp _ hu
    · rw [Function.update_of_ne e] at hu
      exact e (h.unique hu hx)

end Owners

theorem has_keep (hp : R p a ↔ R (pc t) a) : Has R (Function.update pc t p) live a ↔
    Has R pc live a := by
  unfold Has
  rw [exists_update, hp, ← exists_split]

theorem has_gain (h0 : ∀ a, ¬R (pc t) a) (hp : R p a ↔ a = x) :
    Has R (Function.update pc t p) live a ↔ a = x ∨ Has R pc live a := by
  unfold Has
  rw [exists_update, hp, exists_split pc t, or_iff_right (h0 a), or_left_comm]

theorem has_drop (h : Owners R pc live) (hx : R (pc t) x) (h1 : ∀ a, R (pc t) a → a = x)
    (hp : ∀ a, ¬R p a) : Has R (Function.update pc t p) live a ↔ Has R pc live a ∧ a ≠ x := by
  unfold Has
  rw [exists_update, or_iff_right (hp a)]
  constructor
  · rintro (hl | ⟨u, hne, hu⟩)
    · exact ⟨.inl hl, fun e => h.apart hx (e ▸ hl)⟩
    · exact ⟨.inr ⟨u, hu⟩, fun e => hne (h.unique hu (e ▸ hx))⟩
  · rintro ⟨hl | ⟨u, hu⟩, hne⟩
    · exact .inl hl
    · exact .inr ⟨u, fun e => hne (h1 a (e ▸ hu)), hu⟩

/-- What a thread gives to a user is still there. -/
theorem has_give (hx : ∀ a, R (pc t) a ↔ a = x) (hp : ∀ a, ¬R p a) (hl : live' a ↔ a = x ∨ live a) :
    Has R (Function.update pc t p) live' a ↔ Has R pc live a := by
  unfold Has
  rw [exists_update, or_iff_right (hp a), exists_split pc t, hx, hl, or_assoc, or_left_comm]

/-- What a thread takes from a user is still there. -/
theorem has_take (h0 : ∀ a, ¬R (pc t) a) (hp : R p a ↔ a = x) (hx : live x)
    (hl : live' a ↔ live a ∧ a ≠ x) : Has R (Function.update pc t p) live' a ↔ Has R pc live a := by
  unfold Has
  rw [exists_update, hp, exists_split pc t, or_iff_right (h0 a), hl]
  by_cases e : a = x
  · subst e
    simp [hx]
  · simp [e]

end Cmem

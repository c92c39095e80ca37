import Mathlib

/-!
# Labelled transition systems

States, labels, runs and inductive invariants. `guard` keeps the runs whose
every step meets a condition on the state before it and on its label: the
form in which a result holds of a system "as long as no step does ...".
-/
namespace Cmem

structure LTS (S L : Type*) where
  init : S → Prop
  step : S → L → S → Prop

namespace LTS

variable {S L : Type*}

inductive Reachable (T : LTS S L) : S → Prop where
  | init {s : S} : T.init s → T.Reachable s
  | step {s s' : S} (l : L) : T.Reachable s → T.step s l s' → T.Reachable s'

/-- The runs of `T` whose every step meets `C`. -/
def guard (T : LTS S L) (C : S → L → Prop) : LTS S L where
  init := T.init
  step s l s' := T.step s l s' ∧ C s l

structure Inductive (T : LTS S L) (I : S → Prop) : Prop where
  init : ∀ s, T.init s → I s
  step : ∀ s l s', I s → T.step s l s' → I s'

theorem Inductive.reachable {T : LTS S L} {I : S → Prop} (h : T.Inductive I) {s : S}
    (hr : T.Reachable s) : I s := by
  induction hr with
  | init hi => exact h.init _ hi
  | step l _ hs ih => exact h.step _ l _ ih hs

theorem Reachable.of_guard {T : LTS S L} {C : S → L → Prop} {s : S}
    (hr : (T.guard C).Reachable s) : T.Reachable s := by
  induction hr with
  | init hi => exact .init hi
  | step l _ hs ih => exact .step l ih hs.1

/-! ## Deterministic systems -/

/-- A step is a guard on the state before it and a function. -/
def det (init : S → Prop) (pre : S → L → Prop) (next : S → L → S) : LTS S L where
  init := init
  step s l s' := pre s l ∧ s' = next s l

section Det
variable {init : S → Prop} {pre C : S → L → Prop} {next : S → L → S}

/-- Every step of the run `ls` from `s` is enabled and meets `C`. -/
def Enabled (pre C : S → L → Prop) (next : S → L → S) : S → List L → Prop
  | _, [] => True
  | s, l :: ls => pre s l ∧ C s l ∧ Enabled pre C next (next s l) ls

instance decEnabled [∀ s l, Decidable (pre s l)] [∀ s l, Decidable (C s l)] :
    ∀ (s : S) (ls : List L), Decidable (Enabled pre C next s ls)
  | _, [] => inferInstanceAs (Decidable True)
  | s, l :: ls =>
    have : Decidable (Enabled pre C next (next s l) ls) := decEnabled (next s l) ls
    inferInstanceAs (Decidable (pre s l ∧ C s l ∧ Enabled pre C next (next s l) ls))

theorem Reachable.run {s : S} {ls : List L} (hr : ((det init pre next).guard C).Reachable s)
    (he : Enabled pre C next s ls) : ((det init pre next).guard C).Reachable (ls.foldl next s) := by
  induction ls generalizing s with
  | nil => exact hr
  | cons l ls ih => exact ih (.step l hr ⟨⟨he.1, rfl⟩, he.2.1⟩) he.2.2

end Det

end LTS

end Cmem

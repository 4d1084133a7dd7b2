import Mathlib.Data.Set.BooleanAlgebra
import Mathlib.Data.Set.Pairwise.Basic
import Mathlib.Order.CompletePartialOrder

/-!
This module contains how a resource is handed from one owner to another while no two owners ever share
a part of it.
-/

namespace Owner

variable {κ α : Type*}

/-- No two owners share a part. -/
def Apart (B : κ → Set α) : Prop := ∀ o o', o ≠ o' → Disjoint (B o) (B o')

variable {B B' : κ → Set α}

theorem Apart.mono (h : Apart B) (hle : ∀ o, B' o ⊆ B o) : Apart B' := by
  intro o o' hne
  exact (h o o' hne).mono (hle o) (hle o')

theorem Apart.move (h : Apart B) {a b : κ} {I : Set α} (hI : I ⊆ B a) (ha : Disjoint (B' a) I)
    (hb : B' b ⊆ B b ∪ I) (hle : ∀ o, o ≠ b → B' o ⊆ B o)
    : Apart B' := by
  have key : ∀ o, o ≠ b → Disjoint (B' o) (B' b) := by
    intro o hne
    apply Disjoint.mono_right hb
    apply Set.disjoint_union_right.mpr
    constructor
    . exact (h o b hne).mono_left (hle o hne)
    . by_cases hoa : o = a
      . rw [hoa]
        exact ha
      . exact (h o a hoa).mono (hle o hne) hI
  intro o o' hne
  by_cases ho : o = b
  . subst ho
    exact (key o' (Ne.symm hne)).symm
  . by_cases ho' : o' = b
    . subst ho'
      exact key o ho
    . exact (h o o' hne).mono (hle o ho) (hle o' ho')

end Owner

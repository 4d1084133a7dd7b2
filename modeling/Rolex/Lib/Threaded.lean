import Mathlib.Logic.Function.Basic
import Mathlib.Data.List.Nodup

/-!
This module contains singly linked lists that are threaded through a table of links: when a list of places
is linked up, how it changes when a place is linked in or out, and that a walk along the links finds it.
-/

namespace Rolex

variable {α : Type}

/-- The link of every place of the list leads to the place behind it, the last one is not linked. -/
def Threaded (next : α → Option α) : List α → Prop
  | [] => True
  | a :: l => next a = l.head? ∧ Threaded next l

namespace Threaded

variable {next next' : α → Option α}

theorem congr {l : List α} (h : Threaded next l) (heq : ∀ a ∈ l, next' a = next a) : Threaded next' l := by
  induction l with
  | nil => trivial
  | cons a l ih =>
    constructor
    . rw [heq a List.mem_cons_self]
      exact h.1
    . exact ih h.2 fun b hb => heq b (List.mem_cons_of_mem _ hb)

theorem append_cons {xs ys : List α} {a : α}
    : Threaded next (xs ++ a :: ys)
        ↔ Threaded next (a :: ys) ∧ ∀ l b r, xs = l ++ b :: r → next b = (r ++ [a]).head? := by
  induction xs with
  | nil => simp
  | cons x xs ih =>
    rw [List.cons_append]
    have hhead : (xs ++ a :: ys).head? = (xs ++ [a]).head? := by cases xs <;> rfl
    constructor
    . rintro ⟨hx, hxs⟩
      refine ⟨(ih.mp hxs).1, ?_⟩
      intro l b r heq
      cases l with
      | nil =>
        cases heq
        rw [hx, hhead]
      | cons y l =>
        cases heq
        exact (ih.mp hxs).2 l b r rfl
    . rintro ⟨ha, hxs⟩
      refine ⟨?_, ih.mpr ⟨ha, fun l b r heq => ?_⟩⟩
      . rw [hhead]
        exact hxs [] x xs rfl
      . exact hxs (x :: l) b r (by rw [heq, List.cons_append])

theorem not_mem_left_of_nodup {xs ys : List α} {a : α} (h : (xs ++ a :: ys).Nodup) : a ∉ xs :=
  fun hmem => (List.nodup_append.mp h).2.2 a hmem a List.mem_cons_self rfl

section Update

variable [DecidableEq α]

theorem insertAfter {xs ys : List α} {a b : α} (h : Threaded next (xs ++ a :: ys))
    (hnodup : (xs ++ a :: ys).Nodup) (hb : b ∉ xs ++ a :: ys)
    : Threaded (Function.update (Function.update next b (next a)) a (some b)) (xs ++ a :: b :: ys) := by
  have hne : b ≠ a := fun heq => hb (by simp [heq])
  have hxs : a ∉ xs := not_mem_left_of_nodup hnodup
  have hys : a ∉ ys := by
    have hmid := (List.nodup_append.mp hnodup).2.1
    exact (List.nodup_cons.mp hmid).1
  rw [append_cons] at h ⊢
  refine ⟨⟨?_, ?_, ?_⟩, ?_⟩
  . simp
  . rw [Function.update_of_ne hne, Function.update_self]
    exact h.1.1
  . refine h.1.2.congr fun c hc => ?_
    have hca : c ≠ a := fun heq => hys (heq ▸ hc)
    have hcb : c ≠ b := fun heq => hb (by simp [← heq, hc])
    rw [Function.update_of_ne hca, Function.update_of_ne hcb]
  . intro l c r heq
    have hc : c ∈ xs := by simp [heq]
    have hca : c ≠ a := fun heq => hxs (heq ▸ hc)
    have hcb : c ≠ b := fun heq => hb (by simp [← heq, hc])
    rw [Function.update_of_ne hca, Function.update_of_ne hcb]
    exact h.2 l c r heq

theorem unlink {xs ys : List α} {a b : α} (h : Threaded next (xs ++ a :: b :: ys))
    (hnodup : (xs ++ a :: b :: ys).Nodup)
    : Threaded (Function.update next a (next b)) (xs ++ a :: ys) := by
  have hxs : a ∉ xs := not_mem_left_of_nodup hnodup
  have hys : a ∉ ys := by
    have hmid := (List.nodup_append.mp hnodup).2.1
    exact fun hmem => (List.nodup_cons.mp hmid).1 (List.mem_cons_of_mem _ hmem)
  rw [append_cons] at h ⊢
  refine ⟨⟨?_, ?_⟩, ?_⟩
  . rw [Function.update_self]
    exact h.1.2.1
  . refine h.1.2.2.congr fun c hc => ?_
    have hca : c ≠ a := fun heq => hys (heq ▸ hc)
    rw [Function.update_of_ne hca]
  . intro l c r heq
    have hc : c ∈ xs := by simp [heq]
    have hca : c ≠ a := fun heq => hxs (heq ▸ hc)
    rw [Function.update_of_ne hca]
    exact h.2 l c r heq

end Update

end Threaded

end Rolex

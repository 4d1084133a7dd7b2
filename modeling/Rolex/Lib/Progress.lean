import Mathlib.Algebra.Order.BigOperators.Group.Finset
import Mathlib.Logic.Relation

/-!
This module contains the rule for parties that take turns: if wherever one of them is not done there is a
way to where less is left to do, then there is a way to where all of them are done.
-/

namespace Progress

section Sum

open Finset

variable {n c : Nat}

theorem sum_update_lt {β : Type} {f : Nat → β} {b : β} (work : β → Nat) (hc : c < n) (hless : work b < work (f c))
    : ∑ j ∈ range n, work (Function.update f c b j) < ∑ j ∈ range n, work (f j) := by
  apply sum_lt_sum
  . intro j _
    by_cases hj : j = c
    . rw [hj, Function.update_self]
      exact hless.le
    . rw [Function.update_of_ne hj]
  . refine ⟨c, mem_range.mpr hc, ?_⟩
    rwa [Function.update_self]

end Sum

theorem finishes {σ : Type} {R : σ → σ → Prop} {good done : σ → Prop} (work : σ → Nat) (hrefl : ∀ s, R s s)
    (htrans : ∀ {s t u}, R s t → R t u → R s u)
    (hstep : ∀ s, good s → ¬ done s → ∃ t, R s t ∧ good t ∧ work t < work s) {s : σ} (hs : good s)
    : ∃ t, R s t ∧ done t := by
  induction hwork : work s using Nat.strong_induction_on generalizing s with
  | h w ih =>
    by_cases hdone : done s
    . exact ⟨s, hrefl s, hdone⟩
    . obtain ⟨t, hreach, ht, hless⟩ := hstep s hs hdone
      obtain ⟨u, hreach', hdone'⟩ := ih (work t) (hwork ▸ hless) ht rfl
      exact ⟨u, htrans hreach hreach', hdone'⟩

section Run

variable {σ : Type} {step : Nat → σ → Option σ} {good done : σ → Prop} {s t : σ}

variable (step) in
/-- Steps of the parties in any order. -/
def Run : σ → σ → Prop := Relation.ReflTransGen (fun s t => ∃ i, step i s = some t)

theorem run_of_foldlM {l : List Nat} (h : l.foldlM (fun s i => step i s) s = some t) : Run step s t := by
  induction l generalizing s with
  | nil =>
    cases h
    exact .refl
  | cons i l ih =>
    obtain ⟨u, hu, h⟩ := Option.bind_eq_some_iff.mp h
    exact .head ⟨i, hu⟩ (ih h)

variable (hkeeps : ∀ {i s t}, good s → step i s = some t → good t)
include hkeeps

theorem Run.keeps (h : Run step s t) (hs : good s) : good t := by
  induction h with
  | refl => exact hs
  | tail _ hstep ih =>
    obtain ⟨i, hstep⟩ := hstep
    exact hkeeps ih hstep

theorem run_finishes (work : σ → Nat)
    (hprogress : ∀ {s}, good s → ¬ done s → ∃ i t, step i s = some t ∧ work t < work s) (hs : good s)
    : ∃ t, Run step s t ∧ done t := by
  apply finishes (R := Run step) work (fun _ => .refl) (fun h h' => h.trans h') _ hs
  intro s hs hdone
  obtain ⟨i, t, hstep, hless⟩ := hprogress hs hdone
  exact ⟨t, .single ⟨i, hstep⟩, hkeeps hs hstep, hless⟩

end Run

end Progress

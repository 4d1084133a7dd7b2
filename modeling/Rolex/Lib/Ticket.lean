import Mathlib.Logic.Function.Basic
import Mathlib.Data.Nat.ModEq

/-!
This module contains a queue of tickets. Clients draw consecutive numbers and are served in their
order; the numbers that are out can be told apart modulo any `m` that they do not exceed.
-/

namespace Ticket

variable {ι : Type} {served next : Nat} {number : ι → Option Nat} {i j : ι} {x y m : Nat}

/-- The numbers from `served` up to `next` are out, `number` says who has which. -/
structure Queue (served next : Nat) (number : ι → Option Nat) : Prop where
  le : served ≤ next
  bounds : ∀ {i x}, number i = some x → served ≤ x ∧ x < next
  inj : ∀ {i j x}, number i = some x → number j = some x → i = j

/-- Every number that is out has an owner. -/
def Full (served next : Nat) (number : ι → Option Nat) : Prop :=
  ∀ x, served ≤ x → x < next → ∃ i, number i = some x

theorem Queue.empty : Queue 0 0 (fun _ : ι => none) where
  le := Nat.le_refl 0
  bounds := by
    intro i x hx
    cases hx
  inj := by
    intro i j x hx
    cases hx

theorem Full.empty : Full 0 0 (fun _ : ι => none) := by
  intro x _ hx
  omega

theorem eq_of_mod_eq (hm : next - served ≤ m) (hx : served ≤ x ∧ x < next) (hy : served ≤ y ∧ y < next)
    (hmod : x % m = y % m)
    : x = y := by
  apply Nat.ModEq.eq_of_abs_lt hmod
  rw [abs_lt]
  omega

theorem Queue.eq_served (h : Queue served next number) (hm : next - served ≤ m)
    (hx : number i = some x) (hmod : x % m = served % m)
    : x = served := by
  obtain ⟨hle, hlt⟩ := h.bounds hx
  apply eq_of_mod_eq hm ⟨hle, hlt⟩ ?_ hmod
  omega

variable [DecidableEq ι]

theorem Queue.draw (h : Queue served next number)
    : Queue served (next + 1) (Function.update number i (some next)) where
  le := by
    have := h.le
    omega
  bounds := by
    intro j x hx
    rcases eq_or_ne j i with rfl | hne
    . rw [Function.update_self] at hx
      obtain rfl := Option.some.inj hx
      have := h.le
      omega
    . rw [Function.update_of_ne hne] at hx
      have := h.bounds hx
      omega
  inj := by
    intro j k x hj hk
    have hlt : ∀ {l}, number l = some x → x < next := fun hl => (h.bounds hl).2
    rcases eq_or_ne j i with rfl | hne <;> rcases eq_or_ne k j with rfl | hne'
    . rfl
    . rw [Function.update_self] at hj
      rw [Function.update_of_ne hne'] at hk
      have := hlt hk
      have := Option.some.inj hj
      omega
    . rfl
    . rw [Function.update_of_ne hne] at hj
      rcases eq_or_ne k i with rfl | hki
      . rw [Function.update_self] at hk
        have := hlt hj
        have := Option.some.inj hk
        omega
      . rw [Function.update_of_ne hki] at hk
        exact h.inj hj hk

theorem Full.draw (h : Full served next number) (hi : number i = none)
    : Full served (next + 1) (Function.update number i (some next)) := by
  intro x hle hlt
  rcases Nat.lt_succ_iff_lt_or_eq.mp hlt with hlt | rfl
  . obtain ⟨j, hj⟩ := h x hle hlt
    have hne : j ≠ i := by
      rintro rfl
      rw [hi] at hj
      cases hj
    exact ⟨j, by rw [Function.update_of_ne hne]; exact hj⟩
  . exact ⟨i, Function.update_self _ _ _⟩

theorem Queue.erase (h : Queue served next number)
    : Queue served next (Function.update number i none) := by
  have hne : ∀ {j x}, Function.update number i none j = some x → number j = some x := by
    intro j x hj
    rcases eq_or_ne j i with rfl | hne
    . rw [Function.update_self] at hj
      cases hj
    . rwa [Function.update_of_ne hne] at hj
  exact ⟨h.le, fun hj => h.bounds (hne hj), fun hj hk => h.inj (hne hj) (hne hk)⟩

theorem Queue.leave (h : Queue served next number) (hi : number i = some served)
    : Queue (served + 1) next (Function.update number i none) where
  le := (h.bounds hi).2
  bounds := by
    intro j x hj
    have hne : j ≠ i := by
      rintro rfl
      rw [Function.update_self] at hj
      cases hj
    rw [Function.update_of_ne hne] at hj
    obtain ⟨hle, hlt⟩ := h.bounds hj
    refine ⟨?_, hlt⟩
    apply Nat.lt_of_le_of_ne hle
    rintro rfl
    exact hne (h.inj hj hi)
  inj := fun hj hk => h.erase.inj hj hk

theorem Full.leave (h : Full served next number) (hi : number i = some served)
    : Full (served + 1) next (Function.update number i none) := by
  intro x hle hlt
  obtain ⟨j, hj⟩ := h x (by omega) hlt
  have hne : j ≠ i := by
    rintro rfl
    rw [hi] at hj
    have := Option.some.inj hj
    omega
  exact ⟨j, by rw [Function.update_of_ne hne]; exact hj⟩

end Ticket

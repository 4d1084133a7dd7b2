import Mathlib.Order.Basic
import Mathlib.Tactic.Positivity
import Mathlib.Tactic.Ring

/-!
This module contains `binary_search_branchless` of `rolex_util.hh`, which finds the first of `n`
increasing keys that is not less than a given one.
-/

namespace Rolex

variable {α : Type} [LinearOrder α]

/-- The read `arr[i]`, `none` outside of the array. -/
def readAt (arr : List α) (i : Int) : Option α := if i < 0 then none else arr[i.toNat]?

/-- The loop: `logstep` halvings of the step are left. -/
def binarySearchBranchless.loop (arr : List α) (key : α) (pos : Int) (logstep : Nat) : Option Int :=
  match logstep with
  | 0 => some pos
  | logstep + 1 => do
    let step : Int := 2 ^ logstep
    let x ← readAt arr (pos + step)
    loop arr key (if x < key then pos + step else pos) logstep

/-- `binary_search_branchless`, `none` for a single key because `bsr(0)` is not defined. -/
def binarySearchBranchless (arr : List α) (key : α) : Option Nat :=
  let n := arr.length
  if n ≤ 1 then
    none
  else do
    let logstep := Nat.log2 (n - 1)
    let step : Int := 2 ^ logstep
    let x ← readAt arr (-1 + n - step)
    let pos ← binarySearchBranchless.loop arr key (if x < key then -1 + n - step else -1) logstep
    let x ← readAt arr (pos + 1)
    return if x ≥ key then (pos + 1).toNat else n

/-- `std::lower_bound` on sorted keys. -/
def lowerBound (arr : List α) (key : α) : Nat := arr.findIdx (fun x => key ≤ x)

omit [LinearOrder α] in
theorem readAt_of_lt {arr : List α} {i : Int} (h0 : 0 ≤ i) (hi : i.toNat < arr.length)
    : readAt arr i = some (arr[i.toNat]) := by
  rw [readAt, if_neg (by omega), List.getElem?_eq_getElem hi]

theorem getElem_le_getElem {arr : List α} (hs : arr.Pairwise (· ≤ ·)) {i j : Nat} (hij : i ≤ j)
    (hj : j < arr.length)
    : arr[i] ≤ arr[j] := by
  rcases Nat.eq_or_lt_of_le hij with heq | hlt
  . simp only [heq, le_refl]
  . exact List.pairwise_iff_getElem.mp hs i j (by omega) hj hlt

section Lower

variable {arr : List α} {key : α} {i : Nat}

theorem lowerBound_le_length : lowerBound arr key ≤ arr.length := List.findIdx_le_length

theorem lt_of_lt_lowerBound (hi : i < arr.length) (h : i < lowerBound arr key) : arr[i] < key := by
  have := List.not_of_lt_findIdx h
  simpa using this

theorem le_of_lowerBound_le (hs : arr.Pairwise (· ≤ ·)) (hi : i < arr.length)
    (h : lowerBound arr key ≤ i)
    : key ≤ arr[i] := by
  have hlt : lowerBound arr key < arr.length := by omega
  have hle : key ≤ arr[lowerBound arr key] := of_decide_eq_true (List.findIdx_getElem (w := hlt))
  exact hle.trans (getElem_le_getElem hs h hi)

theorem lowerBound_eq (hi : i < arr.length) (hle : key ≤ arr[i])
    (hlt : ∀ j (hj : j < i), arr[j] < key)
    : lowerBound arr key = i := by
  rw [lowerBound, List.findIdx_eq hi]
  refine ⟨by simpa using hle, ?_⟩
  intro j hj
  simpa using hlt j hj

theorem lowerBound_eq_length (h : ∀ x ∈ arr, x < key) : lowerBound arr key = arr.length := by
  rw [lowerBound, List.findIdx_eq_length]
  intro x hx
  simpa using h x hx

end Lower

namespace binarySearchBranchless

/-- Where the answer can be while `logstep` halvings are left. -/
structure Inv (arr : List α) (key : α) (pos : Int) (logstep : Nat) : Prop where
  nonneg : -1 ≤ pos
  below : ∀ i (hi : i < arr.length), (i : Int) ≤ pos → arr[i] < key
  bound : pos + 2 ^ logstep ≤ arr.length - 1
  above : ∀ i (hi : i < arr.length), pos + 2 ^ logstep ≤ i → i + 1 = arr.length ∨ key ≤ arr[i]

variable {arr : List α} {key : α} {pos : Int} {logstep : Nat}

theorem loop_spec (hs : arr.Pairwise (· ≤ ·)) (h : Inv arr key pos logstep)
    : ∃ pos', loop arr key pos logstep = some pos' ∧ Inv arr key pos' 0 := by
  induction logstep generalizing pos with
  | zero => exact ⟨pos, rfl, h⟩
  | succ logstep ih =>
    have hpow : (2 : Int) ^ (logstep + 1) = 2 ^ logstep + 2 ^ logstep := by ring
    have hone : (0 : Int) < 2 ^ logstep := by positivity
    obtain ⟨hnonneg, hbelow, hbound, habove⟩ := h
    rw [hpow] at hbound habove
    have hi : (pos + 2 ^ logstep).toNat < arr.length := by omega
    simp only [loop, readAt_of_lt (by omega) hi, Option.bind_eq_bind, Option.bind_some]
    apply ih
    split
    . next hlt =>
      refine ⟨by omega, ?_, by omega, ?_⟩
      . intro i hil hle
        have hii : i ≤ (pos + 2 ^ logstep).toNat := by omega
        exact (getElem_le_getElem hs hii hi).trans_lt hlt
      . intro i hil hle
        exact habove i hil (by omega)
    . next hge =>
      refine ⟨hnonneg, hbelow, by omega, ?_⟩
      intro i hil hle
      right
      have hii : (pos + 2 ^ logstep).toNat ≤ i := by omega
      exact (not_lt.mp hge).trans (getElem_le_getElem hs hii hil)

theorem first_inv (hs : arr.Pairwise (· ≤ ·)) (hle : 2 ^ logstep ≤ arr.length - 1)
    (hlt : arr.length - 1 < 2 ^ (logstep + 1)) {i : Nat} (hi : i + 2 ^ logstep + 1 = arr.length)
    (key : α)
    : Inv arr key (if arr[i] < key then -1 + (arr.length : Int) - 2 ^ logstep else -1) logstep := by
  rw [show 2 ^ (logstep + 1) = 2 ^ logstep + 2 ^ logstep by ring] at hlt
  have hone : 0 < 2 ^ logstep := by positivity
  have hcast : ((2 : Int) ^ logstep) = ((2 ^ logstep : Nat) : Int) := by push_cast; rfl
  rw [hcast]
  split
  . next hkey =>
    refine ⟨by omega, ?_, by omega, ?_⟩
    . intro j hj hji
      exact (getElem_le_getElem hs (show j ≤ i by omega) (by omega)).trans_lt hkey
    . intro j hj hji
      left
      omega
  . next hkey =>
    refine ⟨le_refl _, ?_, by omega, ?_⟩
    . intro j hj hji
      omega
    . intro j hj hji
      right
      exact (not_lt.mp hkey).trans (getElem_le_getElem hs (show i ≤ j by omega) hj)

end binarySearchBranchless

theorem binarySearchBranchless_eq {arr : List α} (hs : arr.Pairwise (· ≤ ·)) (hn : 2 ≤ arr.length)
    (key : α)
    : binarySearchBranchless arr key = some (lowerBound arr key) := by
  have hlog := Nat.log2_self_le (n := arr.length - 1) (by omega)
  have hlog' := Nat.lt_log2_self (n := arr.length - 1)
  unfold binarySearchBranchless
  rw [if_neg (by omega)]
  generalize Nat.log2 (arr.length - 1) = logstep at hlog hlog' ⊢
  have hcast : ((2 : Int) ^ logstep) = ((2 ^ logstep : Nat) : Int) := by push_cast; rfl
  have hfst : (-1 + (arr.length : Int) - 2 ^ logstep).toNat < arr.length := by omega
  obtain ⟨pos, hloop, hinv⟩ := binarySearchBranchless.loop_spec hs
    (binarySearchBranchless.first_inv (i := (-1 + (arr.length : Int) - 2 ^ logstep).toNat) hs hlog
      hlog' (by omega) key)
  obtain ⟨hnonneg, hbelow, hbound, habove⟩ := hinv
  rw [pow_zero] at hbound habove
  have hlast : (pos + 1).toNat < arr.length := by omega
  simp only [readAt_of_lt (by omega) hfst, Option.bind_eq_bind, Option.bind_some, hloop,
    readAt_of_lt (by omega) hlast]
  have hbelow' : ∀ j (hj : j < (pos + 1).toNat), arr[j] < key :=
    fun j hj => hbelow j (by omega) (by omega)
  split
  . next hkey => rw [lowerBound_eq hlast hkey hbelow']; rfl
  . next hkey =>
    -- the last key is less than `key`
    have hend : (pos + 1).toNat + 1 = arr.length :=
      (habove _ hlast (by omega)).resolve_right hkey
    rw [lowerBound_eq_length]
    . rfl
    . intro x hx
      obtain ⟨j, hj, rfl⟩ := List.mem_iff_getElem.mp hx
      rcases Nat.lt_or_ge j (pos + 1).toNat with hlt | hge
      . exact hbelow' j hlt
      . have hji : j = (pos + 1).toNat := by omega
        subst hji
        exact not_le.mp hkey

end Rolex

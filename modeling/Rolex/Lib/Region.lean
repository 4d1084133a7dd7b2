import Mathlib.Algebra.GroupWithZero.Nat
import Mathlib.Data.List.Perm.Basic
import Mathlib.Data.List.Pairwise

/-!
Regions of a linear memory: ranges of addresses, when they have no address in common, and what a store
into one of them leaves.
-/

structure Region where
  start : Nat
  len : Nat
  deriving DecidableEq, Repr

namespace Region

variable {α : Type}

instance : Membership Nat Region := ⟨fun r x => r.start ≤ x ∧ x < r.start + r.len⟩

theorem mem_iff {r : Region} {x : Nat} : x ∈ r ↔ r.start ≤ x ∧ x < r.start + r.len := Iff.rfl

/-- No address is in both. An empty region is disjoint from every region. -/
def Disjoint (r s : Region) : Prop := ∀ x, x ∈ r → x ∉ s

theorem Disjoint.symm {r s : Region} (h : r.Disjoint s) : s.Disjoint r :=
  fun x hs hr => h x hr hs

theorem disjoint_comm {r s : Region} : r.Disjoint s ↔ s.Disjoint r := ⟨.symm, .symm⟩

theorem disjoint_of_le {r s : Region} (h : r.start + r.len ≤ s.start) : r.Disjoint s := by
  intro x hr hs
  rw [mem_iff] at hr hs
  omega

theorem disjoint_of_len_eq_zero {r s : Region} (h : s.len = 0) : r.Disjoint s := by
  intro x hr hs
  rw [mem_iff] at hs
  omega

theorem pairwise_disjoint_of_ordered {l : List Region}
    (h : l.Pairwise fun r s => r.start + r.len ≤ s.start)
    : l.Pairwise Disjoint := h.imp disjoint_of_le

theorem pairwise_disjoint_perm {l l' : List Region} (h : l.Perm l')
    : l.Pairwise Disjoint ↔ l'.Pairwise Disjoint := h.pairwise_iff Disjoint.symm

def load (mem : Nat → α) (r : Region) : List α := (List.range r.len).map fun i => mem (r.start + i)

/-- Store values from the address `start` on. -/
def store (mem : Nat → α) (start : Nat) (values : List α) : Nat → α :=
  fun x => if start ≤ x then (values[x - start]?).getD (mem x) else mem x

theorem store_of_not_mem {mem : Nat → α} {start x : Nat} {values : List α}
    (h : x ∉ Region.mk start values.length)
    : store mem start values x = mem x := by
  rw [mem_iff] at h
  unfold store
  split
  . rw [List.getElem?_eq_none (by simp only at h; omega), Option.getD_none]
  . rfl

theorem load_store_self (mem : Nat → α) (start : Nat) (values : List α)
    : load (store mem start values) ⟨start, values.length⟩ = values := by
  apply List.ext_getElem
  . simp [load]
  . intro i hi hi'
    simp [load, store, hi']

theorem load_store_of_disjoint {mem : Nat → α} {start : Nat} {values : List α} {r : Region}
    (h : (Region.mk start values.length).Disjoint r)
    : load (store mem start values) r = load mem r := by
  unfold load
  apply List.map_congr_left
  intro i hi
  apply store_of_not_mem
  intro hmem
  apply h _ hmem
  rw [mem_iff]
  have := List.mem_range.mp hi
  omega

end Region

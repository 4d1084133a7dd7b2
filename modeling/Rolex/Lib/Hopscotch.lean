import Mathlib.Algebra.Group.Basic
import Mathlib.Data.Set.Basic

/-!
This module contains hopscotch tables: every key is kept near the slot it hashes to, its home, and
every slot has bits for the keys at home in it. The slots are any commutative group, so that a ring
of slots and the distances in it need no separate treatment. It provides the invariant of a table,
and of a table with one slot that does not count, which is what a chain of hops moves around.
-/

/-- A table over the slots `S`: their keys, and `bit q d` for the slot at distance `d` from `q`. -/
@[ext]
structure HopTable (S κ : Type) where
  key : S → Option κ
  bit : S → S → Bool

namespace HopTable

variable {S κ : Type} [AddCommGroup S] [DecidableEq S]

def setKey (t : HopTable S κ) (p : S) (k : Option κ) : HopTable S κ :=
  { t with key := fun p' => if p' = p then k else t.key p' }

def setBit (t : HopTable S κ) (q d : S) (b : Bool) : HopTable S κ :=
  { t with bit := fun q' d' => if q' = q ∧ d' = d then b else t.bit q' d' }

/-- The keys are at a distance in `N` from home, and the bits say which slots they are in. -/
structure Inv (N : Set S) (home : κ → S) (t : HopTable S κ) : Prop where
  near : ∀ {p k}, t.key p = some k → p - home k ∈ N
  bits : ∀ {q d}, d ∈ N → (t.bit q d = true ↔ ∃ k, t.key (q + d) = some k ∧ home k = q)

/-- The invariant of a table in which slot `j` does not count, whatever key is in it. -/
structure Hole (N : Set S) (home : κ → S) (t : HopTable S κ) (j : S) : Prop where
  near : ∀ {p k}, p ≠ j → t.key p = some k → p - home k ∈ N
  bits : ∀ {q d}, d ∈ N →
    (t.bit q d = true ↔ q + d ≠ j ∧ ∃ k, t.key (q + d) = some k ∧ home k = q)

variable {N : Set S} {home : κ → S} {t : HopTable S κ} {j h p : S} {k : κ}

omit [DecidableEq S] in
theorem Inv.hole (ht : t.Inv N home) (hj : t.key j = none) : t.Hole N home j where
  near := fun _ => ht.near
  bits := by
    intro q d hd
    rw [ht.bits hd]
    constructor
    . rintro ⟨k, hk, hq⟩
      refine ⟨?_, k, hk, hq⟩
      rintro rfl
      rw [hj] at hk
      cases hk
    . intro h
      exact h.2

omit [DecidableEq S] in
theorem Inv.bit_home (ht : t.Inv N home) (hp : t.key p = some k)
    : t.bit (home k) (p - home k) = true := by
  rw [ht.bits (ht.near hp), add_sub_cancel]
  exact ⟨k, hp, rfl⟩

omit [DecidableEq S] in
theorem Hole.bit_home (ht : t.Hole N home j) (hpj : p ≠ j) (hp : t.key p = some k)
    : t.bit (home k) (p - home k) = true := by
  rw [ht.bits (ht.near hpj hp), add_sub_cancel]
  exact ⟨hpj, k, hp, rfl⟩

omit [DecidableEq S] in
theorem Hole.bit_hole (ht : t.Hole N home j) (hj : j - home k ∈ N)
    : t.bit (home k) (j - home k) = false := by
  rw [Bool.eq_false_iff, ne_eq, ht.bits hj, add_sub_cancel]
  exact fun h => h.1 rfl

theorem Hole.fill (ht : t.Hole N home j) (hj : j - home k ∈ N)
    : ((t.setKey j (some k)).setBit (home k) (j - home k) true).Inv N home where
  near := by
    intro p k' hp
    simp only [setBit, setKey] at hp
    split at hp
    . next heq =>
      obtain rfl := Option.some.inj hp
      rwa [heq]
    . next hne => exact ht.near hne hp
  bits := by
    intro q d hd
    simp only [setBit, setKey]
    by_cases hqd : q + d = j
    . -- the slot that is filled: its bit is set in its home only
      rw [if_pos hqd]
      have hiff : (q = home k ∧ d = j - home k) ↔ home k = q := by
        constructor
        . intro h
          exact h.1.symm
        . rintro rfl
          refine ⟨rfl, ?_⟩
          rw [← hqd, add_sub_cancel_left]
      have hold : t.bit q d = false := by
        rw [Bool.eq_false_iff, ne_eq, ht.bits hd]
        exact fun h => h.1 hqd
      simp only [hiff, hold, Option.some.injEq, exists_eq_left']
      split
      . next h => simp [h]
      . next h => simp [h]
    . have hne : ¬ (q = home k ∧ d = j - home k) := by
        rintro ⟨rfl, rfl⟩
        exact hqd (add_sub_cancel _ _)
      rw [if_neg hne, if_neg hqd, ht.bits hd]
      exact and_iff_right hqd

theorem Hole.hop (ht : t.Hole N home j) (hhj : h ≠ j) (hk : t.key h = some k) (hj : j - home k ∈ N)
    : (((t.setKey j (some k)).setBit (home k) (h - home k) false).setBit (home k) (j - home k)
        true).Hole N home h where
  near := by
    intro p k' hph hp
    simp only [setBit, setKey] at hp
    split at hp
    . next heq =>
      obtain rfl := Option.some.inj hp
      rwa [heq]
    . next hne => exact ht.near hne hp
  bits := by
    intro q d hd
    simp only [setBit, setKey]
    have hiff : ∀ s, q + d = s → ((q = home k ∧ d = s - home k) ↔ home k = q) := by
      intro s hs
      constructor
      . intro h
        exact h.1.symm
      . rintro rfl
        refine ⟨rfl, ?_⟩
        rw [← hs, add_sub_cancel_left]
    have hother : ∀ s, q + d ≠ s → ¬ (q = home k ∧ d = s - home k) := by
      rintro s hs ⟨rfl, rfl⟩
      exact hs (add_sub_cancel _ _)
    by_cases hqj : q + d = j
    . have hqh : q + d ≠ h := fun e => hhj (e.symm.trans hqj)
      have hold : t.bit q d = false := by
        rw [Bool.eq_false_iff, ne_eq, ht.bits hd]
        exact fun h => h.1 hqj
      simp only [hiff j hqj, hother h hqh, if_false, hold, if_pos hqj, Option.some.injEq,
        exists_eq_left', ne_eq, hqh, not_false_eq_true, true_and]
      split
      . next heq => simp [heq]
      . next heq => simp [heq]
    . rw [if_neg (hother j hqj), if_neg hqj]
      by_cases hqh : q + d = h
      . have hfalse : ¬ (q + d ≠ h ∧ ∃ k', t.key (q + d) = some k' ∧ home k' = q) :=
          fun hc => hc.1 hqh
        simp only [hiff h hqh, hfalse, iff_false, Bool.not_eq_true]
        split
        . rfl
        . next hne =>
          rw [Bool.eq_false_iff, ne_eq, ht.bits hd]
          rintro ⟨-, k', hk', hq⟩
          rw [hqh, hk] at hk'
          obtain rfl := Option.some.inj hk'
          exact hne hq
      . rw [if_neg (hother h hqh), ht.bits hd]
        simp only [ne_eq, hqj, hqh, not_false_eq_true, true_and]

theorem Inv.erase (ht : t.Inv N home) (hp : t.key p = some k)
    : ((t.setKey p none).setBit (home k) (p - home k) false).Inv N home where
  near := by
    intro p' k' hp'
    simp only [setBit, setKey] at hp'
    split at hp'
    . cases hp'
    . exact ht.near hp'
  bits := by
    intro q d hd
    simp only [setBit, setKey]
    by_cases hqd : q + d = p
    . have hiff : (q = home k ∧ d = p - home k) ↔ home k = q := by
        constructor
        . intro h
          exact h.1.symm
        . rintro rfl
          refine ⟨rfl, ?_⟩
          rw [← hqd, add_sub_cancel_left]
      simp only [hiff, if_pos hqd, reduceCtorEq, false_and, exists_false, iff_false,
        Bool.not_eq_true]
      split
      . rfl
      . next hne =>
        rw [Bool.eq_false_iff, ne_eq, ht.bits hd]
        rintro ⟨k', hk', hq⟩
        rw [hqd, hp] at hk'
        obtain rfl := Option.some.inj hk'
        exact hne hq
    . have hne : ¬ (q = home k ∧ d = p - home k) := by
        rintro ⟨rfl, rfl⟩
        exact hqd (add_sub_cancel _ _)
      rw [if_neg hne, if_neg hqd, ht.bits hd]

end HopTable

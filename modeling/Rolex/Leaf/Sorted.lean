import Rolex.Leaf.Basic

/-!
This module contains the array algorithms of the sorted leaf: the scan for the slot of a key, the scan
for the first null record and the shift that makes room, which `RolexIndex::insert` and
`RolexIndex::insert_into_syn_leaf_locally` share, and what they do on a sorted array.
-/

namespace Rolex

/-- Where the scan over the records of a node ends. -/
inductive Slot where
  /-- `e.key == k` was met. -/
  | existing
  /-- The index `i` after the loop, `leafSpanSize` if it ran to the end. -/
  | free (i : Nat)
  deriving DecidableEq

namespace Records

/-- The records at which the scan for `k` stops. -/
def stopsAt (k : Key) (e : LeafEntry) : Bool := e.key = k || e.key = kkeyNull || k < e.key

def findSlot (r : Records) (k : Key) : Slot :=
  let i := r.toList.findIdx (stopsAt k)
  if i < leafSpanSize ∧ (r.get i).key = k then .existing else .free i

/-- `while (j < leafSpanSize && records[j].key != kkeyNull) j++`, starting at `i`. -/
def firstNull (r : Records) (i : Nat) : Nat :=
  i + (r.toList.drop i).findIdx (fun e => e.key = kkeyNull)

/-- `for (k = i + n - 1; k >= i; --k) records[k + 1] = records[k]`. -/
def moveRight (r : Records) (i : Nat) : Nat → Records
  | 0 => r
  | n + 1 => moveRight (r.put (i + n + 1) (r.get (i + n))) i n

/-- Move `[i, j)` to `[i + 1, j + 1)` and store the pair at `i`. -/
def shiftInsert (r : Records) (i j : Nat) (k : Key) (v : Value) : Records :=
  (r.moveRight i (j - i)).update i k v

/-- The first `n` records hold strictly increasing keys, the others are null. -/
structure Sorted (r : Records) (n : Nat) : Prop where
  le : n ≤ leafSpanSize
  live : ∀ t, t < n → (r.get t).key ≠ kkeyNull
  dead : ∀ t, n ≤ t → (r.get t).key = kkeyNull
  lt : ∀ s t, s < t → t < n → (r.get s).key < (r.get t).key

def Has (r : Records) (k : Key) (v : Value) : Prop :=
  ∃ t, t < leafSpanSize ∧ (r.get t).key = k ∧ (r.get t).value = v

theorem findIdx_stopsAt_le (r : Records) (k : Key)
    : r.toList.findIdx (stopsAt k) ≤ leafSpanSize := by
  have : r.toList.findIdx (stopsAt k) ≤ r.toList.length := List.findIdx_le_length
  simpa using this

theorem stopsAt_findIdx (r : Records) (k : Key) (h : r.toList.findIdx (stopsAt k) < leafSpanSize)
    : stopsAt k (r.get (r.toList.findIdx (stopsAt k))) = true := by
  have hlen : r.toList.findIdx (stopsAt k) < r.toList.length := by simpa using h
  have := List.findIdx_getElem (w := hlen)
  rwa [Vector.getElem_toList, ← get_eq_getElem r h] at this

theorem not_stopsAt_of_lt (r : Records) (k : Key) {t : Nat}
    (h : t < r.toList.findIdx (stopsAt k))
    : stopsAt k (r.get t) = false := by
  have ht : t < leafSpanSize := Nat.lt_of_lt_of_le h (findIdx_stopsAt_le r k)
  have := List.not_of_lt_findIdx h
  rw [Vector.getElem_toList, ← get_eq_getElem r ht] at this
  simpa using this

theorem moveRight_get (r : Records) (i n : Nat) (h : i + n < leafSpanSize) (t : Nat)
    : (r.moveRight i n).get t = if i < t ∧ t ≤ i + n then r.get (t - 1) else r.get t := by
  induction n generalizing r with
  | zero =>
    rw [if_neg (by omega), moveRight]
  | succ n ih =>
    rw [moveRight, ih _ (by omega)]
    -- the step stores `r[i + n]` at `i + n + 1`, which the remaining steps do not read
    by_cases h1 : i < t ∧ t ≤ i + n
    . rw [if_pos h1, if_pos ⟨h1.1, by omega⟩, get_put, if_neg (by omega)]
    . rw [if_neg h1, get_put]
      by_cases h2 : t = i + n + 1
      . rw [if_pos ⟨h2.symm, by omega⟩, if_pos ⟨by omega, by omega⟩]
        congr 1
        omega
      . rw [if_neg (by omega), if_neg (by omega)]

theorem shiftInsert_get (r : Records) {i j : Nat} (k : Key) (v : Value) (hij : i ≤ j)
    (hj : j < leafSpanSize) (t : Nat)
    : (((r.shiftInsert i j k v).get t).key, ((r.shiftInsert i j k v).get t).value)
        =
      if t = i then (k, v)
      else if i < t ∧ t ≤ j then ((r.get (t - 1)).key, (r.get (t - 1)).value)
      else ((r.get t).key, (r.get t).value) := by
  unfold shiftInsert update
  rw [get_put]
  by_cases ht : t = i
  . subst ht
    have hlt : t < leafSpanSize := by omega
    simp [hlt, LeafEntry.update]
  . rw [if_neg (by omega), if_neg ht, moveRight_get r i (j - i) (by omega)]
    have hsum : i + (j - i) = j := by omega
    rw [hsum]
    split <;> rfl

theorem shiftInsert_of_le (r : Records) {i j : Nat} (k : Key) (v : Value)
    (hi : leafSpanSize ≤ i) (hj : j ≤ i)
    : r.shiftInsert i j k v = r := by
  have hzero : j - i = 0 := by omega
  apply ext_get
  intro t ht
  simp only [shiftInsert, hzero, moveRight, update]
  rw [get_put, if_neg (by omega)]

theorem Sorted.le_of_live {r : Records} {n t : Nat} (h : r.Sorted n)
    (ht : (r.get t).key ≠ kkeyNull)
    : t < n := by
  cases Nat.lt_or_ge t n with
  | inl hlt => exact hlt
  | inr hge => exact absurd (h.dead t hge) ht

theorem Sorted.unique {r : Records} {n m : Nat} (hn : r.Sorted n) (hm : r.Sorted m) : n = m := by
  rcases Nat.lt_trichotomy n m with h | h | h
  . exact absurd (hn.dead n (Nat.le_refl _)) (hm.live n h)
  . exact h
  . exact absurd (hm.dead m (Nat.le_refl _)) (hn.live m h)

theorem Sorted.key_injective {r : Records} {n s t : Nat} (h : r.Sorted n) (hs : s < n) (ht : t < n)
    (heq : (r.get s).key = (r.get t).key)
    : s = t := by
  rcases Nat.lt_trichotomy s t with hlt | hlt | hlt
  . exact absurd heq (ne_of_lt (h.lt s t hlt ht))
  . exact hlt
  . exact absurd heq.symm (ne_of_lt (h.lt t s hlt hs))

theorem Sorted.congr {r r' : Records} {n : Nat} (h : r.Sorted n) (hkey : ∀ t, (r'.get t).key = (r.get t).key)
    : r'.Sorted n where
  le := h.le
  live := by simpa only [hkey] using h.live
  dead := by simpa only [hkey] using h.dead
  lt := by simpa only [hkey] using h.lt

/-- What the scan returns on a sorted array: the key is there, or `i` splits the keys around it. -/
theorem Sorted.findSlot_spec {r : Records} {n : Nat} (h : r.Sorted n) {k : Key} (hk : k ≠ kkeyNull)
    : (r.findSlot k = .existing ∧ ∃ t, t < n ∧ (r.get t).key = k)
        ∨
      (∃ i, r.findSlot k = .free i ∧ i ≤ n ∧ (∀ t, t < i → (r.get t).key < k)
        ∧ ∀ t, i ≤ t → t < n → k < (r.get t).key) := by
  have hle := findIdx_stopsAt_le r k
  have hstop := stopsAt_findIdx r k
  have hbefore := fun t => not_stopsAt_of_lt r k (t := t)
  unfold findSlot
  generalize r.toList.findIdx (stopsAt k) = i at *
  have hbefore : ∀ t, t < i → (r.get t).key < k ∧ (r.get t).key ≠ kkeyNull := by
    intro t ht
    have := hbefore t ht
    simp only [stopsAt, Bool.or_eq_false_iff, decide_eq_false_iff_not, not_lt] at this
    exact ⟨lt_of_le_of_ne this.2 this.1.1, this.1.2⟩
  have hin : i ≤ n := by
    cases Nat.lt_or_ge n i with
    | inl hlt => exact absurd (h.dead n (Nat.le_refl _)) (hbefore n hlt).2
    | inr hge => exact hge
  dsimp only
  split
  . next hex =>
    have hne : (r.get i).key ≠ kkeyNull := by
      rw [hex.2]
      exact hk
    exact .inl ⟨rfl, i, h.le_of_live hne, hex.2⟩
  . next hex =>
    refine .inr ⟨i, rfl, hin, fun t ht => (hbefore t ht).1, ?_⟩
    intro t hit htn
    have hlt : i < leafSpanSize := by
      have := h.le
      omega
    have := hstop hlt
    simp only [stopsAt, Bool.or_eq_true, decide_eq_true_eq] at this
    have hki : k < (r.get i).key := by
      rcases this with (heq | hnull) | hlt'
      . exact absurd ⟨hlt, heq⟩ hex
      . exact absurd hnull (h.live i (by omega))
      . exact hlt'
    by_cases heq : i = t
    . rwa [← heq]
    . exact lt_trans hki (h.lt i t (by omega) htn)

theorem Sorted.firstNull_eq {r : Records} {n i : Nat} (h : r.Sorted n) (hi : i ≤ n)
    : r.firstNull i = n := by
  have hle := h.le
  unfold firstNull
  have hfind : (r.toList.drop i).findIdx (fun e => decide (e.key = kkeyNull)) = n - i := by
    by_cases hn : n = leafSpanSize
    . -- a full array: no record from `i` on is null
      have hlen : (r.toList.drop i).length = n - i := by simp [hn]
      rw [← hlen]
      apply List.findIdx_eq_length_of_false
      intro e he
      obtain ⟨t, ht, hget⟩ := List.getElem_of_mem he
      have ht' : i + t < leafSpanSize := by
        have := ht
        rw [hlen] at this
        omega
      rw [List.getElem_drop, Vector.getElem_toList, ← get_eq_getElem r ht'] at hget
      rw [← hget]
      simpa using h.live (i + t) (by omega)
    . rw [List.findIdx_eq (by simp; omega)]
      constructor
      . rw [List.getElem_drop, Vector.getElem_toList]
        rw [← get_eq_getElem r (by omega)]
        simpa using h.dead (i + (n - i)) (by omega)
      . intro t ht
        rw [List.getElem_drop, Vector.getElem_toList]
        rw [← get_eq_getElem r (by omega)]
        simpa using h.live (i + t) (by omega)
  omega

theorem shiftInsert_key (r : Records) {i j : Nat} (k : Key) (v : Value) (hij : i ≤ j)
    (hj : j < leafSpanSize) (t : Nat)
    : ((r.shiftInsert i j k v).get t).key
        =
      if t = i then k else if i < t ∧ t ≤ j then (r.get (t - 1)).key else (r.get t).key := by
  have := congrArg Prod.fst (shiftInsert_get r k v hij hj t)
  simp only at this
  rw [this]
  split
  . rfl
  . split <;> rfl

theorem shiftInsert_value (r : Records) {i j : Nat} (k : Key) (v : Value) (hij : i ≤ j)
    (hj : j < leafSpanSize) (t : Nat)
    : ((r.shiftInsert i j k v).get t).value
        =
      if t = i then v else if i < t ∧ t ≤ j then (r.get (t - 1)).value else (r.get t).value := by
  have := congrArg Prod.snd (shiftInsert_get r k v hij hj t)
  simp only at this
  rw [this]
  split
  . rfl
  . split <;> rfl

/--
A shift and insert at the slot of the scan keeps the array sorted. `j` is `n` when there is room and
the last index when the last record is overwritten.
-/
theorem Sorted.shiftInsert {r : Records} {n i j : Nat} {k : Key} (v : Value) (h : r.Sorted n)
    (hk : k ≠ kkeyNull) (hi : i ≤ j) (hj : j < leafSpanSize) (hjn : j ≤ n) (hnj : n ≤ j + 1)
    (hbelow : ∀ t, t < i → (r.get t).key < k) (habove : ∀ t, i ≤ t → t < n → k < (r.get t).key)
    : (r.shiftInsert i j k v).Sorted (j + 1) where
  le := by omega
  live := by
    intro t ht
    rw [shiftInsert_key r k v hi hj]
    split
    . exact hk
    . split
      . exact h.live (t - 1) (by omega)
      . exact h.live t (by omega)
  dead := by
    intro t ht
    rw [shiftInsert_key r k v hi hj, if_neg (by omega), if_neg (by omega)]
    exact h.dead t (by omega)
  lt := by
    intro s t hst ht
    rw [shiftInsert_key r k v hi hj, shiftInsert_key r k v hi hj]
    by_cases hs : s = i
    . rw [if_pos hs, if_neg (by omega), if_pos (by omega)]
      exact habove (t - 1) (by omega) (by omega)
    . rw [if_neg hs]
      by_cases ht' : t = i
      . rw [if_pos ht', if_neg (by omega)]
        exact hbelow s (by omega)
      . rw [if_neg ht']
        split
        . rw [if_pos (by omega)]
          exact h.lt (s - 1) (t - 1) (by omega) (by omega)
        . split
          . by_cases hs' : s = t - 1
            . rw [hs'] at hs ⊢
              omega
            . exact h.lt s (t - 1) (by omega) (by omega)
          . exact h.lt s t hst (by omega)

theorem has_shiftInsert {r : Records} {n i j : Nat} {k : Key} {v : Value} (h : r.Sorted n)
    (hi : i ≤ j) (hj : j < leafSpanSize) (hjn : j ≤ n) (hnj : n ≤ j + 1) {k' : Key} {v' : Value}
    (hk' : k' ≠ kkeyNull)
    : (r.shiftInsert i j k v).Has k' v'
        ↔
      (k' = k ∧ v' = v) ∨ (r.Has k' v' ∧ (r.get j).key ≠ k') := by
  constructor
  . rintro ⟨t, ht, hkey, hval⟩
    rw [shiftInsert_key r k v hi hj] at hkey
    rw [shiftInsert_value r k v hi hj] at hval
    by_cases hti : t = i
    . rw [if_pos hti] at hkey hval
      exact .inl ⟨hkey.symm, hval.symm⟩
    . rw [if_neg hti] at hkey hval
      right
      split at hkey
      . next hin =>
        rw [if_pos hin] at hval
        refine ⟨⟨t - 1, by omega, hkey, hval⟩, ?_⟩
        intro heq
        have hlive : (r.get j).key ≠ kkeyNull := by
          rw [heq]
          exact hk'
        have := h.key_injective (h.le_of_live hlive) (show t - 1 < n by omega) (heq.trans hkey.symm)
        omega
      . next hin =>
        rw [if_neg hin] at hval
        refine ⟨⟨t, ht, hkey, hval⟩, ?_⟩
        intro heq
        have hlive : (r.get j).key ≠ kkeyNull := by
          rw [heq]
          exact hk'
        have hlive' : (r.get t).key ≠ kkeyNull := by
          rw [hkey]
          exact hk'
        have := h.key_injective (h.le_of_live hlive) (h.le_of_live hlive') (heq.trans hkey.symm)
        omega
  . rintro (⟨rfl, rfl⟩ | ⟨⟨t, ht, hkey, hval⟩, hlast⟩)
    . refine ⟨i, by omega, ?_, ?_⟩
      . rw [shiftInsert_key r k' v' hi hj, if_pos rfl]
      . rw [shiftInsert_value r k' v' hi hj, if_pos rfl]
    . have htn : t < n := by
        apply h.le_of_live
        rw [hkey]
        exact hk'
      have htj : t ≠ j := by
        intro heq
        rw [heq] at hkey
        exact hlast hkey
      by_cases hti : t < i
      . refine ⟨t, ht, ?_, ?_⟩
        . rw [shiftInsert_key r k v hi hj, if_neg (by omega), if_neg (by omega)]
          exact hkey
        . rw [shiftInsert_value r k v hi hj, if_neg (by omega), if_neg (by omega)]
          exact hval
      . refine ⟨t + 1, by omega, ?_, ?_⟩
        . rw [shiftInsert_key r k v hi hj, if_neg (by omega), if_pos (by omega)]
          exact hkey
        . rw [shiftInsert_value r k v hi hj, if_neg (by omega), if_pos (by omega)]
          exact hval

end Records

end Rolex

import Rolex.Hopscotch.Basic

/-!
This module contains the lock words of the `VACANCY_AWARE_LOCK` build (`VALock` of `Metadata.h`): 31 bits
for the buckets of the leaf, 31 bits for those of its synonym leaf, one bit of padding and the lock bit.
-/

namespace Rolex.VALock

def vacancyMapBit : Nat := 63 / 2

/-- `find_bucket`; the quotients that are not zero are no integers, so the floating point floor is exact. -/
def findBucket (kvIdx : Nat) : Nat := kvIdx * vacancyMapBit / leafSpanSize % vacancyMapBit

/-- `get_idx_range_in_bucket`, where the last quotient is cut off at the span whatever it is rounded to. -/
def getIdxRangeInBucket (bucket : Nat) : Nat × Nat :=
  (if bucket = 0 then 0 else bucket * leafSpanSize / vacancyMapBit + 1,
    min ((bucket + 1) * leafSpanSize / vacancyMapBit) (leafSpanSize - 1))

def bucketBit (isSynonym : Bool) (bucket : Nat) : Nat := if isSynonym then vacancyMapBit + bucket else bucket

def setBit (isSynonym : Bool) (lock : BitVec 64) (bucket : Nat) : BitVec 64 :=
  lock ||| BitVec.twoPow 64 (bucketBit isSynonym bucket)

def unsetBit (isSynonym : Bool) (lock : BitVec 64) (bucket : Nat) : BitVec 64 :=
  lock &&& ~~~ BitVec.twoPow 64 (bucketBit isSynonym bucket)

/-- The elements of a cyclic segment of `0, ..., n - 1`, in the order in which the loops visit them. -/
def segmentList (n l r : Nat) : List Nat :=
  if l ≤ r then List.range' l (r + 1 - l) else List.range (r + 1) ++ List.range' l (n - l)

def updateVacancy (lock : BitVec 64) (l r : Nat) (emptyIdxes : List Nat) (isSynonym : Bool)
    : Except Assertion (BitVec 64) :=
  let lBit := findBucket l
  let rBit := findBucket r
  let lock := (segmentList vacancyMapBit lBit rBit).foldl (setBit isSynonym) lock
  emptyIdxes.foldlM
    (fun lock emptyIdx =>
      if InSegment lBit rBit (findBucket emptyIdx) then
        .ok (unsetBit isSynonym lock (findBucket emptyIdx))
      else
        .error .bucket)
    lock

def getReadEntryNumFromBitmap (lock : BitVec 64) (startIdx : Nat) (isSynonym : Bool) : Nat :=
  go vacancyMapBit
where
  go : Nat → Nat
    | 0 => leafSpanSize
    | n + 1 =>
      let eBit := (findBucket startIdx + (vacancyMapBit - (n + 1))) % vacancyMapBit
      if lock.getLsbD (bucketBit isSynonym eBit) then
        go n
      else
        let (lIdx, rIdx) := getIdxRangeInBucket eBit
        if startIdx > lIdx then
          go n
        else
          let entryNum := (rIdx + leafSpanSize - startIdx + 1) % leafSpanSize
          if entryNum = 0 then leafSpanSize else entryNum

theorem mem_segmentList {n l r i : Nat} (hr : r < n) (hl : l < n)
    : i ∈ segmentList n l r ↔ i < n ∧ InSegment l r i := by
  unfold segmentList InSegment
  split
  . rw [List.mem_range'_1]
    omega
  . rw [List.mem_append, List.mem_range, List.mem_range'_1]
    omega

theorem findBucket_strictMono {i j : Nat} (hij : i < j) (hj : j < leafSpanSize)
    : findBucket i < findBucket j := by
  have h31 : vacancyMapBit = 31 := rfl
  rw [leafSpanSize_eq] at hj
  unfold findBucket
  rw [h31, leafSpanSize_eq, Nat.mod_eq_of_lt (show i * 31 / 16 < 31 by omega),
    Nat.mod_eq_of_lt (show j * 31 / 16 < 31 by omega)]
  omega

theorem inSegment_findBucket {l r i : Nat} (hl : l < leafSpanSize) (hr : r < leafSpanSize)
    (hi : i < leafSpanSize) (h : InSegment l r i)
    : InSegment (findBucket l) (findBucket r) (findBucket i) := by
  have hmono : ∀ {a b : Nat}, b < leafSpanSize → a ≤ b → findBucket a ≤ findBucket b := by
    intro a b hb hab
    rcases Nat.eq_or_lt_of_le hab with rfl | hlt
    . exact Nat.le_refl _
    . exact Nat.le_of_lt (findBucket_strictMono hlt hb)
  unfold InSegment at h ⊢
  split at h
  . next hle =>
    rw [if_pos (hmono hr hle)]
    exact ⟨hmono hi h.1, hmono hr h.2⟩
  . next hgt =>
    have hlt := findBucket_strictMono (show r < l by omega) hl
    rw [if_neg (by omega)]
    exact h.imp (hmono hr) (hmono hi)

/-- The assertions hold, as the empty slots are in the segment. -/
theorem updateVacancy_ok (lock : BitVec 64) {l r : Nat} {emptyIdxes : List Nat} (isSynonym : Bool)
    (hl : l < leafSpanSize) (hr : r < leafSpanSize)
    (hempty : ∀ i ∈ emptyIdxes, i < leafSpanSize ∧ InSegment l r i)
    : ∃ lock', updateVacancy lock l r emptyIdxes isSynonym = .ok lock' := by
  unfold updateVacancy
  dsimp only
  generalize List.foldl _ lock _ = lock
  induction emptyIdxes generalizing lock with
  | nil => exact ⟨lock, rfl⟩
  | cons i emptyIdxes ih =>
    obtain ⟨hi, hin⟩ := hempty i List.mem_cons_self
    rw [List.foldlM_cons, if_pos (inSegment_findBucket hl hr hi hin)]
    exact ih (fun j hj => hempty j (List.mem_cons_of_mem i hj)) _

end Rolex.VALock

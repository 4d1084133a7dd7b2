import Rolex.Hopscotch.Effect
import Rolex.Index.Basic

/-!
This module contains what the bitmaps of a lock word say: `update_vacancy` makes the bits of the buckets
that own a slot agree with the slots of the segment, and `get_read_entry_num_from_bitmap` stops at the
first bit that is clear, whether its bucket owns a slot or not.
-/

namespace Rolex

namespace VALock

theorem findBucket_lt (i : Nat) : findBucket i < vacancyMapBit := Nat.mod_lt _ (by decide)

theorem findBucket_eq {i : Nat} (hi : i < leafSpanSize) : findBucket i = 2 * i - 1 := by
  have hall : ∀ i < leafSpanSize, findBucket i = 2 * i - 1 := by decide
  exact hall i hi

theorem getIdxRangeInBucket_eq {c : Nat} (hc : c < vacancyMapBit)
    : getIdxRangeInBucket c = (c / 2 + min c 1, (c + 1) / 2) := by
  have hall : ∀ c < vacancyMapBit,
      getIdxRangeInBucket c = (c / 2 + min c 1, (c + 1) / 2) := by
    decide
  exact hall c hc

theorem findBucket_inj {i j : Nat} (hi : i < leafSpanSize) (hj : j < leafSpanSize)
    (h : findBucket i = findBucket j)
    : i = j := by
  rcases Nat.lt_trichotomy i j with hlt | heq | hgt
  . have := findBucket_strictMono hlt hj
    omega
  . exact heq
  . have := findBucket_strictMono hgt hi
    omega

theorem inSegment_findBucket_iff {l r i : Nat} (hl : l < leafSpanSize) (hr : r < leafSpanSize)
    (hi : i < leafSpanSize)
    : InSegment (findBucket l) (findBucket r) (findBucket i) ↔ InSegment l r i := by
  refine ⟨fun h => ?_, inSegment_findBucket hl hr hi⟩
  have hle : ∀ {x y : Nat}, x < leafSpanSize → findBucket x ≤ findBucket y → x ≤ y := by
    intro x y hx hxy
    by_contra hlt
    have := findBucket_strictMono (not_le.mp hlt) hx
    omega
  unfold InSegment at h ⊢
  split at h
  . next hlr =>
    rw [if_pos (hle hl hlr)]
    exact ⟨hle hl h.1, hle hi h.2⟩
  . next hlr =>
    rw [if_neg]
    . exact h.imp (hle hi) (hle hl)
    . intro hlr'
      rcases Nat.eq_or_lt_of_le hlr' with heq | hlt
      . rw [heq] at hlr
        exact hlr (Nat.le_refl _)
      . exact hlr (Nat.le_of_lt (findBucket_strictMono hlt hr))

theorem bucketBit_inj {isSynonym isSynonym' : Bool} {c c' : Nat} (hc : c < vacancyMapBit)
    (hc' : c' < vacancyMapBit)
    : bucketBit isSynonym c = bucketBit isSynonym' c' ↔ isSynonym = isSynonym' ∧ c = c' := by
  unfold bucketBit
  cases isSynonym <;> cases isSynonym' <;> simp <;> omega

theorem bucketBit_lt (isSynonym : Bool) {c : Nat} (hc : c < vacancyMapBit) : bucketBit isSynonym c < 62 := by
  have h31 : vacancyMapBit = 31 := rfl
  unfold bucketBit
  split <;> omega

theorem getLsbD_setBit (isSynonym : Bool) (lock : BitVec 64) (c : Nat) {j : Nat} (hj : j < 64)
    : (setBit isSynonym lock c).getLsbD j = (lock.getLsbD j || decide (bucketBit isSynonym c = j)) := by
  unfold setBit
  rw [BitVec.getLsbD_or, BitVec.getLsbD_twoPow]
  congr 1
  by_cases h : bucketBit isSynonym c = j
  . simp [h, hj]
  . simp [h]

theorem getLsbD_unsetBit (isSynonym : Bool) (lock : BitVec 64) (c : Nat) {j : Nat} (hj : j < 64)
    : (unsetBit isSynonym lock c).getLsbD j = (lock.getLsbD j && !decide (bucketBit isSynonym c = j)) := by
  unfold unsetBit
  rw [BitVec.getLsbD_and, BitVec.getLsbD_not, BitVec.getLsbD_twoPow]
  congr 1
  by_cases h : bucketBit isSynonym c = j
  . simp [h, hj]
  . simp [h, hj]

theorem getLsbD_foldl_setBit (isSynonym : Bool) (cs : List Nat) (lock : BitVec 64) {j : Nat} (hj : j < 64)
    : (cs.foldl (setBit isSynonym) lock).getLsbD j
        = (lock.getLsbD j || decide (∃ c ∈ cs, bucketBit isSynonym c = j)) := by
  induction cs generalizing lock with
  | nil => simp
  | cons c cs ih =>
    rw [List.foldl_cons, ih, getLsbD_setBit _ _ _ hj, Bool.or_assoc]
    simp only [List.mem_cons, exists_eq_or_imp, Bool.decide_or]

theorem getLsbD_updateVacancy {lock lock' : BitVec 64} {l r : Nat} {emptyIdxes : List Nat}
    {isSynonym : Bool} (h : updateVacancy lock l r emptyIdxes isSynonym = .ok lock') {j : Nat} (hj : j < 64)
    : lock'.getLsbD j
        = ((lock.getLsbD j
            || decide (∃ c, c < vacancyMapBit ∧ InSegment (findBucket l) (findBucket r) c
                ∧ bucketBit isSynonym c = j))
          && !decide (∃ i ∈ emptyIdxes, bucketBit isSynonym (findBucket i) = j)) := by
  unfold updateVacancy at h
  dsimp only at h
  have hset := getLsbD_foldl_setBit isSynonym
    (segmentList vacancyMapBit (findBucket l) (findBucket r)) lock hj
  simp only [mem_segmentList (findBucket_lt r) (findBucket_lt l), and_assoc] at hset
  rw [← hset]
  generalize List.foldl _ lock _ = lock₁ at h
  clear hset
  induction emptyIdxes generalizing lock₁ with
  | nil =>
    cases h
    simp
  | cons i emptyIdxes ih =>
    rw [List.foldlM_cons] at h
    split at h
    . rw [ih _ h, getLsbD_unsetBit _ _ _ hj, Bool.and_assoc]
      simp only [List.mem_cons, exists_eq_or_imp, Bool.decide_or, Bool.not_or]
    . cases h

theorem getReadEntryNumFromBitmap_bounds (lock : BitVec 64) (startIdx : Nat) (isSynonym : Bool)
    : 1 ≤ getReadEntryNumFromBitmap lock startIdx isSynonym
        ∧ getReadEntryNumFromBitmap lock startIdx isSynonym ≤ leafSpanSize := by
  have h16 := leafSpanSize_eq
  unfold getReadEntryNumFromBitmap
  generalize vacancyMapBit = n
  induction n with
  | zero =>
    unfold getReadEntryNumFromBitmap.go
    omega
  | succ n ih =>
    unfold getReadEntryNumFromBitmap.go
    dsimp only
    split
    . exact ih
    . split
      . exact ih
      . split
        . omega
        . next hne =>
          have := Nat.mod_lt ((getIdxRangeInBucket ((findBucket startIdx
            + (vacancyMapBit - (n + 1))) % vacancyMapBit)).2 + leafSpanSize - startIdx + 1)
            (show 0 < leafSpanSize by decide)
          omega

/-- Slot `i` or the bucket behind it, which owns no slot, is marked as empty. -/
def Clear (lock : BitVec 64) (isSynonym : Bool) (i : Nat) : Prop :=
  lock.getLsbD (bucketBit isSynonym (findBucket i)) = false
    ∨ (1 ≤ i ∧ lock.getLsbD (bucketBit isSynonym (2 * i)) = false)

variable {lock : BitVec 64} {startIdx : Nat} {isSynonym : Bool}

theorem go_succ {n c : Nat} (hc : (findBucket startIdx + (vacancyMapBit - (n + 1))) % vacancyMapBit = c)
    : getReadEntryNumFromBitmap.go lock startIdx isSynonym (n + 1)
        = if lock.getLsbD (bucketBit isSynonym c) = true then
            getReadEntryNumFromBitmap.go lock startIdx isSynonym n
          else if startIdx > c / 2 + min c 1 then
            getReadEntryNumFromBitmap.go lock startIdx isSynonym n
          else if ((c + 1) / 2 + 16 - startIdx + 1) % 16 = 0 then
            16
          else
            ((c + 1) / 2 + 16 - startIdx + 1) % 16 := by
  have hlt : c < vacancyMapBit := by
    rw [← hc]
    exact Nat.mod_lt _ (by decide)
  have hrange := getIdxRangeInBucket_eq hlt
  rw [getReadEntryNumFromBitmap.go, hc]
  dsimp only
  rw [hrange]
  rfl

/-- Behind the wrap only the bucket before the start stops the scan, and then all slots are read. -/
theorem go_of_wrapped (hstart : startIdx < leafSpanSize) {n : Nat} (hn : n ≤ findBucket startIdx)
    : getReadEntryNumFromBitmap.go lock startIdx isSynonym n = 16 := by
  rw [leafSpanSize_eq] at hstart
  have h31 : vacancyMapBit = 31 := rfl
  have hbucket := findBucket_eq hstart
  induction n with
  | zero => rfl
  | succ n ih =>
    have hc : (findBucket startIdx + (vacancyMapBit - (n + 1))) % vacancyMapBit
        = findBucket startIdx - (n + 1) := by
      rw [h31]
      omega
    rw [go_succ hc, ih (by omega)]
    split
    . rfl
    . split
      . rfl
      . next hle =>
        rw [if_pos]
        omega

theorem go_of_not_wrapped (hstart : startIdx < leafSpanSize) {n : Nat} (hn : findBucket startIdx ≤ n)
    (hn' : n ≤ vacancyMapBit)
    : (∃ c, findBucket startIdx + (vacancyMapBit - n) ≤ c ∧ c < vacancyMapBit
          ∧ lock.getLsbD (bucketBit isSynonym c) = false
          ∧ (∀ c', findBucket startIdx + (vacancyMapBit - n) ≤ c' → c' < c →
              lock.getLsbD (bucketBit isSynonym c') = true)
          ∧ getReadEntryNumFromBitmap.go lock startIdx isSynonym n = (c + 1) / 2 - startIdx + 1)
        ∨ ((∀ c', findBucket startIdx + (vacancyMapBit - n) ≤ c' → c' < vacancyMapBit →
              lock.getLsbD (bucketBit isSynonym c') = true)
          ∧ getReadEntryNumFromBitmap.go lock startIdx isSynonym n = 16) := by
  have hstart' : startIdx < 16 := hstart
  have h31 : vacancyMapBit = 31 := rfl
  have hbucket := findBucket_eq hstart
  induction n with
  | zero =>
    refine .inr ⟨fun c' hc' => by omega, ?_⟩
    exact go_of_wrapped hstart (Nat.zero_le _)
  | succ n ih =>
    by_cases hwrap : findBucket startIdx = n + 1
    . refine .inr ⟨fun c' hc' => by omega, ?_⟩
      exact go_of_wrapped hstart hwrap.ge
    . have hc : (findBucket startIdx + (vacancyMapBit - (n + 1))) % vacancyMapBit
          = findBucket startIdx + (vacancyMapBit - (n + 1)) := by
        rw [h31]
        omega
      rw [go_succ hc]
      have hnext : findBucket startIdx + (vacancyMapBit - n)
          = findBucket startIdx + (vacancyMapBit - (n + 1)) + 1 := by
        omega
      rw [hnext] at ih
      have hlt : findBucket startIdx + (vacancyMapBit - (n + 1)) < 31 := by omega
      have hge : 2 * startIdx - 1 ≤ findBucket startIdx + (vacancyMapBit - (n + 1)) := by omega
      generalize findBucket startIdx + (vacancyMapBit - (n + 1)) = c at ih hlt hge
      split
      . next hset =>
        have hfirst : ∀ c', c ≤ c' → ¬ c + 1 ≤ c' → lock.getLsbD (bucketBit isSynonym c') = true := by
          intro c' hle hnle
          obtain rfl : c' = c := by omega
          exact hset
        rcases ih (by omega) (by omega) with ⟨d, hd, hd', hclear, hbefore, heq⟩ | ⟨hall, heq⟩
        . refine .inl ⟨d, by omega, hd', hclear, fun c' hle hc'd => ?_, heq⟩
          by_cases hle' : c + 1 ≤ c'
          . exact hbefore c' hle' hc'd
          . exact hfirst c' hle hle'
        . refine .inr ⟨fun c' hle hc' => ?_, heq⟩
          by_cases hle' : c + 1 ≤ c'
          . exact hall c' hle' hc'
          . exact hfirst c' hle hle'
      . next hclear =>
        refine .inl ⟨c, Nat.le_refl c, hlt, by simpa using hclear, fun c' hle hc'c => by omega, ?_⟩
        clear ih
        rw [if_neg (by omega)]
        split
        . omega
        . omega

/-- The scan from a slot stops at the first slot that is marked as empty or followed by a clear bit. -/
theorem getReadEntryNumFromBitmap_eq (hstart : startIdx < leafSpanSize)
    : (∃ i, startIdx ≤ i ∧ i < leafSpanSize ∧ Clear lock isSynonym i
          ∧ (∀ j, startIdx ≤ j → j < i → ¬ Clear lock isSynonym j)
          ∧ getReadEntryNumFromBitmap lock startIdx isSynonym = i - startIdx + 1)
        ∨ ((∀ j, startIdx ≤ j → j < leafSpanSize → ¬ Clear lock isSynonym j)
          ∧ getReadEntryNumFromBitmap lock startIdx isSynonym = leafSpanSize) := by
  have h16 := leafSpanSize_eq
  have h31 : vacancyMapBit = 31 := rfl
  have hbucket := findBucket_eq hstart
  unfold getReadEntryNumFromBitmap Clear
  have hset : ∀ {d : Nat}, (∀ c', findBucket startIdx + (vacancyMapBit - vacancyMapBit) ≤ c' → c' < d →
      lock.getLsbD (bucketBit isSynonym c') = true) → ∀ {j : Nat}, startIdx ≤ j → j < leafSpanSize →
      2 * j < d →
      ¬ (lock.getLsbD (bucketBit isSynonym (findBucket j)) = false
        ∨ (1 ≤ j ∧ lock.getLsbD (bucketBit isSynonym (2 * j)) = false)) := by
    intro d hall j hle hj hjd
    have hj' := findBucket_eq hj
    rw [hall (findBucket j) (by omega) (by omega), hall (2 * j) (by omega) hjd]
    simp
  rcases @go_of_not_wrapped lock startIdx isSynonym hstart vacancyMapBit (by omega) (Nat.le_refl _) with
    ⟨c, hc, hc', hclear, hbefore, heq⟩ | ⟨hall, heq⟩
  . refine .inl ⟨(c + 1) / 2, by omega, by omega, ?_, ?_, heq⟩
    . have hi := findBucket_eq (show (c + 1) / 2 < leafSpanSize by omega)
      by_cases howns : findBucket ((c + 1) / 2) = c
      . rw [howns]
        exact .inl hclear
      . have hc2 : 2 * ((c + 1) / 2) = c := by omega
        rw [hc2]
        exact .inr ⟨by omega, hclear⟩
    . intro j hle hj
      exact hset hbefore hle (by omega) (by omega)
  . exact .inr ⟨fun j hle hj => hset hall hle hj (by omega), heq⟩

/-- The bits of the buckets that own a slot say which slots of the node are in use. -/
def Tracks (lock : BitVec 64) (isSynonym : Bool) (r : HopRecords) : Prop :=
  ∀ p : Fin leafSpanSize,
    lock.getLsbD (bucketBit isSynonym (findBucket p)) = decide ((r.get p).key ≠ kkeyNull)

theorem tracks_zero (isSynonym : Bool) : Tracks 0 isSynonym HopRecords.zero := by
  intro p
  rw [HopRecords.get_zero]
  simp [HopEntry.null]

theorem Tracks.congr {r r' : HopRecords} (h : Tracks lock isSynonym r)
    (hkey : ∀ p, (r'.get p).key = (r.get p).key)
    : Tracks lock isSynonym r' := by
  intro p
  rw [hkey]
  exact h p

end VALock

theorem mem_emptyIdxes (r : HopRecords) {lIdx rIdx : Nat} (i : Nat) (hl : lIdx < leafSpanSize)
    (hr : rIdx < leafSpanSize)
    : i ∈ emptyIdxes r lIdx rIdx
        ↔ i < leafSpanSize ∧ InSegment lIdx rIdx i ∧ (r.getEntry i).key = kkeyNull := by
  unfold emptyIdxes
  rw [List.mem_filter, VALock.mem_segmentList hr hl, and_assoc]
  simp only [decide_eq_true_eq]

namespace VALock

variable {lock lock' : BitVec 64} {lIdx rIdx : Nat} {r r' : HopRecords} {isSynonym : Bool}

theorem tracks_updateVacancy (hl : lIdx < leafSpanSize) (hr : rIdx < leafSpanSize)
    (h : ∀ p : Fin leafSpanSize, ¬ InSegment lIdx rIdx p →
      lock.getLsbD (bucketBit isSynonym (findBucket p)) = decide ((r'.get p).key ≠ kkeyNull))
    (hok : VALock.updateVacancy lock lIdx rIdx (emptyIdxes r' lIdx rIdx) isSynonym = .ok lock')
    : Tracks lock' isSynonym r' := by
  intro p
  have hlt := bucketBit_lt isSynonym (findBucket_lt p)
  rw [getLsbD_updateVacancy hok (by omega)]
  have hset : (∃ c, c < vacancyMapBit ∧ InSegment (findBucket lIdx) (findBucket rIdx) c
      ∧ bucketBit isSynonym c = bucketBit isSynonym (findBucket p)) ↔ InSegment lIdx rIdx p := by
    rw [← inSegment_findBucket_iff hl hr p.isLt]
    constructor
    . rintro ⟨c, hc, hin, heq⟩
      rw [((bucketBit_inj hc (findBucket_lt p)).mp heq).2] at hin
      exact hin
    . intro hin
      exact ⟨_, findBucket_lt p, hin, rfl⟩
  have hunset : (∃ i ∈ emptyIdxes r' lIdx rIdx, bucketBit isSynonym (findBucket i)
      = bucketBit isSynonym (findBucket p)) ↔ InSegment lIdx rIdx p ∧ (r'.get p).key = kkeyNull := by
    have hmem := fun i => mem_emptyIdxes r' i hl hr
    constructor
    . rintro ⟨i, hi, heq⟩
      obtain ⟨hlt, hin, hnull⟩ := (hmem i).mp hi
      have heq' := ((bucketBit_inj (findBucket_lt i) (findBucket_lt p)).mp heq).2
      obtain rfl := findBucket_inj hlt p.isLt heq'
      rw [HopRecords.getEntry_val] at hnull
      exact ⟨hin, hnull⟩
    . rintro ⟨hin, hnull⟩
      refine ⟨p, (hmem p).mpr ⟨p.isLt, hin, ?_⟩, rfl⟩
      rw [HopRecords.getEntry_val]
      exact hnull
  simp only [hset, hunset]
  by_cases hin : InSegment lIdx rIdx p
  . simp [hin]
  . simp [hin, h p hin]

theorem Tracks.updateVacancy (h : Tracks lock isSynonym r) (hl : lIdx < leafSpanSize)
    (hr : rIdx < leafSpanSize)
    (hsame : ∀ p : Fin leafSpanSize, ¬ InSegment lIdx rIdx p → (r'.get p).key = (r.get p).key)
    (hok : VALock.updateVacancy lock lIdx rIdx (emptyIdxes r' lIdx rIdx) isSynonym = .ok lock')
    : Tracks lock' isSynonym r' := by
  apply tracks_updateVacancy hl hr _ hok
  intro p hp
  rw [h p, hsame p hp]

theorem getLsbD_updateVacancy_of_ne {emptyIdxes : List Nat}
    (hok : VALock.updateVacancy lock lIdx rIdx emptyIdxes isSynonym = .ok lock') {j : Nat} (hj : j < 64)
    (hne : ∀ c, c < vacancyMapBit → bucketBit isSynonym c ≠ j)
    : lock'.getLsbD j = lock.getLsbD j := by
  rw [getLsbD_updateVacancy hok hj]
  have hset : ¬ ∃ c, c < vacancyMapBit ∧ InSegment (findBucket lIdx) (findBucket rIdx) c
      ∧ bucketBit isSynonym c = j := by
    rintro ⟨c, hc, -, heq⟩
    exact hne c hc heq
  have hunset : ¬ ∃ i ∈ emptyIdxes, bucketBit isSynonym (findBucket i) = j := by
    rintro ⟨i, -, heq⟩
    exact hne _ (findBucket_lt i) heq
  simp [hset, hunset]

theorem Tracks.updateVacancy_other {emptyIdxes : List Nat} (h : Tracks lock (!isSynonym) r)
    (hok : VALock.updateVacancy lock lIdx rIdx emptyIdxes isSynonym = .ok lock')
    : Tracks lock' (!isSynonym) r := by
  intro p
  have hlt := bucketBit_lt (!isSynonym) (findBucket_lt p)
  rw [getLsbD_updateVacancy_of_ne hok (by omega), h p]
  intro c hc heq
  have := ((bucketBit_inj hc (findBucket_lt p)).mp heq).1
  simp at this

def Unlocked (lock : BitVec 64) : Prop := lock.getLsbD 63 = false

theorem unlocked_iff (lock : BitVec 64) : 0 &&& lockBit = lock &&& lockBit ↔ Unlocked lock := by
  have hbit : lockBit = BitVec.twoPow 64 63 := by decide
  have hzero : (0 : BitVec 64) &&& lockBit = 0 := by decide
  unfold Unlocked
  rw [hzero, hbit, BitVec.and_twoPow]
  cases lock.getLsbD 63 with
  | false => simp
  | true => decide

theorem Unlocked.updateVacancy {emptyIdxes : List Nat} (h : Unlocked lock)
    (hok : VALock.updateVacancy lock lIdx rIdx emptyIdxes isSynonym = .ok lock')
    : Unlocked lock' := by
  unfold Unlocked
  rw [getLsbD_updateVacancy_of_ne hok (by omega)]
  . exact h
  . intro c hc
    have := bucketBit_lt isSynonym hc
    omega

end VALock

end Rolex

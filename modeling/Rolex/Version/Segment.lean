import Rolex.Version.Scattered

/-!
This module contains where the segments of a node are, in the plain layout and in the one with replicated
metadata, and that the offsets of all managers agree on it.
-/

namespace Rolex

variable {e : Nat}

theorem leafMetadataSize_eq : leafMetadataSize = 9 := rfl

theorem groupSize_eq (e : Nat) : groupSize e = e * 8 := rfl

theorem groupBytes_eq (e : Nat) : groupBytes e = 9 + e * 8 := rfl

/-- The plain layout. -/
def plainFrame (e : Nat) (he : leafEntrySize ≤ e) : Frame where
  size := leafMetadataSize + e * leafSpanSize
  owner := headerOwner e
  owner_le := headerOwner_le
  owner_owner := headerOwner_headerOwner (Nat.lt_of_lt_of_le (by decide) he)
  owner_mono := headerOwner_mono
  le_size := by
    have h17 : 17 ≤ e := he
    have h16 : e * leafSpanSize = e * 16 := rfl
    rw [cachelineSize_eq, h16]
    omega

/-- The layout with replicated metadata. -/
def scatteredFrame (e : Nat) (he : leafEntrySize ≤ e) : Frame where
  size := LeafVersionManager.size e
  owner := scatteredOwner e
  owner_le := scatteredOwner_le
  owner_owner := scatteredOwner_scatteredOwner (Nat.lt_of_lt_of_le (by decide) he)
  owner_mono := scatteredOwner_mono
  le_size := by
    have h17 : 17 ≤ e := he
    have hsize : LeafVersionManager.size e = groupBytes e * 2 := rfl
    rw [cachelineSize_eq, hsize, groupBytes_eq]
    omega

namespace LeafVersionManager

theorem size_eq (e : Nat) : size e = groupBytes e * 2 := rfl

theorem firstOffset_eq (he : leafEntrySize ≤ e) : firstOffset e = 64 := by
  have h17 : 17 ≤ e := he
  unfold firstOffset
  rw [cachelineSize_eq, size_eq, groupBytes_eq]
  omega

theorem objVersion_eq (leaf : Buffer) (j : Nat)
    : objVersion e leaf j = .ofByte (leaf (scatteredOwner e j)) := by
  have hj := Nat.div_add_mod j (groupBytes e)
  unfold objVersion scatteredOwner headerOwner recordOffset groupOffset entryOwner
  dsimp only
  by_cases h : j % groupBytes e < leafMetadataSize
  . rw [if_pos (by omega), if_pos h, Nat.add_zero]
  . have hsub : j - (groupBytes e * (j / groupBytes e) + leafMetadataSize)
        = j % groupBytes e - leafMetadataSize := by omega
    rw [if_neg (by omega), if_neg h, hsub, Nat.add_assoc]

theorem segmentObjVersion_eq (metadataOffset : Nat) (segment : Buffer) (i : Nat)
    : segmentObjVersion e metadataOffset segment i
      = .ofByte (segment (segmentOwner e metadataOffset i)) := by
  unfold segmentObjVersion segmentOwner scatteredOwner headerOwner recordOffset groupOffset entryOwner
  dsimp only
  split
  . rfl
  . split
    . rw [Nat.add_zero]
    . simp only [Nat.add_assoc]

end LeafVersionManager

/-- A segment of a node, with its own view of which object a byte belongs to. -/
structure Frame.Segment (F : Frame) where
  start : Nat
  len : Nat
  owner : Nat → Nat
  owner_le : ∀ x, owner x ≤ x
  owner_eq : ∀ {x}, x < len → start + owner x = F.owner (start + x)
  bound : F.owner (start + len) = start + len ∨ start + len = F.size
  le_size : start + len ≤ F.size

/-- The entries `startIdx, ..., startIdx + num - 1` of the plain layout. -/
def plainSegment (he : leafEntrySize ≤ e) {startIdx num : Nat} (h : startIdx + num ≤ leafSpanSize)
    : (plainFrame e he).Segment where
  start := leafMetadataSize + e * startIdx
  len := e * num
  owner := entryOwner e
  owner_le := entryOwner_le
  owner_eq := by
    intro x _
    change _ = headerOwner e _
    rw [Nat.add_assoc, Nat.add_assoc, headerOwner_add, entryOwner_add (Nat.lt_of_lt_of_le (by decide) he)]
  bound := by
    left
    change headerOwner e _ = _
    have hzero : entryOwner e 0 = 0 := Nat.le_zero.mp (entryOwner_le 0)
    have hadd := entryOwner_add (Nat.lt_of_lt_of_le (by decide) he) (startIdx + num) 0
    rw [Nat.add_zero, hzero, Nat.add_zero] at hadd
    rw [Nat.add_assoc, ← Nat.mul_add, headerOwner_add, hadd]
  le_size := by
    change _ ≤ leafMetadataSize + e * leafSpanSize
    rw [Nat.add_assoc, ← Nat.mul_add]
    exact Nat.add_le_add_left (Nat.mul_le_mul_left e h) _

namespace LeafVersionManager

/-- The offset of entry `idx` of a node. -/
def entryOffset (e idx : Nat) : Nat := recordOffset e (idx / neighborSize) (idx % neighborSize)

variable {startIdx num : Nat}

theorem decodedOffset_group (e q : Nat) : decodedOffset e (8 * q) = groupBytes e * q := by
  have hmod : 8 * q % 8 = 0 := Nat.mul_mod_right 8 q
  have hdiv : 8 * q / 8 = q := Nat.mul_div_cancel_left q (by decide)
  unfold decodedOffset groupOffset
  rw [neighborSize_eq, if_neg (not_not.mpr hmod), hdiv]

theorem decodedOffset_record (e q : Nat) {r : Nat} (hr : 0 < r) (hr' : r < 8)
    : decodedOffset e (8 * q + r) = groupBytes e * q + 9 + e * r := by
  have hmod : (8 * q + r) % 8 = r := by omega
  have hdiv : (8 * q + r) / 8 = q := by omega
  unfold decodedOffset recordOffset groupOffset
  rw [neighborSize_eq, hmod, hdiv, if_pos (by omega), leafMetadataSize_eq]

theorem entryOffset_lt (e : Nat) {r : Nat} (hr : r < 8) : entryOffset e r = 9 + e * r := by
  unfold entryOffset recordOffset groupOffset
  rw [neighborSize_eq, Nat.div_eq_of_lt hr, Nat.mod_eq_of_lt hr, Nat.mul_zero, Nat.zero_add,
    leafMetadataSize_eq]

theorem entryOffset_add (e q j : Nat)
    : entryOffset e (8 * q + j) = groupBytes e * q + entryOffset e j := by
  have hmod : (8 * q + j) % 8 = j % 8 := by omega
  have hdiv : (8 * q + j) / 8 = q + j / 8 := by omega
  unfold entryOffset recordOffset groupOffset
  rw [neighborSize_eq, hmod, hdiv, Nat.mul_add]
  omega

/-- The number of entries from `startIdx` to the next group. -/
def toGroup (startIdx : Nat) : Nat := (neighborSize - startIdx % neighborSize) % neighborSize

theorem toGroup_lt (startIdx : Nat) : toGroup startIdx < 8 := Nat.mod_lt _ (by decide)

theorem add_toGroup (startIdx : Nat) : ∃ q, startIdx + toGroup startIdx = 8 * q := by
  refine ⟨(startIdx + toGroup startIdx) / 8, ?_⟩
  unfold toGroup
  rw [neighborSize_eq]
  omega

theorem decodedOffset_add_toGroup (e : Nat) {q : Nat} (hq : startIdx + toGroup startIdx = 8 * q)
    : decodedOffset e startIdx + e * toGroup startIdx = groupBytes e * q := by
  have hlt := toGroup_lt startIdx
  generalize toGroup startIdx = a at hq hlt
  rcases Nat.eq_zero_or_pos a with rfl | h
  . rw [Nat.add_zero] at hq
    rw [hq, decodedOffset_group, Nat.mul_zero, Nat.add_zero]
  . obtain ⟨q', rfl⟩ : ∃ q', q = q' + 1 := ⟨q - 1, by omega⟩
    obtain ⟨r, rfl⟩ : ∃ r, a = 8 - r := ⟨8 - a, by omega⟩
    obtain rfl : startIdx = 8 * q' + r := by omega
    have hsum : e * r + e * (8 - r) = e * 8 := by
      rw [← Nat.mul_add]
      congr 1
      omega
    have hg := groupBytes_eq e
    rw [decodedOffset_record e q' (by omega) (by omega), Nat.mul_succ]
    omega

theorem entryOffset_of_lt_toGroup (e : Nat) {j : Nat} (hj : j < toGroup startIdx)
    : entryOffset e (startIdx + j) = decodedOffset e startIdx + e * j := by
  obtain ⟨q, hq⟩ := add_toGroup startIdx
  have hlt := toGroup_lt startIdx
  generalize toGroup startIdx = a at hq hlt hj
  obtain ⟨r, rfl⟩ : ∃ r, startIdx = 8 * (q - 1) + r := ⟨startIdx - 8 * (q - 1), by omega⟩
  rw [decodedOffset_record e (q - 1) (by omega) (by omega), Nat.add_assoc, entryOffset_add,
    entryOffset_lt e (by omega), Nat.mul_add]
  omega

theorem entryOffset_of_toGroup_le (e : Nat) {j : Nat} (hj : toGroup startIdx ≤ j)
    : entryOffset e (startIdx + j)
      = decodedOffset e startIdx + e * toGroup startIdx + entryOffset e (j - toGroup startIdx) := by
  obtain ⟨q, hq⟩ := add_toGroup startIdx
  have hidx : startIdx + j = 8 * q + (j - toGroup startIdx) := by omega
  rw [hidx, entryOffset_add, decodedOffset_add_toGroup e hq]

theorem decodedOffset_le_size (e : Nat) {idx : Nat} (h : idx ≤ leafSpanSize)
    : decodedOffset e idx ≤ size e := by
  have hg := groupBytes_eq e
  rw [leafSpanSize_eq] at h
  obtain ⟨r, hidx, hr⟩ : ∃ r, idx = 8 * (idx / 8) + r ∧ r < 8 := ⟨idx % 8, by omega, by omega⟩
  have hq : idx / 8 = 0 ∨ idx / 8 = 1 ∨ idx / 8 = 2 ∧ r = 0 := by omega
  rw [size_eq, hidx]
  rcases Nat.eq_zero_or_pos r with rfl | hpos
  . rw [Nat.add_zero, decodedOffset_group]
    exact Nat.mul_le_mul_left _ (by omega)
  . rw [decodedOffset_record e _ hpos hr]
    have hmul := Nat.mul_le_mul_left e (show r ≤ 8 by omega)
    have hdiv := Nat.mul_le_mul_left (groupBytes e) (show idx / 8 ≤ 1 by omega)
    omega

theorem scatteredOwner_decodedOffset (he : 0 < e) (idx : Nat)
    : scatteredOwner e (decodedOffset e idx) = decodedOffset e idx := by
  obtain ⟨r, hidx, hr⟩ : ∃ r, idx = 8 * (idx / 8) + r ∧ r < 8 := ⟨idx % 8, by omega, by omega⟩
  have hg := groupBytes_eq e
  rw [hidx]
  rcases Nat.eq_zero_or_pos r with rfl | hpos
  . rw [Nat.add_zero, decodedOffset_group]
    have hadd := scatteredOwner_add (e := e) (idx / 8) 0
    rw [Nat.add_zero, Nat.le_zero.mp (scatteredOwner_le 0)] at hadd
    exact hadd
  . have hmul := Nat.mul_lt_mul_of_pos_left hr he
    have hentry := entryOwner_add he r 0
    rw [Nat.add_zero, Nat.le_zero.mp (entryOwner_le 0), Nat.add_zero] at hentry
    rw [decodedOffset_record e _ hpos hr, Nat.add_assoc, scatteredOwner_add,
      scatteredOwner_of_lt (by omega), ← leafMetadataSize_eq, headerOwner_add, hentry]

theorem firstMetadataOffset_eq (e startIdx num : Nat)
    : (MetadataManager.getOffsetInfo e startIdx num).1 = e * min (toGroup startIdx) num := by
  have hcomm : toGroup startIdx * e = e * toGroup startIdx := Nat.mul_comm _ _
  change min (toGroup startIdx * e) (e * num) = _
  rw [hcomm, Nat.mul_min_mul_left]

theorem ceil_groups (he : 0 < e) (m : Nat)
    : e * m / groupSize e + (if e * m % groupSize e = 0 then 0 else 1) = (m + 7) / 8 := by
  rw [groupSize_eq, Nat.mul_div_mul_left _ _ he, Nat.mul_mod_mul_left]
  have hiff : e * (m % 8) = 0 ↔ m % 8 = 0 := by
    rw [Nat.mul_eq_zero]
    omega
  by_cases h : m % 8 = 0
  . rw [if_pos (hiff.mpr h)]
    omega
  . rw [if_neg (fun hz => h (hiff.mp hz))]
    omega

theorem decodedOffset_group_add (e q m : Nat)
    : decodedOffset e (8 * q + m) = groupBytes e * q + (e * m + 9 * ((m + 7) / 8)) := by
  obtain ⟨u, r, rfl, hr⟩ : ∃ u r, m = 8 * u + r ∧ r < 8 := ⟨m / 8, m % 8, by omega, by omega⟩
  have hidx : 8 * q + (8 * u + r) = 8 * (q + u) + r := by omega
  have hmul : e * (8 * u + r) = e * 8 * u + e * r := by rw [Nat.mul_add, Nat.mul_assoc]
  have hgu : groupBytes e * u = 9 * u + e * 8 * u := by rw [groupBytes_eq, Nat.add_mul]
  rw [hidx, hmul]
  rcases Nat.eq_zero_or_pos r with rfl | hpos
  . rw [Nat.add_zero, decodedOffset_group, Nat.mul_add]
    omega
  . rw [decodedOffset_record e _ hpos hr, Nat.mul_add]
    omega

theorem newLen_eq (he : 0 < e) (startIdx num : Nat)
    : (MetadataManager.getOffsetInfo e startIdx num).2
      = decodedOffset e (startIdx + num) - decodedOffset e startIdx := by
  have hfirst := firstMetadataOffset_eq e startIdx num
  obtain ⟨q, hq⟩ := add_toGroup startIdx
  have hgroup := decodedOffset_add_toGroup e hq
  have hlen : (MetadataManager.getOffsetInfo e startIdx num).2
      = e * num + 9 * ((num - min (toGroup startIdx) num + 7) / 8) := by
    unfold MetadataManager.getOffsetInfo at hfirst ⊢
    dsimp only at hfirst ⊢
    rw [hfirst, ← Nat.mul_sub, ceil_groups he, leafMetadataSize_eq]
  rw [hlen]
  by_cases h : num < toGroup startIdx
  . -- the segment ends before the next group
    rcases Nat.eq_zero_or_pos num with rfl | hpos
    . simp
    . have hlt := toGroup_lt startIdx
      have hend : decodedOffset e (startIdx + num) = decodedOffset e startIdx + e * num := by
        obtain ⟨r, rfl⟩ : ∃ r, startIdx = 8 * (q - 1) + r := ⟨startIdx - 8 * (q - 1), by omega⟩
        rw [decodedOffset_record e (q - 1) (by omega) (by omega), Nat.add_assoc,
          decodedOffset_record e (q - 1) (by omega) (by omega), Nat.mul_add]
        omega
      rw [hend, Nat.min_eq_right (by omega), Nat.sub_self]
      omega
  . have hidx : startIdx + num = 8 * q + (num - toGroup startIdx) := by omega
    have hmul : e * num = e * toGroup startIdx + e * (num - toGroup startIdx) := by
      rw [← Nat.mul_add]
      congr 1
      omega
    rw [hidx, decodedOffset_group_add, Nat.min_eq_left (by omega)]
    omega

theorem decodedOffset_mono (e startIdx num : Nat)
    : decodedOffset e startIdx ≤ decodedOffset e (startIdx + num) := by
  obtain ⟨q, hq⟩ := add_toGroup startIdx
  have hlt := toGroup_lt startIdx
  have hgroup := decodedOffset_add_toGroup e hq
  by_cases h : num < toGroup startIdx
  . obtain ⟨r, rfl⟩ : ∃ r, startIdx = 8 * (q - 1) + r := ⟨startIdx - 8 * (q - 1), by omega⟩
    rw [decodedOffset_record e (q - 1) (by omega) (by omega), Nat.add_assoc (8 * (q - 1)),
      decodedOffset_record e (q - 1) (by omega) (by omega), Nat.mul_add]
    omega
  . have hidx : startIdx + num = 8 * q + (num - toGroup startIdx) := by omega
    rw [hidx, decodedOffset_group_add]
    omega

theorem owner_segment (he : 0 < e) {x : Nat}
    (hx : x < decodedOffset e (startIdx + num) - decodedOffset e startIdx)
    : decodedOffset e startIdx
        + segmentOwner e (MetadataManager.getOffsetInfo e startIdx num).1 x
      = scatteredOwner e (decodedOffset e startIdx + x) := by
  obtain ⟨q, hq⟩ := add_toGroup startIdx
  have hlt := toGroup_lt startIdx
  have hgroup := decodedOffset_add_toGroup e hq
  have hg := groupBytes_eq e
  rw [firstMetadataOffset_eq]
  unfold segmentOwner
  split
  . next hlow =>
    have hmin := Nat.mul_le_mul_left e (Nat.min_le_left (toGroup startIdx) num)
    rcases Nat.eq_zero_or_pos (toGroup startIdx) with hz | hpos
    . rw [hz] at hlow
      simp at hlow
    . obtain ⟨r, hr⟩ : ∃ r, startIdx = 8 * (q - 1) + r := ⟨startIdx - 8 * (q - 1), by omega⟩
      have hsum : e * r + e * toGroup startIdx = e * 8 := by
        rw [← Nat.mul_add]
        congr 1
        omega
      have hd : decodedOffset e startIdx = groupBytes e * (q - 1) + (9 + e * r) := by
        rw [hr, decodedOffset_record e (q - 1) (by omega) (by omega), Nat.add_assoc]
      have hdx : decodedOffset e startIdx + x = groupBytes e * (q - 1) + (9 + (e * r + x)) := by omega
      rw [hdx, scatteredOwner_add, scatteredOwner_of_lt (by omega), ← leafMetadataSize_eq,
        headerOwner_add, entryOwner_add he, hd, leafMetadataSize_eq]
      omega
  . next hhigh =>
    by_cases hnum : toGroup startIdx < num
    . rw [Nat.min_eq_left (by omega)] at hhigh ⊢
      have hdx : decodedOffset e startIdx + x
          = groupBytes e * q + (x - e * toGroup startIdx) := by omega
      rw [hdx, scatteredOwner_add]
      omega
    . -- then the segment ends before or with the group, and has no such byte
      exfalso
      rw [Nat.min_eq_right (by omega)] at hhigh
      have hlen := newLen_eq he startIdx num
      unfold MetadataManager.getOffsetInfo at hlen
      have hfirst := firstMetadataOffset_eq e startIdx num
      unfold MetadataManager.getOffsetInfo at hfirst
      dsimp only at hlen hfirst
      rw [hfirst, Nat.min_eq_right (by omega), Nat.sub_self, Nat.zero_mod, Nat.zero_div, if_pos rfl] at hlen
      omega

theorem entryOffset_eq_segmentOffset (he : 0 < e) (startIdx : Nat) {j : Nat} (hj : j < num)
    : entryOffset e (startIdx + j)
      = decodedOffset e startIdx
        + segmentOffset e (MetadataManager.getOffsetInfo e startIdx num).1 j := by
  rw [firstMetadataOffset_eq]
  unfold segmentOffset
  dsimp only
  rw [Nat.mul_div_cancel_left _ he]
  by_cases h : j < toGroup startIdx
  . rw [if_pos (by omega), entryOffset_of_lt_toGroup e h]
  . rw [if_neg (by omega), entryOffset_of_toGroup_le e (by omega), Nat.min_eq_left (by omega)]
    rw [Nat.add_assoc]
    rfl

end LeafVersionManager

/-- The entries `startIdx, ..., startIdx + num - 1` of the layout with replicated metadata. -/
def scatteredSegment (he : leafEntrySize ≤ e) {startIdx num : Nat} (h : startIdx + num ≤ leafSpanSize)
    : (scatteredFrame e he).Segment where
  start := LeafVersionManager.decodedOffset e startIdx
  len := LeafVersionManager.decodedOffset e (startIdx + num) - LeafVersionManager.decodedOffset e startIdx
  owner := segmentOwner e (MetadataManager.getOffsetInfo e startIdx num).1
  owner_le := segmentOwner_le _
  owner_eq := LeafVersionManager.owner_segment (Nat.lt_of_lt_of_le (by decide) he)
  bound := by
    have he' : 0 < e := Nat.lt_of_lt_of_le (by decide) he
    left
    change scatteredOwner e _ = _
    rw [Nat.add_sub_cancel' (LeafVersionManager.decodedOffset_mono e startIdx num),
      LeafVersionManager.scatteredOwner_decodedOffset he']
  le_size := by
    have he' : 0 < e := Nat.lt_of_lt_of_le (by decide) he
    rw [Nat.add_sub_cancel' (LeafVersionManager.decodedOffset_mono e startIdx num)]
    exact LeafVersionManager.decodedOffset_le_size e h

end Rolex

import Rolex.Version.Partial

/-!
This module contains the WRITEs of segments and entries of a node (`segment_write_and_unlock` and
`entry_write_and_unlock`) and how they agree with WRITEs of the whole node.
-/

namespace Rolex

section Increment

variable {offset : Nat → Nat} {lIdx rIdx : Nat} {hoppedIdxes : List Nat} {input : Buffer}

/-- `++ entry_version`, `n` times. -/
def PackedVersion.bumpEntry (p : PackedVersion) (n : Nat) : PackedVersion :=
  { p with entryVersion := p.entryVersion + BitVec.ofNat 4 n }

theorem PackedVersion.bumpEntry_zero (p : PackedVersion) : p.bumpEntry 0 = p := by
  unfold bumpEntry
  rw [show BitVec.ofNat 4 0 = 0#4 from rfl, BitVec.add_zero]

theorem PackedVersion.bumpEntry_bumpEntry (p : PackedVersion) (m n : Nat)
    : (p.bumpEntry m).bumpEntry n = p.bumpEntry (m + n) := by
  unfold bumpEntry
  rw [BitVec.ofNat_add, ← BitVec.add_assoc]

theorem incrementEntryVersion_self (x : Nat)
    : incrementEntryVersion input x x = ((PackedVersion.ofByte (input x)).bumpEntry 1).toByte := by
  unfold incrementEntryVersion
  rw [Function.update_self]
  rfl

theorem incrementEntryVersion_of_ne {x y : Nat} (h : y ≠ x) : incrementEntryVersion input x y = input y :=
  Function.update_of_ne h _ _

theorem incrementHopped_of_ne {x : Nat} (hx : ∀ j, j ≤ rIdx - lIdx → x ≠ offset j)
    : incrementHopped offset hoppedIdxes lIdx rIdx input x = input x := by
  unfold incrementHopped
  induction hoppedIdxes generalizing input with
  | nil => rfl
  | cons idx hoppedIdxes ih =>
    rw [List.foldl_cons, ih]
    split
    . exact incrementEntryVersion_of_ne (hx _ (by omega))
    . rfl

theorem incrementHopped_offset {j : Nat} (hle : lIdx ≤ rIdx) (hj : j ≤ rIdx - lIdx)
    (hinj : ∀ j', j' ≤ rIdx - lIdx → offset j' = offset j → j' = j)
    : incrementHopped offset hoppedIdxes lIdx rIdx input (offset j)
      = ((PackedVersion.ofByte (input (offset j))).bumpEntry (hoppedIdxes.count (lIdx + j))).toByte := by
  unfold incrementHopped
  induction hoppedIdxes generalizing input with
  | nil =>
    rw [List.count_nil, PackedVersion.bumpEntry_zero, PackedVersion.toByte_ofByte]
    rfl
  | cons idx hoppedIdxes ih =>
    rw [List.foldl_cons, ih, List.count_cons]
    by_cases h : idx = lIdx + j
    . have hsub : idx - lIdx = j := by omega
      rw [if_pos (by omega), hsub, incrementEntryVersion_self, PackedVersion.ofByte_toByte,
        if_pos (beq_iff_eq.mpr h), PackedVersion.bumpEntry_bumpEntry, Nat.add_comm]
    . rw [if_neg (show ¬ (idx == lIdx + j) = true from fun hb => h (beq_iff_eq.mp hb)), Nat.add_zero]
      congr 3
      split
      . next hin =>
        apply incrementEntryVersion_of_ne
        intro heq
        have := hinj (idx - lIdx) (by omega) heq.symm
        omega
      . rfl

theorem incrementHopped_congr {len : Nat} {input' : Buffer} (h : ∀ x, x < len → input x = input' x) {x : Nat}
    (hx : x < len)
    : incrementHopped offset hoppedIdxes lIdx rIdx input x
      = incrementHopped offset hoppedIdxes lIdx rIdx input' x := by
  unfold incrementHopped
  induction hoppedIdxes generalizing input input' with
  | nil => exact h x hx
  | cons idx hoppedIdxes ih =>
    rw [List.foldl_cons, List.foldl_cons]
    apply ih
    intro y hy
    split
    . unfold incrementEntryVersion
      by_cases heq : y = offset (idx - lIdx)
      . subst heq
        rw [Function.update_self, Function.update_self, h _ hy]
      . rw [Function.update_of_ne heq, Function.update_of_ne heq, h y hy]
    . exact h y hy

end Increment

variable {E : Type} [EntryType E] {repl : Bool}

open EntryType LeafVersionManager

theorem recordOffset_strictMono (repl : Bool) (E : Type) [EntryType E] : StrictMono (recordOffset repl E) := by
  apply strictMono_nat_of_lt_succ
  intro i
  have hadd := recordOffset_add_size repl E i
  have hle := segmentStart_le_recordOffset repl E (i + 1)
  have hpos := size_pos (E := E)
  omega

theorem recordOffset_add_ne {i i' t : Nat} (hpos : 0 < t) (ht : t < size E)
    : recordOffset repl E i + t ≠ recordOffset repl E i' := by
  intro h
  have howner : (nodeFrame repl E).owner (recordOffset repl E i + t) = recordOffset repl E i :=
    owner_record i ht
  rw [h, owner_recordOffset] at howner
  omega

theorem metadataOffset_true (E : Type) [EntryType E] (g : Nat)
    : metadataOffset true E g = segmentStart true E (8 * g) := (decodedOffset_group (size E) g).symm

theorem metadataOffset_add_ne {g i t : Nat} (ht : t < leafMetadataSize)
    : metadataOffset repl E g + t ≠ recordOffset repl E i := by
  intro h
  rw [leafMetadataSize_eq] at ht
  cases repl with
  | true =>
    have hrec : recordOffset true E i = groupBytes (size E) * (i / 8) + (9 + size E * (i % 8)) := by
      rw [← Nat.add_assoc]
      rfl
    change groupBytes (size E) * g + t = _ at h
    rw [hrec] at h
    have hg := groupBytes_eq (size E)
    have hmul := Nat.mul_lt_mul_of_pos_left (show i % 8 < 8 by omega) (size_pos (E := E))
    have hl : (groupBytes (size E) * g + t) % groupBytes (size E) = t := by
      rw [Nat.mul_add_mod, Nat.mod_eq_of_lt (by omega)]
    rw [h, Nat.mul_add_mod, Nat.mod_eq_of_lt (by omega)] at hl
    omega
  | false =>
    change 0 + t = 9 + size E * i at h
    omega

/-- The bytes of a segment with this metadata and these records. -/
structure HoldsSegment (repl : Bool) (start num : Nat) (seg : Buffer) (m : LeafMetadata)
    (rs : Vector E leafSpanSize) : Prop where
  record : ∀ {j t x} (hj : start + j < leafSpanSize), j < num → t < size E →
    segmentStart repl E start + x = recordOffset repl E (start + j) + t → seg x = byte rs[start + j] t
  metadata : ∀ {g t x}, g < metadataNum repl → t < leafMetadataSize →
    segmentStart repl E start ≤ metadataOffset repl E g →
    metadataOffset repl E g < segmentStart repl E (start + num) →
    segmentStart repl E start + x = metadataOffset repl E g + t → seg x = m.byte t

variable {start num : Nat} {seg : Buffer} {m : LeafMetadata} {rs rs' : Vector E leafSpanSize}

theorem holdsSegment_recordBytes : HoldsSegment false start num (recordBytes rs start) m rs where
  record := by
    intro j t x hj _ ht hx
    rw [← Node.segmentStart_false_add] at hx
    obtain rfl : x = size E * j + t := by omega
    exact recordBytes_apply rs start hj ht
  metadata := by
    intro g t x _ _ hle _ _
    change 9 + size E * start ≤ 0 at hle
    omega

theorem holdsSegment_of_scattered
    (h : Scattered (size E) (min (toGroup start) num) num (fun _ => m) (recordBytes rs start) seg)
    : HoldsSegment true start num seg m rs where
  record := by
    intro j t x hj hnum ht hx
    rw [← Node.segmentStart_true_add hnum] at hx
    obtain rfl : x = segmentOffset (size E) (size E * min (toGroup start) num) j + t := by omega
    rw [h.record hnum ht, recordBytes_apply rs start hj ht]
  metadata := by
    intro g t x _ ht hle hlt hx
    obtain ⟨q, hq⟩ := add_toGroup start
    have hgroup := toGroup_lt start
    rw [metadataOffset_true] at hle hlt
    have hle' := (segmentStart_strictMono true E).le_iff_le.mp hle
    have hlt' := (segmentStart_strictMono true E).lt_iff_lt.mp hlt
    have hb : min (toGroup start) num + 8 * (g - q) < num := by omega
    obtain ⟨hpos, -⟩ := Node.segmentStart_true_group (E := E) hq hb
    have hg : q + (g - q) = g := by omega
    rw [hg] at hpos
    obtain rfl : x = size E * min (toGroup start) num + groupBytes (size E) * (g - q) + t := by omega
    exact h.metadata hb ht

/-- Increment the entry version, `n` times. -/
def EntryType.bumpEntryVersion (e : E) (n : Nat) : E := setVersion e ((hVersion e).bumpEntry n)

theorem byte_bumpEntryVersion (e : E) (n : Nat) {t : Nat} (ht : 0 < t)
    : byte (bumpEntryVersion e n) t = byte e t := byte_setVersion e _ t ht

theorem HoldsSegment.incrementHopped {lIdx rIdx : Nat} {offset : Nat → Nat} (hoppedIdxes : List Nat)
    (h : HoldsSegment repl lIdx (rIdx - lIdx + 1) seg m rs) (hle : lIdx ≤ rIdx)
    (hoffset : ∀ j, j ≤ rIdx - lIdx → segmentStart repl E lIdx + offset j = recordOffset repl E (lIdx + j))
    : HoldsSegment repl lIdx (rIdx - lIdx + 1) (incrementHopped offset hoppedIdxes lIdx rIdx seg) m
        (Vector.ofFn fun i => bumpEntryVersion rs[i] (hoppedIdxes.count i.val)) where
  record := by
    intro j t x hj hnum ht hx
    rw [Vector.getElem_ofFn]
    have hseg := h.record hj hnum ht hx
    rcases Nat.eq_zero_or_pos t with rfl | hpos
    . have hoff := hoffset j (by omega)
      obtain rfl : x = offset j := by omega
      rw [incrementHopped_offset hle (by omega), hseg, byte_zero, PackedVersion.ofByte_toByte, byte_zero]
      . unfold bumpEntryVersion
        rw [hVersion_setVersion]
        rfl
      . intro j' hj' heq
        have hoff' := hoffset j' hj'
        rw [heq, hoff] at hoff'
        have := (recordOffset_strictMono repl E).injective hoff'
        omega
    . rw [byte_bumpEntryVersion _ _ hpos, incrementHopped_of_ne]
      . exact hseg
      . intro j' hj' heq
        have hoff' := hoffset j' hj'
        have hne : recordOffset repl E (lIdx + j) + t ≠ recordOffset repl E (lIdx + j') :=
          recordOffset_add_ne hpos ht
        omega
  metadata := by
    intro g t x hg ht hstart hend hx
    rw [incrementHopped_of_ne]
    . exact h.metadata hg ht hstart hend hx
    . intro j' hj' heq
      have hoff' := hoffset j' hj'
      have hne : metadataOffset repl E g + t ≠ recordOffset repl E (lIdx + j') := metadataOffset_add_ne ht
      omega

/-- The records of a segment replaced. -/
def replaceRecords (start num : Nat) (rs rs' : Vector E leafSpanSize) : Vector E leafSpanSize :=
  Vector.ofFn fun i => if start ≤ i.val ∧ i.val < start + num then rs'[i] else rs[i]

omit [EntryType E] in
theorem getElem_replaceRecords {i : Nat} (hi : i < leafSpanSize)
    : (replaceRecords start num rs rs')[i] = if start ≤ i ∧ i < start + num then rs'[i] else rs[i] := by
  unfold replaceRecords
  rw [Vector.getElem_ofFn]
  rfl

section

variable (repl start num)

theorem metadata_segment_iff {g t : Nat} (ht : t < leafMetadataSize)
    : (segmentStart repl E start ≤ metadataOffset repl E g + t
        ∧ metadataOffset repl E g + t < segmentStart repl E (start + num))
      ↔ segmentStart repl E start ≤ metadataOffset repl E g
        ∧ metadataOffset repl E g < segmentStart repl E (start + num) := by
  cases repl with
  | true =>
    have hlt : ∀ i, 8 * g < i → metadataOffset true E g + t < segmentStart true E i :=
      fun i hi => Node.metadata_lt_segmentStart hi ht
    rw [metadataOffset_true] at hlt ⊢
    constructor
    . rintro ⟨hs, he⟩
      refine ⟨?_, by omega⟩
      apply (segmentStart_strictMono true E).monotone
      by_contra h
      have := hlt start (by omega)
      omega
    . rintro ⟨hs, he⟩
      exact ⟨by omega, hlt _ ((segmentStart_strictMono true E).lt_iff_lt.mp he)⟩
  | false =>
    rw [leafMetadataSize_eq] at ht
    change (9 + size E * start ≤ 0 + t ∧ _) ↔ 9 + size E * start ≤ 0 ∧ _
    omega

theorem record_segment_iff {i t : Nat} (ht : t < size E)
    : (segmentStart repl E start ≤ recordOffset repl E i + t
        ∧ recordOffset repl E i + t < segmentStart repl E (start + num))
      ↔ start ≤ i ∧ i < start + num := by
  have hle := segmentStart_le_recordOffset repl E i
  have hadd := recordOffset_add_size repl E i
  have hmono := (segmentStart_strictMono repl E).monotone
  constructor
  . rintro ⟨h, h'⟩
    constructor
    . by_contra hlt
      have := hmono (show i + 1 ≤ start by omega)
      omega
    . by_contra hge
      have := hmono (show start + num ≤ i by omega)
      omega
  . rintro ⟨h, h'⟩
    have hs := hmono h
    have he := hmono (show i + 1 ≤ start + num by omega)
    omega

end

/-- The copies of the metadata with those of a segment replaced. -/
def replaceMetadata (repl : Bool) (E : Type) [EntryType E] (start num : Nat) (metas : Nat → LeafMetadata)
    (m : LeafMetadata) : Nat → LeafMetadata :=
  fun g =>
    if segmentStart repl E start ≤ metadataOffset repl E g
        ∧ metadataOffset repl E g < segmentStart repl E (start + num) then
      m
    else
      metas g

theorem replaceMetadata_eq_or (repl : Bool) (E : Type) [EntryType E] (start num : Nat)
    (metas : Nat → LeafMetadata) (m : LeafMetadata) (g : Nat)
    : replaceMetadata repl E start num metas m g = m ∨ replaceMetadata repl E start num metas m g = metas g := by
  unfold replaceMetadata
  split
  . exact .inl rfl
  . exact .inr rfl

theorem Holds.splice {buf : Buffer} {metas : Nat → LeafMetadata} (h : Holds repl buf metas rs)
    (hseg : HoldsSegment repl start num seg m rs')
    : Holds repl
        (memcpy buf (segmentStart repl E start) seg 0
          (segmentStart repl E (start + num) - segmentStart repl E start))
        (replaceMetadata repl E start num metas m) (replaceRecords start num rs rs') := by
  have hmono := (segmentStart_strictMono repl E).monotone (Nat.le_add_right start num)
  have hend : segmentStart repl E start + (segmentStart repl E (start + num) - segmentStart repl E start)
      = segmentStart repl E (start + num) := by omega
  unfold memcpy
  rw [hend]
  constructor
  . intro g t hg ht
    unfold replaceMetadata
    simp only [metadata_segment_iff repl start num ht]
    split
    . next hin =>
      rw [Nat.zero_add]
      exact hseg.metadata hg ht hin.1 hin.2 (by omega)
    . exact h.metadata hg ht
  . intro i t hi ht
    rw [getElem_replaceRecords hi]
    simp only [record_segment_iff repl start num ht]
    split
    . next hin =>
      have hbounds := (record_segment_iff repl start num ht).mpr hin
      obtain ⟨j, rfl⟩ : ∃ j, i = start + j := ⟨i - start, by omega⟩
      rw [Nat.zero_add]
      exact hseg.record hi (by omega) ht (by omega)
    . exact h.record hi ht

namespace Node

variable {n : Node E} {img img' buf : Buffer} {metas : Nat → LeafMetadata}

theorem IsEncoded.write (h : IsEncoded repl n img buf metas) (hlen : start + num ≤ leafSpanSize)
    {records : Buffer} {mark : Nat → Nat → BitVec 8}
    (hseg : HoldsSegment repl start num records n.metadata rs')
    (hwoven : Weave.Woven 1 63 (getOffsetInfo repl E start num).2.2
      (segmentStart repl E (start + num) - segmentStart repl E start) mark records seg)
    (hmark : ∀ i, i < segmentStart repl E (start + num) - segmentStart repl E start →
      mark i 0 = records ((nodeSegment repl E hlen).owner i))
    (hversion : ∀ i (hi : i < leafSpanSize), start ≤ i → i < start + num →
      nodeVersion rs'[i] = nodeVersion n.records[i])
    (himg : ∀ y, y < transLeafSize repl E →
      img' y = memcpy img (getOffsetInfo repl E start num).1 seg 0 (getOffsetInfo repl E start num).2.1 y)
    : ∃ buf', IsEncoded repl ⟨n.metadata, replaceRecords start num n.records rs'⟩ img' buf'
        (replaceMetadata repl E start num metas n.metadata) := by
  have hholds := h.holds.splice hseg
  have hmono := (segmentStart_strictMono repl E).monotone (Nat.le_add_right start num)
  obtain ⟨len, hlen'⟩ : ∃ len, segmentStart repl E (start + num) = segmentStart repl E start + len :=
    ⟨_, (Nat.add_sub_cancel' hmono).symm⟩
  have hsub : segmentStart repl E start + len - segmentStart repl E start = len := Nat.add_sub_cancel_left _ _
  have hsegment := nodeSegment_start repl E hlen
  have hsegment' := nodeSegment_end repl E hlen
  rw [getOffsetInfo_eq] at hwoven himg
  dsimp only at hwoven himg
  rw [hlen', hsub] at hwoven hmark hholds
  rw [hlen'] at himg
  have hinside : ∀ x, x < len →
      memcpy buf (segmentStart repl E start) records 0 len (segmentStart repl E start + x) = records x := by
    intro x hx
    unfold memcpy
    rw [if_pos (by omega), Nat.zero_add, Nat.add_sub_cancel_left]
  have hbound : (nodeFrame repl E).Bound (segmentStart repl E start + len) := by
    have hb := (nodeSegment repl E hlen).bound
    rw [hsegment', hlen'] at hb
    exact hb
  have hmetadata := replaceMetadata_eq_or repl E start num metas n.metadata
  have hzero : replaceMetadata repl E start num metas n.metadata 0 = n.metadata := by
    rcases hmetadata 0 with heq | heq
    . exact heq
    . rw [heq, h.metadata]
  have huniform := h.holds.uniform_iff.mp h.uniform
  rw [h.metadata] at huniform
  refine ⟨_, ?_, hholds.uniform_iff.mpr ⟨?_, ?_⟩, hholds, hzero, ?_⟩
  . intro y hy
    rw [himg y (by rw [transLeafSize_eq]; exact hy)]
    apply Frame.image_write hbound h.image _ hwoven _ (fun x hx => (hinside x hx).symm) hy
    . intro x _ hx
      unfold memcpy
      rw [if_neg (by omega)]
    . intro i hi
      have hle := (nodeSegment repl E hlen).owner_le i
      have howner := (nodeSegment repl E hlen).owner_eq (show i < (nodeSegment repl E hlen).len by omega)
      rw [hsegment] at howner
      rw [hmark i hi, ← howner, hinside _ (by omega)]
  . intro g hg
    rw [hzero]
    rcases hmetadata g with heq | heq
    . rw [heq]
    . rw [heq]
      exact huniform.1 g hg
  . intro i hi
    rw [hzero, getElem_replaceRecords hi]
    split
    . next hin =>
      rw [hversion i hi hin.1 hin.2]
      exact huniform.2 i hi
    . exact huniform.2 i hi
  . intro g hg
    rw [hzero]
    rcases hmetadata g with heq | heq
    . rw [heq]
      exact strncmpEq_refl _ _
    . have hsame := h.same g hg
      rw [h.metadata] at hsame
      rw [heq]
      exact hsame

end Node

/-- A WRITE of the first `size` bytes of `source` to a node, from `offset` on. -/
structure RdmaOpRegion where
  node : GlobalAddress
  offset : Nat
  size : Nat
  source : Buffer

/-- The bytes of the nodes in remote memory. -/
abbrev NodeMemory := GlobalAddress → Buffer

def NodeMemory.write (mem : NodeMemory) (r : RdmaOpRegion) : NodeMemory :=
  Function.update mem r.node (memcpy (mem r.node) r.offset r.source 0 r.size)

namespace Node

/-- The encoders of `segment_write_and_unlock` for a segment that does not wrap around. -/
def encodeSegment (repl : Bool) (n : Node E) (lIdx rIdx : Nat) (hoppedIdxes : List Nat)
    (intermediate output : Buffer) : Buffer :=
  let firstOffset := (getOffsetInfo repl E lIdx (rIdx - lIdx + 1)).2.2
  if repl then
    -- `[first_metadata_offset, new_len]`
    let info := MetadataManager.getOffsetInfo (size E) lIdx (rIdx - lIdx + 1)
    LeafVersionManager.encodeSegmentVersions (size E)
      (MetadataManager.encodeSegmentMetadata (size E) (recordBytes n.records lIdx) intermediate info.1
        (rIdx - lIdx + 1) n.metadata)
      output firstOffset hoppedIdxes lIdx rIdx info.1 info.2
  else
    VersionManager.encodeSegmentVersions (size E) (recordBytes n.records lIdx) output firstOffset hoppedIdxes
      lIdx rIdx

/-- The encoders of `entry_write_and_unlock`. -/
def encodeEntry (repl : Bool) (n : Node E) (idx : Nat) (intermediate output : Buffer) : Buffer :=
  if repl then
    encodeSegment repl n idx idx [idx] intermediate output
  else
    VersionManager.encodeEntryVersions (size E) (recordBytes n.records idx) output
      (getOffsetInfo repl E idx 1).2.2

variable (E) in
/-- The WRITE of an encoded segment, with the lock word behind it if it is unlocked in the same WRITE. -/
def segmentRegion (repl : Bool) (nodeAddr : GlobalAddress) (start num : Nat) (encoded : Buffer)
    (lock : Option (BitVec 64)) : RdmaOpRegion :=
  -- `[raw_offset, raw_len, first_offset]`
  let info := getOffsetInfo repl E start num
  match lock with
  | none => ⟨nodeAddr, info.1, info.2.1, encoded⟩
  | some lock => ⟨nodeAddr, info.1, info.2.1 + allocationLockSize,
      memcpy encoded (info.2.1 + lockOffset repl E - transLeafSize repl E) (wordByte lock) 0 8⟩

variable (E) in
/-- The WRITE of the lock word alone. -/
def lockRegion (repl : Bool) (nodeAddr : GlobalAddress) (lock : BitVec 64) : RdmaOpRegion :=
  ⟨nodeAddr, lockOffset repl E, 8, wordByte lock⟩

/--
The WRITEs of `segment_write_and_unlock`, where `bufs` are the contents of the buffers before, and `lock`
is the word to unlock with, if `need_unlock`.
-/
def segmentWriteAndUnlock (repl : Bool) (n : Node E) (lIdx rIdx : Nat) (hoppedIdxes : List Nat)
    (nodeAddr : GlobalAddress) (lock : Option (BitVec 64)) (bufs : Nat → Buffer) : List RdmaOpRegion :=
  if lIdx ≤ rIdx then
    let encoded := encodeSegment repl n lIdx rIdx hoppedIdxes (bufs 0) (bufs 1)
    match lock with
    | none => [segmentRegion E repl nodeAddr lIdx (rIdx - lIdx + 1) encoded none]
    | some lock =>
      if rIdx = leafSpanSize - 1 then
        [segmentRegion E repl nodeAddr lIdx (rIdx - lIdx + 1) encoded (some lock)]
      else
        [segmentRegion E repl nodeAddr lIdx (rIdx - lIdx + 1) encoded none, lockRegion E repl nodeAddr lock]
  else
    [segmentRegion E repl nodeAddr 0 (rIdx + 1)
        (encodeSegment repl n 0 rIdx hoppedIdxes (bufs 0) (bufs 1)) none,
      segmentRegion E repl nodeAddr lIdx (leafSpanSize - lIdx)
        (encodeSegment repl n lIdx (leafSpanSize - 1) hoppedIdxes (bufs 2) (bufs 3)) lock]

/-- The WRITEs of `entry_write_and_unlock`. -/
def entryWriteAndUnlock (repl : Bool) (n : Node E) (idx : Nat) (nodeAddr lockedLeafAddr : GlobalAddress)
    (lock : BitVec 64) (bufs : Nat → Buffer) : List RdmaOpRegion :=
  let encoded := encodeEntry repl n idx (bufs 0) (bufs 1)
  if idx = leafSpanSize - 1 ∧ nodeAddr = lockedLeafAddr then
    [segmentRegion E repl nodeAddr idx 1 encoded (some lock)]
  else
    [segmentRegion E repl nodeAddr idx 1 encoded none, lockRegion E repl lockedLeafAddr lock]

/-- The records with the entry versions of the hopped ones incremented. -/
def bumpHopped (rs : Vector E leafSpanSize) (hoppedIdxes : List Nat) : Vector E leafSpanSize :=
  Vector.ofFn fun i => bumpEntryVersion rs[i] (hoppedIdxes.count i.val)

theorem getElem_bumpHopped (rs : Vector E leafSpanSize) (hoppedIdxes : List Nat) {i : Nat}
    (hi : i < leafSpanSize)
    : (bumpHopped rs hoppedIdxes)[i] = bumpEntryVersion rs[i] (hoppedIdxes.count i) := by
  unfold bumpHopped
  rw [Vector.getElem_ofFn]
  rfl

theorem nodeVersion_bumpEntryVersion (e : E) (k : Nat) : nodeVersion (bumpEntryVersion e k) = nodeVersion e := by
  unfold nodeVersion bumpEntryVersion
  rw [hVersion_setVersion]
  rfl

/-- An encoded segment: the records `rs` woven with the versions of the objects of the segment. -/
def IsSegment (repl : Bool) (m : LeafMetadata) (rs : Vector E leafSpanSize) {start num : Nat}
    (hlen : start + num ≤ leafSpanSize) (seg : Buffer) : Prop :=
  ∃ records mark, HoldsSegment repl start num records m rs
    ∧ Weave.Woven 1 63 (getOffsetInfo repl E start num).2.2
        (segmentStart repl E (start + num) - segmentStart repl E start) mark records seg
    ∧ ∀ i, i < segmentStart repl E (start + num) - segmentStart repl E start →
        mark i 0 = records ((nodeSegment repl E hlen).owner i)

theorem isSegment_generateVersions {hlen : start + num ≤ leafSpanSize} {records output : Buffer}
    (h : HoldsSegment repl start num records m rs) {len : Nat} {objVersion : Nat → PackedVersion}
    (heq : len = segmentStart repl E (start + num) - segmentStart repl E start)
    (hobj : ∀ i, objVersion i = .ofByte (records ((nodeSegment repl E hlen).owner i)))
    : IsSegment repl m rs hlen
        (generateVersions len (getOffsetInfo repl E start num).2.2 objVersion records output) := by
  obtain rfl : objVersion = fun i => .ofByte (records ((nodeSegment repl E hlen).owner i)) := funext hobj
  subst heq
  exact ⟨records, _, h, woven_generateVersions records, fun _ _ => rfl⟩

theorem isSegment_encodeSegment (repl : Bool) (n : Node E) {lIdx rIdx : Nat} (hle : lIdx ≤ rIdx)
    (hlen : lIdx + (rIdx - lIdx + 1) ≤ leafSpanSize) (hoppedIdxes : List Nat) (intermediate output : Buffer)
    : IsSegment repl n.metadata (bumpHopped n.records hoppedIdxes) hlen
        (encodeSegment repl n lIdx rIdx hoppedIdxes intermediate output) := by
  cases repl with
  | true =>
    have hfirst := firstMetadataOffset_eq (size E) lIdx (rIdx - lIdx + 1)
    have hsegment : HoldsSegment true lIdx (rIdx - lIdx + 1)
        (MetadataManager.encodeSegmentMetadata (size E) (recordBytes n.records lIdx) intermediate
          (MetadataManager.getOffsetInfo (size E) lIdx (rIdx - lIdx + 1)).1 (rIdx - lIdx + 1) n.metadata)
        n.metadata n.records := by
      rw [hfirst]
      exact holdsSegment_of_scattered (scattered_encodeSegmentMetadata size_pos n.metadata)
    apply isSegment_generateVersions (hsegment.incrementHopped hoppedIdxes hle ?_)
    . exact newLen_eq size_pos lIdx (rIdx - lIdx + 1)
    . intro i
      exact LeafVersionManager.segmentObjVersion_eq _ _ i
    . intro j hj
      rw [hfirst]
      exact segmentStart_true_add (by omega)
  | false =>
    have hsegment : HoldsSegment false lIdx (rIdx - lIdx + 1) (recordBytes n.records lIdx) n.metadata n.records :=
      holdsSegment_recordBytes
    apply isSegment_generateVersions (hsegment.incrementHopped hoppedIdxes hle ?_)
    . rw [segmentStart_false_end, Nat.add_sub_cancel_left]
    . intro i
      rfl
    . intro j _
      exact segmentStart_false_add lIdx j 0

theorem encodeSegment_congr {n n' : Node E} {lIdx rIdx : Nat} (hle : lIdx ≤ rIdx) (hr : rIdx < leafSpanSize)
    (hmeta : n.metadata = n'.metadata)
    (hrecords : ∀ i (hi : i < leafSpanSize), lIdx ≤ i → i ≤ rIdx → n.records[i] = n'.records[i])
    (hoppedIdxes : List Nat) (intermediate output : Buffer)
    : encodeSegment repl n lIdx rIdx hoppedIdxes intermediate output
      = encodeSegment repl n' lIdx rIdx hoppedIdxes intermediate output := by
  have hbytes : ∀ x, x < size E * (rIdx - lIdx + 1) →
      recordBytes n.records lIdx x = recordBytes n'.records lIdx x := by
    intro x hx
    have hdiv := Nat.div_add_mod x (size E)
    have hlt : x / size E < rIdx - lIdx + 1 := Nat.div_lt_of_lt_mul hx
    rw [← hdiv, recordBytes_apply _ _ (by omega) (Nat.mod_lt x size_pos),
      recordBytes_apply _ _ (by omega) (Nat.mod_lt x size_pos),
      hrecords _ _ (Nat.le_add_right lIdx _) (by omega)]
  cases repl with
  | true =>
    have hfirst := firstMetadataOffset_eq (size E) lIdx (rIdx - lIdx + 1)
    have hle := Nat.mul_le_mul_left (size E) (Nat.min_le_right (toGroup lIdx) (rIdx - lIdx + 1))
    have hseg : MetadataManager.encodeSegmentMetadata (size E) (recordBytes n.records lIdx) intermediate
          (MetadataManager.getOffsetInfo (size E) lIdx (rIdx - lIdx + 1)).1 (rIdx - lIdx + 1) n.metadata
        = MetadataManager.encodeSegmentMetadata (size E) (recordBytes n'.records lIdx) intermediate
          (MetadataManager.getOffsetInfo (size E) lIdx (rIdx - lIdx + 1)).1 (rIdx - lIdx + 1) n'.metadata := by
      rw [hmeta]
      apply Weave.weave_congr (by omega) (fun _ _ _ _ => rfl) hbytes
    unfold encodeSegment
    rw [if_pos rfl, if_pos rfl]
    dsimp only
    rw [hseg]
  | false =>
    have hentries : ∀ x, x < size E * (rIdx - lIdx + 1) →
        incrementHopped (fun idx => size E * idx) hoppedIdxes lIdx rIdx (recordBytes n.records lIdx) x
          = incrementHopped (fun idx => size E * idx) hoppedIdxes lIdx rIdx (recordBytes n'.records lIdx) x :=
      fun x => incrementHopped_congr hbytes
    apply Weave.weave_congr _ _ hentries
    . rw [getOffsetInfo_eq, segmentStart_false_end, Nat.add_sub_cancel_left]
      exact Nat.min_le_right _ _
    . intro i t hi _
      unfold VersionManager.segmentObjVersion
      have := Nat.mul_div_le i (size E)
      rw [hentries _ (by omega)]

theorem isSegment_encodeEntry (n : Node E) {idx : Nat} (hlen : idx + 1 ≤ leafSpanSize)
    (intermediate output : Buffer)
    : IsSegment repl n.metadata (bumpHopped n.records [idx]) hlen
        (encodeEntry repl n idx intermediate output) := by
  have hone : idx - idx + 1 = 1 := by omega
  cases repl with
  | true =>
    have hsegment := isSegment_encodeSegment true n (Nat.le_refl idx) (by omega) [idx] intermediate output
    simp only [hone] at hsegment
    exact hsegment
  | false =>
    have hsegment : HoldsSegment false idx (idx - idx + 1) (recordBytes n.records idx) n.metadata n.records :=
      holdsSegment_recordBytes
    have hentry := hsegment.incrementHopped [idx] (Nat.le_refl idx)
      (fun j _ => segmentStart_false_add idx j 0)
    have heq : incrementHopped (fun j => size E * j + 0) [idx] idx idx (recordBytes n.records idx)
        = incrementEntryVersion (recordBytes n.records idx) 0 := by
      unfold incrementHopped
      rw [List.foldl_cons, List.foldl_nil, if_pos ⟨Nat.le_refl idx, Nat.le_refl idx⟩, Nat.sub_self]
      rfl
    rw [heq, hone] at hentry
    have hlen' : segmentStart false E (idx + 1) - segmentStart false E idx = size E := by
      rw [segmentStart_false_end, Nat.add_sub_cancel_left, Nat.mul_one]
    refine ⟨_, fun _ _ => incrementEntryVersion (recordBytes n.records idx) 0 0, hentry, ?_, ?_⟩
    . rw [hlen']
      exact woven_generateVersions _
    . intro i hi
      rw [hlen'] at hi
      change _ = incrementEntryVersion _ 0 (entryOwner (size E) i)
      rw [entryOwner_of_lt hi]

variable {n : Node E} {img img' buf : Buffer} {metas : Nat → LeafMetadata} {lock : Option (BitVec 64)}
  {nodeAddr : GlobalAddress}

theorem IsEncoded.congr (h : IsEncoded repl n img buf metas)
    (heq : ∀ y, y < transLeafSize repl E → img' y = img y)
    : IsEncoded repl n img' buf metas where
  image := by
    intro y hy
    rw [heq y (by rw [transLeafSize_eq]; exact hy)]
    exact h.image y hy
  uniform := h.uniform
  holds := h.holds
  metadata := h.metadata
  same := h.same

theorem IsEncoded.lockRegion (h : IsEncoded repl n img buf metas) (lock : BitVec 64)
    : IsEncoded repl n (memcpy img (lockOffset repl E) (wordByte lock) 0 8) buf metas := by
  apply h.congr
  intro y hy
  have hround : transLeafSize repl E ≤ lockOffset repl E := by
    unfold lockOffset roundUp
    omega
  unfold memcpy
  rw [if_neg (by omega)]

theorem IsEncoded.segmentRegion (h : IsEncoded repl n img buf metas) (nodeAddr : GlobalAddress)
    (hlen : start + num ≤ leafSpanSize) (hlock : lock = none ∨ start + num = leafSpanSize)
    (hseg : IsSegment repl n.metadata rs' hlen seg)
    (hversion : ∀ i (hi : i < leafSpanSize), start ≤ i → i < start + num →
      nodeVersion rs'[i] = nodeVersion n.records[i])
    : ∃ buf' metas', IsEncoded repl ⟨n.metadata, replaceRecords start num n.records rs'⟩
        (memcpy img (segmentRegion E repl nodeAddr start num seg lock).offset
          (segmentRegion E repl nodeAddr start num seg lock).source 0
          (segmentRegion E repl nodeAddr start num seg lock).size) buf' metas' := by
  obtain ⟨records, mark, hholds, hwoven, hmark⟩ := hseg
  have hwrite : ∀ img', (∀ y, y < transLeafSize repl E → img' y
      = memcpy img (getOffsetInfo repl E start num).1 seg 0 (getOffsetInfo repl E start num).2.1 y) →
      ∃ buf' metas', IsEncoded repl ⟨n.metadata, replaceRecords start num n.records rs'⟩ img' buf' metas' := by
    intro img' himg
    obtain ⟨buf', hbuf'⟩ := h.write hlen hholds hwoven hmark hversion himg
    exact ⟨buf', _, hbuf'⟩
  apply hwrite
  intro y hy
  cases lock with
  | none => rfl
  | some lock =>
    have hend := getOffsetInfo_end repl E start num
    have hround : transLeafSize repl E ≤ lockOffset repl E := by
      unfold lockOffset roundUp
      omega
    rcases hlock with hlock | hlock
    . cases hlock
    . rw [hlock, segmentStart_span, ← transLeafSize_eq] at hend
      unfold Node.segmentRegion memcpy
      dsimp only
      split
      . next hin => rw [if_neg (by omega), if_pos (by omega)]
      . next hout => rw [if_neg (by omega)]

variable {mem : NodeMemory} {lIdx rIdx : Nat}

theorem write_segmentRegion
    : mem.write (segmentRegion E repl nodeAddr start num seg lock) nodeAddr
      = memcpy (mem nodeAddr) (segmentRegion E repl nodeAddr start num seg lock).offset
          (segmentRegion E repl nodeAddr start num seg lock).source 0
          (segmentRegion E repl nodeAddr start num seg lock).size := by
  cases lock with
  | none => exact Function.update_self _ _ _
  | some lock => exact Function.update_self _ _ _

theorem IsEncoded.write_segment (h : IsEncoded repl n (mem nodeAddr) buf metas) (hle : lIdx ≤ rIdx)
    (hnum : num = rIdx - lIdx + 1) (hlen : lIdx + num ≤ leafSpanSize) (lock : Option (BitVec 64))
    (hlock : lock = none ∨ lIdx + num = leafSpanSize) (rs' : Vector E leafSpanSize)
    (hversion : ∀ i (hi : i < leafSpanSize), lIdx ≤ i → i ≤ rIdx →
      nodeVersion rs'[i] = nodeVersion n.records[i])
    (hoppedIdxes : List Nat) (intermediate output : Buffer)
    : ∃ buf' metas',
        IsEncoded repl ⟨n.metadata, replaceRecords lIdx num n.records (bumpHopped rs' hoppedIdxes)⟩
          (mem.write (Node.segmentRegion E repl nodeAddr lIdx num
            (encodeSegment repl ⟨n.metadata, rs'⟩ lIdx rIdx hoppedIdxes intermediate output) lock) nodeAddr)
          buf' metas' := by
  subst hnum
  rw [write_segmentRegion]
  apply h.segmentRegion nodeAddr hlen hlock (isSegment_encodeSegment repl ⟨n.metadata, rs'⟩ hle hlen _ _ _)
  intro i hi hl hr
  rw [getElem_bumpHopped rs' hoppedIdxes hi, nodeVersion_bumpEntryVersion]
  exact hversion i hi hl (by omega)

theorem IsEncoded.write_lock (h : IsEncoded repl n (mem nodeAddr) buf metas) (addr : GlobalAddress)
    (lock : BitVec 64)
    : IsEncoded repl n (mem.write (Node.lockRegion E repl addr lock) nodeAddr) buf metas := by
  by_cases heq : nodeAddr = addr
  . subst heq
    have hwrite : mem.write (Node.lockRegion E repl nodeAddr lock) nodeAddr
        = memcpy (mem nodeAddr) (lockOffset repl E) (wordByte lock) 0 8 := Function.update_self _ _ _
    rw [hwrite]
    exact h.lockRegion lock
  . have hwrite : mem.write (Node.lockRegion E repl addr lock) nodeAddr = mem nodeAddr :=
      Function.update_of_ne heq _ _
    rw [hwrite]
    exact h

/-- The records that a node has after the records of a cyclic segment are replaced. -/
def writeRecords (lIdx rIdx : Nat) (rs rs' : Vector E leafSpanSize) : Vector E leafSpanSize :=
  Vector.ofFn fun i => if InSegment lIdx rIdx i then rs'[i] else rs[i]

omit [EntryType E] in
theorem writeRecords_of_le (hle : lIdx ≤ rIdx) (rs rs' : Vector E leafSpanSize)
    : writeRecords lIdx rIdx rs rs' = replaceRecords lIdx (rIdx - lIdx + 1) rs rs' := by
  unfold writeRecords replaceRecords
  congr 1
  funext i
  apply if_congr _ rfl rfl
  unfold InSegment
  rw [if_pos hle]
  omega

omit [EntryType E] in
theorem writeRecords_of_lt (hlt : rIdx < lIdx) (hl : lIdx < leafSpanSize) (rs rs' : Vector E leafSpanSize)
    : writeRecords lIdx rIdx rs rs'
      = replaceRecords lIdx (leafSpanSize - lIdx) (replaceRecords 0 (rIdx + 1) rs rs') rs' := by
  apply Vector.ext
  intro i hi
  rw [getElem_replaceRecords hi, getElem_replaceRecords hi]
  unfold writeRecords InSegment
  rw [Vector.getElem_ofFn]
  simp only [if_neg (show ¬ lIdx ≤ rIdx by omega)]
  by_cases h : lIdx ≤ i
  . rw [if_pos (by omega), if_pos (by omega)]
    rfl
  . rw [if_neg (show ¬ (lIdx ≤ i ∧ i < lIdx + (leafSpanSize - lIdx)) by omega)]
    apply if_congr _ rfl rfl
    omega

theorem IsEncoded.segmentWriteAndUnlock (h : IsEncoded repl n (mem nodeAddr) buf metas)
    (hl : lIdx < leafSpanSize) (hr : rIdx < leafSpanSize)
    (hversion : ∀ i (hi : i < leafSpanSize), InSegment lIdx rIdx i →
      nodeVersion rs'[i] = nodeVersion n.records[i])
    (hoppedIdxes : List Nat) (lock : Option (BitVec 64)) (bufs : Nat → Buffer)
    : ∃ buf' metas',
        IsEncoded repl ⟨n.metadata, writeRecords lIdx rIdx n.records (bumpHopped rs' hoppedIdxes)⟩
          ((segmentWriteAndUnlock repl ⟨n.metadata, rs'⟩ lIdx rIdx hoppedIdxes nodeAddr lock bufs).foldl
            NodeMemory.write mem nodeAddr) buf' metas' := by
  unfold Node.segmentWriteAndUnlock
  unfold InSegment at hversion
  by_cases hle : lIdx ≤ rIdx
  . rw [if_pos hle, writeRecords_of_le hle]
    simp only [if_pos hle] at hversion
    have hone := fun lock' (hlock : lock' = none ∨ lIdx + (rIdx - lIdx + 1) = leafSpanSize) =>
      h.write_segment hle rfl (by omega) lock' hlock rs' (fun i hi hl hr => hversion i hi ⟨hl, hr⟩)
        hoppedIdxes (bufs 0) (bufs 1)
    cases lock with
    | none => exact hone none (.inl rfl)
    | some lock =>
      dsimp only
      split
      . next heq => exact hone (some lock) (.inr (by omega))
      . obtain ⟨buf', metas', h'⟩ := hone none (.inl rfl)
        exact ⟨buf', metas', h'.write_lock nodeAddr lock⟩
  . rw [if_neg hle, writeRecords_of_lt (by omega) hl]
    simp only [if_neg hle] at hversion
    obtain ⟨buf₁, metas₁, h₁⟩ := h.write_segment (Nat.zero_le rIdx)
      (show rIdx + 1 = rIdx - 0 + 1 from rfl) (by omega) none (.inl rfl) rs'
      (fun i hi _ hr => hversion i hi (.inl hr)) hoppedIdxes (bufs 0) (bufs 1)
    apply h₁.write_segment (show lIdx ≤ leafSpanSize - 1 by omega) (by omega) (by omega) lock
      (.inr (by omega)) rs'
    intro i hi hl' _
    rw [getElem_replaceRecords hi, if_neg (by omega)]
    exact hversion i hi (.inr hl')

variable (E repl) in
/-- The lock word behind the image of a node. -/
def LockedWith (img : Buffer) (lock : BitVec 64) : Prop :=
  ∀ t, t < 8 → img (lockOffset repl E + t) = wordByte lock t

theorem LockedWith.write_segment {w : BitVec 64} (h : LockedWith E repl (mem nodeAddr) w)
    (hlen : start + num ≤ leafSpanSize) (hlock : lock = none ∨ start + num = leafSpanSize)
    : LockedWith E repl (mem.write (segmentRegion E repl nodeAddr start num seg lock) nodeAddr)
        (lock.getD w) := by
  have hend := getOffsetInfo_end repl E start num
  have hmono := rawPos_mono ((segmentStart_strictMono repl E).monotone hlen)
  rw [← hend, segmentStart_span, ← transLeafSize_eq] at hmono
  have h16 : allocationLockSize = 16 := rfl
  have hround : transLeafSize repl E ≤ lockOffset repl E ∧ lockOffset repl E < transLeafSize repl E + 8 := by
    unfold lockOffset roundUp
    omega
  intro t ht
  rw [write_segmentRegion]
  cases lock with
  | none =>
    rw [Option.getD_none, ← h t ht]
    exact if_neg (by dsimp only [segmentRegion]; omega)
  | some lock =>
    rcases hlock with hlock | hlock
    . cases hlock
    . rw [hlock, segmentStart_span, ← transLeafSize_eq] at hend
      unfold segmentRegion memcpy
      dsimp only [Option.getD_some]
      rw [if_pos (by omega), if_pos (by omega)]
      congr 1
      omega

theorem LockedWith.segmentWriteAndUnlock {w : BitVec 64} (h : LockedWith E repl (mem nodeAddr) w)
    (hl : lIdx < leafSpanSize) (hr : rIdx < leafSpanSize) (n : Node E) (hoppedIdxes : List Nat)
    (lock : Option (BitVec 64)) (bufs : Nat → Buffer)
    : LockedWith E repl ((segmentWriteAndUnlock repl n lIdx rIdx hoppedIdxes nodeAddr lock bufs).foldl
        NodeMemory.write mem nodeAddr) (lock.getD w) := by
  unfold Node.segmentWriteAndUnlock
  by_cases hle : lIdx ≤ rIdx
  . rw [if_pos hle]
    cases lock with
    | none => exact h.write_segment (by omega) (.inl rfl)
    | some lock =>
      dsimp only
      split
      . exact h.write_segment (by omega) (.inr (by omega))
      . intro t ht
        have hwrite : ∀ mem : NodeMemory, mem.write (lockRegion E repl nodeAddr lock) nodeAddr
            = memcpy (mem nodeAddr) (lockOffset repl E) (wordByte lock) 0 8 :=
          fun _ => Function.update_self _ _ _
        rw [List.foldl_cons, List.foldl_cons, List.foldl_nil, hwrite]
        unfold memcpy
        rw [if_pos (by omega), Option.getD_some]
        congr 1
        omega
  . rw [if_neg hle]
    exact (h.write_segment (by omega) (.inl rfl)).write_segment (by omega) (.inr (by omega))

theorem segmentWriteAndUnlock_of_ne {a : GlobalAddress} (hne : a ≠ nodeAddr) (n : Node E) (lIdx rIdx : Nat)
    (hoppedIdxes : List Nat) (lock : Option (BitVec 64)) (bufs : Nat → Buffer)
    : (segmentWriteAndUnlock repl n lIdx rIdx hoppedIdxes nodeAddr lock bufs).foldl NodeMemory.write mem a
      = mem a := by
  have hwrite : ∀ (mem : NodeMemory) (r : RdmaOpRegion), r.node = nodeAddr → mem.write r a = mem a := by
    rintro mem r rfl
    exact Function.update_of_ne hne _ _
  have hnode : ∀ r ∈ segmentWriteAndUnlock repl n lIdx rIdx hoppedIdxes nodeAddr lock bufs,
      r.node = nodeAddr := by
    have hregion : ∀ start num seg lock, (segmentRegion E repl nodeAddr start num seg lock).node = nodeAddr := by
      rintro start num seg (_ | lock)
      . rfl
      . rfl
    intro r hr
    unfold Node.segmentWriteAndUnlock at hr
    dsimp only at hr
    split at hr
    . cases lock with
      | none =>
        rw [List.mem_singleton.mp hr]
        exact hregion ..
      | some lock =>
        dsimp only at hr
        split at hr
        . rw [List.mem_singleton.mp hr]
          exact hregion ..
        . rcases List.mem_pair.mp hr with rfl | rfl
          . exact hregion ..
          . rfl
    . rcases List.mem_pair.mp hr with rfl | rfl
      . exact hregion ..
      . exact hregion ..
  generalize segmentWriteAndUnlock repl n lIdx rIdx hoppedIdxes nodeAddr lock bufs = writes at hnode
  induction writes generalizing mem with
  | nil => rfl
  | cons r writes ih =>
    rw [List.foldl_cons, ih (fun r' hr' => hnode r' (List.mem_cons_of_mem _ hr')),
      hwrite mem r (hnode r List.mem_cons_self)]

theorem IsEncoded.entryWriteAndUnlock (h : IsEncoded repl n (mem nodeAddr) buf metas) {idx : Nat}
    (hidx : idx < leafSpanSize) (hversion : nodeVersion rs'[idx] = nodeVersion n.records[idx])
    (lockedLeafAddr : GlobalAddress) (lock : BitVec 64) (bufs : Nat → Buffer)
    : ∃ buf' metas',
        IsEncoded repl ⟨n.metadata, writeRecords idx idx n.records (bumpHopped rs' [idx])⟩
          ((entryWriteAndUnlock repl ⟨n.metadata, rs'⟩ idx nodeAddr lockedLeafAddr lock bufs).foldl
            NodeMemory.write mem nodeAddr) buf' metas' := by
  have hone : idx - idx + 1 = 1 := by omega
  have hversions : ∀ i (hi : i < leafSpanSize), idx ≤ i → i < idx + 1 →
      nodeVersion (bumpHopped rs' [idx])[i] = nodeVersion n.records[i] := by
    intro i hi hl hr
    obtain rfl : i = idx := by omega
    rw [getElem_bumpHopped rs' _ hi, nodeVersion_bumpEntryVersion, hversion]
  have hentry := fun lock' (hlock : lock' = none ∨ idx + 1 = leafSpanSize) =>
    h.segmentRegion nodeAddr hidx hlock (isSegment_encodeEntry ⟨n.metadata, rs'⟩ hidx (bufs 0) (bufs 1))
      hversions
  rw [writeRecords_of_le (Nat.le_refl idx), hone]
  unfold Node.entryWriteAndUnlock
  dsimp only
  split
  . next hlast =>
    rw [List.foldl_cons, List.foldl_nil, write_segmentRegion]
    exact hentry (some lock) (.inr (by omega))
  . obtain ⟨buf', metas', h'⟩ := hentry none (.inl rfl)
    rw [← write_segmentRegion] at h'
    exact ⟨buf', metas', h'.write_lock lockedLeafAddr lock⟩

theorem bumpEntryVersion_count {hoppedIdxes : List Nat} (hnodup : hoppedIdxes.Nodup) (e : E) (i : Nat)
    : bumpEntryVersion e (hoppedIdxes.count i) = if i ∈ hoppedIdxes then bumpEntryVersion e 1 else e := by
  split
  . next hmem => rw [List.count_eq_one_of_mem hnodup hmem]
  . next hmem =>
    rw [List.count_eq_zero_of_not_mem hmem]
    unfold bumpEntryVersion
    rw [PackedVersion.bumpEntry_zero, setVersion_hVersion]

theorem writeRecords_bumpHopped {hoppedIdxes : List Nat} (hnodup : hoppedIdxes.Nodup)
    : writeRecords lIdx rIdx rs (bumpHopped rs' hoppedIdxes)
      = Vector.ofFn fun i =>
          if InSegment lIdx rIdx i then
            if i.val ∈ hoppedIdxes then bumpEntryVersion rs'[i] 1 else rs'[i]
          else
            rs[i] := by
  unfold writeRecords
  congr 1
  funext i
  apply if_congr Iff.rfl _ rfl
  rw [Fin.getElem_fin, getElem_bumpHopped rs' hoppedIdxes i.isLt, bumpEntryVersion_count hnodup]
  rfl

theorem writeRecords_one {idx : Nat} (hidx : idx < leafSpanSize)
    : writeRecords idx idx rs (bumpHopped rs' [idx]) = rs.set idx (bumpEntryVersion rs'[idx] 1) := by
  apply Vector.ext
  intro i hi
  rw [writeRecords_of_le (Nat.le_refl idx), getElem_replaceRecords hi, Vector.getElem_set]
  by_cases h : idx = i
  . subst h
    rw [if_pos (by omega), if_pos rfl, getElem_bumpHopped rs' _ hi, List.count_singleton_self]
  . rw [if_neg (by omega), if_neg h]

/--
Writing a cyclic segment, or one entry, makes the image that of the node with these records replaced and
the entry versions of the hopped ones incremented.
-/
theorem decode_partial_write (repl : Bool) (mem : NodeMemory) (nodeAddr : GlobalAddress) (n : Node E)
    (intermediate output intermediate' output' : Buffer)
    (hdec : decode repl (mem nodeAddr) intermediate output = some n) (rs' : Vector E leafSpanSize)
    (bufs : Nat → Buffer)
    : (∀ lIdx rIdx hoppedIdxes lock, lIdx < leafSpanSize → rIdx < leafSpanSize → hoppedIdxes.Nodup →
        (∀ i (hi : i < leafSpanSize), InSegment lIdx rIdx i → hVersion rs'[i] = hVersion n.records[i]) →
        decode repl
            ((segmentWriteAndUnlock repl ⟨n.metadata, rs'⟩ lIdx rIdx hoppedIdxes nodeAddr lock bufs).foldl
              NodeMemory.write mem nodeAddr) intermediate' output'
          = some ⟨n.metadata, Vector.ofFn fun i =>
              if InSegment lIdx rIdx i then
                if i.val ∈ hoppedIdxes then bumpEntryVersion rs'[i] 1 else rs'[i]
              else
                n.records[i]⟩)
      ∧ ∀ idx (hidx : idx < leafSpanSize) lockedLeafAddr lock, hVersion rs'[idx] = hVersion n.records[idx] →
          decode repl
              ((entryWriteAndUnlock repl ⟨n.metadata, rs'⟩ idx nodeAddr lockedLeafAddr lock bufs).foldl
                NodeMemory.write mem nodeAddr) intermediate' output'
            = some ⟨n.metadata, n.records.set idx (bumpEntryVersion rs'[idx] 1)⟩ := by
  obtain ⟨buf, metas, h⟩ := decode_eq_some.mp hdec
  constructor
  . intro lIdx rIdx hoppedIdxes lock hl hr hnodup hversion
    have hwritten := h.segmentWriteAndUnlock hl hr
      (fun i hi hin => congrArg PackedVersion.nodeVersion (hversion i hi hin)) hoppedIdxes lock bufs
    rw [decode_eq_some.mpr hwritten, writeRecords_bumpHopped hnodup]
  . intro idx hidx lockedLeafAddr lock hversion
    have hwritten := h.entryWriteAndUnlock hidx (congrArg PackedVersion.nodeVersion hversion) lockedLeafAddr
      lock bufs
    rw [decode_eq_some.mpr hwritten, writeRecords_one hidx]

/-- A segment that wraps around, with the records 15 and 2 hopped. -/
theorem decode_partial_write_wrap
    : ∃ n rs : Node LeafEntry, n = (sampleNode 16 (.of 0 4096)).bumpNodeVersions true
        ∧ rs = (sampleNode 32 (.of 0 4096)).bumpNodeVersions true
        ∧ decode true
          ((segmentWriteAndUnlock true rs 14 2 [15, 2] GlobalAddress.null (some 0) fun _ _ => 0).foldl NodeMemory.write
            (fun _ => (sampleNode 16 (.of 0 4096)).encode true (fun _ => 0) (fun _ => 0)) GlobalAddress.null)
            (fun _ => 0) (fun _ => 0)
        = some ⟨n.metadata, Vector.ofFn fun i =>
            if InSegment 14 2 i then
              if i.val ∈ [15, 2] then bumpEntryVersion rs.records[i] 1 else rs.records[i]
            else
              n.records[i]⟩ := by
  have hdec : decode true ((sampleNode 16 (.of 0 4096)).encode true (fun _ => 0) (fun _ => 0)) (fun _ => 0) (fun _ => 0)
      = some ((sampleNode 16 (.of 0 4096)).bumpNodeVersions true) := by
    obtain ⟨buf, hbuf⟩ := (sampleNode 16 (.of 0 4096)).isEncoded_encode true (fun _ => 0) (fun _ => 0)
    exact decode_eq_some.mpr ⟨buf, _, hbuf⟩
  refine ⟨_, _, rfl, rfl, ?_⟩
  exact (decode_partial_write true (fun _ => (sampleNode 16 (.of 0 4096)).encode true (fun _ => 0) (fun _ => 0))
    GlobalAddress.null _ (fun _ => 0) (fun _ => 0) (fun _ => 0) (fun _ => 0) hdec
    ((sampleNode 32 (.of 0 4096)).bumpNodeVersions true).records (fun _ _ => 0)).1 14 2 [15, 2] (some 0) (by decide)
    (by decide) (by decide) (by decide +kernel)

end Node

end Rolex

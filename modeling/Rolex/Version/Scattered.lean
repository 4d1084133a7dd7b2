import Rolex.Version.LeafBytes
import Rolex.Version.Frame

/-!
This module contains the encoders and decoders of segments (`VersionManager.h`), and those of nodes and
segments with replicated metadata (`LeafVersionManager.h`, `MetadataManager.h`), for entries of `e` bytes.
-/

namespace Rolex

/-- `++ h_version.entry_version` for the object at `x`. -/
def incrementEntryVersion (buf : Buffer) (x : Nat) : Buffer :=
  Function.update buf x
    ({ PackedVersion.ofByte (buf x) with
      entryVersion := (PackedVersion.ofByte (buf x)).entryVersion + 1 }).toByte

/-- Increment the versions of the hopped entries of a segment, where `offset` says where an entry is. -/
def incrementHopped (offset : Nat → Nat) (hoppedIdxes : List Nat) (lIdx rIdx : Nat) (input : Buffer)
    : Buffer :=
  hoppedIdxes.foldl
    (fun buf idx => if lIdx ≤ idx ∧ idx ≤ rIdx then incrementEntryVersion buf (offset (idx - lIdx)) else buf)
    input

/-- The layout of `LeafNode`. -/
def nodeLayout (e : Nat) (he : 0 < e) : Layout where
  recordsOffset := leafMetadataSize
  entrySize := e
  entryNum := leafSpanSize
  recordsOffset_pos := leafMetadataSize_pos
  entrySize_pos := he
  entryNum_pos := leafSpanSize_pos

section

variable (e : Nat)

namespace VersionManager

/-- `entries[i / sizeof(ENTRY)].h_version` -/
def segmentObjVersion (entries : Buffer) (i : Nat) : PackedVersion := .ofByte (entries (e * (i / e)))

def encodeEntryVersions (input output : Buffer) (firstOffset : Nat) : Buffer :=
  let entry := incrementEntryVersion input 0
  generateVersions e firstOffset (fun _ => .ofByte (entry 0)) entry output

def encodeSegmentVersions (input output : Buffer) (firstOffset : Nat) (hoppedIdxes : List Nat)
    (lIdx rIdx : Nat) : Buffer :=
  let entries := incrementHopped (fun idx => e * idx) hoppedIdxes lIdx rIdx input
  generateVersions (e * (rIdx - lIdx + 1)) firstOffset (segmentObjVersion e entries) entries output

/-- The node version and the entries, `none` when it returns false. -/
def decodeSegmentVersions (input output : Buffer) (firstOffset entryNum : Nat)
    : Option (BitVec 4 × Buffer) := do
  let out ← checkVersions (e * entryNum) firstOffset (segmentObjVersion e) input output
  let nodeVersion := Layout.nodeVersion out 0
  if (List.range' 1 (entryNum - 1)).all fun i => nodeVersion == Layout.nodeVersion out (e * i) then
    some (nodeVersion, out)
  else
    none

def getOffsetInfo (startEntryIdx entryNum : Nat) : Nat × Nat × Nat :=
  offsetInfo (min cachelineSize (leafMetadataSize + e * leafSpanSize))
    (leafMetadataSize + e * startEntryIdx) (leafMetadataSize + e * (startEntryIdx + entryNum))
    (e * entryNum)

end VersionManager

def entryGroupNum : Nat := leafSpanSize / neighborSize + leafSpanSize % neighborSize

def groupSize : Nat := e * neighborSize

def groupBytes : Nat := leafMetadataSize + groupSize e

namespace LeafVersionManager

/-- `STRUCT_OFFSET(ScatteredLeafNode, record_groups[i].metadata)` -/
def groupOffset (i : Nat) : Nat := groupBytes e * i

/-- `STRUCT_OFFSET(ScatteredLeafNode, record_groups[i].records[j])` -/
def recordOffset (i j : Nat) : Nat := groupOffset e i + leafMetadataSize + e * j

def size : Nat := groupOffset e entryGroupNum

/-- `FIRST_OFFSET` -/
def firstOffset : Nat := min cachelineSize (size e)

def objVersion (leaf : Buffer) (j : Nat) : PackedVersion :=
  let groupIdx := j / groupBytes e
  if j < groupOffset e groupIdx + leafMetadataSize then
    .ofByte (leaf (groupOffset e groupIdx))
  else
    .ofByte (leaf (recordOffset e groupIdx ((j - (groupOffset e groupIdx + leafMetadataSize)) / e)))

/-- The offsets of the versions of group `i`: its metadata, then its records. -/
def groupVersions (i : Nat) : List Nat :=
  groupOffset e i :: (List.range neighborSize).map (recordOffset e i)

def decodeNodeVersions (input output : Buffer) : Option Buffer := do
  let out ← checkVersions (size e) (firstOffset e) (objVersion e) input output
  let nodeVersion := Layout.nodeVersion out (groupOffset e 0)
  if (List.range entryGroupNum).all fun i =>
      (groupVersions e i).all fun x => nodeVersion == Layout.nodeVersion out x then
    some out
  else
    none

/-- The first part of `encode_node_versions`: increment the node versions. -/
def incrementNodeVersions (input : Buffer) : Buffer :=
  let nodeVersion := Layout.nodeVersion input (groupOffset e 0) + 1
  ((List.range entryGroupNum).flatMap (groupVersions e)).foldl
    (VersionManager.setNodeVersion nodeVersion) input

def encodeNodeVersions (input output : Buffer) : Buffer :=
  let leaf := incrementNodeVersions e input
  generateVersions (size e) (firstOffset e) (objVersion e leaf) leaf output

/-- The decoded offset of an entry, or of the metadata in front of it. -/
def decodedOffset (idx : Nat) : Nat :=
  if idx % neighborSize ≠ 0 then
    recordOffset e (idx / neighborSize) (idx % neighborSize)
  else
    groupOffset e (idx / neighborSize)

def getOffsetInfo (startEntryIdx entryNum : Nat) : Nat × Nat × Nat :=
  let decodedStartOffset := decodedOffset e startEntryIdx
  let decodedEndOffset := decodedOffset e (startEntryIdx + entryNum)
  offsetInfo (firstOffset e) decodedStartOffset decodedEndOffset
    (decodedEndOffset - decodedStartOffset)

/-- The offset in a segment of its entry `idx`, when the first metadata is at `metadataOffset`. -/
def segmentOffset (metadataOffset idx : Nat) : Nat :=
  let sizeL := metadataOffset / e
  if idx < sizeL then
    e * idx
  else
    metadataOffset + recordOffset e ((idx - sizeL) / neighborSize) ((idx - sizeL) % neighborSize)

def segmentObjVersion (metadataOffset : Nat) (segment : Buffer) (i : Nat) : PackedVersion :=
  if i < metadataOffset then
    .ofByte (segment (e * (i / e)))
  else
    let groupIdx := (i - metadataOffset) / groupBytes e
    let off := (i - metadataOffset) % groupBytes e
    if off < leafMetadataSize then
      .ofByte (segment (metadataOffset + groupOffset e groupIdx))
    else
      .ofByte (segment (metadataOffset + recordOffset e groupIdx ((off - leafMetadataSize) / e)))

def encodeSegmentVersions (input output : Buffer) (firstOffset : Nat) (hoppedIdxes : List Nat)
    (lIdx rIdx metadataOffset segmentLen : Nat) : Buffer :=
  let segment := incrementHopped (segmentOffset e metadataOffset) hoppedIdxes lIdx rIdx input
  generateVersions segmentLen firstOffset (segmentObjVersion e metadataOffset segment) segment output

/-- The offsets of the versions that the joint check looks at: the entries, then the metadata. -/
def segmentVersions (metadataOffset entryNum : Nat) : List Nat :=
  let remainSize := entryNum - metadataOffset / e
  let groupNum := remainSize / neighborSize + if remainSize % neighborSize = 0 then 0 else 1
  (List.range entryNum).map (segmentOffset e metadataOffset)
    ++ (List.range groupNum).map fun i => metadataOffset + groupOffset e i

/-- The node version and the segment, `none` when it returns false. -/
def decodeSegmentVersions (input output : Buffer) (firstOffset entryNum metadataOffset segmentLen : Nat)
    : Option (BitVec 4 × Buffer) := do
  let out ← checkVersions segmentLen firstOffset (segmentObjVersion e metadataOffset) input output
  -- the first object of the segment is an entry or, if there is none before it, the metadata
  let nodeVersion := Layout.nodeVersion out 0
  if (segmentVersions e metadataOffset entryNum).all fun x =>
      nodeVersion == Layout.nodeVersion out x then
    some (nodeVersion, out)
  else
    none

end LeafVersionManager

/-- `!strncmp(lhs, rhs, n)`: equal up to the first zero byte. -/
def strncmpEq (lhs rhs : Buffer) : Nat → Bool
  | 0 => true
  | n + 1 => lhs 0 == rhs 0 && (lhs 0 == 0 || strncmpEq (fun x => lhs (x + 1)) (fun x => rhs (x + 1)) n)

namespace MetadataManager

/-- `[first_metadata_offset, new_len]` -/
def getOffsetInfo (startEntryIdx entryNum : Nat) : Nat × Nat :=
  let segmentLen := e * entryNum
  let firstMetadataOffset :=
    min ((neighborSize - startEntryIdx % neighborSize) % neighborSize * e) segmentLen
  let remainLen := segmentLen - firstMetadataOffset
  (firstMetadataOffset, segmentLen
    + leafMetadataSize * (remainLen / groupSize e + if remainLen % groupSize e = 0 then 0 else 1))

/--
`encode_node_metadata`: the metadata in front of each group of records. The records of a group are copied
one by one; as `neighborSize` divides `leafSpanSize`, the copying ends with the last group.
-/
def encodeNodeMetadata (input output : Buffer) : Buffer :=
  Weave.weave leafMetadataSize (groupSize e) (e * leafSpanSize) 0 (fun _ t => input t)
    (fun x => input (leafMetadataSize + x)) output

/-- `decode_node_metadata`, `none` when its assertion fails. -/
def decodeNodeMetadata (input output : Buffer) : Option Buffer := do
  let records ← Weave.unweave leafMetadataSize (groupSize e) (e * leafSpanSize) 0
    (fun _ _ metadata => strncmpEq metadata input leafMetadataSize) input
    (fun x => output (leafMetadataSize + x))
  return fun x => if x < leafMetadataSize then input x else records (x - leafMetadataSize)

def encodeSegmentMetadata (input output : Buffer) (firstMetadataOffset entryNum : Nat)
    (metadata : LeafMetadata) : Buffer :=
  Weave.weave leafMetadataSize (groupSize e) (e * entryNum) firstMetadataOffset
    (fun _ t => metadata.byte t) input output

/-- The metadata, if the segment contains it, and the records; `none` when the assertion fails. -/
def decodeSegmentMetadata (input output : Buffer) (firstMetadataOffset entryNum : Nat)
    : Option (Option LeafMetadata × Buffer) :=
  if firstMetadataOffset ≥ e * entryNum then
    some (none, memcpy output 0 input 0 firstMetadataOffset)
  else do
    let scatteredMetadata : Buffer := fun t => input (firstMetadataOffset + t)
    let out ← Weave.unweave leafMetadataSize (groupSize e) (e * entryNum) firstMetadataOffset
      (fun _ _ metadata => strncmpEq scatteredMetadata metadata leafMetadataSize) input output
    return (some (.ofBytes input firstMetadataOffset), out)

end MetadataManager

/-!
Where the version of the object stands that a byte belongs to.
-/

/-- In a sequence of entries. -/
def entryOwner (x : Nat) : Nat := e * (x / e)

/-- In metadata followed by entries. -/
def headerOwner (x : Nat) : Nat :=
  if x < leafMetadataSize then 0 else leafMetadataSize + entryOwner e (x - leafMetadataSize)

/-- In a sequence of groups. -/
def scatteredOwner (x : Nat) : Nat :=
  groupBytes e * (x / groupBytes e) + headerOwner e (x % groupBytes e)

/-- In a segment whose first metadata is at `metadataOffset`. -/
def segmentOwner (metadataOffset x : Nat) : Nat :=
  if x < metadataOffset then
    entryOwner e x
  else
    metadataOffset + scatteredOwner e (x - metadataOffset)

end

section Owners

variable {e : Nat}

theorem entryOwner_le (x : Nat) : entryOwner e x ≤ x := Nat.mul_div_le x e

theorem entryOwner_mono {x y : Nat} (h : x ≤ y) : entryOwner e x ≤ entryOwner e y :=
  Nat.mul_le_mul_left e (Nat.div_le_div_right h)

theorem entryOwner_add (he : 0 < e) (q x : Nat) : entryOwner e (e * q + x) = e * q + entryOwner e x := by
  unfold entryOwner
  rw [Nat.mul_add_div he, Nat.mul_add]

theorem entryOwner_entryOwner (he : 0 < e) (x : Nat) : entryOwner e (entryOwner e x) = entryOwner e x := by
  have h := entryOwner_add he (x / e) 0
  rw [Nat.add_zero] at h
  have hzero : entryOwner e 0 = 0 := Nat.le_zero.mp (entryOwner_le 0)
  rw [hzero] at h
  exact h

theorem headerOwner_le (x : Nat) : headerOwner e x ≤ x := by
  have := entryOwner_le (e := e) (x - leafMetadataSize)
  unfold headerOwner
  split
  . omega
  . omega

theorem headerOwner_mono {x y : Nat} (h : x ≤ y) : headerOwner e x ≤ headerOwner e y := by
  unfold headerOwner
  split
  . omega
  . have := entryOwner_mono (e := e) (show x - leafMetadataSize ≤ y - leafMetadataSize by omega)
    rw [if_neg (by omega)]
    omega

theorem headerOwner_add (x : Nat)
    : headerOwner e (leafMetadataSize + x) = leafMetadataSize + entryOwner e x := by
  unfold headerOwner
  rw [if_neg (by omega), Nat.add_sub_cancel_left]

theorem headerOwner_headerOwner (he : 0 < e) (x : Nat)
    : headerOwner e (headerOwner e x) = headerOwner e x := by
  by_cases h : x < leafMetadataSize
  . have hzero : headerOwner e x = 0 := if_pos h
    rw [hzero]
    exact Nat.le_zero.mp (headerOwner_le 0)
  . obtain ⟨y, rfl⟩ : ∃ y, x = leafMetadataSize + y := ⟨x - leafMetadataSize, by omega⟩
    rw [headerOwner_add, headerOwner_add, entryOwner_entryOwner he]

theorem groupBytes_pos : 0 < groupBytes e := by
  have : leafMetadataSize = 9 := rfl
  unfold groupBytes
  omega

theorem scatteredOwner_add (q x : Nat)
    : scatteredOwner e (groupBytes e * q + x) = groupBytes e * q + scatteredOwner e x := by
  unfold scatteredOwner
  rw [Nat.mul_add_div groupBytes_pos, Nat.mul_add_mod, Nat.mul_add, Nat.add_assoc]

theorem scatteredOwner_of_lt {x : Nat} (hx : x < groupBytes e)
    : scatteredOwner e x = headerOwner e x := by
  unfold scatteredOwner
  rw [Nat.div_eq_of_lt hx, Nat.mod_eq_of_lt hx, Nat.mul_zero, Nat.zero_add]

theorem scatteredOwner_le (x : Nat) : scatteredOwner e x ≤ x := by
  have hle := headerOwner_le (e := e) (x % groupBytes e)
  have hx := Nat.div_add_mod x (groupBytes e)
  unfold scatteredOwner
  omega

theorem scatteredOwner_scatteredOwner (he : 0 < e) (x : Nat)
    : scatteredOwner e (scatteredOwner e x) = scatteredOwner e x := by
  have hlt : headerOwner e (x % groupBytes e) < groupBytes e := by
    have hle := headerOwner_le (e := e) (x % groupBytes e)
    have hmod := Nat.mod_lt x (groupBytes_pos (e := e))
    omega
  have heq : scatteredOwner e (scatteredOwner e x)
      = groupBytes e * (x / groupBytes e) + scatteredOwner e (headerOwner e (x % groupBytes e)) :=
    scatteredOwner_add (x / groupBytes e) (headerOwner e (x % groupBytes e))
  rw [heq, scatteredOwner_of_lt hlt, headerOwner_headerOwner he]
  rfl

theorem scatteredOwner_mono {x y : Nat} (h : x ≤ y) : scatteredOwner e x ≤ scatteredOwner e y := by
  have hx := Nat.div_add_mod x (groupBytes e)
  have hy := Nat.div_add_mod y (groupBytes e)
  have hdiv : x / groupBytes e ≤ y / groupBytes e := Nat.div_le_div_right h
  unfold scatteredOwner
  rcases Nat.eq_or_lt_of_le hdiv with heq | hlt
  . rw [heq] at hx ⊢
    have := headerOwner_mono (e := e) (show x % groupBytes e ≤ y % groupBytes e by omega)
    omega
  . have hle := headerOwner_le (e := e) (x % groupBytes e)
    have hmod := Nat.mod_lt x (groupBytes_pos (e := e))
    have hmul := Nat.mul_le_mul_left (groupBytes e) hlt
    rw [Nat.mul_succ] at hmul
    omega

theorem segmentOwner_le (metadataOffset x : Nat) : segmentOwner e metadataOffset x ≤ x := by
  unfold segmentOwner
  split
  . exact entryOwner_le x
  . have := scatteredOwner_le (e := e) (x - metadataOffset)
    omega

end Owners

end Rolex

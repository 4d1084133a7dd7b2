import Rolex.Version.Node

/-!
This module contains the layout of a memory node in every build: the leaves with their lock words lie
before `synRegionOffset`, what the directories hand out behind it.
-/

namespace Rolex

/-- The `size` bytes from an address on, each with its memory node. -/
def region (a : GlobalAddress) (size : Nat) : Set (BitVec 16 × Nat) :=
  {x | x.1 = a.nodeID ∧ a.offset.toNat ≤ x.2 ∧ x.2 < a.offset.toNat + size}

theorem disjoint_region {a b : GlobalAddress} {n m : Nat}
    (h : a.offset.toNat + n ≤ b.offset.toNat)
    : Disjoint (region a n) (region b m) := by
  apply Set.disjoint_left.mpr
  rintro x ⟨-, -, hlt⟩ ⟨-, hle, -⟩
  omega

theorem region_subset {a b : GlobalAddress} {n m : Nat} (hnode : a.nodeID = b.nodeID)
    (hle : b.offset.toNat ≤ a.offset.toNat) (hlt : a.offset.toNat + n ≤ b.offset.toNat + m)
    : region a n ⊆ region b m := by
  rintro x ⟨hx, hx1, hx2⟩
  exact ⟨hx.trans hnode, by omega, by omega⟩

structure LeafBuild where
  hopscotchLeafNode : Bool
  metadataReplication : Bool

namespace LeafBuild

/-- The default build. -/
def plain : LeafBuild := ⟨false, false⟩

variable (b : LeafBuild)

def transLeafSize : Nat :=
  if b.hopscotchLeafNode then
    Node.transLeafSize b.metadataReplication HopEntry
  else
    Node.transLeafSize b.metadataReplication LeafEntry

/-- `get_lock_info` -/
def lockOffset : Nat := roundUp b.transLeafSize 3

def allocationLeafSize : Nat := b.transLeafSize + allocationLockSize

def leafStride : Nat := roundUp b.allocationLeafSize 3

def synRegionOffset : Nat :=
  kLeafRegionStartOffset + roundUp (leafNumMax * b.leafStride) cachelineAlignBit

/-- `get_leaf_address` in the arithmetic of `uint64_t`, `none` when its assertion fails. -/
def getLeafAddress (leafIdx : BitVec 64) : Option GlobalAddress :=
  let offset := BitVec.ofNat 64 kLeafRegionStartOffset
    + leafIdx / BitVec.ofNat 64 memoryNodeNum * BitVec.ofNat 64 b.leafStride
  if (offset + BitVec.ofNat 64 b.allocationLeafSize).toNat < b.synRegionOffset then
    some ⟨(leafIdx % BitVec.ofNat 64 memoryNodeNum).setWidth 16, offset.setWidth 48⟩
  else
    none

/-- `get_leaf_address` of an `int`. -/
def leafAddress (leafIdx : Nat) : Option GlobalAddress :=
  if leafIdx < 2 ^ 31 then b.getLeafAddress (BitVec.ofNat 64 leafIdx) else none

theorem lockOffset_spec
    : b.transLeafSize ≤ b.lockOffset ∧ b.lockOffset + 8 ≤ b.allocationLeafSize
        ∧ b.lockOffset % 8 = 0 ∧ b.allocationLeafSize ≤ b.leafStride ∧ b.leafStride % 8 = 0
        ∧ b.leafStride ≤ 344 := by
  rcases b with ⟨_ | _, _ | _⟩ <;> decide

theorem synRegionOffset_spec
    : b.synRegionOffset % 256 = 0 ∧ 0 < b.synRegionOffset ∧ b.synRegionOffset < dsmSize := by
  rcases b with ⟨_ | _, _ | _⟩ <;> decide

/-- The address of the leaf is computed without overflow, as it is for every index that is an `int`. -/
def NoWrap (leafIdx : Nat) : Prop :=
  kLeafRegionStartOffset + leafIdx * b.leafStride + b.allocationLeafSize < 2 ^ 64

theorem noWrap_of_int {leafIdx : Nat} (h : leafIdx < 2 ^ 31) : b.NoWrap leafIdx := by
  obtain ⟨-, -, -, hsize, -, hstride⟩ := b.lockOffset_spec
  have hstart : kLeafRegionStartOffset = 8388608 := rfl
  have hmul : leafIdx * b.leafStride < 2 ^ 31 * 345 :=
    Nat.mul_lt_mul_of_lt_of_le h (by omega) (by omega)
  unfold NoWrap
  omega

theorem NoWrap.lt {leafIdx : Nat} (h : b.NoWrap leafIdx) : leafIdx < 2 ^ 64 := by
  have hstride : 0 < b.leafStride := by rcases b with ⟨_ | _, _ | _⟩ <;> decide
  have hmul := Nat.le_mul_of_pos_right leafIdx hstride
  unfold NoWrap at h
  omega

theorem getLeafAddress_eq {leafIdx : Nat} (h : b.NoWrap leafIdx)
    : b.getLeafAddress (BitVec.ofNat 64 leafIdx)
        = if kLeafRegionStartOffset + leafIdx * b.leafStride + b.allocationLeafSize
            < b.synRegionOffset then
            some (GlobalAddress.of 0 (kLeafRegionStartOffset + leafIdx * b.leafStride))
          else
            none := by
  have hnode : memoryNodeNum = 1 := rfl
  have hlt := h.lt
  unfold NoWrap at h
  generalize hstrideDef : b.leafStride = stride at *
  have hdiv : BitVec.ofNat 64 leafIdx / BitVec.ofNat 64 memoryNodeNum = BitVec.ofNat 64 leafIdx := by
    apply BitVec.eq_of_toNat_eq
    simp [hnode]
  have hmod : BitVec.ofNat 64 leafIdx % BitVec.ofNat 64 memoryNodeNum = 0 := by
    apply BitVec.eq_of_toNat_eq
    simp [hnode]
  have hoffset : (BitVec.ofNat 64 kLeafRegionStartOffset
      + BitVec.ofNat 64 leafIdx * BitVec.ofNat 64 stride)
      = BitVec.ofNat 64 (kLeafRegionStartOffset + leafIdx * stride) := by
    rw [BitVec.ofNat_add, BitVec.ofNat_mul]
  have hsum : (BitVec.ofNat 64 (kLeafRegionStartOffset + leafIdx * stride)
      + BitVec.ofNat 64 b.allocationLeafSize).toNat
      = kLeafRegionStartOffset + leafIdx * stride + b.allocationLeafSize := by
    rw [← BitVec.ofNat_add, BitVec.toNat_ofNat]
    apply Nat.mod_eq_of_lt
    omega
  have hwidth : (BitVec.ofNat 64 (kLeafRegionStartOffset + leafIdx * stride)).setWidth 48
      = BitVec.ofNat 48 (kLeafRegionStartOffset + leafIdx * stride) := by
    apply BitVec.eq_of_toNat_eq
    simp only [BitVec.toNat_setWidth, BitVec.toNat_ofNat]
    apply Nat.mod_mod_of_dvd
    decide
  unfold getLeafAddress
  rw [hdiv, hmod]
  dsimp only
  rw [hstrideDef, hoffset, hsum, hwidth]
  rfl

section Leaf

variable {b} {leafIdx : Nat} {addr : GlobalAddress}

theorem offset_of_getLeafAddress (h : b.NoWrap leafIdx)
    (haddr : b.getLeafAddress (BitVec.ofNat 64 leafIdx) = some addr)
    : addr.offset.toNat = kLeafRegionStartOffset + leafIdx * b.leafStride
        ∧ addr.offset.toNat + b.allocationLeafSize < b.synRegionOffset := by
  have hsyn := b.synRegionOffset_spec.2.2
  have hdsm : dsmSize < 2 ^ 48 := by decide
  rw [b.getLeafAddress_eq h] at haddr
  split at haddr
  . next hlt =>
    obtain rfl := Option.some.inj haddr
    have hoff : (GlobalAddress.of 0 (kLeafRegionStartOffset + leafIdx * b.leafStride)).offset.toNat
        = kLeafRegionStartOffset + leafIdx * b.leafStride := by
      simp only [GlobalAddress.of, BitVec.toNat_ofNat]
      apply Nat.mod_eq_of_lt
      omega
    rw [hoff]
    exact ⟨rfl, hlt⟩
  . cases haddr

theorem leafAddress_eq_some (h : b.leafAddress leafIdx = some addr)
    : b.NoWrap leafIdx ∧ b.getLeafAddress (BitVec.ofNat 64 leafIdx) = some addr := by
  unfold leafAddress at h
  split at h
  . next hlt => exact ⟨b.noWrap_of_int hlt, h⟩
  . cases h

variable (b) in
/-- `a` is the address of a leaf (and not of a synonym leaf). -/
def IsLeaf (a : GlobalAddress) : Prop := ∃ leafIdx, b.leafAddress leafIdx = some a

theorem IsLeaf.offset_lt (h : b.IsLeaf addr)
    : addr.offset.toNat + b.allocationLeafSize < b.synRegionOffset := by
  obtain ⟨leafIdx, h⟩ := h
  obtain ⟨hwrap, h⟩ := leafAddress_eq_some h
  exact (offset_of_getLeafAddress hwrap h).2

theorem IsLeaf.nodeID_eq (h : b.IsLeaf addr) : addr.nodeID = 0 := by
  obtain ⟨leafIdx, h⟩ := h
  obtain ⟨hwrap, h⟩ := leafAddress_eq_some h
  rw [getLeafAddress_eq _ hwrap] at h
  split at h
  . obtain rfl := Option.some.inj h
    rfl
  . cases h

theorem leafAddress_ne_none {x y : Nat} (h : b.leafAddress y ≠ none) (hle : x ≤ y)
    : b.leafAddress x ≠ none := by
  obtain ⟨addr, haddr⟩ := Option.ne_none_iff_exists'.mp h
  unfold leafAddress at haddr ⊢
  split at haddr
  . next hlt =>
    have hmul := Nat.mul_le_mul_right b.leafStride hle
    have hlast := offset_of_getLeafAddress (b.noWrap_of_int hlt) haddr
    rw [if_pos (by omega), b.getLeafAddress_eq (b.noWrap_of_int (by omega)), if_pos (by omega)]
    simp
  . cases haddr

theorem disjoint_leaf {leafIdx' : Nat} {addr' : GlobalAddress} (h : b.NoWrap leafIdx)
    (h' : b.NoWrap leafIdx') (hlt : leafIdx < leafIdx')
    (haddr : b.getLeafAddress (BitVec.ofNat 64 leafIdx) = some addr)
    (haddr' : b.getLeafAddress (BitVec.ofNat 64 leafIdx') = some addr')
    : Disjoint (region addr b.allocationLeafSize) (region addr' b.allocationLeafSize) := by
  have hsize := b.lockOffset_spec.2.2.2.1
  have hmul := Nat.mul_le_mul_right b.leafStride (show leafIdx + 1 ≤ leafIdx' from hlt)
  rw [Nat.succ_mul] at hmul
  apply disjoint_region
  rw [(offset_of_getLeafAddress h haddr).1, (offset_of_getLeafAddress h' haddr').1]
  omega

variable (b) in
def lockAddress (addr : GlobalAddress) : GlobalAddress :=
  { addr with offset := addr.offset + BitVec.ofNat 48 b.lockOffset }

theorem lockAddress_spec (h : b.NoWrap leafIdx)
    (haddr : b.getLeafAddress (BitVec.ofNat 64 leafIdx) = some addr)
    : (b.lockAddress addr).offset.toNat % 8 = 0
        ∧ addr.offset.toNat + b.transLeafSize ≤ (b.lockAddress addr).offset.toNat
        ∧ region (b.lockAddress addr) 8 ⊆ region addr b.allocationLeafSize := by
  obtain ⟨htrans, hlock, hlock8, hsize, hstride, -⟩ := b.lockOffset_spec
  obtain ⟨hoff, hlt⟩ := offset_of_getLeafAddress h haddr
  have hsyn := b.synRegionOffset_spec.2.2
  have hdsm : dsmSize < 2 ^ 48 := by decide
  have hsum : (b.lockAddress addr).offset.toNat = addr.offset.toNat + b.lockOffset := by
    simp only [lockAddress, BitVec.toNat_add, BitVec.toNat_ofNat]
    omega
  have hmul : leafIdx * b.leafStride % 8 = 0 := by
    rw [Nat.mul_mod, hstride, Nat.mul_zero, Nat.zero_mod]
  have hstart : kLeafRegionStartOffset % 8 = 0 := by decide
  rw [hsum]
  refine ⟨by omega, by omega, ?_⟩
  apply region_subset
  . rfl
  . omega
  . omega

end Leaf

end LeafBuild

end Rolex

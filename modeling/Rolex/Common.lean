import Mathlib.Algebra.Group.Int.Defs
import Mathlib.Algebra.GroupWithZero.Nat
import Mathlib.Data.List.Lex
import Mathlib.Data.Set.BooleanAlgebra
import Mathlib.Order.CompletePartialOrder
import Mathlib.Order.Lattice

/-!
This module contains the constants of `Common.h` for the plain (not hopscotch) leaf layout and the
basic value types: keys, values and global addresses.
-/

namespace Rolex

/-- `ROUND_UP(x, n)`: the least multiple of `2 ^ n` that is at least `x`. -/
def roundUp (x n : Nat) : Nat := (x + 2 ^ n - 1) / 2 ^ n * 2 ^ n

/-- `ADD_CACHELINE_VERSION_SIZE(x, cvs)`. -/
def addCachelineVersionSize (x cvs : Nat) : Nat :=
  x + (x / (64 - cvs) + (if x % (64 - cvs) = 0 then 0 else 1)) * cvs

def memoryNodeNum : Nat := 1
def cachelineAlignBit : Nat := 6

def keyLen : Nat := 8
def inlineValLen : Nat := 8

def kChunkSize : Nat := 16 * 1024 * 1024
def dsmSize : Nat := 64 * 1024 * 1024 * 1024
def leafSpanSize : Nat := 16
def epsilon : Nat := 16
def neighborSize : Nat := 8

theorem leafSpanSize_eq : leafSpanSize = 16 := rfl

theorem neighborSize_eq : neighborSize = 8 := rfl

def kLeafRegionStartOffset : Nat := kChunkSize / 2

def versionSize : Nat := 1
def cachelineSize : Nat := 64
def blockSize : Nat := cachelineSize - versionSize

def leafMetadataSize : Nat := versionSize + 8
def leafEntrySize : Nat := versionSize + keyLen + inlineValLen

def decodedLeafSize : Nat := leafMetadataSize + leafEntrySize * leafSpanSize

def allocationLockSize : Nat := 16

def leafNumMax : Nat := 1200000000 / leafSpanSize

/-- `std::array<uint8_t, keyLen>`, the most significant byte first. -/
structure Key where
  bytes : Vector UInt8 keyLen
  deriving DecidableEq

namespace Key

/-- The bytes as naturals, in the order in which `std::array` compares them. -/
def toNats (k : Key) : List Nat := k.bytes.toList.map UInt8.toNat

theorem toNats_injective : Function.Injective toNats := by
  intro a b h
  rcases a with ⟨a⟩
  rcases b with ⟨b⟩
  have hinj : Function.Injective UInt8.toNat := fun _ _ => UInt8.toNat.inj
  have hlist : a.toList = b.toList := List.map_injective_iff.mpr hinj h
  rw [Vector.toList_inj.mp hlist]

/-- `operator<` of `std::array`: lexicographic. -/
instance : LinearOrder Key := LinearOrder.lift' toNats toNats_injective

end Key

def kkeyNull : Key := ⟨Vector.replicate keyLen 0⟩

/-- `key2int128` (and `key2int`, which agrees with it on 8 byte keys). -/
def key2int (k : Key) : Nat := k.bytes.toList.foldl (fun res a => res * 2 ^ 8 + a.toNat) 0

/-- The byte loop of `int2key`, for `key` other than zero. -/
def int2key (key : Nat) : Key :=
  ⟨Vector.ofFn fun i => UInt8.ofNat (key / 2 ^ ((keyLen - (i.val + 1)) * 8) % 2 ^ 8)⟩

abbrev Value := UInt64

def kValueNull : Value := 0

structure GlobalAddress where
  nodeID : BitVec 16
  offset : BitVec 48
  deriving DecidableEq, Repr

namespace GlobalAddress

def null : GlobalAddress := ⟨0, 0⟩

def max : GlobalAddress := ⟨BitVec.ofNat 16 memoryNodeNum, 0⟩

def of (nodeID offset : Nat) : GlobalAddress := ⟨BitVec.ofNat 16 nodeID, BitVec.ofNat 48 offset⟩

end GlobalAddress

end Rolex

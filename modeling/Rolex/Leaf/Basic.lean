import Rolex.Common

/-!
This module contains the leaf nodes of the plain layout (`Metadata.h`, `LeafNode.h`) and the array
accesses that the index makes to their records.
-/

namespace Rolex

structure PackedVersion where
  nodeVersion : BitVec 4
  entryVersion : BitVec 4
  deriving DecidableEq

structure LeafMetadata where
  hVersion : PackedVersion
  synonymPtr : GlobalAddress
  deriving DecidableEq

structure LeafEntry where
  hVersion : PackedVersion
  key : Key
  value : Value
  deriving DecidableEq

/-- `LeafEntry::Null()`, what a zeroed record reads as. -/
def LeafEntry.null : LeafEntry := ⟨⟨0, 0⟩, kkeyNull, kValueNull⟩

def LeafEntry.update (e : LeafEntry) (k : Key) (v : Value) : LeafEntry :=
  { e with key := k, value := v }

abbrev Records := Vector LeafEntry leafSpanSize

namespace Records

/-- Read `records[i]`. The code never reads behind the array, where this yields a null record. -/
def get (r : Records) (i : Nat) : LeafEntry := r[i]?.getD LeafEntry.null

/--
Assign `records[i]`. Behind the array the bytes of the leaf buffer change instead, which are not part
of the node.
-/
def put (r : Records) (i : Nat) (e : LeafEntry) : Records := r.setIfInBounds i e

def update (r : Records) (i : Nat) (k : Key) (v : Value) : Records :=
  r.put i ((r.get i).update k v)

@[simp]
theorem get_of_le (r : Records) {i : Nat} (h : leafSpanSize ≤ i) : r.get i = LeafEntry.null := by
  simp [get, h]

theorem get_eq_getElem (r : Records) {i : Nat} (h : i < leafSpanSize) : r.get i = r[i] := by
  simp [get, h]

theorem get_put (r : Records) (i j : Nat) (e : LeafEntry)
    : (r.put i e).get j = if i = j ∧ j < leafSpanSize then e else r.get j := by
  unfold get put
  by_cases hj : j < leafSpanSize
  . by_cases hij : i = j
    . simp [hij, hj]
    . simp [hij, hj]
  . simp [hj]

theorem ext_get {r s : Records} (h : ∀ i, i < leafSpanSize → r.get i = s.get i) : r = s := by
  apply Vector.ext
  intro i hi
  have := h i hi
  rwa [get_eq_getElem r hi, get_eq_getElem s hi] at this

end Records

structure LeafNode where
  metadata : LeafMetadata
  records : Records
  deriving DecidableEq

namespace LeafNode

/-- The node that zeroed memory holds, and that `new (syn_buffer) LeafNode` constructs. -/
def zero : LeafNode := ⟨⟨⟨0, 0⟩, GlobalAddress.null⟩, Vector.replicate leafSpanSize LeafEntry.null⟩

/--
The node that `VersionManager::encode_node_versions` leaves behind and whose image it writes: all node
versions are the one of record 0, incremented.
-/
def bumpNodeVersions (n : LeafNode) : LeafNode :=
  let nodeVersion := (n.records.get 0).hVersion.nodeVersion + 1
  { metadata := { n.metadata with hVersion := { n.metadata.hVersion with nodeVersion } }
    records := n.records.map fun e => { e with hVersion := { e.hVersion with nodeVersion } } }

@[simp]
theorem zero_synonymPtr : zero.metadata.synonymPtr = GlobalAddress.null := rfl

@[simp]
theorem zero_get (i : Nat) : zero.records.get i = LeafEntry.null := by
  by_cases h : i < leafSpanSize
  . rw [Records.get_eq_getElem _ h]
    simp [zero]
  . exact Records.get_of_le _ (by omega)

@[simp]
theorem bumpNodeVersions_synonymPtr (n : LeafNode)
    : n.bumpNodeVersions.metadata.synonymPtr = n.metadata.synonymPtr := rfl

@[simp]
theorem bumpNodeVersions_key (n : LeafNode) (i : Nat)
    : (n.bumpNodeVersions.records.get i).key = (n.records.get i).key := by
  by_cases h : i < leafSpanSize
  . simp [Records.get_eq_getElem _ h, bumpNodeVersions]
  . simp [Records.get_of_le _ (show leafSpanSize ≤ i by omega)]

@[simp]
theorem bumpNodeVersions_value (n : LeafNode) (i : Nat)
    : (n.bumpNodeVersions.records.get i).value = (n.records.get i).value := by
  by_cases h : i < leafSpanSize
  . simp [Records.get_eq_getElem _ h, bumpNodeVersions]
  . simp [Records.get_of_le _ (show leafSpanSize ≤ i by omega)]

end LeafNode

end Rolex

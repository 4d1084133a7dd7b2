import Mathlib.Algebra.Group.Fin.Basic
import Mathlib.Data.List.Sort
import Rolex.Leaf.Basic

/-!
This module contains the leaf nodes of the `HOPSCOTCH_LEAF_NODE` build and the functions of
`Rolex.cpp` that hop, insert, split, update and search in one node. A failing `assert` is an error.
-/

namespace Rolex

/-- `LeafEntry` with `HOPSCOTCH_LEAF_NODE`; `hopPadding` is the byte behind the bits of `hop_bitmap`. -/
structure HopEntry where
  hVersion : PackedVersion
  hopBitmap : BitVec neighborSize
  hopPadding : BitVec 8
  key : Key
  value : Value
  deriving DecidableEq

inductive Assertion where
  | setHopBit
  | unsetHopBit
  | hopHome
  | emptySlot
  | hopFails
  | criticalKeys
  | bucket
  deriving DecidableEq, Repr

namespace HopEntry

def null : HopEntry := ⟨⟨0, 0⟩, 0, 0, kkeyNull, kValueNull⟩

def update (e : HopEntry) (k : Key) (v : Value) : HopEntry :=
  { e with key := k, value := v }

/-- `hop_bitmap & (1ULL << (neighborSize - idx - 1))`. -/
def hopBit (e : HopEntry) (idx : Nat) : Bool := e.hopBitmap.getLsbD (neighborSize - idx - 1)

def setHopBit (e : HopEntry) (idx : Int) : Except Assertion HopEntry :=
  if 0 ≤ idx ∧ idx < neighborSize ∧ e.hopBit idx.toNat = false then
    .ok { e with
      hopBitmap := e.hopBitmap ||| BitVec.twoPow neighborSize (neighborSize - idx.toNat - 1) }
  else
    .error .setHopBit

def unsetHopBit (e : HopEntry) (idx : Int) : Except Assertion HopEntry :=
  if 0 ≤ idx ∧ idx < neighborSize ∧ e.hopBit idx.toNat = true then
    .ok { e with
      hopBitmap := e.hopBitmap &&& ~~~ BitVec.twoPow neighborSize (neighborSize - idx.toNat - 1) }
  else
    .error .unsetHopBit

end HopEntry

instance : NeZero leafSpanSize := ⟨by decide⟩

/-- `(logical_idx + leafSpanSize) % leafSpanSize`. -/
def slot (logicalIdx : Int) : Fin leafSpanSize :=
  ⟨(logicalIdx % leafSpanSize).toNat, by
    have h := Int.emod_lt_of_pos logicalIdx (show (0 : Int) < leafSpanSize by decide)
    have h' := Int.emod_nonneg logicalIdx (show (leafSpanSize : Int) ≠ 0 by decide)
    omega⟩

abbrev HopRecords := Vector HopEntry leafSpanSize

namespace HopRecords

/-- The records that `new (buffer) LeafNode` constructs. -/
def zero : HopRecords := Vector.replicate leafSpanSize HopEntry.null

def getEntry (r : HopRecords) (logicalIdx : Int) : HopEntry := r.get (slot logicalIdx)

def setEntry (r : HopRecords) (logicalIdx : Int) (e : HopEntry) : HopRecords :=
  r.set (slot logicalIdx).val e (slot logicalIdx).isLt

end HopRecords

structure HopNode where
  metadata : LeafMetadata
  records : HopRecords
  deriving DecidableEq

def HopNode.zero : HopNode := ⟨⟨⟨0, 0⟩, GlobalAddress.null⟩, HopRecords.zero⟩

/-- What `encode_node_versions` makes of the node that it writes. -/
def HopNode.bumpNodeVersions (n : HopNode) : HopNode :=
  let nodeVersion := (n.records.get 0).hVersion.nodeVersion + 1
  { metadata := { n.metadata with hVersion := { n.metadata.hVersion with nodeVersion } }
    records := n.records.map fun e => { e with hVersion := { e.hVersion with nodeVersion } } }

section Hash

-- `get_hashed_leaf_entry_index`
variable (hash : Key → Fin leafSpanSize)

/-- The first empty slot among the `entryNum` ones from `hashIdx` on. -/
def findEmpty (r : HopRecords) (hashIdx : Int) (entryNum : Nat) : Option Int :=
  ((List.range entryNum).find? fun i : Nat => (r.getEntry (hashIdx + i)).key = kkeyNull).map
    fun i : Nat => hashIdx + i

/-- `h_hash_idx`, with the corner cases of the ring. -/
def hHashIdx (r : HopRecords) (h : Int) : Int :=
  let hHashIdx : Int := (hash (r.getEntry h).key).val
  if h - hHashIdx < 0 then
    hHashIdx - leafSpanSize
  else if h - hHashIdx ≥ neighborSize then
    hHashIdx + leafSpanSize
  else
    hHashIdx

/-- The loop over `offset`: the record farthest from `j` that may hop to it. -/
def findHop (r : HopRecords) (j : Int) : Nat → Option Int
  | 0 => none
  | offset + 1 =>
    if hHashIdx hash r (j - (offset + 1 : Nat)) + neighborSize > j then
      some (j - (offset + 1 : Nat))
    else
      findHop r j offset

/-- `assert(h_hash_idx <= h)` for all records that the loop over `offset` looks at. -/
def homesBehind (r : HopRecords) (j : Int) : Nat → Bool
  | 0 => true
  | offset + 1 =>
    decide (hHashIdx hash r (j - (offset + 1 : Nat)) ≤ j - (offset + 1 : Nat))
      && (decide (hHashIdx hash r (j - (offset + 1 : Nat)) + neighborSize > j)
        || homesBehind r j offset)

def hop (r : HopRecords) (h j : Int) : Except Assertion HopRecords := do
  let home := hHashIdx hash r h
  let r := r.setEntry j ((r.getEntry j).update (r.getEntry h).key (r.getEntry h).value)
  let r := r.setEntry home (← (r.getEntry home).unsetHopBit (h - home))
  return r.setEntry home (← (r.getEntry home).setHopBit (j - home))

def place (r : HopRecords) (k : Key) (v : Value) (j : Int) : Except Assertion HopRecords := do
  let hashIdx : Int := (hash k).val
  let r := r.setEntry j ((r.getEntry j).update k v)
  return r.setEntry hashIdx (← (r.getEntry hashIdx).setHopBit (j - hashIdx))

/--
`next_hop`, with the indices it has hopped to; `none` when the hop fails. Every hop brings `j` nearer
to the home of `k`, so `leafSpanSize` rounds are enough. Only `hopscotch_insert_and_unlock` has the
assertion on homes.
-/
def nextHop (assertHome : Bool) (k : Key) (v : Value) (r : HopRecords) (j : Int)
    (hoppedIdxes : List Nat)
    : Nat → Except Assertion (Option (HopRecords × List Nat))
  | 0 => .ok none
  | fuel + 1 =>
    let hoppedIdxes := hoppedIdxes ++ [(slot j).val]
    if j < (hash k).val + neighborSize then do
      return some (← place hash r k v j, hoppedIdxes)
    else if assertHome && !homesBehind hash r j (neighborSize - 1) then
      .error .hopHome
    else
      match findHop hash r j (neighborSize - 1) with
      | none => .ok none
      | some h => do nextHop assertHome k v (← hop hash r h j) h hoppedIdxes fuel

/-- What `hopscotch_insert_and_unlock` hands to `segment_write_and_unlock`. -/
structure Hopped where
  records : HopRecords
  emptyIdx : Int
  hoppedIdxes : List Nat
  deriving DecidableEq

/-- `hopscotch_insert_and_unlock` without the write, `none` when it returns false. -/
def hopscotchInsert (r : HopRecords) (k : Key) (v : Value) (entryNum : Nat)
    : Except Assertion (Option Hopped) :=
  match findEmpty r (hash k).val entryNum with
  | none => .ok none
  | some emptyIdx => do
    match ← nextHop hash true k v r emptyIdx [] leafSpanSize with
    | none => return none
    | some (r, hoppedIdxes) => return some ⟨r, emptyIdx, hoppedIdxes⟩

def hopscotchInsertLocally (r : HopRecords) (k : Key) (v : Value) : Except Assertion HopRecords :=
  match findEmpty r (hash k).val leafSpanSize with
  | none => .error .emptySlot
  | some j => do
    match ← nextHop hash false k v r j [] leafSpanSize with
    | none => .error .hopFails
    | some (r, _) => return r

/-- The trial of `hopscotch_get_split_key`: would an empty slot `j` hop into the neighborhood. -/
def hopReaches (r : HopRecords) (hashIdx j : Int) : Nat → Bool
  | 0 => false
  | fuel + 1 =>
    if j < hashIdx + neighborSize then
      true
    else
      match findHop hash r j (neighborSize - 1) with
      | none => false
      | some h => hopReaches r hashIdx h fuel

def criticalIdxes (r : HopRecords) (hashIdx : Int) : List Int :=
  (((List.range leafSpanSize).map fun i : Nat => hashIdx + i).takeWhile fun i =>
    (r.getEntry i).key ≠ kkeyNull).filter fun i => hopReaches hash r hashIdx i leafSpanSize

def criticalKeys (r : HopRecords) (hashIdx : Int) : List Key :=
  (criticalIdxes hash r hashIdx).map fun i => (r.getEntry i).key

def hopscotchGetSplitKey (r : HopRecords) (k : Key) : Except Assertion Key :=
  let criticalKeys := criticalKeys hash r (hash k).val
  if criticalKeys = [] then
    .error .criticalKeys
  else
    let criticalKeys := (criticalKeys ++ [k]).insertionSort (· ≤ ·)
    .ok (criticalKeys.getD (criticalKeys.length / 2) kkeyNull)

/-- One round of the loop that moves records to the synonym leaf. -/
def moveEntry (splitKey : Key) (nodes : HopRecords × HopRecords) (i : Fin leafSpanSize)
    : Except Assertion (HopRecords × HopRecords) :=
  let (records, synRecords) := nodes
  let oldE := records.get i
  if oldE.key ≠ kkeyNull ∧ splitKey ≤ oldE.key then do
    let hashIdx := hash oldE.key
    let synRecords := synRecords.set i ((synRecords.get i).update oldE.key oldE.value) i.isLt
    let records := records.set i (oldE.update kkeyNull kValueNull) i.isLt
    let offset : Int := if hashIdx ≤ i then i.val - hashIdx.val else i.val + leafSpanSize - hashIdx.val
    let synRecords := synRecords.set hashIdx (← (synRecords.get hashIdx).setHopBit offset) hashIdx.isLt
    let records := records.set hashIdx (← (records.get hashIdx).unsetHopBit offset) hashIdx.isLt
    return (records, synRecords)
  else
    .ok nodes

def moveEntries (splitKey : Key) (r : HopRecords) : Except Assertion (HopRecords × HopRecords) :=
  (List.finRange leafSpanSize).foldlM (moveEntry hash splitKey) (r, HopRecords.zero)

/-- `hopscotch_split_and_unlock` without the writes: the leaf and its new synonym leaf. -/
def hopscotchSplit (leaf : HopNode) (k : Key) (v : Value) (synonymAddr : GlobalAddress)
    : Except Assertion (HopNode × HopNode) := do
  let splitKey ← hopscotchGetSplitKey hash leaf.records k
  let (records, synRecords) ← moveEntries hash splitKey leaf.records
  let (records, synRecords) ←
    if k < splitKey then do
      pure (← hopscotchInsertLocally hash records k v, synRecords)
    else do
      pure (records, ← hopscotchInsertLocally hash synRecords k v)
  return (⟨{ leaf.metadata with synonymPtr := synonymAddr }, records⟩,
    { HopNode.zero with records := synRecords })

inductive ScanResult where
  | found (kvIdx : Fin leafSpanSize) (v : Value)
  | reRead
  | absent
  deriving DecidableEq

/-- Step 3 of `_search` on one fetched node. -/
def scanNode (r : HopRecords) (k : Key) : ScanResult :=
  go neighborSize 0
where
  go : Nat → BitVec neighborSize → ScanResult
    | 0, hopBitmap => if hopBitmap ≠ (r.get (hash k)).hopBitmap then .reRead else .absent
    | n + 1, hopBitmap =>
      let j := neighborSize - (n + 1)
      let e := r.getEntry ((hash k).val + j)
      if e.key ≠ kkeyNull ∧ hash e.key = hash k then
        if e.key = k then
          .found (slot ((hash k).val + j)) e.value
        else
          go n (hopBitmap ||| BitVec.twoPow neighborSize (neighborSize - j - 1))
      else
        go n hopBitmap

/-- Step 3 of `_search` on all fetched nodes, up to the first that has the key or is inconsistent. -/
def searchNodes (k : Key) : List HopRecords → ScanResult
  | [] => .absent
  | r :: rs =>
    match scanNode hash r k with
    | .absent => searchNodes k rs
    | res => res

end Hash

/-- The indices of the cyclic segment from `lIdx` to `rIdx`. -/
def InSegment (lIdx rIdx p : Nat) : Prop :=
  if lIdx ≤ rIdx then lIdx ≤ p ∧ p ≤ rIdx else p ≤ rIdx ∨ lIdx ≤ p

instance (lIdx rIdx p : Nat) : Decidable (InSegment lIdx rIdx p) := by
  unfold InSegment
  infer_instance

/-- `++ entry_version`, `n` times. -/
def HopEntry.bumpEntryVersion (e : HopEntry) (n : Nat) : HopEntry :=
  { e with hVersion := { e.hVersion with
      entryVersion := e.hVersion.entryVersion + BitVec.ofNat 4 n } }

/--
What `segment_write_and_unlock` makes of the records of a node in remote memory when it is given the
records `r`, which need not have been fetched outside of the segment.
-/
def segmentWrite (remote r : HopRecords) (lIdx rIdx : Nat) (hoppedIdxes : List Nat) : HopRecords :=
  Vector.ofFn fun p =>
    if InSegment lIdx rIdx p then
      (r.get p).bumpEntryVersion (hoppedIdxes.count p.val)
    else
      remote.get p

end Rolex

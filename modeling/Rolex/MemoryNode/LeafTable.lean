import Rolex.Lib.Threaded
import Rolex.MemoryNode.Leaf

/-!
This module contains the table of leaves of the memory node API (`leaf_table.hpp`) over the allocator of
preallocated leaves (`leaf_allocator.hpp`): search, update, insert and remove with the synonym leaves that
are chained to the leaves of the table.
-/

namespace Rolex

namespace MemoryNode

def kSynonymMax : Nat := 128

/--
`TableEntry` without the bits that are not used here: `leaf_region` is 0, and the locks are free between the
calls of one thread. A leaf number is less than the number of leaves in memory, so 48 bits hold it.
-/
structure TableEntry where
  synonymLeaf : Nat
  leafNum : Nat
  deriving DecidableEq

/-- `LeafAllocator`: the preallocated leaves and how many of them have been handed out. -/
structure LeafAllocator (N : Nat) (K V : Type) where
  leaves : Nat → Leaf N K V
  usedNum : Nat
  allocatedNum : Nat

/-- `LeafTable` with the allocator that its functions are given. -/
structure LeafTable (N : Nat) (K V : Type) where
  table : List TableEntry
  synonymTable : Nat → TableEntry
  alloc : LeafAllocator N K V

/-- Where a leaf is noted: the argument `in_table` of `synonym_emplace_back` with the index. -/
inductive Place where
  | table (i : Nat)
  | synonym (s : Nat)
  deriving DecidableEq

namespace LeafAllocator

variable {N : Nat} {K V : Type}

/-- `get_leaf`; `none` is the failed assertion. -/
def getLeaf (a : LeafAllocator N K V) (num : Nat) : Option (Leaf N K V) :=
  if num ≤ a.usedNum then some (a.leaves num) else none

def fetchNewLeaf (a : LeafAllocator N K V) : Option (Nat × LeafAllocator N K V) :=
  if a.usedNum < a.allocatedNum then some (a.usedNum, { a with usedNum := a.usedNum + 1 }) else none

def setLeaf (a : LeafAllocator N K V) (num : Nat) (leaf : Leaf N K V) : LeafAllocator N K V :=
  { a with leaves := Function.update a.leaves num leaf }

end LeafAllocator

namespace LeafTable

variable {N : Nat} [NeZero N] {K V : Type} [LinearOrder K] [OrderTop K]

/-- `LeafTable()`; the other entries of `SynonymTable` are not set. -/
def new (synonymTable : Nat → TableEntry) (alloc : LeafAllocator N K V) : LeafTable N K V where
  table := []
  synonymTable := Function.update synonymTable 0 { synonymTable 0 with leafNum := 1 }
  alloc := alloc

/-- `SynonymTable[0].leaf_num`, the next index of the synonym table. -/
def synonymNum (t : LeafTable N K V) : Nat := (t.synonymTable 0).leafNum

def entry (t : LeafTable N K V) : Place → Option TableEntry
  | .table i => t.table[i]?
  | .synonym s => if s < kSynonymMax then some (t.synonymTable s) else none

def getLeaf (t : LeafTable N K V) (p : Place) : Option (Leaf N K V) := do
  let te ← t.entry p
  t.alloc.getLeaf te.leafNum

def setLeaf (t : LeafTable N K V) (num : Nat) (leaf : Leaf N K V) : LeafTable N K V :=
  { t with alloc := t.alloc.setLeaf num leaf }

def setSynonym (t : LeafTable N K V) (s : Nat) (te : TableEntry) : LeafTable N K V :=
  { t with synonymTable := Function.update t.synonymTable s te }

/-- Set the field `synonym_leaf` of 8 bits. -/
def setLink (t : LeafTable N K V) (p : Place) (s : Nat) : LeafTable N K V :=
  match p with
  | .table i => { t with table := t.table.modify i fun te => { te with synonymLeaf := s % 2 ^ 8 } }
  | .synonym i => t.setSynonym i { t.synonymTable i with synonymLeaf := s % 2 ^ 8 }

/-- `train_emplace_back` without a synonym leaf. -/
def trainEmplaceBack (t : LeafTable N K V) (leafNum : Nat) : LeafTable N K V :=
  { t with table := t.table ++ [⟨0, leafNum⟩] }

/-- `fetch_new_leaf`, `train_emplace_back` and an `insert_not_full` for each pair, as in training. -/
def train (t : LeafTable N K V) (entries : List (K × V)) : Option (LeafTable N K V) := do
  let (num, alloc) ← t.alloc.fetchNewLeaf
  let leaf ← entries.foldlM (fun leaf e => leaf.insertNotFull e.1 e.2) (alloc.leaves num)
  return { t.trainEmplaceBack num with alloc := alloc.setLeaf num leaf }

def synonymEmplaceBack (t : LeafTable N K V) (p : Place) (leafNum : Nat) : Option (LeafTable N K V) :=
  if t.synonymNum = kSynonymMax - 1 then
    some t
  else do
    let idx := t.synonymNum
    let t := t.setSynonym 0 { t.synonymTable 0 with leafNum := idx + 1 }
    let te ← t.entry p
    let t := t.setLink p idx
    return t.setSynonym idx ⟨te.synonymLeaf, leafNum⟩

/--
The loop `while(s_idx != 0)` over the links from an index on. There are `kSynonymMax` of them, so a loop
that is longer does not end.
-/
def follow (t : LeafTable N K V) : Nat → Nat → Option (List Nat)
  | _, 0 => some []
  | 0, _ + 1 => none
  | fuel + 1, s + 1 =>
    if s + 1 < kSynonymMax then do
      let rest ← t.follow fuel (t.synonymTable (s + 1)).synonymLeaf
      return (s + 1) :: rest
    else
      none

/-- `s_leaves` of a slot of the table. -/
def sLeaves (t : LeafTable N K V) (lIdx : Nat) : Option (List Nat) := do
  let te ← t.table[lIdx]?
  t.follow kSynonymMax te.synonymLeaf

/-- The loop from the back over `s_leaves` for the leaf that takes a key: its position, if there is one. -/
def lastHere (t : LeafTable N K V) (key : K) (sLeaves : List Nat) : Nat → Option (Option Nat)
  | 0 => some none
  | i + 1 => do
    let s ← sLeaves[i]?
    let leaf ← t.getLeaf (.synonym s)
    if leaf.insertHere key then
      return some i
    else
      t.lastHere key sLeaves i

/-- `cur`, where `idx` is a position of `s_leaves` or none for the leaf of the table. -/
def curPlace (lIdx : Nat) (sLeaves : List Nat) : Option Nat → Option Place
  | none => some (.table lIdx)
  | some i => sLeaves[i]?.map .synonym

/-- The common part of `insert_synonym`, `update_synonym` and `remove_synonym`. -/
def findCur (t : LeafTable N K V) (key : K) (lIdx : Nat) : Option (List Nat × Option Nat × Place) := do
  let sLeaves ← t.sLeaves lIdx
  let idx ← t.lastHere key sLeaves sLeaves.length
  let p ← curPlace lIdx sLeaves idx
  return (sLeaves, idx, p)

/-- The loop from `hi` down to `lo` for the slot of a key. -/
def findSlot (t : LeafTable N K V) (key : K) (lo : Nat) : Nat → Option Nat
  | 0 => do
    let _ ← t.getLeaf (.table lo)
    return lo
  | d + 1 => do
    let leaf ← t.getLeaf (.table (lo + d + 1))
    if leaf.insertHere key then
      return lo + d + 1
    else
      t.findSlot key lo d

/-- The loop of `search_synonym` from the back. -/
def searchBack (t : LeafTable N K V) (key : K) (sLeaves : List Nat) : Nat → Option (Option V)
  | 0 => some none
  | i + 1 => do
    let s ← sLeaves[i]?
    let leaf ← t.getLeaf (.synonym s)
    match leaf.search key with
    | some v => return some v
    | none => t.searchBack key sLeaves i

def searchSynonym (t : LeafTable N K V) (key : K) (lIdx : Nat) : Option (Option V) := do
  let sLeaves ← t.sLeaves lIdx
  t.searchBack key sLeaves sLeaves.length

def search (t : LeafTable N K V) (key : K) (lo hi : Nat) : Option (Option V) :=
  if hi < t.table.length then do
    let i ← t.findSlot key lo (hi - lo)
    let leaf ← t.getLeaf (.table i)
    match leaf.search key with
    | some v => return some v
    | none => t.searchSynonym key i
  else
    none

def updateSynonym (t : LeafTable N K V) (key : K) (val : V) (lIdx : Nat) : Option (Bool × LeafTable N K V) := do
  let (_, _, p) ← t.findCur key lIdx
  let te ← t.entry p
  let cur ← t.alloc.getLeaf te.leafNum
  let (res, cur) := cur.update key val
  return (res, t.setLeaf te.leafNum cur)

def update (t : LeafTable N K V) (key : K) (val : V) (lo hi : Nat) : Option (Bool × LeafTable N K V) :=
  if hi < t.table.length then do
    let i ← t.findSlot key lo (hi - lo)
    t.updateSynonym key val i
  else
    none

/-- The end of `insert_synonym` for a full leaf: half of its pairs move to a new leaf behind it. -/
def insertSplit (t : LeafTable N K V) (key : K) (val : V) (p : Place) (curNum : Nat) (cur : Leaf N K V)
    : Option (LeafTable N K V) := do
  let (num, alloc) ← t.alloc.fetchNewLeaf
  let t ← { t with alloc := alloc }.synonymEmplaceBack p num
  let (cur, nLeaf) := cur.moveHalf (alloc.leaves num)
  if nLeaf.insertHere key then
    let nLeaf ← nLeaf.insertNotFull key val
    return (t.setLeaf curNum cur).setLeaf num nLeaf
  else
    let cur ← cur.insertNotFull key val
    return (t.setLeaf curNum cur).setLeaf num nLeaf

def insertSynonym (t : LeafTable N K V) (key : K) (val : V) (lIdx : Nat) : Option (Bool × LeafTable N K V) :=
  if t.synonymNum = kSynonymMax - 1 then
    some (false, t)
  else do
    let (_, _, p) ← t.findCur key lIdx
    let te ← t.entry p
    let cur ← t.alloc.getLeaf te.leafNum
    if cur.contain key then
      return (false, t)
    else if cur.isfull then
      -- the second test for a full synonym table is the first one again
      let t ← t.insertSplit key val p te.leafNum cur
      return (true, t)
    else
      let cur ← cur.insertNotFull key val
      return (true, t.setLeaf te.leafNum cur)

def insert (t : LeafTable N K V) (key : K) (val : V) (lo hi : Nat) : Option (Bool × LeafTable N K V) :=
  if hi < t.table.length ∧ lo ≤ hi then do
    let i ← t.findSlot key lo (hi - lo)
    t.insertSynonym key val i
  else
    none

def synonymTableRemove (t : LeafTable N K V) (sLeaves : List Nat) (lIdx idx : Nat) : Option (LeafTable N K V) := do
  let s ← sLeaves[idx]?
  let p ← curPlace lIdx sLeaves (if idx = 0 then none else some (idx - 1))
  return t.setLink p (t.synonymTable s).synonymLeaf

def removeSynonym (t : LeafTable N K V) (key : K) (lIdx : Nat) : Option (Bool × LeafTable N K V) := do
  let (sLeaves, idx, p) ← t.findCur key lIdx
  let te ← t.entry p
  let cur ← t.alloc.getLeaf te.leafNum
  let (res, cur) ← cur.remove key
  let t := t.setLeaf te.leafNum cur
  match idx with
  | some i =>
    if cur.isEmpty then
      let t ← t.synonymTableRemove sLeaves lIdx i
      return (res, t)
    else
      return (res, t)
  | none => return (res, t)

def remove (t : LeafTable N K V) (key : K) (lo hi : Nat) : Option (Bool × LeafTable N K V) :=
  if hi < t.table.length then do
    let i ← t.findSlot key lo (hi - lo)
    t.removeSynonym key i
  else
    none

end LeafTable

end MemoryNode

end Rolex

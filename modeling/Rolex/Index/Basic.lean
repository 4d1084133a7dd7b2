import Rolex.Lib.Prog
import Rolex.Dsm.Cluster
import Rolex.Leaf.Group

/-!
This module contains the index of the default build (`Rolex.cpp`): the remote memory with the
operations that clients issue on it, and `insert`, `update` and `search` as programs of them.
-/

namespace Rolex

inductive Op where
  /-- `DSM::cas_mask` on the lock word of the leaf at `addr`. -/
  | casMask (addr : GlobalAddress) (equal val compareMask swapMask : BitVec 64)
  /-- READ the node at `addr`. -/
  | read (addr : GlobalAddress)
  /-- WRITE the node at `addr`. -/
  | write (addr : GlobalAddress) (leaf : LeafNode)
  /-- WRITE the lock word of the leaf at `addr`. -/
  | writeLock (addr : GlobalAddress) (lockWord : BitVec 64)
  /-- `DSM::alloc`. -/
  | alloc (size : Nat)

/-- `DSM::alloc` of a synonym leaf. -/
abbrev Op.allocLeaf : Op := .alloc LeafBuild.plain.allocationLeafSize

@[reducible]
def Op.Res : Op → Type
  | .casMask .. => BitVec 64
  | .read _ => LeafNode
  | .write .. => Unit
  | .writeLock .. => Unit
  | .alloc _ => Option GlobalAddress

/-- The memory node, nodes and lock words by the address of the node, and the allocators. -/
structure Mem (ι : Type) where
  node : GlobalAddress → LeafNode
  lock : GlobalAddress → BitVec 64
  dsm : Cluster ι

namespace Mem

variable {ι : Type}

/-- Zeroed memory from which nothing has been allocated. With one memory node the threads start alike. -/
def init : Mem ι := ⟨fun _ => LeafNode.zero, fun _ => 0, .init .plain fun _ => 0⟩

def ptr (m : Mem ι) (a : GlobalAddress) : GlobalAddress := (m.node a).metadata.synonymPtr

def group (m : Mem ι) (a : GlobalAddress) : Group where
  leaf := m.node a
  syn := if m.ptr a = GlobalAddress.null then none else some (m.node (m.ptr a))

def setNode (m : Mem ι) (a : GlobalAddress) (n : LeafNode) : Mem ι :=
  { m with node := Function.update m.node a n }

def setLock (m : Mem ι) (a : GlobalAddress) (w : BitVec 64) : Mem ι :=
  { m with lock := Function.update m.lock a w }

end Mem

def exec {ι : Type} [DecidableEq ι] (i : ι) : (o : Op) → Mem ι → o.Res × Mem ι
  | .casMask a equal val compareMask swapMask, m =>
    let old := m.lock a
    if equal &&& compareMask = old &&& compareMask then
      (old, m.setLock a ((old &&& ~~~swapMask) ||| (val &&& swapMask)))
    else
      (old, m)
  | .read a, m => (m.node a, m)
  | .write a n, m => ((), m.setNode a n)
  | .writeLock a w, m => ((), m.setLock a w)
  | .alloc size, m =>
    let res := m.dsm.allocSync i size cachelineAlignBit (-1)
    (res.map Prod.fst, { m with dsm := (res.map Prod.snd).getD m.dsm })

/--
The part of `RolexCache` that the index uses, `none` where an assertion of it fails. An insert is
routed to a leaf of the range that a search reads.
-/
structure Cache where
  searchFromCache : Key → Option (Nat × Nat)
  searchFromCacheForInsert : Key → Option (Nat × Nat × Nat)
  routed : ∀ {k l r insertIdx}, searchFromCacheForInsert k = some (l, r, insertIdx) →
    searchFromCache k = some (l, r) ∧ l ≤ insertIdx ∧ insertIdx ≤ r

abbrev ProgM := Prog Op Op.Res

/-- The bit of the lock word that says whether the leaf is locked. -/
def lockBit : BitVec 64 := 1 <<< 63

/-- `lock_node`, which gives up after `attempts` failures. The result is the lock word it fetched. -/
def lockNode.acquire (nodeAddr : GlobalAddress) (attempts : Nat) : ProgM (BitVec 64) :=
  match attempts with
  | 0 => .fail
  | attempts + 1 => do
    let old ← .call (Op.casMask nodeAddr 0 (~~~0) lockBit (~~~0))
    if 0 &&& lockBit = old &&& lockBit then
      return old
    else
      acquire nodeAddr attempts

def lockNode (nodeAddr : GlobalAddress) : ProgM (BitVec 64) :=
  lockNode.acquire nodeAddr 10000002

def unlockNode (nodeAddr : GlobalAddress) (lockBuffer : BitVec 64) : ProgM Unit :=
  .call (Op.writeLock nodeAddr lockBuffer)

/--
`fetch_node`. The image was written as a whole, so it passes `decode_node_versions` and is not read
again.
-/
def fetchNode (leafAddr : GlobalAddress) : ProgM LeafNode := .call (Op.read leafAddr)

def fetchNodes : List GlobalAddress → ProgM (List LeafNode)
  | [] => return []
  | leafAddr :: leafAddrs => do
    let leaf ← fetchNode leafAddr
    let leaves ← fetchNodes leafAddrs
    return leaf :: leaves

/-- `write_nodes_and_unlock`: the nodes in the given order, the lock word last. -/
def writeNodesAndUnlock (leaves : List (GlobalAddress × LeafNode)) (lockedLeafAddr : GlobalAddress)
    (lockBuffer : BitVec 64) : ProgM Unit :=
  match leaves with
  | [] => unlockNode lockedLeafAddr lockBuffer
  | (leafAddr, leaf) :: leaves => do
    .call (Op.write leafAddr leaf.bumpNodeVersions)
    writeNodesAndUnlock leaves lockedLeafAddr lockBuffer

def getLeafAddress (leafIdx : Nat) : Option GlobalAddress := LeafBuild.plain.leafAddress leafIdx

def leafAddresses (l r : Nat) : Option (List GlobalAddress) :=
  (List.range' l (r + 1 - l)).mapM getLeafAddress

def fetchSyn (leaf : LeafNode) : ProgM (Option LeafNode) :=
  if leaf.metadata.synonymPtr = GlobalAddress.null then
    return none
  else do
    let synLeaf ← fetchNode leaf.metadata.synonymPtr
    return some synLeaf

/-- Step 4 of `RolexIndex::insert`, with the allocation for a new synonym leaf before it. -/
def writePlan (insertLeafAddr synLeafAddr : GlobalAddress) (lockBuffer : BitVec 64)
    : Plan → ProgM Unit
  | .existing => unlockNode insertLeafAddr lockBuffer
  | .writeLeaf leaf => writeNodesAndUnlock [(insertLeafAddr, leaf)] insertLeafAddr lockBuffer
  | .writeSyn synLeaf _ => writeNodesAndUnlock [(synLeafAddr, synLeaf)] insertLeafAddr lockBuffer
  | .writeBoth leaf synLeaf _ =>
    writeNodesAndUnlock [(insertLeafAddr, leaf), (synLeafAddr, synLeaf)] insertLeafAddr lockBuffer
  | .link leaf synLeaf => do
    let res ← .call Op.allocLeaf
    let synAddr ← .check res
    writeNodesAndUnlock [(insertLeafAddr, leaf.link synAddr), (synAddr, synLeaf)] insertLeafAddr
      lockBuffer

/-- Steps 2 to 4 of `RolexIndex::insert`: everything it does to the leaf at `insertLeafAddr`. -/
def insertLocked (k : Key) (v : Value) (insertLeafAddr : GlobalAddress) : ProgM (List Nat) := do
  let lockBuffer ← lockNode insertLeafAddr
  let leaf ← fetchNode insertLeafAddr
  let synLeaf ← fetchSyn leaf
  let plan := insertLocally k v leaf synLeaf
  writePlan insertLeafAddr leaf.metadata.synonymPtr lockBuffer plan
  return plan.overrun

/-- `RolexIndex::insert`. The result lists the record indices behind the array that it assigned. -/
def insert (cache : Cache) (k : Key) (v : Value) : ProgM (List Nat) := do
  let (l, r, insertIdx) ← .check (cache.searchFromCacheForInsert k)
  let leafAddrs ← .check (leafAddresses l r)
  let _ ← fetchNodes leafAddrs
  let insertLeafAddr ← .check (getLeafAddress insertIdx)
  insertLocked k v insertLeafAddr

/-- The value of the first record with key `k`. -/
def LeafNode.find (leaf : LeafNode) (k : Key) : Option Value :=
  (leaf.records.toList.find? (fun e => e.key = k)).map LeafEntry.value

/-- Step 3 of `_search`, over the fetched leaves with their own and their lock's address. -/
def findKey (k : Key) : List (GlobalAddress × GlobalAddress × LeafNode)
    → Option (Value × GlobalAddress × GlobalAddress)
  | [] => none
  | (leafAddr, lockedLeafAddr, leaf) :: rest =>
    match leaf.find k with
    | some v => some (v, leafAddr, lockedLeafAddr)
    | none => findKey k rest

/--
The synonym leaves of the fetched leaves, each with the address of its leaf. As `syn_leaf_addrs` starts
empty and the leaves are distinct, every one of them is a miss in it.
-/
def appendLeafAddrs : List (GlobalAddress × LeafNode) → List (GlobalAddress × GlobalAddress)
  | [] => []
  | (leafAddr, leaf) :: rest =>
    if leaf.metadata.synonymPtr = GlobalAddress.null then
      appendLeafAddrs rest
    else
      (leaf.metadata.synonymPtr, leafAddr) :: appendLeafAddrs rest

/-- `RolexIndex::_search`: the value, the address of the node it is in and the address to lock. -/
def searchAux (cache : Cache) (k : Key) : ProgM (Option (Value × GlobalAddress × GlobalAddress)) := do
  let (l, r) ← .check (cache.searchFromCache k)
  let leafAddrs ← .check (leafAddresses l r)
  let leaves ← fetchNodes leafAddrs
  let append := appendLeafAddrs (leafAddrs.zip leaves)
  let appendLeaves ← fetchNodes (append.map Prod.fst)
  return findKey k
    ((leafAddrs.zip leaves).map (fun p => (p.1, p.1, p.2))
      ++ (append.zip appendLeaves).map (fun p => (p.1.1, p.1.2, p.2)))

def search (cache : Cache) (k : Key) : ProgM (Option Value) := do
  let res ← searchAux cache k
  return res.map Prod.fst

/--
The `read_another` loop of `RolexIndex::update` with the write that ends it. A miss in the locked leaf
leads to its synonym leaf; a miss there fails the assertion on `leaf_addr`.
-/
def updateLocked.readAnother (k : Key) (v : Value) (lockLeafAddr : GlobalAddress)
    (lockBuffer : BitVec 64) (leafAddr : GlobalAddress) (rounds : Nat) : ProgM Unit :=
  match rounds with
  | 0 => .fail
  | rounds + 1 => do
    let leaf ← fetchNode leafAddr
    match updateLocally k v leaf with
    | some leaf => writeNodesAndUnlock [(leafAddr, leaf)] lockLeafAddr lockBuffer
    | none =>
      if leafAddr = lockLeafAddr ∧ leaf.metadata.synonymPtr ≠ GlobalAddress.null then
        readAnother k v lockLeafAddr lockBuffer leaf.metadata.synonymPtr rounds
      else
        .fail

/-- Steps 2 to 4 of `RolexIndex::update`. -/
def updateLocked (k : Key) (v : Value) (leafAddr lockLeafAddr : GlobalAddress) : ProgM Unit := do
  let lockBuffer ← lockNode lockLeafAddr
  updateLocked.readAnother k v lockLeafAddr lockBuffer leafAddr 2

def update (cache : Cache) (k : Key) (v : Value) : ProgM Unit := do
  let res ← searchAux cache k
  match res with
  | none => return ()
  | some (_, leafAddr, lockLeafAddr) => updateLocked k v leafAddr lockLeafAddr

inductive Call where
  | insert (k : Key) (v : Value)
  | update (k : Key) (v : Value)
  | search (k : Key)

inductive Answer where
  | inserted (overrun : List Nat)
  | updated
  | found (res : Option Value)

def Call.body (cache : Cache) : Call → ProgM Answer
  | .insert k v => do
    let overrun ← Rolex.insert cache k v
    return .inserted overrun
  | .update k v => do
    Rolex.update cache k v
    return .updated
  | .search k => do
    let res ← Rolex.search cache k
    return .found res

end Rolex

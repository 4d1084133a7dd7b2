import Rolex.Dsm.Cluster
import Rolex.Hopscotch.Effect
import Rolex.Index.Basic

/-!
This module contains the index of the `HOPSCOTCH_LEAF_NODE` builds (`Rolex.cpp`): the remote memory with
the READs and WRITEs of parts of a node, and `insert`, `update` and `search` as programs of them. The
programs return an assertion that fails in the leaf; `fail` stands for all other ends without a return.
-/

namespace Rolex

def Key.fetch64 (k : Key) : BitVec 64 :=
  BitVec.ofNat 64 (k.bytes.toList.foldr (fun byte res => byte.toNat + 2 ^ 8 * res) 0)

/-- `CityHash64` of eight bytes. -/
def cityHash64 (s : BitVec 64) : BitVec 64 :=
  let k2 : BitVec 64 := 0x9ae16a3b2f90404f
  let mul := k2 + 8 * 2
  let a := s + k2
  let b := s
  let c := b.rotateRight 37 * mul + a
  let d := (a.rotateRight 25 + b) * mul
  hashLen16 c d mul
where
  hashLen16 (u v mul : BitVec 64) : BitVec 64 :=
    let a := (u ^^^ v) * mul
    let a := a ^^^ a >>> 47
    let b := (v ^^^ a) * mul
    let b := b ^^^ b >>> 47
    b * mul

def getHashedLeafEntryIndex (k : Key) : Fin leafSpanSize :=
  Fin.ofNat leafSpanSize (cityHash64 k.fetch64).toNat

namespace Build

variable (b : Build)

def leafBuild : LeafBuild := ⟨true, b.metadataReplication⟩

/-- `get_leaf_address` of an `int`. -/
def getLeafAddress (leafIdx : Nat) : Option GlobalAddress := b.leafBuild.leafAddress leafIdx

/-- `a` is the address of a leaf (and not of a synonym leaf). -/
abbrev IsLeaf (a : GlobalAddress) : Prop := b.leafBuild.IsLeaf a

def leafAddresses (l r : Nat) : Option (List GlobalAddress) :=
  (List.range' l (r + 1 - l)).mapM b.getLeafAddress

end Build

/-- The slots `idx, ..., idx + num - 1` of a node, with its metadata if `header`; the rest is zero. -/
def HopNode.part (n : HopNode) (header : Bool) (idx num : Nat) : HopNode where
  metadata := if header then n.metadata else HopNode.zero.metadata
  records := Vector.ofFn fun p => if idx ≤ p.val ∧ p.val < idx + num then n.records.get p else HopEntry.null

/-- The consistency check of `fetch_node`. -/
def HopNode.consistent (n : HopNode) : Bool :=
  n.records.toList.all fun e => e.hVersion.nodeVersion = n.metadata.hVersion.nodeVersion

namespace Hop

inductive Op where
  /-- `DSM::cas_mask` on the lock word of the leaf at `addr`. -/
  | casMask (addr : GlobalAddress) (equal val compareMask swapMask : BitVec 64)
  /-- READ the slots `idx, ..., idx + num - 1` of the node at `addr`, and its metadata if `header`. -/
  | read (addr : GlobalAddress) (header : Bool) (idx num : Nat)
  /-- WRITE the node at `addr`, and the lock word behind it. -/
  | write (addr : GlobalAddress) (node : HopNode) (lockWord : Option (BitVec 64))
  /-- WRITE the slots `lIdx, ..., rIdx` of the node at `addr`, and the lock word behind them. -/
  | writeSegment (addr : GlobalAddress) (records : HopRecords) (lIdx rIdx : Nat) (hoppedIdxes : List Nat)
      (lockWord : Option (BitVec 64))
  /-- WRITE the lock word of the leaf at `addr`. -/
  | writeLock (addr : GlobalAddress) (lockWord : BitVec 64)
  /-- `DSM::alloc`. -/
  | alloc (size : Nat) (targetNode : Int)

@[reducible]
def Op.Res : Op → Type
  | .casMask .. => BitVec 64
  | .read .. => HopNode
  | .write .. => Unit
  | .writeSegment .. => Unit
  | .writeLock .. => Unit
  | .alloc .. => Option GlobalAddress

/-- The memory nodes, nodes and lock words by the address of the node, and the allocators. -/
structure Mem (ι : Type) where
  node : GlobalAddress → HopNode
  lock : GlobalAddress → BitVec 64
  dsm : Cluster ι

namespace Mem

variable {ι : Type}

def init (b : Build) (id : ι → Nat) : Mem ι := ⟨fun _ => HopNode.zero, fun _ => 0, .init b.leafBuild id⟩

def ptr (m : Mem ι) (a : GlobalAddress) : GlobalAddress := (m.node a).metadata.synonymPtr

def setNode (m : Mem ι) (a : GlobalAddress) (n : HopNode) : Mem ι :=
  { m with node := Function.update m.node a n }

def setLock (m : Mem ι) (a : GlobalAddress) (w : BitVec 64) : Mem ι :=
  { m with lock := Function.update m.lock a w }

/-- The lock word, where the WRITE reaches so far. -/
def setLock? (m : Mem ι) (a : GlobalAddress) : Option (BitVec 64) → Mem ι
  | none => m
  | some w => m.setLock a w

end Mem

def exec {ι : Type} [DecidableEq ι] (i : ι) : (o : Op) → Mem ι → o.Res × Mem ι
  | .casMask a equal val compareMask swapMask, m =>
    let old := m.lock a
    if equal &&& compareMask = old &&& compareMask then
      (old, m.setLock a ((old &&& ~~~swapMask) ||| (val &&& swapMask)))
    else
      (old, m)
  | .read a header idx num, m => ((m.node a).part header idx num, m)
  | .write a n w, m => ((), (m.setNode a n).setLock? a w)
  | .writeSegment a r lIdx rIdx hoppedIdxes w, m =>
    let records := segmentWrite (m.node a).records r lIdx rIdx hoppedIdxes
    ((), (m.setNode a { m.node a with records }).setLock? a w)
  | .writeLock a w, m => ((), m.setLock a w)
  | .alloc size targetNode, m =>
    match m.dsm.allocSync i size cachelineAlignBit targetNode with
    | some (addr, dsm) => (some addr, { m with dsm })
    | none => (none, m)

abbrev ProgM := Prog Op Op.Res

/-- `lock_node`, which gives up after `attempts` failures. The result is the lock word it fetched. -/
def lockNode.acquire (nodeAddr : GlobalAddress) (attempts : Nat) : ProgM (BitVec 64) :=
  match attempts with
  | 0 => .fail
  | attempts + 1 => do
    let old ← .call (Op.casMask nodeAddr 0 (~~~0) lockBit (~~~0))
    if 0 &&& lockBit = old &&& lockBit then
      return old
    else
      acquire nodeAddr attempts

def lockNode (nodeAddr : GlobalAddress) : ProgM (BitVec 64) :=
  lockNode.acquire nodeAddr 10000002

def unlockNode (nodeAddr : GlobalAddress) (lockBuffer : BitVec 64) : ProgM Unit :=
  .call (Op.writeLock nodeAddr lockBuffer)

section Fetch

variable (b : Build) (hashIdx entryNum : Nat)

def segmentSizeR : Nat := min entryNum (leafSpanSize - hashIdx)

def segmentSizeL : Nat :=
  if entryNum ≤ leafSpanSize - hashIdx then 0 else entryNum - (leafSpanSize - hashIdx)

/-- `decode_segment_metadata` finds a copy of the metadata in front of one of the slots. -/
def hasMetadata (idx num : Nat) : Bool := (neighborSize - idx % neighborSize) % neighborSize < num

/-- The first READ of a node: header and segment, or the segment if there is one. -/
def readsL : Bool := !b.metadataReplication || 0 < segmentSizeL hashIdx entryNum

/-- The second READ brings the metadata too. -/
def headerR : Bool := b.metadataReplication && hasMetadata hashIdx (segmentSizeR hashIdx entryNum)

/-- What the READs of a node have brought: the segment from slot 0 on and the one from `hash_idx` on. -/
structure Segments where
  l : HopNode
  r : HopNode

/-- The READs of one node in a round of `hopscotch_fetch_nodes`. -/
def readSegments (leafAddr : GlobalAddress) : ProgM Segments := do
  let l ←
    if readsL b hashIdx entryNum then
      .call (Op.read leafAddr true 0 (segmentSizeL hashIdx entryNum))
    else
      pure HopNode.zero
  let r ← .call (Op.read leafAddr (headerR b hashIdx entryNum) hashIdx (segmentSizeR hashIdx entryNum))
  return ⟨l, r⟩

namespace Segments

variable (s : Segments)

/-- The node versions that the check compares. -/
def nodeVersions : List (BitVec 4) :=
  (if readsL b hashIdx entryNum then [s.l.metadata.hVersion.nodeVersion] else [])
    ++ (if headerR b hashIdx entryNum then [s.r.metadata.hVersion.nodeVersion] else [])
    ++ (List.range (segmentSizeL hashIdx entryNum)).map
      (fun i : Nat => (s.l.records.getEntry i).hVersion.nodeVersion)
    ++ (List.range' hashIdx (segmentSizeR hashIdx entryNum)).map
      (fun i : Nat => (s.r.records.getEntry i).hVersion.nodeVersion)

/-- The consistency check of `hopscotch_fetch_nodes`. -/
def consistent : Bool :=
  (s.nodeVersions b hashIdx entryNum).all fun v => (s.nodeVersions b hashIdx entryNum).all fun w => v = w

/-- The assertions on the metadata. -/
def metadataOk (needMetadata : Bool) : Bool :=
  (!needMetadata || readsL b hashIdx entryNum || headerR b hashIdx entryNum)
    && (!readsL b hashIdx entryNum || !headerR b hashIdx entryNum || s.l.metadata = s.r.metadata)

/-- The node in the leaf buffer, zero where nothing has been read. -/
def leaf : HopNode where
  metadata := if readsL b hashIdx entryNum then s.l.metadata else s.r.metadata
  records := Vector.ofFn fun p =>
    if hashIdx ≤ p.val ∧ p.val < hashIdx + segmentSizeR hashIdx entryNum then
      s.r.records.get p
    else
      s.l.records.get p

end Segments

end Fetch

section Fetch

variable (b : Build) (hashIdx : Nat) (needMetadata : Bool)

/-- The READs for `leaf_addrs` with their `entry_nums`. -/
def readAll : List (GlobalAddress × Nat) → ProgM (List (Nat × Segments))
  | [] => return []
  | (leafAddr, entryNum) :: leafAddrs => do
    let segments ← readSegments b hashIdx entryNum leafAddr
    let rest ← readAll leafAddrs
    return (entryNum, segments) :: rest

/-- The loop that checks and decodes what has been read, `none` when everything has to be read again. -/
def decodeAll : List (Nat × Segments) → ProgM (Option (List HopNode))
  | [] => return some []
  | (entryNum, segments) :: rest =>
    if !segments.consistent b hashIdx entryNum then
      return none
    else if !segments.metadataOk b hashIdx entryNum needMetadata then
      .fail
    else do
      let leaves ← decodeAll rest
      return leaves.map (segments.leaf b hashIdx entryNum :: ·)

/-- `hopscotch_fetch_nodes` with at most `rounds` rounds. -/
def hopscotchFetchNodes (leafAddrs : List (GlobalAddress × Nat)) (rounds : Nat) : ProgM (List HopNode) :=
  match rounds with
  | 0 => .fail
  | rounds + 1 => do
    let segments ← readAll b hashIdx leafAddrs
    let res ← decodeAll b hashIdx needMetadata segments
    match res with
    | some leaves => return leaves
    | none => hopscotchFetchNodes leafAddrs rounds

def hopscotchFetchNode (leafAddr : GlobalAddress) (entryNum rounds : Nat) : ProgM HopNode := do
  let leaves ← hopscotchFetchNodes b hashIdx needMetadata [(leafAddr, entryNum)] rounds
  .check leaves.head?

/-- `fetch_node` with at most `rounds` rounds. -/
def fetchNode (leafAddr : GlobalAddress) (rounds : Nat) : ProgM HopNode :=
  match rounds with
  | 0 => .fail
  | rounds + 1 => do
    let leaf ← .call (Op.read leafAddr true 0 leafSpanSize)
    if leaf.consistent then
      return leaf
    else
      fetchNode leafAddr rounds

end Fetch

section Calls

variable (b : Build) (hash : Key → Fin leafSpanSize) (rounds : Nat)

/-- `get_read_entry_num`, or the initial value without `VACANCY_AWARE_LOCK`. -/
def getReadEntryNum (lIdx : Nat) (lockBuffer : BitVec 64) (isSynonym : Bool) : Nat :=
  if b.vacancyAwareLock then
    let entryNum := VALock.getReadEntryNumFromBitmap lockBuffer lIdx isSynonym
    let rIdx := lIdx + entryNum
    -- ensure to read one scattered metadata
    if b.metadataReplication ∧ entryNum < neighborSize ∧ lIdx % neighborSize ≠ 0
        ∧ lIdx / neighborSize = (rIdx - 1) / neighborSize then
      (rIdx - 1 + neighborSize) / neighborSize * neighborSize + 1 - lIdx
    else
      entryNum
  else
    leafSpanSize

/-- The re-read of a node under the lock. -/
def reRead (nodeAddr : GlobalAddress) (hashIdx entryNum : Nat) : ProgM HopNode :=
  if b.vacancyAwareLock then
    hopscotchFetchNode b hashIdx true nodeAddr entryNum rounds
  else
    fetchNode nodeAddr rounds

/-- The re-read of the synonym leaf, if the leaf has one. -/
def reReadSyn (leaf : HopNode) (hashIdx entryNum : Nat) : ProgM (Option HopNode) :=
  if leaf.metadata.synonymPtr = GlobalAddress.null then
    return none
  else do
    let synLeaf ← reRead b rounds leaf.metadata.synonymPtr hashIdx entryNum
    return some synLeaf

/-- The loop over the slots `i, i + 1, ...` of the ring up to `r_idx`, which is not looked at. -/
def existingKey.go (r : HopRecords) (k : Key) (rIdx : Nat) : Nat → Nat → Bool
  | 0, _ => false
  | n + 1, i =>
    if i = rIdx then
      false
    else if (r.getEntry i).key = k then
      true
    else
      go r k rIdx n ((i + 1) % leafSpanSize)

/-- The existing-key test of `insert`. -/
def existingKey (r : HopRecords) (k : Key) (hashIdx readEntryNum : Nat) : Bool :=
  if b.vacancyAwareLock then
    existingKey.go r k ((hashIdx + readEntryNum) % leafSpanSize) leafSpanSize hashIdx
  else
    r.toList.any fun e => e.key = k

/-- `segment_write_and_unlock` behind the update of the bitmap. -/
def segmentWriteAndUnlock (r : HopRecords) (lIdx rIdx : Nat) (hoppedIdxes : List Nat)
    (nodeAddr : GlobalAddress) (lockBuffer : BitVec 64) (needUnlock : Bool) : ProgM Unit :=
  let unlock := if needUnlock then some lockBuffer else none
  if lIdx ≤ rIdx then
    if needUnlock ∧ rIdx ≠ leafSpanSize - 1 then do
      .call (Op.writeSegment nodeAddr r lIdx rIdx hoppedIdxes none)
      .call (Op.writeLock nodeAddr lockBuffer)
    else
      .call (Op.writeSegment nodeAddr r lIdx rIdx hoppedIdxes unlock)
  else do
    .call (Op.writeSegment nodeAddr r 0 rIdx hoppedIdxes none)
    .call (Op.writeSegment nodeAddr r lIdx (leafSpanSize - 1) hoppedIdxes unlock)

/-- `hopscotch_insert_and_unlock`: the lock buffer afterwards, `none` when it returns false. -/
def hopscotchInsertAndUnlock (leaf : HopNode) (k : Key) (v : Value) (nodeAddr : GlobalAddress)
    (lockBuffer : BitVec 64) (entryNum : Nat) (isLockedLeaf : Bool)
    : ProgM (Except Assertion (Option (BitVec 64))) :=
  .attempt (hopscotchInsert hash leaf.records k v entryNum) fun hopped =>
    match hopped with
    | none => return .ok none
    | some hopped =>
      let rIdx := (slot hopped.emptyIdx).val
      .attempt (segmentLock b hopped.records (hash k).val rIdx lockBuffer isLockedLeaf) fun lockBuffer => do
        segmentWriteAndUnlock hopped.records (hash k).val rIdx hopped.hoppedIdxes nodeAddr lockBuffer
          isLockedLeaf
        return .ok (some lockBuffer)

def copyRecords (r tmp : HopRecords) (rIdx num : Nat) : HopRecords :=
  (List.range num).foldl (fun r (i : Nat) => r.setEntry (rIdx + i) (tmp.getEntry (rIdx + i))) r

/-- The rest of a node of which `read_entry_num` slots from `hash_idx` on have been read. -/
def readRest (leaf : HopNode) (nodeAddr : GlobalAddress) (hashIdx readEntryNum : Nat) : ProgM HopNode :=
  if b.vacancyAwareLock ∧ readEntryNum < leafSpanSize then do
    let rIdx := (hashIdx + readEntryNum) % leafSpanSize
    let tmpLeaf ← hopscotchFetchNode b rIdx false nodeAddr (leafSpanSize - readEntryNum) rounds
    return { leaf with
      records := copyRecords leaf.records tmpLeaf.records rIdx (leafSpanSize - readEntryNum) }
  else
    return leaf

/-- The bitmaps that `hopscotch_split_and_unlock` writes with the lock word. -/
def splitLock (leaf synLeaf : HopRecords) (lockBuffer : BitVec 64) : Except Assertion (BitVec 64) :=
  if b.vacancyAwareLock then do
    let lock ← VALock.updateVacancy lockBuffer 0 (leafSpanSize - 1) (emptyIdxes leaf 0 (leafSpanSize - 1)) false
    VALock.updateVacancy lock 0 (leafSpanSize - 1) (emptyIdxes synLeaf 0 (leafSpanSize - 1)) true
  else
    .ok lockBuffer

def hopscotchSplitAndUnlock (leaf : HopNode) (k : Key) (v : Value) (nodeAddr : GlobalAddress)
    (lockBuffer : BitVec 64) : ProgM (Except Assertion Unit) := do
  let res ← .call (Op.alloc b.leafBuild.allocationLeafSize nodeAddr.nodeID.toNat)
  let synonymAddr ← .check res
  .attempt (hopscotchSplit hash leaf k v synonymAddr) fun (leaf, synLeaf) => do
    .call (Op.write synonymAddr synLeaf.bumpNodeVersions none)
    .attempt (splitLock b leaf.records synLeaf.records lockBuffer) fun lockBuffer => do
      .call (Op.write nodeAddr leaf.bumpNodeVersions (some lockBuffer))
      return .ok ()

/-- The part of `insert` for a leaf that can not take the key: a new synonym leaf, or the old one. -/
def insertIntoSyn (leaf : HopNode) (synLeaf : Option HopNode) (k : Key) (v : Value)
    (insertLeafAddr : GlobalAddress) (lockBuffer : BitVec 64) (readEntryNum readSynonymEntryNum : Nat)
    : ProgM (Except Assertion Unit) :=
  match synLeaf with
  | none => do
    let leaf ← readRest b rounds leaf insertLeafAddr (hash k).val readEntryNum
    hopscotchSplitAndUnlock b hash leaf k v insertLeafAddr lockBuffer
  | some synLeaf => do
    let res ← hopscotchInsertAndUnlock b hash synLeaf k v leaf.metadata.synonymPtr lockBuffer
      readSynonymEntryNum false
    .attempt res fun lock => do
      -- when the synonym leaf is hop-full, this is only printed
      unlockNode insertLeafAddr (lock.getD lockBuffer)
      return .ok ()

/-- Steps 2 and 3 of `RolexIndex::insert`: everything it does to the leaf at `insertLeafAddr`. -/
def insertLocked (k : Key) (v : Value) (insertLeafAddr : GlobalAddress) : ProgM (Except Assertion Unit) := do
  let lockBuffer ← lockNode insertLeafAddr
  let readEntryNum := getReadEntryNum b (hash k).val lockBuffer false
  let readSynonymEntryNum := getReadEntryNum b (hash k).val lockBuffer true
  let leaf ← reRead b rounds insertLeafAddr (hash k).val readEntryNum
  let synLeaf ← reReadSyn b rounds leaf (hash k).val readSynonymEntryNum
  if existingKey b leaf.records k (hash k).val readEntryNum then
    unlockNode insertLeafAddr lockBuffer
    return .ok ()
  else
    let res ← hopscotchInsertAndUnlock b hash leaf k v insertLeafAddr lockBuffer readEntryNum true
    .attempt res fun lock =>
      match lock with
      | some _ => return .ok ()
      | none => insertIntoSyn b hash rounds leaf synLeaf k v insertLeafAddr lockBuffer readEntryNum
          readSynonymEntryNum

variable (cache : Cache)

def insert (k : Key) (v : Value) : ProgM (Except Assertion Unit) := do
  let (l, r, insertIdx) ← .check (cache.searchFromCacheForInsert k)
  let leafAddrs ← .check (b.leafAddresses l r)
  let _ ← hopscotchFetchNodes b (hash k).val true (leafAddrs.map (fun a => (a, neighborSize))) rounds
  let insertLeafAddr ← .check (b.getLeafAddress insertIdx)
  insertLocked b hash rounds k v insertLeafAddr

/--
Step 3 of `_search`, over the fetched leaves with their own and their lock's address; `none` when it
reads again.
-/
def searchLeaves (k : Key) : List (GlobalAddress × GlobalAddress × HopNode)
    → Option (Option (Value × GlobalAddress × GlobalAddress))
  | [] => some none
  | (leafAddr, lockedLeafAddr, leaf) :: rest =>
    match scanNode hash leaf.records k with
    | .found _ v => some (some (v, leafAddr, lockedLeafAddr))
    | .reRead => none
    | .absent => searchLeaves k rest

/-- `syn_leaf_addrs`, by the address of the leaf. -/
abbrev SynLeafAddrs := List (GlobalAddress × GlobalAddress)

/-- The synonym leaves that are in `syn_leaf_addrs`, each with the address of its leaf. -/
def cachedLeafAddrs (syn : SynLeafAddrs) (leafAddrs : List GlobalAddress) : List (GlobalAddress × GlobalAddress) :=
  leafAddrs.filterMap fun leafAddr => (syn.lookup leafAddr).map fun synAddr => (synAddr, leafAddr)

/-- The synonym leaves of the fetched leaves that are not in `syn_leaf_addrs`. -/
def appendLeafAddrs : SynLeafAddrs → List (GlobalAddress × HopNode) → List (GlobalAddress × GlobalAddress)
  | _, [] => []
  | syn, (leafAddr, leaf) :: rest =>
    if leaf.metadata.synonymPtr ≠ GlobalAddress.null ∧ syn.lookup leafAddr = none then
      (leaf.metadata.synonymPtr, leafAddr)
        :: appendLeafAddrs ((leafAddr, leaf.metadata.synonymPtr) :: syn) rest
    else
      appendLeafAddrs syn rest

/-- One round of `_search` from `re_read` on: the result, if any, and `syn_leaf_addrs` afterwards. -/
def searchRound (k : Key) (leafAddrs : List GlobalAddress) (syn : SynLeafAddrs)
    : ProgM (Option (Option (Value × GlobalAddress × GlobalAddress)) × SynLeafAddrs) := do
  let addrs := leafAddrs.map (fun a => (a, a)) ++ cachedLeafAddrs syn leafAddrs
  let leaves ← hopscotchFetchNodes b (hash k).val true (addrs.map (fun p => (p.1, neighborSize))) rounds
  let append := appendLeafAddrs syn (leafAddrs.zip leaves)
  let appendLeaves ← hopscotchFetchNodes b (hash k).val true
    (append.map (fun p => (p.1, neighborSize))) rounds
  let found := searchLeaves hash k
    ((addrs.zip leaves ++ append.zip appendLeaves).map (fun p => (p.1.1, p.1.2, p.2)))
  return (found, append.map Prod.swap ++ syn)

def searchAux.reRead (k : Key) (leafAddrs : List GlobalAddress) (syn : SynLeafAddrs) (n : Nat)
    : ProgM (Option (Value × GlobalAddress × GlobalAddress)) :=
  match n with
  | 0 => .fail
  | n + 1 => do
    let (res, syn) ← searchRound b hash rounds k leafAddrs syn
    match res with
    | some found => return found
    | none => reRead k leafAddrs syn n

/-- `RolexIndex::_search`: the value, the address of the node it is in and the address to lock. -/
def searchAux (k : Key) : ProgM (Option (Value × GlobalAddress × GlobalAddress)) := do
  let (l, r) ← .check (cache.searchFromCache k)
  let leafAddrs ← .check (b.leafAddresses l r)
  searchAux.reRead b hash rounds k leafAddrs [] rounds

def search (k : Key) : ProgM (Option Value) := do
  let res ← searchAux b hash rounds cache k
  return res.map Prod.fst

/-- The loop of `update` over the neighborhood: the slot of the key. -/
def findSlot (r : HopRecords) (k : Key) : Option (Fin leafSpanSize) :=
  ((List.range neighborSize).find? fun j : Nat => (r.getEntry ((hash k).val + j)).key = k).map
    fun j : Nat => slot ((hash k).val + j)

def entryWriteAndUnlock (r : HopRecords) (idx : Nat) (nodeAddr lockedLeafAddr : GlobalAddress)
    (lockBuffer : BitVec 64) : ProgM Unit :=
  if idx = leafSpanSize - 1 ∧ nodeAddr = lockedLeafAddr then
    .call (Op.writeSegment nodeAddr r idx idx [idx] (some lockBuffer))
  else do
    .call (Op.writeSegment nodeAddr r idx idx [idx] none)
    .call (Op.writeLock lockedLeafAddr lockBuffer)

/--
The `read_another` loop of `RolexIndex::update` with the write that ends it. A miss in the locked leaf
leads to its synonym leaf; a miss there fails the assertion on `leaf_addr`.
-/
def updateLocked.readAnother (k : Key) (v : Value) (lockLeafAddr : GlobalAddress)
    (lockBuffer : BitVec 64) (leafAddr : GlobalAddress) (n : Nat) : ProgM Unit :=
  match n with
  | 0 => .fail
  | n + 1 => do
    let leaf ← hopscotchFetchNode b (hash k).val true leafAddr neighborSize rounds
    match findSlot hash leaf.records k with
    | some p =>
      let records := leaf.records.setEntry p.val ((leaf.records.get p).update k v)
      entryWriteAndUnlock records p.val leafAddr lockLeafAddr lockBuffer
    | none =>
      if leafAddr = lockLeafAddr ∧ leaf.metadata.synonymPtr ≠ GlobalAddress.null then
        readAnother k v lockLeafAddr lockBuffer leaf.metadata.synonymPtr n
      else
        .fail

/-- Steps 2 to 4 of `RolexIndex::update`. -/
def updateLocked (k : Key) (v : Value) (leafAddr lockLeafAddr : GlobalAddress) : ProgM Unit := do
  let lockBuffer ← lockNode lockLeafAddr
  updateLocked.readAnother b hash rounds k v lockLeafAddr lockBuffer leafAddr 2

def update (k : Key) (v : Value) : ProgM Unit := do
  let res ← searchAux b hash rounds cache k
  match res with
  | none => return ()
  | some (_, leafAddr, lockLeafAddr) => updateLocked b hash rounds k v leafAddr lockLeafAddr

end Calls

end Hop

end Rolex

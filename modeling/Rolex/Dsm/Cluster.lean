import Rolex.Lib.Owner
import Rolex.Dsm.Alloc
import Rolex.Dsm.Layout

/-!
This module contains the allocation of remote memory by all threads of the compute nodes: `DSM::alloc`
with its RPC to the directories, and `DSM::free`. No two blocks that are in use ever overlap.
-/

namespace Rolex

open Owner

def packedAddrAlignBit : Nat := 8
def nrDirectory : Nat := 1

abbrev Block := GlobalAddress × Nat

structure DirId where
  nodeID : Nat
  dirID : Nat
  deriving DecidableEq

structure DirId.Valid (d : DirId) : Prop where
  node : d.nodeID < memoryNodeNum
  dir : d.dirID < nrDirectory

namespace LeafBuild

variable (b : LeafBuild)

def perDirectoryDsmSize : Nat := (dsmSize - b.synRegionOffset) / nrDirectory

def directory (d : DirId) : GlobalAllocator :=
  .new (.of d.nodeID (b.synRegionOffset + b.perDirectoryDsmSize * d.dirID)) b.perDirectoryDsmSize

end LeafBuild

/-- What a thread is doing: nothing, or an `alloc` whose RPC is on its way. -/
inductive AllocCall where
  | idle
  | waiting (size alignBit : Nat)
  | answered (size alignBit : Nat) (chunk : GlobalAddress)

/-- The `thread_local` variables. -/
structure Thread where
  -- `cur_target_node` and `cur_target_dir_id`
  target : DirId
  localAllocators : DirId → LocalAllocator
  call : AllocCall

namespace Thread

def init (id : Nat) : Thread where
  target := ⟨id % memoryNodeNum, id % nrDirectory⟩
  localAllocators := fun _ => .empty
  call := .idle

def nextTarget (th : Thread) (targetNode : Int) : DirId :=
  if th.target.dirID + 1 = nrDirectory then
    ⟨if targetNode < 0 then (th.target.nodeID + 1) % memoryNodeNum else targetNode.toNat, 0⟩
  else
    ⟨th.target.nodeID, th.target.dirID + 1⟩

def setAllocator (th : Thread) (d : DirId) (a : LocalAllocator) : Thread :=
  { th with localAllocators := Function.update th.localAllocators d a }

end Thread

/--
The allocation state of all nodes. The last three fields are not part of the program: the chunks that the
directories have handed out, what `alloc` has returned and from which directory, and what of it has not
been freed.
-/
structure Cluster (ι : Type) where
  chunckAlloc : DirId → GlobalAllocator
  thread : ι → Thread
  chunks : DirId → List GlobalAddress
  returned : List (DirId × Block)
  live : List Block

namespace Cluster

variable {ι : Type} [DecidableEq ι]

/-- The start, where `id` is the sum of the numbers of a thread and its node. -/
def init (b : LeafBuild) (id : ι → Nat) : Cluster ι :=
  ⟨b.directory, fun t => .init (id t), fun _ => [], [], []⟩

def setThread (s : Cluster ι) (t : ι) (th : Thread) : Cluster ι :=
  { s with thread := Function.update s.thread t th }

/-- `alloc` of thread `t` returns a block of its allocator for `d`. -/
def give (s : Cluster ι) (t : ι) (d : DirId) (a : LocalAllocator) (blk : Block) : Cluster ι :=
  { s.setThread t { (s.thread t).setAllocator d a with target := d, call := .idle } with
    returned := (d, blk) :: s.returned
    live := blk :: s.live }

/-- `DSM::alloc` until it returns or has called the directory. -/
def alloc (s : Cluster ι) (t : ι) (size alignBit : Nat) (targetNode : Int) : Option (Cluster ι) :=
  match (s.thread t).call with
  | .idle =>
    let d := (s.thread t).nextTarget targetNode
    let (addr, needChunk, a) := ((s.thread t).localAllocators d).malloc size alignBit
    if needChunk then
      some (s.setThread t
        { (s.thread t).setAllocator d a with target := d, call := .waiting size alignBit })
    else
      some (s.give t d a (addr, size))
  | _ => none

/-- A directory processes the message of `t`; the program ends when it has no chunk left. -/
def processMessage (s : Cluster ι) (t : ι) : Option (Cluster ι) :=
  match (s.thread t).call with
  | .waiting size alignBit =>
    let d := (s.thread t).target
    match (s.chunckAlloc d).allocChunck with
    | none => none
    | some (chunk, g) =>
      some { s.setThread t { s.thread t with call := .answered size alignBit chunk } with
        chunckAlloc := Function.update s.chunckAlloc d g
        chunks := Function.update s.chunks d (chunk :: s.chunks d) }
  | _ => none

/-- `alloc` continues with the answer. -/
def retry (s : Cluster ι) (t : ι) : Option (Cluster ι) :=
  match (s.thread t).call with
  | .answered size alignBit chunk =>
    let d := (s.thread t).target
    let (addr, _, a) := (((s.thread t).localAllocators d).setChunck chunk).malloc size alignBit
    some (s.give t d a (addr, size))
  | _ => none

/-- `DSM::alloc` with the RPC that it waits for, `none` when the directory has no chunk left. -/
def allocSync (s : Cluster ι) (t : ι) (size alignBit : Nat) (targetNode : Int)
    : Option (GlobalAddress × Cluster ι) := do
  let s ← s.alloc t size alignBit targetNode
  let s ←
    match (s.thread t).call with
    | .idle => some s
    | _ => do
      let s ← s.processMessage t
      s.retry t
  let blk ← s.live.head?
  return (blk.1, s)

def free (s : Cluster ι) (t : ι) (blk : Block) : Option (Cluster ι) :=
  match (s.thread t).call with
  | .idle =>
    let d : DirId := ⟨blk.1.nodeID.toNat, 0⟩
    some { s.setThread t
        ((s.thread t).setAllocator d (((s.thread t).localAllocators d).free blk.1 blk.2)) with
      live := s.live.filter (fun other => other ≠ blk) }
  | _ => none

/-- One step of the cluster. Blocks that are freed are in use, sizes and alignments are those that occur. -/
inductive Step : Cluster ι → Cluster ι → Prop where
  | alloc {s s' : Cluster ι} (t : ι) (size alignBit : Nat) (targetNode : Int) (hpos : 1 ≤ size)
      (hsize : size ≤ kChunkSize) (halign : alignBit = cachelineAlignBit ∨ alignBit = packedAddrAlignBit)
      (hnode : targetNode < memoryNodeNum) (h : s.alloc t size alignBit targetNode = some s') : Step s s'
  | processMessage {s s' : Cluster ι} (t : ι) (h : s.processMessage t = some s') : Step s s'
  | retry {s s' : Cluster ι} (t : ι) (h : s.retry t = some s') : Step s s'
  | free {s s' : Cluster ι} (t : ι) (blk : Block) (hlive : blk ∈ s.live) (h : s.free t blk = some s')
      : Step s s'

inductive Reachable (b : LeafBuild) (id : ι → Nat) : Cluster ι → Prop where
  | init : Reachable b id (init b id)
  | step {s s' : Cluster ι} (h : Reachable b id s) (hs : Step s s') : Reachable b id s'

end Cluster

section Chunks

namespace LeafBuild

variable (b : LeafBuild)

def chunkOffset (d : DirId) (c : Nat) : Nat :=
  b.synRegionOffset + b.perDirectoryDsmSize * d.dirID + c * kChunkSize

def chunk (d : DirId) (c : Nat) : GlobalAddress := .of d.nodeID (b.chunkOffset d c)

variable {b} {d d' : DirId} {c c' : Nat}

theorem chunk_nodeID : (b.chunk d c).nodeID = BitVec.ofNat 16 d.nodeID := rfl

theorem chunkOffset_eq : b.chunkOffset d c = b.chunkOffset d 0 + c * kChunkSize := by
  rw [chunkOffset, chunkOffset, Nat.zero_mul, Nat.add_zero]

theorem chunkOffset_succ : b.chunkOffset d (c + 1) = b.chunkOffset d c + kChunkSize := by
  unfold chunkOffset
  rw [Nat.succ_mul]
  omega

theorem chunkOffset_le (hc : c ≤ b.perDirectoryDsmSize / kChunkSize)
    : b.chunkOffset d c ≤ b.synRegionOffset + b.perDirectoryDsmSize * (d.dirID + 1) := by
  have hmul := Nat.mul_le_mul_right kChunkSize hc
  have hdiv := Nat.div_mul_le_self b.perDirectoryDsmSize kChunkSize
  rw [Nat.mul_succ, chunkOffset]
  omega

theorem chunkOffset_le_dsmSize (hd : d.Valid) (hc : c ≤ b.perDirectoryDsmSize / kChunkSize)
    : b.chunkOffset d c ≤ dsmSize := by
  have hle := chunkOffset_le (d := d) hc
  have hmul := Nat.mul_le_mul_left b.perDirectoryDsmSize (show d.dirID + 1 ≤ nrDirectory from hd.dir)
  have hdiv : b.perDirectoryDsmSize * nrDirectory ≤ dsmSize - b.synRegionOffset :=
    Nat.div_mul_le_self _ _
  have hsyn := b.synRegionOffset_spec.2.2
  omega

theorem chunkOffset_aligned (hd : d.Valid) : b.chunkOffset d c % 256 = 0 := by
  have hdir : d.dirID = 0 := by
    have : d.dirID < 1 := hd.dir
    omega
  have hsyn := b.synRegionOffset_spec.1
  have hchunk : kChunkSize = 16777216 := rfl
  rw [chunkOffset, hdir, hchunk]
  omega

theorem toNat_chunk (hd : d.Valid) (hc : c ≤ b.perDirectoryDsmSize / kChunkSize)
    : (b.chunk d c).offset.toNat = b.chunkOffset d c := by
  have := chunkOffset_le_dsmSize hd hc
  have hdsm : dsmSize < 2 ^ 48 := by decide
  simp only [chunk, GlobalAddress.of, BitVec.toNat_ofNat]
  apply Nat.mod_eq_of_lt
  omega

theorem toNat_nodeID (hd : d.Valid) : (b.chunk d c).nodeID.toNat = d.nodeID := by
  have hnode := hd.node
  have : memoryNodeNum = 1 := rfl
  simp only [chunk, GlobalAddress.of, BitVec.toNat_ofNat]
  omega

theorem chunkOffset_add_le (hc : c < b.perDirectoryDsmSize / kChunkSize)
    (h : d.dirID < d'.dirID ∨ d.dirID = d'.dirID ∧ c < c')
    : b.chunkOffset d c + kChunkSize ≤ b.chunkOffset d' c' := by
  rw [← chunkOffset_succ]
  rcases h with hlt | ⟨heq, hlt⟩
  . have hmul := Nat.mul_le_mul_left b.perDirectoryDsmSize (show d.dirID + 1 ≤ d'.dirID from hlt)
    apply (chunkOffset_le (d := d) (show c + 1 ≤ _ from hc)).trans
    rw [chunkOffset]
    omega
  . rw [chunkOffset, chunkOffset, heq]
    apply Nat.add_le_add_left
    exact Nat.mul_le_mul_right _ hlt

theorem disjoint_chunk (hd : d.Valid) (hd' : d'.Valid) (hc : c < b.perDirectoryDsmSize / kChunkSize)
    (hc' : c' < b.perDirectoryDsmSize / kChunkSize) (hne : d = d' → c ≠ c')
    : Disjoint (region (b.chunk d c) kChunkSize) (region (b.chunk d' c') kChunkSize) := by
  by_cases hnode : d.nodeID = d'.nodeID
  . have hoff := toNat_chunk hd hc.le
    have hoff' := toNat_chunk hd' hc'.le
    have hne' : d.dirID = d'.dirID → c ≠ c' := by
      intro heq
      apply hne
      rcases d with ⟨n, i⟩
      rcases d' with ⟨n', i'⟩
      simp only at hnode heq
      rw [hnode, heq]
    have horder : (d.dirID < d'.dirID ∨ d.dirID = d'.dirID ∧ c < c')
        ∨ (d'.dirID < d.dirID ∨ d'.dirID = d.dirID ∧ c' < c) := by
      omega
    rcases horder with h | h
    . apply disjoint_region
      rw [hoff, hoff']
      exact chunkOffset_add_le hc h
    . apply Disjoint.symm
      apply disjoint_region
      rw [hoff, hoff']
      exact chunkOffset_add_le hc' h
  . apply Set.disjoint_left.mpr
    rintro x ⟨hx, -⟩ ⟨hx', -⟩
    apply hnode
    rw [← toNat_nodeID (b := b) (c := c) hd, ← toNat_nodeID (b := b) (c := c') hd', ← hx, ← hx']

end LeafBuild

end Chunks

end Rolex

import Rolex.Leaf.Basic
import Rolex.Lib.Weave
import Mathlib.Logic.Function.Basic

/-!
This module contains the encoding of nodes with versions (`VersionManager.h`): how a node and its
image in remote memory are made from each other, for every layout of a node.
-/

namespace Rolex

abbrev Buffer := Nat → BitVec 8

/-- `memcpy(dst + d, src + s, n)`. -/
def memcpy (dst : Buffer) (d : Nat) (src : Buffer) (s n : Nat) : Buffer :=
  fun x => if d ≤ x ∧ x < d + n then src (s + (x - d)) else dst x

namespace PackedVersion

/-- The bit fields of the byte, the first one in the low bits. -/
def ofByte (b : BitVec 8) : PackedVersion := ⟨b.extractLsb' 0 4, b.extractLsb' 4 4⟩

def toByte (p : PackedVersion) : BitVec 8 := p.entryVersion ++ p.nodeVersion

theorem getLsbD_toByte (p : PackedVersion) (i : Nat)
    : p.toByte.getLsbD i
        =
      if i < 4 then p.nodeVersion.getLsbD i else p.entryVersion.getLsbD (i - 4) :=
  BitVec.getLsbD_append

@[simp]
theorem ofByte_toByte (p : PackedVersion) : ofByte p.toByte = p := by
  obtain ⟨n, e⟩ := p
  simp only [ofByte, mk.injEq]
  constructor
  . apply BitVec.eq_of_getLsbD_eq
    intro i hi
    simp [getLsbD_toByte, hi]
  . apply BitVec.eq_of_getLsbD_eq
    intro i hi
    simp [getLsbD_toByte, hi]

@[simp]
theorem toByte_ofByte (b : BitVec 8) : (ofByte b).toByte = b := by
  apply BitVec.eq_of_getLsbD_eq
  intro i hi
  rw [getLsbD_toByte]
  split
  . next h => simp [ofByte, h]
  . next h =>
    have h4 : 4 + (i - 4) = i := by omega
    simp [ofByte, h4, show i - 4 < 4 by omega]

theorem ofByte_injective : Function.Injective ofByte := by
  intro a b h
  rw [← toByte_ofByte a, h, toByte_ofByte]

end PackedVersion

/-- The layout of a `NODE`: a header that starts with its version, and records that do so too. -/
structure Layout where
  /-- `STRUCT_OFFSET(NODE, records)` -/
  recordsOffset : Nat
  /-- `sizeof(ENTRY)` -/
  entrySize : Nat
  entryNum : Nat
  recordsOffset_pos : 0 < recordsOffset
  entrySize_pos : 0 < entrySize
  entryNum_pos : 0 < entryNum

namespace Layout

def size (L : Layout) : Nat := L.recordsOffset + L.entrySize * L.entryNum

/-- `FIRST_OFFSET` -/
def firstOffset (L : Layout) : Nat := min cachelineSize L.size

/-- The size of the image of a node. -/
def transSize (L : Layout) : Nat :=
  if L.size ≤ cachelineSize then
    L.size
  else
    cachelineSize + addCachelineVersionSize (L.size - cachelineSize) versionSize

def entryOffset (L : Layout) (e : Nat) : Nat := L.recordsOffset + L.entrySize * e

/-- The version of the object that the byte at `j` of a node belongs to. -/
def objVersion (L : Layout) (node : Buffer) (j : Nat) : PackedVersion :=
  if j < L.recordsOffset then
    .ofByte (node 0)
  else
    .ofByte (node (L.entryOffset ((j - L.recordsOffset) / L.entrySize)))

def nodeVersion (node : Buffer) (x : Nat) : BitVec 4 := (PackedVersion.ofByte (node x)).nodeVersion

/-- The node-level joint consistency check. -/
def isConsistent (L : Layout) (node : Buffer) : Bool :=
  (List.range L.entryNum).foldl
    (fun isConsistent e =>
      isConsistent && nodeVersion node (L.entryOffset 0) == nodeVersion node (L.entryOffset e))
    (nodeVersion node (L.entryOffset 0) == nodeVersion node 0)

end Layout

namespace VersionManager

/--
The loop of `decode_node_versions`, which compares the version in front of each further block.
-/
def decodeNodeVersions.loop (L : Layout) (input : Buffer) (fuel i j : Nat) (output : Buffer)
    : Option Buffer :=
  match fuel with
  | 0 => none
  | fuel + 1 =>
    if j < L.size then
      let cachelineVersion := PackedVersion.ofByte (input i)
      let output := memcpy output j input (i + versionSize) (min blockSize (L.size - j))
      if L.objVersion output j ≠ cachelineVersion then
        none
      else
        loop L input fuel (i + versionSize + blockSize) (j + blockSize) output
    else
      some output

/-- `VersionManager::decode_node_versions`, `none` when it returns false. -/
def decodeNodeVersions (L : Layout) (input output : Buffer) : Option Buffer := do
  let output := memcpy output 0 input 0 L.firstOffset
  let output ← decodeNodeVersions.loop L input (L.size + 1) L.firstOffset L.firstOffset output
  if L.isConsistent output then some output else none

def setNodeVersion (v : BitVec 4) (node : Buffer) (x : Nat) : Buffer :=
  Function.update node x ({ PackedVersion.ofByte (node x) with nodeVersion := v }).toByte

/-- The first part of `encode_node_versions`: increment the node versions. -/
def incrementNodeVersions (L : Layout) (input : Buffer) : Buffer :=
  let nodeVersion := Layout.nodeVersion input (L.entryOffset 0) + 1
  (List.range L.entryNum).foldl (fun node e => setNodeVersion nodeVersion node (L.entryOffset e))
    (setNodeVersion nodeVersion input 0)

/-- The second part: generate the cacheline versions. -/
def encodeNodeVersions.loop (L : Layout) (node : Buffer) (fuel i j : Nat) (output : Buffer) : Buffer :=
  match fuel with
  | 0 => output
  | fuel + 1 =>
    if i < L.size then
      let output := Function.update output j (L.objVersion node i).toByte
      let output := memcpy output (j + versionSize) node i (min blockSize (L.size - i))
      loop L node fuel (i + blockSize) (j + versionSize + blockSize) output
    else
      output

/-- `VersionManager::encode_node_versions`: the image that it leaves in `output`. -/
def encodeNodeVersions (L : Layout) (input output : Buffer) : Buffer :=
  let node := incrementNodeVersions L input
  let output := memcpy output 0 node 0 L.firstOffset
  encodeNodeVersions.loop L node (L.size + 1) L.firstOffset L.firstOffset output

end VersionManager

section Specs

variable {L : Layout} {input output out node : Buffer}

theorem versionSize_eq : versionSize = 1 := rfl

theorem blockSize_eq : blockSize = 63 := rfl

theorem cachelineSize_eq : cachelineSize = 64 := rfl

theorem Layout.transSize_eq : L.transSize = L.size + (L.size - L.firstOffset + 62) / 63 := by
  unfold transSize firstOffset addCachelineVersionSize
  rw [cachelineSize_eq, versionSize_eq]
  by_cases hsize : L.size ≤ 64
  . rw [if_pos hsize]
    omega
  . rw [if_neg hsize]
    by_cases hmod : (L.size - 64) % 63 = 0
    . rw [if_pos hmod]
      omega
    . rw [if_neg hmod]
      omega

/-- The offsets at which a node has a version. -/
def Layout.versionOffsets (L : Layout) : List Nat :=
  0 :: (List.range L.entryNum).map L.entryOffset

/-- Where byte `x` of a node is in its image. -/
def Layout.imageOffset (L : Layout) (x : Nat) : Nat :=
  if x < L.firstOffset then x else x + (x - L.firstOffset) / 63 + 1

/-- Byte `x` of the image of a node: the node, with a version in front of each further block. -/
def Layout.image (L : Layout) (node : Buffer) : Buffer :=
  fun x =>
    if x < L.firstOffset then
      node x
    else if (x - L.firstOffset) % 64 = 0 then
      (L.objVersion node (L.firstOffset + 63 * ((x - L.firstOffset) / 64))).toByte
    else
      node (L.firstOffset + 63 * ((x - L.firstOffset) / 64) + ((x - L.firstOffset) % 64 - 1))

/-- The first `n` bytes of a node taken out of its image. -/
def Layout.raw (L : Layout) (input output : Buffer) (n : Nat) : Buffer :=
  fun x => if x < n then input (L.imageOffset x) else output x

/-- The versions in front of the blocks from `b` on are those of the objects that they cut. -/
def Layout.BlocksFrom (L : Layout) (input node : Buffer) (b : Nat) : Prop :=
  ∀ b', b ≤ b' → L.firstOffset + 63 * b' < L.size →
    L.objVersion node (L.firstOffset + 63 * b') = .ofByte (input (L.firstOffset + 64 * b'))

theorem Layout.objVersion_congr {node' : Buffer} {j : Nat} (h : ∀ x ≤ j, node x = node' x)
    : L.objVersion node j = L.objVersion node' j := by
  unfold objVersion
  split
  . rw [h 0 (Nat.zero_le j)]
  . next hj =>
    rw [h]
    unfold entryOffset
    have := Nat.mul_div_le (j - L.recordsOffset) L.entrySize
    omega

theorem Layout.raw_eq_taken (n : Nat)
    : L.raw input output n = Weave.taken 1 63 L.firstOffset input output n := by
  funext x
  unfold Layout.raw Weave.taken Layout.imageOffset Weave.pos
  congr 2
  split
  . rfl
  . omega

/-- Does the version in front of block `j` agree with the one of the object that it cuts. -/
def Layout.accepts (L : Layout) (output : Buffer) (j : Nat) (mark : Buffer) : Bool :=
  decide (L.objVersion output j = .ofByte (mark 0))

theorem Layout.accepts_local : Weave.Local 63 L.size L.accepts := by
  intro o o' j m hj h
  unfold accepts
  rw [objVersion_congr fun x hx => h x (by omega)]

theorem Layout.blocksFrom_iff_acceptsFrom {b : Nat}
    : L.BlocksFrom input node b
        ↔
      Weave.AcceptsFrom 1 63 L.firstOffset L.size L.accepts input node b := by
  unfold Layout.BlocksFrom Weave.AcceptsFrom Layout.accepts
  simp only [decide_eq_true_eq, Nat.add_zero]

namespace VersionManager

theorem decodeNodeVersions.loop_eq (fuel i j : Nat)
    : decodeNodeVersions.loop L input fuel i j output
      = Weave.unweave.loop versionSize blockSize L.size L.accepts input fuel i j output := by
  induction fuel generalizing i j output with
  | zero => rfl
  | succ fuel ih =>
    unfold loop Weave.unweave.loop
    simp only [ih]
    unfold Layout.accepts
    simp only [ne_eq, decide_eq_true_eq, ite_not]
    rfl

theorem decodeNodeVersions_eq_some
    : decodeNodeVersions L input output = some out
        ↔
      L.BlocksFrom input (L.raw input output L.size) 0
        ∧ L.isConsistent (L.raw input output L.size) = true ∧ out = L.raw input output L.size := by
  have hfirst : L.firstOffset ≤ L.size := by
    unfold Layout.firstOffset
    omega
  have hloop : ∀ out, decodeNodeVersions.loop L input (L.size + 1) L.firstOffset L.firstOffset
      (memcpy output 0 input 0 L.firstOffset) = some out
        ↔ out = L.raw input output L.size ∧ L.BlocksFrom input (L.raw input output L.size) 0 := by
    intro out
    rw [decodeNodeVersions.loop_eq, Layout.blocksFrom_iff_acceptsFrom, Layout.raw_eq_taken]
    exact Weave.unweave_eq_some (by decide) hfirst Layout.accepts_local
  unfold decodeNodeVersions
  simp only [Option.bind_eq_bind, Option.bind_eq_some_iff]
  constructor
  . rintro ⟨node, hnode, hcons⟩
    obtain ⟨rfl, hblocks⟩ := (hloop node).mp hnode
    split at hcons
    . next h => exact ⟨hblocks, h, (Option.some.inj hcons).symm⟩
    . cases hcons
  . rintro ⟨hblocks, hcons, rfl⟩
    exact ⟨_, (hloop _).mpr ⟨rfl, hblocks⟩, by rw [if_pos hcons]⟩

theorem encodeNodeVersions.loop_eq (fuel i j : Nat)
    : encodeNodeVersions.loop L node fuel i j output
      = Weave.weave.loop versionSize blockSize L.size (fun i _ => (L.objVersion node i).toByte) node
          fuel i j output := by
  have hupdate : ∀ (j : Nat) (x : BitVec 8) (output : Buffer),
      Function.update output j x = Weave.copy output j (fun _ => x) 0 versionSize := by
    intro j x output
    funext y
    rw [Function.update_apply]
    unfold Weave.copy
    rw [versionSize_eq]
    congr 1
    rw [eq_iff_iff]
    omega
  induction fuel generalizing i j output with
  | zero => rfl
  | succ fuel ih =>
    unfold loop Weave.weave.loop
    simp only [ih, hupdate]
    rfl

theorem encodeNodeVersions_eq {x : Nat} (hx : x < L.transSize)
    : encodeNodeVersions L input output x = L.image (incrementNodeVersions L input) x := by
  have hfirst : L.firstOffset ≤ L.size := by
    unfold Layout.firstOffset
    omega
  have hwoven : Weave.Woven 1 63 L.firstOffset L.size
      (fun i _ => (L.objVersion (incrementNodeVersions L input) i).toByte)
      (incrementNodeVersions L input) (encodeNodeVersions L input output) := by
    unfold encodeNodeVersions
    dsimp only
    rw [encodeNodeVersions.loop_eq]
    exact Weave.woven_weave (by decide)
  rw [Layout.transSize_eq] at hx
  unfold Layout.image
  split
  . next h => exact hwoven.head h
  . split
    . next h h' =>
      have hmark := hwoven.mark (b := (x - L.firstOffset) / 64) (t := 0) (by omega) (by omega)
      rw [← hmark]
      congr 1
      omega
    . next h h' =>
      have hdata := hwoven.data (b := (x - L.firstOffset) / 64) (t := (x - L.firstOffset) % 64 - 1)
        (by omega) (by omega)
      rw [← hdata]
      congr 1
      omega

theorem setNodeVersion_apply (v : BitVec 4) (node : Buffer) (x y : Nat)
    : setNodeVersion v node x y
        =
      if y = x then ({ PackedVersion.ofByte (node y) with nodeVersion := v }).toByte else node y := by
  unfold setNodeVersion
  rw [Function.update_apply]
  split
  . next h => rw [h]
  . rfl

theorem foldl_setNodeVersion (v : BitVec 4) (l : List Nat) (node : Buffer) (y : Nat)
    : l.foldl (setNodeVersion v) node y
        =
      if y ∈ l then ({ PackedVersion.ofByte (node y) with nodeVersion := v }).toByte else node y := by
  induction l generalizing node with
  | nil => simp
  | cons x l ih =>
    rw [List.foldl_cons, ih, setNodeVersion_apply]
    by_cases hx : y = x
    . simp [hx]
    . simp [hx]

theorem incrementNodeVersions_apply (y : Nat)
    : incrementNodeVersions L input y
        =
      if y ∈ L.versionOffsets then
        ({ PackedVersion.ofByte (input y) with
          nodeVersion := Layout.nodeVersion input (L.entryOffset 0) + 1 }).toByte
      else
        input y := by
  rw [← foldl_setNodeVersion, Layout.versionOffsets, List.foldl_cons, List.foldl_map]
  rfl

theorem nodeVersion_increment {x : Nat} (hx : x ∈ L.versionOffsets)
    : Layout.nodeVersion (incrementNodeVersions L input) x
        =
      Layout.nodeVersion input (L.entryOffset 0) + 1 := by
  rw [Layout.nodeVersion, incrementNodeVersions_apply, if_pos hx, PackedVersion.ofByte_toByte]

end VersionManager

theorem Layout.foldl_and_eq (p : Nat → Bool) (b : Bool) (l : List Nat)
    : l.foldl (fun acc e => acc && p e) b = (b && l.all p) := by
  induction l generalizing b with
  | nil => simp
  | cons e l ih => rw [List.foldl_cons, ih, List.all_cons, Bool.and_assoc]

theorem Layout.isConsistent_iff
    : L.isConsistent node = true
        ↔
      ∀ x ∈ L.versionOffsets, nodeVersion node (L.entryOffset 0) = nodeVersion node x := by
  unfold isConsistent versionOffsets
  rw [foldl_and_eq]
  simp

theorem Layout.entryOffset_lt {e : Nat} (he : e < L.entryNum) : L.entryOffset e < L.size := by
  have := Nat.mul_lt_mul_of_pos_left he L.entrySize_pos
  unfold entryOffset size
  omega

theorem Layout.size_pos : 0 < L.size := by
  have := L.recordsOffset_pos
  unfold size
  omega

theorem Layout.lt_of_mem_versionOffsets {x : Nat} (hx : x ∈ L.versionOffsets) : x < L.size := by
  rcases List.mem_cons.mp hx with rfl | hx
  . exact size_pos
  . obtain ⟨e, he, rfl⟩ := List.mem_map.mp hx
    exact entryOffset_lt (List.mem_range.mp he)

theorem Layout.entryOffset_mem {e : Nat} (he : e < L.entryNum) : L.entryOffset e ∈ L.versionOffsets :=
  List.mem_cons_of_mem _ (List.mem_map.mpr ⟨e, List.mem_range.mpr he, rfl⟩)

theorem Layout.exists_objVersion_eq {j : Nat} (hj : j < L.size)
    : ∃ x ∈ L.versionOffsets, ∀ node, L.objVersion node j = .ofByte (node x) := by
  unfold objVersion
  by_cases h : j < L.recordsOffset
  . exact ⟨0, List.mem_cons_self, fun node => if_pos h⟩
  . refine ⟨_, entryOffset_mem (e := (j - L.recordsOffset) / L.entrySize) ?_, fun node => if_neg h⟩
    apply Nat.div_lt_of_lt_mul
    unfold size at hj
    omega

theorem Layout.imageOffset_lt {x : Nat} (hx : x < L.size) : L.imageOffset x < L.transSize := by
  rw [transSize_eq]
  unfold imageOffset
  split
  . omega
  . omega

theorem Layout.image_imageOffset {x : Nat} : L.image node (L.imageOffset x) = node x := by
  unfold image imageOffset
  by_cases hx : x < L.firstOffset
  . rw [if_pos hx, if_pos hx]
  . rw [if_neg hx, if_neg (by omega), if_neg (by omega)]
    congr 1
    omega

/-- The number of blocks after the first cacheline. -/
def Layout.blockNum (L : Layout) : Nat := (L.size - L.firstOffset + 62) / 63

/-- The offsets at which an image has a version that is checked. -/
def Layout.marks (L : Layout) : List Nat :=
  L.versionOffsets.map L.imageOffset
    ++ (List.range L.blockNum).map (fun b => L.firstOffset + 64 * b)

theorem Layout.lt_of_mem_marks {y : Nat} (hy : y ∈ L.marks) : y < L.transSize := by
  rcases List.mem_append.mp hy with hy | hy
  . obtain ⟨x, hx, rfl⟩ := List.mem_map.mp hy
    exact imageOffset_lt (lt_of_mem_versionOffsets hx)
  . obtain ⟨b, hb, rfl⟩ := List.mem_map.mp hy
    have := List.mem_range.mp hb
    have hfirst : L.firstOffset ≤ L.size := by
      unfold firstOffset
      omega
    unfold blockNum at this
    rw [transSize_eq]
    omega

namespace VersionManager

theorem decodeNodeVersions_apply (h : decodeNodeVersions L input output = some out) {x : Nat}
    (hx : x < L.size)
    : out x = input (L.imageOffset x) := by
  obtain ⟨-, -, rfl⟩ := decodeNodeVersions_eq_some.mp h
  exact if_pos hx

theorem nodeVersion_of_mem_marks (h : decodeNodeVersions L input output = some out) {y : Nat}
    (hy : y ∈ L.marks)
    : Layout.nodeVersion input y = Layout.nodeVersion out 0 := by
  obtain ⟨hblocks, hcons, rfl⟩ := decodeNodeVersions_eq_some.mp h
  have hagree := Layout.isConsistent_iff.mp hcons
  have hall : ∀ x ∈ L.versionOffsets, Layout.nodeVersion (L.raw input output L.size) x
      = Layout.nodeVersion (L.raw input output L.size) 0 := by
    intro x hx
    rw [← hagree x hx, hagree 0 List.mem_cons_self]
  rcases List.mem_append.mp hy with hy | hy
  . obtain ⟨x, hx, rfl⟩ := List.mem_map.mp hy
    rw [← hall x hx]
    unfold Layout.nodeVersion Layout.raw
    rw [if_pos (Layout.lt_of_mem_versionOffsets hx)]
  . obtain ⟨b, hb, rfl⟩ := List.mem_map.mp hy
    have hlt : L.firstOffset + 63 * b < L.size := by
      have := List.mem_range.mp hb
      unfold Layout.blockNum at this
      omega
    obtain ⟨x, hx, hobj⟩ := Layout.exists_objVersion_eq hlt
    rw [← hall x hx]
    unfold Layout.nodeVersion
    rw [← hobj, hblocks b (Nat.zero_le b) hlt]

theorem decodeNodeVersions_congr {input' output' : Buffer} (h : ∀ x < L.transSize, input x = input' x)
    (hd : decodeNodeVersions L input output = some out)
    : ∃ out', decodeNodeVersions L input' output' = some out' ∧ ∀ x < L.size, out' x = out x := by
  obtain ⟨hblocks, hcons, rfl⟩ := decodeNodeVersions_eq_some.mp hd
  have hraw : ∀ x < L.size, L.raw input' output' L.size x = L.raw input output L.size x := by
    intro x hx
    unfold Layout.raw
    rw [if_pos hx, if_pos hx, h _ (Layout.imageOffset_lt hx)]
  refine ⟨_, decodeNodeVersions_eq_some.mpr ⟨?_, ?_, rfl⟩, hraw⟩
  . intro b hb hlt
    rw [Layout.objVersion_congr (fun x hx => hraw x (by omega)), hblocks b hb hlt, h]
    rw [Layout.transSize_eq]
    omega
  . rw [Layout.isConsistent_iff] at hcons ⊢
    intro x hx
    unfold Layout.nodeVersion
    rw [hraw _ (Layout.entryOffset_lt L.entryNum_pos), hraw x (Layout.lt_of_mem_versionOffsets hx)]
    exact hcons x hx

theorem decode_encode (input output output' : Buffer)
    : ∃ out, decodeNodeVersions L (encodeNodeVersions L input output) output' = some out
        ∧ ∀ x < L.size, out x = incrementNodeVersions L input x := by
  have hraw : ∀ x < L.size,
      L.raw (encodeNodeVersions L input output) output' L.size x = incrementNodeVersions L input x := by
    intro x hx
    unfold Layout.raw
    rw [if_pos hx, encodeNodeVersions_eq (Layout.imageOffset_lt hx), Layout.image_imageOffset]
  refine ⟨_, decodeNodeVersions_eq_some.mpr ⟨?_, ?_, rfl⟩, hraw⟩
  . intro b _ hlt
    rw [Layout.objVersion_congr (fun x hx => hraw x (by omega)), encodeNodeVersions_eq]
    . unfold Layout.image
      rw [if_neg (by omega), if_pos (by omega), PackedVersion.ofByte_toByte]
      congr 1
      omega
    . rw [Layout.transSize_eq]
      omega
  . rw [Layout.isConsistent_iff]
    intro x hx
    have hzero := Layout.entryOffset_mem L.entryNum_pos
    have hversion : ∀ y ∈ L.versionOffsets,
        Layout.nodeVersion (L.raw (encodeNodeVersions L input output) output' L.size) y
          = Layout.nodeVersion input (L.entryOffset 0) + 1 := by
      intro y hy
      rw [← nodeVersion_increment hy]
      unfold Layout.nodeVersion
      rw [hraw y (Layout.lt_of_mem_versionOffsets hy)]
    rw [hversion _ hzero, hversion x hx]

end VersionManager

end Specs

end Rolex

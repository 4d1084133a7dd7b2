import Rolex.Dsm.Apart
import Rolex.Hopscotch.Index
import Rolex.Index.Search

/-!
This module contains the remote memory of the `HOPSCOTCH_LEAF_NODE` builds as groups: a leaf with its
synonym leaf and its lock word. A WRITE to a node of one group leaves the others as they are.
-/

namespace Rolex

namespace Build

variable {b : Build} {a : GlobalAddress}

theorem isLeaf_of_mem {l r : Nat} {leafAddrs : List GlobalAddress}
    (h : b.leafAddresses l r = some leafAddrs) (ha : a ∈ leafAddrs)
    : b.IsLeaf a := by
  obtain ⟨leafIdx, -, hidx⟩ := (mem_of_mapM_eq_some h a).mp ha
  exact ⟨leafIdx, hidx⟩

end Build

/-- A leaf with its synonym leaf and its lock word. -/
structure HopGroup where
  leaf : HopNode
  syn : Option HopNode
  lock : BitVec 64

namespace Hop

variable {ι : Type} {b : Build}

namespace Mem

def group (m : Mem ι) (a : GlobalAddress) : HopGroup where
  leaf := m.node a
  syn := if m.ptr a = GlobalAddress.null then none else some (m.node (m.ptr a))
  lock := m.lock a

/-- The synonym pointers lead to blocks that are in use, and no two to the same one. -/
structure Shape (b : Build) (m : Mem ι) : Prop where
  dsm : m.dsm.Inv b.leafBuild
  used : ∀ {a}, b.IsLeaf a → m.ptr a ≠ GlobalAddress.null →
    (m.ptr a, b.leafBuild.allocationLeafSize) ∈ m.dsm.live
  inj : ∀ {a c}, b.IsLeaf a → b.IsLeaf c → a ≠ c → m.ptr a ≠ GlobalAddress.null → m.ptr a ≠ m.ptr c

theorem init_shape (b : Build) (id : ι → Nat) : (init b id).Shape b :=
  ⟨Cluster.init_inv id, fun _ h => absurd rfl h, fun _ _ _ h => absurd rfl h⟩

variable {m : Mem ι} {a c addr : GlobalAddress} {n n' : HopNode} {w : BitVec 64}

theorem Shape.lt_ptr (h : m.Shape b) (ha : b.IsLeaf a) (hptr : m.ptr a ≠ GlobalAddress.null)
    : b.leafBuild.synRegionOffset ≤ (m.ptr a).offset.toNat :=
  h.dsm.synRegionOffset_le_of_live (h.used ha hptr)

theorem Shape.ptr_ne (h : m.Shape b) (ha : b.IsLeaf a) (hptr : m.ptr a ≠ GlobalAddress.null)
    (hc : b.IsLeaf c)
    : m.ptr a ≠ c := by
  rintro rfl
  have h1 := hc.offset_lt
  have h2 := h.lt_ptr ha hptr
  omega

@[simp]
theorem node_setLock (m : Mem ι) (c : GlobalAddress) (w : BitVec 64)
    : (m.setLock c w).node = m.node := rfl

theorem shape_setLock : (m.setLock c w).Shape b ↔ m.Shape b := by
  constructor
  . intro h
    exact ⟨h.dsm, h.used, h.inj⟩
  . intro h
    exact ⟨h.dsm, h.used, h.inj⟩

theorem node_setNode (m : Mem ι) (a c : GlobalAddress) (n : HopNode)
    : (m.setNode a n).node c = if c = a then n else m.node c := by
  simp [setNode, Function.update_apply]

theorem ptr_setNode (m : Mem ι) (a c : GlobalAddress) (n : HopNode)
    : (m.setNode a n).ptr c = if c = a then n.metadata.synonymPtr else m.ptr c := by
  unfold ptr
  rw [node_setNode]
  split <;> rfl

theorem Shape.setNode_leaf (h : m.Shape b) (hn : n.metadata.synonymPtr = m.ptr a)
    : (m.setNode a n).Shape b := by
  have hptr : ∀ c, (m.setNode a n).ptr c = m.ptr c := by
    intro c
    rw [ptr_setNode]
    split
    . next hc => rw [hc, hn]
    . rfl
  refine ⟨h.dsm, ?_, ?_⟩
  . intro c hc
    rw [hptr]
    exact h.used hc
  . intro c d hc hd
    rw [hptr, hptr]
    exact h.inj hc hd

theorem Shape.setNode_syn (h : m.Shape b) (ha : ¬ b.IsLeaf a)
    : (m.setNode a n).Shape b := by
  have hptr : ∀ c, b.IsLeaf c → (m.setNode a n).ptr c = m.ptr c := by
    intro c hc
    rw [ptr_setNode, if_neg]
    rintro rfl
    exact ha hc
  refine ⟨h.dsm, ?_, ?_⟩
  . intro c hc
    rw [hptr c hc]
    exact h.used hc
  . intro c d hc hd
    rw [hptr c hc, hptr d hd]
    exact h.inj hc hd

theorem Shape.ptr_not_isLeaf (h : m.Shape b) (ha : b.IsLeaf a) (hptr : m.ptr a ≠ GlobalAddress.null)
    : ¬ b.IsLeaf (m.ptr a) :=
  fun hleaf => h.ptr_ne ha hptr hleaf rfl

structure Fresh (b : Build) (m : Mem ι) (addr : GlobalAddress) : Prop where
  live : (addr, b.leafBuild.allocationLeafSize) ∈ m.dsm.live
  unused : ∀ c, b.IsLeaf c → m.ptr c ≠ addr
  le : b.leafBuild.synRegionOffset ≤ addr.offset.toNat

theorem Fresh.ne_null (h : m.Fresh b addr) : addr ≠ GlobalAddress.null := by
  rintro rfl
  have h1 := h.le
  have h2 := b.leafBuild.synRegionOffset_spec.2.1
  have h0 : GlobalAddress.null.offset.toNat = 0 := rfl
  omega

theorem Fresh.not_isLeaf (h : m.Fresh b addr) : ¬ b.IsLeaf addr := by
  intro hleaf
  have h1 := h.le
  have h2 := hleaf.offset_lt
  omega

theorem Shape.setNode_link (h : m.Shape b) (hfresh : m.Fresh b addr) (hn : n.metadata.synonymPtr = addr)
    : (m.setNode a n).Shape b := by
  refine ⟨h.dsm, ?_, ?_⟩
  . intro c hc
    rw [ptr_setNode]
    split
    . rw [hn]
      exact fun _ => hfresh.live
    . exact h.used hc
  . intro c d hc hd hcd
    rw [ptr_setNode, ptr_setNode, hn]
    by_cases hca : c = a
    . rw [if_pos hca, if_neg (fun e => hcd (hca.trans e.symm))]
      exact fun _ e => hfresh.unused d hd e.symm
    . rw [if_neg hca]
      split
      . exact fun _ => hfresh.unused c hc
      . exact h.inj hc hd hcd

theorem Shape.alloc [DecidableEq ι] (h : m.Shape b) {dsm : Cluster ι} {i : ι} {targetNode : Int}
    (hnode : targetNode < memoryNodeNum)
    (hdsm : m.dsm.allocSync i b.leafBuild.allocationLeafSize cachelineAlignBit targetNode = some (addr, dsm))
    : ({ m with dsm } : Mem ι).Shape b ∧ ({ m with dsm } : Mem ι).Fresh b addr := by
  have hpos : 1 ≤ b.leafBuild.allocationLeafSize := by
    have := b.leafBuild.lockOffset_spec.2.1
    omega
  have hsize : b.leafBuild.allocationLeafSize ≤ kChunkSize := by
    have h1 := b.leafBuild.lockOffset_spec.2.2.2.1
    have h2 := b.leafBuild.lockOffset_spec.2.2.2.2.2
    have h3 : kChunkSize = 16777216 := rfl
    omega
  obtain ⟨hinv, hlive⟩ := Cluster.allocSync_spec h.dsm hpos hsize (.inl rfl) hnode hdsm
  have hmem : (addr, b.leafBuild.allocationLeafSize) ∈ dsm.live := by
    rw [hlive]
    exact List.mem_cons_self
  have hle : b.leafBuild.synRegionOffset ≤ addr.offset.toNat := hinv.synRegionOffset_le_of_live hmem
  refine ⟨⟨hinv, ?_, h.inj⟩, hmem, ?_, hle⟩
  . intro a ha hptr
    change _ ∈ dsm.live
    rw [hlive]
    exact List.mem_cons_of_mem _ (h.used ha hptr)
  . intro c hc heq
    have hne : m.ptr c ≠ GlobalAddress.null := by
      have heq' : m.ptr c = addr := heq
      intro hnull
      rw [← heq', hnull] at hle
      have h0 : GlobalAddress.null.offset.toNat = 0 := rfl
      have := b.leafBuild.synRegionOffset_spec.2.1
      omega
    exact Cluster.ne_of_live_cons hinv hlive hpos (h.used hc hne) hpos heq

end Mem

/-- The group of the leaf at `a` has become `g`, all others are as they were. -/
structure GroupStep (b : Build) (m : Mem ι) (a : GlobalAddress) (g : HopGroup) (m' : Mem ι) : Prop where
  group : ∀ c, b.IsLeaf c → m'.group c = if c = a then g else m.group c
  shape : m'.Shape b

variable {m m' : Mem ι} {a c addr : GlobalAddress} {n n' : HopNode} {s : Option HopNode} {w w' : BitVec 64}

theorem Mem.group_eq (hnode : m.node a = n) (hlock : m.lock a = w)
    (hnone : n.metadata.synonymPtr = GlobalAddress.null → s = none)
    (hsome : n.metadata.synonymPtr ≠ GlobalAddress.null → s = some (m.node n.metadata.synonymPtr))
    : m.group a = ⟨n, s, w⟩ := by
  unfold group ptr
  rw [hnode, hlock]
  split
  . next hnull => rw [hnone hnull]
  . next hnull => rw [hsome hnull]

theorem Mem.group_congr (hnode : m'.node c = m.node c)
    (hsyn : m.ptr c ≠ GlobalAddress.null → m'.node (m.ptr c) = m.node (m.ptr c))
    (hlock : m'.lock c = m.lock c)
    : m'.group c = m.group c := by
  apply group_eq hnode hlock
  . intro hnull
    exact if_pos hnull
  . intro hnull
    change _ = some (m'.node (m.ptr c))
    rw [hsyn hnull]
    exact if_neg hnull

theorem Mem.group_syn_of_ptr_ne (hptr : m.ptr a ≠ GlobalAddress.null)
    : (m.group a).syn = some (m.node (m.ptr a)) :=
  if_neg hptr

theorem Mem.group_syn_of_ptr_eq (hptr : m.ptr a = GlobalAddress.null) : (m.group a).syn = none :=
  if_pos hptr

theorem GroupStep.of_frame {g : HopGroup} (addr : GlobalAddress) (h : m.Shape b) (ha : b.IsLeaf a)
    (hnode : ∀ c, c ≠ a → c ≠ addr → m'.node c = m.node c) (hlock : ∀ c, c ≠ a → m'.lock c = m.lock c)
    (haddr : ∀ c, b.IsLeaf c → c ≠ a → c ≠ addr ∧ (m.ptr c ≠ GlobalAddress.null → m.ptr c ≠ addr))
    (hshape : m'.Shape b) (hgroup : m'.group a = g)
    : GroupStep b m a g m' := by
  refine ⟨fun c hc => ?_, hshape⟩
  split
  . next hca => rw [hca, hgroup]
  . next hca =>
    apply Mem.group_congr
    . exact hnode c hca (haddr c hc hca).1
    . intro hptr
      exact hnode _ (h.ptr_ne hc hptr ha) ((haddr c hc hca).2 hptr)
    . exact hlock c hca

theorem lock_setLock_setLock : ((m.setLock a w).setLock a w').lock = Function.update m.lock a w' := by
  simp [Mem.setLock]

theorem groupStep_lock (h : m.Shape b) (ha : b.IsLeaf a)
    : GroupStep b m a { m.group a with lock := w' } ((m.setLock a w).setLock a w') := by
  apply GroupStep.of_frame a h ha
  . intro c _ _
    rfl
  . intro c hc
    rw [lock_setLock_setLock, Function.update_of_ne hc]
  . intro c hc hca
    exact ⟨hca, fun hptr => h.ptr_ne hc hptr ha⟩
  . exact Mem.shape_setLock.mpr (Mem.shape_setLock.mpr h)
  . apply Mem.group_eq rfl
    . rw [lock_setLock_setLock, Function.update_self]
    . exact fun hnull => if_pos hnull
    . exact fun hnull => if_neg hnull

theorem groupStep_leaf (h : m.Shape b) (ha : b.IsLeaf a) (hn : n.metadata.synonymPtr = m.ptr a)
    : GroupStep b m a { m.group a with leaf := n, lock := w' }
        (((m.setLock a w).setNode a n).setLock a w') := by
  apply GroupStep.of_frame a h ha
  . intro c hca _
    simp [Mem.node_setNode, hca]
  . intro c hc
    simp [Mem.setLock, Mem.setNode, hc]
  . intro c hc hca
    exact ⟨hca, fun hptr => h.ptr_ne hc hptr ha⟩
  . exact Mem.shape_setLock.mpr ((Mem.shape_setLock.mpr h).setNode_leaf hn)
  . apply Mem.group_eq
    . simp [Mem.node_setNode]
    . simp [Mem.setLock, Mem.setNode]
    . rw [hn]
      exact fun hnull => if_pos hnull
    . rw [hn]
      intro hnull
      rw [Mem.node_setLock, Mem.node_setNode, if_neg (h.ptr_ne ha hnull ha)]
      exact if_neg hnull

theorem groupStep_syn (h : m.Shape b) (ha : b.IsLeaf a) (hptr : m.ptr a ≠ GlobalAddress.null)
    : GroupStep b m a { m.group a with syn := some n, lock := w' }
        (((m.setLock a w).setNode (m.ptr a) n).setLock a w') := by
  apply GroupStep.of_frame (m.ptr a) h ha
  . intro c _ hc
    simp [Mem.node_setNode, hc]
  . intro c hc
    simp [Mem.setLock, Mem.setNode, hc]
  . intro c hc hca
    exact ⟨fun e => h.ptr_ne ha hptr hc e.symm, h.inj hc ha hca⟩
  . exact Mem.shape_setLock.mpr ((Mem.shape_setLock.mpr h).setNode_syn (h.ptr_not_isLeaf ha hptr))
  . apply Mem.group_eq
    . simp [Mem.node_setNode, Mem.group, (h.ptr_ne ha hptr ha).symm]
    . simp [Mem.setLock, Mem.setNode]
    . exact fun hnull => absurd hnull hptr
    . intro _
      change some n = some ((((m.setLock a w).setNode (m.ptr a) n).setLock a w').node (m.ptr a))
      rw [Mem.node_setLock, Mem.node_setNode, if_pos rfl]

theorem groupStep_link (h : m.Shape b) (ha : b.IsLeaf a) (hfresh : m.Fresh b addr)
    (hn : n.metadata.synonymPtr = addr)
    : GroupStep b m a ⟨n, some n', w'⟩
        ((((m.setLock a w).setNode addr n').setNode a n).setLock a w') := by
  have hne : a ≠ addr := by
    rintro rfl
    exact hfresh.not_isLeaf ha
  apply GroupStep.of_frame addr h ha
  . intro c hca hc
    simp [Mem.node_setNode, hc, hca]
  . intro c hc
    simp [Mem.setLock, Mem.setNode, hc]
  . intro c hc _
    refine ⟨?_, fun _ => hfresh.unused c hc⟩
    rintro rfl
    exact hfresh.not_isLeaf hc
  . apply Mem.shape_setLock.mpr
    apply ((Mem.shape_setLock.mpr h).setNode_syn hfresh.not_isLeaf).setNode_link _ hn
    refine ⟨hfresh.live, ?_, hfresh.le⟩
    intro c hc
    rw [Mem.ptr_setNode, if_neg]
    . exact hfresh.unused c hc
    . rintro rfl
      exact hfresh.not_isLeaf hc
  . apply Mem.group_eq
    . simp [Mem.node_setNode]
    . simp [Mem.setLock, Mem.setNode]
    . rw [hn]
      exact fun hnull => absurd hnull hfresh.ne_null
    . rw [hn]
      intro _
      rw [Mem.node_setLock, Mem.node_setNode, if_neg hne.symm, Mem.node_setNode, if_pos rfl]

end Hop

end Rolex

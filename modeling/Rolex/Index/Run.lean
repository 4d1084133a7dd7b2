import Rolex.Dsm.Apart
import Rolex.Index.Basic

/-!
This module contains how the programs of the index run without interruption: the shape of the
memory they keep, and which groups of nodes they change.
-/

namespace Rolex

/-- `a` is the address of a leaf (and not of a synonym leaf). -/
abbrev IsLeaf (a : GlobalAddress) : Prop := LeafBuild.plain.IsLeaf a

namespace Mem

variable {ι : Type}

/-- `a` lies behind the leaves, and no block in use starts there. -/
def Unused (m : Mem ι) (a : GlobalAddress) : Prop :=
  LeafBuild.plain.synRegionOffset ≤ a.offset.toNat ∧ ∀ size, (a, size) ∉ m.dsm.live

/--
The synonym pointers lead to blocks that are in use, and no two to the same one. What is not in use is
still zero.
-/
structure Shape (m : Mem ι) : Prop where
  dsm : m.dsm.Inv .plain
  used : ∀ {a}, IsLeaf a → m.ptr a ≠ GlobalAddress.null →
    (m.ptr a, LeafBuild.plain.allocationLeafSize) ∈ m.dsm.live
  inj : ∀ {a b}, IsLeaf a → IsLeaf b → a ≠ b → m.ptr a ≠ GlobalAddress.null → m.ptr a ≠ m.ptr b
  clean : ∀ {b}, m.Unused b → m.node b = LeafNode.zero

theorem init_shape : (init : Mem ι).Shape :=
  ⟨Cluster.init_inv _, fun _ h => absurd rfl h, fun _ _ _ h => absurd rfl h, fun _ => rfl⟩

theorem not_unused_of_isLeaf {m : Mem ι} {a : GlobalAddress} (ha : IsLeaf a) : ¬ m.Unused a := by
  rintro ⟨h, -⟩
  have := ha.offset_lt
  omega

theorem not_unused_of_live {m : Mem ι} {a : GlobalAddress} {size : Nat} (h : (a, size) ∈ m.dsm.live)
    : ¬ m.Unused a :=
  fun hunused => hunused.2 size h

theorem Shape.ptr_not_isLeaf {m : Mem ι} (h : m.Shape) {a : GlobalAddress} (ha : IsLeaf a)
    (hptr : m.ptr a ≠ GlobalAddress.null)
    : ¬ IsLeaf (m.ptr a) := by
  intro hleaf
  have h1 := hleaf.offset_lt
  have h2 := h.dsm.synRegionOffset_le_of_live (h.used ha hptr)
  dsimp only at h2
  omega

theorem Shape.ptr_ne {m : Mem ι} (h : m.Shape) {a b : GlobalAddress} (ha : IsLeaf a)
    (hptr : m.ptr a ≠ GlobalAddress.null) (hb : IsLeaf b)
    : m.ptr a ≠ b := by
  intro heq
  apply h.ptr_not_isLeaf ha hptr
  rwa [heq]

@[simp]
theorem group_setLock (m : Mem ι) (a b : GlobalAddress) (w : BitVec 64)
    : (m.setLock b w).group a = m.group a := rfl

@[simp]
theorem shape_setLock {m : Mem ι} {b : GlobalAddress} {w : BitVec 64}
    : (m.setLock b w).Shape ↔ m.Shape := by
  constructor
  . intro h
    exact ⟨h.dsm, h.used, h.inj, h.clean⟩
  . intro h
    exact ⟨h.dsm, h.used, h.inj, h.clean⟩

theorem node_setNode (m : Mem ι) (a b : GlobalAddress) (n : LeafNode)
    : (m.setNode a n).node b = if b = a then n else m.node b := by
  simp [setNode, Function.update_apply]

theorem ptr_setNode (m : Mem ι) (a b : GlobalAddress) (n : LeafNode)
    : (m.setNode a n).ptr b = if b = a then n.metadata.synonymPtr else m.ptr b := by
  unfold ptr
  rw [node_setNode]
  split <;> rfl

theorem Shape.clean_setNode {m : Mem ι} (h : m.Shape) {a b : GlobalAddress} {n : LeafNode}
    (ha : ¬ m.Unused a) (hb : m.Unused b)
    : (m.setNode a n).node b = LeafNode.zero := by
  rw [node_setNode, if_neg]
  . exact h.clean hb
  . rintro rfl
    exact ha hb

theorem Shape.setNode_leaf {m : Mem ι} (h : m.Shape) {a : GlobalAddress} {n : LeafNode}
    (ha : IsLeaf a) (hn : n.metadata.synonymPtr = m.ptr a)
    : (m.setNode a n).Shape := by
  have hptr : ∀ b, (m.setNode a n).ptr b = m.ptr b := by
    intro b
    rw [ptr_setNode]
    split
    . next hb => rw [hb, hn]
    . rfl
  refine ⟨h.dsm, ?_, ?_, h.clean_setNode (not_unused_of_isLeaf ha)⟩
  . intro b hb
    rw [hptr]
    exact h.used hb
  . intro b c hb hc
    rw [hptr, hptr]
    exact h.inj hb hc

theorem Shape.setNode_syn {m : Mem ι} (h : m.Shape) {a : GlobalAddress} {n : LeafNode}
    (ha : ¬ IsLeaf a) (hused : ¬ m.Unused a)
    : (m.setNode a n).Shape := by
  have hptr : ∀ b, IsLeaf b → (m.setNode a n).ptr b = m.ptr b := by
    intro b hb
    rw [ptr_setNode, if_neg]
    rintro rfl
    exact ha hb
  refine ⟨h.dsm, ?_, ?_, h.clean_setNode hused⟩
  . intro b hb
    rw [hptr b hb]
    exact h.used hb
  . intro b c hb hc
    rw [hptr b hb, hptr c hc]
    exact h.inj hb hc

theorem group_setNode_of_ne {m : Mem ι} {a b : GlobalAddress} {n : LeafNode} (hleaf : b ≠ a)
    (hptr : m.ptr b ≠ GlobalAddress.null → m.ptr b ≠ a)
    : (m.setNode a n).group b = m.group b := by
  unfold group
  rw [ptr_setNode, node_setNode, if_neg hleaf, if_neg hleaf]
  by_cases hnull : m.ptr b = GlobalAddress.null
  . rw [if_pos hnull, if_pos hnull]
  . rw [if_neg hnull, if_neg hnull, node_setNode, if_neg (hptr hnull)]

theorem Shape.group_setNode_leaf {m : Mem ι} (h : m.Shape) {a b : GlobalAddress} {n : LeafNode}
    (ha : IsLeaf a) (hb : IsLeaf b) (hn : n.metadata.synonymPtr = m.ptr a)
    : (m.setNode a n).group b = if b = a then { m.group a with leaf := n } else m.group b := by
  by_cases hba : b = a
  . subst hba
    unfold group
    simp only [ptr_setNode, node_setNode, if_true, hn]
    by_cases hnull : m.ptr b = GlobalAddress.null
    . simp [hnull]
    . rw [if_neg hnull, if_neg (h.ptr_ne hb hnull hb), if_neg hnull]
  . rw [if_neg hba]
    exact group_setNode_of_ne hba (fun hnull => h.ptr_ne hb hnull ha)

theorem Shape.group_setNode_syn {m : Mem ι} (h : m.Shape) {a b : GlobalAddress} {n : LeafNode}
    (ha : IsLeaf a) (hb : IsLeaf b) (hptr : m.ptr a ≠ GlobalAddress.null)
    : (m.setNode (m.ptr a) n).group b
        =
      if b = a then { m.group a with syn := some n } else m.group b := by
  have hbp : b ≠ m.ptr a := fun e => h.ptr_ne ha hptr hb e.symm
  by_cases hba : b = a
  . subst hba
    simp [group, ptr_setNode, node_setNode, hbp, hptr]
  . rw [if_neg hba]
    exact group_setNode_of_ne hbp (h.inj hb ha hba)

/-- `addr` is in use and no leaf points to it yet. -/
structure Fresh (m : Mem ι) (addr : GlobalAddress) : Prop where
  live : (addr, LeafBuild.plain.allocationLeafSize) ∈ m.dsm.live
  le : LeafBuild.plain.synRegionOffset ≤ addr.offset.toNat
  unused : ∀ b, IsLeaf b → m.ptr b ≠ addr

theorem Fresh.ne_null {m : Mem ι} {addr : GlobalAddress} (h : m.Fresh addr)
    : addr ≠ GlobalAddress.null := by
  rintro rfl
  have hle := h.le
  have hpos := LeafBuild.plain.synRegionOffset_spec.2.1
  have h0 : GlobalAddress.null.offset.toNat = 0 := rfl
  omega

theorem Fresh.not_isLeaf {m : Mem ι} {addr : GlobalAddress} (h : m.Fresh addr) : ¬ IsLeaf addr := by
  intro hleaf
  have h1 := h.le
  have h2 := hleaf.offset_lt
  omega

theorem Shape.setNode_link {m : Mem ι} (h : m.Shape) {a addr : GlobalAddress} {n : LeafNode}
    (ha : IsLeaf a) (hfresh : m.Fresh addr) (hn : n.metadata.synonymPtr = addr)
    : (m.setNode a n).Shape := by
  refine ⟨h.dsm, ?_, ?_, h.clean_setNode (not_unused_of_isLeaf ha)⟩
  . intro b hb
    rw [ptr_setNode]
    split
    . rw [hn]
      exact fun _ => hfresh.live
    . exact h.used hb
  . intro b c hb hc hbc
    rw [ptr_setNode, ptr_setNode, hn]
    by_cases hba : b = a
    . rw [if_pos hba, if_neg (fun e => hbc (hba.trans e.symm))]
      exact fun _ => fun e => hfresh.unused c hc e.symm
    . rw [if_neg hba]
      split
      . exact fun _ => hfresh.unused b hb
      . exact h.inj hb hc hbc

theorem Shape.group_link {m : Mem ι} (h : m.Shape) {a addr b : GlobalAddress} {n s : LeafNode}
    (ha : IsLeaf a) (hb : IsLeaf b) (hfresh : m.Fresh addr) (hn : n.metadata.synonymPtr = addr)
    : ((m.setNode a n).setNode addr s).group b = if b = a then ⟨n, some s⟩ else m.group b := by
  have hne : ∀ {c}, IsLeaf c → c ≠ addr := by
    rintro c hc rfl
    exact hfresh.not_isLeaf hc
  unfold group
  rw [ptr_setNode, ptr_setNode, node_setNode, node_setNode, if_neg (hne hb), if_neg (hne hb)]
  by_cases hba : b = a
  . simp only [if_pos hba, hn, if_neg hfresh.ne_null, node_setNode, if_true]
  . simp only [if_neg hba]
    by_cases hnull : m.ptr b = GlobalAddress.null
    . simp [hnull]
    . rw [if_neg hnull, node_setNode, if_neg (hfresh.unused b hb), node_setNode,
        if_neg (h.ptr_ne hb hnull ha), if_neg hnull]

theorem Shape.alloc [DecidableEq ι] {m : Mem ι} (h : m.Shape) (i : ι)
    : (exec i .allocLeaf m).2.Shape
        ∧ (∀ blk ∈ m.dsm.live, blk ∈ (exec i .allocLeaf m).2.dsm.live)
        ∧ ∀ addr, (exec i .allocLeaf m).1 = some addr →
            (exec i .allocLeaf m).2.Fresh addr ∧ m.Unused addr := by
  have hpos : 1 ≤ LeafBuild.plain.allocationLeafSize := by decide
  unfold exec
  dsimp only
  cases hres : m.dsm.allocSync i LeafBuild.plain.allocationLeafSize cachelineAlignBit (-1) with
  | none => exact ⟨h, fun _ hblk => hblk, by simp⟩
  | some res =>
    obtain ⟨addr, dsm⟩ := res
    obtain ⟨hinv, hlive⟩ := Cluster.allocSync_spec h.dsm hpos (by decide) (.inl rfl) (by decide) hres
    have hmem : (addr, LeafBuild.plain.allocationLeafSize) ∈ dsm.live := by
      rw [hlive]
      exact List.mem_cons_self
    have hmono : ∀ blk ∈ m.dsm.live, blk ∈ dsm.live := by
      rw [hlive]
      exact fun blk => List.mem_cons_of_mem _
    have hle := hinv.synRegionOffset_le_of_live hmem
    have hne : ∀ blk ∈ m.dsm.live, blk.1 ≠ addr :=
      fun blk hblk => Cluster.ne_of_live_cons hinv hlive hpos hblk (h.dsm.pos_of_live hblk)
    refine ⟨⟨hinv, fun ha hptr => hmono _ (h.used ha hptr), h.inj, ?_⟩, hmono, ?_⟩
    . rintro b ⟨hb, hunused⟩
      exact h.clean ⟨hb, fun size hblk => hunused size (hmono _ hblk)⟩
    . rintro _ ⟨⟩
      refine ⟨⟨hmem, hle, ?_⟩, hle, fun size hblk => hne _ hblk rfl⟩
      intro b hb heq
      by_cases hnull : m.ptr b = GlobalAddress.null
      . have hnull' : addr = GlobalAddress.null := heq.symm.trans hnull
        rw [hnull'] at hle
        exact absurd hle (by decide)
      . exact hne _ (h.used hb hnull) heq

end Mem

section Run

variable {ι : Type} [DecidableEq ι] {i : ι} {m m' : Mem ι}

@[simp]
theorem run_read {α : Type} (a : GlobalAddress) (f : LeafNode → ProgM α)
    : (Prog.op (.read a) f : ProgM α).run (exec i) m = (f (m.node a)).run (exec i) m := rfl

theorem exec_alloc_setLock (size : Nat) (a : GlobalAddress) (w : BitVec 64)
    : exec i (.alloc size) (m.setLock a w)
        =
      ((exec i (.alloc size) m).1, (exec i (.alloc size) m).2.setLock a w) := rfl

def Mem.Unlocked (m : Mem ι) (a : GlobalAddress) : Prop := 0 &&& lockBit = m.lock a &&& lockBit

omit [DecidableEq ι] in
theorem swap_all (w : BitVec 64) : (w &&& ~~~(~~~0)) ||| (~~~0 &&& ~~~0) = ~~~(0 : BitVec 64) := by
  simp

theorem exec_lock_of_unlocked {a : GlobalAddress} (hfree : m.Unlocked a)
    : exec i (.casMask a 0 (~~~0) lockBit (~~~0)) m = (m.lock a, m.setLock a (~~~0)) := by
  unfold Mem.Unlocked at hfree
  simp only [exec]
  rw [if_pos hfree, swap_all]

theorem exec_lock_of_locked {a : GlobalAddress} (hlocked : ¬ m.Unlocked a)
    : exec i (.casMask a 0 (~~~0) lockBit (~~~0)) m = (m.lock a, m) := by
  unfold Mem.Unlocked at hlocked
  simp only [exec]
  rw [if_neg hlocked]

theorem acquire_run {a : GlobalAddress} (hfree : m.Unlocked a) (attempts : Nat)
    : (lockNode.acquire a (attempts + 1)).run (exec i) m
        =
      some (m.lock a, m.setLock a (~~~0)) := by
  simp only [lockNode.acquire, Prog.call_bind, Prog.run_op]
  rw [exec_lock_of_unlocked hfree]
  exact congrArg (fun p : ProgM (BitVec 64) => p.run (exec i) _) (if_pos hfree)

theorem lockNode_run {a : GlobalAddress} (hfree : m.Unlocked a)
    : (lockNode a).run (exec i) m = some (m.lock a, m.setLock a (~~~0)) :=
  acquire_run hfree 10000001

theorem fetchNodes_run (leafAddrs : List GlobalAddress)
    : (fetchNodes leafAddrs).run (exec i) m = some (leafAddrs.map m.node, m) := by
  induction leafAddrs with
  | nil => rfl
  | cons leafAddr leafAddrs ih =>
    simp only [fetchNodes, fetchNode, Prog.call_bind, run_read]
    rw [Prog.run_bind_eq (exec i) ih]
    rfl

theorem fetchSyn_run (a : GlobalAddress)
    : (fetchSyn (m.node a)).run (exec i) m = some ((m.group a).syn, m) := by
  unfold fetchSyn Mem.group Mem.ptr
  split
  . rfl
  . rfl

/-- A plan writes nodes that belong to the leaf and the synonym leaf that were read. -/
def Plan.Fits (leaf : LeafNode) (synLeaf : Option LeafNode) : Plan → Prop
  | .existing => True
  | .writeLeaf leaf' => leaf'.metadata = leaf.metadata
  | .writeSyn _ _ => synLeaf ≠ none
  | .writeBoth leaf' _ _ => leaf'.metadata = leaf.metadata ∧ synLeaf ≠ none
  | .link leaf' _ => leaf'.metadata = leaf.metadata ∧ synLeaf = none

/-- A new synonym leaf is made exactly when there is none. -/
def SynInsert.Fits (synLeaf : Option LeafNode) : SynInsert → Prop
  | .existing => True
  | .allocated _ => synLeaf = none
  | .stored _ _ => synLeaf ≠ none

theorem insertIntoSynLeafLocally_fits (k : Key) (v : Value) (synLeaf : Option LeafNode)
    : (insertIntoSynLeafLocally k v synLeaf).Fits synLeaf := by
  cases synLeaf with
  | none => rfl
  | some s =>
    unfold insertIntoSynLeafLocally
    dsimp only
    cases s.records.findSlot k with
    | existing => trivial
    | free i => simp [SynInsert.Fits]

theorem insertLocally_fits (k : Key) (v : Value) (leaf : LeafNode) (synLeaf : Option LeafNode)
    : (insertLocally k v leaf synLeaf).Fits leaf synLeaf := by
  unfold insertLocally
  cases leaf.records.findSlot k with
  | existing => trivial
  | free i =>
    dsimp only
    split
    . have hsyn := insertIntoSynLeafLocally_fits k v synLeaf
      generalize insertIntoSynLeafLocally k v synLeaf = res at hsyn
      cases res with
      | existing => trivial
      | allocated s => exact ⟨rfl, hsyn⟩
      | stored s o => exact hsyn
    . split
      . have hsyn := insertIntoSynLeafLocally_fits
          (leaf.records.get (leaf.records.firstNull i - 1)).key
          (leaf.records.get (leaf.records.firstNull i - 1)).value synLeaf
        generalize insertIntoSynLeafLocally _ _ synLeaf = res at hsyn
        cases res with
        | existing => trivial
        | allocated s => exact ⟨rfl, hsyn⟩
        | stored s o => exact ⟨rfl, hsyn⟩
      . rfl

/-- The leaf at `a` and its synonym leaf have become `g`, all other groups are as they were. -/
structure GroupStep (m : Mem ι) (a : GlobalAddress) (g : Group) (m' : Mem ι) : Prop where
  group : ∀ b, IsLeaf b → m'.group b = if b = a then g else m.group b
  lock : m'.lock = m.lock
  shape : m'.Shape

omit [DecidableEq ι] in
theorem Mem.group_syn_ne_none {a : GlobalAddress} (h : (m.group a).syn ≠ none)
    : m.ptr a ≠ GlobalAddress.null := by
  intro hnull
  exact h (by simp [group, hnull])

omit [DecidableEq ι] in
theorem lock_restored (a : GlobalAddress) (w : BitVec 64)
    : Function.update (Function.update m.lock a w) a (m.lock a) = m.lock := by
  simp

/-- The leaf at `a` has no synonym leaf, and thread `i` can not allocate one. -/
def Mem.OutOfMemory (i : ι) (m : Mem ι) (a : GlobalAddress) : Prop :=
  (m.group a).syn = none ∧ (exec i .allocLeaf m).1 = none

omit [DecidableEq ι] in
theorem groupStep_leaf {a : GlobalAddress} {w : BitVec 64} {n : LeafNode} (hshape : m.Shape)
    (ha : IsLeaf a) (hn : n.metadata.synonymPtr = m.ptr a)
    : GroupStep m a { m.group a with leaf := n }
        (((m.setLock a w).setNode a n).setLock a (m.lock a)) := by
  have hshape' := hshape.setNode_leaf ha hn
  exact ⟨fun b hb => hshape.group_setNode_leaf ha hb hn, lock_restored a w,
    ⟨hshape'.dsm, hshape'.used, hshape'.inj, hshape'.clean⟩⟩

omit [DecidableEq ι] in
theorem groupStep_syn {a : GlobalAddress} {w : BitVec 64} {n : LeafNode} (hshape : m.Shape)
    (ha : IsLeaf a) (hptr : m.ptr a ≠ GlobalAddress.null)
    : GroupStep m a { m.group a with syn := some n }
        (((m.setLock a w).setNode (m.ptr a) n).setLock a (m.lock a)) := by
  have hshape' := hshape.setNode_syn (n := n) (hshape.ptr_not_isLeaf ha hptr)
    (Mem.not_unused_of_live (hshape.used ha hptr))
  exact ⟨fun b hb => hshape.group_setNode_syn ha hb hptr, lock_restored a w,
    ⟨hshape'.dsm, hshape'.used, hshape'.inj, hshape'.clean⟩⟩

omit [DecidableEq ι] in
theorem groupStep_both {a : GlobalAddress} {w : BitVec 64} {n s : LeafNode} (hshape : m.Shape)
    (ha : IsLeaf a) (hptr : m.ptr a ≠ GlobalAddress.null)
    (hn : n.metadata.synonymPtr = m.ptr a)
    : GroupStep m a ⟨n, some s⟩
        ((((m.setLock a w).setNode a n).setNode (m.ptr a) s).setLock a (m.lock a)) := by
  have hshape1 := hshape.setNode_leaf ha hn
  have hptr1 : (m.setNode a n).ptr a = m.ptr a := by
    rw [Mem.ptr_setNode, if_pos rfl, hn]
  have hshape2 := hshape1.setNode_syn (n := s) (hshape.ptr_not_isLeaf ha hptr)
    (Mem.not_unused_of_live (hshape.used ha hptr))
  refine ⟨fun b hb => ?_, lock_restored a w, ⟨hshape2.dsm, hshape2.used, hshape2.inj, hshape2.clean⟩⟩
  have hsyn := hshape1.group_setNode_syn (n := s) ha hb (by rwa [hptr1])
  have hleaf := fun c hc => hshape.group_setNode_leaf (b := c) ha hc hn
  rw [hptr1] at hsyn
  refine hsyn.trans ?_
  rw [hleaf b hb, hleaf a ha, if_pos rfl]
  split <;> rfl

theorem writePlan_run {a : GlobalAddress} (k : Key) (v : Value) (w : BitVec 64) (hshape : m.Shape)
    (ha : IsLeaf a)
    : (m.OutOfMemory i a
          ∧ (writePlan a (m.ptr a) (m.lock a)
              (insertLocally k v (m.group a).leaf (m.group a).syn)).run
              (exec i) (m.setLock a w) = none)
        ∨ ∃ m' addr,
        (writePlan a (m.ptr a) (m.lock a) (insertLocally k v (m.group a).leaf (m.group a).syn)).run
          (exec i) (m.setLock a w) = some ((), m')
        ∧ addr ≠ GlobalAddress.null ∧ GroupStep m a ((m.group a).insert addr k v) m' := by
  have hfits := insertLocally_fits k v (m.group a).leaf (m.group a).syn
  unfold Group.insert
  generalize insertLocally k v (m.group a).leaf (m.group a).syn = plan at hfits
  have hone : GlobalAddress.max ≠ GlobalAddress.null := by decide
  cases plan with
  | existing =>
    refine .inr ⟨(m.setLock a w).setLock a (m.lock a), _, rfl, hone,
      ⟨fun b hb => ?_, lock_restored a w, by simpa using hshape⟩⟩
    simp only [Mem.group_setLock, Plan.apply]
    split
    . next hba => rw [hba]
    . rfl
  | writeLeaf leaf =>
    have hn : leaf.bumpNodeVersions.metadata.synonymPtr = m.ptr a := by
      rw [LeafNode.bumpNodeVersions_synonymPtr, hfits]
      rfl
    exact .inr ⟨_, _, rfl, hone, groupStep_leaf hshape ha hn⟩
  | writeSyn synLeaf o =>
    exact .inr ⟨_, _, rfl, hone, groupStep_syn hshape ha (Mem.group_syn_ne_none hfits)⟩
  | writeBoth leaf synLeaf o =>
    have hn : leaf.bumpNodeVersions.metadata.synonymPtr = m.ptr a := by
      rw [LeafNode.bumpNodeVersions_synonymPtr, hfits.1]
      rfl
    exact .inr ⟨_, _, rfl, hone, groupStep_both hshape ha (Mem.group_syn_ne_none hfits.2) hn⟩
  | link leaf synLeaf =>
    obtain ⟨hshape1, -, hfresh⟩ := hshape.alloc i
    unfold Mem.OutOfMemory
    simp only [writePlan, Prog.call_bind, Prog.run_op, exec_alloc_setLock]
    cases haddr : (exec i .allocLeaf m).1 with
    | none => exact .inl ⟨⟨hfits.2, rfl⟩, rfl⟩
    | some addr =>
      replace hfresh := (hfresh addr haddr).1
      have hn : (leaf.link addr).bumpNodeVersions.metadata.synonymPtr = addr := rfl
      have hgroup := fun b hb => hshape1.group_link (b := b) (n := (leaf.link addr).bumpNodeVersions)
        (s := synLeaf.bumpNodeVersions) ha hb hfresh hn
      have hshape2 := (hshape1.setNode_link ha hfresh hn).setNode_syn
        (n := synLeaf.bumpNodeVersions) hfresh.not_isLeaf (Mem.not_unused_of_live hfresh.live)
      exact .inr ⟨_, addr, rfl, hfresh.ne_null, ⟨hgroup, lock_restored a w,
        ⟨hshape2.dsm, hshape2.used, hshape2.inj, hshape2.clean⟩⟩⟩

/-- The lock and the reads of an insert that runs alone leave the memory to step 4 as it was. -/
theorem insertLocked_run_eq {a : GlobalAddress} (k : Key) (v : Value) (hfree : m.Unlocked a)
    : (insertLocked k v a).run (exec i) m
        = ((writePlan a (m.ptr a) (m.lock a)
              (insertLocally k v (m.group a).leaf (m.group a).syn)).run (exec i)
              (m.setLock a (~~~0))).map
            (fun p => ((insertLocally k v (m.group a).leaf (m.group a).syn).overrun, p.2)) := by
  unfold insertLocked
  rw [Prog.run_bind_eq (exec i) (lockNode_run hfree)]
  simp only [fetchNode, Prog.call_bind, run_read]
  rw [Prog.run_bind_eq (exec i) (fetchSyn_run (m := m.setLock a (~~~0)) a), Prog.run_bind,
    Option.map_eq_bind]
  rfl

theorem insertLocked_run {a : GlobalAddress} (k : Key) (v : Value) (hshape : m.Shape)
    (ha : IsLeaf a) (hfree : m.Unlocked a)
    : (m.OutOfMemory i a ∧ (insertLocked k v a).run (exec i) m = none) ∨ ∃ m' addr,
        (insertLocked k v a).run (exec i) m
          = some ((insertLocally k v (m.group a).leaf (m.group a).syn).overrun, m')
        ∧ addr ≠ GlobalAddress.null ∧ GroupStep m a ((m.group a).insert addr k v) m' := by
  rw [insertLocked_run_eq k v hfree]
  rcases writePlan_run (i := i) k v (~~~0) hshape ha with ⟨hoom, hrun⟩ | ⟨m', addr, hrun, hstep⟩
  . rw [hrun]
    exact .inl ⟨hoom, rfl⟩
  . rw [hrun]
    exact .inr ⟨m', addr, rfl, hstep⟩

theorem insertLocked_run_existing {a : GlobalAddress} {k : Key} {v : Value} (hfree : m.Unlocked a)
    (hplan : insertLocally k v (m.group a).leaf (m.group a).syn = .existing)
    : (insertLocked k v a).run (exec i) m ≠ none := by
  rw [insertLocked_run_eq k v hfree, hplan]
  intro h
  cases h

end Run

end Rolex

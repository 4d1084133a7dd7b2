import Rolex.Speculative.Probe
import Rolex.Index.Sequential

/-!
This module contains `update` of the `SPECULATIVE_READ` build with sorted leaves: what it writes for a
stored key, by what its probes choose, and when this is the update that the path without speculation
makes.
-/

namespace Rolex

def LeafNode.pairAt (n : LeafNode) (t : Nat) : Key × Value := ((n.records.get t).key, (n.records.get t).value)

/-- `records[kv_idx].update(k, v)`. -/
def LeafNode.updateEntry (n : LeafNode) (kvIdx : Nat) (k : Key) (v : Value) : LeafNode :=
  { n with records := n.records.update kvIdx k v }

namespace Spec

/--
`leaf_entry_read`: the header and one record are read, the other records of the leaf buffer stay. As for
`fetchNode`, the version checks pass.
-/
def leafEntryRead (leafAddr : GlobalAddress) (idx : Nat) (leafBuffer : LeafNode) : ProgM LeafNode := do
  let node ← fetchNode leafAddr
  return ⟨node.metadata, leafBuffer.records.put idx (node.records.get idx)⟩

def reader : EntryReader Op Op.Res LeafNode where
  leafEntryRead := leafEntryRead
  key leaf idx := (leaf.records.get idx).key
  value leaf idx := (leaf.records.get idx).value

def probeRanges : ProbeRanges := ⟨(0, leafSpanSize), (0 + leafSpanSize, leafSpanSize + leafSpanSize)⟩

/-- `_search`: the address of the node that has the key and the address to lock. -/
def searchAux (cache : Cache) (L : Locals LeafNode) (k : Key)
    : ProgM (Option (GlobalAddress × GlobalAddress)) := do
  let (l, r) ← .check (cache.searchFromCache k)
  let leafAddrs ← .check (leafAddresses l r)
  let res ← speculativeSearch reader k L.syn L.searchBuffer probeRanges L.searched leafAddrs
  match res with
  | some leafAddr => return some (leafAddr, leafAddr)
  | none =>
    let res ← Rolex.searchAux cache k
    return res.map Prod.snd

/-- Steps 2 to 4 of `update`. A hit leads to `write_node_and_unlock` of the leaf buffer. -/
def updateLocked (L : Locals LeafNode) (k : Key) (v : Value) (leafAddr lockLeafAddr : GlobalAddress)
    : ProgM Unit := do
  let lockBuffer ← lockNode lockLeafAddr
  speculativeUpdate reader k L probeRanges v leafAddr
    (fun kvIdx leaf v => writeNodesAndUnlock [(leafAddr, leaf.updateEntry kvIdx k v)] lockLeafAddr lockBuffer)
    (updateLocked.readAnother k v lockLeafAddr lockBuffer leafAddr 2)

def update (cache : Cache) (L : Locals LeafNode) (k : Key) (v : Value) : ProgM Unit := do
  let res ← searchAux cache L k
  match res with
  | none => return ()
  | some (leafAddr, lockLeafAddr) => updateLocked L k v leafAddr lockLeafAddr

end Spec

namespace Mem

variable {ι : Type}

/-- The node at `b` is the leaf at `a` or its synonym leaf. -/
def NodeOf (m : Mem ι) (a b : GlobalAddress) : Prop :=
  IsLeaf a ∧ (b = a ∨ (m.ptr a ≠ GlobalAddress.null ∧ b = m.ptr a))

/-- The record `idx` of the node at `b` has the key, and the leaf at `a` is the one to lock for it. -/
structure StoredAt (m : Mem ι) (k : Key) (a b : GlobalAddress) (idx : Nat) : Prop where
  node : m.NodeOf a b
  lt : idx < leafSpanSize
  key : ((m.node b).records.get idx).key = k

/-- All records are as they were, except that the value of `k` has become `v`. -/
structure SetsValue (m : Mem ι) (k : Key) (v : Value) (m' : Mem ι) : Prop where
  lock : m'.lock = m.lock
  ptr : ∀ a, IsLeaf a → m'.ptr a = m.ptr a
  pairAt : ∀ a b, m.NodeOf a b → ∀ t, t < leafSpanSize → (m'.node b).pairAt t
    = if ((m.node b).pairAt t).1 = k then (k, v) else (m.node b).pairAt t

/-- Between two calls, and every stored key is in the group of its leaf. -/
structure Settled (cache : Cache) (m : Mem ι) : Prop where
  inv : m.Inv
  routed : ∀ {k a b idx}, k ≠ kkeyNull → m.StoredAt k a b idx → Routed cache k a

end Mem

section

variable {ι : Type} {m m' : Mem ι} {cache : Cache} {k : Key} {v : Value} {a b : GlobalAddress} {idx : Nat}

theorem Mem.nodeOf_self (ha : IsLeaf a) : m.NodeOf a a := ⟨ha, .inl rfl⟩

theorem Mem.group_has_iff (ha : IsLeaf a) (w : Value)
    : (m.group a).Has k w
        ↔
      ∃ b idx, m.StoredAt k a b idx ∧ ((m.node b).records.get idx).value = w := by
  constructor
  . rintro (⟨t, ht, hkey, hval⟩ | ⟨s, hs, t, ht, hkey, hval⟩)
    . exact ⟨a, t, ⟨nodeOf_self ha, ht, hkey⟩, hval⟩
    . have hptr := group_syn_ne_none (by rw [hs]; simp : (m.group a).syn ≠ none)
      rw [group, if_neg hptr, Option.some.injEq] at hs
      subst hs
      exact ⟨m.ptr a, t, ⟨⟨ha, .inr ⟨hptr, rfl⟩⟩, ht, hkey⟩, hval⟩
  . rintro ⟨b, t, ⟨⟨-, rfl | ⟨hptr, rfl⟩⟩, ht, hkey⟩, hval⟩
    . exact .inl ⟨t, ht, hkey, hval⟩
    . exact .inr ⟨_, if_neg hptr, t, ht, hkey, hval⟩

theorem Mem.StoredAt.has (h : m.StoredAt k a b idx)
    : (m.group a).Has k ((m.node b).records.get idx).value :=
  (group_has_iff h.node.1 _).mpr ⟨b, idx, h, rfl⟩

theorem Mem.StoredAt.unique_of_inv {b' : GlobalAddress} {idx' : Nat} (h : m.StoredAt k a b idx)
    (h' : m.StoredAt k a b' idx') (hk : k ≠ kkeyNull) (hinv : (m.group a).Inv)
    : b' = b ∧ idx' = idx := by
  have hsame : ∀ {r : Records} {n s t}, r.Sorted n → (r.get s).key = k → (r.get t).key = k → s = t := by
    intro r n s t hr hs ht
    apply hr.key_injective (hr.le_of_live (by rwa [hs])) (hr.le_of_live (by rwa [ht]))
    rw [hs, ht]
  have hsyn : m.ptr a ≠ GlobalAddress.null → (m.group a).syn = some (m.node (m.ptr a)) := fun hptr => if_neg hptr
  obtain ⟨n, hn⟩ := hinv.leaf
  obtain ⟨⟨-, hb⟩, hlt, hkey⟩ := h
  obtain ⟨⟨-, hb'⟩, hlt', hkey'⟩ := h'
  rcases hb with rfl | ⟨hptr, rfl⟩
  . rcases hb' with rfl | ⟨hptr', rfl⟩
    . exact ⟨rfl, hsame hn hkey' hkey⟩
    . have := hinv.lt _ (hsyn hptr') idx idx' hlt (by rwa [hkey'])
      exact absurd (hkey.trans hkey'.symm) (ne_of_lt this)
  . obtain ⟨j, -, hj⟩ := hinv.syn _ (hsyn hptr)
    rcases hb' with rfl | ⟨-, rfl⟩
    . have := hinv.lt _ (hsyn hptr) idx' idx hlt' (by rwa [hkey])
      exact absurd (hkey'.trans hkey.symm) (ne_of_lt this)
    . exact ⟨rfl, hsame hj hkey' hkey⟩

theorem Mem.StoredAt.unique {a' b' : GlobalAddress} {idx' : Nat} (h : m.StoredAt k a b idx)
    (hm : m.Settled cache) (hk : k ≠ kkeyNull) (h' : m.StoredAt k a' b' idx')
    : a' = a ∧ b' = b ∧ idx' = idx := by
  obtain rfl := (hm.routed hk h).unique (hm.routed hk h')
  exact ⟨rfl, h.unique_of_inv h' hk (hm.inv.group a h.node.1)⟩

theorem Mem.StoredAt.setsValue_iff (h : m.StoredAt k a b idx) (hm : m.Settled cache) (hk : k ≠ kkeyNull)
    {n : LeafNode} (hn : n.metadata.synonymPtr = m.ptr b)
    : m.SetsValue k v (m.setNode b n)
        ↔
      ∀ t, t < leafSpanSize → n.pairAt t = if t = idx then (k, v) else (m.node b).pairAt t := by
  have hkey : ∀ {a' b' t}, m.NodeOf a' b' → t < leafSpanSize →
      (((m.node b').pairAt t).1 = k ↔ b' = b ∧ t = idx) := by
    intro a' b' t hnode ht
    constructor
    . intro hkey
      exact (h.unique hm hk ⟨hnode, ht, hkey⟩).2
    . rintro ⟨rfl, rfl⟩
      exact h.key
  constructor
  . intro hset t ht
    have := hset.pairAt a b h.node t ht
    rwa [node_setNode, if_pos rfl, if_congr (hkey h.node ht) rfl rfl, if_congr (and_iff_right rfl) rfl rfl] at this
  . intro hpairs
    refine ⟨rfl, fun c _ => ?_, fun c b' hnode t ht => ?_⟩
    . rw [ptr_setNode]
      split
      . next heq => rw [hn, heq]
      . rfl
    . rw [node_setNode, if_congr (hkey hnode ht) rfl rfl]
      by_cases hb : b' = b
      . subst hb
        rw [if_pos rfl, hpairs t ht, if_congr (and_iff_right rfl) rfl rfl]
      . rw [if_neg hb, if_neg (fun hc => hb hc.1)]

theorem Mem.StoredAt.shape (h : m.StoredAt k a b idx) (hshape : m.Shape) {n : LeafNode}
    (hn : n.metadata.synonymPtr = m.ptr b)
    : (m.setNode b n).Shape := by
  obtain ⟨ha, rfl | ⟨hptr, rfl⟩⟩ := h.node
  . exact hshape.setNode_leaf ha hn
  . exact hshape.setNode_syn (hshape.ptr_not_isLeaf ha hptr) (Mem.not_unused_of_live (hshape.used ha hptr))

theorem Mem.SetsValue.nodeOf_iff (h : m.SetsValue k v m') : m'.NodeOf a b ↔ m.NodeOf a b := by
  unfold NodeOf
  apply and_congr_right
  intro ha
  rw [h.ptr a ha]

theorem Mem.SetsValue.key (h : m.SetsValue k v m') (hnode : m.NodeOf a b) (t : Nat)
    : ((m'.node b).records.get t).key = ((m.node b).records.get t).key := by
  by_cases ht : t < leafSpanSize
  . have hpair := congrArg Prod.fst (h.pairAt a b hnode t ht)
    split at hpair
    . next hkey => exact hpair.trans hkey.symm
    . exact hpair
  . rw [Records.get_of_le _ (by omega), Records.get_of_le _ (by omega)]

theorem Mem.SetsValue.storedAt_iff {k' : Key} (h : m.SetsValue k v m')
    : m'.StoredAt k' a b idx ↔ m.StoredAt k' a b idx := by
  constructor
  . intro hs
    have hnode := h.nodeOf_iff.mp hs.node
    exact ⟨hnode, hs.lt, by rw [← h.key hnode, hs.key]⟩
  . intro hs
    exact ⟨h.nodeOf_iff.mpr hs.node, hs.lt, by rw [h.key hs.node, hs.key]⟩

theorem Mem.SetsValue.group_inv (h : m.SetsValue k v m') (ha : IsLeaf a) (hinv : (m.group a).Inv)
    : (m'.group a).Inv := by
  have hleaf := h.key (m.nodeOf_self ha)
  obtain ⟨n, hn⟩ := hinv.leaf
  have hsyn : ∀ s, (m'.group a).syn = some s → m.ptr a ≠ GlobalAddress.null ∧ s = m'.node (m.ptr a) := by
    intro s hs
    rw [group, h.ptr a ha] at hs
    split at hs
    . cases hs
    . next hptr => exact ⟨hptr, (Option.some.inj hs).symm⟩
  have hold : m.ptr a ≠ GlobalAddress.null → (m.group a).syn = some (m.node (m.ptr a)) := fun hptr => if_neg hptr
  refine ⟨⟨n, hn.congr hleaf⟩, ?_, fun s hs => ?_, fun s hs => ?_, fun s hs t u ht hu => ?_⟩
  . show (if m'.ptr a = GlobalAddress.null then none else some _) = none ↔ m'.ptr a = GlobalAddress.null
    split
    . next hptr => exact ⟨fun _ => hptr, fun _ => rfl⟩
    . next hptr => exact ⟨fun hc => absurd hc (by simp), fun hc => absurd hc hptr⟩
  . obtain ⟨hptr, rfl⟩ := hsyn s hs
    exact (hinv.full _ (hold hptr)).congr hleaf
  . obtain ⟨hptr, rfl⟩ := hsyn s hs
    obtain ⟨j, hpos, hj⟩ := hinv.syn _ (hold hptr)
    exact ⟨j, hpos, hj.congr (h.key ⟨ha, .inr ⟨hptr, rfl⟩⟩)⟩
  . obtain ⟨hptr, rfl⟩ := hsyn s hs
    have hkey := h.key ⟨ha, .inr ⟨hptr, rfl⟩⟩ u
    rw [hkey] at hu ⊢
    show ((m'.node a).records.get t).key < _
    rw [hleaf t]
    exact hinv.lt _ (hold hptr) t u ht hu

theorem Mem.Settled.setsValue (hm : m.Settled cache) (h : m.SetsValue k v m') (hshape : m'.Shape)
    : m'.Settled cache where
  inv := by
    refine ⟨hshape, fun a ha => h.group_inv ha (hm.inv.group a ha), fun a ha => ?_⟩
    unfold Mem.Unlocked
    rw [h.lock]
    exact hm.inv.unlocked a ha
  routed := fun hk hs => hm.routed hk (h.storedAt_iff.mp hs)

end

section Run

variable {ι : Type} [DecidableEq ι] {i : ι} {m m' : Mem ι} {cache : Cache} {k : Key} {v : Value}
  {a b : GlobalAddress} {idx : Nat} {L : Locals LeafNode}

theorem Mem.Settled.init : (Mem.init : Mem ι).Settled cache where
  inv := Mem.init_inv
  routed := fun hk hs => Reachable.init.routed hs.node.1 hk hs.has

theorem Mem.Settled.insert {o : List Nat} (hm : m.Settled cache) (hk : k ≠ kkeyNull)
    (hrun : (insert cache k v).run (exec i) m = some (o, m'))
    : m'.Settled cache := by
  obtain ⟨c, addr, hr, haddr, -, hstep⟩ := insert_cases hm.inv hrun
  have hcases := insertLocally_cases (hm.inv.group c hr.isLeaf) hk v
  refine ⟨hm.inv.step hstep ((hm.inv.group c hr.isLeaf).insert hk haddr), ?_⟩
  intro k' a' b' idx' hk' hs
  have ha := hs.node.1
  have hhas := hs.has
  rw [hstep.group a' ha] at hhas
  have hold : ∀ {w}, (m.group a').Has k' w → Routed cache k' a' := by
    intro w hw
    obtain ⟨b'', idx'', hs', -⟩ := (Mem.group_has_iff ha w).mp hw
    exact hm.routed hk' hs'
  split at hhas
  . next heq =>
    subst heq
    rcases hcases.has_of_has_apply hk' hhas with ⟨rfl, -⟩ | hw
    . exact hr
    . exact hold hw
  . exact hold hhas

namespace Spec

/-- What the leaf buffer holds after a record has been read. -/
def buffered (m : Mem ι) (leafBuffer : LeafNode) (b : GlobalAddress) (idx : Nat) : LeafNode :=
  ⟨(m.node b).metadata, leafBuffer.records.put idx ((m.node b).records.get idx)⟩

theorem readsEntries (m : Mem ι) (leafBuffer : LeafNode)
    : ReadsEntries (exec i) m reader leafBuffer (fun b t => ((m.node b).records.get t).key)
        (buffered m leafBuffer) (fun _ => True) where
  run := fun _ _ _ _ => rfl
  key := by
    intro b t _ ht
    show ((leafBuffer.records.put t ((m.node b).records.get t)).get t).key = _
    rw [Records.get_put, if_pos ⟨rfl, ht⟩]

theorem writeNodesAndUnlock_run (n : LeafNode) (w : BitVec 64)
    : (writeNodesAndUnlock [(b, n)] a (m.lock a)).run (exec i) (m.setLock a w)
        =
      some ((), m.setNode b n.bumpNodeVersions) := by
  show some ((), Mem.setLock (Mem.setNode (m.setLock a w) b n.bumpNodeVersions) a (m.lock a)) = _
  unfold Mem.setLock Mem.setNode
  dsimp only
  rw [lock_restored a w]

theorem readAnother_run (hs : m.StoredAt k a b idx) (w : BitVec 64)
    : ∃ n, updateLocally k v (m.node b) = some n
        ∧ (updateLocked.readAnother k v a (m.lock a) b 2).run (exec i) (m.setLock a w)
          = some ((), m.setNode b n.bumpNodeVersions) := by
  obtain ⟨n, hn⟩ : ∃ n, updateLocally k v (m.node b) = some n := by
    apply Option.ne_none_iff_exists'.mp
    intro hnone
    exact updateLocally_eq_none.mp hnone idx hs.lt hs.key
  refine ⟨n, hn, ?_⟩
  rw [updateLocked.readAnother, fetchNode, Prog.call_bind, run_read]
  have hnode : (m.setLock a w).node b = m.node b := rfl
  rw [hnode, hn]
  exact writeNodesAndUnlock_run n w

theorem pairAt_update (n : LeafNode) (hidx : idx < leafSpanSize) (t : Nat)
    : (n.updateEntry idx k v).bumpNodeVersions.pairAt t
        =
      if t = idx then (k, v) else n.pairAt t := by
  obtain ⟨hkey, hvalue⟩ := Records.update_get (r := n.records) (k := k) (v := v) hidx t
  unfold LeafNode.pairAt LeafNode.updateEntry
  rw [LeafNode.bumpNodeVersions_key, LeafNode.bumpNodeVersions_value, hkey, hvalue]
  split <;> rfl

/-- The records of the leaf buffer other than `idx` hold the pairs of the node. -/
def HoldsOthers (leafBuffer node : LeafNode) (idx : Nat) : Prop :=
  ∀ t, t < leafSpanSize → t ≠ idx → leafBuffer.pairAt t = node.pairAt t

/--
Behind the lock no probe reads behind the array, and if the first one chooses the record of the key, the
leaf buffer already holds the other records of the node.
-/
def LockedSafe (m : Mem ι) (L : Locals LeafNode) (k : Key) (b : GlobalAddress) (idx : Nat) : Prop :=
  ¬ L.locked.1.Overruns L.syn b k probeRanges.leaf
    ∧ ((L.locked.1.Chooses b k probeRanges.leaf idx ∧ HoldsOthers L.leafBuffers.1 (m.node b) idx)
      ∨ (¬ L.locked.1.Chooses b k probeRanges.leaf idx ∧ ¬ L.locked.2.Overruns L.syn b k probeRanges.syn))

theorem not_chooses_syn (idxCache : IdxCache) : ¬ idxCache.Chooses b k probeRanges.syn idx := by
  rintro ⟨hsearch, hlt⟩
  have hmem := idxCache.mem_scanned_of_search b k hsearch
  have hle : ¬ probeRanges.syn.2 < probeRanges.syn.1 := by decide
  have hfst : probeRanges.syn.1 = leafSpanSize := by decide
  rw [IdxCache.scanned, if_neg hle, List.mem_range'_1] at hmem
  omega

omit [DecidableEq ι] in
theorem setsValue_buffered_iff (hm : m.Settled cache) (hk : k ≠ kkeyNull) (hs : m.StoredAt k a b idx)
    (leafBuffer : LeafNode)
    : m.SetsValue k v (m.setNode b ((buffered m leafBuffer b idx).updateEntry idx k v).bumpNodeVersions)
        ↔
      HoldsOthers leafBuffer (m.node b) idx := by
  rw [hs.setsValue_iff hm hk (by rfl)]
  apply forall₂_congr
  intro t ht
  rw [pairAt_update _ hs.lt]
  by_cases hti : t = idx
  . simp [hti]
  . have hget : (buffered m leafBuffer b idx).pairAt t = leafBuffer.pairAt t := by
      unfold buffered LeafNode.pairAt
      dsimp only
      rw [Records.get_put, if_neg (fun hc => hti hc.1.symm)]
    rw [if_neg hti, if_neg hti, hget]
    exact ⟨fun h _ => h, fun h => h hti⟩

theorem updateLocked_cases (hm : m.Settled cache) (hk : k ≠ kkeyNull) (hs : m.StoredAt k a b idx)
    : let run := (updateLocked L k v b a).run (exec i) m
      (¬ LockedSafe m L k b idx ∧ ∀ m', run = some ((), m') → ¬ m.SetsValue k v m')
        ∨ (LockedSafe m L k b idx ∧ ∃ m', run = some ((), m') ∧ m.SetsValue k v m' ∧ m'.Shape) := by
  intro run
  unfold run updateLocked
  rw [Prog.run_bind_eq (exec i) (lockNode_run (hm.inv.unlocked a hs.node.1))]
  have honly : ∀ t, t < leafSpanSize → ((((m.setLock a (~~~0)).node b).records.get t).key = k ↔ t = idx) := by
    intro t ht
    constructor
    . intro hkey
      exact (hs.unique hm hk ⟨hs.node, ht, hkey⟩).2.2
    . rintro rfl
      exact hs.key
  rcases speculativeUpdate_cases (readsEntries (i := i) (m.setLock a (~~~0)) L.leafBuffers.1)
      (readsEntries (m.setLock a (~~~0)) L.leafBuffers.2) trivial honly probeRanges v
      (fun kvIdx leaf v => writeNodesAndUnlock [(b, leaf.updateEntry kvIdx k v)] a (m.lock a))
      (updateLocked.readAnother k v a (m.lock a) b 2) with
    ⟨hover, hrun⟩ | ⟨hover, hchoose, hrun⟩ | ⟨hover, hmiss, ⟨hover₂, hrun⟩ | ⟨-, hchoose, -⟩ | ⟨hover₂, -, hrun⟩⟩
  . rw [hrun]
    exact .inl ⟨fun hsafe => hsafe.1 hover, fun m' hc => by cases hc⟩
  . -- the leaf buffer is written, with the pair at `idx`
    rw [hrun, writeNodesAndUnlock_run]
    have hothers := setsValue_buffered_iff (v := v) hm hk hs L.leafBuffers.1
    by_cases hold : HoldsOthers L.leafBuffers.1 (m.node b) idx
    . exact .inr ⟨⟨hover, .inl ⟨hchoose, hold⟩⟩, _, rfl, hothers.mpr hold, hs.shape hm.inv.shape rfl⟩
    . refine .inl ⟨?_, ?_⟩
      . rintro ⟨-, ⟨-, hold'⟩ | ⟨hmiss, -⟩⟩
        . exact hold hold'
        . exact hmiss hchoose
      . intro m' heq
        cases heq
        exact fun hset => hold (hothers.mp hset)
  . rw [hrun]
    refine .inl ⟨?_, fun m' hc => by cases hc⟩
    rintro ⟨-, ⟨hchoose, -⟩ | ⟨-, hover₂'⟩⟩
    . exact hmiss hchoose
    . exact hover₂' hover₂
  . exact absurd hchoose (not_chooses_syn _)
  . obtain ⟨n, hn, hplain⟩ := readAnother_run (i := i) (v := v) hs (~~~0)
    obtain ⟨j, hj, hkey, rfl⟩ := updateLocally_some hn
    obtain rfl := (hs.unique hm hk ⟨hs.node, hj, hkey⟩).2.2
    rw [hrun, hplain]
    refine .inr ⟨⟨hover, .inr ⟨hmiss, hover₂⟩⟩, _, rfl, ?_, hs.shape hm.inv.shape rfl⟩
    apply (hs.setsValue_iff hm hk _).mpr
    . exact fun t _ => pairAt_update _ hs.lt t
    . rfl

/-- No probe of the update reads behind the array, and the node that it writes is complete. -/
structure UpdateSafe (cache : Cache) (L : Locals LeafNode) (m : Mem ι) (k : Key) : Prop where
  search : ∀ {l r leafAddrs}, cache.searchFromCache k = some (l, r) → leafAddresses l r = some leafAddrs →
    SearchDefined (fun b t => ((m.node b).records.get t).key) L.syn k probeRanges L.searched leafAddrs
  locked : ∀ {a b idx}, m.StoredAt k a b idx → LockedSafe m L k b idx

omit [DecidableEq ι] in
theorem storedAt_of_hit {w : Value} (ha : IsLeaf a) (h : m.Hit k a b w) : ∃ idx, m.StoredAt k a b idx := by
  obtain ⟨t, ht, hkey, -⟩ := LeafNode.has_of_find h.find
  refine ⟨t, ⟨ha, ?_⟩, ht, hkey⟩
  rcases h.place with heq | ⟨hptr, heq, -⟩
  . exact .inl heq
  . exact .inr ⟨hptr, heq⟩

theorem searchAux_cases {l r : Nat} {leafAddrs : List GlobalAddress}
    (hrange : cache.searchFromCache k = some (l, r)) (hleaves : leafAddresses l r = some leafAddrs)
    : let defined :=
        SearchDefined (fun b t => ((m.node b).records.get t).key) L.syn k probeRanges L.searched leafAddrs
      (¬ defined ∧ (searchAux cache L k).run (exec i) m = none)
        ∨ (defined ∧ (∃ a b idx, m.StoredAt k a b idx
          ∧ (searchAux cache L k).run (exec i) m = some (some (b, a), m)))
        ∨ (defined ∧ (∀ a ∈ leafAddrs, ∀ b idx, ¬ m.StoredAt k a b idx)
          ∧ (searchAux cache L k).run (exec i) m = some (none, m)) := by
  intro defined
  have hleaf : ∀ {a}, a ∈ leafAddrs → IsLeaf a := by
    intro a ha
    obtain ⟨leafIdx, -, -, hidx⟩ := (mem_leafAddresses hleaves a).mp ha
    exact ⟨leafIdx, hidx⟩
  unfold searchAux
  simp only [hrange, hleaves, Prog.check_some, Prog.ret_bind]
  rcases speculativeSearch_cases (readsEntries (i := i) m L.searchBuffer) L.syn k probeRanges L.searched
    (fun _ _ => trivial) with ⟨hdef, hrun⟩ | ⟨hdef, hrun | ⟨a, ha, ⟨t, ht, hkey⟩, hrun⟩⟩
  . rw [Prog.run_bind, hrun]
    exact .inl ⟨hdef, rfl⟩
  . rw [Prog.run_bind_eq (exec i) hrun]
    dsimp only
    rw [Prog.run_bind_eq (exec i) (searchAux_run hrange hleaves)]
    cases hfind : findKey k (m.fetched leafAddrs) with
    | none =>
      refine .inr (.inr ⟨hdef, fun a ha b idx hs => ?_, rfl⟩)
      exact findKey_fetched_eq_none.mp hfind a ha _ hs.has
    | some res =>
      obtain ⟨w, b, a⟩ := res
      obtain ⟨ha, hhit⟩ := findKey_fetched_eq_some hfind
      obtain ⟨idx, hs⟩ := storedAt_of_hit (hleaf ha) hhit
      exact .inr (.inl ⟨hdef, a, b, idx, hs, rfl⟩)
  . rw [Prog.run_bind_eq (exec i) hrun]
    exact .inr (.inl ⟨hdef, a, a, t, ⟨m.nodeOf_self (hleaf ha), ht, hkey⟩, rfl⟩)

theorem update_stored (hm : m.Settled cache) (hk : k ≠ kkeyNull) (hs : m.StoredAt k a b idx)
    : let run := (update cache L k v).run (exec i) m
      (¬ UpdateSafe cache L m k ∧ ∀ m', run = some ((), m') → ¬ m.SetsValue k v m')
        ∨ (UpdateSafe cache L m k ∧ ∃ m', run = some ((), m') ∧ m.SetsValue k v m' ∧ m'.Shape) := by
  intro run
  unfold run update
  obtain ⟨l, r, leafAddrs, hrange, hleaves, hmem⟩ := (hm.routed hk hs).range
  rcases searchAux_cases (i := i) (L := L) hrange hleaves with
    ⟨hdef, hrun⟩ | ⟨hdef, a', b', idx', hs', hrun⟩ | ⟨-, hnone, -⟩
  . rw [Prog.run_bind, hrun]
    exact .inl ⟨fun hsafe => hdef (hsafe.search hrange hleaves), fun m' hc => by cases hc⟩
  . obtain ⟨rfl, rfl, rfl⟩ := hs.unique hm hk hs'
    rw [Prog.run_bind_eq (exec i) hrun]
    rcases updateLocked_cases (i := i) (L := L) (v := v) hm hk hs with ⟨hsafe, hlocked⟩ | ⟨hsafe, hlocked⟩
    . exact .inl ⟨fun h => hsafe (h.locked hs), hlocked⟩
    . refine .inr ⟨⟨fun hrange' hleaves' => ?_, fun hs₂ => ?_⟩, hlocked⟩
      . cases hrange.symm.trans hrange'
        cases hleaves.symm.trans hleaves'
        exact hdef
      . obtain ⟨-, rfl, rfl⟩ := hs.unique hm hk hs₂
        exact hsafe
  . exact absurd hs (hnone a hmem b idx)

theorem update_absent (hk : ∀ a b idx, ¬ m.StoredAt k a b idx)
    (hrun : (update cache L k v).run (exec i) m = some ((), m'))
    : m' = m := by
  unfold update at hrun
  obtain ⟨res, m₁, hsearch, hrest⟩ := (Prog.run_bind_eq_some _).mp hrun
  cases hrange : cache.searchFromCache k with
  | none =>
    unfold searchAux at hsearch
    simp [hrange] at hsearch
  | some lr =>
    obtain ⟨l, r⟩ := lr
    cases hleaves : leafAddresses l r with
    | none =>
      unfold searchAux at hsearch
      simp [hrange, hleaves] at hsearch
    | some leafAddrs =>
      rcases searchAux_cases (i := i) (L := L) (m := m) hrange hleaves with
        ⟨-, hrun'⟩ | ⟨-, a, b, idx, hs, -⟩ | ⟨-, -, hrun'⟩
      . rw [hrun'] at hsearch
        cases hsearch
      . exact absurd hs (hk a b idx)
      . rw [hrun'] at hsearch
        cases hsearch
        cases hrest
        rfl

variable (cache) in
/-- The memories that inserts and updates lead to, every update of a stored key being safe. -/
inductive Reachable : Mem ι → Prop
  | init : Reachable Mem.init
  | insert {i : ι} {m m' : Mem ι} {k : Key} {v : Value} {o : List Nat} (h : Reachable m)
      (hk : k ≠ kkeyNull) (hrun : (insert cache k v).run (exec i) m = some (o, m')) : Reachable m'
  | update {i : ι} {m m' : Mem ι} {L : Locals LeafNode} {k : Key} {v : Value} (h : Reachable m)
      (hk : k ≠ kkeyNull) (hsafe : (∃ a b idx, m.StoredAt k a b idx) → UpdateSafe cache L m k)
      (hrun : (update cache L k v).run (exec i) m = some ((), m')) : Reachable m'

theorem Reachable.settled (h : Reachable cache m) : m.Settled cache := by
  induction h with
  | init => exact Mem.Settled.init
  | insert h hk hrun ih => exact ih.insert hk hrun
  | @update i m m' L k v h hk hsafe hrun ih =>
    by_cases hst : ∃ a b idx, m.StoredAt k a b idx
    . obtain ⟨a, b, idx, hs⟩ := hst
      rcases update_stored (i := i) (L := L) (v := v) ih hk hs with ⟨hrisky, -⟩ | ⟨-, m₁, hrun', hset, hshape⟩
      . exact absurd (hsafe ⟨a, b, idx, hs⟩) hrisky
      . cases hrun'.symm.trans hrun
        exact ih.setsValue hset hshape
    . obtain rfl := update_absent (fun a b idx hs => hst ⟨a, b, idx, hs⟩) hrun
      exact ih

end Spec

end Run

end Rolex

import Rolex.Hopscotch.Lookup
import Rolex.Speculative.LeafUpdate

/-!
This module contains `update` of the `SPECULATIVE_READ` builds with `HOPSCOTCH_LEAF_NODE`: what it writes
for a stored key, by what its probes choose, and when this is the update that the path without speculation
makes.
-/

namespace Rolex

namespace Hop

namespace Spec

section Calls

variable (b : Build) (hash : Key → Fin leafSpanSize) (rounds : Nat)

/--
`leaf_entry_read` with at most `rounds` rounds: one record is read, with the header or the copy of the
metadata in front of it. The other records of the leaf buffer stay.
-/
def leafEntryRead (leafAddr : GlobalAddress) (idx : Nat) (leafBuffer : HopNode) : Nat → ProgM HopNode
  | 0 => .fail
  | rounds + 1 =>
    if b.metadataReplication then do
      let node ← .call (Op.read leafAddr (hasMetadata idx 1) idx 1)
      let e := node.records.getEntry idx
      if hasMetadata idx 1 ∧ node.metadata.hVersion.nodeVersion ≠ e.hVersion.nodeVersion then
        leafEntryRead leafAddr idx leafBuffer rounds
      else
        return {
          metadata := if hasMetadata idx 1 then node.metadata else leafBuffer.metadata
          records := leafBuffer.records.setEntry idx e }
    else do
      let header ← .call (Op.read leafAddr true 0 0)
      let node ← .call (Op.read leafAddr false idx 1)
      let e := node.records.getEntry idx
      if header.metadata.hVersion.nodeVersion ≠ e.hVersion.nodeVersion then
        leafEntryRead leafAddr idx leafBuffer rounds
      else
        return ⟨header.metadata, leafBuffer.records.setEntry idx e⟩

def reader : EntryReader Op Op.Res HopNode where
  leafEntryRead leafAddr idx leafBuffer := leafEntryRead b leafAddr idx leafBuffer rounds
  key leaf idx := (leaf.records.getEntry idx).key
  value leaf idx := (leaf.records.getEntry idx).value

def probeRanges (hashIdx : Nat) : ProbeRanges :=
  let p := (hashIdx, (hashIdx + neighborSize) % leafSpanSize)
  ⟨p, (p.1 + leafSpanSize, p.2 + leafSpanSize)⟩

/-- `_search`: the address of the node that has the key and the address to lock. -/
def searchAux (cache : Cache) (L : Locals HopNode) (k : Key) : ProgM (Option (GlobalAddress × GlobalAddress)) := do
  let (l, r) ← .check (cache.searchFromCache k)
  let leafAddrs ← .check (b.leafAddresses l r)
  let res ← speculativeSearch (reader b rounds) k L.syn L.searchBuffer (probeRanges (hash k).val) L.searched leafAddrs
  match res with
  | some leafAddr => return some (leafAddr, leafAddr)
  | none =>
    let res ← Hop.searchAux b hash rounds cache k
    return res.map Prod.snd

/-- Steps 2 to 4 of `update`. A hit leads to `entry_write_and_unlock` of the record. -/
def updateLocked (L : Locals HopNode) (k : Key) (v : Value) (leafAddr lockLeafAddr : GlobalAddress)
    : ProgM Unit := do
  let lockBuffer ← lockNode lockLeafAddr
  speculativeUpdate (reader b rounds) k L (probeRanges (hash k).val) v leafAddr
    (fun kvIdx leaf v => entryWriteAndUnlock
      (leaf.records.setEntry kvIdx ((leaf.records.getEntry kvIdx).update k v)) kvIdx leafAddr lockLeafAddr lockBuffer)
    (updateLocked.readAnother b hash rounds k v lockLeafAddr lockBuffer leafAddr 2)

def update (cache : Cache) (L : Locals HopNode) (k : Key) (v : Value) : ProgM Unit := do
  let res ← searchAux b hash rounds cache L k
  match res with
  | none => return ()
  | some (leafAddr, lockLeafAddr) => updateLocked b hash rounds L k v leafAddr lockLeafAddr

end Calls

end Spec

end Hop

/-- One node version throughout each node. -/
structure HopGroup.Uniform (g : HopGroup) : Prop where
  leaf : g.leaf.Uniform
  syn : ∀ n, g.syn = some n → n.Uniform

namespace Hop

variable {ι : Type} {b : Build} {hash : Key → Fin leafSpanSize} {cache : Cache} {m m' : Mem ι}
  {a c : GlobalAddress} {p : Fin leafSpanSize} {g g' : HopGroup} {k : Key} {v : Value}

/-- The record `p` of the node at `c` has the key, and the leaf at `a` is the one to lock for it. -/
structure StoredAt (b : Build) (m : Mem ι) (k : Key) (a c : GlobalAddress) (p : Fin leafSpanSize) : Prop where
  node : OfLeaf b m c a
  key : ((m.node c).records.get p).key = k

/-- All records are as they were, except that the value of `k` has become `v`. -/
structure SetsValue (b : Build) (m : Mem ι) (k : Key) (v : Value) (m' : Mem ι) : Prop where
  lock : m'.lock = m.lock
  ptr : ∀ a, b.IsLeaf a → m'.ptr a = m.ptr a
  content : ∀ a c, OfLeaf b m c a → ∀ p, ((m'.node c).records.get p).content
    = if ((m.node c).records.get p).key = k then (k, v, ((m.node c).records.get p).hopBitmap)
      else ((m.node c).records.get p).content

/-- `k` is inserted into the leaf at `a`, and a search for it looks at this leaf. -/
def Reaches (b : Build) (cache : Cache) (k : Key) (a : GlobalAddress) : Prop :=
  Routed b cache k a ∧ ∃ l r leafAddrs, cache.searchFromCache k = some (l, r)
    ∧ b.leafAddresses l r = some leafAddrs ∧ a ∈ leafAddrs

/-- Between two calls: the invariant, one node version in each node, and every key stored once, in its leaf. -/
structure Settled (b : Build) (hash : Key → Fin leafSpanSize) (cache : Cache) (m : Mem ι) : Prop where
  inv : m.Inv b hash
  uniform : ∀ a, b.IsLeaf a → (m.group a).Uniform
  distinct : ∀ a, b.IsLeaf a → (m.group a).Distinct
  reaches : ∀ a k, b.IsLeaf a → (m.group a).Stores k → Reaches b cache k a

section Settled

theorem StoredAt.stores (h : StoredAt b m k a c p) (hk : k ≠ kkeyNull) : (m.node c).records.Stores k :=
  ⟨hk, p, h.key⟩

theorem stores_of_ofLeaf (hnode : OfLeaf b m c a) (h : (m.node c).records.Stores k) : (m.group a).Stores k := by
  obtain ⟨-, rfl | ⟨hptr, rfl⟩⟩ := hnode
  . exact .inl h
  . exact .inr ⟨_, Mem.group_syn_of_ptr_ne hptr, h⟩

theorem StoredAt.unique {a' c' : GlobalAddress} {p' : Fin leafSpanSize} (h : StoredAt b m k a c p)
    (hm : Settled b hash cache m) (hk : k ≠ kkeyNull) (h' : StoredAt b m k a' c' p')
    : a' = a ∧ c' = c ∧ p' = p := by
  have hroute := (hm.reaches a k h.node.1 (stores_of_ofLeaf h.node (h.stores hk))).1
  have hroute' := (hm.reaches a' k h'.node.1 (stores_of_ofLeaf h'.node (h'.stores hk))).1
  obtain rfl := hroute.unique hroute'
  have hdist := hm.distinct a h.node.1
  have hsame : ∀ {r : HopRecords} {q q' : Fin leafSpanSize}, r.Distinct → (r.get q).key = k →
      (r.get q').key = k → q' = q := by
    intro r q q' hr hq hq'
    exact hr q' q (by rwa [hq']) (hq'.trans hq.symm)
  obtain ⟨⟨-, hc⟩, hkey⟩ := h
  obtain ⟨⟨-, hc'⟩, hkey'⟩ := h'
  rcases hc with rfl | ⟨hptr, rfl⟩
  . rcases hc' with rfl | ⟨hptr', rfl⟩
    . exact ⟨rfl, rfl, hsame hdist.leaf hkey hkey'⟩
    . have := hdist.disjoint _ k (Mem.group_syn_of_ptr_ne hptr')
      exact absurd ⟨⟨hk, p, hkey⟩, ⟨hk, p', hkey'⟩⟩ this
  . rcases hc' with rfl | ⟨-, rfl⟩
    . have := hdist.disjoint _ k (Mem.group_syn_of_ptr_ne hptr)
      exact absurd ⟨⟨hk, p', hkey'⟩, ⟨hk, p, hkey⟩⟩ this
    . exact ⟨rfl, rfl, hsame (hdist.syn _ (Mem.group_syn_of_ptr_ne hptr)) hkey hkey'⟩

theorem Settled.node_uniform (hm : Settled b hash cache m) : ∀ c a, OfLeaf b m c a → (m.node c).Uniform := by
  rintro c a ⟨ha, rfl | ⟨hptr, rfl⟩⟩
  . exact (hm.uniform c ha).leaf
  . exact (hm.uniform a ha).syn _ (Mem.group_syn_of_ptr_ne hptr)

theorem uniform_bumpNodeVersions (n : HopNode) : n.bumpNodeVersions.Uniform := by
  intro p
  rw [HopNode.get_bumpNodeVersions]
  rfl

theorem uniform_hops {n : HopNode} (h : n.Uniform) {e : Int} {l l' : List Nat} {r' : HopRecords}
    (hh : Hops hash n.records k v e l r')
    : ({ n with records := r'.bumpEntries l' } : HopNode).Uniform := by
  intro p
  change ((r'.bumpEntries l').get p).hVersion.nodeVersion = _
  rw [HopRecords.get_bumpEntries]
  change (r'.get p).hVersion.nodeVersion = _
  rw [(hh.chain.versions p).1]
  exact h p

theorem uniform_updateEntry {n : HopNode} (h : n.Uniform) (p : Fin leafSpanSize) (v : Value)
    : ({ n with records := n.records.updateEntry p v } : HopNode).Uniform := by
  intro q
  change ((n.records.updateEntry p v).get q).hVersion.nodeVersion = _
  rw [HopRecords.get_updateEntry]
  split
  . exact h p
  . exact h q

theorem Inserts.uniform (h : Inserts b hash k v g g') (hg : g.Uniform) : g'.Uniform := by
  cases h with
  | existing _ => exact hg
  | leaf _ _ hh _ => exact ⟨uniform_hops hg.leaf hh, hg.syn⟩
  | split _ _ _ _ _ _ =>
    refine ⟨uniform_bumpNodeVersions _, ?_⟩
    intro n hn
    cases hn
    exact uniform_bumpNodeVersions _
  | syn _ _ hsyn _ hh _ =>
    refine ⟨hg.leaf, ?_⟩
    intro n hn
    cases hn
    exact uniform_hops (hg.syn _ hsyn) hh
  | full _ _ _ _ => exact hg

theorem Updates.uniform (h : Updates k v g g') (hg : g.Uniform) : g'.Uniform := by
  cases h with
  | leaf _ => exact ⟨uniform_updateEntry hg.leaf _ _, hg.syn⟩
  | syn hsyn _ =>
    refine ⟨hg.leaf, ?_⟩
    intro n hn
    cases hn
    exact uniform_updateEntry (hg.syn _ hsyn) _ _

theorem Updates.stores_iff (h : Updates k v g g') {k' : Key} : g'.Stores k' ↔ g.Stores k' := by
  cases h with
  | @leaf p _ =>
    unfold HopGroup.Stores
    simp only [stores_congr (updateEntry_key g.leaf.records p v)]
  | @syn n p hsyn _ =>
    rw [HopGroup.stores_of_some hsyn, HopGroup.stores_of_some rfl]
    simp only [stores_congr (updateEntry_key n.records p v)]

theorem Settled.step (hm : Settled b hash cache m) (hstep : GroupStep b m a g m') (hsound : Sound hash g)
    (huniform : g.Uniform) (hdist : g.Distinct) (hreach : ∀ k, g.Stores k → Reaches b cache k a)
    : Settled b hash cache m' where
  inv := hm.inv.step hstep hsound
  uniform := by
    intro c hc
    rw [hstep.group c hc]
    split
    . exact huniform
    . exact hm.uniform c hc
  distinct := by
    intro c hc
    rw [hstep.group c hc]
    split
    . exact hdist
    . exact hm.distinct c hc
  reaches := by
    intro c k hc
    rw [hstep.group c hc]
    split
    . next heq =>
      rw [heq]
      exact hreach k
    . exact hm.reaches c k hc

end Settled

section Run

variable [DecidableEq ι] {i : ι} {rounds : Nat} {id : ι → Nat}

omit [DecidableEq ι] in
theorem Settled.init : Settled b hash cache (Mem.init b id) where
  inv := ⟨Mem.init_shape b id, fun _ _ => sound_init hash⟩
  uniform := by
    intro a _
    refine ⟨(@HopNode.wellFormed_zero hash).nodeVersion, ?_⟩
    intro n hn
    cases hn
  distinct := by
    intro a _
    refine ⟨(@HopNode.wellFormed_zero hash).distinct, ?_, ?_⟩
    . intro n hn
      cases hn
    . intro n k hn
      cases hn
  reaches := by
    rintro a k _ (⟨hk, p, hp⟩ | ⟨n, hn, -⟩)
    . exact absurd (hp.symm.trans (congrArg HopEntry.key (HopRecords.get_zero p))) hk
    . cases hn

theorem reaches_of_insert_run {res : Except Assertion Unit} (hr : Routed b cache k a)
    (h : (insert b hash rounds cache k v).run (exec i) m = some (res, m'))
    : Reaches b cache k a := by
  refine ⟨hr, ?_⟩
  obtain ⟨l, r, insertIdx, hcache, ha⟩ := hr
  obtain ⟨hrange, hle, hge⟩ := cache.routed hcache
  unfold insert at h
  simp only [hcache, Prog.check_some, Prog.ret_bind] at h
  obtain ⟨leafAddrs, m₁, hcheck, -⟩ := (Prog.run_bind_eq_some (exec i)).mp h
  obtain ⟨hleaves, -⟩ := (Prog.run_check_eq_some (exec i)).mp hcheck
  refine ⟨l, r, leafAddrs, hrange, hleaves, ?_⟩
  rw [mem_of_mapM_eq_some hleaves]
  refine ⟨insertIdx, ?_, ha⟩
  rw [List.mem_range'_1]
  omega

theorem Settled.insert (hm : Settled b hash cache m) (hk : k ≠ kkeyNull)
    (hcheck : ∀ a, Routed b cache k a → Checked b hash k (m.group a))
    (hrun : (insert b hash rounds cache k v).run (exec i) m = some (.ok (), m'))
    : Settled b hash cache m' := by
  rcases insert_cases hm.inv.shape hm.inv.sound hk hrun with ⟨x, hx, -⟩ | ⟨-, a, g', hr, hg', hstep⟩
  . cases hx
  . have ha := hr.isLeaf
    have hsound := hm.inv.sound a ha
    apply hm.step hstep (hg'.sound hsound hk) (hg'.uniform (hm.uniform a ha))
    . exact (hg'.distinct_iff hsound hk (hm.distinct a ha)).mpr (hcheck a hr)
    . intro k' hk'
      rcases hg'.has hsound hk with ⟨rfl, -⟩ | ⟨-, -, hhas⟩
      . exact hm.reaches a k' ha hk'
      . obtain ⟨v', hv'⟩ := HopGroup.stores_iff.mp hk'
        rcases (hhas k' v').mp hv' with hold | ⟨rfl, -⟩
        . exact hm.reaches a k' ha (HopGroup.stores_iff.mpr ⟨v', hold⟩)
        . exact reaches_of_insert_run hr hrun

omit [DecidableEq ι] in
theorem Settled.update (hm : Settled b hash cache m) (ha : b.IsLeaf a) (hg' : Updates k v (m.group a) g')
    (hstep : GroupStep b m a g' m')
    : Settled b hash cache m' := by
  apply hm.step hstep (hg'.sound (hm.inv.sound a ha)) (hg'.uniform (hm.uniform a ha))
    (hg'.distinct (hm.distinct a ha))
  intro k' hk'
  exact hm.reaches a k' ha (hg'.stores_iff.mp hk')

/-- The node at `c` after an update of its record `p`. -/
def updated (m : Mem ι) (c : GlobalAddress) (p : Fin leafSpanSize) (v : Value) : Mem ι :=
  m.setNode c { m.node c with records := (m.node c).records.updateEntry p v }

omit [DecidableEq ι] in
theorem setNode_restored (m : Mem ι) (a c : GlobalAddress) (w : BitVec 64) (n : HopNode)
    : ((m.setLock a w).setNode c n).setLock a (m.lock a) = m.setNode c n := by
  unfold Mem.setLock Mem.setNode
  simp

omit [DecidableEq ι] in
theorem StoredAt.updates (h : StoredAt b m k a c p) (hshape : m.Shape b) (v : Value)
    : ∃ g', Updates k v (m.group a) g' ∧ GroupStep b m a g' (updated m c p v) := by
  unfold updated
  rw [← setNode_restored m a c 0]
  obtain ⟨⟨ha, rfl | ⟨hptr, rfl⟩⟩, hkey⟩ := h
  . exact ⟨_, .leaf hkey, groupStep_leaf hshape ha rfl⟩
  . exact ⟨_, .syn (Mem.group_syn_of_ptr_ne hptr) hkey, groupStep_syn hshape ha hptr⟩

omit [DecidableEq ι] in
theorem StoredAt.setsValue_iff (h : StoredAt b m k a c p) (hm : Settled b hash cache m) (hk : k ≠ kkeyNull)
    {w : Value}
    : SetsValue b m k v (updated m c p w) ↔ w = v := by
  have hget : ∀ d q, ((updated m c p w).node d).records.get q
      = if d = c ∧ q = p then { (m.node c).records.get p with value := w }.bumpEntryVersion 1
        else (m.node d).records.get q := by
    intro d q
    unfold updated
    rw [Mem.node_setNode]
    by_cases hd : d = c
    . subst hd
      rw [if_pos rfl, HopRecords.get_updateEntry]
      simp
    . rw [if_neg hd, if_neg (fun hc => hd hc.1)]
  constructor
  . intro hset
    have hc := hset.content a c h.node p
    rw [hget, if_pos ⟨rfl, rfl⟩, if_pos h.key] at hc
    exact congrArg (fun x => x.2.1) hc
  . rintro rfl
    refine ⟨rfl, fun d _ => ?_, fun a' d hd q => ?_⟩
    . unfold updated
      rw [Mem.ptr_setNode]
      split
      . next heq => rw [heq]; rfl
      . rfl
    . rw [hget]
      by_cases hkey : ((m.node d).records.get q).key = k
      . obtain ⟨-, rfl, rfl⟩ := h.unique hm hk ⟨hd, hkey⟩
        rw [if_pos ⟨rfl, rfl⟩, if_pos hkey, ← hkey]
        rfl
      . have hne : ¬ (d = c ∧ q = p) := by
          rintro ⟨rfl, rfl⟩
          exact hkey h.key
        rw [if_neg hne, if_neg hkey]

namespace Spec

/-- What the leaf buffer holds after a record has been read. -/
def buffered (b : Build) (m : Mem ι) (leafBuffer : HopNode) (c : GlobalAddress) (idx : Nat) : HopNode where
  metadata := if !b.metadataReplication || hasMetadata idx 1 then (m.node c).metadata else leafBuffer.metadata
  records := leafBuffer.records.setEntry idx ((m.node c).records.getEntry idx)

theorem leafEntryRead_run {idx : Nat} (hidx : idx < leafSpanSize) (huniform : (m.node c).Uniform)
    (leafBuffer : HopNode)
    : (leafEntryRead b c idx leafBuffer (rounds + 1)).run (exec i) m
        = some (buffered b m leafBuffer c idx, m) := by
  have hslot : (slot idx).val = idx := by
    have := val_slot idx
    have := leafSpanSize_eq
    omega
  have hentry : ∀ header, ((m.node c).part header idx 1).records.getEntry idx = (m.node c).records.getEntry idx := by
    intro header
    unfold HopRecords.getEntry
    rw [HopNode.get_part, if_pos (by omega)]
  have hversion : ((m.node c).records.getEntry idx).hVersion.nodeVersion
      = (m.node c).metadata.hVersion.nodeVersion := huniform _
  unfold leafEntryRead buffered
  cases b.metadataReplication with
  | true =>
    rw [if_pos rfl, Prog.call_bind, Prog.run_op]
    simp only [exec, hentry, hversion]
    cases hasMetadata idx 1 with
    | true => simp [HopNode.part]
    | false => simp
  | false =>
    rw [if_neg (by decide), Prog.call_bind, Prog.run_op]
    simp only [exec, Prog.call_bind, Prog.run_op, hentry, hversion]
    simp [HopNode.part]

theorem readsEntries (b : Build) (m : Mem ι) (rounds : Nat) (leafBuffer : HopNode)
    : ReadsEntries (exec i) m (reader b (rounds + 1)) leafBuffer
        (fun c t => ((m.node c).records.getEntry t).key) (buffered b m leafBuffer)
        (fun c => (m.node c).Uniform) where
  run := fun c t huniform ht => leafEntryRead_run ht huniform leafBuffer
  key := by
    intro c t _ _
    show ((leafBuffer.records.setEntry t ((m.node c).records.getEntry t)).getEntry t).key = _
    unfold HopRecords.getEntry
    rw [HopRecords.get_setEntry, if_pos rfl]

theorem entryWriteAndUnlock_run (hkey : ((m.node c).records.get p).key = k) {r : HopRecords}
    (hr : r.get p = (m.node c).records.get p) (v : Value) (w : BitVec 64)
    : (entryWriteAndUnlock (r.setEntry p.val ((r.getEntry p.val).update k v)) p.val c a (m.lock a)).run (exec i)
        (m.setLock a w)
        = some ((), updated m c p v) := by
  have hentry : r.getEntry p.val = r.get p := by
    unfold HopRecords.getEntry
    rw [slot_val]
  rw [Hop.entryWriteAndUnlock_run, Mem.node_setLock, hentry, segmentWrite_updateEntry hkey hr, setNode_restored]
  rfl

theorem readAnother_run (hm : Settled b hash cache m) (hk : k ≠ kkeyNull) (hs : StoredAt b m k a c p) (v : Value)
    (w : BitVec 64)
    : (updateLocked.readAnother b hash (rounds + 1) k v a (m.lock a) c 2).run (exec i) (m.setLock a w)
        = some ((), updated m c p v) := by
  have hfetched := window_fetched b (m.node c) (hash k).isLt
  have hinv : (m.node c).records.Inv hash := by
    obtain ⟨ha, rfl | ⟨hptr, rfl⟩⟩ := hs.node
    . exact (hm.inv.sound _ ha).leaf
    . exact (hm.inv.sound _ ha).syn _ (Mem.group_syn_of_ptr_ne hptr)
  obtain ⟨q, hq⟩ := findSlot_window hinv hk (hs.stores hk) hfetched.agree
  obtain ⟨hkey, heq⟩ := findSlot_eq_some hfetched.agree hq
  obtain ⟨-, -, rfl⟩ := hs.unique hm hk ⟨hs.node, hkey⟩
  have hfetch := @hopscotchFetchNode_total ι _ i b rounds (m.setLock a w) c _ (hash k).isLt
    (hm.node_uniform c a hs.node)
  unfold updateLocked.readAnother
  rw [Prog.run_bind_eq (exec i) hfetch, Mem.node_setLock, hq]
  have hwrite := @entryWriteAndUnlock_run ι m a c q k _ i hkey (window b (hash k).val (m.node c)).records heq v w
  unfold HopRecords.getEntry at hwrite
  rw [slot_val] at hwrite
  exact hwrite

/--
Behind the lock the first probe chooses the record of the key, or else the second one does not read behind
the array, and if it chooses the record, it is not to be changed.
-/
def LockedSafe (hash : Key → Fin leafSpanSize) (m : Mem ι) (L : Locals HopNode) (k : Key) (v : Value)
    (c : GlobalAddress) (p : Fin leafSpanSize) : Prop :=
  L.locked.1.Chooses c k (probeRanges (hash k).val).leaf p.val
    ∨ (¬ L.locked.2.Overruns L.syn c k (probeRanges (hash k).val).syn
      ∧ (L.locked.2.Chooses c k (probeRanges (hash k).val).syn p.val →
        ((m.node c).records.get p).value = v))

omit [DecidableEq ι] in
theorem not_overruns_leaf (hash : Key → Fin leafSpanSize) (idxCache : IdxCache) (syn : SynLeafMap)
    (c : GlobalAddress) (k : Key)
    : ¬ idxCache.Overruns syn c k (probeRanges (hash k).val).leaf := by
  rintro ⟨idx, hsearch, hle, -⟩
  have hmem := idxCache.mem_scanned_of_search c k hsearch
  have h16 := leafSpanSize_eq
  have hlt := (hash k).isLt
  have hmod : ((hash k).val + neighborSize) % leafSpanSize < leafSpanSize := Nat.mod_lt _ (by decide)
  unfold probeRanges IdxCache.scanned at hmem
  split at hmem
  . rw [List.mem_append, List.mem_range, List.mem_range'_1] at hmem
    dsimp only at hmem
    omega
  . rw [List.mem_range'_1] at hmem
    dsimp only at hmem
    omega

theorem updateLocked_cases (rounds : Nat) {L : Locals HopNode} (hm : Settled b hash cache m) (hk : k ≠ kkeyNull)
    (hs : StoredAt b m k a c p)
    : (¬ LockedSafe hash m L k v c p
          ∧ ∀ m', (updateLocked b hash (rounds + 1) L k v c a).run (exec i) m = some ((), m') →
              ¬ SetsValue b m k v m')
        ∨ (LockedSafe hash m L k v c p
          ∧ (updateLocked b hash (rounds + 1) L k v c a).run (exec i) m = some ((), updated m c p v)) := by
  unfold updateLocked
  rw [Prog.run_bind_eq (exec i) (lockNode_run (hm.inv.sound a hs.node.1).unlocked)]
  have hmatch : ∀ {idx : Nat}, idx < leafSpanSize → (slot idx).val = idx := by
    intro idx hidx
    have := val_slot idx
    have := leafSpanSize_eq
    omega
  have honly : ∀ t, t < leafSpanSize →
      ((((m.setLock a (~~~0)).node c).records.getEntry t).key = k ↔ t = p.val) := by
    intro t ht
    constructor
    . intro hkey
      have hslot := (hs.unique hm hk ⟨hs.node, hkey⟩).2.2
      rw [← hslot, hmatch ht]
    . rintro rfl
      unfold HopRecords.getEntry
      rw [slot_val]
      exact hs.key
  have huniform := hm.node_uniform c a hs.node
  have hbuffered : ∀ leafBuffer : HopNode, (buffered b (m.setLock a (~~~0)) leafBuffer c p.val).records.get p
      = (m.node c).records.get p := by
    intro leafBuffer
    unfold buffered
    dsimp only
    rw [HopRecords.get_setEntry, slot_val, if_pos rfl, HopRecords.getEntry, slot_val]
    rfl
  have hwrite := fun leafBuffer v => @entryWriteAndUnlock_run ι m a c p k _ i hs.key
    (buffered b (m.setLock a (~~~0)) leafBuffer c p.val).records (hbuffered leafBuffer) v (~~~0)
  rcases speculativeUpdate_cases (readsEntries (i := i) b (m.setLock a (~~~0)) rounds L.leafBuffers.1)
      (readsEntries b (m.setLock a (~~~0)) rounds L.leafBuffers.2) huniform honly (probeRanges (hash k).val) v
      (fun kvIdx leaf v => entryWriteAndUnlock
        (leaf.records.setEntry kvIdx ((leaf.records.getEntry kvIdx).update k v)) kvIdx c a (m.lock a))
      (updateLocked.readAnother b hash (rounds + 1) k v a (m.lock a) c 2) with
    ⟨hover, -⟩ | ⟨-, hchoose, hrun⟩
      | ⟨-, hmiss, ⟨hover₂, hrun⟩ | ⟨hover₂, hchoose, hrun⟩ | ⟨hover₂, hmiss₂, hrun⟩⟩
  . exact absurd hover (not_overruns_leaf hash _ _ _ _)
  . refine .inr ⟨.inl hchoose, ?_⟩
    rw [hrun, hwrite]
  . refine .inl ⟨?_, ?_⟩
    . rintro (hchoose | ⟨hover₂', -⟩)
      . exact hmiss hchoose
      . exact hover₂' hover₂
    . intro m' hc
      rw [hrun] at hc
      cases hc
  . -- the value that is written is the one that has been read
    have hvalue : (reader b (rounds + 1)).value (buffered b (m.setLock a (~~~0)) L.leafBuffers.2 c p.val) p.val
        = ((m.node c).records.get p).value := by
      show ((buffered b (m.setLock a (~~~0)) L.leafBuffers.2 c p.val).records.getEntry p.val).value = _
      unfold HopRecords.getEntry
      rw [slot_val, hbuffered]
    rw [hrun, hvalue, hwrite]
    by_cases hv : ((m.node c).records.get p).value = v
    . refine .inr ⟨.inr ⟨hover₂, fun _ => hv⟩, ?_⟩
      rw [hv]
    . refine .inl ⟨?_, ?_⟩
      . rintro (hchoose' | ⟨-, himp⟩)
        . exact hmiss hchoose'
        . exact hv (himp hchoose)
      . intro m' hm'
        cases hm'
        exact fun hset => hv ((hs.setsValue_iff hm hk).mp hset)
  . refine .inr ⟨.inr ⟨hover₂, fun hchoose => absurd hchoose hmiss₂⟩, ?_⟩
    rw [hrun]
    exact readAnother_run hm hk hs v _

/-- No probe of the update reads behind the array, and the value that it writes is `v`. -/
structure UpdateSafe (b : Build) (hash : Key → Fin leafSpanSize) (cache : Cache) (L : Locals HopNode) (m : Mem ι)
    (k : Key) (v : Value) : Prop where
  search : ∀ {l r leafAddrs}, cache.searchFromCache k = some (l, r) → b.leafAddresses l r = some leafAddrs →
    SearchDefined (fun c t => ((m.node c).records.getEntry t).key) L.syn k (probeRanges (hash k).val) L.searched
      leafAddrs
  locked : ∀ {a c p}, StoredAt b m k a c p → LockedSafe hash m L k v c p

/-- `_search` is stopped, or finds a record that has the key, or there is none in the range. -/
theorem searchAux_cases (rounds : Nat) {L : Locals HopNode} {l r : Nat} {leafAddrs : List GlobalAddress}
    (hm : Settled b hash cache m) (hk : k ≠ kkeyNull) (hrange : cache.searchFromCache k = some (l, r))
    (hleaves : b.leafAddresses l r = some leafAddrs)
    : let defined := SearchDefined (fun c t => ((m.node c).records.getEntry t).key) L.syn k
        (probeRanges (hash k).val) L.searched leafAddrs
      let run := (searchAux b hash (rounds + 1) cache L k).run (exec i) m
      (¬ defined ∧ run = none)
        ∨ (defined ∧ ∃ a c p, StoredAt b m k a c p ∧ run = some (some (c, a), m))
        ∨ (defined ∧ (∀ a ∈ leafAddrs, ∀ c p, ¬ StoredAt b m k a c p) ∧ run = some (none, m)) := by
  intro defined run
  have hnode : ∀ a ∈ leafAddrs, OfLeaf b m a a := fun a ha => ⟨Build.isLeaf_of_mem hleaves ha, .inl rfl⟩
  unfold run searchAux
  simp only [hrange, hleaves, Prog.check_some, Prog.ret_bind]
  rcases speculativeSearch_cases (readsEntries (i := i) b m rounds L.searchBuffer) L.syn k
    (probeRanges (hash k).val) L.searched (fun a ha => hm.node_uniform a a (hnode a ha)) with
    ⟨hdef, hrun⟩ | ⟨hdef, hrun | ⟨a, ha, ⟨t, ht, hkey⟩, hrun⟩⟩
  . rw [Prog.run_bind, hrun]
    exact .inl ⟨hdef, rfl⟩
  . rw [Prog.run_bind_eq (exec i) hrun]
    dsimp only
    rcases @searchAux_finds ι _ i b hash rounds cache m k leafAddrs l r hm.inv hm.node_uniform hk hrange hleaves
      with ⟨hplain, hall⟩ | ⟨v', c, a, hplain, hc, -, p, hp⟩
    . rw [Prog.run_bind_eq (exec i) hplain]
      exact .inr (.inr ⟨hdef, fun a ha c p hs => hall a ha c hs.node (hs.stores hk), rfl⟩)
    . rw [Prog.run_bind_eq (exec i) hplain]
      exact .inr (.inl ⟨hdef, a, c, p, ⟨hc, congrArg Prod.fst hp⟩, rfl⟩)
  . rw [Prog.run_bind_eq (exec i) hrun]
    exact .inr (.inl ⟨hdef, a, a, slot t, ⟨hnode a ha, hkey⟩, rfl⟩)

theorem update_stored (rounds : Nat) {L : Locals HopNode} (hm : Settled b hash cache m) (hk : k ≠ kkeyNull)
    (hs : StoredAt b m k a c p)
    : let run := (update b hash (rounds + 1) cache L k v).run (exec i) m
      (¬ UpdateSafe b hash cache L m k v ∧ ∀ m', run = some ((), m') → ¬ SetsValue b m k v m')
        ∨ (UpdateSafe b hash cache L m k v ∧ run = some ((), updated m c p v)) := by
  intro run
  unfold run update
  obtain ⟨-, l, r, leafAddrs, hrange, hleaves, hmem⟩ :=
    hm.reaches a k hs.node.1 (stores_of_ofLeaf hs.node (hs.stores hk))
  rcases searchAux_cases (i := i) (L := L) rounds hm hk hrange hleaves with
    ⟨hdef, hrun⟩ | ⟨hdef, a', c', p', hs', hrun⟩ | ⟨-, hnone, -⟩
  . rw [Prog.run_bind, hrun]
    exact .inl ⟨fun hsafe => hdef (hsafe.search hrange hleaves), fun m' hc => by cases hc⟩
  . obtain ⟨rfl, rfl, rfl⟩ := hs.unique hm hk hs'
    rw [Prog.run_bind_eq (exec i) hrun]
    rcases updateLocked_cases (i := i) (L := L) (v := v) rounds hm hk hs with
      ⟨hsafe, hlocked⟩ | ⟨hsafe, hlocked⟩
    . exact .inl ⟨fun h => hsafe (h.locked hs), hlocked⟩
    . refine .inr ⟨⟨fun hrange' hleaves' => ?_, fun hs₂ => ?_⟩, hlocked⟩
      . cases hrange.symm.trans hrange'
        cases hleaves.symm.trans hleaves'
        exact hdef
      . obtain ⟨-, rfl, rfl⟩ := hs.unique hm hk hs₂
        exact hsafe
  . exact absurd hs (hnone a hmem c p)

theorem update_absent {L : Locals HopNode} (hm : Settled b hash cache m) (hk : k ≠ kkeyNull)
    (habsent : ∀ a c p, ¬ StoredAt b m k a c p)
    (hrun : (update b hash (rounds + 1) cache L k v).run (exec i) m = some ((), m'))
    : m' = m := by
  unfold update at hrun
  obtain ⟨res, m₁, hsearch, hrest⟩ := (Prog.run_bind_eq_some _).mp hrun
  cases hrange : cache.searchFromCache k with
  | none =>
    unfold searchAux at hsearch
    simp [hrange] at hsearch
  | some lr =>
    obtain ⟨l, r⟩ := lr
    cases hleaves : b.leafAddresses l r with
    | none =>
      unfold searchAux at hsearch
      simp [hrange, hleaves] at hsearch
    | some leafAddrs =>
      rcases searchAux_cases (i := i) (L := L) rounds hm hk hrange hleaves with
        ⟨-, hrun'⟩ | ⟨-, a, c, p, hs, -⟩ | ⟨-, -, hrun'⟩
      . rw [hrun'] at hsearch
        cases hsearch
      . exact absurd hs (habsent a c p)
      . rw [hrun'] at hsearch
        cases hsearch
        cases hrest
        rfl

/--
The memories that inserts and updates lead to, one after the other: no insert stores its key a second time,
and every update of a stored key is safe.
-/
inductive Reachable (b : Build) (hash : Key → Fin leafSpanSize) (cache : Cache) (id : ι → Nat) : Mem ι → Prop
  | init : Reachable b hash cache id (Mem.init b id)
  | insert {i : ι} {rounds : Nat} {m m' : Mem ι} {k : Key} {v : Value} (h : Reachable b hash cache id m)
      (hk : k ≠ kkeyNull) (hcheck : ∀ a, Routed b cache k a → Checked b hash k (m.group a))
      (hrun : (insert b hash rounds cache k v).run (exec i) m = some (.ok (), m'))
      : Reachable b hash cache id m'
  | update {i : ι} {rounds : Nat} {m m' : Mem ι} {L : Locals HopNode} {k : Key} {v : Value}
      (h : Reachable b hash cache id m) (hk : k ≠ kkeyNull)
      (hsafe : (∃ a c p, StoredAt b m k a c p) → UpdateSafe b hash cache L m k v)
      (hrun : (update b hash (rounds + 1) cache L k v).run (exec i) m = some ((), m'))
      : Reachable b hash cache id m'

theorem Reachable.settled (h : Reachable b hash cache id m) : Settled b hash cache m := by
  induction h with
  | init => exact Settled.init
  | insert h hk hcheck hrun ih => exact ih.insert hk hcheck hrun
  | @update i rounds m m' L k v h hk hsafe hrun ih =>
    by_cases hst : ∃ a c p, StoredAt b m k a c p
    . obtain ⟨a, c, p, hs⟩ := hst
      rcases update_stored (i := i) (L := L) (v := v) rounds ih hk hs with ⟨hrisky, -⟩ | ⟨-, hrun'⟩
      . exact absurd (hsafe ⟨a, c, p, hs⟩) hrisky
      . cases hrun'.symm.trans hrun
        obtain ⟨g', hg', hstep⟩ := hs.updates ih.inv.shape v
        exact ih.update hs.node.1 hg' hstep
    . obtain rfl := update_absent ih hk (fun a c p hs => hst ⟨a, c, p, hs⟩) hrun
      exact ih

end Spec

end Run

end Hop

section Both

variable {ι : Type}

/-- A cache that has one entry, in all of its buckets. -/
def IdxCache.single (leafAddr : GlobalAddress) (kvIdx : Nat) (k : Key) : IdxCache :=
  ⟨false, fun _ => [⟨leafAddr, BitVec.ofNat 16 kvIdx, key2fp k, 1⟩]⟩

end Both

end Rolex

import Rolex.Hopscotch.Lock
import Rolex.Hopscotch.Search
import Rolex.Version.Write

/-!
This module contains `hopscotch_insert_and_unlock` with its WRITEs: what it does to the remote memory and
to the lock word, and on what it depends.
-/

namespace Rolex

structure Build where
  vacancyAwareLock : Bool
  metadataReplication : Bool

def emptyIdxes (r : HopRecords) (lIdx rIdx : Nat) : List Nat :=
  (VALock.segmentList leafSpanSize lIdx rIdx).filter fun i => (r.getEntry i).key = kkeyNull

/-- The first part of `segment_write_and_unlock`: the lock word to unlock with. -/
def segmentLock (b : Build) (r : HopRecords) (lIdx rIdx : Nat) (lock : BitVec 64) (needUnlock : Bool)
    : Except Assertion (BitVec 64) :=
  if b.vacancyAwareLock then
    VALock.updateVacancy lock lIdx rIdx (emptyIdxes r lIdx rIdx) (!needUnlock)
  else
    .ok lock

/-- What `hopscotch_insert_and_unlock` does; it returns false when `hopped` is `none`. -/
structure InsertEffect where
  hopped : Option Hopped
  writes : List RdmaOpRegion
  lock : BitVec 64

def hopscotchInsertAndUnlock (b : Build) (hash : Key → Fin leafSpanSize) (leaf : Node HopEntry) (k : Key)
    (v : Value) (nodeAddr : GlobalAddress) (lock : BitVec 64) (entryNum : Nat) (isLockedLeaf : Bool)
    (bufs : Nat → Buffer) : Except Assertion InsertEffect := do
  match ← hopscotchInsert hash leaf.records k v entryNum with
  | none => return ⟨none, [], lock⟩
  | some hopped =>
    let rIdx := (slot hopped.emptyIdx).val
    let lock ← segmentLock b hopped.records (hash k).val rIdx lock isLockedLeaf
    let writes := Node.segmentWriteAndUnlock b.metadataReplication ⟨leaf.metadata, hopped.records⟩
      (hash k).val rIdx hopped.hoppedIdxes nodeAddr (if isLockedLeaf then some lock else none) bufs
    return ⟨some hopped, writes, lock⟩

theorem segmentLock_ok (b : Build) (r : HopRecords) {lIdx rIdx : Nat} (hl : lIdx < leafSpanSize)
    (hr : rIdx < leafSpanSize) (lock : BitVec 64) (needUnlock : Bool)
    : ∃ lock', segmentLock b r lIdx rIdx lock needUnlock = .ok lock' := by
  unfold segmentLock
  split
  . apply VALock.updateVacancy_ok lock _ hl hr
    intro i hi
    exact (VALock.mem_segmentList hr hl).mp (List.mem_of_mem_filter hi)
  . exact ⟨lock, rfl⟩

/-- The records `r` and `s` agree on a cyclic segment. -/
def AgreeInSegment (lIdx rIdx : Nat) (r s : HopRecords) : Prop :=
  ∀ p : Fin leafSpanSize, InSegment lIdx rIdx p → r.get p = s.get p

variable {r s : HopRecords} {lIdx rIdx : Nat}

theorem segmentLock_congr (b : Build) (hl : lIdx < leafSpanSize) (hr : rIdx < leafSpanSize)
    (hagree : AgreeInSegment lIdx rIdx r s) (lock : BitVec 64) (needUnlock : Bool)
    : segmentLock b r lIdx rIdx lock needUnlock = segmentLock b s lIdx rIdx lock needUnlock := by
  have hempty : emptyIdxes r lIdx rIdx = emptyIdxes s lIdx rIdx := by
    apply List.filter_congr
    intro i hi
    obtain ⟨hlt, hin⟩ := (VALock.mem_segmentList hr hl).mp hi
    have hslot : slot i = ⟨i, hlt⟩ := slot_val ⟨i, hlt⟩
    unfold HopRecords.getEntry
    rw [hslot, hagree ⟨i, hlt⟩ hin]
  unfold segmentLock
  rw [hempty]

theorem encodeSegment_congr_records {repl : Bool} (m : LeafMetadata) (hle : lIdx ≤ rIdx) (hr : rIdx < leafSpanSize)
    (hrecords : ∀ i (hi : i < leafSpanSize), lIdx ≤ i → i ≤ rIdx → r[i] = s[i]) (hoppedIdxes : List Nat)
    (intermediate output : Buffer)
    : Node.encodeSegment repl ⟨m, r⟩ lIdx rIdx hoppedIdxes intermediate output
      = Node.encodeSegment repl ⟨m, s⟩ lIdx rIdx hoppedIdxes intermediate output := by
  apply Node.encodeSegment_congr hle hr
  . rfl
  . exact hrecords

theorem segmentWriteAndUnlock_congr {repl : Bool} {m : LeafMetadata} (hl : lIdx < leafSpanSize)
    (hr : rIdx < leafSpanSize) (hagree : AgreeInSegment lIdx rIdx r s) (hoppedIdxes : List Nat)
    (nodeAddr : GlobalAddress) (lock : Option (BitVec 64)) (bufs : Nat → Buffer)
    : Node.segmentWriteAndUnlock repl ⟨m, r⟩ lIdx rIdx hoppedIdxes nodeAddr lock bufs
      = Node.segmentWriteAndUnlock repl ⟨m, s⟩ lIdx rIdx hoppedIdxes nodeAddr lock bufs := by
  have hrecords : ∀ i (hi : i < leafSpanSize), InSegment lIdx rIdx i → r[i] = s[i] :=
    fun i hi hin => hagree ⟨i, hi⟩ hin
  unfold InSegment at hrecords
  unfold Node.segmentWriteAndUnlock
  by_cases hle : lIdx ≤ rIdx
  . simp only [if_pos hle] at hrecords
    rw [if_pos hle, if_pos hle,
      encodeSegment_congr_records m hle hr (fun i hi hli hri => hrecords i hi ⟨hli, hri⟩)]
  . simp only [if_neg hle] at hrecords
    rw [if_neg hle, if_neg hle,
      encodeSegment_congr_records m (Nat.zero_le rIdx) hr (fun i hi _ hri => hrecords i hi (.inl hri)),
      encodeSegment_congr_records m (show lIdx ≤ leafSpanSize - 1 by omega) (by omega)
        (fun i hi hli _ => hrecords i hi (.inr hli))]

theorem writeRecords_eq_segmentWrite (remote r : HopRecords) (lIdx rIdx : Nat) (hoppedIdxes : List Nat)
    : Node.writeRecords lIdx rIdx remote (Node.bumpHopped r hoppedIdxes)
      = segmentWrite remote r lIdx rIdx hoppedIdxes := by
  apply HopRecords.ext_get
  intro p
  unfold Node.writeRecords segmentWrite
  rw [HopRecords.get_ofFn, HopRecords.get_ofFn]
  apply if_congr Iff.rfl _ rfl
  exact Node.getElem_bumpHopped r hoppedIdxes p.isLt

section Effect

variable {b : Build} {hash : Key → Fin leafSpanSize} {m : LeafMetadata} {k : Key} {v : Value}
  {nodeAddr : GlobalAddress} {lock : BitVec 64} {entryNum : Nat} {isLockedLeaf : Bool} {bufs : Nat → Buffer}

/-- The effect in terms of what the hops do to the whole node `r`, of which the window has been fetched. -/
theorem hopscotchInsertAndUnlock_spec (hinv : r.Inv hash)
    (hwindow : AgreeOn (hash k).val ((hash k).val + entryNum - 1) r s)
    : (hopscotchInsert hash r k v entryNum = .ok none
        ∧ hopscotchInsertAndUnlock b hash ⟨m, s⟩ k v nodeAddr lock entryNum isLockedLeaf bufs
          = .ok ⟨none, [], lock⟩)
      ∨ ∃ e l r' s' lock', hopscotchInsert hash r k v entryNum = .ok (some ⟨r', e, l⟩)
        ∧ Hops hash r k v e l r'
        ∧ segmentLock b r' (hash k).val (slot e).val lock isLockedLeaf = .ok lock'
        ∧ hopscotchInsertAndUnlock b hash ⟨m, s⟩ k v nodeAddr lock entryNum isLockedLeaf bufs
          = .ok ⟨some ⟨s', e, l⟩, Node.segmentWriteAndUnlock b.metadataReplication ⟨m, r'⟩
              (hash k).val (slot e).val l nodeAddr (if isLockedLeaf then some lock' else none) bufs, lock'⟩ := by
  unfold hopscotchInsertAndUnlock
  rcases hopscotchInsert_window hinv hwindow with ⟨hnone, hnone'⟩ | ⟨e, l, r', s', hsome, hsome', hh, he, hagree⟩
  . left
    refine ⟨hnone, ?_⟩
    rw [hnone']
    rfl
  . right
    obtain ⟨lock', hlock⟩ := segmentLock_ok b r' (hash k).isLt (slot e).isLt lock isLockedLeaf
    have hsegment : AgreeInSegment (hash k).val (slot e).val r' s' := by
      intro p hp
      obtain ⟨i, hi, hie, rfl⟩ := (inSegment_iff hh.state.lo hh.state.hi).mp hp
      exact hagree i hi (by omega)
    refine ⟨e, l, r', s', lock', hsome, hh, hlock, ?_⟩
    rw [segmentLock_congr b (hash k).isLt (slot e).isLt hsegment] at hlock
    rw [hsome', segmentWriteAndUnlock_congr (hash k).isLt (slot e).isLt hsegment]
    change (segmentLock b s' (hash k).val (slot e).val lock isLockedLeaf).bind _ = _
    rw [hlock]
    rfl

def HopEntry.content (e : HopEntry) : Key × Value × BitVec neighborSize := (e.key, e.value, e.hopBitmap)

variable {e : Int} {l : List Nat} {r' : HopRecords}

theorem Hops.inSegment_of_content_ne (hh : Hops hash r k v e l r') {p : Fin leafSpanSize}
    (hne : (r'.get p).content ≠ (r.get p).content)
    : InSegment (hash k).val (slot e).val p := by
  rw [inSegment_iff hh.state.lo hh.state.hi]
  by_contra hout
  rw [hh.chain.outside hh.state.lo (fun i hi hie heq => hout ⟨i, hi, hie, heq⟩)] at hne
  exact hne rfl

theorem Hops.count_of_kv_ne (hh : Hops hash r k v e l r') {p : Fin leafSpanSize} (hne : r'.kv p ≠ r.kv p)
    : l.count p.val = 1 := by
  apply List.count_eq_one_of_mem (hh.chain.nodup hh.state.lo hh.state.hi)
  by_contra hmem
  obtain ⟨hkey, hvalue⟩ := hh.chain.kept hmem
  exact hne (Prod.ext hkey hvalue)

theorem Hops.decode_segmentWrite (hh : Hops hash r k v e l r') {repl : Bool} {mem : NodeMemory}
    {intermediate output : Buffer}
    (hdec : Node.decode repl (mem nodeAddr) intermediate output = some (⟨m, r⟩ : Node HopEntry))
    (lock : Option (BitVec 64)) (bufs : Nat → Buffer) (intermediate' output' : Buffer)
    : Node.decode repl ((Node.segmentWriteAndUnlock repl ⟨m, r'⟩ (hash k).val (slot e).val l nodeAddr lock bufs).foldl
          NodeMemory.write mem nodeAddr) intermediate' output'
      = some (⟨m, r'.bumpEntries l⟩ : Node HopEntry) := by
  obtain ⟨buf, metas, henc⟩ := Node.decode_eq_some.mp hdec
  have hversion : ∀ i (hi : i < leafSpanSize), InSegment (hash k).val (slot e).val i →
      EntryType.nodeVersion r'[i] = EntryType.nodeVersion r[i] := by
    intro i hi _
    exact congrArg PackedVersion.nodeVersion (hh.chain.versions ⟨i, hi⟩).1
  have hwritten := henc.segmentWriteAndUnlock (hash k).isLt (slot e).isLt hversion l lock bufs
  have heq := writeRecords_eq_segmentWrite r r' (hash k).val (slot e).val l
  rw [hh.segmentWrite_eq (fun _ _ _ => rfl)] at heq
  rw [heq] at hwritten
  exact Node.decode_eq_some.mpr hwritten

theorem bumpEntries_has_iff {k' : Key} {v' : Value} : (r.bumpEntries l).Has k' v' ↔ r.Has k' v' := by
  unfold HopRecords.Has HopRecords.kv
  simp only [HopRecords.get_bumpEntries]
  rfl

/--
`hopscotch_insert_and_unlock` on a node whose records `r` are stored in the remote memory, of which the
window has been fetched.
-/
theorem hopscotch_insert_and_unlock_effect (b : Build) (hash : Key → Fin leafSpanSize) (mem : NodeMemory)
    (nodeAddr : GlobalAddress) (m : LeafMetadata) (r s : HopRecords) (intermediate output : Buffer)
    (hdec : Node.decode b.metadataReplication (mem nodeAddr) intermediate output
      = some (⟨m, r⟩ : Node HopEntry))
    (hinv : r.Inv hash) (k : Key) (v : Value) (hk : k ≠ kkeyNull) (entryNum : Nat)
    (hwindow : AgreeOn (hash k).val ((hash k).val + entryNum - 1) r s) (lock : BitVec 64)
    (isLockedLeaf : Bool) (bufs : Nat → Buffer) (intermediate' output' : Buffer)
    : ∃ eff, hopscotchInsertAndUnlock b hash ⟨m, s⟩ k v nodeAddr lock entryNum isLockedLeaf bufs = .ok eff
      ∧ (∀ h, eff.hopped = some h →
          (r.getEntry h.emptyIdx).key = kkeyNull
            ∧ (∀ i : Int, (hash k).val ≤ i → i < h.emptyIdx → (r.getEntry i).key ≠ kkeyNull)
            ∧ ∃ r' : HopRecords, Node.decode b.metadataReplication (eff.writes.foldl NodeMemory.write mem nodeAddr)
                  intermediate' output' = some (⟨m, r'⟩ : Node HopEntry)
              ∧ (∀ k' v', r'.Has k' v' ↔ r.Has k' v' ∨ (k' = k ∧ v' = v))
              ∧ (∀ p, (r'.get p).content ≠ (r.get p).content →
                  InSegment (hash k).val (slot h.emptyIdx).val p)
              ∧ ∀ p, r'.kv p ≠ r.kv p → h.hoppedIdxes.count p.val = 1)
      ∧ (eff.hopped = none → eff.writes = [] ∧ eff.lock = lock)
      ∧ ∀ s', AgreeOn (hash k).val ((hash k).val + entryNum - 1) s s' →
          ∃ eff', hopscotchInsertAndUnlock b hash ⟨m, s'⟩ k v nodeAddr lock entryNum isLockedLeaf bufs
              = .ok eff'
            ∧ eff'.hopped.map (fun h => (h.emptyIdx, h.hoppedIdxes))
              = eff.hopped.map (fun h => (h.emptyIdx, h.hoppedIdxes))
            ∧ eff'.writes = eff.writes ∧ eff'.lock = eff.lock := by
  rcases hopscotchInsertAndUnlock_spec hinv hwindow with ⟨hnone, heff⟩ | ⟨e, l, r', t, lock', hsome, hh, hlock, heff⟩
  . refine ⟨_, heff, ?_, fun _ => ⟨rfl, rfl⟩, ?_⟩
    . rintro h ⟨⟩
    . intro s' hs'
      rcases hopscotchInsertAndUnlock_spec hinv (hwindow.trans hs') with ⟨-, heff'⟩ | ⟨_, _, _, _, _, hsome, -⟩
      . exact ⟨_, heff', rfl, rfl, rfl⟩
      . rw [hnone] at hsome
        cases hsome
  . refine ⟨_, heff, ?_, ?_, ?_⟩
    . rintro h ⟨⟩
      refine ⟨hh.null, hh.state.full, _, hh.decode_segmentWrite hdec _ bufs intermediate' output', ?_, ?_, ?_⟩
      . intro k' v'
        rw [bumpEntries_has_iff]
        exact hh.has_iff hk
      . intro p hne
        apply hh.inSegment_of_content_ne
        rw [HopRecords.get_bumpEntries] at hne
        exact hne
      . intro p hne
        apply hh.count_of_kv_ne
        unfold HopRecords.kv at hne ⊢
        rw [HopRecords.get_bumpEntries] at hne
        exact hne
    . rintro ⟨⟩
    . intro s' hs'
      rcases hopscotchInsertAndUnlock_spec hinv (hwindow.trans hs') with
        ⟨hnone, -⟩ | ⟨_, _, _, _, _, hsome', -, hlock', heff'⟩
      . rw [hsome] at hnone
        cases hnone
      . rw [hsome] at hsome'
        cases hsome'
        rw [hlock] at hlock'
        cases hlock'
        exact ⟨_, heff', rfl, rfl, rfl⟩

end Effect

/-- A node whose nine records are at home: those of slots 8, 12 to 15 and 0 to 3. -/
def wrappedNode : Node HopEntry where
  metadata := ⟨⟨0, 0⟩, GlobalAddress.null⟩
  records := Vector.ofFn fun p =>
    if p.val ≤ 3 ∨ p.val = 8 ∨ 12 ≤ p.val then
      ⟨⟨0, 0⟩, 128, 0, int2key (16 + p.val), 7⟩
    else
      HopEntry.null

def wrappedRecords : HopRecords := (wrappedNode.bumpNodeVersions true).records

set_option maxRecDepth 10000 in
/--
An insert of home 12 with the slots from 12 around to 4 fetched: the record of slot 13 hops to slot 4, the
new one takes its place.
-/
theorem hopscotch_insert_and_unlock_effect_wrapped
    : ∃ (eff : InsertEffect) (h : Hopped) (r' : HopRecords),
        hopscotchInsertAndUnlock ⟨true, true⟩ lastDigit
            ⟨(wrappedNode.bumpNodeVersions true).metadata, wrappedRecords.setEntry 8 HopEntry.null⟩
            (int2key 12) 9 GlobalAddress.null 0 9 true (fun _ _ => 0) = .ok eff
          ∧ eff.hopped = some h ∧ h.emptyIdx = 20 ∧ h.hoppedIdxes = [4, 13]
          ∧ Node.decode true (eff.writes.foldl NodeMemory.write
                (fun _ => wrappedNode.encode true (fun _ => 0) fun _ => 0) GlobalAddress.null)
              (fun _ => 0) (fun _ => 0) = some ⟨(wrappedNode.bumpNodeVersions true).metadata, r'⟩
          ∧ r'.Has (int2key 12) 9 ∧ r'.Has (int2key 29) 7 ∧ r'.Has (int2key 24) 7
          ∧ (∀ p, (r'.get p).content ≠ (wrappedRecords.get p).content →
              InSegment 12 4 p)
          ∧ ∀ p, r'.kv p ≠ wrappedRecords.kv p → h.hoppedIdxes.count p.val = 1 := by
  have hdec : Node.decode true (wrappedNode.encode true (fun _ => 0) (fun _ => 0)) (fun _ => 0) (fun _ => 0)
      = some (wrappedNode.bumpNodeVersions true) := by
    obtain ⟨buf, hbuf⟩ := wrappedNode.isEncoded_encode true (fun _ => 0) (fun _ => 0)
    exact Node.decode_eq_some.mpr ⟨buf, _, hbuf⟩
  have hinv : wrappedRecords.Inv lastDigit :=
    ⟨by decide +kernel, by decide +kernel⟩
  have hhome : ((lastDigit (int2key 12)).val : Int) = 12 := by decide +kernel
  have hwindow : AgreeOn (lastDigit (int2key 12)).val ((lastDigit (int2key 12)).val + (9 : Nat) - 1)
      wrappedRecords (wrappedRecords.setEntry 8 HopEntry.null) := by
    intro i hlo hhi
    unfold HopRecords.getEntry
    rw [HopRecords.get_setEntry, if_neg]
    rw [slot_eq_slot_iff]
    omega
  obtain ⟨eff, heff, hsome, -, -⟩ := hopscotch_insert_and_unlock_effect ⟨true, true⟩ lastDigit
    (fun _ => wrappedNode.encode true (fun _ => 0) fun _ => 0) GlobalAddress.null
    (wrappedNode.bumpNodeVersions true).metadata wrappedRecords _ _ _ hdec hinv (int2key 12) 9
    (by decide) 9 hwindow 0 true (fun _ _ => 0) (fun _ => 0) (fun _ => 0)
  have hhops : (hopscotchInsertAndUnlock ⟨true, true⟩ lastDigit
      ⟨(wrappedNode.bumpNodeVersions true).metadata, wrappedRecords.setEntry 8 HopEntry.null⟩
      (int2key 12) 9 GlobalAddress.null 0 9 true (fun _ _ => 0)).map
        (fun eff => eff.hopped.map fun h => (h.emptyIdx, h.hoppedIdxes)) = .ok (some (20, [4, 13])) := by
    decide +kernel
  rw [heff] at hhops
  obtain ⟨h, hh, heq⟩ := Option.map_eq_some_iff.mp (Except.ok.inj hhops)
  obtain ⟨hempty, hidxes⟩ := Prod.mk.inj heq
  obtain ⟨-, -, r', hdec', hhas, hsegment, hcount⟩ := hsome h hh
  rw [hempty] at hsegment
  refine ⟨eff, h, r', heff, hh, hempty, hidxes, hdec', ?_, ?_, ?_, hsegment, hcount⟩
  . exact (hhas _ _).mpr (.inr ⟨rfl, rfl⟩)
  . exact (hhas _ _).mpr (.inl (by decide +kernel))
  . exact (hhas _ _).mpr (.inl (by decide +kernel))

end Rolex

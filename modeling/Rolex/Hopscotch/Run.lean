import Rolex.Hopscotch.Memory
import Rolex.Hopscotch.Search
import Rolex.Hopscotch.Vacancy

/-!
This module contains how the programs of the `HOPSCOTCH_LEAF_NODE` builds run without interruption: what
the partial READs of a node bring, and what an insert makes of the group of its leaf.
-/

namespace Rolex

theorem HopNode.get_part (n : HopNode) (header : Bool) (idx num : Nat) (p : Fin leafSpanSize)
    : (n.part header idx num).records.get p
        = if idx ≤ p.val ∧ p.val < idx + num then n.records.get p else HopEntry.null :=
  HopRecords.get_ofFn _ p

theorem HopNode.part_all (n : HopNode) : n.part true 0 leafSpanSize = n := by
  have hrecords : (n.part true 0 leafSpanSize).records = n.records := by
    apply HopRecords.ext_get
    intro p
    rw [get_part, if_pos ⟨Nat.zero_le _, by omega⟩]
  cases n
  simp only [part] at hrecords ⊢
  rw [hrecords]
  rfl

namespace Hop

section Fetch

variable {b : Build} {hashIdx entryNum : Nat} {nl nr n : HopNode}

/-- What the READs of a node bring when the first one sees `nl` and the second one `nr`. -/
def segmentsOf (b : Build) (hashIdx entryNum : Nat) (nl nr : HopNode) : Segments where
  l := if readsL b hashIdx entryNum then nl.part true 0 (segmentSizeL hashIdx entryNum) else HopNode.zero
  r := nr.part (headerR b hashIdx entryNum) hashIdx (segmentSizeR hashIdx entryNum)

theorem get_leaf (b : Build) (hashIdx entryNum : Nat) (nl nr : HopNode) (p : Fin leafSpanSize)
    : ((segmentsOf b hashIdx entryNum nl nr).leaf b hashIdx entryNum).records.get p
        = if hashIdx ≤ p.val ∧ p.val < hashIdx + segmentSizeR hashIdx entryNum then
            nr.records.get p
          else if p.val < segmentSizeL hashIdx entryNum then
            nl.records.get p
          else
            HopEntry.null := by
  unfold Segments.leaf
  rw [HopRecords.get_ofFn]
  split
  . next hin => exact (nr.get_part _ _ _ p).trans (if_pos hin)
  . simp only [segmentsOf]
    split
    . next hreads =>
      rw [nl.get_part]
      simp
    . next hreads =>
      have hzero : segmentSizeL hashIdx entryNum = 0 := by
        simp only [readsL, Bool.or_eq_true, decide_eq_true_eq, not_or] at hreads
        omega
      rw [hzero, if_neg (Nat.not_lt_zero _)]
      exact HopRecords.get_zero p

/-- The slots from `hash_idx` on come from the second READ, those behind the wrap from the first one. -/
theorem getEntry_leaf (b : Build) (nl nr : HopNode) (hidx : hashIdx < leafSpanSize)
    (hnum : entryNum ≤ leafSpanSize) {i : Int} (hi : hashIdx ≤ i) (hi' : i < hashIdx + entryNum)
    : ((segmentsOf b hashIdx entryNum nl nr).leaf b hashIdx entryNum).records.getEntry i
        = if i < leafSpanSize then nr.records.getEntry i else nl.records.getEntry i := by
  have hslot := val_slot i
  have h16 := leafSpanSize_eq
  have hsizeR : segmentSizeR hashIdx entryNum = min entryNum (16 - hashIdx) := rfl
  have hsizeL : segmentSizeL hashIdx entryNum = entryNum - (16 - hashIdx) := by
    unfold segmentSizeL
    split <;> omega
  unfold HopRecords.getEntry
  rw [get_leaf]
  by_cases hlt : i < leafSpanSize
  . rw [if_pos hlt, if_pos (by omega)]
  . rw [if_neg hlt, if_neg (by omega), if_pos (by omega)]

theorem agreeOn_leaf (b : Build) (n : HopNode) (hidx : hashIdx < leafSpanSize)
    (hnum : entryNum ≤ leafSpanSize)
    : AgreeOn hashIdx (hashIdx + entryNum - 1) n.records
        ((segmentsOf b hashIdx entryNum n n).leaf b hashIdx entryNum).records := by
  intro i hi hi'
  rw [getEntry_leaf b n n hidx hnum hi (by omega), ite_self]

theorem metadata_leaf {needMetadata : Bool} (hneed : needMetadata = true)
    (hok : (segmentsOf b hashIdx entryNum n n).metadataOk b hashIdx entryNum needMetadata = true)
    : ((segmentsOf b hashIdx entryNum n n).leaf b hashIdx entryNum).metadata = n.metadata := by
  unfold Segments.metadataOk at hok
  rw [hneed] at hok
  unfold Segments.leaf segmentsOf HopNode.part
  by_cases hl : readsL b hashIdx entryNum = true
  . simp [hl]
  . by_cases hr : headerR b hashIdx entryNum = true
    . simp [hl, hr]
    . simp [hl, hr] at hok

/-- The part of the node `n` that is in the leaf buffer after a fetch that nothing interrupts. -/
structure Fetched (hashIdx entryNum : Nat) (n leaf : HopNode) : Prop where
  metadata : leaf.metadata = n.metadata
  agree : AgreeOn hashIdx (hashIdx + entryNum - 1) n.records leaf.records

end Fetch

section Run

variable {ι : Type} [DecidableEq ι] {i : ι} {b : Build} {hash : Key → Fin leafSpanSize} {rounds : Nat}
  {m m' : Mem ι} {a : GlobalAddress} {hashIdx entryNum : Nat}

theorem readSegments_run
    : (readSegments b hashIdx entryNum a).run (exec i) m
        = some (segmentsOf b hashIdx entryNum (m.node a) (m.node a), m) := by
  unfold readSegments segmentsOf
  split
  . simp [exec]
  . simp [exec]

theorem readAll_run (leafAddrs : List (GlobalAddress × Nat))
    : (readAll b hashIdx leafAddrs).run (exec i) m
        = some (leafAddrs.map (fun p => (p.2, segmentsOf b hashIdx p.2 (m.node p.1) (m.node p.1))), m) := by
  induction leafAddrs with
  | nil => rfl
  | cons p leafAddrs ih =>
    obtain ⟨a, n⟩ := p
    unfold readAll
    rw [Prog.run_bind_eq (exec i) readSegments_run, Prog.run_bind_eq (exec i) ih]
    rfl

theorem decodeAll_cases (b : Build) (hashIdx : Nat) (needMetadata : Bool) (segments : List (Nat × Segments))
    : decodeAll b hashIdx needMetadata segments = .fail
        ∨ decodeAll b hashIdx needMetadata segments = .ret none
        ∨ (decodeAll b hashIdx needMetadata segments
              = .ret (some (segments.map (fun p => p.2.leaf b hashIdx p.1)))
            ∧ ∀ p ∈ segments, p.2.consistent b hashIdx p.1 = true
              ∧ p.2.metadataOk b hashIdx p.1 needMetadata = true) := by
  induction segments with
  | nil => exact .inr (.inr ⟨rfl, fun p hp => absurd hp List.not_mem_nil⟩)
  | cons p segments ih =>
    obtain ⟨n, s⟩ := p
    unfold decodeAll
    split
    . exact .inr (.inl rfl)
    . next hcons =>
      split
      . exact .inl rfl
      . next hok =>
        rcases ih with heq | heq | ⟨heq, hall⟩
        . rw [heq]
          exact .inl rfl
        . rw [heq]
          exact .inr (.inl rfl)
        . rw [heq]
          refine .inr (.inr ⟨rfl, List.forall_mem_cons.mpr ⟨⟨?_, ?_⟩, hall⟩⟩)
          . simpa using hcons
          . simpa using hok

theorem decodeAll_run {needMetadata : Bool} {segments : List (Nat × Segments)}
    {res : Option (List HopNode)}
    (h : (decodeAll b hashIdx needMetadata segments).run (exec i) m = some (res, m'))
    : m' = m ∧ ∀ leaves, res = some leaves →
        leaves = segments.map (fun p => p.2.leaf b hashIdx p.1)
        ∧ ∀ p ∈ segments, p.2.consistent b hashIdx p.1 = true
          ∧ p.2.metadataOk b hashIdx p.1 needMetadata = true := by
  rcases decodeAll_cases b hashIdx needMetadata segments with heq | heq | ⟨heq, hall⟩
  . rw [heq] at h
    cases h
  . rw [heq] at h
    cases h
    exact ⟨rfl, fun leaves hres => by cases hres⟩
  . rw [heq] at h
    cases h
    refine ⟨rfl, fun leaves hres => ?_⟩
    cases hres
    exact ⟨rfl, hall⟩

theorem hopscotchFetchNodes_run {needMetadata : Bool} {leafAddrs : List (GlobalAddress × Nat)}
    {leaves : List HopNode}
    (h : (hopscotchFetchNodes b hashIdx needMetadata leafAddrs rounds).run (exec i) m = some (leaves, m'))
    : m' = m ∧ leaves = leafAddrs.map (fun p =>
          (segmentsOf b hashIdx p.2 (m.node p.1) (m.node p.1)).leaf b hashIdx p.2)
        ∧ ∀ p ∈ leafAddrs, (segmentsOf b hashIdx p.2 (m.node p.1) (m.node p.1)).metadataOk b hashIdx p.2
            needMetadata = true := by
  induction rounds with
  | zero => cases h
  | succ rounds ih =>
    unfold hopscotchFetchNodes at h
    rw [Prog.run_bind_eq (exec i) (readAll_run leafAddrs)] at h
    obtain ⟨res, m₁, hdec, h⟩ := (Prog.run_bind_eq_some (exec i)).mp h
    obtain ⟨rfl, hleaves⟩ := decodeAll_run hdec
    cases res with
    | none => exact ih h
    | some leaves' =>
      cases h
      obtain ⟨rfl, hall⟩ := hleaves _ rfl
      refine ⟨rfl, by rw [List.map_map]; rfl, fun p hp => ?_⟩
      exact (hall _ (List.mem_map_of_mem hp)).2

theorem hopscotchFetchNode_run {needMetadata : Bool} {leaf : HopNode}
    (h : (hopscotchFetchNode b hashIdx needMetadata a entryNum rounds).run (exec i) m = some (leaf, m'))
    : m' = m ∧ leaf = (segmentsOf b hashIdx entryNum (m.node a) (m.node a)).leaf b hashIdx entryNum
        ∧ (segmentsOf b hashIdx entryNum (m.node a) (m.node a)).metadataOk b hashIdx entryNum needMetadata
          = true := by
  unfold hopscotchFetchNode at h
  obtain ⟨leaves, m₁, hfetch, h⟩ := (Prog.run_bind_eq_some (exec i)).mp h
  obtain ⟨rfl, rfl, hok⟩ := hopscotchFetchNodes_run hfetch
  cases h
  exact ⟨rfl, rfl, hok _ List.mem_cons_self⟩

theorem hopscotchFetchNode_fetched {leaf : HopNode} (hidx : hashIdx < leafSpanSize)
    (hnum : entryNum ≤ leafSpanSize)
    (h : (hopscotchFetchNode b hashIdx true a entryNum rounds).run (exec i) m = some (leaf, m'))
    : m' = m ∧ Fetched hashIdx entryNum (m.node a) leaf := by
  obtain ⟨rfl, rfl, hok⟩ := hopscotchFetchNode_run h
  exact ⟨rfl, metadata_leaf rfl hok, agreeOn_leaf b _ hidx hnum⟩

theorem fetchNode_run {leaf : HopNode} (h : (fetchNode a rounds).run (exec i) m = some (leaf, m'))
    : m' = m ∧ leaf = m.node a := by
  induction rounds with
  | zero => cases h
  | succ rounds ih =>
    unfold fetchNode at h
    simp only [Prog.call_bind, Prog.run_op, exec, HopNode.part_all] at h
    split at h
    . cases h
      exact ⟨rfl, rfl⟩
    . exact ih h

theorem reRead_run {leaf : HopNode} (hidx : hashIdx < leafSpanSize) (hnum : entryNum ≤ leafSpanSize)
    (h : (reRead b rounds a hashIdx entryNum).run (exec i) m = some (leaf, m'))
    : m' = m ∧ Fetched hashIdx entryNum (m.node a) leaf := by
  unfold reRead at h
  split at h
  . exact hopscotchFetchNode_fetched hidx hnum h
  . obtain ⟨rfl, rfl⟩ := fetchNode_run h
    exact ⟨rfl, rfl, fun _ _ _ => rfl⟩

theorem Fetched.eq {n leaf : HopNode} (h : Fetched hashIdx leafSpanSize n leaf) : leaf = n := by
  have hrecords : leaf.records = n.records := by
    apply HopRecords.ext_get
    intro p
    obtain ⟨j, hj, hj', rfl⟩ := exists_logical hashIdx p
    have h16 := leafSpanSize_eq
    exact (h.agree j hj (by omega)).symm
  have hmeta := h.metadata
  cases leaf
  cases n
  simp only at hrecords hmeta
  rw [hrecords, hmeta]

theorem get_copyRecords (r tmp : HopRecords) (rIdx num : Nat) (p : Fin leafSpanSize)
    : (copyRecords r tmp rIdx num).get p
        = if ∃ i : Nat, i < num ∧ slot (rIdx + i) = p then tmp.get p else r.get p := by
  unfold copyRecords
  induction num with
  | zero => simp
  | succ num ih =>
    rw [List.range_succ, List.foldl_append]
    simp only [List.foldl_cons, List.foldl_nil]
    rw [HopRecords.get_setEntry, ih]
    by_cases hp : p = slot (rIdx + num)
    . rw [if_pos hp, if_pos ⟨num, by omega, hp.symm⟩, hp]
      rfl
    . rw [if_neg hp]
      apply if_congr _ rfl rfl
      constructor
      . rintro ⟨i, hi, heq⟩
        exact ⟨i, by omega, heq⟩
      . rintro ⟨i, hi, heq⟩
        refine ⟨i, ?_, heq⟩
        by_contra hge
        obtain rfl : i = num := by omega
        exact hp heq.symm

theorem Fetched.rest {n leaf : HopNode} {tmp : HopRecords} {rIdx num : Nat}
    (h : Fetched hashIdx entryNum n leaf) (hidx : rIdx = (hashIdx + entryNum) % leafSpanSize)
    (hnum : num = leafSpanSize - entryNum) (htmp : AgreeOn rIdx (rIdx + num - 1) n.records tmp)
    : { leaf with records := copyRecords leaf.records tmp rIdx num } = n := by
  suffices hall : Fetched hashIdx leafSpanSize n
      { leaf with records := copyRecords leaf.records tmp rIdx num } from hall.eq
  have h16 := leafSpanSize_eq
  rw [h16] at hidx
  refine ⟨h.metadata, fun j hj hj' => ?_⟩
  unfold HopRecords.getEntry
  rw [get_copyRecords]
  split
  . next hex =>
    obtain ⟨t, ht, heq⟩ := hex
    rw [← heq]
    exact htmp _ (by omega) (by omega)
  . next hnot =>
    apply h.agree j hj
    by_contra hge
    apply hnot
    refine ⟨(j - hashIdx - entryNum).toNat, by omega, ?_⟩
    rw [slot_eq_slot_iff]
    omega

theorem readRest_run {leaf leaf' : HopNode} (hnum : entryNum ≤ leafSpanSize)
    (hval : b.vacancyAwareLock = false → entryNum = leafSpanSize)
    (hleaf : Fetched hashIdx entryNum (m.node a) leaf)
    (h : (readRest b rounds leaf a hashIdx entryNum).run (exec i) m = some (leaf', m'))
    : m' = m ∧ leaf' = m.node a := by
  unfold readRest at h
  split at h
  . next hcond =>
    obtain ⟨tmp, m₁, hfetch, hret⟩ := (Prog.run_bind_eq_some (exec i)).mp h
    obtain ⟨rfl, rfl, -⟩ := hopscotchFetchNode_run hfetch
    cases hret
    refine ⟨rfl, hleaf.rest rfl rfl ?_⟩
    apply agreeOn_leaf
    . exact Nat.mod_lt _ (by decide)
    . exact Nat.sub_le _ _
  . next hcond =>
    cases h
    have hall : entryNum = leafSpanSize := by
      cases hv : b.vacancyAwareLock with
      | false => exact hval hv
      | true =>
        rw [hv] at hcond
        simp only [true_and] at hcond
        omega
    rw [hall] at hleaf
    exact ⟨rfl, hleaf.eq⟩

omit [DecidableEq ι] in
theorem getReadEntryNum_bounds (b : Build) {lIdx : Nat} (lock : BitVec 64) (isSynonym : Bool)
    : 1 ≤ getReadEntryNum b lIdx lock isSynonym ∧ getReadEntryNum b lIdx lock isSynonym ≤ leafSpanSize := by
  have h16 := leafSpanSize_eq
  have h8 := neighborSize_eq
  obtain ⟨hlo, hhi⟩ := VALock.getReadEntryNumFromBitmap_bounds lock lIdx isSynonym
  unfold getReadEntryNum
  split
  . dsimp only
    split
    . next hcond =>
      rw [h8] at *
      omega
    . exact ⟨hlo, hhi⟩
  . omega

theorem getReadEntryNum_of_false (h : b.vacancyAwareLock = false) (lIdx : Nat) (lock : BitVec 64)
    (isSynonym : Bool)
    : getReadEntryNum b lIdx lock isSynonym = leafSpanSize := by
  unfold getReadEntryNum
  rw [h]
  rfl

/-- The number of slots from `hash_idx` on in which `insert` looks for an existing key. -/
def seenNum (b : Build) (readEntryNum : Nat) : Nat :=
  if b.vacancyAwareLock then readEntryNum % leafSpanSize else leafSpanSize

theorem existingKey.go_iff (r : HopRecords) (k : Key) {n j d : Nat} (hj : j < leafSpanSize)
    (hd : d < leafSpanSize) (hdn : d ≤ n)
    : existingKey.go r k ((j + d) % leafSpanSize) n j = true
        ↔ ∃ t : Nat, t < d ∧ (r.getEntry (j + t)).key = k := by
  rw [leafSpanSize_eq] at *
  induction n generalizing j d with
  | zero =>
    obtain rfl : d = 0 := by omega
    simp [go]
  | succ n ih =>
    unfold go
    split
    . next hend =>
      obtain rfl : d = 0 := by omega
      simp
    . next hne =>
      have hpos : 1 ≤ d := by
        by_contra hlt
        obtain rfl : d = 0 := by omega
        omega
      split
      . next hkey =>
        refine ⟨fun _ => ⟨0, hpos, ?_⟩, fun _ => rfl⟩
        simpa using hkey
      . next hkey =>
        have hidx : (j + d) % 16 = ((j + 1) % 16 + (d - 1)) % 16 := by omega
        rw [leafSpanSize_eq, hidx, ih (Nat.mod_lt _ (by decide)) (by omega) (by omega)]
        have hslot : ∀ t : Nat, r.getEntry (((j + 1) % 16 : Nat) + t) = r.getEntry (j + (t + 1 : Nat)) := by
          intro t
          unfold HopRecords.getEntry
          congr 1
          rw [slot_eq_slot_iff]
          omega
        constructor
        . rintro ⟨t, ht, heq⟩
          rw [hslot] at heq
          exact ⟨t + 1, by omega, heq⟩
        . rintro ⟨t, ht, heq⟩
          cases t with
          | zero => exact absurd (by simpa using heq) hkey
          | succ t =>
            refine ⟨t, by omega, ?_⟩
            rw [hslot]
            exact heq

theorem existingKey_iff (b : Build) (r : HopRecords) (k : Key) (hidx : hashIdx < leafSpanSize)
    (readEntryNum : Nat)
    : existingKey b r k hashIdx readEntryNum = true
        ↔ ∃ t : Nat, t < seenNum b readEntryNum ∧ (r.getEntry (hashIdx + t)).key = k := by
  have h16 := leafSpanSize_eq
  unfold existingKey seenNum
  cases b.vacancyAwareLock with
  | true =>
    have hmod : (hashIdx + readEntryNum) % leafSpanSize
        = (hashIdx + readEntryNum % leafSpanSize) % leafSpanSize := by
      rw [h16]
      omega
    simp only [if_true]
    rw [hmod]
    exact existingKey.go_iff r k hidx (Nat.mod_lt _ (by decide)) (Nat.le_of_lt (Nat.mod_lt _ (by decide)))
  | false =>
    simp only [Bool.false_eq_true, if_false, List.any_eq_true, decide_eq_true_eq]
    constructor
    . rintro ⟨e, he, rfl⟩
      obtain ⟨p, hp, rfl⟩ := List.getElem_of_mem he
      have hlt : p < leafSpanSize := by simpa using hp
      obtain ⟨j, hj, hj', hslot⟩ := exists_logical hashIdx ⟨p, hlt⟩
      refine ⟨(j - hashIdx).toNat, by omega, ?_⟩
      have hidx' : (hashIdx : Int) + (j - hashIdx).toNat = j := by omega
      unfold HopRecords.getEntry
      rw [hidx', hslot]
      rfl
    . rintro ⟨t, -, rfl⟩
      exact ⟨_, Vector.mem_toList_iff.mpr (Vector.getElem_mem (slot (hashIdx + t)).isLt), rfl⟩

theorem acquire_run (hfree : VALock.Unlocked (m.lock a)) (attempts : Nat)
    : (lockNode.acquire a (attempts + 1)).run (exec i) m = some (m.lock a, m.setLock a (~~~0)) := by
  have hfree' := (VALock.unlocked_iff _).mpr hfree
  have hcas : exec i (.casMask a 0 (~~~0) lockBit (~~~0)) m = (m.lock a, m.setLock a (~~~0)) := by
    simp only [exec]
    rw [if_pos hfree', swap_all]
  simp only [lockNode.acquire, Prog.call_bind, Prog.run_op]
  rw [hcas]
  exact congrArg (fun p : ProgM (BitVec 64) => p.run (exec i) _) (if_pos hfree')

theorem lockNode_run (hfree : VALock.Unlocked (m.lock a))
    : (lockNode a).run (exec i) m = some (m.lock a, m.setLock a (~~~0)) :=
  acquire_run hfree 10000001

omit [DecidableEq ι] in
theorem setNode_setNode (m : Mem ι) (a : GlobalAddress) (n n' : HopNode)
    : (m.setNode a n).setNode a n' = m.setNode a n' := by
  simp [Mem.setNode]

omit [DecidableEq ι] in
theorem node_setNode_self (m : Mem ι) (a : GlobalAddress) (n : HopNode) : (m.setNode a n).node a = n := by
  simp [Mem.setNode]

theorem segmentWrite_wrapped (remote r : HopRecords) {lIdx rIdx : Nat} (hlt : rIdx < lIdx)
    (hl : lIdx < leafSpanSize) (hoppedIdxes : List Nat)
    : segmentWrite (segmentWrite remote r 0 rIdx hoppedIdxes) r lIdx (leafSpanSize - 1) hoppedIdxes
        = segmentWrite remote r lIdx rIdx hoppedIdxes := by
  have hfirst : ∀ p, InSegment 0 rIdx p ↔ p ≤ rIdx := by
    intro p
    unfold InSegment
    rw [if_pos (Nat.zero_le rIdx)]
    exact and_iff_right (Nat.zero_le p)
  have hsecond : ∀ p : Fin leafSpanSize, InSegment lIdx (leafSpanSize - 1) p ↔ lIdx ≤ p := by
    intro p
    unfold InSegment
    rw [if_pos (by omega)]
    exact and_iff_left (by omega)
  have hboth : ∀ p, InSegment lIdx rIdx p ↔ p ≤ rIdx ∨ lIdx ≤ p := by
    intro p
    unfold InSegment
    rw [if_neg (by omega)]
  apply HopRecords.ext_get
  intro p
  unfold segmentWrite
  simp only [HopRecords.get_ofFn, hfirst, hsecond, hboth]
  by_cases hp : lIdx ≤ p.val
  . simp [hp]
  . simp [hp]

theorem segmentWriteAndUnlock_run (r : HopRecords) {lIdx : Nat} (hl : lIdx < leafSpanSize) (rIdx : Nat)
    (hoppedIdxes : List Nat) (lock : BitVec 64) (needUnlock : Bool)
    : (segmentWriteAndUnlock r lIdx rIdx hoppedIdxes a lock needUnlock).run (exec i) m
        = some ((), (m.setNode a { m.node a with
            records := segmentWrite (m.node a).records r lIdx rIdx hoppedIdxes }).setLock? a
              (if needUnlock then some lock else none)) := by
  unfold segmentWriteAndUnlock
  dsimp only
  split
  . split
    . next h =>
      rw [h.1]
      rfl
    . rfl
  . next h =>
    simp only [Prog.call_bind, Prog.run_op, Prog.run_call, exec, Mem.setLock?, node_setNode_self,
      setNode_setNode]
    rw [segmentWrite_wrapped _ _ (by omega) hl]

/-- `hopscotch_insert_and_unlock` by the holder of the lock, on a node of which it has read the window. -/
theorem hopscotchInsertAndUnlock_run {k : Key} {leaf : HopNode} (hinv : (m.node a).records.Inv hash)
    (hleaf : AgreeOn (hash k).val ((hash k).val + entryNum - 1) (m.node a).records leaf.records) (v : Value)
    (lock : BitVec 64) (isLockedLeaf : Bool)
    : (hopscotchInsert hash (m.node a).records k v entryNum = .ok none
          ∧ (hopscotchInsertAndUnlock b hash leaf k v a lock entryNum isLockedLeaf).run (exec i) m
            = some (.ok none, m))
        ∨ ∃ e l r' lock', Hops hash (m.node a).records k v e l r'
          ∧ hopscotchInsert hash (m.node a).records k v entryNum = .ok (some ⟨r', e, l⟩)
          ∧ segmentLock b r' (hash k).val (slot e).val lock isLockedLeaf = .ok lock'
          ∧ (hopscotchInsertAndUnlock b hash leaf k v a lock entryNum isLockedLeaf).run (exec i) m
            = some (.ok (some lock'), (m.setNode a { m.node a with records := r'.bumpEntries l }).setLock? a
                (if isLockedLeaf then some lock' else none)) := by
  unfold hopscotchInsertAndUnlock
  rcases hopscotchInsert_window hinv hleaf with ⟨hnone, hnone'⟩ | ⟨e, l, r', s', hins, hsome, hh, he, hagree⟩
  . refine .inl ⟨hnone, ?_⟩
    rw [hnone']
    rfl
  . have hagree' : AgreeOn (hash k).val e r' s' := fun j hj hje => hagree j hj (by omega)
    have hsegment : AgreeInSegment (hash k).val (slot e).val r' s' := by
      intro p hp
      obtain ⟨j, hj, hje, rfl⟩ := (inSegment_iff hh.state.lo hh.state.hi).mp hp
      exact hagree' j hj hje
    obtain ⟨lock', hlock⟩ := segmentLock_ok b r' (hash k).isLt (slot e).isLt lock isLockedLeaf
    refine .inr ⟨e, l, r', lock', hh, hins, hlock, ?_⟩
    rw [segmentLock_congr b (hash k).isLt (slot e).isLt hsegment] at hlock
    rw [hsome, Prog.attempt_ok]
    dsimp only
    rw [hlock, Prog.attempt_ok, Prog.run_bind_eq (exec i) (segmentWriteAndUnlock_run _ (hash k).isLt _ _ _ _),
      hh.segmentWrite_eq hagree']
    rfl

/-- The bytes `mem` of the nodes are those of `m`. -/
structure Encodes (b : Build) (mem : NodeMemory) (m : Mem ι) : Prop where
  node : ∀ a intermediate output, Node.decode b.metadataReplication (mem a) intermediate output
    = some (⟨(m.node a).metadata, (m.node a).records⟩ : Node HopEntry)
  lock : ∀ a, Node.LockedWith HopEntry b.metadataReplication (mem a) (m.lock a)

set_option maxRecDepth 10000 in
omit [DecidableEq ι] in
theorem encodes_init (b : Build) (id : ι → Nat) : Encodes b (fun _ _ => 0) (Mem.init b id) where
  node := by
    intro a intermediate output
    have hzero : ∀ repl, ((Node.decode repl (fun _ => 0) (fun _ => 0) (fun _ => 0) : Option (Node HopEntry)).map
        fun n => (⟨n.metadata, n.records⟩ : HopNode)) = some HopNode.zero := by
      decide +kernel
    obtain ⟨n, hn, heq⟩ := Option.map_eq_some_iff.mp (hzero b.metadataReplication)
    rw [Node.decode_eq_some.mpr (Node.decode_eq_some.mp hn)]
    change _ = some (⟨HopNode.zero.metadata, HopNode.zero.records⟩ : Node HopEntry)
    rw [← heq]
  lock := by
    intro a t _
    simp [wordByte, Mem.init]

omit [DecidableEq ι] in
theorem Encodes.segmentWriteAndUnlock {mem : NodeMemory} (h : Encodes b mem m) {k : Key} {v : Value} {e : Int}
    {l : List Nat} {r' : HopRecords} (hh : Hops hash (m.node a).records k v e l r') (unlock : Option (BitVec 64))
    (bufs : Nat → Buffer)
    : Encodes b ((Node.segmentWriteAndUnlock b.metadataReplication ⟨(m.node a).metadata, r'⟩ (hash k).val
          (slot e).val l a unlock bufs).foldl NodeMemory.write mem)
        ((m.setNode a { m.node a with records := r'.bumpEntries l }).setLock? a unlock) := by
  have hlock : ∀ m : Mem ι, (m.setLock? a unlock).node = m.node
      ∧ ∀ c, (m.setLock? a unlock).lock c = if c = a then unlock.getD (m.lock a) else m.lock c := by
    intro m
    cases unlock with
    | none =>
      refine ⟨rfl, fun c => ?_⟩
      split
      . next hc => rw [hc]; rfl
      . rfl
    | some w => exact ⟨rfl, fun c => Function.update_apply _ _ _ _⟩
  constructor
  . intro c intermediate output
    rw [(hlock _).1]
    by_cases hc : c = a
    . subst hc
      rw [node_setNode_self]
      exact hh.decode_segmentWrite (h.node c intermediate output) unlock bufs intermediate output
    . rw [Node.segmentWriteAndUnlock_of_ne hc, Mem.node_setNode, if_neg hc]
      exact h.node c intermediate output
  . intro c
    rw [(hlock _).2]
    split
    . next hc =>
      subst hc
      exact (h.lock c).segmentWriteAndUnlock (hash k).isLt (slot e).isLt _ l unlock bufs
    . next hc =>
      rw [Node.segmentWriteAndUnlock_of_ne hc]
      exact h.lock c

/--
The two models of `hopscotch_insert_and_unlock` agree: on the bytes of the nodes it has the effect that its
operations have on the nodes, and it returns the same.
-/
theorem hopscotchInsertAndUnlock_refines {mem : NodeMemory} (h : Encodes b mem m) {k : Key} {leaf : HopNode}
    (hinv : (m.node a).records.Inv hash) (hmeta : leaf.metadata = (m.node a).metadata)
    (hleaf : AgreeOn (hash k).val ((hash k).val + entryNum - 1) (m.node a).records leaf.records) (v : Value)
    (lock : BitVec 64) (isLockedLeaf : Bool) (bufs : Nat → Buffer)
    : ∃ eff m', Rolex.hopscotchInsertAndUnlock b hash ⟨leaf.metadata, leaf.records⟩ k v a lock entryNum
          isLockedLeaf bufs = .ok eff
        ∧ (hopscotchInsertAndUnlock b hash leaf k v a lock entryNum isLockedLeaf).run (exec i) m
            = some (.ok (eff.hopped.map fun _ => eff.lock), m')
        ∧ Encodes b (eff.writes.foldl NodeMemory.write mem) m' := by
  rcases hopscotchInsertAndUnlock_run (b := b) (i := i) hinv hleaf v lock isLockedLeaf with
    ⟨hnone, hrun⟩ | ⟨e, l, r', lock', hh, hsome, hlock, hrun⟩
  . rcases hopscotchInsertAndUnlock_spec hinv hleaf with ⟨-, heff⟩ | ⟨_, _, _, _, _, hsome, -⟩
    . exact ⟨_, m, heff, hrun, h⟩
    . rw [hnone] at hsome
      cases hsome
  . rcases hopscotchInsertAndUnlock_spec hinv hleaf with ⟨hnone, -⟩ | ⟨_, _, _, _, _, hsome', -, hlock', heff⟩
    . rw [hsome] at hnone
      cases hnone
    . rw [hsome] at hsome'
      cases hsome'
      rw [hlock] at hlock'
      cases hlock'
      refine ⟨_, _, heff, hrun, ?_⟩
      rw [hmeta]
      exact h.segmentWriteAndUnlock hh _ bufs

/-- The existing-key test of an insert finds the key in the slots of the leaf that it looks at. -/
def Seen (b : Build) (hash : Key → Fin leafSpanSize) (k : Key) (g : HopGroup) : Prop :=
  ∃ t : Nat, t < seenNum b (getReadEntryNum b (hash k).val g.lock false)
    ∧ (g.leaf.records.getEntry ((hash k).val + t)).key = k

/-- What an insert that returns makes of the group of its leaf. -/
inductive Inserts (b : Build) (hash : Key → Fin leafSpanSize) (k : Key) (v : Value) (g : HopGroup)
    : HopGroup → Prop
  | existing (hseen : Seen b hash k g) : Inserts b hash k v g g
  | leaf {e : Int} {l : List Nat} {r' : HopRecords} {lock' : BitVec 64} (hnew : ¬ Seen b hash k g)
      (hins : hopscotchInsert hash g.leaf.records k v (getReadEntryNum b (hash k).val g.lock false)
        = .ok (some ⟨r', e, l⟩))
      (hh : Hops hash g.leaf.records k v e l r')
      (hlock : segmentLock b r' (hash k).val (slot e).val g.lock true = .ok lock')
      : Inserts b hash k v g { g with leaf := { g.leaf with records := r'.bumpEntries l }, lock := lock' }
  | split {addr : GlobalAddress} {leaf' syn' : HopNode} {lock' : BitVec 64} (hnew : ¬ Seen b hash k g)
      (hfail : hopscotchInsert hash g.leaf.records k v (getReadEntryNum b (hash k).val g.lock false)
        = .ok none)
      (hsyn : g.syn = none) (haddr : addr ≠ GlobalAddress.null)
      (hsplit : hopscotchSplit hash g.leaf k v addr = .ok (leaf', syn'))
      (hlock : splitLock b leaf'.records syn'.records g.lock = .ok lock')
      : Inserts b hash k v g ⟨leaf'.bumpNodeVersions, some syn'.bumpNodeVersions, lock'⟩
  | syn {n : HopNode} {e : Int} {l : List Nat} {r' : HopRecords} {lock' : BitVec 64}
      (hnew : ¬ Seen b hash k g)
      (hfail : hopscotchInsert hash g.leaf.records k v (getReadEntryNum b (hash k).val g.lock false)
        = .ok none)
      (hsyn : g.syn = some n)
      (hins : hopscotchInsert hash n.records k v (getReadEntryNum b (hash k).val g.lock true)
        = .ok (some ⟨r', e, l⟩))
      (hh : Hops hash n.records k v e l r')
      (hlock : segmentLock b r' (hash k).val (slot e).val g.lock false = .ok lock')
      : Inserts b hash k v g { g with syn := some { n with records := r'.bumpEntries l }, lock := lock' }
  | full {n : HopNode} (hnew : ¬ Seen b hash k g)
      (hfail : hopscotchInsert hash g.leaf.records k v (getReadEntryNum b (hash k).val g.lock false)
        = .ok none)
      (hsyn : g.syn = some n)
      (hfull : hopscotchInsert hash n.records k v (getReadEntryNum b (hash k).val g.lock true) = .ok none)
      : Inserts b hash k v g g

/-- The assertions that an insert can fail: those on the critical keys and on the insert after a split. -/
def SplitFails (res : Except Assertion Unit) : Prop :=
  ∃ x, res = .error x ∧ (x = .criticalKeys ∨ x = .emptySlot ∨ x = .hopFails)

variable {k : Key} {v : Value}

theorem splitLock_ok (b : Build) (r r' : HopRecords) (lock : BitVec 64)
    : ∃ lock', splitLock b r r' lock = .ok lock' := by
  have hempty : ∀ r : HopRecords, ∀ j ∈ emptyIdxes r 0 (leafSpanSize - 1), j < leafSpanSize
      ∧ InSegment 0 (leafSpanSize - 1) j :=
    fun r j hj => (VALock.mem_segmentList (by decide) (by decide)).mp (List.mem_of_mem_filter hj)
  unfold splitLock
  split
  . obtain ⟨lock₁, h₁⟩ := VALock.updateVacancy_ok lock false (by decide) (by decide) (hempty r)
    obtain ⟨lock₂, h₂⟩ := VALock.updateVacancy_ok lock₁ true (by decide) (by decide) (hempty r')
    refine ⟨lock₂, ?_⟩
    rw [h₁]
    exact h₂
  . exact ⟨lock, rfl⟩

theorem hopscotchSplitAndUnlock_run {w : BitVec 64} {res : Except Assertion Unit} (hshape : m.Shape b)
    (ha : b.IsLeaf a) (hinv : (m.node a).records.Inv hash) (hk : k ≠ kkeyNull)
    (h : (hopscotchSplitAndUnlock b hash (m.node a) k v a (m.lock a)).run (exec i) (m.setLock a w)
      = some (res, m'))
    : SplitFails res ∨ (res = .ok () ∧ ∃ addr leaf' syn' lock', addr ≠ GlobalAddress.null
        ∧ hopscotchSplit hash (m.node a) k v addr = .ok (leaf', syn')
        ∧ splitLock b leaf'.records syn'.records (m.lock a) = .ok lock'
        ∧ GroupStep b m a ⟨leaf'.bumpNodeVersions, some syn'.bumpNodeVersions, lock'⟩ m') := by
  have hnode : (a.nodeID.toNat : Int) < memoryNodeNum := by
    rw [ha.nodeID_eq]
    decide
  unfold hopscotchSplitAndUnlock at h
  simp only [Prog.call_bind, Prog.run_op, exec] at h
  cases hdsm : (m.setLock a w).dsm.allocSync i b.leafBuild.allocationLeafSize cachelineAlignBit
      a.nodeID.toNat with
  | none =>
    rw [hdsm] at h
    cases h
  | some p =>
    obtain ⟨addr, dsm⟩ := p
    rw [hdsm] at h
    dsimp only at h
    rw [Prog.check_some, Prog.ret_bind] at h
    obtain ⟨hshape₁, hfresh⟩ := hshape.alloc hnode hdsm
    cases hsplit : hopscotchSplit hash (m.node a) k v addr with
    | error x =>
      rw [hsplit, Prog.attempt_error] at h
      cases h
      exact .inl ⟨x, rfl, error_of_split hinv hsplit⟩
    | ok nodes =>
      obtain ⟨leaf', syn'⟩ := nodes
      obtain ⟨lock', hlock⟩ := splitLock_ok b leaf'.records syn'.records (m.lock a)
      rw [hsplit, Prog.attempt_ok] at h
      dsimp only at h
      simp only [Prog.run_op, exec, hlock, Prog.attempt_ok, Mem.setLock?] at h
      cases h
      have hptr : leaf'.bumpNodeVersions.metadata.synonymPtr = addr := (splitInto_of_ok hinv hk hsplit).2
      have hstep : GroupStep b { m with dsm } a ⟨leaf'.bumpNodeVersions, some syn'.bumpNodeVersions, lock'⟩ _ :=
        groupStep_link (w := w) hshape₁ ha hfresh hptr
      exact .inr ⟨rfl, addr, leaf', syn', lock', hfresh.ne_null, hsplit, hlock, hstep.group, hstep.shape⟩

/-- The group of a leaf in which every key lies where the search looks for it. -/
structure Sound (hash : Key → Fin leafSpanSize) (g : HopGroup) : Prop where
  leaf : g.leaf.records.Inv hash
  syn : ∀ n, g.syn = some n → n.records.Inv hash
  unlocked : VALock.Unlocked g.lock

theorem insertIntoSyn_run {leaf : HopNode} {synLeaf : Option HopNode} {w : BitVec 64}
    {res : Except Assertion Unit} (hshape : m.Shape b) (ha : b.IsLeaf a) (hsound : Sound hash (m.group a))
    (hk : k ≠ kkeyNull) (hnew : ¬ Seen b hash k (m.group a))
    (hleaf : Fetched (hash k).val (getReadEntryNum b (hash k).val (m.lock a) false) (m.node a) leaf)
    (hsynLeaf : (m.ptr a = GlobalAddress.null ∧ synLeaf = none)
      ∨ (m.ptr a ≠ GlobalAddress.null ∧ ∃ n, synLeaf = some n
        ∧ Fetched (hash k).val (getReadEntryNum b (hash k).val (m.lock a) true) (m.node (m.ptr a)) n))
    (hfail : hopscotchInsert hash (m.node a).records k v (getReadEntryNum b (hash k).val (m.lock a) false)
      = .ok none)
    (h : (insertIntoSyn b hash rounds leaf synLeaf k v a (m.lock a)
        (getReadEntryNum b (hash k).val (m.lock a) false)
        (getReadEntryNum b (hash k).val (m.lock a) true)).run (exec i) (m.setLock a w) = some (res, m'))
    : SplitFails res ∨ (res = .ok () ∧ ∃ g', Inserts b hash k v (m.group a) g' ∧ GroupStep b m a g' m') := by
  unfold insertIntoSyn at h
  rcases hsynLeaf with ⟨hptr, rfl⟩ | ⟨hptr, n, rfl, hn⟩
  . -- a new synonym leaf
    obtain ⟨leaf', m₁, hrest, hsplit⟩ := (Prog.run_bind_eq_some (exec i)).mp h
    obtain ⟨rfl, rfl⟩ := readRest_run (m := m.setLock a w) (getReadEntryNum_bounds b _ _).2
      (fun hv => getReadEntryNum_of_false hv _ _ _) hleaf hrest
    rcases hopscotchSplitAndUnlock_run hshape ha hsound.leaf hk hsplit with
      hfails | ⟨hok, addr, leaf', syn', lock', haddr, heq, hlock, hstep⟩
    . exact .inl hfails
    . exact .inr ⟨hok, _, .split hnew hfail (Mem.group_syn_of_ptr_eq hptr) haddr heq hlock, hstep⟩
  . -- the old one
    have hsyn := Mem.group_syn_of_ptr_ne hptr
    have hinv := hsound.syn _ hsyn
    have hmeta : leaf.metadata.synonymPtr = m.ptr a := congrArg LeafMetadata.synonymPtr hleaf.metadata
    dsimp only at h
    rw [hmeta] at h
    rcases hopscotchInsertAndUnlock_run (b := b) (i := i) (m := m.setLock a w) (a := m.ptr a) hinv hn.agree v
      (m.lock a) false with ⟨hfull, hrun⟩ | ⟨e, l, r', lock', hh, hins, hlock, hrun⟩
    . rw [Prog.run_bind_eq (exec i) hrun] at h
      cases h
      refine .inr ⟨rfl, _, .full hnew hfail hsyn hfull, groupStep_lock hshape ha⟩
    . rw [Prog.run_bind_eq (exec i) hrun] at h
      cases h
      exact .inr ⟨rfl, _, .syn hnew hfail hsyn hins hh hlock, groupStep_syn hshape ha hptr⟩

theorem seenNum_le (b : Build) {lIdx : Nat} (lock : BitVec 64)
    : seenNum b (getReadEntryNum b lIdx lock false) ≤ getReadEntryNum b lIdx lock false := by
  unfold seenNum
  split
  . exact Nat.mod_le _ _
  . next hval => exact (getReadEntryNum_of_false (by simpa using hval) _ _ _).ge

omit [DecidableEq ι] in
theorem existingKey_iff_seen {leaf : HopNode}
    (hleaf : Fetched (hash k).val (getReadEntryNum b (hash k).val (m.lock a) false) (m.node a) leaf)
    : existingKey b leaf.records k (hash k).val (getReadEntryNum b (hash k).val (m.lock a) false) = true
        ↔ Seen b hash k (m.group a) := by
  rw [existingKey_iff b _ _ (hash k).isLt]
  apply exists_congr
  intro t
  apply and_congr_right
  intro ht
  have hle := @seenNum_le b (hash k).val (m.lock a)
  rw [← hleaf.agree ((hash k).val + t) (by omega) (by omega)]
  rfl

theorem reReadSyn_run {leaf : HopNode} {synLeaf : Option HopNode} (hleaf : leaf.metadata = (m.node a).metadata)
    (hidx : hashIdx < leafSpanSize) (hnum : entryNum ≤ leafSpanSize)
    (h : (reReadSyn b rounds leaf hashIdx entryNum).run (exec i) m = some (synLeaf, m'))
    : m' = m ∧ ((m.ptr a = GlobalAddress.null ∧ synLeaf = none)
        ∨ (m.ptr a ≠ GlobalAddress.null ∧ ∃ n, synLeaf = some n
          ∧ Fetched hashIdx entryNum (m.node (m.ptr a)) n)) := by
  have hptr : leaf.metadata.synonymPtr = m.ptr a := congrArg LeafMetadata.synonymPtr hleaf
  unfold reReadSyn at h
  rw [hptr] at h
  split at h
  . next hnull =>
    cases h
    exact ⟨rfl, .inl ⟨hnull, rfl⟩⟩
  . next hnull =>
    obtain ⟨n, m₁, hread, hret⟩ := (Prog.run_bind_eq_some (exec i)).mp h
    obtain ⟨rfl, hn⟩ := reRead_run hidx hnum hread
    cases hret
    exact ⟨rfl, .inr ⟨hnull, n, rfl, hn⟩⟩

theorem insertLocked_run {res : Except Assertion Unit} (hshape : m.Shape b) (ha : b.IsLeaf a)
    (hsound : Sound hash (m.group a)) (hk : k ≠ kkeyNull)
    (h : (insertLocked b hash rounds k v a).run (exec i) m = some (res, m'))
    : SplitFails res ∨ (res = .ok () ∧ ∃ g', Inserts b hash k v (m.group a) g' ∧ GroupStep b m a g' m') := by
  unfold insertLocked at h
  rw [Prog.run_bind_eq (exec i) (lockNode_run hsound.unlocked)] at h
  have hnum := @getReadEntryNum_bounds b (hash k).val (m.lock a)
  obtain ⟨leaf, m₁, hread, h⟩ := (Prog.run_bind_eq_some (exec i)).mp h
  obtain ⟨rfl, hleaf⟩ := reRead_run (hash k).isLt (hnum false).2 hread
  obtain ⟨synLeaf, m₂, hreadSyn, h⟩ := (Prog.run_bind_eq_some (exec i)).mp h
  obtain ⟨rfl, hsynLeaf⟩ := reReadSyn_run hleaf.metadata (hash k).isLt (hnum true).2 hreadSyn
  have hseen := existingKey_iff_seen hleaf
  split at h
  . next hex =>
    cases h
    exact .inr ⟨rfl, _, .existing (hseen.mp hex), groupStep_lock hshape ha⟩
  . next hex =>
    have hnew := fun hs => hex (hseen.mpr hs)
    rcases hopscotchInsertAndUnlock_run (b := b) (i := i) (m := m.setLock a (~~~0)) (a := a) hsound.leaf
      hleaf.agree v (m.lock a) true with ⟨hfail, hrun⟩ | ⟨e, l, r', lock', hh, hins, hlock, hrun⟩
    . rw [Prog.run_bind_eq (exec i) hrun] at h
      exact insertIntoSyn_run hshape ha hsound hk hnew hleaf hsynLeaf hfail h
    . rw [Prog.run_bind_eq (exec i) hrun] at h
      cases h
      exact .inr ⟨rfl, _, .leaf hnew hins hh hlock, groupStep_leaf hshape ha rfl⟩

end Run

end Hop

end Rolex

import Rolex.Hopscotch.Reach
import Rolex.Hopscotch.Vacancy

/-!
This module contains the vacancy bitmaps of the `VACANCY_AWARE_LOCK` builds: which bits are right in all
reachable states, and for which of them the number of slots to read is large enough.
-/

namespace Rolex

/-- Both bitmaps say which slots of their node are in use. -/
structure HopGroup.Marked (g : HopGroup) : Prop where
  leaf : VALock.Tracks g.lock false g.leaf.records
  syn : ∀ n, g.syn = some n → VALock.Tracks g.lock true n.records

def HopGroup.node (g : HopGroup) (isSynonym : Bool) : Option HopNode :=
  if isSynonym then g.syn else some g.leaf

theorem HopGroup.Marked.node {g : HopGroup} (h : g.Marked) {isSynonym : Bool} {n : HopNode}
    (hn : g.node isSynonym = some n)
    : VALock.Tracks g.lock isSynonym n.records := by
  cases isSynonym with
  | false =>
    cases hn
    exact h.leaf
  | true => exact h.syn n hn

namespace Hop

variable {ι : Type} [DecidableEq ι] {i : ι} {b : Build} {hash : Key → Fin leafSpanSize} {rounds : Nat}
  {cache : Cache} {id : ι → Nat} {m m' : Mem ι} {a : GlobalAddress} {g g' : HopGroup} {k : Key} {v : Value}

theorem tracks_hops (hval : b.vacancyAwareLock = true) {r r' : HopRecords} {e : Int} {l : List Nat}
    {lock lock' : BitVec 64} {needUnlock : Bool} (htracks : VALock.Tracks lock (!needUnlock) r)
    (hh : Hops hash r k v e l r')
    (hlock : segmentLock b r' (hash k).val (slot e).val lock needUnlock = .ok lock')
    : VALock.Tracks lock' (!needUnlock) (r'.bumpEntries l) := by
  unfold segmentLock at hlock
  rw [if_pos hval] at hlock
  have htracks' : VALock.Tracks lock' (!needUnlock) r' := by
    apply htracks.updateVacancy (hash k).isLt (slot e).isLt _ hlock
    intro p hp
    rw [hh.chain.outside hh.state.lo]
    intro j hj hje heq
    exact hp ((inSegment_iff hh.state.lo hh.state.hi).mpr ⟨j, hj, hje, heq⟩)
  apply htracks'.congr
  intro p
  rw [HopRecords.get_bumpEntries]
  rfl

theorem tracks_other (hval : b.vacancyAwareLock = true) {r r' : HopRecords} {lIdx rIdx : Nat}
    {lock lock' : BitVec 64} {needUnlock : Bool} (htracks : VALock.Tracks lock needUnlock r)
    (hlock : segmentLock b r' lIdx rIdx lock needUnlock = .ok lock')
    : VALock.Tracks lock' needUnlock r := by
  unfold segmentLock at hlock
  rw [if_pos hval] at hlock
  have htracks' : VALock.Tracks lock (!!needUnlock) r := by rwa [Bool.not_not]
  have hother := htracks'.updateVacancy_other hlock
  rwa [Bool.not_not] at hother

theorem tracks_bumpNodeVersions {n : HopNode} {lock lock' : BitVec 64} {isSynonym : Bool}
    (hlock : VALock.updateVacancy lock 0 (leafSpanSize - 1) (emptyIdxes n.records 0 (leafSpanSize - 1)) isSynonym
      = .ok lock')
    : VALock.Tracks lock' isSynonym n.bumpNodeVersions.records := by
  have htracks : VALock.Tracks lock' isSynonym n.records := by
    apply VALock.tracks_updateVacancy (by decide) (by decide) _ hlock
    intro p hp
    apply absurd _ hp
    unfold InSegment
    rw [if_pos (Nat.zero_le _)]
    exact ⟨Nat.zero_le _, by omega⟩
  apply htracks.congr
  intro p
  rw [HopNode.get_bumpNodeVersions]

theorem Inserts.marked (hval : b.vacancyAwareLock = true) (h : Inserts b hash k v g g') (hg : g.Marked)
    : g'.Marked := by
  cases h with
  | existing _ => exact hg
  | leaf _ _ hh hlock =>
    refine ⟨tracks_hops hval hg.leaf hh hlock, ?_⟩
    intro n hn
    exact tracks_other hval (hg.syn n hn) hlock
  | split _ _ _ _ _ hlock =>
    obtain ⟨lock₁, hleaf, hsyn⟩ := updateVacancy_of_splitLock hval hlock
    have htracks := tracks_bumpNodeVersions hleaf
    rw [← Bool.not_true] at htracks
    refine ⟨htracks.updateVacancy_other hsyn, ?_⟩
    intro n hn
    cases hn
    exact tracks_bumpNodeVersions hsyn
  | syn _ _ hsyn _ hh hlock =>
    refine ⟨tracks_other hval hg.leaf hlock, ?_⟩
    intro n hn
    cases hn
    exact tracks_hops hval (hg.syn _ hsyn) hh hlock
  | full _ _ _ _ => exact hg

theorem Updates.marked (h : Updates k v g g') (hg : g.Marked) : g'.Marked := by
  cases h with
  | leaf _ => exact ⟨hg.leaf.congr (updateEntry_key _ _ _), hg.syn⟩
  | syn hsyn _ =>
    refine ⟨hg.leaf, ?_⟩
    intro n hn
    cases hn
    exact (hg.syn _ hsyn).congr (updateEntry_key _ _ _)

theorem Reachable.marked (hval : b.vacancyAwareLock = true) (h : Reachable b hash cache id m)
    (ha : b.IsLeaf a)
    : (m.group a).Marked := by
  apply h.group _ _ _ ha
  . exact ⟨VALock.tracks_zero false, fun n hn => by cases hn⟩
  . intro k v g g' _ _ hg hins
    exact hins.marked hval hg
  . intro k v g g' hg hupd
    exact hupd.marked hg

/-- The bits of the buckets that own a slot are right in all reachable states, and no update of a bitmap fails. -/
theorem reachable_bitmaps_right (hval : b.vacancyAwareLock = true) (h : Reachable b hash cache id m)
    : (∀ a, b.IsLeaf a → VALock.Unlocked (m.lock a)
          ∧ (∀ p : Fin leafSpanSize, (m.lock a).getLsbD (VALock.bucketBit false (VALock.findBucket p)) = true
              ↔ ((m.node a).records.get p).key ≠ kkeyNull)
          ∧ (m.ptr a ≠ GlobalAddress.null → ∀ p : Fin leafSpanSize,
              (m.lock a).getLsbD (VALock.bucketBit true (VALock.findBucket p)) = true
                ↔ ((m.node (m.ptr a)).records.get p).key ≠ kkeyNull))
        ∧ ∀ (i : ι) (rounds : Nat) (k : Key) (v : Value) (res : Except Assertion Unit) (m' : Mem ι),
            k ≠ kkeyNull → (insert b hash rounds cache k v).run (exec i) m = some (res, m') →
            res ≠ .error .bucket := by
  constructor
  . intro a ha
    have hmarked := h.marked hval ha
    refine ⟨(h.inv.sound a ha).unlocked, ?_, ?_⟩
    . intro p
      rw [show (m.lock a).getLsbD _ = _ from hmarked.leaf p, decide_eq_true_iff]
      rfl
    . intro hptr p
      rw [show (m.lock a).getLsbD _ = _ from hmarked.syn _ (Mem.group_syn_of_ptr_ne hptr) p,
        decide_eq_true_iff]
  . intro i rounds k v res m' hk hrun
    rcases insert_cases h.inv.shape h.inv.sound hk hrun with ⟨x, rfl, hx⟩ | ⟨rfl, -⟩
    . rintro heq
      cases heq
      simp at hx
    . exact fun heq => by cases heq

set_option maxRecDepth 10000 in
theorem reachable_bitmaps_right_split
    : ∃ (C : RolexCache) (m : Mem Unit), RolexCache.new sampleKeys = some C
        ∧ insertAll ⟨true, false⟩ getHashedLeafEntryIndex C.toCache ()
            [(int2key 1000001, 7), (int2key 1000025, 7)] (Mem.init ⟨true, false⟩ (fun _ => 0)) = some m
        ∧ m.ptr sampleLeaf ≠ GlobalAddress.null
        ∧ ∀ p : Fin leafSpanSize, (m.lock sampleLeaf).getLsbD (VALock.bucketBit true (VALock.findBucket p)) = true
            ↔ ((m.node (m.ptr sampleLeaf)).records.get p).key ≠ kkeyNull := by
  have hrun : ((RolexCache.new sampleKeys).bind (fun C => (insertAll ⟨true, false⟩ getHashedLeafEntryIndex
      C.toCache () [(int2key 1000001, 7), (int2key 1000025, 7)] (Mem.init ⟨true, false⟩ (fun _ => 0))).map
        (fun m : Mem Unit => decide (m.ptr sampleLeaf ≠ GlobalAddress.null)))) = some true := by
    decide +kernel
  obtain ⟨C, m, hC, hm, hreach, hptr⟩ := exists_run (by decide) hrun
  replace hptr := of_decide_eq_true hptr
  exact ⟨C, m, hC, hm, hptr, ((reachable_bitmaps_right rfl hreach).1 _ (sampleLeaf_isLeaf true)).2.2 hptr⟩

/--
Whenever the slots from `start` to `j` are in use, the bit behind that of slot `j` is set. It belongs to a
bucket that owns no slot.
-/
def BitsBehind (lock : BitVec 64) (isSynonym : Bool) (r : HopRecords) (start : Nat) : Prop :=
  ∀ j : Nat, 1 ≤ j → start ≤ j → j < leafSpanSize →
    (∀ t : Nat, start ≤ t → t ≤ j → (r.getEntry t).key ≠ kkeyNull) →
    lock.getLsbD (VALock.bucketBit isSynonym (2 * j)) = true

omit [DecidableEq ι] in
theorem le_getReadEntryNum (hval : b.vacancyAwareLock = true) (lIdx : Nat) (lock : BitVec 64)
    (isSynonym : Bool)
    : VALock.getReadEntryNumFromBitmap lock lIdx isSynonym ≤ getReadEntryNum b lIdx lock isSynonym := by
  have h8 := neighborSize_eq
  unfold getReadEntryNum
  rw [if_pos hval]
  dsimp only
  split
  . rw [h8]
    omega
  . exact Nat.le_refl _

theorem clear_iff {lock : BitVec 64} {isSynonym : Bool} {r : HopRecords}
    (h : VALock.Tracks lock isSynonym r) {j : Nat} (hj : j < leafSpanSize)
    : VALock.Clear lock isSynonym j ↔ (r.getEntry j).key = kkeyNull
        ∨ (1 ≤ j ∧ lock.getLsbD (VALock.bucketBit isSynonym (2 * j)) = false) := by
  unfold VALock.Clear
  apply or_congr_left
  have hbit := h ⟨j, hj⟩
  have hget : r.getEntry j = r.get ⟨j, hj⟩ := HopRecords.getEntry_val r ⟨j, hj⟩
  rw [hget, hbit, decide_eq_false_iff_not, not_not]

theorem window_iff {lock : BitVec 64} {isSynonym : Bool} {r : HopRecords}
    (h : VALock.Tracks lock isSynonym r) {start : Nat} (hstart : start < leafSpanSize)
    : ((∃ p, (r.get p).key = kkeyNull) → ∃ t : Nat,
          t < VALock.getReadEntryNumFromBitmap lock start isSynonym ∧ (r.getEntry (start + t)).key = kkeyNull)
        ↔ (∀ p, (r.get p).key ≠ kkeyNull) ∨ BitsBehind lock isSynonym r start := by
  have h16 := leafSpanSize_eq
  have hscan := @VALock.getReadEntryNumFromBitmap_eq lock start isSynonym hstart
  constructor
  . intro hwindow
    by_cases hfull : ∀ p, (r.get p).key ≠ kkeyNull
    . exact .inl hfull
    . right
      intro j hpos hle hj hused
      simp only [not_forall, not_not] at hfull
      obtain ⟨t, ht, hnull⟩ := hwindow hfull
      by_contra hbit
      have hclear : VALock.Clear lock isSynonym j := .inr ⟨hpos, by simpa using hbit⟩
      -- the scan stops at slot `j` or before
      rcases hscan with ⟨j', _, _, _, hbefore, heq⟩ | ⟨hnone, -⟩
      . have hj' : j' ≤ j := Nat.le_of_not_lt fun hlt => hbefore j hle hlt hclear
        exact hused (start + t) (by omega) (by omega) hnull
      . exact hnone j hle hj hclear
  . intro hcond hempty
    rcases hscan with ⟨j, hle, hj, hclear, hbefore, heq⟩ | ⟨-, heq⟩
    . by_cases hnull : (r.getEntry j).key = kkeyNull
      . refine ⟨j - start, by omega, ?_⟩
        rw [show (start : Int) + (j - start : Nat) = j by omega]
        exact hnull
      . obtain ⟨hpos, hbit⟩ := ((clear_iff h hj).mp hclear).resolve_left hnull
        obtain hfull | hbehind := hcond
        . obtain ⟨p, hp⟩ := hempty
          exact absurd hp (hfull p)
        . rw [hbehind j hpos hle hj] at hbit
          . cases hbit
          . intro t hts htj htnull
            rcases Nat.lt_or_eq_of_le htj with hlt | rfl
            . exact hbefore t hts hlt ((clear_iff h (by omega)).mpr (.inl htnull))
            . exact hnull htnull
    . obtain ⟨p, hp⟩ := hempty
      obtain ⟨j, hlo, hhi, rfl⟩ := exists_logical start p
      refine ⟨(j - start).toNat, by omega, ?_⟩
      rw [show (start : Int) + (j - start).toNat = j by omega]
      exact hp

/--
The window that is read for a start slot holds an empty slot if there is one, just when no run of used
slots from there is followed by a clear bit that owns no slot.
-/
theorem read_entry_num_suffices_iff (hval : b.vacancyAwareLock = true) (h : Reachable b hash cache id m)
    (ha : b.IsLeaf a) {isSynonym : Bool} {n : HopNode} (hn : (m.group a).node isSynonym = some n) {start : Nat}
    (hstart : start < leafSpanSize)
    : ((1 ≤ VALock.getReadEntryNumFromBitmap (m.lock a) start isSynonym
          ∧ VALock.getReadEntryNumFromBitmap (m.lock a) start isSynonym ≤ leafSpanSize)
        ∧ ((∃ p, (n.records.get p).key = kkeyNull) → ∃ t : Nat,
            t < VALock.getReadEntryNumFromBitmap (m.lock a) start isSynonym
            ∧ (n.records.getEntry (start + t)).key = kkeyNull)
        ∧ (findEmpty n.records start (getReadEntryNum b start (m.lock a) isSynonym) = none →
            ∀ p, (n.records.get p).key ≠ kkeyNull))
      ↔ (∀ p, (n.records.get p).key ≠ kkeyNull) ∨ BitsBehind (m.lock a) isSynonym n.records start := by
  have htracks : VALock.Tracks (m.lock a) isSynonym n.records := (h.marked hval ha).node hn
  rw [← window_iff htracks hstart]
  constructor
  . exact fun hall => hall.2.1
  . intro hempty
    refine ⟨VALock.getReadEntryNumFromBitmap_bounds _ _ _, hempty, ?_⟩
    intro hnone p hp
    obtain ⟨t, ht, hnull⟩ := hempty ⟨p, hp⟩
    have hle := le_getReadEntryNum hval start (m.lock a) isSynonym
    exact findEmpty_eq_none hnone (by omega) (by omega) hnull

set_option maxRecDepth 10000 in
-- the ninth insert splits the leaf; behind the twelfth one the slots 3 to 5 are in use
theorem read_entry_num_suffices_iff_split
    : ∃ (C : RolexCache) (m : Mem Unit), RolexCache.new sampleKeys = some C
        ∧ insertAll ⟨true, false⟩ getHashedLeafEntryIndex C.toCache () (samplePairs 1000001 12)
            (Mem.init ⟨true, false⟩ (fun _ => 0)) = some m
        ∧ m.ptr sampleLeaf ≠ GlobalAddress.null
        ∧ (∀ j ∈ ([3, 4, 5] : List Int), ((m.node sampleLeaf).records.getEntry j).key ≠ kkeyNull)
        ∧ BitsBehind (m.lock sampleLeaf) false (m.node sampleLeaf).records 3 := by
  have hrun : ((RolexCache.new sampleKeys).bind (fun C => (insertAll ⟨true, false⟩ getHashedLeafEntryIndex
      C.toCache () (samplePairs 1000001 12) (Mem.init ⟨true, false⟩ (fun _ => 0))).map (fun m : Mem Unit =>
        decide (m.ptr sampleLeaf ≠ GlobalAddress.null
          ∧ (∀ j ∈ ([3, 4, 5] : List Int), ((m.node sampleLeaf).records.getEntry j).key ≠ kkeyNull)
          ∧ VALock.getReadEntryNumFromBitmap (m.lock sampleLeaf) 3 false = 4
          ∧ ((m.node sampleLeaf).records.get 6).key = kkeyNull
          ∧ findEmpty (m.node sampleLeaf).records (3 : Nat) (getReadEntryNum ⟨true, false⟩ 3 (m.lock sampleLeaf) false)
            = some 6)))) = some true := by
    decide +kernel
  obtain ⟨C, m, hC, hm, hreach, hwindow⟩ := exists_run (by decide) hrun
  obtain ⟨hptr, hused, hnum, hnull, hfind⟩ := of_decide_eq_true hwindow
  refine ⟨C, m, hC, hm, hptr, hused, ?_⟩
  have hnode : (m.group sampleLeaf).node false = some (m.node sampleLeaf) := rfl
  have hiff := read_entry_num_suffices_iff rfl hreach (sampleLeaf_isLeaf true) hnode (show 3 < leafSpanSize by decide)
  rw [hnum, hfind] at hiff
  apply (hiff.mp ⟨by decide, fun _ => ⟨3, by decide, hnull⟩, fun h => by cases h⟩).resolve_left
  exact fun hfull => hfull 6 hnull

set_option maxRecDepth 10000 in
/-- After one insert, at the home slot 1, only slot 1 is read for it. -/
theorem read_entry_num_too_small
    : ∃ (C : RolexCache) (m : Mem Unit), RolexCache.new sampleKeys = some C
        ∧ Reachable ⟨true, false⟩ getHashedLeafEntryIndex C.toCache (fun _ => 0) m
        ∧ VALock.Unlocked (m.lock sampleLeaf)
        ∧ VALock.getReadEntryNumFromBitmap (m.lock sampleLeaf) 1 false = 1
        ∧ ((m.node sampleLeaf).records.getEntry 1).key ≠ kkeyNull
        ∧ ((m.node sampleLeaf).records.getEntry 2).key = kkeyNull
        ∧ findEmpty (m.node sampleLeaf).records 1 (getReadEntryNum ⟨true, false⟩ 1 (m.lock sampleLeaf) false)
          = none := by
  have hrun : ((RolexCache.new sampleKeys).bind (fun C => (insertAll ⟨true, false⟩ getHashedLeafEntryIndex
      C.toCache () (samplePairs 1000001 1) (Mem.init ⟨true, false⟩ (fun _ => 0))).map (fun m : Mem Unit =>
        decide (VALock.getReadEntryNumFromBitmap (m.lock sampleLeaf) 1 false = 1
          ∧ ((m.node sampleLeaf).records.getEntry 1).key ≠ kkeyNull
          ∧ ((m.node sampleLeaf).records.getEntry 2).key = kkeyNull
          ∧ findEmpty (m.node sampleLeaf).records 1 (getReadEntryNum ⟨true, false⟩ 1 (m.lock sampleLeaf) false)
            = none)))) = some true := by
    decide +kernel
  obtain ⟨C, m, hC, -, hreach, hwindow⟩ := exists_run (by decide) hrun
  exact ⟨C, m, hC, hreach, (hreach.inv.sound _ (sampleLeaf_isLeaf true)).unlocked, of_decide_eq_true hwindow⟩

end Hop

end Rolex

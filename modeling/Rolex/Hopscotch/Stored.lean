import Rolex.Hopscotch.Reach

/-!
This module contains what inserts and updates do to the pairs that a leaf and its synonym leaf store: when
a new key is stored, and when a key is stored once only.
-/

namespace Rolex

section Takes

variable {hash : Key → Fin leafSpanSize} {r r' : HopRecords} {k : Key} {v : Value} {e : Int} {l : List Nat}

theorem hopscotchInsert_eq_none_iff (hinv : r.Inv hash) {n : Nat}
    : hopscotchInsert hash r k v n = .ok none ↔ ¬ r.Takes hash k n := by
  unfold hopscotchInsert
  cases he : findEmpty r (hash k).val n with
  | none =>
    refine iff_of_true rfl ?_
    rintro ⟨e, hlo, hn, hnull, hfull, -⟩
    exact absurd (he.symm.trans (findEmpty_iff.mpr ⟨hlo, hn, hnull, hfull⟩)) (by simp)
  | some e =>
    have hs := hinv.hopState he
    obtain ⟨hlo, hn, hhi, hnull, hfull⟩ := findEmpty_eq_some he
    have h16 := leafSpanSize_eq
    have hfuel : e - (hash k).val < leafSpanSize := by omega
    obtain ⟨hsome, hnone⟩ := nextHop_spec (v := v) true hs hfuel []
    cases hreach : hopReaches hash r (hash k).val e leafSpanSize with
    | false =>
      dsimp only
      rw [hnone hreach]
      refine iff_of_true rfl ?_
      rintro ⟨e', hlo', hn', hnull', hfull', hreach'⟩
      obtain rfl : e = e' := Option.some.inj (he.symm.trans (findEmpty_iff.mpr ⟨hlo', hn', hnull', hfull'⟩))
      rw [hreach] at hreach'
      cases hreach'
    | true =>
      obtain ⟨l, r', heq, -⟩ := hsome hreach
      dsimp only
      rw [heq]
      refine iff_of_false (fun h => by cases h) (not_not.mpr ?_)
      exact ⟨e, hlo, hn, hnull, hfull, hreach⟩

theorem Hops.not_distinct (hh : Hops hash r k v e l r') (hstored : r.Stores k) : ¬ r'.Distinct := by
  obtain ⟨hk, p, hp⟩ := hstored
  have hne : p ≠ slot e := by
    rintro rfl
    exact hk (hp.symm.trans hh.null)
  obtain ⟨q, q', hqq', hq, hq'⟩ := hh.chain.twice hh.state.lo hh.state.hi hne hp
  intro hdist
  exact hqq' (hdist q q' (by rw [hq]; exact hk) (hq.trans hq'.symm))

theorem distinct_congr {s : HopRecords} (hkey : ∀ p, (s.get p).key = (r.get p).key)
    : s.Distinct ↔ r.Distinct :=
  ⟨fun h => h.congr (fun p => (hkey p).symm), fun h => h.congr hkey⟩

theorem bumpEntries_key (r : HopRecords) (l : List Nat) (p : Fin leafSpanSize)
    : ((r.bumpEntries l).get p).key = (r.get p).key := by
  rw [HopRecords.get_bumpEntries]
  rfl

theorem bumpNodeVersions_key (n : HopNode) (p : Fin leafSpanSize)
    : (n.bumpNodeVersions.records.get p).key = (n.records.get p).key := by
  rw [HopNode.get_bumpNodeVersions]

theorem stores_congr {s : HopRecords} (hkey : ∀ p, (s.get p).key = (r.get p).key)
    : s.Stores k ↔ r.Stores k := by
  unfold HopRecords.Stores
  simp only [hkey]

theorem Hops.distinct_iff (hh : Hops hash r k v e l r') (hk : k ≠ kkeyNull) (hdist : r.Distinct)
    : (r'.bumpEntries l).Distinct ↔ ¬ r.Stores k := by
  rw [distinct_congr (bumpEntries_key r' l)]
  constructor
  . intro hdist' hstored
    exact hh.not_distinct hstored hdist'
  . intro hnew
    exact hh.distinct hdist hnew hk

theorem Hops.bump_stores_iff (hh : Hops hash r k v e l r') (hk : k ≠ kkeyNull) {k' : Key}
    : (r'.bumpEntries l).Stores k' ↔ r.Stores k' ∨ k' = k := by
  rw [stores_congr (bumpEntries_key r' l), hh.stores_iff hk]

theorem Moved.stores_leaf {sk : Key} {a c : HopRecords} (hm : Moved hash sk r [] a c) (h : r.Stores k)
    (hlt : k < sk)
    : a.Stores k := by
  obtain ⟨hne, p, hp⟩ := h
  have hmoves : ¬ r.Moves sk p := by
    rintro ⟨-, hle⟩
    rw [hp] at hle
    exact absurd hle (not_le.mpr hlt)
  refine ⟨hne, p, ?_⟩
  rw [← hp]
  exact congrArg Prod.fst (hm.kept (.inr hmoves)).1

theorem Moved.stores_syn {sk : Key} {a c : HopRecords} (hm : Moved hash sk r [] a c) (h : r.Stores k)
    (hle : sk ≤ k)
    : c.Stores k := by
  obtain ⟨hne, p, hp⟩ := h
  refine ⟨hne, p, ?_⟩
  rw [← hp] at hne hle ⊢
  exact congrArg Prod.fst (hm.moved (by simp) ⟨hne, hle⟩).2

theorem not_distinct_of_split {leaf leaf' syn : HopNode} {synonymAddr : GlobalAddress}
    (hinv : leaf.records.Inv hash) (hstored : leaf.records.Stores k)
    (hok : hopscotchSplit hash leaf k v synonymAddr = .ok (leaf', syn))
    : ¬ (leaf'.records.Distinct ∧ syn.records.Distinct) := by
  obtain ⟨sk, a, c, e, l, hm, ⟨hlt, a', hh, heq⟩ | ⟨hle, c', hh, heq⟩⟩ := hops_of_split_ok hinv hok
  . cases heq
    exact fun hdist => hh.not_distinct (hm.stores_leaf hstored hlt) hdist.1
  . cases heq
    exact fun hdist => hh.not_distinct (hm.stores_syn hstored hle) hdist.2

end Takes

namespace HopGroup

def Has (g : HopGroup) (k : Key) (v : Value) : Prop :=
  g.leaf.records.Has k v ∨ ∃ n, g.syn = some n ∧ n.records.Has k v

def Stores (g : HopGroup) (k : Key) : Prop :=
  g.leaf.records.Stores k ∨ ∃ n, g.syn = some n ∧ n.records.Stores k

structure Distinct (g : HopGroup) : Prop where
  leaf : g.leaf.records.Distinct
  syn : ∀ n, g.syn = some n → n.records.Distinct
  disjoint : ∀ n k, g.syn = some n → ¬ (g.leaf.records.Stores k ∧ n.records.Stores k)

/-- The leaf takes the key, or there is no synonym leaf yet, or the synonym leaf takes it. -/
def Takes (b : Build) (hash : Key → Fin leafSpanSize) (k : Key) (g : HopGroup) : Prop :=
  g.leaf.records.Takes hash k (Hop.getReadEntryNum b (hash k).val g.lock false)
    ∨ ∀ n, g.syn = some n → n.records.Takes hash k (Hop.getReadEntryNum b (hash k).val g.lock true)

theorem stores_iff {g : HopGroup} {k : Key} : g.Stores k ↔ ∃ v, g.Has k v := by
  unfold Stores Has
  simp only [HopRecords.stores_iff]
  constructor
  . rintro (⟨v, hv⟩ | ⟨n, hn, v, hv⟩)
    . exact ⟨v, .inl hv⟩
    . exact ⟨v, .inr ⟨n, hn, hv⟩⟩
  . rintro ⟨v, hv | ⟨n, hn, hv⟩⟩
    . exact .inl ⟨v, hv⟩
    . exact .inr ⟨n, hn, v, hv⟩

variable {g : HopGroup} {k : Key} {lock : BitVec 64} {leaf n n' : HopNode}

theorem stores_of_none (hsyn : g.syn = none) : g.Stores k ↔ g.leaf.records.Stores k := by
  unfold Stores
  simp [hsyn]

theorem stores_of_some (hsyn : g.syn = some n)
    : g.Stores k ↔ g.leaf.records.Stores k ∨ n.records.Stores k := by
  unfold Stores
  simp [hsyn]

instance (g : HopGroup) (k : Key) : Decidable (g.Stores k) :=
  match h : g.syn with
  | none => decidable_of_iff _ (stores_of_none h).symm
  | some _ => decidable_of_iff _ (stores_of_some h).symm

theorem distinct_some
    : (HopGroup.mk leaf (some n) lock).Distinct
        ↔ leaf.records.Distinct ∧ n.records.Distinct ∧ ∀ k, ¬ (leaf.records.Stores k ∧ n.records.Stores k) := by
  constructor
  . intro h
    exact ⟨h.leaf, h.syn n rfl, fun k => h.disjoint n k rfl⟩
  . rintro ⟨hleaf, hsyn, hdisjoint⟩
    refine ⟨hleaf, ?_, ?_⟩
    . intro n' hn'
      cases hn'
      exact hsyn
    . intro n' k hn'
      cases hn'
      exact hdisjoint k

theorem Distinct.leaf_iff (h : g.Distinct)
    (hstores : ∀ k', leaf.records.Stores k' ↔ g.leaf.records.Stores k' ∨ k' = k)
    (hleaf : leaf.records.Distinct ↔ ¬ g.leaf.records.Stores k)
    : { g with leaf, lock }.Distinct ↔ ¬ g.Stores k := by
  constructor
  . rintro hdist (hold | ⟨n, hn, hsyn⟩)
    . exact hleaf.mp hdist.leaf hold
    . exact hdist.disjoint n k hn ⟨(hstores k).mpr (.inr rfl), hsyn⟩
  . intro hnew
    refine ⟨hleaf.mpr fun hold => hnew (.inl hold), h.syn, ?_⟩
    rintro n k' hn ⟨hnode, hsyn⟩
    rcases (hstores k').mp hnode with hold | rfl
    . exact h.disjoint n k' hn ⟨hold, hsyn⟩
    . exact hnew (.inr ⟨n, hn, hsyn⟩)

theorem Distinct.syn_iff (h : g.Distinct) (hsyn : g.syn = some n)
    (hstores : ∀ k', n'.records.Stores k' ↔ n.records.Stores k' ∨ k' = k)
    (hnode : n'.records.Distinct ↔ ¬ n.records.Stores k)
    : { g with syn := some n', lock }.Distinct ↔ ¬ g.Stores k := by
  rw [distinct_some, stores_of_some hsyn, hnode, not_or]
  constructor
  . rintro ⟨-, hnew, hdisjoint⟩
    exact ⟨fun hleaf => hdisjoint k ⟨hleaf, (hstores k).mpr (.inr rfl)⟩, hnew⟩
  . rintro ⟨hleaf, hnew⟩
    refine ⟨h.leaf, hnew, ?_⟩
    rintro k' ⟨hold, hstored⟩
    rcases (hstores k').mp hstored with hold' | rfl
    . exact h.disjoint n k' hsyn ⟨hold, hold'⟩
    . exact hleaf hold

end HopGroup

namespace Hop

variable {ι : Type} [DecidableEq ι] {i : ι} {b : Build} {hash : Key → Fin leafSpanSize} {rounds : Nat}
  {cache : Cache} {id : ι → Nat} {m m' : Mem ι} {a : GlobalAddress} {g g' : HopGroup} {k : Key} {v : Value}

theorem bumpNodeVersions_has_iff {n : HopNode} {k : Key} {v : Value}
    : n.bumpNodeVersions.records.Has k v ↔ n.records.Has k v := by
  unfold HopRecords.Has HopRecords.kv
  simp only [HopNode.get_bumpNodeVersions]

theorem not_takes_of_full {n : HopNode} (hsound : Sound hash g)
    (hfail : hopscotchInsert hash g.leaf.records k v (getReadEntryNum b (hash k).val g.lock false) = .ok none)
    (hsyn : g.syn = some n)
    (hfull : hopscotchInsert hash n.records k v (getReadEntryNum b (hash k).val g.lock true) = .ok none)
    : ¬ g.Takes b hash k := by
  rintro (htakes | htakes)
  . exact (hopscotchInsert_eq_none_iff hsound.leaf).mp hfail htakes
  . exact (hopscotchInsert_eq_none_iff (hsound.syn _ hsyn)).mp hfull (htakes _ hsyn)

theorem Inserts.has (h : Inserts b hash k v g g') (hsound : Sound hash g) (hk : k ≠ kkeyNull)
    : (g' = g ∧ (Seen b hash k g ∨ ¬ g.Takes b hash k))
        ∨ (¬ Seen b hash k g ∧ g.Takes b hash k
          ∧ ∀ k' v', g'.Has k' v' ↔ g.Has k' v' ∨ (k' = k ∧ v' = v)) := by
  have htakes : ∀ {r r' : HopRecords} {e : Int} {l : List Nat} {n : Nat}, r.Inv hash →
      hopscotchInsert hash r k v n = .ok (some ⟨r', e, l⟩) → r.Takes hash k n := by
    intro r r' e l n hinv hins
    apply not_not.mp
    rw [← hopscotchInsert_eq_none_iff (v := v) hinv, hins]
    exact fun h => by cases h
  unfold HopGroup.Has
  cases h with
  | existing hseen => exact .inl ⟨rfl, .inl hseen⟩
  | leaf hnew hins hh _ =>
    refine .inr ⟨hnew, .inl (htakes hsound.leaf hins), fun k' v' => ?_⟩
    dsimp only
    rw [bumpEntries_has_iff, hh.has_iff hk, or_right_comm]
  | split hnew _ hsyn _ hsplit _ =>
    refine .inr ⟨hnew, .inr (fun n hn => by rw [hsyn] at hn; cases hn), fun k' v' => ?_⟩
    simp only [hsyn, Option.some.injEq, exists_eq_left', bumpNodeVersions_has_iff, reduceCtorEq, false_and,
      exists_false, or_false]
    exact (splitInto_of_ok hsound.leaf hk hsplit).1.has_iff hk k' v'
  | syn hnew _ hsyn hins hh _ =>
    refine .inr ⟨hnew, .inr ?_, fun k' v' => ?_⟩
    . intro n hn
      rw [hsyn] at hn
      cases hn
      exact htakes (hsound.syn _ hsyn) hins
    . simp only [hsyn, Option.some.injEq, exists_eq_left', bumpEntries_has_iff, hh.has_iff hk, or_assoc]
  | full _ hfail hsyn hfull => exact .inl ⟨rfl, .inr (not_takes_of_full hsound hfail hsyn hfull)⟩

theorem Seen.stores (h : Seen b hash k g) (hk : k ≠ kkeyNull) : g.Stores k := by
  obtain ⟨t, -, hkey⟩ := h
  exact .inl ⟨hk, slot ((hash k).val + t), hkey⟩

/--
An insert of an absent key that returns has stored the pair, and kept all others, just when one of the
nodes has taken the key.
-/
theorem insert_stores_iff (h : Reachable b hash cache id m) (hk : k ≠ kkeyNull) (hr : Routed b cache k a)
    (habsent : ∀ w, ¬ (m.group a).Has k w)
    (hrun : (insert b hash rounds cache k v).run (exec i) m = some (.ok (), m'))
    : ((m'.group a).Has k v
        ∧ ∀ c, b.IsLeaf c → ∀ k' v', (m.group c).Has k' v' → (m'.group c).Has k' v')
      ↔ (m.group a).Takes b hash k := by
  rcases insert_cases h.inv.shape h.inv.sound hk hrun with ⟨x, hx, -⟩ | ⟨-, a', g', hr', hg', hstep⟩
  . cases hx
  . obtain rfl := hr'.unique hr
    have ha := hstep.group a' hr.isLeaf
    rw [if_pos rfl] at ha
    rcases hg'.has (h.inv.sound _ hr.isLeaf) hk with ⟨heq, hseen | hnot⟩ | ⟨-, htakes, hhas⟩
    . obtain ⟨w, hw⟩ := HopGroup.stores_iff.mp (hseen.stores hk)
      exact absurd hw (habsent w)
    . rw [ha, heq]
      exact iff_of_false (fun hall => habsent v hall.1) hnot
    . refine iff_of_true ⟨?_, ?_⟩ htakes
      . rw [ha]
        exact (hhas k v).mpr (.inr ⟨rfl, rfl⟩)
      . intro c hc k' v' hold
        rw [hstep.group c hc]
        split
        . next hca =>
          rw [hca] at hold
          exact (hhas k' v').mpr (.inl hold)
        . exact hold

theorem exists_run_insert {P : Mem Unit → Mem Unit → Bool} {b : Build} {kvs : List (Key × Value)} {k : Key}
    {v : Value} {leafIdx : Nat} (ha : b.getLeafAddress leafIdx = some a) (hkvs : ∀ kv ∈ kvs, kv.1 ≠ kkeyNull)
    (h : ((RolexCache.new sampleKeys).bind (fun C => (insertAll b getHashedLeafEntryIndex C.toCache () kvs
      (Mem.init b (fun _ => 0))).bind (fun m =>
        ((insert b getHashedLeafEntryIndex 1 C.toCache k v).run (exec ()) m).bind (fun x =>
          (C.toCache.searchFromCacheForInsert k).map (fun y =>
            x.1.isOk && P m x.2 && decide (y.2.2 = leafIdx)))))) = some true)
    : ∃ (C : RolexCache) (m m' : Mem Unit), RolexCache.new sampleKeys = some C
        ∧ Reachable b getHashedLeafEntryIndex C.toCache (fun _ => 0) m ∧ Routed b C.toCache k a
        ∧ (insert b getHashedLeafEntryIndex 1 C.toCache k v).run (exec ()) m = some (.ok (), m')
        ∧ P m m' = true := by
  obtain ⟨C, hC, h⟩ := Option.bind_eq_some_iff.mp h
  obtain ⟨m, hm, h⟩ := Option.bind_eq_some_iff.mp h
  obtain ⟨⟨res, m'⟩, hrun, h⟩ := Option.bind_eq_some_iff.mp h
  obtain ⟨⟨l, r, insertIdx⟩, hcache, h⟩ := Option.map_eq_some_iff.mp h
  simp only [Bool.and_eq_true, decide_eq_true_eq] at h
  obtain ⟨⟨hok, hP⟩, rfl⟩ := h
  cases res with
  | error x => cases hok
  | ok u => exact ⟨C, m, m', hC, Reachable.init.insertAll hkvs hm, ⟨l, r, _, hcache, ha⟩, hrun, hP⟩

set_option maxRecDepth 10000 in
theorem insert_stores_iff_second
    : ∃ (C : RolexCache) (m m' : Mem Unit), RolexCache.new sampleKeys = some C
        ∧ (insert ⟨false, false⟩ getHashedLeafEntryIndex 1 C.toCache (int2key 1000002) 7).run (exec ()) m
          = some (.ok (), m')
        ∧ (m.group sampleLeaf).Stores (int2key 1000001) ∧ (m'.group sampleLeaf).Has (int2key 1000002) 7 := by
  have hrun : ((RolexCache.new sampleKeys).bind (fun C => (insertAll ⟨false, false⟩ getHashedLeafEntryIndex
      C.toCache () (samplePairs 1000001 1) (Mem.init ⟨false, false⟩ (fun _ => 0))).bind (fun m =>
        ((insert ⟨false, false⟩ getHashedLeafEntryIndex 1 C.toCache (int2key 1000002) 7).run (exec ()) m).bind
          (fun x => (C.toCache.searchFromCacheForInsert (int2key 1000002)).map (fun y =>
            x.1.isOk && decide (¬ (m.group sampleLeaf).Stores (int2key 1000002)
              ∧ (m.group sampleLeaf).Stores (int2key 1000001)
              ∧ ((m.node sampleLeaf).records.getEntry 4).key = kkeyNull
              ∧ hopReaches getHashedLeafEntryIndex (m.node sampleLeaf).records 4 4 leafSpanSize = true)
            && decide (y.2.2 = 3)))))) = some true := by
    decide +kernel
  obtain ⟨C, m, m', hC, hreach, hr, hrun, hP⟩ := exists_run_insert (P := fun m _ => decide
    (¬ (m.group sampleLeaf).Stores (int2key 1000002) ∧ (m.group sampleLeaf).Stores (int2key 1000001)
      ∧ ((m.node sampleLeaf).records.getEntry 4).key = kkeyNull
      ∧ hopReaches getHashedLeafEntryIndex (m.node sampleLeaf).records 4 4 leafSpanSize = true))
    (sampleLeaf_eq false) (show ∀ kv ∈ samplePairs 1000001 1, kv.1 ≠ kkeyNull by decide) hrun
  obtain ⟨habsent, hstored, hnull, hreaches⟩ := of_decide_eq_true hP
  have hhome : (getHashedLeafEntryIndex (int2key 1000002)).val = 4 := by decide +kernel
  have habsent' : ∀ w, ¬ (m.group sampleLeaf).Has (int2key 1000002) w :=
    fun w hw => habsent (HopGroup.stores_iff.mpr ⟨w, hw⟩)
  refine ⟨C, m, m', hC, hrun, hstored, ?_⟩
  apply ((insert_stores_iff hreach (by decide) hr habsent' hrun).mpr (.inl ⟨4, ?_⟩)).1
  rw [hhome, getReadEntryNum_of_false rfl]
  exact ⟨by decide, by decide, hnull, fun j _ _ => by omega, hreaches⟩

set_option maxRecDepth 10000 in
/-- The leaf and the synonym leaf are full after 32 inserts, and the next one returns without its key. -/
theorem insert_drops_key
    : ∃ (C : RolexCache) (m m' : Mem Unit), RolexCache.new sampleKeys = some C
        ∧ Reachable ⟨false, false⟩ getHashedLeafEntryIndex C.toCache (fun _ => 0) m
        ∧ Routed ⟨false, false⟩ C.toCache (int2key 1000033) sampleLeaf
        ∧ (insert ⟨false, false⟩ getHashedLeafEntryIndex 1 C.toCache (int2key 1000033) 7).run (exec ()) m
          = some (.ok (), m')
        ∧ ¬ (m.group sampleLeaf).Stores (int2key 1000033) ∧ ¬ (m'.group sampleLeaf).Stores (int2key 1000033) := by
  have hrun : ((RolexCache.new sampleKeys).bind (fun C => (insertAll ⟨false, false⟩ getHashedLeafEntryIndex
      C.toCache () (samplePairs 1000001 32) (Mem.init ⟨false, false⟩ (fun _ => 0))).bind (fun m =>
        ((insert ⟨false, false⟩ getHashedLeafEntryIndex 1 C.toCache (int2key 1000033) 7).run (exec ()) m).bind
          (fun x => (C.toCache.searchFromCacheForInsert (int2key 1000033)).map (fun y =>
            x.1.isOk && decide (¬ (m.group sampleLeaf).Stores (int2key 1000033)
              ∧ ¬ (x.2.group sampleLeaf).Stores (int2key 1000033)) && decide (y.2.2 = 3)))))) = some true := by
    decide +kernel
  obtain ⟨C, m, m', hC, hreach, hr, hrun, hdropped⟩ := exists_run_insert (P := fun m m' => decide
    (¬ (m.group sampleLeaf).Stores (int2key 1000033) ∧ ¬ (m'.group sampleLeaf).Stores (int2key 1000033)))
    (sampleLeaf_eq false) (show ∀ kv ∈ samplePairs 1000001 32, kv.1 ≠ kkeyNull by decide) hrun
  exact ⟨C, m, m', hC, hreach, hr, hrun, of_decide_eq_true hdropped⟩

theorem split_distinct_iff {leaf leaf' syn : HopNode} {synonymAddr : GlobalAddress} {lock : BitVec 64}
    (hinv : leaf.records.Inv hash) (hdist : leaf.records.Distinct) (hk : k ≠ kkeyNull)
    (hok : hopscotchSplit hash leaf k v synonymAddr = .ok (leaf', syn))
    : (HopGroup.mk leaf'.bumpNodeVersions (some syn.bumpNodeVersions) lock).Distinct
        ↔ ¬ leaf.records.Stores k := by
  rw [HopGroup.distinct_some, distinct_congr (bumpNodeVersions_key leaf'),
    distinct_congr (bumpNodeVersions_key syn)]
  simp only [stores_congr (bumpNodeVersions_key leaf'), stores_congr (bumpNodeVersions_key syn)]
  constructor
  . rintro ⟨hleaf, hsyn, -⟩ hstored
    exact not_distinct_of_split hinv hstored hok ⟨hleaf, hsyn⟩
  . intro hnew
    have hinto := (splitInto_of_ok hinv hk hok).1
    exact ⟨(hinto.distinct hdist hnew).1, (hinto.distinct hdist hnew).2, hinto.disjoint⟩

/-- What the group has to be like for an insert of `k` to leave no key stored twice. -/
def Checked (b : Build) (hash : Key → Fin leafSpanSize) (k : Key) (g : HopGroup) : Prop :=
  g.Stores k → Seen b hash k g ∨ ¬ g.Takes b hash k

theorem Inserts.distinct_iff (h : Inserts b hash k v g g') (hsound : Sound hash g) (hk : k ≠ kkeyNull)
    (hdist : g.Distinct)
    : g'.Distinct ↔ Checked b hash k g := by
  rcases h.has hsound hk with ⟨rfl, hcond⟩ | ⟨hnew, htakes, -⟩
  . exact iff_of_true hdist (fun _ => hcond)
  . have hchecked : Checked b hash k g ↔ ¬ g.Stores k := by
      unfold Checked
      simp [hnew, htakes]
    rw [hchecked]
    cases h with
    | existing hseen => exact absurd hseen hnew
    | leaf _ _ hh _ => exact hdist.leaf_iff (fun _ => hh.bump_stores_iff hk) (hh.distinct_iff hk hdist.leaf)
    | split _ _ hsyn _ hsplit _ =>
      rw [HopGroup.stores_of_none hsyn]
      exact split_distinct_iff hsound.leaf hdist.leaf hk hsplit
    | syn _ _ hsyn _ hh _ =>
      exact hdist.syn_iff hsyn (fun _ => hh.bump_stores_iff hk) (hh.distinct_iff hk (hdist.syn _ hsyn))
    | full _ hfail hsyn hfull => exact absurd htakes (not_takes_of_full hsound hfail hsyn hfull)

theorem Updates.distinct (h : Updates k v g g') (hdist : g.Distinct) : g'.Distinct := by
  cases h with
  | @leaf p _ =>
    have hkeys := updateEntry_key g.leaf.records p v
    refine ⟨(distinct_congr hkeys).mpr hdist.leaf, hdist.syn, ?_⟩
    rintro n k' hn ⟨hleaf, hsyn⟩
    exact hdist.disjoint n k' hn ⟨(stores_congr hkeys).mp hleaf, hsyn⟩
  | @syn n p hsyn _ =>
    have hkeys := updateEntry_key n.records p v
    apply HopGroup.distinct_some.mpr
    refine ⟨hdist.leaf, (distinct_congr hkeys).mpr (hdist.syn _ hsyn), ?_⟩
    rintro k' ⟨hleaf, hstored⟩
    exact hdist.disjoint _ k' hsyn ⟨hleaf, (stores_congr hkeys).mp hstored⟩

/-- The states of the runs in which all inserts are of keys that are `Checked`. -/
inductive CheckedRun (b : Build) (hash : Key → Fin leafSpanSize) (cache : Cache) (id : ι → Nat) : Mem ι → Prop
  | init : CheckedRun b hash cache id (Mem.init b id)
  | insert {i : ι} {rounds : Nat} {m m' : Mem ι} {k : Key} {v : Value} (h : CheckedRun b hash cache id m)
      (hk : k ≠ kkeyNull) (hcheck : ∀ a, Routed b cache k a → Checked b hash k (m.group a))
      (hrun : (insert b hash rounds cache k v).run (exec i) m = some (.ok (), m'))
      : CheckedRun b hash cache id m'
  | update {i : ι} {rounds : Nat} {m m' : Mem ι} {k : Key} {v : Value} (h : CheckedRun b hash cache id m)
      (hrun : (update b hash rounds cache k v).run (exec i) m = some ((), m')) : CheckedRun b hash cache id m'

theorem CheckedRun.reachable (h : CheckedRun b hash cache id m) : Reachable b hash cache id m := by
  induction h with
  | init => exact .init
  | insert _ hk _ hrun ih => exact ih.insert hk hrun
  | update _ hrun ih => exact ih.update hrun

theorem CheckedRun.distinct (h : CheckedRun b hash cache id m) (ha : b.IsLeaf a) : (m.group a).Distinct := by
  induction h generalizing a with
  | init =>
    refine ⟨(@HopNode.wellFormed_zero hash).distinct, ?_, ?_⟩
    . intro n hn
      cases hn
    . intro n k hn
      cases hn
  | insert h hk hcheck hrun ih =>
    have hinv := h.reachable.inv
    rcases insert_cases hinv.shape hinv.sound hk hrun with ⟨x, hx, -⟩ | ⟨-, c, g', hr, hg', hstep⟩
    . cases hx
    . rw [hstep.group a ha]
      split
      . exact (hg'.distinct_iff (hinv.sound c hr.isLeaf) hk (ih hr.isLeaf)).mpr (hcheck c hr)
      . exact ih ha
  | update h hrun ih =>
    have hinv := h.reachable.inv
    rcases update_cases hinv.shape (fun a ha => (hinv.sound a ha).unlocked) hrun with
      rfl | ⟨c, g', hc, hg', hstep⟩
    . exact ih ha
    . rw [hstep.group a ha]
      split
      . exact hg'.distinct (ih hc)
      . exact ih ha

/--
In all runs in which each inserted key is new, or seen by the existing-key test, or taken by no node, no
key is stored twice; any other insert stores its key twice.
-/
theorem keys_stored_once (b : Build) (hash : Key → Fin leafSpanSize) (cache : Cache) (id : ι → Nat)
    : (∀ m, CheckedRun b hash cache id m → ∀ a, b.IsLeaf a → (m.group a).Distinct)
        ∧ ∀ (i : ι) (rounds : Nat) (m m' : Mem ι) (k : Key) (v : Value) (a : GlobalAddress),
            Reachable b hash cache id m → k ≠ kkeyNull → Routed b cache k a → (m.group a).Distinct →
            (insert b hash rounds cache k v).run (exec i) m = some (.ok (), m') →
            ((m'.group a).Distinct ↔ Checked b hash k (m.group a)) := by
  constructor
  . intro m h a ha
    exact h.distinct ha
  . intro i rounds m m' k v a h hk hr hdist hrun
    rcases insert_cases h.inv.shape h.inv.sound hk hrun with ⟨x, hx, -⟩ | ⟨-, a', g', hr', hg', hstep⟩
    . cases hx
    . obtain rfl := hr'.unique hr
      rw [hstep.group a' hr.isLeaf, if_pos rfl]
      exact hg'.distinct_iff (h.inv.sound _ hr.isLeaf) hk hdist

theorem not_stores_init (k : Key) : ¬ (⟨HopNode.zero, none, 0⟩ : HopGroup).Stores k := by
  rintro (⟨hk, p, hp⟩ | ⟨n, hn, -⟩)
  . exact absurd (hp.symm.trans (congrArg HopEntry.key (HopRecords.get_zero p))) hk
  . cases hn

/-- A key at its home is seen by the test without `VACANCY_AWARE_LOCK`, which looks at all slots. -/
theorem seen_of_home {replicated : Bool} {g : HopGroup} (h : (g.leaf.records.get (hash k)).key = k)
    : Seen ⟨false, replicated⟩ hash k g := by
  refine ⟨0, show 0 < leafSpanSize by decide, ?_⟩
  rw [Nat.cast_zero, add_zero, HopRecords.getEntry_val]
  exact h

set_option maxRecDepth 10000 in
theorem exists_insert_again
    : ∃ (C : RolexCache) (m m' : Mem Unit), RolexCache.new sampleKeys = some C
        ∧ (insert ⟨false, false⟩ getHashedLeafEntryIndex 1 C.toCache (int2key 1000001) 7).run (exec ())
            (Mem.init ⟨false, false⟩ (fun _ => 0)) = some (.ok (), m)
        ∧ (insert ⟨false, false⟩ getHashedLeafEntryIndex 1 C.toCache (int2key 1000001) 9).run (exec ()) m
            = some (.ok (), m')
        ∧ Routed ⟨false, false⟩ C.toCache (int2key 1000001) sampleLeaf
        ∧ ((m.node sampleLeaf).records.get (getHashedLeafEntryIndex (int2key 1000001))).key = int2key 1000001 := by
  have hrun : ((RolexCache.new sampleKeys).bind (fun C =>
      ((insert ⟨false, false⟩ getHashedLeafEntryIndex 1 C.toCache (int2key 1000001) 7).run (exec ())
        (Mem.init ⟨false, false⟩ (fun _ => 0))).bind (fun x =>
      ((insert ⟨false, false⟩ getHashedLeafEntryIndex 1 C.toCache (int2key 1000001) 9).run (exec ()) x.2).map (fun y =>
        decide (x.1 = .ok () ∧ y.1 = .ok ()
          ∧ (C.toCache.searchFromCacheForInsert (int2key 1000001)).map (fun z => z.2.2) = some 3
          ∧ ((x.2.node sampleLeaf).records.get (getHashedLeafEntryIndex (int2key 1000001))).key = int2key 1000001)))))
      = some true := by
    decide +kernel
  obtain ⟨C, hC, hrun⟩ := Option.bind_eq_some_iff.mp hrun
  obtain ⟨⟨res, m⟩, hm, hrun⟩ := Option.bind_eq_some_iff.mp hrun
  obtain ⟨⟨res', m'⟩, hm', hP⟩ := Option.map_eq_some_iff.mp hrun
  obtain ⟨rfl, rfl, hroute, hhome⟩ := of_decide_eq_true hP
  obtain ⟨⟨l, r, insertIdx⟩, hcache, rfl⟩ := Option.map_eq_some_iff.mp hroute
  exact ⟨C, m, m', hC, hm, hm', ⟨l, r, 3, hcache, sampleLeaf_eq false⟩, hhome⟩

-- the second insert of the key finds it
theorem keys_stored_once_again
    : ∃ (C : RolexCache) (m m' : Mem Unit), RolexCache.new sampleKeys = some C
        ∧ (insert ⟨false, false⟩ getHashedLeafEntryIndex 1 C.toCache (int2key 1000001) 7).run (exec ())
            (Mem.init ⟨false, false⟩ (fun _ => 0)) = some (.ok (), m)
        ∧ (insert ⟨false, false⟩ getHashedLeafEntryIndex 1 C.toCache (int2key 1000001) 9).run (exec ()) m
            = some (.ok (), m')
        ∧ (m.group sampleLeaf).Stores (int2key 1000001) ∧ (m'.group sampleLeaf).Distinct := by
  obtain ⟨C, m, m', hC, hm, hm', hr, hhome⟩ := exists_insert_again
  have hk : int2key 1000001 ≠ kkeyNull := by decide
  have hone := CheckedRun.init.insert hk (fun _ _ h => absurd h (not_stores_init _)) hm
  have htwo : CheckedRun ⟨false, false⟩ getHashedLeafEntryIndex C.toCache (fun _ => 0) m' := by
    refine hone.insert hk (fun a ha _ => .inl ?_) hm'
    rw [ha.unique hr]
    exact seen_of_home hhome
  exact ⟨C, m, m', hC, hm, hm', .inl ⟨hk, _, hhome⟩,
    (keys_stored_once _ _ _ _).1 m' htwo _ (sampleLeaf_isLeaf false)⟩

set_option maxRecDepth 10000 in
/-- A key that the synonym leaf stores is stored once more in the leaf. -/
theorem key_stored_twice
    : ∃ (C : RolexCache) (m : Mem Unit), RolexCache.new sampleKeys = some C
        ∧ Reachable ⟨false, false⟩ getHashedLeafEntryIndex C.toCache (fun _ => 0) m
        ∧ (m.node sampleLeaf).records.Stores (int2key 1000009)
        ∧ m.ptr sampleLeaf ≠ GlobalAddress.null
        ∧ (m.node (m.ptr sampleLeaf)).records.Stores (int2key 1000009) := by
  have hrun : ((RolexCache.new sampleKeys).bind (fun C => (insertAll ⟨false, false⟩ getHashedLeafEntryIndex
      C.toCache () (samplePairs 1000001 17 ++ [(int2key 1000009, 7)])
      (Mem.init ⟨false, false⟩ (fun _ => 0))).map (fun m : Mem Unit =>
        decide ((m.node sampleLeaf).records.Stores (int2key 1000009) ∧ m.ptr sampleLeaf ≠ GlobalAddress.null
          ∧ (m.node (m.ptr sampleLeaf)).records.Stores (int2key 1000009))))) = some true := by
    decide +kernel
  obtain ⟨C, m, hC, -, hreach, htwice⟩ := exists_run (by decide) hrun
  exact ⟨C, m, hC, hreach, of_decide_eq_true htwice⟩

end Hop

end Rolex

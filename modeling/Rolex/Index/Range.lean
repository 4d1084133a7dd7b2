import Rolex.Index.Sequential
import Rolex.Model.Leaves

/-!
This module contains `range_query` of the default build: it reads all leaves between the first one
predicted for the lower key and the last one predicted for the upper key.
-/

namespace Rolex

def RolexCache.searchRangeFromCache (C : RolexCache) (fromKey toKey : Key) : Option (Nat × Nat) := do
  let (l, _, leafIdxOffsetFrom, _) ← C.rolexModel.getLeafRange (key2int fromKey)
  let (_, r, leafIdxOffsetTo, _) ← C.rolexModel.getLeafRange (key2int toKey)
  return (leafIdxOffsetFrom + l, leafIdxOffsetTo + r)

/-- `std::map<Key, Value>` -/
abbrev KeyMap := Key → Option Value

/-- The body of the loops of step 3. -/
def collect (fromKey toKey : Key) (ret : KeyMap) (e : LeafEntry) : KeyMap :=
  if e.key ≠ kkeyNull ∧ fromKey ≤ e.key ∧ e.key < toKey then
    Function.update ret e.key (some e.value)
  else
    ret

def rangeQuery (C : RolexCache) (fromKey toKey : Key) (ret : KeyMap) : ProgM KeyMap := do
  let (l, r) ← .check (C.searchRangeFromCache fromKey toKey)
  let leafAddrs ← .check (leafAddresses l r)
  let leaves ← fetchNodes leafAddrs
  let append := appendLeafAddrs (leafAddrs.zip leaves)
  let appendLeaves ← fetchNodes (append.map Prod.fst)
  return (leaves ++ appendLeaves).foldl
    (fun ret leaf => leaf.records.toList.foldl (collect fromKey toKey) ret) ret

section Collect

variable {fromKey toKey : Key} {entries : List LeafEntry} {ret : KeyMap} {k : Key}

theorem foldl_collect_eq_some {v : Value}
    (h : entries.foldl (collect fromKey toKey) ret k = some v)
    : ret k = some v ∨ k ≠ kkeyNull ∧ fromKey ≤ k ∧ k < toKey
        ∧ ∃ e ∈ entries, e.key = k ∧ e.value = v := by
  induction entries generalizing ret with
  | nil => exact .inl h
  | cons e entries ih =>
    rcases ih h with hret | ⟨hk, hfrom, hto, e', he', hkey, hvalue⟩
    . unfold collect at hret
      split at hret
      . next hin =>
        by_cases hkk : k = e.key
        . subst hkk
          rw [Function.update_self, Option.some.injEq] at hret
          exact .inr ⟨hin.1, hin.2.1, hin.2.2, e, List.mem_cons_self, rfl, hret⟩
        . rw [Function.update_of_ne hkk] at hret
          exact .inl hret
      . exact .inl hret
    . exact .inr ⟨hk, hfrom, hto, e', List.mem_cons_of_mem _ he', hkey, hvalue⟩

theorem foldl_collect_ne_none (h : ret k ≠ none ∨ k ≠ kkeyNull ∧ fromKey ≤ k ∧ k < toKey
      ∧ ∃ e ∈ entries, e.key = k)
    : entries.foldl (collect fromKey toKey) ret k ≠ none := by
  induction entries generalizing ret with
  | nil =>
    rcases h with h | ⟨-, -, -, e, he, -⟩
    . exact h
    . cases he
  | cons e entries ih =>
    apply ih
    by_cases hkk : k = e.key ∧ k ≠ kkeyNull ∧ fromKey ≤ k ∧ k < toKey
    . left
      obtain ⟨rfl, hin⟩ := hkk
      rw [collect, if_pos hin, Function.update_self]
      simp
    . rcases h with h | ⟨hk, hfrom, hto, e', he', hkey⟩
      . left
        unfold collect
        split
        . by_cases heq : k = e.key
          . rw [heq, Function.update_self]
            simp
          . rw [Function.update_of_ne heq]
            exact h
        . exact h
      . rcases List.mem_cons.mp he' with rfl | he'
        . exact absurd ⟨hkey.symm, hk, hfrom, hto⟩ hkk
        . exact .inr ⟨hk, hfrom, hto, e', he', hkey⟩

theorem foldl_leaves (leaves : List LeafNode) (ret : KeyMap)
    : leaves.foldl (fun ret leaf => leaf.records.toList.foldl (collect fromKey toKey) ret) ret
        = (leaves.flatMap (fun leaf => leaf.records.toList)).foldl (collect fromKey toKey) ret := by
  induction leaves generalizing ret with
  | nil => rfl
  | cons leaf leaves ih => rw [List.foldl_cons, ih, List.flatMap_cons, List.foldl_append]

end Collect

theorem Records.mem_toList {r : Records} {k : Key} {v : Value}
    : (∃ e ∈ r.toList, e.key = k ∧ e.value = v) ↔ r.Has k v := by
  constructor
  . rintro ⟨e, he, hkey, hvalue⟩
    obtain ⟨t, ht, rfl⟩ := List.getElem_of_mem he
    have ht' : t < leafSpanSize := by simpa using ht
    rw [Vector.getElem_toList, ← Records.get_eq_getElem _ ht'] at hkey hvalue
    exact ⟨t, ht', hkey, hvalue⟩
  . rintro ⟨t, ht, hkey, hvalue⟩
    refine ⟨r.get t, ?_, hkey, hvalue⟩
    rw [Records.get_eq_getElem _ ht]
    simp

section Range

variable {ι : Type} [DecidableEq ι] {i : ι} {m : Mem ι} {C : RolexCache} {fromKey toKey k : Key}
variable {l r : Nat} {leafAddrs : List GlobalAddress}

def Mem.leaves (m : Mem ι) (leafAddrs : List GlobalAddress) : List LeafNode :=
  leafAddrs.map m.node ++ (m.linked leafAddrs).map (fun a => m.node (m.ptr a))

omit [DecidableEq ι] in
theorem mem_leaves {v : Value}
    : (∃ e ∈ (m.leaves leafAddrs).flatMap (fun leaf => leaf.records.toList), e.key = k ∧ e.value = v)
        ↔
      ∃ a ∈ leafAddrs, (m.group a).Has k v := by
  have hnodes : (∃ e ∈ (m.leaves leafAddrs).flatMap (fun leaf => leaf.records.toList),
      e.key = k ∧ e.value = v) ↔ ∃ n ∈ m.leaves leafAddrs, n.records.Has k v := by
    simp only [List.mem_flatMap, ← Records.mem_toList]
    constructor
    . rintro ⟨e, ⟨n, hn, he⟩, hkv⟩
      exact ⟨n, hn, e, he, hkv⟩
    . rintro ⟨n, hn, e, he, hkv⟩
      exact ⟨e, ⟨n, hn, he⟩, hkv⟩
  rw [hnodes]
  constructor
  . rintro ⟨n, hn, hhas⟩
    rcases List.mem_append.mp hn with hn | hn
    . obtain ⟨a, ha, rfl⟩ := List.mem_map.mp hn
      exact ⟨a, ha, .inl hhas⟩
    . obtain ⟨a, ha, rfl⟩ := List.mem_map.mp hn
      obtain ⟨ha, hnull⟩ := List.mem_filter.mp ha
      refine ⟨a, ha, .inr ⟨m.node (m.ptr a), ?_, hhas⟩⟩
      rw [Mem.group, if_neg (by simpa using hnull)]
  . rintro ⟨a, ha, hhas | ⟨s, hs, hhas⟩⟩
    . exact ⟨m.node a, List.mem_append_left _ (List.mem_map_of_mem ha), hhas⟩
    . by_cases hnull : m.ptr a = GlobalAddress.null
      . simp [Mem.group, hnull] at hs
      . simp only [Mem.group, if_neg hnull, Option.some.injEq] at hs
        subst hs
        refine ⟨m.node (m.ptr a), List.mem_append_right _ (List.mem_map.mpr ⟨a, ?_, rfl⟩), hhas⟩
        simp [Mem.linked, ha, hnull]

theorem rangeQuery_run (hrange : C.searchRangeFromCache fromKey toKey = some (l, r))
    (hleaves : leafAddresses l r = some leafAddrs) (ret : KeyMap)
    : (rangeQuery C fromKey toKey ret).run (exec i) m
        = some (((m.leaves leafAddrs).flatMap (fun leaf => leaf.records.toList)).foldl
            (collect fromKey toKey) ret, m) := by
  unfold rangeQuery
  simp only [hrange, hleaves, Prog.check_some, Prog.ret_bind]
  rw [Prog.run_bind_eq (exec i) (fetchNodes_run _), Prog.run_bind_eq (exec i) (fetchNodes_run _)]
  rw [appendLeafAddrs_zip]
  simp only [List.map_map, foldl_leaves, Prog.pure_eq, Prog.run_ret]
  rfl

omit [DecidableEq ι] in
theorem searchRangeFromCache_eq {l' r' : Nat} (hfrom : C.searchFromCache fromKey = some (l, r'))
    (hto : C.searchFromCache toKey = some (l', r))
    : C.searchRangeFromCache fromKey toKey = some (l, r) := by
  unfold RolexCache.searchFromCache at hfrom hto
  obtain ⟨⟨a, b, offset, before⟩, hrange, heq⟩ := Option.bind_eq_some_iff.mp hfrom
  obtain ⟨⟨a', b', offset', before'⟩, hrange', heq'⟩ := Option.bind_eq_some_iff.mp hto
  simp only [Option.pure_def, Option.some.injEq, Prod.mk.injEq] at heq heq'
  unfold RolexCache.searchRangeFromCache
  rw [hrange, hrange', ← heq.1, ← heq'.2]
  rfl

theorem mapM_ne_none_iff {α β : Type} {f : α → Option β} {xs : List α}
    : (∃ ys, xs.mapM f = some ys) ↔ ∀ x ∈ xs, f x ≠ none := by
  induction xs with
  | nil => simp
  | cons x xs ih =>
    rw [List.forall_mem_cons, ← ih, List.mapM_cons]
    constructor
    . rintro ⟨ys, h⟩
      obtain ⟨y, hy, h⟩ := Option.bind_eq_some_iff.mp h
      obtain ⟨ys', hys, -⟩ := Option.bind_eq_some_iff.mp h
      exact ⟨by simp [hy], ys', hys⟩
    . rintro ⟨hx, ys, hys⟩
      obtain ⟨y, hy⟩ := Option.ne_none_iff_exists'.mp hx
      exact ⟨y :: ys, by simp [hy, hys]⟩

theorem leafAddresses_ne_none_iff (hle : l ≤ r)
    : (∃ leafAddrs, leafAddresses l r = some leafAddrs) ↔ getLeafAddress r ≠ none := by
  unfold leafAddresses
  rw [mapM_ne_none_iff]
  constructor
  . intro h
    apply h
    rw [List.mem_range'_1]
    omega
  . intro h x hx
    rw [List.mem_range'_1] at hx
    exact LeafBuild.leafAddress_ne_none h (by omega)

theorem RolexCache.Trained.routed_between {segs : List (List Nat)} (h : C.Trained segs)
    {x y z l₁ r₁ l₂ r₂ l₃ r₃ : Nat} (hfrom : fromKey ≤ k) (hto : k ≤ toKey)
    (hx : C.searchFromCacheForInsert fromKey = some (l₁, r₁, x))
    (hy : C.searchFromCacheForInsert k = some (l₂, r₂, y))
    (hz : C.searchFromCacheForInsert toKey = some (l₃, r₃, z))
    : x ≤ y ∧ y ≤ z := by
  have hx' := h.insertLeaf_of_searchFromCacheForInsert hx
  have hy' := h.insertLeaf_of_searchFromCacheForInsert hy
  have hz' := h.insertLeaf_of_searchFromCacheForInsert hz
  exact ⟨h.insertLeaf_mono (key2int_mono hfrom) hx' hy', h.insertLeaf_mono (key2int_mono hto) hy' hz'⟩

/-- A range query returns the pairs of the interval that are stored in any leaf or synonym leaf. -/
theorem rangeQuery_exact {loadKeys : List Key} {a b : GlobalAddress} (hC : RolexCache.new loadKeys = some C)
    (h : Reachable C.toCache m) (hle : fromKey ≤ toKey) (hfrom : Routed C.toCache fromKey a)
    (hto : Routed C.toCache toKey b)
    : ∃ ret, (rangeQuery C fromKey toKey (fun _ => none)).run (exec i) m = some (ret, m)
        ∧ ∀ k v, ret k = some v
            ↔ k ≠ kkeyNull ∧ fromKey ≤ k ∧ k < toKey ∧ ∃ c, IsLeaf c ∧ (m.group c).Has k v := by
  obtain ⟨C', segs, hC', htr⟩ := RolexCache.new_trained loadKeys
  obtain rfl : C' = C := Option.some.inj (hC'.symm.trans hC)
  obtain ⟨l, r', x, -, hx, -, -⟩ := hfrom
  obtain ⟨l', r, z, toAddrs, hz, htoAddrs, -⟩ := hto
  obtain ⟨hsearch, hlx, -⟩ := RolexCache.routed hx
  obtain ⟨hsearch', hlz, hzr⟩ := RolexCache.routed hz
  have hrange := searchRangeFromCache_eq hsearch hsearch'
  have hlast := (leafAddresses_ne_none_iff (hlz.trans hzr)).mp ⟨toAddrs, htoAddrs⟩
  have hxz := (htr.routed_between (le_refl _) hle hx hx hz).2
  obtain ⟨leafAddrs, hleaves⟩ := (leafAddresses_ne_none_iff (show l ≤ r by omega)).mpr hlast
  refine ⟨_, rangeQuery_run hrange hleaves _, ?_⟩
  intro k v
  have hisLeaf : ∀ c ∈ leafAddrs, IsLeaf c := by
    intro c hc
    obtain ⟨idx, -, -, hidx⟩ := (mem_leafAddresses hleaves c).mp hc
    exact ⟨idx, hidx⟩
  constructor
  . intro hret
    rcases foldl_collect_eq_some hret with hret | ⟨hk, hfrom, hto, he⟩
    . cases hret
    . obtain ⟨c, hc, hhas⟩ := mem_leaves.mp he
      exact ⟨hk, hfrom, hto, c, hisLeaf c hc, hhas⟩
  . rintro ⟨hk, hfrom, hto, c, hc, hhas⟩
    -- the leaf of the key is one of those that are read
    have hrouted := h.routed hc hk hhas
    have hmem : c ∈ leafAddrs := by
      obtain ⟨_, _, y, _, hy, -, hcaddr⟩ := hrouted
      obtain ⟨hxy, hyz⟩ := htr.routed_between hfrom hto.le hx hy hz
      exact (mem_leafAddresses hleaves c).mpr ⟨y, by omega, by omega, hcaddr⟩
    have he := mem_leaves.mpr ⟨c, hmem, hhas⟩
    have hne : ((m.leaves leafAddrs).flatMap (fun leaf => leaf.records.toList)).foldl
        (collect fromKey toKey) (fun _ => none) k ≠ none := by
      apply foldl_collect_ne_none
      obtain ⟨e, he, hkey, -⟩ := he
      exact .inr ⟨hk, hfrom, hto, e, he, hkey⟩
    obtain ⟨w, hw⟩ := Option.ne_none_iff_exists'.mp hne
    rcases foldl_collect_eq_some hw with hret | ⟨-, -, -, he'⟩
    . cases hret
    . -- the key is stored once
      obtain ⟨c', hc', hhas'⟩ := mem_leaves.mp he'
      have hsame := (h.routed (hisLeaf c' hc') hk hhas').unique hrouted
      rw [hsame] at hhas'
      rw [hw, (h.inv.group c hc).has_unique hk hhas hhas']

set_option maxRecDepth 10000 in
theorem rangeQuery_exact_sample
    : ∃ (C : RolexCache) (m : Mem Unit) (ret : KeyMap), RolexCache.new sampleKeys = some C
        ∧ insertAll () C.toCache (samplePairs 1000001 17) Mem.init = some m
        ∧ (rangeQuery C (int2key 31) (int2key 1000010) (fun _ => none)).run (exec ()) m = some (ret, m)
        ∧ ∀ k v, ret k = some v ↔ k ≠ kkeyNull ∧ int2key 31 ≤ k ∧ k < int2key 1000010
            ∧ ∃ c, IsLeaf c ∧ (m.group c).Has k v := by
  have hrun : ((RolexCache.new sampleKeys).bind (fun C =>
      (insertAll () C.toCache (samplePairs 1000001 17) Mem.init).bind (fun m : Mem Unit =>
        ((insert C.toCache (int2key 31) 7).run (exec ()) m).bind (fun r =>
          (insert C.toCache (int2key 1000010) 7).run (exec ()) r.2)))).isSome := by
    decide +kernel
  obtain ⟨res, hrun⟩ := Option.isSome_iff_exists.mp hrun
  obtain ⟨C, hC, hrun⟩ := Option.bind_eq_some_iff.mp hrun
  obtain ⟨m, hm, hrun⟩ := Option.bind_eq_some_iff.mp hrun
  obtain ⟨r, hfrom, hto⟩ := Option.bind_eq_some_iff.mp hrun
  obtain ⟨a, ha⟩ := routed_of_insert_run hfrom
  obtain ⟨b, hb⟩ := routed_of_insert_run hto
  have hreach : Reachable C.toCache m := Reachable.init.insertAll (by decide) hm
  obtain ⟨ret, hret, hexact⟩ := rangeQuery_exact (i := ()) hC hreach (by decide) ha hb
  exact ⟨C, m, ret, hC, hm, hret, hexact⟩

end Range

end Rolex

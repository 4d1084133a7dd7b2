import Rolex.Index.Run

/-!
This module contains how `search` and `update` run without interruption: which nodes they look at,
what they find there, and what an update changes.
-/

namespace Rolex

theorem mem_of_mapM_eq_some {α β : Type} {f : α → Option β} {l : List α} {l' : List β}
    (h : l.mapM f = some l') (b : β)
    : b ∈ l' ↔ ∃ a ∈ l, f a = some b := by
  induction l generalizing l' with
  | nil =>
    obtain rfl : [] = l' := by simpa using h
    simp
  | cons a l ih =>
    rw [List.mapM_cons] at h
    obtain ⟨c, hc, h⟩ := Option.bind_eq_some_iff.mp h
    obtain ⟨l'', hl, h⟩ := Option.bind_eq_some_iff.mp h
    obtain rfl := Option.some.inj h
    rw [List.mem_cons, ih hl]
    simp only [List.mem_cons, exists_eq_or_imp, hc, Option.some.injEq, eq_comm (a := c)]

theorem mem_leafAddresses {l r : Nat} {leafAddrs : List GlobalAddress}
    (h : leafAddresses l r = some leafAddrs) (a : GlobalAddress)
    : a ∈ leafAddrs ↔ ∃ leafIdx, l ≤ leafIdx ∧ leafIdx ≤ r ∧ getLeafAddress leafIdx = some a := by
  rw [mem_of_mapM_eq_some h]
  constructor
  . rintro ⟨leafIdx, hmem, ha⟩
    rw [List.mem_range'_1] at hmem
    exact ⟨leafIdx, by omega, by omega, ha⟩
  . rintro ⟨leafIdx, hl, hr, ha⟩
    refine ⟨leafIdx, ?_, ha⟩
    rw [List.mem_range'_1]
    omega

section Find

variable {n : LeafNode} {k : Key} {v : Value}

theorem LeafNode.has_of_find (h : n.find k = some v) : n.records.Has k v := by
  obtain ⟨e, he, rfl⟩ := Option.map_eq_some_iff.mp h
  have hkey := List.find?_some he
  obtain ⟨t, ht, rfl⟩ := List.getElem_of_mem (List.mem_of_find?_eq_some he)
  have ht' : t < leafSpanSize := by simpa using ht
  rw [Vector.getElem_toList, ← Records.get_eq_getElem _ ht'] at hkey
  refine ⟨t, ht', by simpa using hkey, ?_⟩
  rw [Vector.getElem_toList, Records.get_eq_getElem _ ht']

theorem LeafNode.find_eq_none : n.find k = none ↔ ∀ w, ¬ n.records.Has k w := by
  constructor
  . rintro h w ⟨t, ht, hkey, -⟩
    simp only [find, Option.map_eq_none_iff, List.find?_eq_none] at h
    apply h (n.records.get t)
    . rw [Records.get_eq_getElem _ ht]
      simp
    . simpa using hkey
  . intro h
    cases hfind : n.find k with
    | none => rfl
    | some w => exact absurd (has_of_find hfind) (h w)

theorem updateLocally_isSome_of_find (h : n.find k ≠ none) (w : Value)
    : updateLocally k w n ≠ none := by
  intro hnone
  apply h
  rw [LeafNode.find_eq_none]
  rintro w ⟨t, ht, hkey, -⟩
  exact updateLocally_eq_none.mp hnone t ht hkey

theorem updateLocally_eq_none_of_find (h : n.find k = none) (w : Value)
    : updateLocally k w n = none := by
  rw [updateLocally_eq_none]
  intro t ht hkey
  exact LeafNode.find_eq_none.mp h _ ⟨t, ht, hkey, rfl⟩

end Find

theorem findKey_eq_none {k : Key} {l : List (GlobalAddress × GlobalAddress × LeafNode)}
    : findKey k l = none ↔ ∀ e ∈ l, e.2.2.find k = none := by
  induction l with
  | nil => simp [findKey]
  | cons e l ih =>
    obtain ⟨leafAddr, lockedLeafAddr, leaf⟩ := e
    cases h : leaf.find k with
    | none => simp [findKey, h, ih]
    | some v => simp [findKey, h]

theorem findKey_append (k : Key) (l₁ l₂ : List (GlobalAddress × GlobalAddress × LeafNode))
    : findKey k (l₁ ++ l₂) = (findKey k l₁).or (findKey k l₂) := by
  induction l₁ with
  | nil => rfl
  | cons e l₁ ih =>
    obtain ⟨leafAddr, lockedLeafAddr, leaf⟩ := e
    cases h : leaf.find k with
    | none => simpa [findKey, h] using ih
    | some v => simp [findKey, h]

theorem mem_of_findKey {k : Key} {l : List (GlobalAddress × GlobalAddress × LeafNode)} {v : Value}
    {leafAddr lockedLeafAddr : GlobalAddress}
    (h : findKey k l = some (v, leafAddr, lockedLeafAddr))
    : ∃ leaf, (leafAddr, lockedLeafAddr, leaf) ∈ l ∧ leaf.find k = some v := by
  induction l with
  | nil => cases h
  | cons e l ih =>
    obtain ⟨addr, locked, leaf⟩ := e
    unfold findKey at h
    split at h
    . next w hw =>
      simp only [Option.some.injEq, Prod.mk.injEq] at h
      obtain ⟨rfl, rfl, rfl⟩ := h
      exact ⟨leaf, List.mem_cons_self, hw⟩
    . obtain ⟨leaf', hmem, hfind⟩ := ih h
      exact ⟨leaf', List.mem_cons_of_mem _ hmem, hfind⟩

theorem mem_appendLeafAddrs {leaves : List (GlobalAddress × LeafNode)} {p a : GlobalAddress}
    : (p, a) ∈ appendLeafAddrs leaves
        ↔
      p ≠ GlobalAddress.null ∧ ∃ leaf, (a, leaf) ∈ leaves ∧ leaf.metadata.synonymPtr = p := by
  induction leaves with
  | nil => simp [appendLeafAddrs]
  | cons e leaves ih =>
    obtain ⟨b, n⟩ := e
    unfold appendLeafAddrs
    split
    . next hnull =>
      rw [ih]
      constructor
      . rintro ⟨hp, leaf, hmem, hptr⟩
        exact ⟨hp, leaf, List.mem_cons_of_mem _ hmem, hptr⟩
      . rintro ⟨hp, leaf, hmem, hptr⟩
        rcases List.mem_cons.mp hmem with heq | hmem
        . cases heq
          exact absurd (hptr.symm.trans hnull) hp
        . exact ⟨hp, leaf, hmem, hptr⟩
    . next hnull =>
      rw [List.mem_cons, ih]
      constructor
      . rintro (heq | ⟨hp, leaf, hmem, hptr⟩)
        . cases heq
          exact ⟨hnull, n, List.mem_cons_self, rfl⟩
        . exact ⟨hp, leaf, List.mem_cons_of_mem _ hmem, hptr⟩
      . rintro ⟨hp, leaf, hmem, hptr⟩
        rcases List.mem_cons.mp hmem with heq | hmem
        . cases heq
          exact .inl (by rw [hptr])
        . exact .inr ⟨hp, leaf, hmem, hptr⟩

section Run

variable {ι : Type} [DecidableEq ι] {i : ι} {m m' : Mem ι} {cache : Cache} {k : Key}
variable {l r : Nat} {leafAddrs : List GlobalAddress}

/-- The leaves of a range that have a synonym leaf. -/
def Mem.linked (m : Mem ι) (leafAddrs : List GlobalAddress) : List GlobalAddress :=
  leafAddrs.filter (fun a => m.ptr a ≠ GlobalAddress.null)

/-- What `_search` looks at, in this order. -/
def Mem.fetched (m : Mem ι) (leafAddrs : List GlobalAddress)
    : List (GlobalAddress × GlobalAddress × LeafNode) :=
  leafAddrs.map (fun a => (a, a, m.node a))
    ++ (m.linked leafAddrs).map (fun a => (m.ptr a, a, m.node (m.ptr a)))

omit [DecidableEq ι] in
theorem appendLeafAddrs_zip (m : Mem ι) (leafAddrs : List GlobalAddress)
    : appendLeafAddrs (leafAddrs.zip (leafAddrs.map m.node))
        =
      (m.linked leafAddrs).map (fun a => (m.ptr a, a)) := by
  induction leafAddrs with
  | nil => rfl
  | cons a leafAddrs ih =>
    simp only [List.map_cons, List.zip_cons_cons, appendLeafAddrs, ih]
    have hptr : (m.node a).metadata.synonymPtr = m.ptr a := rfl
    rw [hptr]
    by_cases hnull : m.ptr a = GlobalAddress.null
    . rw [if_pos hnull]
      simp [Mem.linked, hnull]
    . rw [if_neg hnull]
      simp [Mem.linked, hnull]

theorem searchAux_run (hrange : cache.searchFromCache k = some (l, r))
    (hleaves : leafAddresses l r = some leafAddrs)
    : (searchAux cache k).run (exec i) m = some (findKey k (m.fetched leafAddrs), m) := by
  unfold searchAux
  simp only [hrange, hleaves, Prog.check_some, Prog.ret_bind]
  rw [Prog.run_bind_eq (exec i) (fetchNodes_run _), Prog.run_bind_eq (exec i) (fetchNodes_run _)]
  have hzip : leafAddrs.zip (leafAddrs.map m.node) = leafAddrs.map (fun a => (a, m.node a)) := by
    simpa using List.zip_map' (f := id) (g := m.node) (l := leafAddrs)
  rw [appendLeafAddrs_zip, hzip]
  simp only [List.map_map, List.zip_map', Prog.pure_eq, Prog.run_ret]
  rfl

omit [DecidableEq ι] in
theorem findKey_fetched_eq_none
    : findKey k (m.fetched leafAddrs) = none
        ↔
      ∀ a ∈ leafAddrs, ∀ w, ¬ (m.group a).Has k w := by
  rw [findKey_eq_none]
  constructor
  . rintro h a ha w (hw | ⟨s, hs, hw⟩)
    . have := h (a, a, m.node a) (List.mem_append_left _ (List.mem_map_of_mem ha))
      exact LeafNode.find_eq_none.mp this w hw
    . by_cases hnull : m.ptr a = GlobalAddress.null
      . simp [Mem.group, hnull] at hs
      . have hmem : a ∈ m.linked leafAddrs := by simp [Mem.linked, ha, hnull]
        have := h (m.ptr a, a, m.node (m.ptr a))
          (List.mem_append_right _ (List.mem_map.mpr ⟨a, hmem, rfl⟩))
        simp only [Mem.group, if_neg hnull, Option.some.injEq] at hs
        subst hs
        exact LeafNode.find_eq_none.mp this w hw
  . intro h e he
    rw [LeafNode.find_eq_none]
    intro w hw
    rcases List.mem_append.mp he with he | he
    . obtain ⟨a, ha, rfl⟩ := List.mem_map.mp he
      exact h a ha w (.inl hw)
    . obtain ⟨a, ha, rfl⟩ := List.mem_map.mp he
      obtain ⟨ha, hnull⟩ := List.mem_filter.mp ha
      refine h a ha w (.inr ⟨m.node (m.ptr a), ?_, hw⟩)
      rw [Mem.group, if_neg (by simpa using hnull)]

/-- Where a hit is: in a leaf, or in a synonym leaf whose leaf does not have the key. -/
structure Mem.Hit (m : Mem ι) (k : Key) (a leafAddr : GlobalAddress) (v : Value) : Prop where
  find : (m.node leafAddr).find k = some v
  place : leafAddr = a
    ∨ (m.ptr a ≠ GlobalAddress.null ∧ leafAddr = m.ptr a ∧ (m.node a).find k = none)

omit [DecidableEq ι] in
theorem findKey_fetched_eq_some {leafAddr lockLeafAddr : GlobalAddress} {v : Value}
    (h : findKey k (m.fetched leafAddrs) = some (v, leafAddr, lockLeafAddr))
    : lockLeafAddr ∈ leafAddrs ∧ m.Hit k lockLeafAddr leafAddr v := by
  unfold Mem.fetched at h
  rw [findKey_append] at h
  cases hleaves : findKey k (leafAddrs.map (fun a => (a, a, m.node a))) with
  | some res =>
    rw [hleaves, Option.some_or, Option.some.injEq] at h
    subst h
    obtain ⟨leaf, hmem, hfind⟩ := mem_of_findKey hleaves
    obtain ⟨a, ha, heq⟩ := List.mem_map.mp hmem
    simp only [Prod.mk.injEq] at heq
    obtain ⟨rfl, rfl, rfl⟩ := heq
    exact ⟨ha, hfind, .inl rfl⟩
  | none =>
    -- no leaf of the range has the key, so the hit is in a synonym leaf
    rw [hleaves, Option.none_or] at h
    obtain ⟨leaf, hmem, hfind⟩ := mem_of_findKey h
    obtain ⟨a, ha, heq⟩ := List.mem_map.mp hmem
    obtain ⟨ha, hnull⟩ := List.mem_filter.mp ha
    simp only [Prod.mk.injEq] at heq
    obtain ⟨rfl, rfl, rfl⟩ := heq
    refine ⟨ha, hfind, .inr ⟨by simpa using hnull, rfl, ?_⟩⟩
    exact findKey_eq_none.mp hleaves (a, a, m.node a) (List.mem_map_of_mem ha)

omit [DecidableEq ι] in
theorem Mem.Hit.has {a leafAddr : GlobalAddress} {v : Value} (h : m.Hit k a leafAddr v)
    : (m.group a).Has k v := by
  have hhas := LeafNode.has_of_find h.find
  rcases h.place with rfl | ⟨hnull, rfl, -⟩
  . exact .inl hhas
  . exact .inr ⟨m.node (m.ptr a), by rw [Mem.group, if_neg hnull], hhas⟩

theorem updateLocked_run {a leafAddr : GlobalAddress} {v w : Value} (hshape : m.Shape)
    (ha : IsLeaf a) (hfree : m.Unlocked a) (hhit : m.Hit k a leafAddr w)
    : ∃ m', (updateLocked k v leafAddr a).run (exec i) m = some ((), m')
        ∧ GroupStep m a ((m.group a).update k v) m' := by
  obtain ⟨n, hn⟩ : ∃ n, updateLocally k v (m.node leafAddr) = some n := by
    apply Option.ne_none_iff_exists'.mp
    apply updateLocally_isSome_of_find
    rw [hhit.find]
    simp
  have hmeta := updateLocally_metadata hn
  have hnode : (m.setLock a (~~~0)).node leafAddr = m.node leafAddr := rfl
  unfold updateLocked
  rw [Prog.run_bind_eq (exec i) (lockNode_run hfree), updateLocked.readAnother, fetchNode,
    Prog.call_bind, run_read, hnode, hn]
  refine ⟨_, rfl, ?_⟩
  rcases hhit.place with rfl | ⟨hnull, rfl, hleaf⟩
  . have hptr : n.bumpNodeVersions.metadata.synonymPtr = m.ptr leafAddr := by
      rw [LeafNode.bumpNodeVersions_synonymPtr, hmeta]
      rfl
    have hgroup : (m.group leafAddr).update k v
        = { m.group leafAddr with leaf := n.bumpNodeVersions } := by
      have hleaf : (m.group leafAddr).leaf = m.node leafAddr := rfl
      rw [Group.update, hleaf, hn]
    rw [hgroup]
    exact groupStep_leaf hshape ha hptr
  . have hgroup : (m.group a).update k v
        = { m.group a with syn := some n.bumpNodeVersions } := by
      have hleaf' : (m.group a).leaf = m.node a := rfl
      have hsyn : (m.group a).syn = some (m.node (m.ptr a)) := if_neg hnull
      rw [Group.update, hleaf', updateLocally_eq_none_of_find hleaf, hsyn, Option.bind_some, hn]
      rfl
    rw [hgroup]
    exact groupStep_syn hshape ha hnull

end Run

end Rolex

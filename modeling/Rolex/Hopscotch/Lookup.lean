import Rolex.Hopscotch.Stored

/-!
This module contains what fetches and searches of the `HOPSCOTCH_LEAF_NODE` builds bring while nothing
interrupts them: nodes that have one node version are decoded in the first round, and a search finds every
stored key of the leaves that it looks at.
-/

namespace Rolex

/-- One node version throughout the node. -/
def HopNode.Uniform (n : HopNode) : Prop :=
  ∀ p, (n.records.get p).hVersion.nodeVersion = n.metadata.hVersion.nodeVersion

namespace Hop

section Fetch

variable {b : Build} {hashIdx entryNum : Nat} {n : HopNode}

theorem segmentSizeL_le (hidx : hashIdx < leafSpanSize) (hnum : entryNum ≤ leafSpanSize)
    : segmentSizeL hashIdx entryNum ≤ hashIdx := by
  unfold segmentSizeL
  split <;> omega

theorem nodeVersions_of_uniform (hn : n.Uniform) (hidx : hashIdx < leafSpanSize)
    (hnum : entryNum ≤ leafSpanSize)
    : ∀ v ∈ (segmentsOf b hashIdx entryNum n n).nodeVersions b hashIdx entryNum,
        v = n.metadata.hVersion.nodeVersion := by
  have h16 := leafSpanSize_eq
  have hsizeL := segmentSizeL_le hidx hnum
  have hget : ∀ {header : Bool} {idx num i : Nat}, idx ≤ i → i < idx + num → i < leafSpanSize →
      ((n.part header idx num).records.getEntry i).hVersion.nodeVersion = n.metadata.hVersion.nodeVersion := by
    intro header idx num i hle hlt hi
    have hslot : (slot i).val = i := by
      have := val_slot i
      omega
    unfold HopRecords.getEntry
    rw [HopNode.get_part, if_pos (by omega)]
    exact hn _
  intro v hv
  unfold Segments.nodeVersions segmentsOf at hv
  simp only [List.mem_append, List.mem_map, List.mem_range, List.mem_range'_1] at hv
  rcases hv with ((hv | hv) | ⟨i, hi, rfl⟩) | ⟨i, ⟨hle, hi⟩, rfl⟩
  . split at hv
    . rw [List.mem_singleton.mp hv]
      rfl
    . cases hv
  . split at hv
    . next hr =>
      rw [List.mem_singleton.mp hv]
      simp [HopNode.part, hr]
    . cases hv
  . have hl : readsL b hashIdx entryNum = true := by
      unfold readsL
      simp
      omega
    rw [if_pos hl]
    exact hget (Nat.zero_le _) (by omega) (by omega)
  . have hsizeR : segmentSizeR hashIdx entryNum ≤ 16 - hashIdx := Nat.min_le_right _ _
    exact hget hle hi (by omega)

theorem consistent_of_uniform (hn : n.Uniform) (hidx : hashIdx < leafSpanSize)
    (hnum : entryNum ≤ leafSpanSize)
    : (segmentsOf b hashIdx entryNum n n).consistent b hashIdx entryNum = true := by
  have hall := @nodeVersions_of_uniform b hashIdx entryNum n hn hidx hnum
  unfold Segments.consistent
  rw [List.all_eq_true]
  intro v hv
  rw [List.all_eq_true]
  intro w hw
  rw [hall v hv, hall w hw]
  simp

theorem metadataOk_window (b : Build) (hashIdx : Nat) (n : HopNode) (needMetadata : Bool)
    : (segmentsOf b hashIdx neighborSize n n).metadataOk b hashIdx neighborSize needMetadata = true := by
  have h16 := leafSpanSize_eq
  have h8 := neighborSize_eq
  have hreads : readsL b hashIdx neighborSize = true ∨ headerR b hashIdx neighborSize = true := by
    unfold readsL headerR hasMetadata segmentSizeL segmentSizeR
    cases b.metadataReplication with
    | false => simp
    | true =>
      simp only [Bool.not_true, Bool.false_or, Bool.true_and, decide_eq_true_eq]
      by_cases hwrap : neighborSize ≤ leafSpanSize - hashIdx
      . right
        rw [Nat.min_eq_left hwrap]
        exact Nat.mod_lt _ (by decide)
      . left
        rw [if_neg hwrap]
        omega
  unfold Segments.metadataOk segmentsOf HopNode.part
  rcases hreads with h | h
  . simp only [h]
    cases headerR b hashIdx neighborSize <;> simp
  . simp only [h]
    cases readsL b hashIdx neighborSize <;> simp

end Fetch

section Run

variable {ι : Type} [DecidableEq ι] {i : ι} {b : Build} {hash : Key → Fin leafSpanSize} {rounds : Nat}
  {cache : Cache} {m : Mem ι} {a : GlobalAddress} {hashIdx : Nat} {k : Key}

theorem decodeAll_total {needMetadata : Bool} {segments : List (Nat × Segments)}
    (hcons : ∀ p ∈ segments, p.2.consistent b hashIdx p.1 = true)
    (hok : ∀ p ∈ segments, p.2.metadataOk b hashIdx p.1 needMetadata = true)
    : (decodeAll b hashIdx needMetadata segments).run (exec i) m
        = some (some (segments.map (fun p => p.2.leaf b hashIdx p.1)), m) := by
  induction segments with
  | nil => rfl
  | cons p segments ih =>
    obtain ⟨hcons, hcons'⟩ := List.forall_mem_cons.mp hcons
    obtain ⟨hok, hok'⟩ := List.forall_mem_cons.mp hok
    unfold decodeAll
    simp only [hcons, hok, Bool.not_true, Bool.false_eq_true, if_false]
    rw [Prog.run_bind_eq (exec i) (ih hcons' hok')]
    rfl

/-- What a fetch of the neighborhood brings of a node. -/
def window (b : Build) (hashIdx : Nat) (n : HopNode) : HopNode :=
  (segmentsOf b hashIdx neighborSize n n).leaf b hashIdx neighborSize

theorem window_fetched (b : Build) (n : HopNode) (hidx : hashIdx < leafSpanSize)
    : Fetched hashIdx neighborSize n (window b hashIdx n) :=
  ⟨metadata_leaf rfl (metadataOk_window b hashIdx n true), agreeOn_leaf b n hidx (by decide)⟩

theorem hopscotchFetchNodes_total {addrs : List (GlobalAddress × GlobalAddress)} (hidx : hashIdx < leafSpanSize)
    (huniform : ∀ p ∈ addrs, (m.node p.1).Uniform)
    : (hopscotchFetchNodes b hashIdx true (addrs.map (fun p => (p.1, neighborSize))) (rounds + 1)).run
        (exec i) m
        = some (addrs.map (fun p => window b hashIdx (m.node p.1)), m) := by
  unfold hopscotchFetchNodes
  rw [Prog.run_bind_eq (exec i) (readAll_run _), List.map_map,
    Prog.run_bind_eq (exec i) (decodeAll_total _ _)]
  . rw [List.map_map]
    rfl
  . intro p hp
    obtain ⟨a, ha, rfl⟩ := List.mem_map.mp hp
    exact consistent_of_uniform (huniform a ha) hidx (show neighborSize ≤ leafSpanSize by decide)
  . intro p hp
    obtain ⟨a, -, rfl⟩ := List.mem_map.mp hp
    exact metadataOk_window b hashIdx _ true

theorem hopscotchFetchNode_total (hidx : hashIdx < leafSpanSize) (huniform : (m.node a).Uniform)
    : (hopscotchFetchNode b hashIdx true a neighborSize (rounds + 1)).run (exec i) m
        = some (window b hashIdx (m.node a), m) := by
  have hfetch := @hopscotchFetchNodes_total ι _ i b rounds m hashIdx [(a, a)] hidx (by simpa using huniform)
  rw [List.map_singleton] at hfetch
  unfold hopscotchFetchNode
  rw [Prog.run_bind_eq (exec i) hfetch]
  rfl

omit [DecidableEq ι] in
theorem searchLeaves_window {addrs : List (GlobalAddress × GlobalAddress)}
    (hinv : ∀ p ∈ addrs, (m.node p.1).records.Inv hash) (hk : k ≠ kkeyNull)
    : let leaves := addrs.map (fun p => (p.1, p.2, window b (hash k).val (m.node p.1)))
      (searchLeaves hash k leaves = some none ∧ ∀ p ∈ addrs, ¬ (m.node p.1).records.Stores k)
        ∨ ∃ v, ∃ p ∈ addrs, searchLeaves hash k leaves = some (some (v, p.1, p.2))
          ∧ (m.node p.1).records.Has k v := by
  intro leaves
  unfold leaves
  induction addrs with
  | nil => exact .inl ⟨rfl, fun p hp => absurd hp List.not_mem_nil⟩
  | cons p addrs ih =>
    obtain ⟨hinv, hinv'⟩ := List.forall_mem_cons.mp hinv
    rw [List.map_cons]
    unfold searchLeaves
    rcases scanNode_of_agree hinv hk (window_fetched b (m.node p.1) (hash k).isLt).agree with
      ⟨q, v, hscan, hkv⟩ | ⟨hscan, hnot⟩
    . refine .inr ⟨v, p, List.mem_cons_self, ?_, hk, q, hkv⟩
      rw [hscan]
    . simp only [hscan]
      rcases ih hinv' with ⟨hnone, hall⟩ | ⟨v, q, hq, hfound, hhas⟩
      . exact .inl ⟨hnone, List.forall_mem_cons.mpr ⟨hnot, hall⟩⟩
      . exact .inr ⟨v, q, List.mem_cons_of_mem _ hq, hfound, hhas⟩

omit [DecidableEq ι] in
theorem mem_appendLeafAddrs {leafAddrs : List GlobalAddress} (syn : SynLeafAddrs) {leaf : GlobalAddress → HopNode}
    (hleaf : ∀ a, (leaf a).metadata.synonymPtr = m.ptr a) (ha : a ∈ leafAddrs)
    (hptr : m.ptr a ≠ GlobalAddress.null)
    : syn.lookup a ≠ none ∨ (m.ptr a, a) ∈ appendLeafAddrs syn (leafAddrs.map (fun a => (a, leaf a))) := by
  induction leafAddrs generalizing syn with
  | nil => cases ha
  | cons c leafAddrs ih =>
    rw [List.map_cons]
    unfold appendLeafAddrs
    rw [hleaf c]
    split
    . next hcond =>
      by_cases hac : a = c
      . subst hac
        exact .inr List.mem_cons_self
      . have hlookup : ((c, m.ptr c) :: syn).lookup a = syn.lookup a := by
          rw [List.lookup_cons, beq_eq_false_iff_ne.mpr hac]
        rcases ih ((c, m.ptr c) :: syn) ((List.mem_cons.mp ha).resolve_left hac) with hsyn | hmem
        . rw [hlookup] at hsyn
          exact .inl hsyn
        . exact .inr (List.mem_cons_of_mem _ hmem)
    . next hcond =>
      rcases List.mem_cons.mp ha with rfl | ha
      . exact .inl (fun hnone => hcond ⟨hptr, hnone⟩)
      . exact ih syn ha

/-- The nodes that a search looks at, each with the address of its leaf. -/
def lookedAt (b : Build) (m : Mem ι) (hashIdx : Nat) (leafAddrs : List GlobalAddress)
    : List (GlobalAddress × GlobalAddress) :=
  leafAddrs.map (fun a => (a, a))
    ++ appendLeafAddrs [] (leafAddrs.map (fun a => (a, window b hashIdx (m.node a))))

variable {leafAddrs : List GlobalAddress}

omit [DecidableEq ι] in
theorem ofLeaf_of_mem_lookedAt (hidx : hashIdx < leafSpanSize) (hleaf : ∀ a ∈ leafAddrs, b.IsLeaf a)
    : ∀ p ∈ lookedAt b m hashIdx leafAddrs, OfLeaf b m p.1 p.2 := by
  have hmeta : ∀ p ∈ leafAddrs.map (fun a => (a, window b hashIdx (m.node a))),
      b.IsLeaf p.1 ∧ p.2.metadata = (m.node p.1).metadata := by
    intro p hp
    obtain ⟨a, ha, rfl⟩ := List.mem_map.mp hp
    exact ⟨hleaf a ha, (window_fetched b (m.node a) hidx).metadata⟩
  intro p hp
  rcases List.mem_append.mp hp with hp | hp
  . obtain ⟨a, ha, rfl⟩ := List.mem_map.mp hp
    exact ⟨hleaf a ha, .inl rfl⟩
  . have hok := appendLeafAddrs_ok [] hmeta _ (List.mem_map_of_mem hp)
    exact ⟨hok.1, .inr hok.2⟩

omit [DecidableEq ι] in
theorem mem_lookedAt (hidx : hashIdx < leafSpanSize) {c : GlobalAddress} (ha : a ∈ leafAddrs)
    (hc : OfLeaf b m c a)
    : (c, a) ∈ lookedAt b m hashIdx leafAddrs := by
  have hptr : ∀ a, (window b hashIdx (m.node a)).metadata.synonymPtr = m.ptr a :=
    fun a => congrArg LeafMetadata.synonymPtr (window_fetched b (m.node a) hidx).metadata
  obtain ⟨-, rfl | ⟨hne, rfl⟩⟩ := hc
  . exact List.mem_append_left _ (List.mem_map_of_mem ha)
  . rcases mem_appendLeafAddrs [] hptr ha hne with hsyn | hmem
    . exact absurd rfl hsyn
    . exact List.mem_append_right _ hmem

theorem searchRound_total (hleaf : ∀ a ∈ leafAddrs, b.IsLeaf a)
    (huniform : ∀ c a, OfLeaf b m c a → (m.node c).Uniform)
    : ∃ syn, (searchRound b hash (rounds + 1) k leafAddrs []).run (exec i) m
        = some ((searchLeaves hash k ((lookedAt b m (hash k).val leafAddrs).map
            (fun p => (p.1, p.2, window b (hash k).val (m.node p.1)))), syn), m) := by
  have hlooked := @ofLeaf_of_mem_lookedAt ι b m _ leafAddrs (hash k).isLt hleaf
  have hcached : cachedLeafAddrs [] leafAddrs = [] := by
    unfold cachedLeafAddrs
    rw [List.filterMap_eq_nil_iff]
    intro a _
    rfl
  have hzip : ∀ {α β : Type} (l : List α) (f : α → β), l.zip (l.map f) = l.map (fun x => (x, f x)) := by
    intro α β l f
    simpa using List.zip_map' (f := id) (g := f) (l := l)
  unfold searchRound
  rw [hcached, List.append_nil]
  dsimp only
  rw [Prog.run_bind_eq (exec i) (hopscotchFetchNodes_total (hash k).isLt _), List.map_map]
  . dsimp only [Function.comp_def]
    rw [hzip, Prog.run_bind_eq (exec i) (hopscotchFetchNodes_total (hash k).isLt _)]
    . refine ⟨(appendLeafAddrs [] (leafAddrs.map
        (fun a => (a, window b (hash k).val (m.node a))))).map Prod.swap ++ [], ?_⟩
      rw [hzip, List.zip_map', Prog.pure_eq, Prog.run_ret]
      unfold lookedAt
      simp only [List.map_append, List.map_map, Function.comp_def]
    . exact fun p hp => huniform p.1 p.2 (hlooked p (List.mem_append_right _ hp))
  . exact fun p hp => huniform p.1 p.2 (hlooked p (List.mem_append_left _ hp))

omit [DecidableEq ι] in
theorem findSlot_window {r s : HopRecords} (hinv : r.Inv hash) (hk : k ≠ kkeyNull) (hstores : r.Stores k)
    (hs : AgreeOn (hash k).val ((hash k).val + neighborSize - 1) r s)
    : ∃ p, findSlot hash s k = some p := by
  obtain ⟨-, p, rfl⟩ := hstores
  obtain ⟨d, hd, hslot⟩ := hinv.exists_offset hk
  apply Option.ne_none_iff_exists'.mp
  intro hnone
  rw [findSlot, Option.map_eq_none_iff, List.find?_eq_none] at hnone
  apply hnone d (List.mem_range.mpr hd)
  rw [← hs ((hash (r.get p).key).val + d) (by omega) (by omega)]
  unfold HopRecords.getEntry
  simp [hslot]

/--
A search that nothing interrupts finds the key in one of the nodes that store it, if there is one among
those of the leaves that it looks at.
-/
theorem searchAux_finds {l r : Nat} (hinv : m.Inv b hash)
    (huniform : ∀ c a, OfLeaf b m c a → (m.node c).Uniform) (hk : k ≠ kkeyNull)
    (hrange : cache.searchFromCache k = some (l, r)) (hleaves : b.leafAddresses l r = some leafAddrs)
    : ((searchAux b hash (rounds + 1) cache k).run (exec i) m = some (none, m)
          ∧ ∀ a ∈ leafAddrs, ∀ c, OfLeaf b m c a → ¬ (m.node c).records.Stores k)
        ∨ ∃ v c a, (searchAux b hash (rounds + 1) cache k).run (exec i) m = some (some (v, c, a), m)
          ∧ OfLeaf b m c a ∧ (m.node c).records.Has k v := by
  have hleaf : ∀ a ∈ leafAddrs, b.IsLeaf a := fun a => Build.isLeaf_of_mem hleaves
  have hlooked := @ofLeaf_of_mem_lookedAt ι b m _ leafAddrs (hash k).isLt hleaf
  have hrecords : ∀ p ∈ lookedAt b m (hash k).val leafAddrs, (m.node p.1).records.Inv hash := by
    intro p hp
    obtain ⟨ha, heq | ⟨hptr, heq⟩⟩ := hlooked p hp
    . rw [heq]
      exact (hinv.sound p.2 ha).leaf
    . rw [heq]
      exact (hinv.sound p.2 ha).syn _ (Mem.group_syn_of_ptr_ne hptr)
  obtain ⟨syn, hround⟩ := @searchRound_total ι _ i b hash rounds m k leafAddrs hleaf huniform
  have hrun : ∀ {found}, searchLeaves hash k ((lookedAt b m (hash k).val leafAddrs).map
      (fun p => (p.1, p.2, window b (hash k).val (m.node p.1)))) = some found →
      (searchAux b hash (rounds + 1) cache k).run (exec i) m = some (found, m) := by
    intro found hfound
    unfold searchAux searchAux.reRead
    simp only [hrange, hleaves, Prog.check_some, Prog.ret_bind]
    rw [Prog.run_bind_eq (exec i) hround, hfound]
    rfl
  rcases searchLeaves_window (b := b) hrecords hk with ⟨hnone, hall⟩ | ⟨v, p, hp, hfound, hhas⟩
  . exact .inl ⟨hrun hnone, fun a ha c hc => hall _ (mem_lookedAt (hash k).isLt ha hc)⟩
  . exact .inr ⟨v, p.1, p.2, hrun hfound, hlooked p hp, hhas⟩

end Run

end Hop

end Rolex

import Rolex.Model.InsertLeaf

/-!
This module contains the layout of the leaves over the trained keys: the leaf tables of the models
lie behind one another, and a larger key never goes to an earlier leaf.
-/

namespace Rolex

section Lower

variable {l : List Nat}

theorem lowerBound_mono {key key' : Nat} (hle : key ≤ key') : lowerBound l key ≤ lowerBound l key' := by
  rw [lowerBound, lowerBound]
  apply List.findIdx_le_findIdx
  intro x _ hx
  simp only [decide_eq_true_eq] at hx ⊢
  omega

theorem getElem?_lowerBound {key : Nat} (hs : l.Pairwise (· < ·)) (hmem : key ∈ l)
    : l[lowerBound l key]? = some key := by
  obtain ⟨i, hi, rfl⟩ := List.mem_iff_getElem.mp hmem
  have : lowerBound l l[i] = i := by
    apply lowerBound_eq hi (le_refl _)
    intro j hj
    exact List.pairwise_iff_getElem.mp hs j i (by omega) hi hj
  rw [this, List.getElem?_eq_getElem hi]

end Lower

namespace RolexModel

variable {R : RolexModel} {segs : List (List Nat)}

/-- The leaf `x` is one of the leaf table of the model of number `i`. -/
def InLeafRange (R : RolexModel) (i x : Nat) : Prop :=
  ∃ model offset, R.models[i]? = some model ∧ R.leafIdxOffsets[i]? = some offset
    ∧ offset ≤ x ∧ x < offset + model.tableSize

def leafOffset (R : RolexModel) (i : Nat) : Nat := ((R.models.take i).map SubModel.tableSize).sum

/-- The position of the first key of leaf `x`, which is one of model `i`. -/
def leafStart (R : RolexModel) (segs : List (List Nat)) (i x : Nat) : Nat :=
  (segs.take i).flatten.length + (x - R.leafOffset i) * leafSpanSize

theorem leafOffset_succ {i : Nat} (hi : i < R.models.length)
    : R.leafOffset (i + 1) = R.leafOffset i + R.models[i].tableSize := by
  rw [leafOffset, leafOffset, List.take_add_one, List.getElem?_eq_getElem hi, List.map_append,
    List.sum_append]
  rfl

theorem leafOffset_mono {i j : Nat} (hij : i ≤ j) (hj : j ≤ R.models.length)
    : R.leafOffset i ≤ R.leafOffset j := by
  induction j, hij using Nat.le_induction with
  | base => exact le_refl _
  | succ j hij ih =>
    have := leafOffset_succ (R := R) (i := j) (by omega)
    have := ih (by omega)
    omega

namespace Trained

variable (h : R.Trained segs)

include h

theorem inLeafRange_iff {i x : Nat}
    : R.InLeafRange i x
        ↔ i < R.models.length ∧ R.leafOffset i ≤ x ∧ x < R.leafOffset (i + 1) := by
  have hlen := h.models.length_eq
  constructor
  . rintro ⟨model, offset, hmodel, hoffset, hle, hlt⟩
    obtain ⟨hi, rfl⟩ := List.getElem?_eq_some_iff.mp hmodel
    rw [h.leafOffsets i (by omega), Option.some.injEq] at hoffset
    rw [leafOffset_succ hi]
    change R.leafOffset i = offset at hoffset
    omega
  . rintro ⟨hi, hle, hlt⟩
    rw [leafOffset_succ hi] at hlt
    exact ⟨_, _, List.getElem?_eq_getElem hi, h.leafOffsets i (by omega), hle, hlt⟩

theorem inLeafRange_unique {i j x : Nat} (hi : R.InLeafRange i x) (hj : R.InLeafRange j x)
    : i = j := by
  obtain ⟨hi, hile, hilt⟩ := h.inLeafRange_iff.mp hi
  obtain ⟨hj, hjle, hjlt⟩ := h.inLeafRange_iff.mp hj
  rcases Nat.lt_trichotomy i j with hlt | heq | hgt
  . have := R.leafOffset_mono (show i + 1 ≤ j from hlt) (by omega)
    omega
  . exact heq
  . have := R.leafOffset_mono (show j + 1 ≤ i from hgt) (by omega)
    omega

theorem exists_inLeafRange_iff (x : Nat)
    : (∃ i, R.InLeafRange i x) ↔ x < R.leafOffset R.models.length := by
  constructor
  . rintro ⟨i, hx⟩
    obtain ⟨hi, -, hlt⟩ := h.inLeafRange_iff.mp hx
    have := R.leafOffset_mono (show i + 1 ≤ R.models.length from hi) (le_refl _)
    omega
  . intro hx
    -- the first model whose table ends behind the leaf
    have hex : ∃ i, x < R.leafOffset i := ⟨_, hx⟩
    have hfind := Nat.find_spec hex
    have hle : Nat.find hex ≤ R.models.length := Nat.find_min' hex hx
    obtain ⟨i, hi⟩ : ∃ i, Nat.find hex = i + 1 := by
      apply Nat.exists_eq_succ_of_ne_zero
      intro hzero
      rw [hzero] at hfind
      simp [leafOffset] at hfind
    have hbefore := Nat.find_min hex (m := i) (by omega)
    rw [hi] at hfind hle
    exact ⟨i, h.inLeafRange_iff.mpr ⟨by omega, by omega, hfind⟩⟩

end Trained

end RolexModel

namespace RolexCache

/-- The leaf that `search_from_cache_for_insert` computes, before its assertion. -/
def insertLeaf (C : RolexCache) (key : Nat) : Option Nat := do
  let modelId := C.rolexModel.modelId key
  let _ ← C.rolexModel.models[modelId]?
  let leafIdxOffset ← C.rolexModel.leafIdxOffsets[modelId]?
  let capacityOffset ← C.rolexModel.capacityOffsets[modelId]?
  let insertIdx := ((lowerBound C.intKeys key : Int) - capacityOffset).tdiv leafSpanSize
  if insertIdx ≥ 0 then
    return leafIdxOffset + insertIdx.toNat
  else
    none

theorem modelId_mono (C : RolexCache) {key key' : Nat} (hle : key ≤ key')
    : C.rolexModel.modelId key ≤ C.rolexModel.modelId key' := by
  have := lowerBound_mono (l := C.rolexModel.modelKeys) hle
  unfold RolexModel.modelId
  omega

namespace Trained

variable {C : RolexCache} {segs : List (List Nat)} (h : C.Trained segs)

include h

theorem modelId_lt (hne : C.intKeys ≠ []) (key : Nat) : C.rolexModel.modelId key < segs.length := by
  have hlen := h.length_models
  have : segs ≠ [] := by
    intro hnil
    apply hne
    rw [← h.keys, hnil, List.flatten_nil]
  have := List.length_pos_iff.mpr this
  unfold RolexModel.modelId
  omega

theorem insertLeaf_eq {key i : Nat} (hi : i < segs.length) (hid : C.rolexModel.modelId key = i)
    : C.insertLeaf key
        = some (C.rolexModel.leafOffset i + lowerBound segs[i] key / leafSpanSize) := by
  have hlen := h.length_models
  have hidx : (((segs.take i).flatten.length + lowerBound segs[i] key : Nat) : Int)
        - (segs.take i).flatten.length = (lowerBound segs[i] key : Nat) := by
    omega
  have hdiv : ((lowerBound segs[i] key : Nat) : Int).tdiv leafSpanSize
      = (lowerBound segs[i] key / leafSpanSize : Nat) := rfl
  have hmodel := List.getElem?_eq_getElem (l := C.rolexModel.models) (i := i) (by omega)
  unfold insertLeaf
  simp only [hid, hmodel, h.model.leafOffsets i (by omega), h.model.capacityOffsets i (by omega),
    (h.lowerBound_intKeys hi hid).1, Option.bind_eq_bind, Option.bind_some, hidx, hdiv]
  rw [if_pos (Int.natCast_nonneg _), Int.toNat_natCast]
  rfl

theorem eq_of_insertLeaf {key x : Nat} (hx : C.insertLeaf key = some x)
    : ∃ hi : C.rolexModel.modelId key < segs.length,
        x = C.rolexModel.leafOffset (C.rolexModel.modelId key)
          + lowerBound segs[C.rolexModel.modelId key] key / leafSpanSize := by
  have hi : C.rolexModel.modelId key < segs.length := by
    rw [← h.length_models]
    by_contra hge
    simp [insertLeaf, List.getElem?_eq_none (Nat.le_of_not_lt hge)] at hx
  rw [h.insertLeaf_eq hi rfl, Option.some.injEq] at hx
  exact ⟨hi, hx.symm⟩

theorem inLeafRange_insertLeaf {key x : Nat} (hx : C.insertLeaf key = some x)
    : C.rolexModel.InLeafRange (C.rolexModel.modelId key) x := by
  have hlen := h.length_models
  obtain ⟨hi, rfl⟩ := h.eq_of_insertLeaf hx
  generalize C.rolexModel.modelId key = i at hi ⊢
  have himodel : i < C.rolexModel.models.length := by omega
  have htr : C.rolexModel.models[i].Trained segs[i] := h.model.models.get himodel hi
  have hdiv : lowerBound segs[i] key / leafSpanSize ≤ segs[i].length / leafSpanSize :=
    Nat.div_le_div_right lowerBound_le_length
  have htable := htr.tableSize
  apply h.model.inLeafRange_iff.mpr
  rw [RolexModel.leafOffset_succ himodel]
  exact ⟨himodel, Nat.le_add_right _ _, Nat.add_lt_add_left (hdiv.trans_lt htable) _⟩

theorem insertLeaf_mono {key key' x x' : Nat} (hle : key ≤ key') (hx : C.insertLeaf key = some x)
    (hx' : C.insertLeaf key' = some x')
    : x ≤ x' := by
  have hlen := h.length_models
  obtain ⟨-, -, hlt⟩ := h.model.inLeafRange_iff.mp (h.inLeafRange_insertLeaf hx)
  obtain ⟨hi', hge, -⟩ := h.model.inLeafRange_iff.mp (h.inLeafRange_insertLeaf hx')
  rcases Nat.eq_or_lt_of_le (C.modelId_mono hle) with heq | hbefore
  . obtain ⟨hi, rfl⟩ := h.eq_of_insertLeaf hx
    obtain ⟨hi', rfl⟩ := h.eq_of_insertLeaf hx'
    simp only [heq]
    apply Nat.add_le_add_left
    apply Nat.div_le_div_right
    exact lowerBound_mono hle
  . have := C.rolexModel.leafOffset_mono (show _ + 1 ≤ _ from hbefore) hi'.le
    omega

theorem lowerBound_of_insertLeaf {key x : Nat} (hx : C.insertLeaf key = some x)
    : C.rolexModel.leafStart segs (C.rolexModel.modelId key) x ≤ lowerBound C.intKeys key
        ∧ lowerBound C.intKeys key
          < C.rolexModel.leafStart segs (C.rolexModel.modelId key) x + leafSpanSize := by
  obtain ⟨hi, rfl⟩ := h.eq_of_insertLeaf hx
  rw [(h.lowerBound_intKeys hi rfl).1, RolexModel.leafStart, Nat.add_sub_cancel_left, leafSpanSize_eq]
  omega

theorem length_insertLeaf_le (x : Nat)
    : (C.intKeys.filter (fun key => C.insertLeaf key = some x)).length ≤ leafSpanSize := by
  generalize hl : C.intKeys.filter (fun key => C.insertLeaf key = some x) = l
  have hmem : ∀ key ∈ l, key ∈ C.intKeys ∧ C.insertLeaf key = some x := by
    intro key hkey
    rw [← hl, List.mem_filter, decide_eq_true_eq] at hkey
    exact hkey
  have hnodup : (l.map (lowerBound C.intKeys)).Nodup := by
    apply List.Nodup.map_on
    . intro a ha b hb heq
      have hgeta := getElem?_lowerBound h.sorted (hmem a ha).1
      rw [heq, getElem?_lowerBound h.sorted (hmem b hb).1, Option.some.injEq] at hgeta
      exact hgeta.symm
    . rw [← hl]
      exact (h.sorted.imp (fun hlt => ne_of_lt hlt)).filter _
  cases hcase : l with
  | nil => simp
  | cons first rest =>
    have hfirst := (hmem first (by simp [hcase])).2
    have hsub : l.map (lowerBound C.intKeys) ⊆ List.range'
        (C.rolexModel.leafStart segs (C.rolexModel.modelId first) x) leafSpanSize := by
      intro p hp
      obtain ⟨key, hkey, rfl⟩ := List.mem_map.mp hp
      have hx := (hmem key hkey).2
      have hsame := h.model.inLeafRange_unique (h.inLeafRange_insertLeaf hfirst)
        (h.inLeafRange_insertLeaf hx)
      rw [hsame, List.mem_range'_1]
      exact h.lowerBound_of_insertLeaf hx
    have := (List.subperm_of_subset hnodup hsub).length_le
    rw [← hcase]
    simpa using this

theorem insertLeaf_of_searchFromCacheForInsert {k : Key} {l r x : Nat}
    (hx : C.searchFromCacheForInsert k = some (l, r, x))
    : C.insertLeaf (key2int k) = some x := by
  have hlen := h.length_modelKeys
  rcases Nat.lt_or_ge segs.length 2 with hone | htwo
  . have hnone : binarySearchBranchless C.rolexModel.modelKeys (key2int k) = none := by
      rw [binarySearchBranchless, if_pos (by omega)]
    simp [searchFromCacheForInsert, RolexModel.getLeafRange, RolexModel.modelForKey, hnone] at hx
  . have hfor := (h.modelForKey htwo (key2int k)).1
    simp only [searchFromCacheForInsert, RolexModel.getLeafRange, hfor, Option.bind_eq_bind,
      Option.bind_some, Option.bind_eq_some_iff, Option.pure_def, Option.some.injEq] at hx
    obtain ⟨⟨l', r', offset, before⟩, ⟨model, hmodel, ⟨a, b⟩, -, offset', hoffset, before', hbefore, heq⟩,
      hif⟩ := hx
    obtain ⟨rfl, rfl, rfl, rfl⟩ : a = l' ∧ b = r' ∧ offset' = offset ∧ before' = before := by
      simpa using heq
    dsimp only at hif
    split at hif
    . next hin =>
      have hpos : ((lowerBound C.intKeys (key2int k) : Int) - before').tdiv leafSpanSize ≥ 0 := by
        omega
      simp only [Option.some.injEq, Prod.mk.injEq] at hif
      simp only [insertLeaf, hmodel, hoffset, hbefore, Option.bind_eq_bind, Option.bind_some]
      rw [if_pos hpos, ← hif.2.2]
      rfl
    . cases hif

end Trained

/-- The segments `segs` that the keys were cut into, and the leaves that the keys go to. -/
structure Tiled (C : RolexCache) (segs : List (List Nat)) : Prop where
  -- consecutive segments, one model for each
  keys : segs.flatten = C.intKeys
  nonempty : ∀ seg ∈ segs, seg ≠ []
  sizes : (segs.map List.length).sum = C.intKeys.length
  capacity : C.rolexModel.models.map SubModel.capacity = segs.map List.length
  first : ∀ i (hi : i < segs.length), ∃ j, C.rolexModel.capacityOffsets[i]? = some j
    ∧ C.intKeys[j]? = segs[i].head?
  -- the leaf tables
  disjoint : ∀ i j x, C.rolexModel.InLeafRange i x → C.rolexModel.InLeafRange j x → i = j
  tile : ∃ leafNum, ∀ x, (∃ i, C.rolexModel.InLeafRange i x) ↔ x < leafNum
  -- the leaf of every key, trained or not
  routed : C.intKeys ≠ [] → ∀ key, ∃ x, C.insertLeaf key = some x
    ∧ C.rolexModel.InLeafRange (C.rolexModel.modelId key) x
  mono : ∀ key key' x x', key ≤ key' → C.insertLeaf key = some x → C.insertLeaf key' = some x' →
    x ≤ x'
  span : ∀ x, (C.intKeys.filter (fun key => C.insertLeaf key = some x)).length ≤ leafSpanSize
  inserted : ∀ k l r x, C.searchFromCacheForInsert k = some (l, r, x) →
    C.insertLeaf (key2int k) = some x

namespace Trained

variable {C : RolexCache} {segs : List (List Nat)} (h : C.Trained segs)

include h

theorem pos {i : Nat} (hi : i < segs.length) : 0 < segs[i].length := by
  have himodel : i < C.rolexModel.models.length := h.length_models ▸ hi
  exact (h.model.models.get himodel hi).pos

theorem head?_eq {i : Nat} (hi : i < segs.length)
    : C.intKeys[(segs.take i).flatten.length]? = segs[i].head? := by
  have hsplit : C.intKeys = (segs.take i).flatten ++ (segs[i] ++ (segs.drop (i + 1)).flatten) := by
    rw [← h.keys, ← List.flatten_cons, ← List.flatten_append, List.cons_getElem_drop_succ,
      List.take_append_drop]
  rw [hsplit, List.getElem?_append_right (le_refl _), Nat.sub_self,
    List.getElem?_append_left (h.pos hi), List.head?_eq_getElem?]

theorem tiled : C.Tiled segs where
  keys := h.keys
  nonempty := by
    intro seg hseg
    obtain ⟨i, hi, rfl⟩ := List.mem_iff_getElem.mp hseg
    exact List.length_pos_iff.mp (h.pos hi)
  sizes := by rw [← h.keys, List.length_flatten]
  capacity := by
    apply List.ext_getElem
    . rw [List.length_map, List.length_map, h.length_models]
    . intro i hi hi'
      rw [List.length_map] at hi hi'
      rw [List.getElem_map, List.getElem_map]
      exact (h.model.models.get hi hi').capacity
  first := fun i hi => ⟨_, h.model.capacityOffsets i hi.le, h.head?_eq hi⟩
  disjoint := fun _ _ _ => h.model.inLeafRange_unique
  tile := ⟨_, h.model.exists_inLeafRange_iff⟩
  routed := by
    intro hne key
    have hx := h.insertLeaf_eq (h.modelId_lt hne key) rfl
    exact ⟨_, hx, h.inLeafRange_insertLeaf hx⟩
  mono := fun _ _ _ _ => h.insertLeaf_mono
  span := h.length_insertLeaf_le
  inserted := fun _ _ _ _ => h.insertLeaf_of_searchFromCacheForInsert

end Trained

/-- Training lays the leaves of the models behind one another, in the order of the keys. -/
theorem train_tiled (keys : List Nat) (hs : keys.Pairwise (· < ·)) (hlen : keys.length < 2 ^ 31)
    : ∃ R segs, RolexModel.train keys = some R ∧ Tiled ⟨R, keys⟩ segs := by
  obtain ⟨R, segs, hR, htr, hflat⟩ := RolexModel.train_spec hs (by omega)
  have h : Trained ⟨R, keys⟩ segs := ⟨htr, hflat, hs, by dsimp only; omega⟩
  exact ⟨R, segs, hR, h.tiled⟩

theorem train_tiled_two
    : ∃ R segs, RolexModel.train RolexModel.twoSegments = some R ∧ R.models.length = 2
        ∧ Tiled ⟨R, RolexModel.twoSegments⟩ segs := by
  have htwo : (RolexModel.train RolexModel.twoSegments).map (fun R => R.models.length) = some 2 := by
    decide +kernel
  obtain ⟨R, segs, hR, h⟩ := train_tiled RolexModel.twoSegments (by decide) (by decide)
  rw [hR] at htwo
  exact ⟨R, segs, hR, Option.some.inj htwo, h⟩

end RolexCache

end Rolex

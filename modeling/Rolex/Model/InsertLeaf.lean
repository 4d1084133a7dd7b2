import Rolex.KeyArray
import Rolex.Model.Cache
import Mathlib.Algebra.Order.Floor.Ring

/-!
This module contains the lemmas about `RolexCache`: the leaf that a key is inserted into against the
range of leaves that a search of the key reads.
-/

namespace Rolex

section Convert

theorem trunc_eq {x : Rat} (h : 0 ≤ x) : trunc x = ⌊x⌋ := if_pos h

theorem trunc_nonneg_iff {x : Rat} : 0 ≤ trunc x ↔ -1 < x := by
  unfold trunc
  split
  . next h => exact ⟨fun _ => by linarith, fun _ => Int.floor_nonneg.mpr h⟩
  . next h =>
    constructor
    . intro hc
      have := Int.lt_ceil.mp (show (-1 : Int) < ⌈x⌉ by omega)
      push_cast at this
      exact this
    . intro hx
      have : (-1 : Int) < ⌈x⌉ := Int.lt_ceil.mpr (by push_cast; exact hx)
      omega

theorem toInt64_of_lt {x : Rat} (h : 0 ≤ x) (hlt : x < 2 ^ 63) : toInt64 x = some ⌊x⌋ := by
  unfold toInt64
  rw [trunc_eq h, if_pos]
  constructor
  . have := Int.floor_nonneg.mpr h
    omega
  . exact Int.floor_lt.mpr (by push_cast; exact hlt)

theorem toInt64_of_le {x : Rat} (h : 0 ≤ x) (hle : 2 ^ 63 ≤ x) : toInt64 x = none := by
  unfold toInt64
  rw [trunc_eq h, if_neg]
  rintro ⟨-, hlt⟩
  have := Int.floor_lt.mp hlt
  push_cast at this
  linarith

theorem trunc_lt {x : Rat} {n : Nat} (h : x < n) (hn : 0 < n) : trunc x < n := by
  unfold trunc
  split
  . exact Int.floor_lt.mpr (by push_cast; exact h)
  . next hneg =>
    have : ⌈x⌉ ≤ 0 := Int.ceil_le.mpr (by push_cast; exact (not_le.mp hneg).le)
    omega

theorem toSize_of_gt {x : Rat} (h : -1 < x) (hlt : x < (2 ^ 64 : Nat))
    : toSize x = some (trunc x).toNat :=
  if_pos ⟨trunc_nonneg_iff.mpr h, trunc_lt hlt (by decide)⟩

theorem toSize_of_le {x : Rat} (h : x ≤ -1) : toSize x = none := by
  unfold toSize
  rw [if_neg]
  rintro ⟨hnonneg, -⟩
  have := trunc_nonneg_iff.mp hnonneg
  linarith

end Convert

section Predict

variable {model : SubModel} {seg : List Nat} {key : Nat}

theorem SubModel.Trained.le_line (h : model.Trained seg) {i : Nat} (key : Nat) (hi : i < seg.length)
    (hlt : i < lowerBound seg key)
    : (i : Rat) - trainEpsilon ≤ model.slope * key + model.intercept := by
  have hkey : (seg[i] : Rat) ≤ key := by exact_mod_cast (lt_of_lt_lowerBound hi hlt).le
  have := mul_le_mul_of_nonneg_left hkey h.slope
  have := h.lower i hi
  linarith

theorem SubModel.Trained.line_le (h : model.Trained seg) (hs : seg.Pairwise (· < ·)) (key : Nat)
    (hi : lowerBound seg key < seg.length)
    : model.slope * key + model.intercept ≤ lowerBound seg key + trainEpsilon := by
  have hkey : (key : Rat) ≤ seg[lowerBound seg key] := by
    exact_mod_cast le_of_lowerBound_le (hs.imp le_of_lt) hi (le_refl _)
  have := mul_le_mul_of_nonneg_left hkey h.slope
  have := h.upper _ hi
  linarith

theorem SubModel.Trained.intercept_le (h : model.Trained seg) : model.intercept ≤ trainEpsilon := by
  have hpos := h.pos
  have hupper := h.upper 0 hpos
  have := mul_nonneg h.slope (Nat.cast_nonneg seg[0] : (0 : Rat) ≤ seg[0])
  push_cast at hupper
  linarith

theorem trainEpsilon_cast : ((trainEpsilon : Int) : Rat) = 15 := by
  norm_num [trainEpsilon, epsilon]

/-- What `predict` needs to be defined at a key. -/
structure SubModel.Defined (model : SubModel) (key : Nat) : Prop where
  product : model.slope * key < 2 ^ 63
  position : -1 < ⌊model.slope * key⌋ + model.intercept

theorem SubModel.Trained.predict_eq_none (h : model.Trained seg) (size : Nat)
    (hdef : ¬model.Defined key)
    : model.predict key size = none := by
  have hnonneg := mul_nonneg h.slope (Nat.cast_nonneg key : (0 : Rat) ≤ key)
  unfold predict
  rcases lt_or_ge (model.slope * key) (2 ^ 63) with hlt | hge
  . have hpos : ⌊model.slope * key⌋ + model.intercept ≤ -1 :=
      not_lt.mp (fun hgt => hdef ⟨hlt, hgt⟩)
    simp [toInt64_of_lt hnonneg hlt, toSize_of_le hpos]
  . simp [toInt64_of_le hnonneg hge]

theorem addEps_bounds {pos : Rat} {p size : Nat} (hsize : 0 < size) (hpos : -1 < pos)
    (hdown : 0 < p → (p : Rat) + 1 < pos + 18)
    : addEps pos epsilon size < size ∧ ((min p (size - 1) : Nat) : Rat) ≤ addEps pos epsilon size := by
  have heps : ((epsilon : Nat) : Rat) = 16 := by norm_num [epsilon]
  unfold addEps
  rw [heps]
  split
  . have hmin : ((min p (size - 1) : Nat) : Rat) + 1 ≤ size := by
      exact_mod_cast (show min p (size - 1) + 1 ≤ size by omega)
    exact ⟨by linarith, by linarith⟩
  . next hlt =>
    refine ⟨by linarith, ?_⟩
    have hmin : ((min p (size - 1) : Nat) : Rat) ≤ p := by exact_mod_cast Nat.min_le_left _ _
    rcases Nat.eq_zero_or_pos p with rfl | hp
    . rw [Nat.cast_zero] at hmin
      linarith
    . have := hdown hp
      linarith

theorem subEps_bounds {pos : Rat} {p : Nat} (hup : pos ≤ p + 15)
    : 0 ≤ subEps pos epsilon ∧ subEps pos epsilon ≤ p := by
  have heps : ((epsilon : Nat) : Rat) = 16 := by norm_num [epsilon]
  unfold subEps
  rw [heps]
  split
  . exact ⟨le_refl _, Nat.cast_nonneg p⟩
  . exact ⟨by linarith, by linarith⟩

theorem subEps_nonneg (pos : Rat) : 0 ≤ subEps pos epsilon := by
  unfold subEps
  split <;> linarith

/-- The range of a prediction contains the position of the key, up to the last position. -/
theorem SubModel.Trained.predict_spec (h : model.Trained seg) (hs : seg.Pairwise (· < ·))
    (hlen : seg.length ≤ 2 ^ 64) (hdef : model.Defined key)
    : ∃ pos lo hi, model.predict key seg.length = some (pos, lo, hi)
        ∧ lo ≤ min (lowerBound seg key) (seg.length - 1)
        ∧ min (lowerBound seg key) (seg.length - 1) ≤ hi ∧ hi ≤ seg.length - 1 := by
  have hnonneg := mul_nonneg h.slope (Nat.cast_nonneg key : (0 : Rat) ≤ key)
  have hlength := h.pos
  have hicept := h.intercept_le
  have hfloor := Int.floor_le (model.slope * key)
  have hfloor' := Int.lt_floor_add_one (model.slope * key)
  have hproduct := hdef.product
  have hposition := hdef.position
  rw [trainEpsilon_cast] at hicept
  unfold predict
  rw [toInt64_of_lt hnonneg hproduct]
  simp only [Option.bind_eq_bind, Option.bind_some, Option.pure_def]
  generalize hp : lowerBound seg key = p
  have hple : p ≤ seg.length := hp ▸ lowerBound_le_length
  generalize hpos : (⌊model.slope * key⌋ : Rat) + model.intercept = pos at hposition
  -- the predicted position against the one that is searched for
  have hup : p < seg.length → pos ≤ p + 15 := by
    intro hlt
    have := h.line_le hs key (by omega)
    rw [hp, trainEpsilon_cast] at this
    linarith
  have hdown : 0 < p → (p : Rat) + 1 < pos + 18 := by
    intro hgt
    have := h.le_line (i := p - 1) key (by omega) (by omega)
    rw [trainEpsilon_cast, Nat.cast_sub hgt] at this
    push_cast at this
    linarith
  have hbound : (seg.length : Rat) ≤ (2 ^ 64 : Nat) := by exact_mod_cast hlen
  obtain ⟨hhi, hhi'⟩ := addEps_bounds hlength hposition hdown
  have hlo := subEps_nonneg pos
  have hlo' : p < seg.length → subEps pos epsilon ≤ p := fun hlt => (subEps_bounds (hup hlt)).2
  generalize addEps pos epsilon seg.length = hi at hhi hhi'
  have hhi0 : 0 ≤ hi := (Nat.cast_nonneg _).trans hhi'
  have hmin : (if subEps pos epsilon > hi then hi else subEps pos epsilon)
      = min (subEps pos epsilon) hi := by
    rw [min_def]
    split <;> split <;> linarith
  rw [hmin]
  generalize subEps pos epsilon = lo at hlo hlo'
  have hlohi : 0 ≤ min lo hi := le_min hlo hhi0
  have hle : min lo hi ≤ hi := min_le_right _ _
  rw [toSize_of_gt (x := pos) (by linarith) (by push_cast; linarith),
    toSize_of_gt (x := min lo hi) (by linarith) (by linarith),
    toSize_of_gt (x := hi) (by linarith) (by linarith)]
  refine ⟨_, _, _, rfl, ?_, ?_, ?_⟩
  . rw [trunc_eq hlohi]
    have h1 : ⌊min lo hi⌋ < seg.length := Int.floor_lt.mpr (by push_cast; linarith)
    rcases Nat.lt_or_ge p seg.length with hlt | hge
    . have h2 : ⌊min lo hi⌋ ≤ p := by
        have := Int.floor_le_floor (min_le_left lo hi |>.trans (hlo' hlt))
        simpa using this
      omega
    . omega
  . rw [trunc_eq hhi0]
    have : ((min p (seg.length - 1) : Nat) : Int) ≤ ⌊hi⌋ := Int.le_floor.mpr (by exact_mod_cast hhi')
    omega
  . rw [trunc_eq hhi0]
    have : ⌊hi⌋ < seg.length := Int.floor_lt.mpr (by push_cast; linarith)
    omega

end Predict

section Keys

theorem length_le_of_pairwise {l : List Nat} {n : Nat} (hs : l.Pairwise (· < ·))
    (hn : ∀ x ∈ l, x < n)
    : l.length ≤ n := by
  have hnodup : l.Nodup := hs.imp (fun hlt => ne_of_lt hlt)
  have hsub : l ⊆ List.range n := fun x hx => List.mem_range.mpr (hn x hx)
  simpa using (List.subperm_of_subset hnodup hsub).length_le

theorem pairwise_destutter {l : List Nat} (hs : l.Pairwise (· ≤ ·))
    : (l.destutter (· ≠ ·)).Pairwise (· < ·) := by
  have hle := hs.sublist (List.destutter_sublist (· ≠ ·) l)
  have hne := List.isChain_destutter (· ≠ ·) l
  refine (List.isChain_iff_getElem.mpr ?_).pairwise
  intro i hi
  exact lt_of_le_of_ne (List.isChain_iff_getElem.mp hle.isChain i hi)
    (List.isChain_iff_getElem.mp hne i hi)

end Keys

namespace RolexCache

/-- The cache of the keys in the segments `segs`. -/
structure Trained (C : RolexCache) (segs : List (List Nat)) : Prop where
  model : C.rolexModel.Trained segs
  keys : segs.flatten = C.intKeys
  sorted : C.intKeys.Pairwise (· < ·)
  bound : C.intKeys.length ≤ 2 ^ 64

theorem new_trained (loadKeys : List Key) : ∃ C segs, new loadKeys = some C ∧ C.Trained segs := by
  have hsort := List.pairwise_insertionSort (· ≤ ·) (loadKeys.map key2int)
  have hs := pairwise_destutter hsort
  have hbound : (((loadKeys.map key2int).insertionSort (· ≤ ·)).destutter (· ≠ ·)).length ≤ 2 ^ 64 := by
    refine length_le_of_pairwise hs ?_
    intro x hx
    have := (List.destutter_sublist _ _).subset hx
    rw [List.mem_insertionSort, List.mem_map] at this
    obtain ⟨k, -, rfl⟩ := this
    exact key2int_lt k
  obtain ⟨R, segs, hR, htr, hflat⟩ := RolexModel.train_spec hs hbound
  refine ⟨⟨R, _⟩, segs, ?_, htr, hflat, hs, hbound⟩
  simp only [new]
  rw [(hs.imp (fun h => h.le)).insertionSort_eq, hR]
  rfl

end RolexCache

section Route

theorem lowerBound_append (a b : List Nat) (key : Nat)
    : lowerBound (a ++ b) key
        = if lowerBound a key < a.length then lowerBound a key else lowerBound b key + a.length :=
  List.findIdx_append

theorem lowerBound_lt {l : List Nat} {x key : Nat} (hx : x ∈ l) (hle : key ≤ x)
    : lowerBound l key < l.length :=
  List.findIdx_lt_length_of_exists ⟨x, hx, by simpa using hle⟩

theorem le_getLast {l : List Nat} {x y : Nat} (hs : l.Pairwise (· < ·)) (hy : l.getLast? = some y)
    (hx : x ∈ l)
    : x ≤ y := by
  obtain ⟨a, rfl⟩ := List.getLast?_eq_some_iff.mp hy
  rcases List.mem_append.mp hx with hx | hx
  . exact ((List.pairwise_append.mp hs).2.2 x hx y (by simp)).le
  . simp only [List.mem_singleton] at hx
    omega

variable {C : RolexCache} {segs : List (List Nat)} (h : C.Trained segs)

include h

theorem RolexCache.Trained.seg_sorted {seg : List Nat} (hseg : seg ∈ segs)
    : seg.Pairwise (· < ·) ∧ seg.length ≤ 2 ^ 64 := by
  have hs := h.sorted
  rw [← h.keys] at hs
  refine ⟨(List.pairwise_flatten.mp hs).1 seg hseg, le_trans ?_ h.bound⟩
  rw [← h.keys]
  exact (List.sublist_flatten_of_mem hseg).length_le

theorem RolexCache.Trained.length_modelKeys : C.rolexModel.modelKeys.length = segs.length :=
  h.model.modelKeys.length_eq

theorem RolexCache.Trained.length_models : C.rolexModel.models.length = segs.length :=
  h.model.models.length_eq

theorem RolexCache.Trained.modelKey {i : Nat} (hi : i < segs.length)
    (hi' : i < C.rolexModel.modelKeys.length)
    : segs[i].getLast? = some C.rolexModel.modelKeys[i] :=
  h.model.modelKeys.get hi' hi

theorem RolexCache.Trained.modelKeys_sorted : C.rolexModel.modelKeys.Pairwise (· < ·) := by
  have hlen := h.length_modelKeys
  have hs := h.sorted
  rw [← h.keys] at hs
  refine List.pairwise_iff_getElem.mpr ?_
  intro i j hi hj hij
  have hseg := List.pairwise_iff_getElem.mp (List.pairwise_flatten.mp hs).2 i j (by omega)
    (by omega) hij
  exact hseg _ (List.mem_of_getLast? (h.modelKey _ hi)) _ (List.mem_of_getLast? (h.modelKey _ hj))

/-- The number of the model that answers for a key. -/
def RolexModel.modelId (R : RolexModel) (key : Nat) : Nat :=
  min (lowerBound R.modelKeys key) (R.models.length - 1)

theorem RolexCache.Trained.modelForKey (htwo : 2 ≤ segs.length) (key : Nat)
    : C.rolexModel.modelForKey key = some (C.rolexModel.modelId key)
        ∧ C.rolexModel.modelId key < segs.length := by
  have hlen := h.length_modelKeys
  have hlen' := h.length_models
  have hle : lowerBound C.rolexModel.modelKeys key ≤ C.rolexModel.modelKeys.length :=
    lowerBound_le_length
  unfold RolexModel.modelForKey RolexModel.modelId
  rw [binarySearchBranchless_eq (h.modelKeys_sorted.imp le_of_lt) (by omega)]
  constructor
  . simp only [Option.bind_eq_bind, Option.bind_some, Option.pure_def, Option.some.injEq]
    split <;> omega
  . omega

theorem RolexCache.Trained.lowerBound_intKeys {key i : Nat} (hi : i < segs.length)
    (hid : C.rolexModel.modelId key = i)
    : lowerBound C.intKeys key = (segs.take i).flatten.length + lowerBound segs[i] key
        ∧ (lowerBound segs[i] key = segs[i].length ↔ ∀ x ∈ C.intKeys, x < key) := by
  have hlen := h.length_modelKeys
  have hlen' := h.length_models
  have hle : lowerBound C.rolexModel.modelKeys key ≤ C.rolexModel.modelKeys.length :=
    lowerBound_le_length
  unfold RolexModel.modelId at hid
  have hbelow : ∀ j (hj : j < segs.length), j < lowerBound C.rolexModel.modelKeys key →
      ∀ x ∈ segs[j], x < key := by
    intro j hj hlt x hx
    have hj' : j < C.rolexModel.modelKeys.length := by omega
    have := le_getLast (h.seg_sorted (List.getElem_mem _)).1 (h.modelKey hj hj') hx
    have := lt_of_lt_lowerBound hj' hlt
    omega
  have hbefore : ∀ x ∈ (segs.take i).flatten, x < key := by
    intro x hx
    obtain ⟨seg, hseg, hx⟩ := List.mem_flatten.mp hx
    obtain ⟨j, hj, rfl⟩ := List.mem_take_iff_getElem.mp hseg
    exact hbelow j (by omega) (by omega) x hx
  have hsplit : C.intKeys = (segs.take i).flatten ++ (segs[i] ++ (segs.drop (i + 1)).flatten) := by
    rw [← h.keys, ← List.flatten_cons, ← List.flatten_append, List.cons_getElem_drop_succ,
      List.take_append_drop]
  rw [hsplit, lowerBound_append, if_neg (by rw [lowerBound_eq_length hbefore]; omega),
    lowerBound_append]
  rcases Nat.lt_or_ge (lowerBound C.rolexModel.modelKeys key) segs.length with hlt | hge
  . -- the last key of the segment is not less
    obtain rfl : lowerBound C.rolexModel.modelKeys key = i := by omega
    have hlast := List.mem_of_getLast? (h.modelKey hi (by omega))
    have hle : key ≤ C.rolexModel.modelKeys[lowerBound C.rolexModel.modelKeys key] :=
      le_of_lowerBound_le (h.modelKeys_sorted.imp le_of_lt) (by omega) (le_refl _)
    have hseg := lowerBound_lt hlast hle
    rw [if_pos hseg]
    refine ⟨Nat.add_comm _ _, ⟨fun heq => by omega, fun hall => ?_⟩⟩
    have := hall _ (List.mem_append_right _ (List.mem_append_left _ hlast))
    omega
  . -- no key is not less
    have hall := hbelow i hi (by omega)
    have hdrop : segs.drop (i + 1) = [] := List.drop_of_length_le (by omega)
    have heq := lowerBound_eq_length hall
    rw [heq, if_neg (by omega), hdrop]
    refine ⟨?_, ⟨fun _ x hx => ?_, fun _ => rfl⟩⟩
    . simp only [List.flatten_nil, lowerBound, List.findIdx_nil]
      omega
    . rcases List.mem_append.mp hx with hx | hx
      . exact hbefore x hx
      . exact hall x (by simpa using hx)

theorem RolexCache.Trained.getLeafRange (htwo : 2 ≤ segs.length) {key i : Nat} {model : SubModel}
    (hi : i < segs.length) (hid : C.rolexModel.modelId key = i)
    (hmodel : C.rolexModel.models[i]? = some model) (hdef : model.Defined key)
    : ∃ lo hi' offset, C.rolexModel.getLeafRange key
          = some (lo / leafSpanSize, hi' / leafSpanSize, offset, (segs.take i).flatten.length)
        ∧ lo ≤ min (lowerBound segs[i] key) (segs[i].length - 1)
        ∧ min (lowerBound segs[i] key) (segs[i].length - 1) ≤ hi' ∧ hi' ≤ segs[i].length - 1 := by
  obtain ⟨hfor, -⟩ := h.modelForKey htwo key
  obtain ⟨himodel, rfl⟩ := List.getElem?_eq_some_iff.mp hmodel
  have htr : C.rolexModel.models[i].Trained segs[i] := h.model.models.get himodel hi
  obtain ⟨hs, hlen⟩ := h.seg_sorted (List.getElem_mem hi)
  obtain ⟨pos, lo, hi', hpredict, hlo, hhi, hhi'⟩ := htr.predict_spec hs hlen hdef
  obtain ⟨offset, hoffset⟩ : ∃ offset, C.rolexModel.leafIdxOffsets[i]? = some offset :=
    ⟨_, List.getElem?_eq_getElem (by rw [h.model.leafIdxOffsets]; omega)⟩
  refine ⟨lo, hi', offset, ?_, hlo, hhi, hhi'⟩
  simp [RolexModel.getLeafRange, hfor, hid, hmodel, SubModel.getPredictRange, htr.capacity, hpredict,
    hoffset, h.model.capacityOffsets i (by omega)]

omit h in
theorem RolexModel.getLeafRange_eq_none {R : RolexModel} {segs : List (List Nat)} (h : R.Trained segs)
    {key i : Nat} {model : SubModel} (hfor : R.modelForKey key = some i)
    (hmodel : R.models[i]? = some model) (hdef : ¬model.Defined key)
    : R.getLeafRange key = none := by
  obtain ⟨himodel, rfl⟩ := List.getElem?_eq_some_iff.mp hmodel
  have htr := h.models.get himodel (by rw [← h.models.length_eq]; exact himodel)
  have hpredict : R.models[i].predict key R.models[i].capacity = none :=
    htr.predict_eq_none R.models[i].capacity hdef
  simp [getLeafRange, hfor, hmodel, SubModel.getPredictRange, hpredict]

end Route

namespace RolexCache

/--
The keys that the cache can route: the prediction of the model that answers for the key is defined,
and a key behind all trained ones finds a leaf that is not full of them.
-/
structure Routes (C : RolexCache) (key : Nat) (model : SubModel) : Prop where
  two : 2 ≤ C.rolexModel.models.length
  answers : C.rolexModel.models[C.rolexModel.modelId key]? = some model
  predict : model.Defined key
  last : (∀ x ∈ C.intKeys, x < key) → ¬leafSpanSize ∣ model.capacity

theorem insertIdx_le_iff {p lo hi size : Nat} (hsize : 0 < size) (hp : p ≤ size)
    (hlo : lo ≤ min p (size - 1)) (hhi : min p (size - 1) ≤ hi) (hhi' : hi ≤ size - 1)
    : (lo / leafSpanSize ≤ p / leafSpanSize ∧ p / leafSpanSize ≤ hi / leafSpanSize)
        ↔ (p = size → ¬leafSpanSize ∣ size) := by
  unfold leafSpanSize
  rcases Nat.lt_or_ge p size with hlt | hge
  . have h1 : lo / 16 ≤ p / 16 := Nat.div_le_div_right (by omega)
    have h2 : p / 16 ≤ hi / 16 := Nat.div_le_div_right (by omega)
    exact ⟨fun _ heq => by omega, fun _ => ⟨h1, h2⟩⟩
  . omega

/-- An insert asserts that the leaf of the position `p` in a segment is in the predicted range. -/
theorem searchFromCacheForInsert_eq {C : RolexCache} {k : Key} {lo hi offset before p : Nat}
    (hrange : C.rolexModel.getLeafRange (key2int k)
      = some (lo / leafSpanSize, hi / leafSpanSize, offset, before))
    (hp : lowerBound C.intKeys (key2int k) = before + p)
    : C.searchFromCacheForInsert k
        = if lo / leafSpanSize ≤ p / leafSpanSize ∧ p / leafSpanSize ≤ hi / leafSpanSize then
            some (offset + lo / leafSpanSize, offset + hi / leafSpanSize, offset + p / leafSpanSize)
          else
            none := by
  have hidx : (((before + p : Nat) : Int) - before).tdiv leafSpanSize = (p / leafSpanSize : Nat) := by
    rw [Nat.cast_add, add_sub_cancel_left]
    rfl
  simp only [searchFromCacheForInsert, hrange, hp, hidx, Option.bind_eq_bind, Option.bind_some,
    Option.pure_def, ge_iff_le, Nat.cast_le, Int.toNat_natCast]

/-- A key is inserted into a leaf that a search of it reads if and only if the cache can route it. -/
theorem insert_leaf_searched_iff (loadKeys : List Key)
    : ∃ C, new loadKeys = some C ∧ ∀ k,
        (∃ l r insertIdx, C.searchFromCacheForInsert k = some (l, r, insertIdx)
          ∧ C.searchFromCache k = some (l, r) ∧ l ≤ insertIdx ∧ insertIdx ≤ r)
        ↔ ∃ model, C.Routes (key2int k) model := by
  obtain ⟨C, segs, hC, h⟩ := new_trained loadKeys
  refine ⟨C, hC, ?_⟩
  intro k
  generalize hkey : key2int k = key
  have hlen := h.length_modelKeys
  have hlen' := h.length_models
  rcases Nat.lt_or_ge segs.length 2 with hone | htwo
  . have hsearch : binarySearchBranchless C.rolexModel.modelKeys key = none := by
      rw [binarySearchBranchless, if_pos (by omega)]
    constructor
    . rintro ⟨l, r, insertIdx, -, hs, -⟩
      simp [searchFromCache, hkey, RolexModel.getLeafRange, RolexModel.modelForKey, hsearch] at hs
    . rintro ⟨model, hroutes⟩
      have := hroutes.two
      omega
  . obtain ⟨hfor, hi⟩ := h.modelForKey htwo key
    generalize hid : C.rolexModel.modelId key = i at hfor hi
    obtain ⟨model, hmodel⟩ : ∃ model, C.rolexModel.models[i]? = some model :=
      ⟨_, List.getElem?_eq_getElem (by omega)⟩
    have hroutes : (∃ model, C.Routes key model) ↔ C.Routes key model := by
      refine ⟨?_, fun hr => ⟨model, hr⟩⟩
      rintro ⟨model', hr⟩
      have hanswers := hr.answers
      rw [hid, hmodel, Option.some.injEq] at hanswers
      exact hanswers ▸ hr
    rw [hroutes]
    by_cases hdef : model.Defined key
    . obtain ⟨lo, hi', offset, hrange, hlo, hhi, hhi'⟩ := h.getLeafRange htwo hi hid hmodel hdef
      obtain ⟨hlower, hall⟩ := h.lowerBound_intKeys hi hid
      obtain ⟨himodel, rfl⟩ := List.getElem?_eq_some_iff.mp hmodel
      have htr : C.rolexModel.models[i].Trained segs[i] := h.model.models.get himodel hi
      have hassert := insertIdx_le_iff htr.pos lowerBound_le_length hlo hhi hhi'
      subst hkey
      have hinsert := searchFromCacheForInsert_eq hrange hlower
      constructor
      . rintro ⟨l, r, insertIdx, hs, -⟩
        rw [hinsert] at hs
        split at hs
        . next hin =>
          refine ⟨by omega, hid ▸ hmodel, hdef, ?_⟩
          intro hlt
          rw [htr.capacity]
          exact hassert.mp hin (hall.mpr hlt)
        . cases hs
      . intro hr
        have hin := hassert.mpr (fun heq => htr.capacity ▸ hr.last (hall.mp heq))
        rw [if_pos hin] at hinsert
        exact ⟨_, _, _, hinsert, routed hinsert⟩
    . have hnone := RolexModel.getLeafRange_eq_none h.model hfor hmodel hdef
      constructor
      . rintro ⟨l, r, insertIdx, -, hs, -⟩
        simp [searchFromCache, hkey, hnone] at hs
      . intro hr
        exact absurd hr.predict hdef

-- beyond 32 keys and a last segment of 16, the leaf of position 16 is behind the range of the segment
theorem insert_leaf_behind_range
    : ∃ loadKeys C k, loadKeys ≠ [] ∧ new loadKeys = some C ∧ C.searchFromCache k = some (3, 3)
        ∧ C.rolexModel.getLeafRange (key2int k) = some (0, 0, 3, 32)
        ∧ lowerBound C.intKeys (key2int k) = 48 ∧ C.searchFromCacheForInsert k = none := by
  refine ⟨(List.range 32).map (fun i => int2key (i + 1))
    ++ (List.range 16).map (fun i => int2key (1000000 + i)), ?_⟩
  refine ⟨_, int2key 1000016, by decide, Option.get_mem (o := new _) (by decide +kernel), ?_⟩
  decide +kernel

end RolexCache

end Rolex

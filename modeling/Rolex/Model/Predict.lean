import Rolex.Model.InsertLeaf

/-!
This module contains when the functions that predict the leaves of a key are defined: the search for
the model of the key, its prediction and the conversions on the way to the range of leaves.
-/

namespace Rolex

section Search

variable {α : Type} [LinearOrder α]

/-- The least position whose key is not less than `key`, or the number of keys. -/
structure FirstNotLess (arr : List α) (key : α) (i : Nat) : Prop where
  le : i ≤ arr.length
  below : ∀ j (hj : j < arr.length), j < i → arr[j] < key
  above : ∀ hi : i < arr.length, key ≤ arr[i]

theorem firstNotLess_lowerBound {arr : List α} (hs : arr.Pairwise (· ≤ ·)) (key : α)
    : FirstNotLess arr key (lowerBound arr key) where
  le := lowerBound_le_length
  below := fun _ hj hlt => lt_of_lt_lowerBound hj hlt
  above := fun hi => le_of_lowerBound_le hs hi (le_refl _)

theorem binarySearchBranchless_single {arr : List α} (hn : arr.length ≤ 1) (key : α)
    : binarySearchBranchless arr key = none := by
  unfold binarySearchBranchless
  rw [if_pos hn]

/-- What `model_for_key` is to return. -/
def RolexModel.Answers (R : RolexModel) (key id : Nat) : Prop :=
  (id < R.models.length ∧ FirstNotLess R.modelKeys key id)
    ∨ ((∀ x ∈ R.modelKeys, x < key) ∧ id + 1 = R.models.length)

theorem RolexModel.modelForKey_answers {R : RolexModel} (hlen : R.modelKeys.length = R.models.length)
    (hs : R.modelKeys.Pairwise (· ≤ ·)) (htwo : 2 ≤ R.models.length) (key : Nat)
    : ∃ id, R.modelForKey key = some id ∧ R.Answers key id := by
  have hfirst := firstNotLess_lowerBound hs key
  unfold modelForKey
  rw [binarySearchBranchless_eq hs (by omega)]
  simp only [Option.bind_eq_bind, Option.bind_some, Option.pure_def]
  refine ⟨_, rfl, ?_⟩
  split
  . next hlt =>
    left
    exact ⟨hlt, hfirst⟩
  . next hge =>
    -- no model has a key that is not less
    right
    refine ⟨?_, by omega⟩
    intro x hx
    obtain ⟨j, hj, rfl⟩ := List.mem_iff_getElem.mp hx
    apply hfirst.below
    omega

/--
The branchless search and the choice of the model by it are defined and right for two keys or more,
for one `bsr(0)` is not defined.
-/
theorem binarySearchBranchless_defined_iff
    : (∀ (arr : List α) (key : α), arr ≠ [] → arr.Pairwise (· ≤ ·) →
          ((∃ i, binarySearchBranchless arr key = some i ∧ FirstNotLess arr key i) ↔ 2 ≤ arr.length))
        ∧ ∀ (R : RolexModel) (key : Nat), R.models ≠ [] → R.modelKeys.length = R.models.length →
          R.modelKeys.Pairwise (· ≤ ·) →
          ((∃ id, R.modelForKey key = some id ∧ R.Answers key id) ↔ 2 ≤ R.models.length) := by
  constructor
  . intro arr key hne hs
    constructor
    . rintro ⟨i, hi, -⟩
      by_contra hlt
      rw [binarySearchBranchless_single (by omega)] at hi
      cases hi
    . intro htwo
      exact ⟨_, binarySearchBranchless_eq hs htwo key, firstNotLess_lowerBound hs key⟩
  . intro R key hne hlen hs
    constructor
    . rintro ⟨id, hid, -⟩
      by_contra hlt
      simp [RolexModel.modelForKey, binarySearchBranchless_single (show R.modelKeys.length ≤ 1 by omega)]
        at hid
    . intro htwo
      exact RolexModel.modelForKey_answers hlen hs htwo key

theorem binarySearchBranchless_defined_iff_two
    : [1, 2] ≠ [] ∧ [1, 2].Pairwise (· ≤ ·)
        ∧ ((∃ i, binarySearchBranchless [1, 2] 2 = some i ∧ FirstNotLess [1, 2] 2 i)
            ↔ 2 ≤ [1, 2].length) :=
  ⟨by decide, by decide, binarySearchBranchless_defined_iff.1 [1, 2] 2 (by decide) (by decide)⟩

-- keys at even distances give one model
theorem single_model_undefined
    : ∃ R, RolexModel.train [10, 20, 30] = some R ∧ R.models.length = 1
        ∧ binarySearchBranchless R.modelKeys 20 = none ∧ R.modelForKey 20 = none
        ∧ ¬∃ i, binarySearchBranchless [5] 5 = some i ∧ FirstNotLess [5] 5 i := by
  refine ⟨_, Option.get_mem (o := RolexModel.train [10, 20, 30]) (by decide +kernel), ?_⟩
  refine ⟨by decide +kernel, by decide +kernel, by decide +kernel, ?_⟩
  rintro ⟨i, hi, -⟩
  cases hi

end Search

section Contains

variable {model : SubModel} {seg : List Nat} {key first : Nat}

/-- Between the trained keys the line is not below zero, as it is at the first of them. -/
theorem SubModel.Trained.defined (h : model.Trained seg) (hfirst : seg[0]? = some first)
    (hle : first ≤ key) (hproduct : model.slope * key < 2 ^ 63)
    : model.Defined key where
  product := hproduct
  position := by
    obtain ⟨hpos, rfl⟩ := List.getElem?_eq_some_iff.mp hfirst
    have hline := h.nonneg 0 hpos
    have hkey : (seg[0] : Rat) ≤ key := by exact_mod_cast hle
    have hmul := mul_le_mul_of_nonneg_left hkey h.slope
    have hfloor := Int.lt_floor_add_one (model.slope * key)
    linarith

theorem Plr.open_addPoints {o : Plr} (hs : seg.Pairwise (· < ·)) (hlen : seg.length ≤ 2 ^ 64)
    (ho : (Plr.new trainEpsilon).addPoints (points seg).reverse = some o)
    : o.Open seg := by
  have hx : (points seg).reverse.Pairwise (fun a b => a.x < b.x) := by
    unfold points
    rw [List.reverse_reverse, List.pairwise_map, List.pairwise_iff_getElem]
    intro i j hi hj hij
    rw [List.length_zipIdx] at hi hj
    have := List.pairwise_iff_getElem.mp hs i j hi hj hij
    simpa using this
  have hfit := Fitted.none.addPoints trainEpsilon_bounds.1 trainEpsilon_bounds.2 (points seg).reverse
    (fun q hq => (segment_points hs hlen).pos q (by simpa using hq)) (by simpa using hx) ho
  simpa [Open] using hfit

/--
The range that a model predicts for a key between the first and the last key of its segment contains
the position of the key.
-/
theorem predict_contains (seg : List Nat) (hs : seg.Pairwise (· < ·)) (hbytes : ∀ x ∈ seg, x < 2 ^ 64)
    (o : Plr) (model : SubModel) (key : Nat)
    (ho : (Plr.new trainEpsilon).addPoints (points seg).reverse = some o)
    (hline : o.getSegment.getSlopeIntercept = (model.slope, model.intercept)) {first last : Nat}
    (hfirst : seg[0]? = some first) (hlast : seg.getLast? = some last) (hle : first ≤ key)
    (hle' : key ≤ last) (hproduct : model.slope * key < 2 ^ 63)
    : ∃ pos lo hi, model.predict key seg.length = some (pos, lo, hi) ∧ lo ≤ lowerBound seg key
        ∧ lowerBound seg key ≤ hi ∧ lo ≤ hi ∧ hi ≤ seg.length - 1 := by
  have hlen : seg.length ≤ 2 ^ 64 := length_le_of_pairwise hs hbytes
  have hopen := Plr.open_addPoints hs hlen ho
  have hlower := lowerBound_lt (List.mem_of_getLast? hlast) hle'
  obtain ⟨init, rfl⟩ := List.getLast?_eq_some_iff.mp hlast
  have htrained := hopen.trained hs hlen
  rw [hline] at htrained
  obtain ⟨pos, lo, hi, hpredict, hlo, hhi, hhi'⟩ := htrained.predict_spec hs hlen
    (htrained.defined hfirst hle hproduct)
  refine ⟨pos, lo, hi, hpredict, ?_, ?_, ?_, hhi'⟩
  . omega
  . omega
  . omega

theorem predict_contains_gap
    : ∃ (o : Plr) (model : SubModel), (Plr.new trainEpsilon).addPoints (points [10, 20, 40]).reverse = some o
        ∧ o.getSegment.getSlopeIntercept = (model.slope, model.intercept)
        ∧ ∃ pos lo hi, model.predict 25 3 = some (pos, lo, hi) ∧ lo ≤ 2 ∧ 2 ≤ hi ∧ lo ≤ hi ∧ hi ≤ 2 := by
  have ho := Option.get_mem (o := (Plr.new trainEpsilon).addPoints (points [10, 20, 40]).reverse)
    (by decide +kernel)
  generalize hres : Option.get _ _ = o at ho
  have hproduct : o.getSegment.getSlopeIntercept.1 * (25 : Nat) < 2 ^ 63 := by
    rw [← hres]
    decide +kernel
  refine ⟨o, ⟨o.getSegment.getSlopeIntercept.1, o.getSegment.getSlopeIntercept.2, 0, 0⟩, ho, rfl, ?_⟩
  exact predict_contains [10, 20, 40] (by decide) (by decide) o _ 25 ho rfl rfl rfl (by decide)
    (by decide) hproduct

end Contains

section Conversions

namespace SubModel

variable (model : SubModel) (key : Nat)

/-- The values of `predict` before they are converted to `size_t`. -/
def pos : Rat := trunc (model.slope * key) + model.intercept

def hi : Rat := addEps (model.pos key) epsilon model.capacity

def lo : Rat :=
  if subEps (model.pos key) epsilon > model.hi key then model.hi key else subEps (model.pos key) epsilon

/-- Every value that is converted on the way to the range of leaves fits the type it is converted to. -/
structure Representable : Prop where
  product : (toInt64 (model.slope * key)).isSome
  pos : (toSize (model.pos key)).isSome
  lo : (toSize (model.lo key)).isSome
  hi : (toSize (model.hi key)).isSome
  loInt : ∀ lo, toSize (model.lo key) = some lo → lo / leafSpanSize < 2 ^ 31
  hiInt : ∀ hi, toSize (model.hi key) = some hi → hi / leafSpanSize < 2 ^ 31

variable {model key} {seg : List Nat}

theorem predict_eq (product : (toInt64 (model.slope * key)).isSome)
    : model.predict key model.capacity
        = (do return (← toSize (model.pos key), ← toSize (model.lo key), ← toSize (model.hi key))) := by
  unfold toInt64 at product
  split at product
  . next h =>
    unfold predict toInt64
    rw [if_pos h]
    rfl
  . cases product

/-- The line with its intercept rounded up decides whether the position can be converted. -/
theorem defined_iff
    : model.Defined key ↔ model.slope * key < 2 ^ 63 ∧ 0 ≤ model.slope * key + ⌈model.intercept⌉ := by
  have hposition : -1 < (⌊model.slope * key⌋ : Rat) + model.intercept
      ↔ 0 ≤ model.slope * key + ⌈model.intercept⌉ := by
    calc -1 < (⌊model.slope * key⌋ : Rat) + model.intercept
      _ ↔ ((-1 - ⌊model.slope * key⌋ : Int) : Rat) < model.intercept := by
        push_cast
        constructor
        . intro h
          linarith
        . intro h
          linarith
      _ ↔ -⌈model.intercept⌉ ≤ ⌊model.slope * key⌋ := by
        rw [← Int.lt_ceil]
        omega
      _ ↔ 0 ≤ model.slope * key + ⌈model.intercept⌉ := by
        rw [Int.le_floor]
        push_cast
        exact neg_le_iff_add_nonneg
  rw [← hposition]
  exact ⟨fun h => ⟨h.product, h.position⟩, fun h => ⟨h.1, h.2⟩⟩

theorem Trained.representable (h : model.Trained seg) (hs : seg.Pairwise (· < ·))
    (hlen : seg.length < 2 ^ 31) (hdef : model.Defined key)
    : model.Representable key := by
  obtain ⟨p, l, r, hpredict, hlo, hhi, hhi'⟩ := h.predict_spec hs (by omega) hdef
  have hnonneg := mul_nonneg h.slope (Nat.cast_nonneg key : (0 : Rat) ≤ key)
  have hproduct : (toInt64 (model.slope * key)).isSome := by
    rw [toInt64_of_lt hnonneg hdef.product]
    rfl
  rw [← h.capacity, predict_eq hproduct] at hpredict
  simp only [Option.bind_eq_bind, Option.pure_def, Option.bind_eq_some_iff, Option.some.injEq,
    Prod.mk.injEq] at hpredict
  obtain ⟨_, hp, _, hl, _, hr, rfl, rfl, rfl⟩ := hpredict
  refine ⟨hproduct, by rw [hp]; rfl, by rw [hl]; rfl, by rw [hr]; rfl, ?_, ?_⟩
  . intro lo hlo'
    rw [hl, Option.some.injEq] at hlo'
    subst hlo'
    exact (Nat.div_le_self _ _).trans_lt (by omega)
  . intro hi hhi''
    rw [hr, Option.some.injEq] at hhi''
    subst hhi''
    exact (Nat.div_le_self _ _).trans_lt (by omega)

theorem Trained.not_representable (h : model.Trained seg) (hdef : ¬model.Defined key)
    : ¬model.Representable key := by
  intro hrep
  have hnone := h.predict_eq_none model.capacity hdef
  obtain ⟨p, hp⟩ := Option.isSome_iff_exists.mp hrep.pos
  obtain ⟨l, hl⟩ := Option.isSome_iff_exists.mp hrep.lo
  obtain ⟨r, hr⟩ := Option.isSome_iff_exists.mp hrep.hi
  rw [predict_eq hrep.product, hp, hl, hr] at hnone
  cases hnone

end SubModel

/-- The leaves of a key are found with defined conversions, and are leaves of the chosen model. -/
def RolexModel.Locates (R : RolexModel) (key : Nat) : Prop :=
  ∃ model, R.models[R.modelId key]? = some model ∧ model.Representable key
    ∧ ∃ l r leafIdxOffset capacityOffset,
        R.getLeafRange key = some (l, r, leafIdxOffset, capacityOffset)
        ∧ l ≤ r ∧ r ≤ (model.capacity - 1) / leafSpanSize

/--
All conversions for a key are defined, and its range of leaves is one of the chosen model, if and
only if there are two models and the line of the chosen one is not negative at the key and below
2^63.
-/
theorem getLeafRange_defined_iff (keys : List Nat) (hs : keys.Pairwise (· < ·))
    (hlen : keys.length < 2 ^ 31)
    : ∃ R, RolexModel.train keys = some R ∧ ∀ key, R.Locates key
        ↔ 2 ≤ R.models.length ∧ ∃ model, R.models[R.modelId key]? = some model
            ∧ model.slope * key < 2 ^ 63 ∧ 0 ≤ model.slope * key + ⌈model.intercept⌉ := by
  obtain ⟨R, segs, hR, htr, hflat⟩ := RolexModel.train_spec hs (by omega)
  have h : RolexCache.Trained ⟨R, keys⟩ segs := ⟨htr, hflat, hs, by dsimp only; omega⟩
  have hlength := h.length_models
  refine ⟨R, hR, ?_⟩
  intro key
  simp only [← SubModel.defined_iff]
  constructor
  . rintro ⟨model, hmodel, hrep, l, r, o, c, hrange, -⟩
    obtain ⟨hi, rfl⟩ := List.getElem?_eq_some_iff.mp hmodel
    have hmodelTrained := htr.models.get hi (by rw [← hlength]; exact hi)
    constructor
    . by_contra hlt
      have hkeys : R.modelKeys.length ≤ 1 := by
        have := h.length_modelKeys
        dsimp only at this hlength
        omega
      simp [RolexModel.getLeafRange, RolexModel.modelForKey, binarySearchBranchless_single hkeys] at hrange
    . refine ⟨_, hmodel, ?_⟩
      by_contra hdef
      exact hmodelTrained.not_representable hdef hrep
  . rintro ⟨htwo, model, hmodel, hdef⟩
    have hi : R.modelId key < segs.length := (h.modelForKey (by rw [← hlength]; exact htwo) key).2
    obtain ⟨lo, hi', offset, hrange, hlo, hhi, hhi'⟩ := h.getLeafRange (by rw [← hlength]; exact htwo) hi rfl
      hmodel hdef
    obtain ⟨himodel, rfl⟩ := List.getElem?_eq_some_iff.mp hmodel
    have hmodelTrained := htr.models.get himodel hi
    obtain ⟨hsorted, -⟩ := h.seg_sorted (List.getElem_mem hi)
    have hshort : segs[R.modelId key].length < 2 ^ 31 := by
      have := (List.sublist_flatten_of_mem (List.getElem_mem hi)).length_le
      rw [hflat] at this
      omega
    refine ⟨_, hmodel, hmodelTrained.representable hsorted hshort hdef, _, _, _, _, hrange, ?_, ?_⟩
    . exact Nat.div_le_div_right (hlo.trans hhi)
    . have hcapacity := hmodelTrained.capacity
      simp only [List.get_eq_getElem] at hcapacity
      rw [hcapacity]
      exact Nat.div_le_div_right hhi'

theorem getLeafRange_defined_iff_two
    : ∃ R, RolexModel.train RolexModel.twoSegments = some R ∧ R.models.length = 2 ∧ R.modelId 1000015 = 1
        ∧ R.Locates 1000015 := by
  have hrun : (RolexModel.train RolexModel.twoSegments).bind (fun R =>
      R.models[R.modelId 1000015]?.map (fun model : SubModel => decide (R.models.length = 2 ∧ R.modelId 1000015 = 1
        ∧ model.slope * (1000015 : Nat) < 2 ^ 63 ∧ 0 ≤ model.slope * (1000015 : Nat) + ⌈model.intercept⌉)))
      = some true := by
    decide +kernel
  obtain ⟨R, hR, hrun⟩ := Option.bind_eq_some_iff.mp hrun
  obtain ⟨model, hmodel, hP⟩ := Option.map_eq_some_iff.mp hrun
  obtain ⟨htwo, hid, hdefined⟩ := of_decide_eq_true hP
  obtain ⟨R', hR', h⟩ := getLeafRange_defined_iff RolexModel.twoSegments (by decide) (by decide)
  cases hR.symm.trans hR'
  exact ⟨R, hR, htwo, hid, (h 1000015).mpr ⟨htwo.ge, model, hmodel, hdefined⟩⟩

-- 500000 lies in the gap before the second segment, whose line is far below zero there
theorem gap_position_not_representable
    : ∃ R model, RolexModel.train
          ((List.range 32).map (· + 1) ++ (List.range 16).map (fun i => 1000000 + 10 * i)) = some R
        ∧ R.models[R.modelId 500000]? = some model ∧ toSize (model.pos 500000) = none
        ∧ R.getLeafRange 500000 = none ∧ ¬R.Locates 500000 := by
  refine ⟨_, _, Option.get_mem (o := RolexModel.train _) (by decide +kernel),
    Option.get_mem (o := _[_]?) (by decide +kernel), by decide +kernel, by decide +kernel, ?_⟩
  rintro ⟨model, -, -, l, r, o, c, hrange, -⟩
  have hnone : RolexModel.getLeafRange (Option.get (RolexModel.train
      ((List.range 32).map (· + 1) ++ (List.range 16).map (fun i => 1000000 + 10 * i)))
        (by decide +kernel)) 500000 = none := by
    decide +kernel
  rw [hnone] at hrange
  cases hrange

end Conversions

end Rolex

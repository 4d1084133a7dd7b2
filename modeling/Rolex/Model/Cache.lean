import Rolex.Index.Basic
import Rolex.Model.BinarySearch
import Rolex.Model.Train
import Mathlib.Data.List.Destutter
import Mathlib.Data.List.Sort
import Mathlib.Data.Rat.Floor

/-!
This module contains the prediction of the model (`LinearRegressionModel::predict`) and `RolexCache`,
which finds the leaves of a key, and when the leaf that a key is inserted into is among those that a
search of the key reads. Slopes, intercepts and their products with keys are exact.
-/

namespace Rolex

/-- The integer that a conversion from `double` leaves. -/
def trunc (x : Rat) : Int := if 0 ≤ x then ⌊x⌋ else ⌈x⌉

/-- `int64_t(x)`, not defined if the result does not fit. -/
def toInt64 (x : Rat) : Option Int :=
  if -2 ^ 63 ≤ trunc x ∧ trunc x < 2 ^ 63 then some (trunc x) else none

/-- `static_cast<size_t>(x)`, not defined if the result does not fit. -/
def toSize (x : Rat) : Option Nat :=
  if 0 ≤ trunc x ∧ trunc x < 2 ^ 64 then some (trunc x).toNat else none

def subEps (x epsilon : Rat) : Rat := if x ≤ epsilon then 0 else x - epsilon

def addEps (x epsilon size : Rat) : Rat :=
  if x + epsilon + 2 ≥ size then size - 1 else x + epsilon + 2

namespace SubModel

/-- `LinearRegressionModel::predict`: the position of the key with the range around it. -/
def predict (model : SubModel) (k size : Nat) : Option (Nat × Nat × Nat) := do
  let product ← toInt64 (model.slope * k)
  let pos := product + model.intercept
  let lo := subEps pos epsilon
  let hi := addEps pos epsilon size
  let lo := if lo > hi then hi else lo
  return (← toSize pos, ← toSize lo, ← toSize hi)

def getPredictRange (model : SubModel) (key : Nat) : Option (Nat × Nat) := do
  let (_, lo, hi) ← model.predict key model.capacity
  return (max (lo / leafSpanSize) 0, max (hi / leafSpanSize) 0)

end SubModel

namespace RolexModel

def modelForKey (R : RolexModel) (key : Nat) : Option Nat := do
  let idx ← binarySearchBranchless R.modelKeys key
  return if idx < R.models.length then idx else R.models.length - 1

def getLeafRange (R : RolexModel) (key : Nat) : Option (Nat × Nat × Nat × Nat) := do
  let modelId ← R.modelForKey key
  let model ← R.models[modelId]?
  let (l, r) ← model.getPredictRange key
  return (l, r, ← R.leafIdxOffsets[modelId]?, ← R.capacityOffsets[modelId]?)

end RolexModel

structure RolexCache where
  rolexModel : RolexModel
  intKeys : List Nat

namespace RolexCache

/-- The constructor: the keys are sorted and `std::unique` drops the repetitions. -/
def new (loadKeys : List Key) : Option RolexCache := do
  let intKeys := (loadKeys.map key2int).insertionSort (· ≤ ·)
  let intKeys := (intKeys.destutter (· ≠ ·)).insertionSort (· ≤ ·)
  return ⟨← RolexModel.train intKeys, intKeys⟩

def searchFromCache (C : RolexCache) (k : Key) : Option (Nat × Nat) := do
  let (l, r, leafIdxOffset, _) ← C.rolexModel.getLeafRange (key2int k)
  return (leafIdxOffset + l, leafIdxOffset + r)

/-- `search_from_cache_for_insert`, `none` if its assertion fails. -/
def searchFromCacheForInsert (C : RolexCache) (k : Key) : Option (Nat × Nat × Nat) := do
  let key := key2int k
  let (l, r, leafIdxOffset, capacityOffset) ← C.rolexModel.getLeafRange key
  let globalKeyIdx := lowerBound C.intKeys key
  let insertIdx := ((globalKeyIdx : Int) - capacityOffset).tdiv leafSpanSize
  if insertIdx ≥ l ∧ insertIdx ≤ r then
    return (leafIdxOffset + l, leafIdxOffset + r, leafIdxOffset + insertIdx.toNat)
  else
    none

theorem routed {C : RolexCache} {k : Key} {l r insertIdx : Nat}
    (h : C.searchFromCacheForInsert k = some (l, r, insertIdx))
    : C.searchFromCache k = some (l, r) ∧ l ≤ insertIdx ∧ insertIdx ≤ r := by
  unfold searchFromCacheForInsert at h
  unfold searchFromCache
  cases hrange : C.rolexModel.getLeafRange (key2int k) with
  | none => simp [hrange] at h
  | some res =>
    simp only [hrange, Option.bind_eq_bind, Option.bind_some, Option.pure_def] at h ⊢
    split at h
    . next hin =>
      simp only [Option.some.injEq, Prod.mk.injEq] at h
      obtain ⟨rfl, rfl, rfl⟩ := h
      refine ⟨rfl, ?_, ?_⟩
      . omega
      . omega
    . cases h

/-- What the index uses of the cache. -/
def toCache (C : RolexCache) : Cache where
  searchFromCache := C.searchFromCache
  searchFromCacheForInsert := C.searchFromCacheForInsert
  routed := routed

end RolexCache

end Rolex

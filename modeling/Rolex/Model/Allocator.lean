import Rolex.Lib.Region

/-!
This module contains `ModelAllocator`: the model count, the key slots and the offset slots in the first
`kUpperModel` bytes of the pool and the submodels behind them.
-/

namespace Rolex

def kUpperModel : Nat := 32 * 1024 * 1024

def sizeofU64 : Nat := 8

theorem sizeofU64_eq : sizeofU64 = 8 := rfl

/--
`ModelAllocator<K>` for a key type of `sizeofK` bytes. Addresses are offsets from `mem_pool`. The
constructor asserts that the pool is larger than `kUpperModel`.
-/
structure ModelAllocator (sizeofK : Nat) where
  totalSz : Nat
  curAllocSz : Nat
  upperAllocNum : Nat
  deriving DecidableEq

namespace ModelAllocator

variable {sizeofK : Nat}

/-- The constructor, `none` when its assertion fails. -/
def new (sizeofK : Nat) (totalSz : UInt64) : Option (ModelAllocator sizeofK) :=
  if totalSz.toNat > kUpperModel then some ⟨totalSz.toNat, kUpperModel, 0⟩ else none

/-- What the constructor stores in `max_upper_num`. -/
def maxUpperNum (sizeofK : Nat) : Nat :=
  min ((kUpperModel / 2 - sizeofU64) / sizeofK) (kUpperModel / 2 / sizeofU64)

/-- The first 8 bytes, which hold the number of models. -/
def countRegion : Region := ⟨0, sizeofU64⟩

/-- `get_upper`, the slots of the key and of the offset. -/
def getUpper (sizeofK idx : Nat) : Region × Region :=
  (⟨sizeofU64 + idx * sizeofK, sizeofK⟩, ⟨kUpperModel / 2 + sizeofU64 * idx, sizeofU64⟩)

/-- `alloc_upper`, `none` when its assertion fails. -/
def allocUpper (a : ModelAllocator sizeofK)
    : Option ((Region × Region) × ModelAllocator sizeofK) :=
  if a.upperAllocNum > maxUpperNum sizeofK then
    none
  else
    let allocNum := a.upperAllocNum
    some ((⟨sizeofU64 + sizeofK * allocNum, sizeofK⟩,
        ⟨sizeofU64 * allocNum + kUpperModel / 2, sizeofU64⟩),
      { a with upperAllocNum := allocNum + 1 })

/-- `alloc_submodel`, `none` when its assertion fails. The size is a `usize` of 32 bits, the sums are of `u64`. -/
def allocSubmodel (a : ModelAllocator sizeofK) (allocSize : UInt32)
    : Option (Region × ModelAllocator sizeofK) :=
  if (a.curAllocSz + allocSize.toNat) % 2 ^ 64 > a.totalSz then
    none
  else
    let res := a.curAllocSz
    some (⟨res, allocSize.toNat⟩, { a with curAllocSz := (a.curAllocSz + allocSize.toNat) % 2 ^ 64 })

inductive Call where
  | allocUpper
  | allocSubmodel (allocSize : UInt32)
  deriving DecidableEq

/-- The regions that calls hand out, in their order, `none` when one of them aborts. -/
def run : List Call → ModelAllocator sizeofK → Option (List Region × ModelAllocator sizeofK)
  | [], a => some ([], a)
  | .allocUpper :: calls, a => do
    let ((key, offset), a) ← a.allocUpper
    let (regions, a) ← run calls a
    return (key :: offset :: regions, a)
  | .allocSubmodel allocSize :: calls, a => do
    let (body, a) ← a.allocSubmodel allocSize
    let (regions, a) ← run calls a
    return (body :: regions, a)

def uppers (calls : List Call) : Nat := calls.count .allocUpper

def sizes (calls : List Call) : List Nat :=
  calls.filterMap fun
    | .allocUpper => none
    | .allocSubmodel allocSize => some allocSize.toNat

section Slots

/-- The key slots of `n` models, from number `first` on. -/
def keySlots (sizeofK first n : Nat) : List Region :=
  (List.range' first n).map fun i => ⟨sizeofU64 + sizeofK * i, sizeofK⟩

def offsetSlots (first n : Nat) : List Region :=
  (List.range' first n).map fun i => ⟨sizeofU64 * i + kUpperModel / 2, sizeofU64⟩

/-- The submodels of the given sizes, one behind the other from `cur` on. -/
def bodies (cur : Nat) : List Nat → List Region
  | [] => []
  | size :: sizes => ⟨cur, size⟩ :: bodies ((cur + size) % 2 ^ 64) sizes

theorem run_eq_some {calls : List Call} {a a' : ModelAllocator sizeofK} {regions : List Region}
    (h : run calls a = some (regions, a'))
    : regions.Perm (keySlots sizeofK a.upperAllocNum (uppers calls)
          ++ offsetSlots a.upperAllocNum (uppers calls) ++ bodies a.curAllocSz (sizes calls))
      ∧ (a.upperAllocNum ≤ maxUpperNum sizeofK + 1
          → a.upperAllocNum + uppers calls ≤ maxUpperNum sizeofK + 1) := by
  induction calls generalizing a regions with
  | nil =>
    obtain ⟨rfl, rfl⟩ := Prod.mk.injEq .. ▸ Option.some.inj h
    exact ⟨.refl _, id⟩
  | cons call calls ih =>
    cases call with
    | allocUpper =>
      simp only [run, allocUpper, Option.bind_eq_bind] at h
      split at h
      . cases h
      . next hle =>
        rw [Option.bind_some] at h
        obtain ⟨⟨rest, a₁⟩, hrest, heq⟩ := Option.bind_eq_some_iff.mp h
        obtain ⟨rfl, rfl⟩ := Prod.mk.injEq .. ▸ Option.some.inj heq
        obtain ⟨hperm, hnum⟩ := ih hrest
        have hup : uppers (.allocUpper :: calls) = uppers calls + 1 := List.count_cons_self
        constructor
        . rw [hup]
          simp only [keySlots, offsetSlots, List.range'_succ, List.map_cons, sizes,
            List.filterMap_cons, List.cons_append, List.append_assoc]
          apply List.Perm.cons
          refine (List.Perm.cons _ hperm).trans ?_
          rw [List.append_assoc]
          exact List.perm_middle.symm
        . intro _
          have := hnum (by simp only; omega)
          simp only at this
          rw [hup]
          omega
    | allocSubmodel allocSize =>
      simp only [run, allocSubmodel, Option.bind_eq_bind] at h
      split at h
      . cases h
      . rw [Option.bind_some] at h
        obtain ⟨⟨rest, a₁⟩, hrest, heq⟩ := Option.bind_eq_some_iff.mp h
        obtain ⟨rfl, rfl⟩ := Prod.mk.injEq .. ▸ Option.some.inj heq
        obtain ⟨hperm, hnum⟩ := ih hrest
        have hup : uppers (.allocSubmodel allocSize :: calls) = uppers calls := by
          unfold uppers
          rw [List.count_cons_of_ne (by simp)]
        rw [hup]
        refine ⟨?_, hnum⟩
        simp only [sizes, List.filterMap_cons, bodies]
        exact (List.Perm.cons _ hperm).trans List.perm_middle.symm

/-- Below the last 4 GB of the 64-bit offsets a sum does not wrap, and the test of `alloc_submodel` is exact. -/
theorem sum_le_of_run {calls : List Call} {a a' : ModelAllocator sizeofK} {regions : List Region}
    (hpool : a.totalSz + 2 ^ 32 ≤ 2 ^ 64) (hcur : a.curAllocSz ≤ a.totalSz)
    (h : run calls a = some (regions, a'))
    : a.curAllocSz + (sizes calls).sum ≤ a.totalSz := by
  induction calls generalizing a a' regions with
  | nil => exact hcur
  | cons call calls ih =>
    cases call with
    | allocUpper =>
      obtain ⟨⟨slots, a₁⟩, halloc, h⟩ := Option.bind_eq_some_iff.mp h
      obtain ⟨⟨rest, a₂⟩, hrest, -⟩ := Option.bind_eq_some_iff.mp h
      unfold allocUpper at halloc
      split at halloc
      . cases halloc
      . cases halloc
        exact @ih { a with upperAllocNum := a.upperAllocNum + 1 } _ _ hpool hcur hrest
    | allocSubmodel allocSize =>
      obtain ⟨⟨body, a₁⟩, halloc, h⟩ := Option.bind_eq_some_iff.mp h
      obtain ⟨⟨rest, a₂⟩, hrest, -⟩ := Option.bind_eq_some_iff.mp h
      have hsize := allocSize.toNat_lt
      unfold allocSubmodel at halloc
      rw [Nat.mod_eq_of_lt (by omega)] at halloc
      split at halloc
      . cases halloc
      . next hle =>
        cases halloc
        have hsum := @ih { a with curAllocSz := a.curAllocSz + allocSize.toNat } _ _ hpool
          (by simp only; omega) hrest
        simp only [sizes, List.filterMap_cons, List.sum_cons] at hsum ⊢
        omega

theorem run_replicate {n : Nat} {a : ModelAllocator sizeofK}
    (h : a.upperAllocNum + n ≤ maxUpperNum sizeofK + 1)
    : ∃ regions a', run (List.replicate n .allocUpper) a = some (regions, a') := by
  induction n generalizing a with
  | zero => exact ⟨_, _, rfl⟩
  | succ n ih =>
    obtain ⟨regions, a', hrun⟩ := @ih { a with upperAllocNum := a.upperAllocNum + 1 }
      (by simp only; omega)
    simp only [List.replicate_succ, run, allocUpper, Option.bind_eq_bind]
    rw [if_neg (by omega), Option.bind_some, hrun]
    exact ⟨_, _, rfl⟩

end Slots

section Apart

/-- Pairwise disjoint and inside the pool. -/
def Apart (totalSz : Nat) (regions : List Region) : Prop :=
  regions.Pairwise Region.Disjoint ∧ ∀ r ∈ regions, r.start + r.len ≤ totalSz

/-- `n` models whose submodels take `sum` bytes: the keys end before the offsets, which end before the
submodels, and these before the end of the pool. -/
def Fits (sizeofK totalSz n sum : Nat) : Prop :=
  (n = 0 ∨ sizeofU64 + sizeofK * n ≤ kUpperModel / 2)
    ∧ (sizeofU64 * n ≤ kUpperModel / 2 ∨ sum = 0 ∧ kUpperModel / 2 + sizeofU64 * n ≤ totalSz)
    ∧ kUpperModel + sum ≤ totalSz

theorem kUpperModel_half : kUpperModel / 2 = sizeofU64 * 2097152 := by decide

theorem kUpperModel_eq : kUpperModel = 2 * (kUpperModel / 2) := by decide

theorem mem_keySlots {first n : Nat} {r : Region} (h : r ∈ keySlots sizeofK first n)
    : sizeofU64 ≤ r.start ∧ r.start + r.len ≤ sizeofU64 + sizeofK * (first + n) := by
  obtain ⟨i, hi, rfl⟩ := List.mem_map.mp h
  rw [List.mem_range'_1] at hi
  have hmul := Nat.mul_le_mul_left sizeofK (show i + 1 ≤ first + n by omega)
  rw [Nat.mul_succ] at hmul
  simp only
  omega

theorem mem_offsetSlots {first n : Nat} {r : Region} (h : r ∈ offsetSlots first n)
    : kUpperModel / 2 ≤ r.start ∧ r.start + r.len ≤ kUpperModel / 2 + sizeofU64 * (first + n) := by
  obtain ⟨i, hi, rfl⟩ := List.mem_map.mp h
  rw [List.mem_range'_1] at hi
  simp only [sizeofU64_eq]
  omega

theorem pairwise_keySlots (first n : Nat) : (keySlots sizeofK first n).Pairwise Region.Disjoint := by
  apply Region.pairwise_disjoint_of_ordered
  unfold keySlots
  rw [List.pairwise_map]
  refine (List.pairwise_lt_range' _).imp ?_
  intro i j hij
  have hmul := Nat.mul_le_mul_left sizeofK (show i + 1 ≤ j by omega)
  rw [Nat.mul_succ] at hmul
  simp only
  omega

theorem pairwise_offsetSlots (first n : Nat) : (offsetSlots first n).Pairwise Region.Disjoint := by
  apply Region.pairwise_disjoint_of_ordered
  unfold offsetSlots
  rw [List.pairwise_map]
  refine (List.pairwise_lt_range' _).imp ?_
  intro i j hij
  simp only [sizeofU64_eq]
  omega

theorem mem_bodies {cur totalSz : Nat} {sizes : List Nat} (htotal : totalSz < 2 ^ 64)
    (h : cur + sizes.sum ≤ totalSz)
    : ∀ r ∈ bodies cur sizes, cur ≤ r.start ∧ r.start + r.len ≤ totalSz
        ∧ (sizes.sum = 0 → r.len = 0) := by
  induction sizes generalizing cur with
  | nil => simp [bodies]
  | cons size sizes ih =>
    rw [List.sum_cons] at h ⊢
    have hmod : (cur + size) % 2 ^ 64 = cur + size := Nat.mod_eq_of_lt (by omega)
    intro r hr
    rw [bodies, hmod, List.mem_cons] at hr
    rcases hr with rfl | hr
    . simp only
      omega
    . have := ih (by omega) r hr
      omega

theorem pairwise_bodies {cur totalSz : Nat} {sizes : List Nat} (htotal : totalSz < 2 ^ 64)
    (h : cur + sizes.sum ≤ totalSz)
    : (bodies cur sizes).Pairwise Region.Disjoint := by
  induction sizes generalizing cur with
  | nil => exact .nil
  | cons size sizes ih =>
    rw [List.sum_cons] at h
    have hmod : (cur + size) % 2 ^ 64 = cur + size := Nat.mod_eq_of_lt (by omega)
    rw [bodies, hmod, List.pairwise_cons]
    refine ⟨fun r hr => ?_, ih (by omega)⟩
    exact Region.disjoint_of_le (mem_bodies htotal (by omega) r hr).1

theorem sum_le_of_bodies {cur totalSz : Nat} {sizes : List Nat} (htotal : totalSz < 2 ^ 64)
    (hcur : cur ≤ totalSz) (h : ∀ r ∈ bodies cur sizes, r.start + r.len ≤ totalSz)
    : cur + sizes.sum ≤ totalSz := by
  induction sizes generalizing cur with
  | nil => simpa using hcur
  | cons size sizes ih =>
    rw [bodies, List.forall_mem_cons] at h
    have hfirst : cur + size ≤ totalSz := h.1
    rw [Nat.mod_eq_of_lt (by omega)] at h
    have := ih hfirst h.2
    rw [List.sum_cons]
    omega

theorem exists_body {cur : Nat} {sizes : List Nat} (hcur : cur < 2 ^ 64) (h : sizes.sum ≠ 0)
    : ∃ r ∈ bodies cur sizes, cur ∈ r := by
  induction sizes with
  | nil => simp at h
  | cons size sizes ih =>
    rw [bodies]
    by_cases hsize : size = 0
    . subst hsize
      rw [List.sum_cons, Nat.zero_add] at h
      obtain ⟨r, hr, hmem⟩ := ih h
      rw [Nat.add_zero, Nat.mod_eq_of_lt hcur]
      exact ⟨r, List.mem_cons_of_mem _ hr, hmem⟩
    . refine ⟨_, List.mem_cons_self, ?_⟩
      rw [Region.mem_iff]
      simp only
      omega

theorem apart_iff {totalSz n : Nat} {sizes : List Nat} (htotal : totalSz < 2 ^ 64)
    (hupper : kUpperModel < totalSz)
    : Apart totalSz (countRegion
          :: (keySlots sizeofK 0 n ++ offsetSlots 0 n ++ bodies kUpperModel sizes))
        ↔
      Fits sizeofK totalSz n sizes.sum := by
  have hhalf := kUpperModel_half
  have hU := kUpperModel_eq
  have h8 := sizeofU64_eq
  unfold Apart
  simp only [List.pairwise_cons, List.pairwise_append, List.forall_mem_cons, List.mem_append]
  constructor
  . rintro ⟨⟨-, ⟨-, -, hko⟩, -, hub⟩, -, hin⟩
    refine ⟨?_, ?_, ?_⟩
    . apply Classical.byContradiction
      intro hno
      -- the first byte of the offset slots is in a key slot
      have hlt : kUpperModel / 2 - sizeofU64 < sizeofK * n := by omega
      have hK : 0 < sizeofK := Nat.pos_of_mul_pos_right (Nat.lt_of_le_of_lt (Nat.zero_le _) hlt)
      have hdiv := Nat.div_add_mod (kUpperModel / 2 - sizeofU64) sizeofK
      have hmod := Nat.mod_lt (kUpperModel / 2 - sizeofU64) hK
      have hi : (kUpperModel / 2 - sizeofU64) / sizeofK < n := Nat.div_lt_of_lt_mul hlt
      apply hko _ (List.mem_map_of_mem (List.mem_range'_1.mpr ⟨Nat.zero_le _, by rwa [Nat.zero_add]⟩))
        _ (List.mem_map_of_mem (List.mem_range'_1.mpr ⟨Nat.le_refl 0, by omega⟩)) (kUpperModel / 2)
      . rw [Region.mem_iff]
        simp only
        omega
      . rw [Region.mem_iff]
        simp only
        omega
    . apply Classical.byContradiction
      intro hno
      rw [h8] at hno hhalf
      have hend : kUpperModel / 2 + 8 * n ≤ totalSz := by
        have := hin _ (.inl (.inr (List.mem_map_of_mem (List.mem_range'_1.mpr
          ⟨Nat.zero_le (n - 1), by omega⟩))))
        simp only [h8] at this
        omega
      -- the first byte of the submodels is in an offset slot
      obtain ⟨r, hr, hmem⟩ := @exists_body kUpperModel sizes (by omega) (by omega)
      apply hub _ (.inr (List.mem_map_of_mem (List.mem_range'_1.mpr
        ⟨Nat.zero_le 2097152, by omega⟩))) r hr kUpperModel _ hmem
      rw [Region.mem_iff]
      simp only
      omega
    . exact sum_le_of_bodies htotal (by omega) (fun r hr => hin r (.inr hr))
  . rintro ⟨hkey, hoff, hsum⟩
    have hbody := mem_bodies htotal hsum
    have hko : ∀ r ∈ keySlots sizeofK 0 n, r.start + r.len ≤ kUpperModel / 2 := by
      intro r hr
      have hmem := mem_keySlots hr
      rw [Nat.zero_add] at hmem
      rcases hkey with rfl | hkey
      . cases hr
      . omega
    refine ⟨⟨?_, ⟨pairwise_keySlots 0 n, pairwise_offsetSlots 0 n, ?_⟩,
      pairwise_bodies htotal hsum, ?_⟩, ?_, ?_⟩
    . rintro r ((hr | hr) | hr)
      . exact Region.disjoint_of_le (mem_keySlots hr).1
      . apply Region.disjoint_of_le
        have := (mem_offsetSlots hr).1
        simp only [countRegion]
        omega
      . apply Region.disjoint_of_le
        have := (hbody r hr).1
        simp only [countRegion]
        omega
    . intro r hr s hs
      exact Region.disjoint_of_le (Nat.le_trans (hko r hr) (mem_offsetSlots hs).1)
    . rintro r (hr | hr) s hs
      . apply Region.disjoint_of_le
        have := hko r hr
        have := (hbody s hs).1
        omega
      . have hmem := mem_offsetSlots hr
        rw [Nat.zero_add] at hmem
        rcases hoff with hoff | ⟨hzero, -⟩
        . apply Region.disjoint_of_le
          have := (hbody s hs).1
          omega
        . exact Region.disjoint_of_len_eq_zero ((hbody s hs).2.2 hzero)
    . simp only [countRegion]
      omega
    . rintro r ((hr | hr) | hr)
      . have := hko r hr
        omega
      . have hmem := mem_offsetSlots hr
        rw [Nat.zero_add] at hmem
        omega
      . exact (hbody r hr).2.1

/-- For keys of at least 8 bytes the key slots are the ones that run out. -/
theorem fits_iff {totalSz n sum : Nat} (hK : sizeofU64 ≤ sizeofK)
    : Fits sizeofK totalSz n sum ↔ n ≤ maxUpperNum sizeofK ∧ kUpperModel + sum ≤ totalSz := by
  have hhalf := kUpperModel_half
  have h8 := sizeofU64_eq
  have hle : sizeofU64 * n ≤ sizeofK * n := Nat.mul_le_mul_right n hK
  have hmax : n ≤ maxUpperNum sizeofK ↔ sizeofK * n ≤ kUpperModel / 2 - sizeofU64 := by
    unfold maxUpperNum
    rw [Nat.le_min, Nat.le_div_iff_mul_le (by omega), Nat.le_div_iff_mul_le (by omega),
      Nat.mul_comm n sizeofK, Nat.mul_comm n sizeofU64]
    omega
  rw [hmax]
  unfold Fits
  constructor
  . rintro ⟨hkey, -, hsum⟩
    refine ⟨?_, hsum⟩
    rcases hkey with rfl | hkey
    . omega
    . omega
  . rintro ⟨hkey, hsum⟩
    exact ⟨.inr (by omega), .inl (by omega), hsum⟩

variable {totalSz : UInt64} {a a' : ModelAllocator sizeofK} {calls : List Call} {regions : List Region}

theorem apart_run_iff (hnew : new sizeofK totalSz = some a) (hrun : run calls a = some (regions, a'))
    : Apart totalSz.toNat (countRegion :: regions)
        ↔
      Fits sizeofK totalSz.toNat (uppers calls) (sizes calls).sum := by
  unfold new at hnew
  split at hnew
  . next hupper =>
    obtain rfl := Option.some.inj hnew
    have hperm := List.Perm.cons countRegion (run_eq_some hrun).1
    rw [← apart_iff totalSz.toNat_lt hupper]
    unfold Apart
    rw [Region.pairwise_disjoint_perm hperm]
    apply and_congr_right
    intro _
    constructor
    . exact fun h r hr => h r (hperm.mem_iff.mpr hr)
    . exact fun h r hr => h r (hperm.mem_iff.mp hr)
  . cases hnew

theorem Apart.load_store {totalSz : Nat} {regions : List Region} (h : Apart totalSz regions)
    {i j : Nat} {r s : Region} (hij : i ≠ j) (hr : regions[i]? = some r) (hs : regions[j]? = some s)
    {α : Type} (mem : Nat → α) {bytes : List α} (hlen : bytes.length = r.len)
    : Region.load (Region.store mem r.start bytes) s = Region.load mem s := by
  apply Region.load_store_of_disjoint
  rw [hlen]
  obtain ⟨hi, rfl⟩ := List.getElem?_eq_some_iff.mp hr
  obtain ⟨hj, rfl⟩ := List.getElem?_eq_some_iff.mp hs
  rcases Nat.lt_or_gt_of_ne hij with hlt | hgt
  . exact List.pairwise_iff_getElem.mp h.1 i j hi hj hlt
  . exact (List.pairwise_iff_getElem.mp h.1 j i hj hi hgt).symm

/--
The regions that calls hand out, with the model count, are pairwise disjoint and inside the pool exactly
if they fit. For keys of at least 8 bytes this is so up to `max_upper_num` models, one less than
`alloc_upper` allows. The submodels end inside the pool in any case, as sizes of 32 bits do not wrap the sum.
-/
theorem handed_out_apart_iff (hnew : new sizeofK totalSz = some a)
    (hrun : run calls a = some (regions, a'))
    : (Apart totalSz.toNat (countRegion :: regions)
          ↔ Fits sizeofK totalSz.toNat (uppers calls) (sizes calls).sum)
      ∧ (totalSz.toNat + 2 ^ 32 ≤ 2 ^ 64 → kUpperModel + (sizes calls).sum ≤ totalSz.toNat)
      ∧ (totalSz.toNat + 2 ^ 32 ≤ 2 ^ 64 → sizeofU64 ≤ sizeofK →
          (Apart totalSz.toNat (countRegion :: regions) ↔ uppers calls ≤ maxUpperNum sizeofK))
      ∧ uppers calls ≤ maxUpperNum sizeofK + 1
      ∧ (Apart totalSz.toNat (countRegion :: regions) →
          ∀ {i j : Nat} {r s : Region}, i ≠ j → (countRegion :: regions)[i]? = some r →
            (countRegion :: regions)[j]? = some s →
            ∀ (mem : Nat → BitVec 8) (bytes : List (BitVec 8)), bytes.length = r.len →
              Region.load (Region.store mem r.start bytes) s = Region.load mem s) := by
  have hiff := apart_run_iff hnew hrun
  unfold new at hnew
  split at hnew
  . next hupper =>
    obtain rfl := Option.some.inj hnew
    have hsum (hpool : totalSz.toNat + 2 ^ 32 ≤ 2 ^ 64) := sum_le_of_run hpool (Nat.le_of_lt hupper) hrun
    refine ⟨hiff, hsum, ?_, by simpa using (run_eq_some hrun).2,
      fun h i j r s hij hr hs mem bytes hlen => h.load_store hij hr hs mem hlen⟩
    intro hpool hK
    rw [hiff, fits_iff hK]
    exact and_iff_left (hsum hpool)
  . cases hnew

theorem handed_out_apart_iff_two
    : ∃ a a' : ModelAllocator 16, ∃ regions, new 16 40000000 = some a
        ∧ run [.allocSubmodel 100, .allocUpper, .allocSubmodel 200, .allocUpper] a = some (regions, a')
        ∧ regions.length = 6 ∧ Apart (40000000 : UInt64).toNat (countRegion :: regions) := by
  have hnew : new 16 40000000 = some ⟨40000000, kUpperModel, 0⟩ := by decide +kernel
  have hrun : run [.allocSubmodel 100, .allocUpper, .allocSubmodel 200, .allocUpper]
        (⟨40000000, kUpperModel, 0⟩ : ModelAllocator 16)
      = some ([⟨kUpperModel, 100⟩, ⟨8, 16⟩, ⟨kUpperModel / 2, 8⟩, ⟨kUpperModel + 100, 200⟩, ⟨24, 16⟩,
          ⟨kUpperModel / 2 + 8, 8⟩], ⟨40000000, kUpperModel + 300, 2⟩) := by
    decide +kernel
  have h := handed_out_apart_iff hnew hrun
  exact ⟨_, _, _, hnew, hrun, rfl, (h.2.2.1 (by decide) (by decide)).mpr (by decide)⟩

-- the call that the comparison with max_upper_num lets through: its key slot is the first offset slot
theorem last_upper_overlaps
    : ∃ a a' : ModelAllocator 8, ∃ regions, new 8 40000000 = some a
        ∧ run (List.replicate 2097152 .allocUpper) a = some (regions, a')
        ∧ ¬ Apart (40000000 : UInt64).toNat (countRegion :: regions) := by
  have hnew : new 8 40000000 = some ⟨40000000, kUpperModel, 0⟩ := by decide +kernel
  obtain ⟨regions, a', hrun⟩ := @run_replicate 8 2097152 ⟨40000000, kUpperModel, 0⟩
    (by decide +kernel)
  refine ⟨_, a', regions, hnew, hrun, ?_⟩
  have hup : uppers (List.replicate 2097152 .allocUpper) = 2097152 := List.count_replicate_self
  rw [apart_run_iff hnew hrun, hup]
  rintro ⟨hkey, -⟩
  exact absurd hkey (by decide +kernel)

end Apart

end ModelAllocator

end Rolex

import Rolex.Model.Region

/-!
This module contains which part of a trained instance a second one gets from the model region.
-/

namespace Rolex

namespace ModelRegion

open Marshal
open ModelAllocator (getUpper)
open MemoryNode (kSynonymMax)

namespace RemoteMemory

variable {sizeofK : Nat} {rm rm' : RemoteMemory sizeofK}

theorem copyIn_eq_some {start : Nat} {data : List Byte}
    : rm.copyIn start data = some rm'
        ↔
      start + data.length ≤ rm.alloc.totalSz ∧ rm' = { rm with mem := Region.store rm.mem start data } := by
  unfold copyIn
  split
  . next h =>
    rw [Option.some.injEq]
    exact ⟨fun heq => ⟨h, heq.symm⟩, fun heq => heq.2.symm⟩
  . next h => exact ⟨nofun, fun heq => absurd heq.1 h⟩

theorem copyOut_of_le {r : Region} (h : r.start + r.len ≤ rm.alloc.totalSz)
    : rm.copyOut r = some (Region.load rm.mem r) := if_pos h

end RemoteMemory

section Append

variable {sizeofK : Nat}

/-- The region after `append_model` has written a model at `cur` and its upper slots. -/
def written (mem : Nat → Byte) (n key cur : Nat) (m : SubModel) : Nat → Byte :=
  Region.store (Region.store (Region.store (Region.store mem cur (bytes 4 m.serialize.length)) (cur + 4) m.serialize)
    (getUpper sizeofK n).1.start (bytes sizeofK key)) (getUpper sizeofK n).2.start (bytes sizeofU64 cur)

variable {round : Rat → Double} {unset : Nat → Fin kSynonymMax → BitVec 64} {I I' : Instance}
  {rm rm' : RemoteMemory sizeofK} {line : Rat × Rat} {keysBegin : List Nat} {size : Nat}

theorem getUpper_eq (n : Nat)
    : getUpper sizeofK n = (⟨sizeofU64 + sizeofK * n, sizeofK⟩, ⟨sizeofU64 * n + kUpperModel / 2, sizeofU64⟩) := by
  unfold getUpper
  rw [Nat.mul_comm n, Nat.add_comm (kUpperModel / 2)]

theorem appendModel_eq_some
    (h : appendModel round unset (I, rm) line keysBegin size = some (I', rm'))
    : ∃ key m leafNumSum capacitySum, keysBegin[size - 1]? = some key
        ∧ m = SubModel.new (round line.1) (round line.2) size (unset I.models.length)
        ∧ I.leafIdxOffsets.getLast? = some leafNumSum ∧ I.capacityOffsets.getLast? = some capacitySum
        ∧ I' = {
            modelKeys := I.modelKeys ++ [key]
            models := I.models ++ [m]
            leafIdxOffsets := I.leafIdxOffsets ++ [leafNumSum + m.ltable.table.length]
            capacityOffsets := I.capacityOffsets ++ [capacitySum + m.capacity] }
        ∧ rm'.alloc = { rm.alloc with
            curAllocSz := (rm.alloc.curAllocSz + (m.serialize.length + 4) % 2 ^ 32) % 2 ^ 64
            upperAllocNum := rm.alloc.upperAllocNum + 1 }
        ∧ rm'.mem = @written sizeofK rm.mem rm.alloc.upperAllocNum key rm.alloc.curAllocSz m := by
  unfold appendModel at h
  obtain ⟨key, hkey, h⟩ := Option.bind_eq_some_iff.mp h
  obtain ⟨leafNumSum, hleaf, h⟩ := Option.bind_eq_some_iff.mp h
  obtain ⟨capacitySum, hcapacity, h⟩ := Option.bind_eq_some_iff.mp h
  obtain ⟨⟨sub, alloc⟩, hsub, h⟩ := Option.bind_eq_some_iff.mp h
  obtain ⟨rm₁, h₁, h⟩ := Option.bind_eq_some_iff.mp h
  obtain ⟨rm₂, h₂, h⟩ := Option.bind_eq_some_iff.mp h
  obtain ⟨⟨⟨keySlot, offsetSlot⟩, alloc'⟩, hup, h⟩ := Option.bind_eq_some_iff.mp h
  obtain ⟨rm₃, h₃, h⟩ := Option.bind_eq_some_iff.mp h
  obtain ⟨rm₄, h₄, h⟩ := Option.bind_eq_some_iff.mp h
  rw [RemoteMemory.copyIn_eq_some] at h₁ h₂ h₃ h₄
  obtain ⟨_, rfl⟩ := h₁
  obtain ⟨_, rfl⟩ := h₂
  obtain ⟨_, rfl⟩ := h₃
  obtain ⟨_, rfl⟩ := h₄
  unfold ModelAllocator.allocSubmodel at hsub
  split at hsub
  . cases hsub
  . cases hsub
    unfold ModelAllocator.allocUpper at hup
    split at hup
    . cases hup
    . cases hup
      cases h
      refine ⟨key, _, leafNumSum, capacitySum, hkey, rfl, hleaf, hcapacity, rfl, rfl, ?_⟩
      unfold written
      rw [getUpper_eq]

end Append

section Filled

variable {sizeofK : Nat}

/-- The key slots end before the offset slots, these before the submodels, and these at the end of the pool. -/
structure Room (sizeofK totalSz n cur : Nat) : Prop where
  keys : sizeofU64 + sizeofK * n ≤ kUpperModel / 2
  offsets : sizeofU64 * n ≤ kUpperModel / 2
  low : kUpperModel ≤ cur
  high : cur ≤ totalSz
  total : totalSz < 2 ^ 64

/-- The model number `i` in the region. -/
structure StoredAt (sizeofK : Nat) (mem : Nat → Byte) (i key : Nat) (m : SubModel) (off cur : Nat) : Prop where
  key : Region.load mem (getUpper sizeofK i).1 = bytes sizeofK key
  offset : Region.load mem (getUpper sizeofK i).2 = bytes sizeofU64 off
  size : Region.load mem ⟨off, 4⟩ = bytes 4 m.serialize.length
  body : Region.load mem ⟨off + 4, m.serialize.length⟩ = m.serialize
  low : kUpperModel ≤ off
  high : off + (m.serialize.length + 4) ≤ cur

variable {mem : Nat → Byte} {n key cur totalSz : Nat} {m : SubModel}

theorem load_written {r : Region} (hsub : Region.Disjoint ⟨cur, m.serialize.length + 4⟩ r)
    (hkey : (getUpper sizeofK n).1.Disjoint r) (hoffset : (getUpper sizeofK n).2.Disjoint r)
    : Region.load (@written sizeofK mem n key cur m) r = Region.load mem r := by
  have hsize : Region.Disjoint ⟨cur, (bytes 4 m.serialize.length).length⟩ r := by
    intro x hx
    apply hsub
    rw [length_bytes] at hx
    rw [Region.mem_iff] at hx ⊢
    dsimp only at hx ⊢
    omega
  have hbody : Region.Disjoint ⟨cur + 4, m.serialize.length⟩ r := by
    intro x hx
    apply hsub
    rw [Region.mem_iff] at hx ⊢
    dsimp only at hx ⊢
    omega
  unfold written
  rw [Region.load_store_of_disjoint (by rw [length_bytes]; exact hoffset),
    Region.load_store_of_disjoint (by rw [length_bytes]; exact hkey), Region.load_store_of_disjoint hbody,
    Region.load_store_of_disjoint hsize]

theorem kUpperModel_eq_two_mul : kUpperModel = 2 * (kUpperModel / 2) := by decide

theorem storedAt_written (hroom : Room sizeofK totalSz (n + 1) (cur + (m.serialize.length + 4)))
    (hcur : kUpperModel ≤ cur)
    : StoredAt sizeofK (@written sizeofK mem n key cur m) n key m cur (cur + (m.serialize.length + 4)) := by
  have hkeys := hroom.keys
  have hoffsets := hroom.offsets
  have hhalf := kUpperModel_eq_two_mul
  rw [Nat.mul_succ] at hkeys hoffsets
  have hupper := @getUpper_eq sizeofK n
  have hko : (getUpper sizeofK n).2.Disjoint (getUpper sizeofK n).1 := by
    rw [hupper, Region.disjoint_comm]
    apply Region.disjoint_of_le
    dsimp only
    omega
  have hks (r : Region) (hr : cur ≤ r.start) : (getUpper sizeofK n).1.Disjoint r := by
    rw [hupper]
    apply Region.disjoint_of_le
    dsimp only
    omega
  have hos (r : Region) (hr : cur ≤ r.start) : (getUpper sizeofK n).2.Disjoint r := by
    rw [hupper]
    apply Region.disjoint_of_le
    dsimp only
    omega
  unfold written
  constructor
  . rw [Region.load_store_of_disjoint (by rw [length_bytes]; exact hko)]
    have hself := Region.load_store_self (Region.store (Region.store mem cur (bytes 4 m.serialize.length)) (cur + 4)
      m.serialize) (getUpper sizeofK n).1.start (bytes sizeofK key)
    rw [length_bytes] at hself
    exact hself
  . have hself := Region.load_store_self (Region.store (Region.store (Region.store mem cur
      (bytes 4 m.serialize.length)) (cur + 4) m.serialize) (getUpper sizeofK n).1.start (bytes sizeofK key))
      (getUpper sizeofK n).2.start (bytes sizeofU64 cur)
    rw [length_bytes] at hself
    exact hself
  . rw [Region.load_store_of_disjoint (by rw [length_bytes]; exact hos _ (Nat.le_refl _)),
      Region.load_store_of_disjoint (by rw [length_bytes]; exact hks _ (Nat.le_refl _)),
      Region.load_store_of_disjoint (@Region.disjoint_of_le ⟨cur, 4⟩ _ (Nat.le_refl _)).symm]
    have hself := Region.load_store_self mem cur (bytes 4 m.serialize.length)
    rw [length_bytes] at hself
    exact hself
  . rw [Region.load_store_of_disjoint (by rw [length_bytes]; exact hos _ (Nat.le_add_right _ _)),
      Region.load_store_of_disjoint (by rw [length_bytes]; exact hks _ (Nat.le_add_right _ _))]
    exact Region.load_store_self _ _ _
  . exact hcur
  . exact Nat.le_refl _

theorem load_written_body {r : Region} (hroom : Room sizeofK totalSz (n + 1) (cur + (m.serialize.length + 4)))
    (hlow : kUpperModel ≤ r.start) (hhigh : r.start + r.len ≤ cur)
    : Region.load (@written sizeofK mem n key cur m) r = Region.load mem r := by
  have hkeys := hroom.keys
  have hoffsets := hroom.offsets
  have hhalf := kUpperModel_eq_two_mul
  have hupper := @getUpper_eq sizeofK n
  rw [Nat.mul_succ] at hkeys hoffsets
  apply load_written
  . exact (Region.disjoint_of_le hhigh).symm
  . rw [hupper]
    apply Region.disjoint_of_le
    dsimp only
    omega
  . rw [hupper]
    apply Region.disjoint_of_le
    dsimp only
    omega

theorem load_written_upper {i : Nat} (hi : i < n)
    (hroom : Room sizeofK totalSz (n + 1) (cur + (m.serialize.length + 4))) (hcur : kUpperModel ≤ cur)
    : Region.load (@written sizeofK mem n key cur m) (getUpper sizeofK i).1 = Region.load mem (getUpper sizeofK i).1
        ∧ Region.load (@written sizeofK mem n key cur m) (getUpper sizeofK i).2
            = Region.load mem (getUpper sizeofK i).2 := by
  have hkeys := hroom.keys
  have hoffsets := hroom.offsets
  have hhalf := kUpperModel_eq_two_mul
  have hmul := Nat.mul_le_mul_left sizeofK (Nat.succ_le_of_lt hi)
  have hmul8 := Nat.mul_le_mul_left sizeofU64 (Nat.succ_le_of_lt hi)
  rw [Nat.mul_succ] at hkeys hoffsets hmul hmul8
  have hupper := @getUpper_eq sizeofK n
  rw [getUpper_eq i]
  constructor
  . apply load_written
    . apply (Region.disjoint_of_le _).symm
      dsimp only
      omega
    . rw [hupper]
      apply (Region.disjoint_of_le _).symm
      dsimp only
      omega
    . rw [hupper]
      apply (Region.disjoint_of_le _).symm
      dsimp only
      omega
  . apply load_written
    . apply (Region.disjoint_of_le _).symm
      dsimp only
      omega
    . rw [hupper]
      apply Region.disjoint_of_le
      dsimp only
      omega
    . rw [hupper]
      apply (Region.disjoint_of_le _).symm
      dsimp only
      omega

theorem StoredAt.written {i key' off : Nat} {m' : SubModel} (h : StoredAt sizeofK mem i key' m' off cur) (hi : i < n)
    (hroom : Room sizeofK totalSz (n + 1) (cur + (m.serialize.length + 4)))
    : StoredAt sizeofK (@written sizeofK mem n key cur m) i key' m' off (cur + (m.serialize.length + 4)) := by
  have hlow := h.low
  have hhigh := h.high
  obtain ⟨hkey, hoffset⟩ := @load_written_upper sizeofK mem n key cur totalSz m i hi hroom (by omega)
  constructor
  . rw [hkey, h.key]
  . rw [hoffset, h.offset]
  . rw [load_written_body hroom hlow (by dsimp only; omega), h.size]
  . rw [load_written_body hroom (by dsimp only; omega) (by dsimp only; omega), h.body]
  . exact hlow
  . omega

/-- The models of an instance in the region, one behind the other. -/
structure Filled (I : Instance) (rm : RemoteMemory sizeofK) : Prop where
  keys : I.modelKeys.length = I.models.length
  num : rm.alloc.upperAllocNum = I.models.length
  cur : rm.alloc.curAllocSz = kUpperModel + I.sizes.sum
  stored : ∀ i key m, I.modelKeys[i]? = some key → I.models[i]? = some m →
    ∃ off, StoredAt sizeofK rm.mem i key m off rm.alloc.curAllocSz

/-- There is room for the models of the instance, and their sizes are sizes that `alloc_submodel` takes. -/
structure Instance.HasRoom (I : Instance) (sizeofK totalSz : Nat) : Prop where
  room : Room sizeofK totalSz I.models.length (kUpperModel + I.sizes.sum)
  sizes : ∀ m ∈ I.models, m.serialize.length + 4 < 2 ^ 32

variable {round : Rat → Double} {unset : Nat → Fin kSynonymMax → BitVec 64} {I I' : Instance}
  {rm rm' : RemoteMemory sizeofK} {line : Rat × Rat} {keysBegin : List Nat} {size : Nat}

theorem Instance.HasRoom.of_append (h : I'.HasRoom sizeofK totalSz) {m : SubModel}
    (hmodels : I'.models = I.models ++ [m])
    : I.HasRoom sizeofK totalSz := by
  have hroom := h.room
  unfold Instance.sizes at hroom
  rw [hmodels] at hroom
  simp only [List.length_append, List.length_singleton, List.map_append, List.sum_append] at hroom
  have hkeys := hroom.keys
  have hoffsets := hroom.offsets
  have hhigh := hroom.high
  rw [Nat.mul_succ] at hkeys hoffsets
  constructor
  . unfold Instance.sizes
    exact ⟨by omega, by omega, by omega, by omega, hroom.total⟩
  . intro m' hm'
    apply h.sizes
    rw [hmodels]
    exact List.mem_append_left _ hm'

theorem Filled.append (h : I.HasRoom sizeofK rm.alloc.totalSz → Filled I rm)
    (happend : appendModel round unset (I, rm) line keysBegin size = some (I', rm'))
    (hroom : I'.HasRoom sizeofK rm'.alloc.totalSz)
    : Filled I' rm' := by
  obtain ⟨key, m, _, _, _, _, _, _, hI', halloc, hmem⟩ := appendModel_eq_some happend
  have hkeys : I'.modelKeys = I.modelKeys ++ [key] := by rw [hI']
  have hmodels : I'.models = I.models ++ [m] := by rw [hI']
  have htotal : rm'.alloc.totalSz = rm.alloc.totalSz := by rw [halloc]
  rw [htotal] at hroom
  have hfilled := h (hroom.of_append hmodels)
  have hsizes : I'.sizes.sum = I.sizes.sum + (m.serialize.length + 4) := by
    simp [Instance.sizes, hmodels]
  have hlen : I'.models.length = I.models.length + 1 := by rw [hmodels, List.length_append, List.length_singleton]
  have hsize : m.serialize.length + 4 < 2 ^ 32 := by
    apply hroom.sizes
    rw [hmodels]
    exact List.mem_append_right _ (List.mem_singleton_self m)
  replace hroom := hroom.room
  rw [hlen, hsizes, ← Nat.add_assoc, ← hfilled.cur, ← hfilled.num] at hroom
  have hcur : rm'.alloc.curAllocSz = rm.alloc.curAllocSz + (m.serialize.length + 4) := by
    rw [halloc]
    dsimp only
    rw [Nat.mod_eq_of_lt hsize]
    apply Nat.mod_eq_of_lt
    exact Nat.lt_of_le_of_lt hroom.high hroom.total
  constructor
  . rw [hkeys, hlen, List.length_append, List.length_singleton, hfilled.keys]
  . rw [halloc, hlen, ← hfilled.num]
  . rw [hcur, hsizes, hfilled.cur, Nat.add_assoc]
  . intro i key' m' hkey' hm'
    rw [hkeys] at hkey'
    rw [hmodels] at hm'
    rw [hmem, hcur]
    rcases Nat.lt_or_ge i I.models.length with hi | hi
    . rw [List.getElem?_append_left (hfilled.keys ▸ hi)] at hkey'
      rw [List.getElem?_append_left hi] at hm'
      obtain ⟨off, hstored⟩ := hfilled.stored i key' m' hkey' hm'
      exact ⟨off, hstored.written (hfilled.num ▸ hi) hroom⟩
    . have hlt := (List.getElem?_eq_some_iff.mp hm').1
      rw [List.length_append, List.length_singleton] at hlt
      have hi' : i = I.models.length := by omega
      subst hi'
      rw [List.getElem?_concat_length] at hm'
      rw [← hfilled.keys, List.getElem?_concat_length] at hkey'
      cases hm'
      cases hkey'
      rw [← hfilled.num]
      refine ⟨_, storedAt_written hroom ?_⟩
      rw [hfilled.cur]
      exact Nat.le_add_right _ _

theorem StoredAt.count {i off : Nat} (h : StoredAt sizeofK mem i key m off cur) (data : List Byte)
    (hdata : data.length = sizeofU64)
    : StoredAt sizeofK (Region.store mem 0 data) i key m off cur := by
  have hlow := h.low
  have hhalf := kUpperModel_eq_two_mul
  have hupper : sizeofU64 ≤ kUpperModel / 2 := by decide
  have hload (r : Region) (hr : sizeofU64 ≤ r.start) : Region.load (Region.store mem 0 data) r = Region.load mem r := by
    apply Region.load_store_of_disjoint
    apply Region.disjoint_of_le
    dsimp only
    omega
  constructor
  . rw [hload _ (by rw [getUpper_eq]; exact Nat.le_add_right _ _), h.key]
  . rw [hload _ (by rw [getUpper_eq]; dsimp only; omega), h.offset]
  . rw [hload _ (by dsimp only; omega), h.size]
  . rw [hload _ (by dsimp only; omega), h.body]
  . exact hlow
  . exact h.high

end Filled

section Deserialize

variable {sizeofK : Nat} {unset : Nat → Fin kSynonymMax → BitVec 64} {R R' : Instance} {rm : RemoteMemory sizeofK}

/-- What the second instance gets of the first one. -/
def Instance.restored (R : Instance) : Instance where
  modelKeys := R.modelKeys
  models := R.models.map SubModel.withoutLocks
  leafIdxOffsets := []
  capacityOffsets := []

theorem deserialize.go_stored
    (hstored : ∀ i key m, R.modelKeys[i]? = some key → R.models[i]? = some m →
      ∃ off, StoredAt sizeofK rm.mem i key m off rm.alloc.curAllocSz)
    (hroom : Room sizeofK rm.alloc.totalSz R.models.length rm.alloc.curAllocSz)
    (hlen : R.modelKeys.length = R.models.length) (hkeys : ∀ key ∈ R.modelKeys, key < 256 ^ sizeofK)
    (hfits : ∀ m ∈ R.models, m.Fits) {n i : Nat} (hn : i + n = R.models.length)
    : go unset rm n i ⟨R.modelKeys.take i, (R.models.take i).map SubModel.withoutLocks, [], []⟩
        = some R.restored := by
  induction n generalizing i with
  | zero =>
    rw [Nat.add_zero] at hn
    rw [go, hn, List.take_length, ← hlen, List.take_length]
    rfl
  | succ n ih =>
    have hi : i < R.models.length := by omega
    have hi' : i < R.modelKeys.length := hlen ▸ hi
    have hm := List.getElem?_eq_getElem hi
    have hkey := List.getElem?_eq_getElem hi'
    obtain ⟨off, h⟩ := hstored i _ _ hkey hm
    have hfit := hfits _ (List.getElem_mem hi)
    have hlow := h.low
    have hhigh := Nat.le_trans h.high hroom.high
    have hhalf := kUpperModel_eq_two_mul
    have hslots := hroom.keys
    have hoffsets := hroom.offsets
    have hmul := Nat.mul_le_mul_left sizeofK (Nat.succ_le_of_lt hi)
    have hmul8 := Nat.mul_le_mul_left sizeofU64 (Nat.succ_le_of_lt hi)
    rw [Nat.mul_succ] at hmul hmul8
    have hkeySlot : rm.copyOut (getUpper sizeofK i).1 = some (bytes sizeofK R.modelKeys[i]) := by
      rw [RemoteMemory.copyOut_of_le (by rw [getUpper_eq]; dsimp only; omega), h.key]
    have hoffsetSlot : rm.copyOut (getUpper sizeofK i).2 = some (bytes sizeofU64 off) := by
      rw [RemoteMemory.copyOut_of_le (by rw [getUpper_eq]; dsimp only; omega), h.offset]
    have hoff : value (bytes sizeofU64 off) = off := by
      rw [value_bytes]
      apply Nat.mod_eq_of_lt
      have htotal := hroom.total
      rw [sizeofU64_eq]
      omega
    have hsize : rm.copyOut ⟨off, 4⟩ = some (bytes 4 (R.models[i]).serialize.length) := by
      rw [RemoteMemory.copyOut_of_le (by dsimp only; omega), h.size]
    have hsizeValue : i32 (value (bytes 4 (R.models[i]).serialize.length)) = (R.models[i]).serialize.length := by
      rw [value_bytes, Nat.mod_eq_of_lt (by have := hfit.2; omega)]
      exact i32_of_lt hfit.2
    have hbody : rm.copyOut ⟨off + 4, (R.models[i]).serialize.length⟩ = some (R.models[i]).serialize := by
      rw [RemoteMemory.copyOut_of_le (by dsimp only; omega), h.body]
    have hkeyValue : value (bytes sizeofK R.modelKeys[i]) = R.modelKeys[i] := by
      rw [value_bytes]
      exact Nat.mod_eq_of_lt (hkeys _ (List.getElem_mem hi'))
    rw [go]
    simp only [hkeySlot, hoffsetSlot, Option.bind_eq_bind, Option.bind_some, hoff, hsize, hsizeValue]
    rw [if_pos (Int.natCast_nonneg _), Int.toNat_natCast, hbody]
    simp only [Option.bind_some]
    rw [SubModel.deserialize_serialize hfit]
    simp only [Option.bind_some, hkeyValue]
    have hnext := ih (show i + 1 + n = R.models.length by omega)
    rw [List.take_succ_eq_append_getElem hi', List.take_succ_eq_append_getElem hi, List.map_append] at hnext
    exact hnext

theorem deserialize.go_eq_some {n i : Nat} {I : Instance} (h : go unset rm n i I = some R')
    : R'.leafIdxOffsets = I.leafIdxOffsets := by
  induction n generalizing i I with
  | zero =>
    cases h
    rfl
  | succ n ih =>
    rw [go] at h
    obtain ⟨key, _, h⟩ := Option.bind_eq_some_iff.mp h
    obtain ⟨off, _, h⟩ := Option.bind_eq_some_iff.mp h
    obtain ⟨curMs, _, h⟩ := Option.bind_eq_some_iff.mp h
    dsimp only at h
    split at h
    . obtain ⟨seria, _, h⟩ := Option.bind_eq_some_iff.mp h
      obtain ⟨model, _, h⟩ := Option.bind_eq_some_iff.mp h
      rw [ih h]
    . cases h

theorem deserialize_eq_some (h : deserialize unset rm = some R') : R'.leafIdxOffsets = [] := by
  unfold deserialize at h
  obtain ⟨totalSize, _, h⟩ := Option.bind_eq_some_iff.mp h
  exact deserialize.go_eq_some h

theorem Instance.getLeafRange_eq_none (toRat : Double → Rat) (h : R'.leafIdxOffsets = []) (key : Nat)
    : R'.getLeafRange toRat key = none := by
  cases hres : R'.getLeafRange toRat key with
  | none => rfl
  | some res =>
    unfold getLeafRange RolexModel.getLeafRange at hres
    obtain ⟨modelId, _, hres⟩ := Option.bind_eq_some_iff.mp hres
    obtain ⟨model, _, hres⟩ := Option.bind_eq_some_iff.mp hres
    obtain ⟨⟨l, r⟩, _, hres⟩ := Option.bind_eq_some_iff.mp hres
    obtain ⟨off, hoff, _⟩ := Option.bind_eq_some_iff.mp hres
    rw [toModel, h] at hoff
    cases hoff

end Deserialize

section Training

variable {sizeofK : Nat} {round : Rat → Double} {unset : Nat → Fin kSynonymMax → BitVec 64} {keys : List Nat}
  {R : Instance} {rm rm' : RemoteMemory sizeofK} {totalSz : UInt64} {mem : Nat → Byte}

/-- What holds while the training goes on. -/
structure Training (keys : List Nat) (totalSz : Nat) (s : Instance × RemoteMemory sizeofK) : Prop where
  total : s.2.alloc.totalSz = totalSz
  keys : ∀ key ∈ s.1.modelKeys, key ∈ keys
  filled : s.1.HasRoom sizeofK totalSz → Filled s.1 s.2

theorem new_eq_some (hnew : RemoteMemory.new sizeofK totalSz mem = some rm)
    : kUpperModel < totalSz.toNat ∧ rm.alloc = ⟨totalSz.toNat, kUpperModel, 0⟩
        ∧ rm.mem = Region.store mem 0 (bytes sizeofU64 0) := by
  unfold RemoteMemory.new ModelAllocator.new at hnew
  split at hnew
  . next hlt =>
    cases hnew
    exact ⟨hlt, rfl, rfl⟩
  . cases hnew

theorem training_init (hnew : RemoteMemory.new sizeofK totalSz mem = some rm)
    : Training keys totalSz.toNat (Instance.init, rm) := by
  obtain ⟨_, halloc, _⟩ := new_eq_some hnew
  constructor
  . rw [halloc]
  . exact fun _ hkey => absurd hkey List.not_mem_nil
  . intro _
    constructor
    . rfl
    . rw [halloc]
      rfl
    . rw [halloc]
      rfl
    . exact fun _ _ _ hkey => absurd hkey (by simp [Instance.init])

theorem Training.append {total : Nat} {s s' : Instance × RemoteMemory sizeofK} {line : Rat × Rat} {kIter : List Nat}
    {size : Nat} (h : Training keys total s) (hiter : kIter <:+ keys)
    (happend : appendModel round unset s line kIter size = some s')
    : Training keys total s' := by
  obtain ⟨key, m, _, _, hkey, _, _, _, hI', halloc, _⟩ := appendModel_eq_some happend
  have htotal : s'.2.alloc.totalSz = total := by
    rw [halloc]
    exact h.total
  constructor
  . exact htotal
  . intro k hk
    rw [hI'] at hk
    cases List.mem_append.mp hk with
    | inl hk => exact h.keys k hk
    | inr hk =>
      rw [List.mem_singleton.mp hk]
      exact hiter.mem (List.mem_of_getElem? hkey)
  . intro hroom
    refine Filled.append ?_ happend (htotal ▸ hroom)
    rw [h.total]
    exact h.filled

theorem train_eq_some (hnew : RemoteMemory.new sizeofK totalSz mem = some rm) (hne : keys ≠ [])
    (htrain : train round unset keys rm = some (R, rm'))
    : ∃ rm₁, Training keys totalSz.toNat (R, rm₁)
        ∧ rm' = { rm₁ with mem := Region.store rm₁.mem 0 (bytes sizeofU64 R.models.length) } := by
  unfold train at htrain
  obtain ⟨⟨I, rm₁⟩, htrain₁, htrain⟩ := Option.bind_eq_some_iff.mp htrain
  obtain ⟨s, line, kIter, size, hs, hiter, happend⟩ :=
    trainWith_last (fun _ _ _ _ _ => Training.append) (training_init hnew) hne htrain₁
  dsimp only at htrain
  rw [if_neg hne] at htrain
  split at htrain
  . obtain ⟨rm₂, hcopy, htrain⟩ := Option.bind_eq_some_iff.mp htrain
    cases htrain
    rw [RemoteMemory.copyIn_eq_some] at hcopy
    exact ⟨rm₁, hs.append hiter happend, hcopy.2⟩
  . cases htrain

/-- The model with its lines rounded to doubles. -/
def rounded (round : Rat → Double) (toRat : Double → Rat) (M : RolexModel) : RolexModel :=
  { M with models := M.models.map fun m =>
      { m with slope := toRat (round m.slope), intercept := toRat (round m.intercept) } }

theorem appendModel_rounded {toRat : Double → Rat} {M : RolexModel} {s s' : Instance × RemoteMemory sizeofK}
    {line : Rat × Rat} {kIter : List Nat} {size : Nat} (h : s.1.toModel toRat = rounded round toRat M)
    (happend : appendModel round unset s line kIter size = some s')
    : ∃ M', M.appendModel line kIter size = some M' ∧ s'.1.toModel toRat = rounded round toRat M' := by
  obtain ⟨key, m, leafNumSum, capacitySum, hkey, hm, hleaf, hcapacity, hI', _⟩ := appendModel_eq_some happend
  have hkeys : s.1.modelKeys = M.modelKeys := congrArg RolexModel.modelKeys h
  have hleafs : s.1.leafIdxOffsets = M.leafIdxOffsets := congrArg RolexModel.leafIdxOffsets h
  have hcaps : s.1.capacityOffsets = M.capacityOffsets := congrArg RolexModel.capacityOffsets h
  have hmodels := congrArg RolexModel.models h
  have htable := SubModel.length_table_new (round line.1) (round line.2) size (unset s.1.models.length)
  rw [hleafs] at hleaf
  rw [hcaps] at hcapacity
  unfold RolexModel.appendModel
  simp only [hkey, hleaf, hcapacity, Option.bind_eq_bind, Option.bind_some]
  refine ⟨_, rfl, ?_⟩
  rw [hI', hm]
  unfold Instance.toModel rounded at hmodels ⊢
  dsimp only at hmodels ⊢
  rw [hkeys, hleafs, hcaps, List.map_append, List.map_append, hmodels]
  simp only [List.map_cons, List.map_nil, htable]
  rfl

theorem load_count {mem : Nat → Byte} (n : Nat)
    : Region.load (Region.store mem 0 (bytes sizeofU64 n)) ModelAllocator.countRegion = bytes sizeofU64 n := by
  have hself := Region.load_store_self mem 0 (bytes sizeofU64 n)
  rw [length_bytes] at hself
  exact hself

theorem hasRoom_of_le (hnum : R.models.length ≤ ModelAllocator.maxUpperNum sizeofK)
    (hsum : kUpperModel + R.sizes.sum ≤ totalSz.toNat) (hfits : ∀ m ∈ R.models, m.Fits)
    : R.HasRoom sizeofK totalSz.toNat := by
  have h8 := sizeofU64_eq
  have hhalf : sizeofU64 ≤ kUpperModel / 2 := by decide
  unfold ModelAllocator.maxUpperNum at hnum
  rw [Nat.le_min] at hnum
  have hkeys : sizeofK * R.models.length ≤ kUpperModel / 2 - sizeofU64 :=
    Nat.le_trans (Nat.mul_le_mul_left _ hnum.1) (Nat.mul_div_le _ _)
  refine ⟨⟨by omega, ?_, Nat.le_add_right _ _, hsum, totalSz.toNat_lt⟩, ?_⟩
  . exact Nat.le_trans (Nat.mul_le_mul_left _ hnum.2) (Nat.mul_div_le _ _)
  . intro m hm
    have := (hfits m hm).2
    omega

variable {unset₂ : Nat → Fin kSynonymMax → BitVec 64}

theorem deserialize_new (hnew : RemoteMemory.new sizeofK totalSz mem = some rm)
    : deserialize unset₂ rm = some Instance.empty := by
  obtain ⟨hlt, halloc, hmem⟩ := new_eq_some hnew
  have hcount : ModelAllocator.countRegion.start + ModelAllocator.countRegion.len ≤ rm.alloc.totalSz := by
    rw [halloc]
    exact Nat.le_trans (by decide) hlt.le
  unfold deserialize
  rw [RemoteMemory.copyOut_of_le hcount, hmem, load_count]
  rfl

theorem deserialize_train (hnew : RemoteMemory.new sizeofK totalSz mem = some rm)
    (htrain : train round unset keys rm = some (R, rm')) (hkeys : ∀ key ∈ keys, key < 256 ^ sizeofK)
    (hnum : R.models.length ≤ ModelAllocator.maxUpperNum sizeofK)
    (hsum : kUpperModel + R.sizes.sum ≤ totalSz.toNat) (hfits : ∀ m ∈ R.models, m.Fits)
    : deserialize unset₂ rm' = some R.restored := by
  by_cases hne : keys = []
  . subst hne
    cases htrain
    exact deserialize_new hnew
  . have hroom := hasRoom_of_le hnum hsum hfits
    obtain ⟨rm₁, htraining, hrm'⟩ := train_eq_some hnew hne htrain
    have halloc : rm'.alloc = rm₁.alloc := by rw [hrm']
    have hmem : rm'.mem = Region.store rm₁.mem 0 (bytes sizeofU64 R.models.length) := by rw [hrm']
    have hfilled := htraining.filled hroom
    replace hroom := hroom.room
    have hoffsets := hroom.offsets
    have hlow := hroom.low
    have hhigh := hroom.high
    have hhalf : sizeofU64 ≤ kUpperModel / 2 := by decide
    have hmax : kUpperModel / 2 < 256 ^ sizeofU64 := by decide
    have hcount : ModelAllocator.countRegion.start + ModelAllocator.countRegion.len ≤ rm'.alloc.totalSz := by
      rw [halloc, htraining.total]
      exact Nat.le_trans (by decide) (Nat.le_trans hlow hhigh)
    have hn : value (bytes sizeofU64 R.models.length) = R.models.length := by
      rw [value_bytes]
      apply Nat.mod_eq_of_lt
      rw [sizeofU64_eq] at hoffsets
      omega
    unfold deserialize
    rw [RemoteMemory.copyOut_of_le hcount, hmem, load_count]
    simp only [Option.bind_eq_bind, Option.bind_some, hn]
    apply deserialize.go_stored _ _ hfilled.keys (fun key hkey => hkeys key (htraining.keys key hkey)) hfits
      (Nat.zero_add _)
    . intro i key m hkey hm
      obtain ⟨off, hstored⟩ := hfilled.stored i key m hkey hm
      rw [hmem, halloc]
      exact ⟨off, hstored.count _ (length_bytes _ _)⟩
    . rw [halloc, htraining.total, hfilled.cur]
      exact hroom

end Training

namespace Double

/-- The number that a finite double stands for. -/
def toRat (d : Double) : Rat :=
  let sign : Rat := if d.msb then -1 else 1
  let exponent : Nat := d.toNat / 2 ^ 52 % 2 ^ 11
  let fraction : Nat := d.toNat % 2 ^ 52
  if exponent = 0 then
    sign * fraction / 2 ^ 1074
  else
    sign * (2 ^ 52 + fraction) * 2 ^ exponent / 2 ^ 1075

/-- The double next to a number in the direction of zero, for numbers in the range of the normal doubles. -/
def ofRat (x : Rat) : Double :=
  if x = 0 then
    0
  else
    let n := x.num.natAbs
    -- the quotient has 53 or 54 digits
    let scale : Int := 53 - (n.log2 - x.den.log2 : Int)
    let quotient := n * 2 ^ scale.toNat / (x.den * 2 ^ (-scale).toNat)
    let digits := quotient.log2
    let exponent := (digits - 52 - scale + 1075 : Int).toNat
    BitVec.ofNat 64 ((if x < 0 then 2 ^ 63 else 0) + exponent * 2 ^ 52 + (quotient / 2 ^ (digits - 52) - 2 ^ 52))

example : toRat (ofRat (1 / 4)) = 1 / 4 := by decide +kernel

end Double

section Sample

def sampleKeys : List Nat := (List.range 32).map (· + 1) ++ (List.range 16).map (fun i => 1000000 + 10 * i)

/-- A pool of 40 MB after the constructor of its allocator. -/
def sampleMemory : RemoteMemory 8 := ⟨⟨40000000, kUpperModel, 0⟩, Region.store (fun _ => 0) 0 (bytes sizeofU64 0)⟩

def sampleTrained : Option (Instance × RemoteMemory 8) := train Double.ofRat (fun _ _ => 0) sampleKeys sampleMemory

theorem sampleMemory_new : RemoteMemory.new 8 40000000 (fun _ => 0) = some sampleMemory := rfl

theorem sampleTrained_eq
    : ∃ R rm, sampleTrained = some (R, rm) ∧ R.modelKeys = [32, 1000150]
        ∧ R.getLeafRange Double.toRat 5 = some (0, 1, 0, 0)
        ∧ R.models.map (fun m => (m.capacity, m.serialize.length)) = [(32, 1080), (16, 1072)] := by
  have hkeys : sampleTrained.map (fun s => s.1.modelKeys) = some [32, 1000150] := by decide +kernel
  have hrange : sampleTrained.map (fun s => s.1.getLeafRange Double.toRat 5) = some (some (0, 1, 0, 0)) := by
    decide +kernel
  have hsizes : sampleTrained.map (fun s => s.1.models.map (fun m => (m.capacity, m.serialize.length)))
      = some [(32, 1080), (16, 1072)] := by
    decide +kernel
  obtain ⟨⟨R, rm⟩, htrained, heq⟩ := Option.map_eq_some_iff.mp hkeys
  rw [htrained] at hrange hsizes
  exact ⟨R, rm, htrained, heq, Option.some.inj hrange, Option.some.inj hsizes⟩

theorem sampleTrained_fits {R : Instance}
    (h : R.models.map (fun m => (m.capacity, m.serialize.length)) = [(32, 1080), (16, 1072)])
    : R.models.length ≤ ModelAllocator.maxUpperNum 8 ∧ kUpperModel + R.sizes.sum ≤ (40000000 : UInt64).toNat
        ∧ ∀ m ∈ R.models, m.Fits := by
  have hsizes : R.sizes = [1084, 1076] := by
    have hmap := congrArg (List.map (fun p : Nat × Nat => p.2 + 4)) h
    rw [List.map_map] at hmap
    exact hmap
  refine ⟨?_, ?_, ?_⟩
  . have hlen := congrArg List.length h
    rw [List.length_map] at hlen
    rw [hlen]
    decide
  . rw [hsizes]
    decide
  . intro m hm
    have hmem := @List.mem_map_of_mem _ _ _ _ (fun m : SubModel => (m.capacity, m.serialize.length)) hm
    rw [h] at hmem
    have hall : ∀ p ∈ [(32, 1080), (16, 1072)], p.1 < 2 ^ 64 ∧ p.2 < 2 ^ 31 := by decide
    exact hall _ hmem

end Sample

section Restores

variable {sizeofK : Nat} {round : Rat → Double} {unset unset₂ : Nat → Fin kSynonymMax → BitVec 64} {keys : List Nat}
  {R : Instance} {rm rm' : RemoteMemory sizeofK} {totalSz : UInt64} {mem : Nat → Byte}

/-- The training in the region is the training of the model, with its lines rounded to doubles. -/
theorem train_rounded (toRat : Double → Rat) (htrain : train round unset keys rm = some (R, rm'))
    : ∃ M, RolexModel.train keys = some M ∧ R.toModel toRat = rounded round toRat M := by
  unfold train at htrain
  obtain ⟨⟨I, rm₁⟩, htrain₁, htrain⟩ := Option.bind_eq_some_iff.mp htrain
  obtain ⟨M, hM, hrel⟩ := @trainWith_simulates _ _ _ _ RolexModel.appendModel
    (fun s M => s.1.toModel toRat = rounded round toRat M) (fun _ _ _ _ _ _ => appendModel_rounded)
    (Instance.init, rm) (I, rm₁) RolexModel.init rfl htrain₁
  rw [trainWith_appendModel] at hM
  have hR : R = I := by
    dsimp only at htrain
    split at htrain
    . cases htrain
      rfl
    . split at htrain
      . obtain ⟨_, _, htrain⟩ := Option.bind_eq_some_iff.mp htrain
        cases htrain
        rfl
      . cases htrain
  rw [hR]
  exact ⟨M, hM, hrel⟩

theorem train_rounded_sample
    : ∃ R rm M, sampleTrained = some (R, rm) ∧ R.modelKeys = [32, 1000150] ∧ RolexModel.train sampleKeys = some M
        ∧ R.toModel Double.toRat = rounded Double.ofRat Double.toRat M := by
  obtain ⟨R, rm, htrained, hkeys, -⟩ := sampleTrained_eq
  obtain ⟨M, hM, heq⟩ := train_rounded Double.toRat htrained
  exact ⟨R, rm, M, htrained, hkeys, hM, heq⟩

/-- The two instances have the same keys and models and return the same range for every key. -/
structure Same (toRat : Double → Rat) (R R' : Instance) : Prop where
  modelKeys : R'.modelKeys = R.modelKeys
  models : R'.models = R.models
  ranges : ∀ key, ∃ range, R.getLeafRange toRat key = some range ∧ R'.getLeafRange toRat key = some range

/--
The second instance gets the model keys and, but for the locks of their leaf tables, the models, but never the
offsets: its `get_leaf_range` returns for no key, so that the instances are never the same.
-/
theorem deserialize_restores_never (hnew : RemoteMemory.new sizeofK totalSz mem = some rm)
    (htrain : train round unset keys rm = some (R, rm')) (hkeys : ∀ key ∈ keys, key < 256 ^ sizeofK)
    (toRat : Double → Rat)
    : (R.models.length ≤ ModelAllocator.maxUpperNum sizeofK → kUpperModel + R.sizes.sum ≤ totalSz.toNat →
          (∀ m ∈ R.models, m.Fits) →
          ∃ R', deserialize unset₂ rm' = some R' ∧ R'.modelKeys = R.modelKeys
            ∧ R'.models = R.models.map SubModel.withoutLocks)
        ∧ (∀ R', deserialize unset₂ rm' = some R' → ∀ key, R'.getLeafRange toRat key = none)
        ∧ ¬ ∃ R', deserialize unset₂ rm' = some R' ∧ Same toRat R R' := by
  have hnone (R' : Instance) (h : deserialize unset₂ rm' = some R') (key : Nat)
      : R'.getLeafRange toRat key = none :=
    Instance.getLeafRange_eq_none toRat (deserialize_eq_some h) key
  refine ⟨?_, hnone, ?_⟩
  . intro hnum hsum hfits
    exact ⟨_, deserialize_train hnew htrain hkeys hnum hsum hfits, rfl, rfl⟩
  . rintro ⟨R', h, hsame⟩
    obtain ⟨range, -, hrange⟩ := hsame.ranges 0
    rw [hnone R' h] at hrange
    cases hrange

theorem deserialize_restores_never_sample
    : ∃ R rm, sampleTrained = some (R, rm) ∧ R.modelKeys = [32, 1000150]
        ∧ (∃ R', deserialize (fun _ _ => 0) rm = some R' ∧ R'.modelKeys = R.modelKeys
            ∧ R'.models = R.models.map SubModel.withoutLocks
            ∧ ∀ key, R'.getLeafRange Double.toRat key = none)
        ∧ ¬ ∃ R', deserialize (fun _ _ => 0) rm = some R' ∧ Same Double.toRat R R' := by
  obtain ⟨R, rm, htrained, hkeys, _, hsizes⟩ := sampleTrained_eq
  obtain ⟨hnum, hsum, hfits⟩ := sampleTrained_fits hsizes
  obtain ⟨hrestored, hnone, hnever⟩ := @deserialize_restores_never 8 _ _ (fun _ _ => 0) sampleKeys R sampleMemory rm
    _ _ sampleMemory_new htrained (by decide) Double.toRat
  obtain ⟨R', h, hkeys', hmodels⟩ := hrestored hnum hsum hfits
  exact ⟨R, rm, htrained, hkeys, ⟨R', h, hkeys', hmodels, hnone R' h⟩, hnever⟩

-- the trained instance has a range for key 5, the second one reads behind the end of its offsets
theorem deserialized_range_undefined
    : ∃ R rm R', sampleTrained = some (R, rm) ∧ deserialize (fun _ _ => 0) rm = some R'
        ∧ R.getLeafRange Double.toRat 5 = some (0, 1, 0, 0) ∧ R'.leafIdxOffsets = []
        ∧ R'.getLeafRange Double.toRat 5 = none := by
  obtain ⟨R, rm, htrained, _, hrange, hsizes⟩ := sampleTrained_eq
  obtain ⟨hnum, hsum, hfits⟩ := sampleTrained_fits hsizes
  refine ⟨R, rm, R.restored, htrained, ?_, hrange, rfl, Instance.getLeafRange_eq_none _ rfl 5⟩
  exact deserialize_train sampleMemory_new htrained (by decide) hnum hsum hfits

end Restores

end ModelRegion

end Rolex

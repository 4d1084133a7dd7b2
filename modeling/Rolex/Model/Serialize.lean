import Mathlib.Data.List.GetD
import Rolex.Common
import Rolex.Lib.Marshal
import Rolex.MemoryNode.LeafTable

/-!
This module contains `serialize` and `deserialize` of the leaf table and of the submodel, and that a submodel
comes back from its byte string without the locks of its leaf table.
-/

namespace Rolex

namespace ModelRegion

open Marshal
open MemoryNode (kSynonymMax)

/-- A `double` as it is stored. -/
abbrev Double := BitVec 64

/-- The number that four bytes with the value `x` stand for as an `i32`. -/
def i32 (x : Nat) : Int := (BitVec.ofNat 32 x).toInt

theorem i32_of_lt {x : Nat} (h : x < 2 ^ 31) : i32 x = x := by
  unfold i32
  rw [BitVec.toInt_eq_toNat_of_lt]
  . rw [BitVec.toNat_ofNat, Nat.mod_eq_of_lt (by omega)]
  . rw [BitVec.toNat_ofNat, Nat.mod_eq_of_lt (by omega)]
    omega

/-- `LeafTable`, with its entries as the `val` of their union and the number of its locks. -/
structure LeafTable where
  table : List (BitVec 64)
  synonymTable : Fin kSynonymMax → BitVec 64
  csLocks : Nat

namespace LeafTable

/-- The first 16 bits of an entry are `lock`, `leaf_region` and `synonym_leaf`, the others `leaf_num`. -/
def setLeafNum (te : BitVec 64) (leafNum : BitVec 64) : BitVec 64 := (te &&& 0xffff) ||| (leafNum <<< 16)

/-- The constructor, which leaves the memory of `SynonymTable` as it is but for one field. -/
def new (unset : Fin kSynonymMax → BitVec 64) : LeafTable where
  table := []
  synonymTable := fun i => if i.val = 0 then setLeafNum (unset i) 1 else unset i
  csLocks := 0

def trainEmplaceBack (t : LeafTable) (leafNum : BitVec 64) : LeafTable :=
  { t with table := t.table ++ [setLeafNum 0 leafNum], csLocks := t.csLocks + 1 }

def serialize (t : LeafTable) : List Byte :=
  bytes 4 t.table.length
    ++ (bytesMany 8 (t.table.map BitVec.toNat) ++ bytesMany 8 (List.ofFn (fun i => (t.synonymTable i).toNat)))

/-- `none` is a failed assertion or a read behind the end of the string. -/
def deserialize (t : LeafTable) (seria : List Byte) : Option LeafTable :=
  if seria.length > 4 ∧ t.table = [] then do
    let (tableSize, cur) ← read 4 seria
    let tableSize := i32 tableSize
    -- the sum is one of `u32`
    if seria.length ≥ 4 + ((tableSize + kSynonymMax) % 2 ^ 32).toNat * 8 then do
      let (table, cur) ← readMany 8 tableSize.toNat cur
      let (synonymTable, _) ← readMany 8 kSynonymMax cur
      return { t with
        table := table.map (BitVec.ofNat 64)
        synonymTable := fun i => BitVec.ofNat 64 (synonymTable.getD i 0) }
    else
      none
  else
    none

theorem length_serialize (t : LeafTable) : t.serialize.length = 4 + 8 * (t.table.length + kSynonymMax) := by
  simp only [serialize, List.length_append, length_bytes, length_bytesMany, List.length_map, List.length_ofFn]
  omega

theorem toNat_lt_bytes (x : BitVec 64) : x.toNat < 256 ^ 8 := x.isLt

theorem map_ofNat_toNat (l : List (BitVec 64)) : (l.map BitVec.toNat).map (BitVec.ofNat 64) = l := by
  rw [List.map_map]
  exact List.map_id'' (fun x => BitVec.ofNat_toNat 64 x |>.trans (BitVec.setWidth_eq x)) l

theorem deserialize_serialize (t t₀ : LeafTable) (hsize : t.serialize.length < 2 ^ 31) (hempty : t₀.table = [])
    : t₀.deserialize t.serialize = some { t with csLocks := t₀.csLocks } := by
  have hlen := length_serialize t
  have hn : t.table.length < 2 ^ 31 := by omega
  have htable := @readMany_bytesMany_append 8 (t.table.map BitVec.toNat) (by
    intro x hx
    obtain ⟨y, _, rfl⟩ := List.mem_map.mp hx
    exact toNat_lt_bytes y)
  have hsyn := @readMany_bytesMany_append 8 (List.ofFn (fun i => (t.synonymTable i).toNat)) (by
    intro x hx
    obtain ⟨i, rfl⟩ := List.mem_ofFn.mp hx
    exact toNat_lt_bytes _) []
  rw [List.length_map] at htable
  rw [List.length_ofFn, List.append_nil] at hsyn
  have hread : read 4 t.serialize = _ := read_bytes_append (show t.table.length < 256 ^ 4 by omega) _
  have hmax : kSynonymMax = 128 := rfl
  have hpos : t.serialize.length > 4 := by omega
  have hfun : (fun i : Fin kSynonymMax =>
      BitVec.ofNat 64 ((List.ofFn (fun i => (t.synonymTable i).toNat)).getD i 0)) = t.synonymTable := by
    funext i
    rw [List.getD_eq_getElem _ _ (by rw [List.length_ofFn]; exact i.isLt), List.getElem_ofFn, BitVec.ofNat_toNat,
      BitVec.setWidth_eq]
  unfold deserialize
  rw [if_pos ⟨hpos, hempty⟩, hread]
  simp only [Option.bind_eq_bind, Option.bind_some, i32_of_lt hn]
  rw [if_pos, Int.toNat_natCast, htable]
  . simp only [Option.bind_some]
    rw [hsyn]
    simp only [Option.bind_some, Option.pure_def, map_ofNat_toNat]
    rw [hfun]
  . have hsum : ((t.table.length : Int) + (kSynonymMax : Int)) % 2 ^ 32 = t.table.length + kSynonymMax := by
      apply Int.emod_eq_of_lt
      . omega
      . omega
    rw [hsum]
    omega

end LeafTable

structure SubModel where
  slope : Double
  intercept : Double
  ltable : LeafTable
  capacity : Nat

namespace SubModel

/-- The constructor: the leaf table gets one entry more than the keys fill. -/
def new (slope intercept : Double) (size : Nat) (unset : Fin kSynonymMax → BitVec 64) : SubModel where
  slope := slope
  intercept := intercept
  ltable := Nat.repeat (·.trainEmplaceBack 716)
    (size / leafSpanSize + if size % leafSpanSize ≠ 0 then 1 else 0) ((LeafTable.new unset).trainEmplaceBack 716)
  capacity := size

def serialize (m : SubModel) : List Byte :=
  bytes 8 m.slope.toNat ++ (bytes 8 m.intercept.toNat ++ (bytes 8 m.capacity
    ++ (bytes 4 m.ltable.serialize.length ++ m.ltable.serialize)))

/-- The constructor from a string; `none` is a failed assertion or a read behind its end. -/
def deserialize (unset : Fin kSynonymMax → BitVec 64) (seria : List Byte) : Option SubModel :=
  if seria.length ≥ 16 + 8 + 4 then do
    let (slope, cur) ← read 8 seria
    let (intercept, cur) ← read 8 cur
    let (capacity, cur) ← read 8 cur
    let (ltableSize, cur) ← read 4 cur
    let ltableSize := i32 ltableSize
    if (seria.length : Int) = 16 + 8 + 4 + ltableSize then do
      let ltable ← (LeafTable.new unset).deserialize (cur.take ltableSize.toNat)
      return ⟨BitVec.ofNat 64 slope, BitVec.ofNat 64 intercept, ltable, capacity⟩
    else
      none
  else
    none

/-- What fits the fields of the string: `capacity` is a `size_t`, the sizes are `i32`. -/
def Fits (m : SubModel) : Prop := m.capacity < 2 ^ 64 ∧ m.serialize.length < 2 ^ 31

def withoutLocks (m : SubModel) : SubModel := { m with ltable := { m.ltable with csLocks := 0 } }

theorem length_serialize (m : SubModel) : m.serialize.length = 28 + m.ltable.serialize.length := by
  simp only [serialize, List.length_append, length_bytes]
  omega

theorem deserialize_serialize {m : SubModel} (h : m.Fits) (unset : Fin kSynonymMax → BitVec 64)
    : deserialize unset m.serialize = some m.withoutLocks := by
  have hlen := length_serialize m
  obtain ⟨hcap, hsize⟩ := h
  have hl : m.ltable.serialize.length < 2 ^ 31 := by omega
  unfold deserialize
  rw [if_pos (by omega), hlen]
  unfold serialize
  rw [read_bytes_append (LeafTable.toNat_lt_bytes _)]
  simp only [Option.bind_eq_bind, Option.bind_some]
  rw [read_bytes_append (LeafTable.toNat_lt_bytes _)]
  simp only [Option.bind_some]
  rw [read_bytes_append (by omega)]
  simp only [Option.bind_some]
  rw [read_bytes_append (by omega)]
  simp only [Option.bind_some, i32_of_lt hl]
  rw [if_pos (by omega), Int.toNat_natCast, List.take_length,
    LeafTable.deserialize_serialize _ (LeafTable.new unset) hl rfl]
  simp [withoutLocks, LeafTable.new]

section New

theorem length_repeat_emplace (n : Nat) (leafNum : BitVec 64) (t : LeafTable)
    : (Nat.repeat (·.trainEmplaceBack leafNum) n t).table.length = t.table.length + n := by
  induction n with
  | zero => rfl
  | succ n ih =>
    rw [Nat.repeat, LeafTable.trainEmplaceBack, List.length_append, ih]
    rfl

theorem length_table_new (slope intercept : Double) (size : Nat) (unset : Fin kSynonymMax → BitVec 64)
    : (new slope intercept size unset).ltable.table.length
        = 1 + (size / leafSpanSize + if size % leafSpanSize ≠ 0 then 1 else 0) := length_repeat_emplace _ _ _

end New

end SubModel

end ModelRegion

end Rolex

import Rolex.Hopscotch.Basic
import Rolex.Version.Decoder

/-!
This module contains the nodes of all builds as the bytes that the managers work on: with and without
`HOPSCOTCH_LEAF_NODE`, which decides on the entries, and with and without `METADATA_REPLICATION`.
-/

namespace Rolex

/-- What the managers need of `LeafEntry`. -/
class EntryType (E : Type) where
  size : Nat
  le_size : leafEntrySize ≤ size
  hVersion : E → PackedVersion
  setVersion : E → PackedVersion → E
  byte : E → Nat → BitVec 8
  ofBytes : Buffer → Nat → E
  hVersion_setVersion : ∀ e p, hVersion (setVersion e p) = p
  setVersion_hVersion : ∀ e, setVersion e (hVersion e) = e
  byte_zero : ∀ e, byte e 0 = (hVersion e).toByte
  byte_setVersion : ∀ e p t, 0 < t → byte (setVersion e p) t = byte e t
  ofBytes_eq : ∀ {buf x e}, (∀ t, t < size → buf (x + t) = byte e t) → ofBytes buf x = e
  byte_ofBytes : ∀ buf x {t}, t < size → byte (ofBytes buf x) t = buf (x + t)

instance : EntryType LeafEntry where
  size := leafEntrySize
  le_size := Nat.le_refl _
  hVersion := LeafEntry.hVersion
  setVersion := fun e p => { e with hVersion := p }
  byte := LeafEntry.byte
  ofBytes := LeafEntry.ofBytes
  hVersion_setVersion := fun _ _ => rfl
  setVersion_hVersion := fun _ => rfl
  byte_zero := fun _ => rfl
  byte_setVersion := fun e p _ => e.byte_setVersion p
  ofBytes_eq := LeafEntry.ofBytes_eq
  byte_ofBytes := LeafEntry.byte_ofBytes

namespace HopEntry

/-- Byte `t` of a record: two bytes with the hop bitmap stand between version and key. -/
def byte (e : HopEntry) (t : Nat) : BitVec 8 :=
  if t < 1 then
    e.hVersion.toByte
  else if t < 2 then
    e.hopBitmap.setWidth 8
  else if t < 3 then
    e.hopPadding
  else
    LeafEntry.byte ⟨e.hVersion, e.key, e.value⟩ (t - 2)

def ofBytes (buf : Buffer) (x : Nat) : HopEntry where
  hVersion := .ofByte (buf x)
  hopBitmap := (buf (x + 1)).setWidth neighborSize
  hopPadding := buf (x + 2)
  key := (LeafEntry.ofBytes buf (x + 2)).key
  value := (LeafEntry.ofBytes buf (x + 2)).value

theorem ofBytes_eq {buf : Buffer} {x : Nat} {e : HopEntry}
    (h : ∀ t, t < leafEntrySize + 2 → buf (x + t) = e.byte t)
    : ofBytes buf x = e := by
  obtain ⟨p, b, c, k, v⟩ := e
  have hkv : LeafEntry.ofBytes buf (x + 2) = ⟨.ofByte (buf (x + 2)), k, v⟩ := by
    apply LeafEntry.ofBytes_eq
    intro t ht
    rcases Nat.eq_zero_or_pos t with rfl | hpos
    . rw [Nat.add_zero]
      exact (PackedVersion.toByte_ofByte _).symm
    . have hbyte := h (t + 2) (by omega)
      unfold byte at hbyte
      rw [if_neg (by omega), if_neg (by omega), if_neg (by omega), Nat.add_sub_cancel] at hbyte
      rw [Nat.add_assoc, Nat.add_comm 2, hbyte]
      exact LeafEntry.byte_setVersion ⟨.ofByte (buf (x + 2)), k, v⟩ p hpos
  have hp : buf x = p.toByte := h 0 (by decide)
  have hb : buf (x + 1) = b.setWidth 8 := h 1 (by decide)
  have hc : buf (x + 2) = c := h 2 (by decide)
  unfold ofBytes
  rw [hkv, hp, hb, hc, PackedVersion.ofByte_toByte,
    BitVec.setWidth_setWidth_of_le b (show neighborSize ≤ 8 by decide), BitVec.setWidth_eq]

theorem byte_ofBytes (buf : Buffer) (x : Nat) {t : Nat} (ht : t < leafEntrySize + 2)
    : (ofBytes buf x).byte t = buf (x + t) := by
  unfold byte
  split
  . next h =>
    obtain rfl : t = 0 := by omega
    exact PackedVersion.toByte_ofByte _
  . split
    . next h =>
      obtain rfl : t = 1 := by omega
      exact (BitVec.setWidth_setWidth_of_le _ (show 8 ≤ neighborSize by decide)).trans (BitVec.setWidth_eq _)
    . split
      . next h =>
        obtain rfl : t = 2 := by omega
        rfl
      . next h =>
        have hkv := LeafEntry.byte_ofBytes buf (x + 2) (show t - 2 < leafEntrySize by omega)
        have hset := LeafEntry.byte_setVersion (LeafEntry.ofBytes buf (x + 2)) (.ofByte (buf x))
          (show 0 < t - 2 by omega)
        have hadd : x + 2 + (t - 2) = x + t := by omega
        rw [hadd] at hkv
        rw [← hkv]
        exact hset

theorem byte_setVersion (e : HopEntry) (p : PackedVersion) {t : Nat} (ht : 0 < t)
    : ({ e with hVersion := p } : HopEntry).byte t = e.byte t := by
  have h1 : ¬ t < 1 := by omega
  unfold byte
  rw [if_neg h1, if_neg h1]
  split
  . rfl
  . split
    . rfl
    . exact LeafEntry.byte_setVersion ⟨e.hVersion, e.key, e.value⟩ p (by omega)

end HopEntry

instance : EntryType HopEntry where
  size := leafEntrySize + 2
  le_size := by decide
  hVersion := HopEntry.hVersion
  setVersion := fun e p => { e with hVersion := p }
  byte := HopEntry.byte
  ofBytes := HopEntry.ofBytes
  hVersion_setVersion := fun _ _ => rfl
  setVersion_hVersion := fun _ => rfl
  byte_zero := fun _ => rfl
  byte_setVersion := fun e p _ => e.byte_setVersion p
  ofBytes_eq := HopEntry.ofBytes_eq
  byte_ofBytes := HopEntry.byte_ofBytes

/-- `LeafNode` -/
structure Node (E : Type) where
  metadata : LeafMetadata
  records : Vector E leafSpanSize

def LeafMetadata.setNodeVersion (m : LeafMetadata) (v : BitVec 4) : LeafMetadata :=
  { m with hVersion := { m.hVersion with nodeVersion := v } }

theorem LeafMetadata.byte_zero (m : LeafMetadata) : m.byte 0 = m.hVersion.toByte := rfl

theorem LeafMetadata.byte_setNodeVersion (m : LeafMetadata) (v : BitVec 4) {t : Nat} (ht : 0 < t)
    : (m.setNodeVersion v).byte t = m.byte t := by
  have h : ¬ t < versionSize := by
    rw [versionSize_eq]
    omega
  unfold byte
  rw [if_neg h, if_neg h]
  rfl

section

variable {E : Type} [EntryType E]

open EntryType

def EntryType.nodeVersion (e : E) : BitVec 4 := (hVersion e).nodeVersion

def EntryType.setNodeVersion (v : BitVec 4) (e : E) : E :=
  setVersion e { hVersion e with nodeVersion := v }

/-- The bytes from `records[start]` on. -/
def recordBytes (rs : Vector E leafSpanSize) (start : Nat) : Buffer :=
  fun x =>
    match rs[start + x / size E]? with
    | some e => byte e (x % size E)
    | none => 0

theorem size_pos : 0 < size E := pos_of_le le_size

theorem recordBytes_apply (rs : Vector E leafSpanSize) (start : Nat) {j t : Nat}
    (hj : start + j < leafSpanSize) (ht : t < size E)
    : recordBytes rs start (size E * j + t) = byte rs[start + j] t := by
  unfold recordBytes
  rw [Nat.mul_add_div size_pos, Nat.mul_add_mod, Nat.div_eq_of_lt ht, Nat.mod_eq_of_lt ht, Nat.add_zero,
    Vector.getElem?_eq_getElem hj]

namespace Node

/-- The bytes of a node. -/
def bytes (n : Node E) : Buffer :=
  fun x => if x < leafMetadataSize then n.metadata.byte x else recordBytes n.records 0 (x - leafMetadataSize)

def ofBytes (buf : Buffer) : Node E where
  metadata := .ofBytes buf 0
  records := Vector.ofFn fun i => EntryType.ofBytes buf (leafMetadataSize + size E * i)

-- `METADATA_REPLICATION`
variable (repl : Bool)

def decodedLeafSize (E : Type) [EntryType E] : Nat :=
  if repl then
    (leafMetadataSize + size E * neighborSize) * entryGroupNum
  else
    leafMetadataSize + size E * leafSpanSize

def transLeafSize (E : Type) [EntryType E] : Nat :=
  if decodedLeafSize repl E ≤ cachelineSize then
    decodedLeafSize repl E
  else
    cachelineSize + addCachelineVersionSize (decodedLeafSize repl E - cachelineSize) versionSize

/-- `get_lock_info` -/
def lockOffset (E : Type) [EntryType E] : Nat := roundUp (transLeafSize repl E) 3

/-- The image of a node that is written as a whole, made in `output`. -/
def encode (n : Node E) (intermediate output : Buffer) : Buffer :=
  if repl then
    LeafVersionManager.encodeNodeVersions (size E)
      (MetadataManager.encodeNodeMetadata (size E) n.bytes intermediate) output
  else
    VersionManager.encodeNodeVersions (nodeLayout (size E) size_pos) n.bytes output

/-- The node of an image, `none` if the versions do not match. -/
def decode (img intermediate output : Buffer) : Option (Node E) :=
  if repl then do
    let scatteredLeaf ← LeafVersionManager.decodeNodeVersions (size E) img intermediate
    let leaf ← MetadataManager.decodeNodeMetadata (size E) scatteredLeaf output
    return ofBytes leaf
  else do
    let leaf ← VersionManager.decodeNodeVersions (nodeLayout (size E) size_pos) img output
    return ofBytes leaf

/-- The node version that an encoder increments. -/
def oldNodeVersion (n : Node E) : BitVec 4 :=
  if repl then n.metadata.hVersion.nodeVersion else nodeVersion (n.records.get 0)

def setNodeVersion (n : Node E) (v : BitVec 4) : Node E where
  metadata := n.metadata.setNodeVersion v
  records := n.records.map (EntryType.setNodeVersion v)

/-- What an encoder makes of the node. -/
def bumpNodeVersions (n : Node E) : Node E := n.setNodeVersion (n.oldNodeVersion repl + 1)

end Node

/-!
The objects of a node, and where they stand in the two layouts.
-/

variable (repl : Bool)

def nodeFrame (E : Type) [EntryType E] : Frame :=
  match repl with
  | true => scatteredFrame (size E) le_size
  | false => plainFrame (size E) le_size

def metadataNum : Nat :=
  match repl with
  | true => entryGroupNum
  | false => 1

def metadataOffset (E : Type) [EntryType E] (g : Nat) : Nat :=
  match repl with
  | true => groupBytes (size E) * g
  | false => 0

def recordOffset (E : Type) [EntryType E] (i : Nat) : Nat :=
  match repl with
  | true => LeafVersionManager.entryOffset (size E) i
  | false => leafMetadataSize + size E * i

variable {repl}

theorem metadataNum_pos : 0 < metadataNum repl := by
  cases repl with
  | true => decide
  | false => decide

theorem metadataOffset_zero : metadataOffset repl E 0 = 0 := by
  cases repl with
  | true => exact Nat.mul_zero _
  | false => rfl

theorem owner_metadata (g : Nat) {t : Nat} (ht : t < leafMetadataSize)
    : (nodeFrame repl E).owner (metadataOffset repl E g + t) = metadataOffset repl E g := by
  rw [leafMetadataSize_eq] at ht
  cases repl with
  | true => exact LeafVersionManager.scatteredOwner_metadata g ht
  | false =>
    change headerOwner (size E) (0 + t) = 0
    rw [Nat.zero_add]
    exact headerOwner_of_lt ht

theorem owner_record (i : Nat) {t : Nat} (ht : t < size E)
    : (nodeFrame repl E).owner (recordOffset repl E i + t) = recordOffset repl E i := by
  cases repl with
  | true => exact LeafVersionManager.scatteredOwner_record size_pos _ (Nat.mod_lt _ (by decide)) ht
  | false => exact headerOwner_entry size_pos i ht

theorem owner_metadataOffset (repl : Bool) (E : Type) [EntryType E] (g : Nat)
    : (nodeFrame repl E).owner (metadataOffset repl E g) = metadataOffset repl E g :=
  owner_metadata g (show 0 < leafMetadataSize by decide)

theorem owner_recordOffset (repl : Bool) (E : Type) [EntryType E] (i : Nat)
    : (nodeFrame repl E).owner (recordOffset repl E i) = recordOffset repl E i :=
  owner_record i size_pos

theorem metadata_lt_size {g t : Nat} (hg : g < metadataNum repl) (ht : t < leafMetadataSize)
    : metadataOffset repl E g + t < (nodeFrame repl E).size := by
  rw [leafMetadataSize_eq] at ht
  cases repl with
  | true =>
    change g < 2 at hg
    change groupBytes (size E) * g + t < groupBytes (size E) * 2
    have hg' := groupBytes_eq (size E)
    have hmul := Nat.mul_le_mul_left (groupBytes (size E)) (show g + 1 ≤ 2 by omega)
    rw [Nat.mul_succ] at hmul
    omega
  | false =>
    change 0 + t < leafMetadataSize + size E * leafSpanSize
    rw [leafMetadataSize_eq]
    omega

theorem record_lt_size {i t : Nat} (hi : i < leafSpanSize) (ht : t < size E)
    : recordOffset repl E i + t < (nodeFrame repl E).size := by
  rw [leafSpanSize_eq] at hi
  cases repl with
  | true =>
    change groupBytes (size E) * (i / 8) + 9 + size E * (i % 8) + t < groupBytes (size E) * 2
    have hg' := groupBytes_eq (size E)
    have hmul := Nat.mul_le_mul_left (groupBytes (size E)) (show i / 8 + 1 ≤ 2 by omega)
    have hrec := Nat.mul_le_mul_left (size E) (show i % 8 + 1 ≤ 8 by omega)
    rw [Nat.mul_succ] at hmul hrec
    omega
  | false =>
    change 9 + size E * i + t < 9 + size E * 16
    have hrec := Nat.mul_le_mul_left (size E) (show i + 1 ≤ 16 by omega)
    rw [Nat.mul_succ] at hrec
    omega

theorem exists_object {x : Nat} (hx : x < (nodeFrame repl E).size)
    : (∃ g t, g < metadataNum repl ∧ t < leafMetadataSize ∧ x = metadataOffset repl E g + t)
        ∨ ∃ i t, i < leafSpanSize ∧ t < size E ∧ x = recordOffset repl E i + t := by
  rw [leafMetadataSize_eq, leafSpanSize_eq]
  have hpos : 0 < size E := size_pos
  cases repl with
  | true =>
    change x < groupBytes (size E) * 2 at hx
    have hg' := groupBytes_eq (size E)
    have hq : x / groupBytes (size E) < 2 := Nat.div_lt_of_lt_mul hx
    have hx' := Nat.div_add_mod x (groupBytes (size E))
    have hmod := Nat.mod_lt x (groupBytes_pos (e := size E))
    by_cases h : x % groupBytes (size E) < 9
    . exact .inl ⟨_, _, hq, h, hx'.symm⟩
    . have hr := Nat.div_add_mod (x % groupBytes (size E) - 9) (size E)
      have hlt := Nat.mod_lt (x % groupBytes (size E) - 9) hpos
      have hrlt : (x % groupBytes (size E) - 9) / size E < 8 := by
        apply Nat.div_lt_of_lt_mul
        omega
      refine .inr ⟨8 * (x / groupBytes (size E)) + (x % groupBytes (size E) - 9) / size E,
        (x % groupBytes (size E) - 9) % size E, by omega, hlt, ?_⟩
      change x = LeafVersionManager.entryOffset _ _ + _
      rw [LeafVersionManager.entryOffset_add, LeafVersionManager.entryOffset_lt _ hrlt]
      omega
  | false =>
    change x < 9 + size E * 16 at hx
    by_cases h : x < 9
    . exact .inl ⟨0, x, by decide, h, (Nat.zero_add x).symm⟩
    . have hr := Nat.div_add_mod (x - 9) (size E)
      refine .inr ⟨(x - 9) / size E, (x - 9) % size E, ?_, Nat.mod_lt _ hpos, ?_⟩
      . apply Nat.div_lt_of_lt_mul
        omega
      . change x = 9 + size E * ((x - 9) / size E) + (x - 9) % size E
        omega

/-- The bytes of a node with these copies of the metadata and these records. -/
structure Holds (repl : Bool) (buf : Buffer) (metas : Nat → LeafMetadata) (rs : Vector E leafSpanSize)
    : Prop where
  metadata : ∀ {g t}, g < metadataNum repl → t < leafMetadataSize →
    buf (metadataOffset repl E g + t) = (metas g).byte t
  record : ∀ {i t} (hi : i < leafSpanSize), t < size E →
    buf (recordOffset repl E i + t) = byte rs[i] t

namespace Holds

variable {buf buf' : Buffer} {metas metas' : Nat → LeafMetadata} {rs rs' : Vector E leafSpanSize}

theorem of_buffer (repl : Bool) (buf : Buffer)
    : Holds repl buf (fun g => .ofBytes buf (metadataOffset repl E g))
        (Vector.ofFn fun i => (EntryType.ofBytes buf (recordOffset repl E i) : E)) where
  metadata := by
    intro g t _ ht
    exact (LeafMetadata.byte_ofBytes buf _ ht).symm
  record := by
    intro i t hi ht
    rw [Vector.getElem_ofFn]
    exact (byte_ofBytes buf _ ht).symm

theorem metadata_eq (h : Holds repl buf metas rs) {g : Nat} (hg : g < metadataNum repl)
    : LeafMetadata.ofBytes buf (metadataOffset repl E g) = metas g := by
  apply LeafMetadata.ofBytes_eq
  intro t ht
  exact h.metadata hg ht

theorem records_eq (h : Holds repl buf metas rs)
    : (Vector.ofFn fun i => (EntryType.ofBytes buf (recordOffset repl E i) : E)) = rs := by
  apply Vector.ext
  intro i hi
  rw [Vector.getElem_ofFn]
  apply ofBytes_eq
  intro t ht
  exact h.record hi ht

theorem congr (h : Holds repl buf metas rs) (heq : ∀ x, x < (nodeFrame repl E).size → buf' x = buf x)
    : Holds repl buf' metas rs where
  metadata := by
    intro g t hg ht
    rw [heq _ (metadata_lt_size hg ht)]
    exact h.metadata hg ht
  record := by
    intro i t hi ht
    rw [heq _ (record_lt_size hi ht)]
    exact h.record hi ht

theorem metadata_nodeVersion (h : Holds repl buf metas rs) {g : Nat} (hg : g < metadataNum repl)
    : Layout.nodeVersion buf (metadataOffset repl E g) = (metas g).hVersion.nodeVersion := by
  have hbyte := h.metadata hg (show 0 < leafMetadataSize by decide)
  rw [Nat.add_zero] at hbyte
  unfold Layout.nodeVersion
  rw [hbyte, LeafMetadata.byte_zero, PackedVersion.ofByte_toByte]

theorem record_nodeVersion (h : Holds repl buf metas rs) {i : Nat} (hi : i < leafSpanSize)
    : Layout.nodeVersion buf (recordOffset repl E i) = nodeVersion rs[i] := by
  have hbyte := h.record hi size_pos
  rw [Nat.add_zero] at hbyte
  unfold Layout.nodeVersion
  rw [hbyte, byte_zero, PackedVersion.ofByte_toByte]
  rfl

theorem uniform_iff (h : Holds repl buf metas rs)
    : (nodeFrame repl E).Uniform buf
        ↔
      (∀ g, g < metadataNum repl → (metas g).hVersion.nodeVersion = (metas 0).hVersion.nodeVersion)
        ∧ ∀ i (hi : i < leafSpanSize), nodeVersion rs[i] = (metas 0).hVersion.nodeVersion := by
  have hzero := h.metadata_nodeVersion metadataNum_pos
  rw [metadataOffset_zero] at hzero
  unfold Frame.Uniform
  rw [hzero]
  constructor
  . intro hu
    constructor
    . intro g hg
      have hversion := hu _ (metadata_lt_size hg (show 0 < leafMetadataSize by decide))
      rw [Nat.add_zero, owner_metadataOffset, h.metadata_nodeVersion hg] at hversion
      exact hversion
    . intro i hi
      have hversion := hu _ (record_lt_size (E := E) hi size_pos)
      rw [Nat.add_zero, owner_recordOffset, h.record_nodeVersion hi] at hversion
      exact hversion
  . rintro ⟨hm, hr⟩ x hx
    rcases exists_object hx with ⟨g, t, hg, ht, rfl⟩ | ⟨i, t, hi, ht, rfl⟩
    . rw [owner_metadata g ht, h.metadata_nodeVersion hg]
      exact hm g hg
    . rw [owner_record i ht, h.record_nodeVersion hi]
      exact hr i hi

theorem setNodeVersions (h : Holds repl buf metas rs) (v : BitVec 4)
    : Holds repl ((nodeFrame repl E).setNodeVersions v buf) (fun g => (metas g).setNodeVersion v)
        (rs.map (EntryType.setNodeVersion v)) where
  metadata := by
    intro g t hg ht
    unfold Frame.setNodeVersions
    rw [owner_metadata g ht, h.metadata hg ht]
    rcases Nat.eq_zero_or_pos t with rfl | hpos
    . rw [if_pos (Nat.add_zero _).symm, LeafMetadata.byte_zero, LeafMetadata.byte_zero,
        PackedVersion.ofByte_toByte]
      rfl
    . rw [if_neg (by omega), LeafMetadata.byte_setNodeVersion _ v hpos]
  record := by
    intro i t hi ht
    unfold Frame.setNodeVersions
    rw [owner_record i ht, h.record hi ht, Vector.getElem_map]
    unfold EntryType.setNodeVersion
    rcases Nat.eq_zero_or_pos t with rfl | hpos
    . rw [if_pos (Nat.add_zero _).symm, byte_zero, byte_zero, PackedVersion.ofByte_toByte,
        hVersion_setVersion]
    . rw [if_neg (by omega), byte_setVersion _ _ _ hpos]

end Holds

end

end Rolex

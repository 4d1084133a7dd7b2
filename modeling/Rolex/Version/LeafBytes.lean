import Rolex.Version.Manager

/-!
This module contains the leaf nodes of the plain layout as the bytes that `VersionManager` works on.
-/

namespace Rolex

theorem Buffer.word_width (n : Nat) : 8 + 8 * n = 8 * (n + 1) := by
  omega

/-- The integer of `n` bytes at offset `x`, the least significant byte first. -/
def Buffer.word (buf : Buffer) (x : Nat) : (n : Nat) → BitVec (8 * n)
  | 0 => 0
  | n + 1 => (buf (x + n) ++ word buf x n).cast (word_width n)

def wordByte {n : Nat} (w : BitVec n) (t : Nat) : BitVec 8 := w.extractLsb' (8 * t) 8

theorem getLsbD_word (buf : Buffer) (x : Nat) {n i : Nat} (hi : i < 8 * n)
    : (buf.word x n).getLsbD i = (buf (x + i / 8)).getLsbD (i % 8) := by
  induction n with
  | zero => omega
  | succ n ih =>
    rw [Buffer.word, BitVec.getLsbD_cast, BitVec.getLsbD_append]
    split
    . next h => exact ih h
    . next h =>
      have hdiv : i / 8 = n := by omega
      have hmod : i - 8 * n = i % 8 := by omega
      rw [hdiv, hmod]

theorem wordByte_word (buf : Buffer) (x : Nat) {n t : Nat} (ht : t < n)
    : wordByte (buf.word x n) t = buf (x + t) := by
  apply BitVec.eq_of_getLsbD_eq
  intro i hi
  have hdiv : (8 * t + i) / 8 = t := by omega
  have hmod : (8 * t + i) % 8 = i := by omega
  rw [wordByte, BitVec.getLsbD_extractLsb', getLsbD_word buf x (by omega), hdiv, hmod]
  simp [hi]

theorem word_eq {buf : Buffer} {x n : Nat} {w : BitVec (8 * n)}
    (h : ∀ t < n, buf (x + t) = wordByte w t)
    : buf.word x n = w := by
  apply BitVec.eq_of_getLsbD_eq
  intro i hi
  have hsum : 8 * (i / 8) + i % 8 = i := by omega
  rw [getLsbD_word buf x hi, h _ (by omega), wordByte, BitVec.getLsbD_extractLsb', hsum]
  simp [show i % 8 < 8 by omega]

namespace GlobalAddress

/-- The two bit fields as one word, the first one in the low bits. -/
def val (a : GlobalAddress) : BitVec (8 * 8) := a.offset ++ a.nodeID

def ofVal (val : BitVec (8 * 8)) : GlobalAddress := ⟨val.extractLsb' 0 16, val.extractLsb' 16 48⟩

theorem getLsbD_val (a : GlobalAddress) (i : Nat)
    : a.val.getLsbD i = if i < 16 then a.nodeID.getLsbD i else a.offset.getLsbD (i - 16) :=
  BitVec.getLsbD_append

@[simp]
theorem ofVal_val (a : GlobalAddress) : ofVal a.val = a := by
  obtain ⟨n, o⟩ := a
  simp only [ofVal, mk.injEq]
  constructor
  . apply BitVec.eq_of_getLsbD_eq
    intro i hi
    simp [getLsbD_val, hi]
  . apply BitVec.eq_of_getLsbD_eq
    intro i hi
    simp [getLsbD_val, hi]

@[simp]
theorem val_ofVal (v : BitVec (8 * 8)) : (ofVal v).val = v := by
  apply BitVec.eq_of_getLsbD_eq
  intro i hi
  rw [getLsbD_val]
  split
  . next h => simp [ofVal, h]
  . next h =>
    have h16 : 16 + (i - 16) = i := by omega
    simp [ofVal, h16, show i - 16 < 48 by omega]

end GlobalAddress

theorem leafMetadataSize_pos : 0 < leafMetadataSize := by
  decide

theorem leafSpanSize_pos : 0 < leafSpanSize := by
  decide

/-- The layout of `LeafNode`. -/
def plainLayout : Layout where
  recordsOffset := leafMetadataSize
  entrySize := leafEntrySize
  entryNum := leafSpanSize
  recordsOffset_pos := leafMetadataSize_pos
  entrySize_pos := by decide
  entryNum_pos := leafSpanSize_pos

example : plainLayout.size = decodedLeafSize := by decide

/-- Byte `t` of the header. -/
def LeafMetadata.byte (h : LeafMetadata) (t : Nat) : BitVec 8 :=
  if t < versionSize then h.hVersion.toByte else wordByte h.synonymPtr.val (t - versionSize)

/-- Byte `t` of a record. -/
def LeafEntry.byte (e : LeafEntry) (t : Nat) : BitVec 8 :=
  if t < versionSize then
    e.hVersion.toByte
  else if t < versionSize + keyLen then
    (e.key.bytes[t - versionSize]?.getD 0).toBitVec
  else
    wordByte e.value.toBitVec (t - versionSize - keyLen)

def LeafMetadata.ofBytes (buf : Buffer) (x : Nat) : LeafMetadata where
  hVersion := .ofByte (buf x)
  synonymPtr := .ofVal (buf.word (x + versionSize) 8)

def LeafEntry.ofBytes (buf : Buffer) (x : Nat) : LeafEntry where
  hVersion := .ofByte (buf x)
  key := ⟨Vector.ofFn fun i => .ofBitVec (buf (x + versionSize + i))⟩
  value := .ofBitVec (buf.word (x + versionSize + keyLen) 8)

def LeafNode.bytes (n : LeafNode) : Buffer :=
  fun x =>
    if x < leafMetadataSize then
      n.metadata.byte x
    else
      (n.records.get ((x - leafMetadataSize) / leafEntrySize)).byte ((x - leafMetadataSize) % leafEntrySize)

def LeafNode.ofBytes (buf : Buffer) : LeafNode where
  metadata := .ofBytes buf 0
  records := Vector.ofFn fun e => .ofBytes buf (plainLayout.entryOffset e)

theorem LeafMetadata.ofBytes_eq {buf : Buffer} {x : Nat} {h : LeafMetadata}
    (hbuf : ∀ t < leafMetadataSize, buf (x + t) = h.byte t)
    : LeafMetadata.ofBytes buf x = h := by
  obtain ⟨p, a⟩ := h
  have hp := hbuf 0 (by decide)
  have ha : buf.word (x + versionSize) 8 = a.val := by
    apply word_eq
    intro t ht
    have := hbuf (versionSize + t) (by simp only [leafMetadataSize]; omega)
    rw [Nat.add_assoc, this, byte, if_neg (by omega)]
    congr 1
    omega
  rw [ofBytes, ha, GlobalAddress.ofVal_val]
  rw [Nat.add_zero] at hp
  rw [hp, byte, if_pos (by decide), PackedVersion.ofByte_toByte]

theorem LeafMetadata.byte_ofBytes (buf : Buffer) (x : Nat) {t : Nat} (ht : t < leafMetadataSize)
    : (LeafMetadata.ofBytes buf x).byte t = buf (x + t) := by
  unfold byte
  split
  . next h =>
    have : t = 0 := by rw [versionSize_eq] at h; omega
    subst this
    simp [ofBytes]
  . next h =>
    have hlt : t - versionSize < 8 := by
      simp only [leafMetadataSize] at ht
      omega
    simp only [ofBytes, GlobalAddress.val_ofVal]
    rw [wordByte_word _ _ hlt]
    congr 1
    omega

theorem LeafEntry.byte_key (e : LeafEntry) {i : Nat} (hi : i < keyLen)
    : e.byte (i + 1) = (e.key.bytes[i]?.getD 0).toBitVec := by
  unfold byte
  rw [versionSize_eq, if_neg (by omega), if_pos (by omega), Nat.add_sub_cancel]

theorem LeafEntry.byte_value (e : LeafEntry) (t : Nat)
    : e.byte (t + 9) = wordByte e.value.toBitVec t := by
  have hkey : keyLen = 8 := rfl
  unfold byte
  rw [versionSize_eq, if_neg (by omega), if_neg (by omega)]
  rfl

theorem LeafEntry.byte_setVersion (e : LeafEntry) (p : PackedVersion) {t : Nat} (ht : 0 < t)
    : ({ e with hVersion := p } : LeafEntry).byte t = e.byte t := by
  have h : ¬ t < versionSize := by
    rw [versionSize_eq]
    omega
  unfold byte
  rw [if_neg h, if_neg h]

theorem LeafEntry.ofBytes_eq {buf : Buffer} {x : Nat} {e : LeafEntry}
    (hbuf : ∀ t < leafEntrySize, buf (x + t) = e.byte t)
    : LeafEntry.ofBytes buf x = e := by
  obtain ⟨p, ⟨k⟩, v⟩ := e
  have hp := hbuf 0 (by decide)
  have hk : (Vector.ofFn fun i : Fin keyLen => UInt8.ofBitVec (buf (x + versionSize + i))) = k := by
    apply Vector.ext
    intro i hi
    have := hbuf (versionSize + i) (by simp only [leafEntrySize]; omega)
    rw [Vector.getElem_ofFn]
    dsimp only
    rw [Nat.add_assoc, this, byte, if_neg (by omega), if_pos (by omega)]
    simp [hi]
  have hv : buf.word (x + versionSize + keyLen) 8 = v.toBitVec := by
    apply word_eq (n := 8)
    intro t ht
    have := hbuf (versionSize + keyLen + t) (by simp only [leafEntrySize, inlineValLen]; omega)
    rw [Nat.add_assoc, Nat.add_assoc, ← Nat.add_assoc versionSize, this, byte, if_neg (by omega),
      if_neg (by omega)]
    congr 1
    omega
  rw [ofBytes, hk, hv]
  rw [Nat.add_zero] at hp
  rw [hp, byte, if_pos (by decide), PackedVersion.ofByte_toByte]

theorem LeafEntry.byte_ofBytes (buf : Buffer) (x : Nat) {t : Nat} (ht : t < leafEntrySize)
    : (LeafEntry.ofBytes buf x).byte t = buf (x + t) := by
  unfold byte
  split
  . next h =>
    have : t = 0 := by rw [versionSize_eq] at h; omega
    subst this
    simp [ofBytes]
  . next h =>
    split
    . next hk =>
      have hlt : t - versionSize < keyLen := by omega
      simp only [ofBytes]
      rw [Vector.getElem?_eq_getElem hlt, Vector.getElem_ofFn]
      simp only [Option.getD_some]
      congr 1
      omega
    . next hk =>
      have hlt : t - versionSize - keyLen < 8 := by
        simp only [leafEntrySize, inlineValLen] at ht
        omega
      simp only [ofBytes]
      refine (wordByte_word _ _ hlt).trans ?_
      congr 1
      omega

namespace LeafNode

theorem leafMetadataSize_eq : leafMetadataSize = 9 := rfl

theorem leafEntrySize_eq : leafEntrySize = 17 := rfl

theorem size_plainLayout : plainLayout.size = 281 := rfl

theorem entryOffset_plainLayout (e : Nat) : plainLayout.entryOffset e = 9 + 17 * e := rfl

theorem bytes_metadata (n : LeafNode) {t : Nat} (ht : t < leafMetadataSize)
    : n.bytes t = n.metadata.byte t := if_pos ht

theorem bytes_entry (n : LeafNode) (e : Nat) {t : Nat} (ht : t < leafEntrySize)
    : n.bytes (plainLayout.entryOffset e + t) = (n.records.get e).byte t := by
  unfold bytes
  rw [entryOffset_plainLayout]
  rw [leafMetadataSize_eq, leafEntrySize_eq] at *
  have hdiv : (9 + 17 * e + t - 9) / 17 = e := by omega
  have hmod : (9 + 17 * e + t - 9) % 17 = t := by omega
  rw [if_neg (by omega), hdiv, hmod]

theorem exists_offset {x : Nat} (hx : x < plainLayout.size)
    : x < leafMetadataSize
        ∨ ∃ e t, e < leafSpanSize ∧ t < leafEntrySize ∧ x = plainLayout.entryOffset e + t := by
  rw [size_plainLayout] at hx
  rw [leafMetadataSize_eq, leafEntrySize_eq]
  by_cases h : x < 9
  . exact .inl h
  . refine .inr ⟨(x - 9) / 17, (x - 9) % 17, ?_, by omega, ?_⟩
    . have : leafSpanSize = 16 := rfl
      omega
    . rw [entryOffset_plainLayout]
      omega

theorem ofBytes_eq {buf : Buffer} {n : LeafNode} (h : ∀ x < plainLayout.size, buf x = n.bytes x)
    : ofBytes buf = n := by
  obtain ⟨metadata, records⟩ := n
  have hmeta : LeafMetadata.ofBytes buf 0 = metadata := by
    apply LeafMetadata.ofBytes_eq
    intro t ht
    rw [Nat.zero_add, h t (Nat.lt_of_lt_of_le ht (by decide)), bytes_metadata _ ht]
  have hrec : (Vector.ofFn fun e : Fin leafSpanSize =>
      LeafEntry.ofBytes buf (plainLayout.entryOffset e)) = records := by
    apply Vector.ext
    intro e he
    rw [Vector.getElem_ofFn, ← Records.get_eq_getElem records he]
    apply LeafEntry.ofBytes_eq
    intro t ht
    rw [h, bytes_entry _ e ht]
    rw [size_plainLayout, entryOffset_plainLayout]
    rw [leafEntrySize_eq] at ht
    have : leafSpanSize = 16 := rfl
    omega
  rw [ofBytes, hmeta, hrec]

theorem bytes_ofBytes (buf : Buffer) {x : Nat} (hx : x < plainLayout.size)
    : (ofBytes buf).bytes x = buf x := by
  rcases exists_offset hx with h | ⟨e, t, he, ht, rfl⟩
  . rw [bytes_metadata _ h]
    have := LeafMetadata.byte_ofBytes buf 0 h
    rwa [Nat.zero_add] at this
  . rw [bytes_entry _ e ht, Records.get_eq_getElem _ he]
    simp only [ofBytes, Vector.getElem_ofFn]
    exact LeafEntry.byte_ofBytes buf _ ht

theorem nodeVersion_bytes_entry (n : LeafNode) {e : Nat}
    : Layout.nodeVersion n.bytes (plainLayout.entryOffset e)
        =
      (n.records.get e).hVersion.nodeVersion := by
  have := n.bytes_entry e (t := 0) (by decide)
  rw [Nat.add_zero] at this
  rw [Layout.nodeVersion, this, LeafEntry.byte, if_pos (by decide), PackedVersion.ofByte_toByte]

theorem mem_versionOffsets_metadata {t : Nat} (ht : t < leafMetadataSize)
    : t ∈ plainLayout.versionOffsets ↔ t < versionSize := by
  rw [leafMetadataSize_eq] at ht
  rw [versionSize_eq]
  simp only [Layout.versionOffsets, List.mem_cons, List.mem_map, entryOffset_plainLayout]
  constructor
  . rintro (h | ⟨e, -, h⟩)
    . omega
    . omega
  . intro h
    exact .inl (by omega)

theorem mem_versionOffsets_entry {e t : Nat} (he : e < leafSpanSize) (ht : t < leafEntrySize)
    : plainLayout.entryOffset e + t ∈ plainLayout.versionOffsets ↔ t < versionSize := by
  rw [leafEntrySize_eq] at ht
  rw [versionSize_eq]
  simp only [Layout.versionOffsets, List.mem_cons, List.mem_map, entryOffset_plainLayout]
  constructor
  . rintro (h | ⟨e', -, h⟩)
    . omega
    . omega
  . intro h
    exact .inr ⟨e, List.mem_range.mpr he, by omega⟩

theorem bumpNodeVersions_get (n : LeafNode) {e : Nat} (he : e < leafSpanSize)
    : n.bumpNodeVersions.records.get e
        =
      { n.records.get e with hVersion :=
        { (n.records.get e).hVersion with nodeVersion := (n.records.get 0).hVersion.nodeVersion + 1 } }
    := by
  simp [Records.get_eq_getElem _ he, bumpNodeVersions]

theorem increment_bytes (n : LeafNode) {x : Nat} (hx : x < plainLayout.size)
    : VersionManager.incrementNodeVersions plainLayout n.bytes x = n.bumpNodeVersions.bytes x := by
  rw [VersionManager.incrementNodeVersions_apply, nodeVersion_bytes_entry]
  rcases exists_offset hx with h | ⟨e, t, he, ht, rfl⟩
  . rw [bytes_metadata _ h, bytes_metadata _ h]
    unfold LeafMetadata.byte
    by_cases hv : x < versionSize
    . rw [if_pos ((mem_versionOffsets_metadata h).mpr hv), if_pos hv, if_pos hv,
        PackedVersion.ofByte_toByte]
      rfl
    . rw [if_neg (fun hm => hv ((mem_versionOffsets_metadata h).mp hm)), if_neg hv, if_neg hv]
      rfl
  . rw [bytes_entry _ e ht, bytes_entry _ e ht, bumpNodeVersions_get n he]
    unfold LeafEntry.byte
    by_cases hv : t < versionSize
    . rw [if_pos ((mem_versionOffsets_entry he ht).mpr hv), if_pos hv, if_pos hv,
        PackedVersion.ofByte_toByte]
    . rw [if_neg (fun hm => hv ((mem_versionOffsets_entry he ht).mp hm)), if_neg hv, if_neg hv]

def encodeNodeVersions (n : LeafNode) (output : Buffer) : Buffer :=
  VersionManager.encodeNodeVersions plainLayout n.bytes output

def decodeNodeVersions (input output : Buffer) : Option LeafNode :=
  (VersionManager.decodeNodeVersions plainLayout input output).map ofBytes

end LeafNode

end Rolex

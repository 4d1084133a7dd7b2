import Rolex.Dsm.Layout

/-!
This module contains READs that overlap with the WRITE of a node, which becomes visible cacheline by
cacheline: when the versions in the image reveal that a READ saw parts of two images.
-/

namespace Rolex

/--
The bytes `M` of a READ at `addr` while the image `A` there is replaced by `B`: each aligned cacheline
of the memory comes from one of the two.
-/
def Mixture (size addr : Nat) (A B M : Buffer) : Prop :=
  ∀ line, (∀ x < size, (addr + x) / cachelineSize = line → M x = A x)
    ∨ (∀ x < size, (addr + x) / cachelineSize = line → M x = B x)

/-- The cacheline of byte `x` of an image at `addr` has a version in it. -/
def Layout.Covered (L : Layout) (addr x : Nat) : Prop :=
  ∃ y ∈ L.marks, (addr + x) / cachelineSize = (addr + y) / cachelineSize

section

variable {L : Layout} {size addr : Nat} {A B M a b m oA oB oM : Buffer}

theorem Mixture.symm (h : Mixture size addr A B M) : Mixture size addr B A M :=
  fun line => (h line).symm

theorem Mixture.eq_of_mark (h : Mixture L.transSize addr A B M)
    (hB : VersionManager.decodeNodeVersions L B oB = some b)
    (hM : VersionManager.decodeNodeVersions L M oM = some m)
    (hne : Layout.nodeVersion m 0 ≠ Layout.nodeVersion b 0) {x : Nat} (hx : x < L.transSize)
    (hcov : L.Covered addr x)
    : M x = A x := by
  obtain ⟨y, hy, hline⟩ := hcov
  rcases h ((addr + x) / cachelineSize) with h | h
  . exact h x hx rfl
  . have hMB := h y (Layout.lt_of_mem_marks hy) hline.symm
    have hm := VersionManager.nodeVersion_of_mem_marks hM hy
    have hb := VersionManager.nodeVersion_of_mem_marks hB hy
    rw [Layout.nodeVersion, hMB] at hm
    exact absurd (hm.symm.trans hb) hne

/--
A mixture that is accepted is one of the two images, as long as these agree where no version covers
them.
-/
theorem Mixture.eq_or_eq (h : Mixture L.transSize addr A B M)
    (hA : VersionManager.decodeNodeVersions L A oA = some a)
    (hB : VersionManager.decodeNodeVersions L B oB = some b)
    (hM : VersionManager.decodeNodeVersions L M oM = some m)
    (hne : Layout.nodeVersion a 0 ≠ Layout.nodeVersion b 0)
    (hcov : ∀ x < L.transSize, L.Covered addr x ∨ A x = B x)
    : (∀ x < L.transSize, M x = A x) ∨ ∀ x < L.transSize, M x = B x := by
  -- where the images agree the mixture agrees with both
  have hsame : ∀ x < L.transSize, A x = B x → M x = A x ∧ M x = B x := by
    intro x hx heq
    rcases h ((addr + x) / cachelineSize) with h | h
    . have := h x hx rfl
      exact ⟨this, this.trans heq⟩
    . have := h x hx rfl
      exact ⟨this.trans heq.symm, this⟩
  by_cases hmb : Layout.nodeVersion m 0 = Layout.nodeVersion b 0
  . right
    intro x hx
    rcases hcov x hx with hc | heq
    . exact h.symm.eq_of_mark hA hM (fun hma => hne (hma.symm.trans hmb)) hx hc
    . exact (hsame x hx heq).2
  . left
    intro x hx
    rcases hcov x hx with hc | heq
    . exact h.eq_of_mark hB hM hmb hx hc
    . exact (hsame x hx heq).1

theorem decode_of_marks (hA : VersionManager.decodeNodeVersions L A oA = some a)
    (hmarks : ∀ y ∈ L.marks, M y = A y)
    : VersionManager.decodeNodeVersions L M oM = some (L.raw M oM L.size) := by
  obtain ⟨hblocks, hcons, -⟩ := VersionManager.decodeNodeVersions_eq_some.mp hA
  have hraw : ∀ x ∈ L.versionOffsets, L.raw M oM L.size x = L.raw A oA L.size x := by
    intro x hx
    unfold Layout.raw
    rw [if_pos (Layout.lt_of_mem_versionOffsets hx), if_pos (Layout.lt_of_mem_versionOffsets hx)]
    exact hmarks _ (List.mem_append_left _ (List.mem_map_of_mem hx))
  refine VersionManager.decodeNodeVersions_eq_some.mpr ⟨?_, ?_, rfl⟩
  . intro b hb hlt
    obtain ⟨x, hx, hobj⟩ := Layout.exists_objVersion_eq hlt
    have hmem : L.firstOffset + 64 * b ∈ L.marks := by
      apply List.mem_append_right
      refine List.mem_map.mpr ⟨b, List.mem_range.mpr ?_, rfl⟩
      unfold Layout.blockNum
      omega
    have := hblocks b hb hlt
    rw [hobj] at this
    rw [hobj, hraw x hx, this, hmarks _ hmem]
  . rw [Layout.isConsistent_iff] at hcons ⊢
    intro x hx
    unfold Layout.nodeVersion
    rw [hraw x hx, hraw _ (Layout.entryOffset_mem L.entryNum_pos)]
    exact hcons x hx

end

theorem getLeafAddress_offset {leafIdx : BitVec 64} {addr : GlobalAddress}
    (h : LeafBuild.plain.getLeafAddress leafIdx = some addr)
    : addr.offset.toNat % 64 = 48 * (leafIdx.toNat % 4) % 64 := by
  unfold LeafBuild.getLeafAddress at h
  have hstart : kLeafRegionStartOffset = 8388608 := by decide
  have hstride : LeafBuild.plain.leafStride = 304 := by decide
  dsimp only at h
  rw [hstart, hstride] at h
  split at h
  . obtain rfl := Option.some.inj h
    simp [memoryNodeNum]
    omega
  . cases h

/-- Of every four leaves the second one has a last cacheline without a version in it. -/
theorem covered_iff {addr leafIdx x : Nat} (haddr : addr % 64 = 48 * (leafIdx % 4) % 64) (hx : x < 285)
    : plainLayout.Covered addr x ↔ leafIdx % 4 ≠ 1 ∨ x < 272 := by
  have hline : ∀ y, (addr + x) / 64 = (addr + y) / 64
      ↔ (48 * (leafIdx % 4) % 64 + x) / 64 = (48 * (leafIdx % 4) % 64 + y) / 64 := by
    intro y
    omega
  have hall : ∀ r < 4, ∀ x < 285,
      (∃ y ∈ plainLayout.marks, (48 * r % 64 + x) / 64 = (48 * r % 64 + y) / 64)
        ↔ r ≠ 1 ∨ x < 272 := by
    decide +kernel
  have := hall (leafIdx % 4) (by omega) x hx
  rw [← this]
  unfold Layout.Covered
  rw [cachelineSize_eq]
  simp only [hline]

namespace LeafNode

variable {n n' : LeafNode}

/-- The value and the last five bytes of the key, which are the last bytes of a node's image. -/
def SameTail (e e' : LeafEntry) : Prop :=
  e.value = e'.value ∧ ∀ i, 3 ≤ i → i < keyLen → e.key.bytes[i]? = e'.key.bytes[i]?

theorem sameTail_iff {e e' : LeafEntry}
    : SameTail e e' ↔ ∀ t, 4 ≤ t → t < leafEntrySize → e.byte t = e'.byte t := by
  have hkey : keyLen = 8 := rfl
  rw [leafEntrySize_eq]
  constructor
  . rintro ⟨hvalue, hbytes⟩ t h4 ht
    by_cases h9 : t < 9
    . obtain ⟨i, rfl⟩ : ∃ i, t = i + 1 := ⟨t - 1, by omega⟩
      rw [e.byte_key (by omega), e'.byte_key (by omega), hbytes i (by omega) (by omega)]
    . obtain ⟨i, rfl⟩ : ∃ i, t = i + 9 := ⟨t - 9, by omega⟩
      rw [e.byte_value, e'.byte_value, hvalue]
  . intro h
    constructor
    . apply UInt64.eq_of_toBitVec_eq
      have hword : Buffer.word (fun t => wordByte e.value.toBitVec t) 0 8 = e.value.toBitVec := by
        apply word_eq (n := 8)
        intro t _
        rw [Nat.zero_add]
      rw [← hword]
      apply word_eq (n := 8)
      intro t ht
      have := h (t + 9) (by omega) (by omega)
      rw [e.byte_value, e'.byte_value] at this
      rwa [Nat.zero_add]
    . intro i h3 hi
      have := h (i + 1) (by omega) (by omega)
      rw [e.byte_key hi, e'.byte_key hi] at this
      rw [Vector.getElem?_eq_getElem hi, Vector.getElem?_eq_getElem hi] at this ⊢
      congr 1
      apply UInt8.eq_of_toBitVec_eq
      exact this

theorem transSize_plainLayout : plainLayout.transSize = 285 := rfl

theorem firstOffset_plainLayout : plainLayout.firstOffset = 64 := rfl

theorem encode_tail (output : Buffer) {x : Nat} (hlo : 272 ≤ x) (hhi : x < 285)
    : n.encodeNodeVersions output x = (n.records.get 15).byte (x - 268) := by
  have hoff : 64 + 63 * ((x - 64) / 64) + ((x - 64) % 64 - 1) = plainLayout.entryOffset 15 + (x - 268)
      := by
    rw [entryOffset_plainLayout]
    omega
  have hsize : plainLayout.entryOffset 15 + (x - 268) < plainLayout.size := by
    rw [entryOffset_plainLayout, size_plainLayout]
    omega
  unfold encodeNodeVersions
  rw [VersionManager.encodeNodeVersions_eq (by rw [transSize_plainLayout]; exact hhi), Layout.image,
    firstOffset_plainLayout, if_neg (by omega), if_neg (by omega), hoff, increment_bytes n hsize,
    bytes_entry _ 15 (by rw [leafEntrySize_eq]; omega), bumpNodeVersions_get n (by decide),
    LeafEntry.byte_setVersion _ _ (by omega)]

/-- `n'` is to be written over the image of `n`: its record 0 has the node version of that image. -/
def Follows (n n' : LeafNode) : Prop :=
  (n'.records.get 0).hVersion.nodeVersion = (n.bumpNodeVersions.records.get 0).hVersion.nodeVersion

theorem nodeVersion_zero_of_bytes {buf : Buffer}
    (h : ∀ x < plainLayout.size, buf x = n.bumpNodeVersions.bytes x)
    : Layout.nodeVersion buf 0 = (n.records.get 0).hVersion.nodeVersion + 1 := by
  rw [Layout.nodeVersion, h 0 (by decide), bytes_metadata _ (by decide), LeafMetadata.byte,
    if_pos (by decide), PackedVersion.ofByte_toByte]
  rfl

theorem Follows.nodeVersion_ne (h : Follows n n')
    : (n.records.get 0).hVersion.nodeVersion + 1 ≠ (n'.records.get 0).hVersion.nodeVersion + 1 := by
  rw [h, bumpNodeVersions_get n (by decide)]
  dsimp only
  generalize (n.records.get 0).hVersion.nodeVersion = v
  revert v
  decide

section

variable {leafIdx : BitVec 64} {addr : GlobalAddress} {oA oB M output : Buffer} {out : LeafNode}

theorem exists_decode_encode (n : LeafNode) (oA output : Buffer)
    : ∃ a, VersionManager.decodeNodeVersions plainLayout (n.encodeNodeVersions oA) output = some a
        ∧ (∀ x < plainLayout.size, a x = n.bumpNodeVersions.bytes x)
        ∧ Layout.nodeVersion a 0 = (n.records.get 0).hVersion.nodeVersion + 1 := by
  obtain ⟨a, ha, hbytes⟩ := VersionManager.decode_encode (L := plainLayout) n.bytes oA output
  have hbump : ∀ x < plainLayout.size, a x = n.bumpNodeVersions.bytes x := by
    intro x hx
    rw [hbytes x hx, increment_bytes n hx]
  exact ⟨a, ha, hbump, nodeVersion_zero_of_bytes hbump⟩

theorem decode_of_eq_encode (hM : ∀ x < plainLayout.transSize, M x = n.encodeNodeVersions oA x)
    (hd : decodeNodeVersions M output = some out)
    : decodeNodeVersions (n.encodeNodeVersions oA) output = some out := by
  obtain ⟨m, hm, rfl⟩ := Option.map_eq_some_iff.mp hd
  obtain ⟨a, ha, hsame⟩ : ∃ a, VersionManager.decodeNodeVersions plainLayout
      (n.encodeNodeVersions oA) output = some a ∧ ∀ x < plainLayout.size, a x = m x :=
    VersionManager.decodeNodeVersions_congr hM hm
  unfold decodeNodeVersions
  rw [ha, Option.map_some, Option.some.injEq]
  apply ofBytes_eq
  intro x hx
  rw [hsame x hx, bytes_ofBytes m hx]

theorem intact_of_covered (haddr : LeafBuild.plain.getLeafAddress leafIdx = some addr) (hnext : Follows n n')
    (hcov : leafIdx.toNat % 4 ≠ 1 ∨ SameTail (n.records.get 15) (n'.records.get 15))
    (hmix : Mixture LeafBuild.plain.transLeafSize addr.offset.toNat (n.encodeNodeVersions oA)
      (n'.encodeNodeVersions oB) M)
    (hd : decodeNodeVersions M output = some out)
    : decodeNodeVersions (n.encodeNodeVersions oA) output = some out
        ∨ decodeNodeVersions (n'.encodeNodeVersions oB) output = some out := by
  obtain ⟨m, hm, -⟩ := Option.map_eq_some_iff.mp hd
  obtain ⟨a, ha, -, hva⟩ := exists_decode_encode n oA output
  obtain ⟨b, hb, -, hvb⟩ := exists_decode_encode n' oB output
  have hne : Layout.nodeVersion a 0 ≠ Layout.nodeVersion b 0 := by
    rw [hva, hvb]
    exact hnext.nodeVersion_ne
  have hall : ∀ x < plainLayout.transSize, plainLayout.Covered addr.offset.toNat x
      ∨ n.encodeNodeVersions oA x = n'.encodeNodeVersions oB x := by
    intro x hx
    rw [transSize_plainLayout] at hx
    rw [covered_iff (getLeafAddress_offset haddr) hx]
    rcases hcov with h | h
    . exact .inl (.inl h)
    . by_cases hlo : x < 272
      . exact .inl (.inr hlo)
      . right
        rw [encode_tail oA (by omega) hx, encode_tail oB (by omega) hx]
        exact sameTail_iff.mp h _ (by omega) (by rw [leafEntrySize_eq]; omega)
  have hmix' : Mixture plainLayout.transSize addr.offset.toNat _ _ M := hmix
  rcases hmix'.eq_or_eq ha hb hm hne hall with h | h
  . exact .inl (decode_of_eq_encode h hd)
  . exact .inr (decode_of_eq_encode h hd)

/-- The first bytes of one image and the last cacheline of the other. -/
def tornImage (A B : Buffer) : Buffer := fun x => if x < 272 then A x else B x

theorem mixture_tornImage (A B : Buffer) (haddr : LeafBuild.plain.getLeafAddress leafIdx = some addr)
    (hidx : leafIdx.toNat % 4 = 1)
    : Mixture LeafBuild.plain.transLeafSize addr.offset.toNat A B (tornImage A B) := by
  have htrans : LeafBuild.plain.transLeafSize = 285 := by decide
  have hoffset := getLeafAddress_offset haddr
  rw [Mixture, htrans, cachelineSize_eq]
  intro line
  unfold tornImage
  by_cases hline : line = (addr.offset.toNat + 272) / 64
  . right
    intro x hx hl
    rw [if_neg (by omega)]
  . left
    intro x hx hl
    rw [if_pos (by omega)]

theorem marks_plainLayout : ∀ y ∈ plainLayout.marks, y < 272 := by
  decide +kernel

theorem exists_torn (haddr : LeafBuild.plain.getLeafAddress leafIdx = some addr) (hnext : Follows n n')
    (hidx : leafIdx.toNat % 4 = 1) (htail : ¬ SameTail (n.records.get 15) (n'.records.get 15))
    (oA oB output : Buffer)
    : ∃ M out, Mixture LeafBuild.plain.transLeafSize addr.offset.toNat (n.encodeNodeVersions oA)
          (n'.encodeNodeVersions oB) M
        ∧ decodeNodeVersions M output = some out
        ∧ decodeNodeVersions (n.encodeNodeVersions oA) output ≠ some out
        ∧ decodeNodeVersions (n'.encodeNodeVersions oB) output ≠ some out := by
  obtain ⟨a, ha, habytes, hva⟩ := exists_decode_encode n oA output
  obtain ⟨b, hb, hbbytes, hvb⟩ := exists_decode_encode n' oB output
  have hmarks : ∀ y ∈ plainLayout.marks,
      tornImage (n.encodeNodeVersions oA) (n'.encodeNodeVersions oB) y = n.encodeNodeVersions oA y :=
    fun y hy => if_pos (marks_plainLayout y hy)
  have hm : VersionManager.decodeNodeVersions plainLayout
      (tornImage (n.encodeNodeVersions oA) (n'.encodeNodeVersions oB)) output = some _ :=
    decode_of_marks ha hmarks
  generalize hmdef : plainLayout.raw (tornImage (n.encodeNodeVersions oA) (n'.encodeNodeVersions oB))
    output plainLayout.size = m at hm
  -- an image decodes to the same node only if it has the same bytes
  have hbytes : ∀ {nd : LeafNode} {o buf : Buffer},
      VersionManager.decodeNodeVersions plainLayout (nd.encodeNodeVersions o) output = some buf →
      decodeNodeVersions (nd.encodeNodeVersions o) output = some (ofBytes m) →
      ∀ x < plainLayout.size, buf x = m x := by
    intro nd o buf hbuf heq x hx
    unfold decodeNodeVersions at heq
    rw [hbuf, Option.map_some, Option.some.injEq] at heq
    rw [← bytes_ofBytes buf hx, heq, bytes_ofBytes m hx]
  refine ⟨_, ofBytes m, mixture_tornImage _ _ haddr hidx, by rw [decodeNodeVersions, hm]; rfl, ?_, ?_⟩
  . intro heq
    apply htail
    rw [sameTail_iff, leafEntrySize_eq]
    intro t h4 ht
    have hx : t + 264 < plainLayout.size := by
      rw [size_plainLayout]
      omega
    have hoff : plainLayout.imageOffset (t + 264) = t + 268 := by
      unfold Layout.imageOffset
      rw [firstOffset_plainLayout, if_neg (by omega)]
      omega
    have hsame := hbytes ha heq _ hx
    rw [VersionManager.decodeNodeVersions_apply ha hx, VersionManager.decodeNodeVersions_apply hm hx,
      hoff, tornImage, if_neg (by omega), encode_tail oA (by omega) (by omega),
      encode_tail oB (by omega) (by omega), Nat.add_sub_cancel] at hsame
    exact hsame
  . intro heq
    have hsame := hbytes hb heq 0 (by decide)
    have hzero : m 0 = a 0 := by
      rw [VersionManager.decodeNodeVersions_apply ha (by decide),
        VersionManager.decodeNodeVersions_apply hm (by decide)]
      rfl
    apply hnext.nodeVersion_ne
    rw [← hva, ← hvb, Layout.nodeVersion, Layout.nodeVersion, hsame, hzero]

/--
A READ of a leaf during the WRITE of its next image, for every leaf: whatever is accepted is one of the
two images, unless the leaf is the second one of four and its last record differs in the last bytes.
-/
theorem torn_read_iff (haddr : LeafBuild.plain.getLeafAddress leafIdx = some addr) (hnext : Follows n n')
    (oA oB output : Buffer)
    : (∀ M out,
          Mixture LeafBuild.plain.transLeafSize addr.offset.toNat (n.encodeNodeVersions oA)
            (n'.encodeNodeVersions oB) M →
          decodeNodeVersions M output = some out →
          decodeNodeVersions (n.encodeNodeVersions oA) output = some out
            ∨ decodeNodeVersions (n'.encodeNodeVersions oB) output = some out)
        ↔
      leafIdx.toNat % 4 ≠ 1 ∨ SameTail (n.records.get 15) (n'.records.get 15) := by
  constructor
  . intro hall
    by_contra hcond
    rw [not_or, not_not] at hcond
    obtain ⟨M, out, hmix, hd, hA, hB⟩ := exists_torn haddr hnext hcond.1 hcond.2 oA oB output
    rcases hall M out hmix hd with h | h
    . exact hA h
    . exact hB h
  . intro hcond M out hmix hd
    exact intact_of_covered haddr hnext hcond hmix hd

set_option maxRecDepth 10000 in
-- leaf 1 again has the line without a version, but what lies in it is the same in both images
theorem torn_read_iff_same_tail
    : ∃ n n' : LeafNode, n = { LeafNode.zero with records :=
            (LeafNode.zero.records.update 0 (int2key 5) 5).update 15 (int2key 7) 7 }
        ∧ n' = { n.bumpNodeVersions with records := n.bumpNodeVersions.records.update 0 (int2key 6) 6 }
        ∧ LeafBuild.plain.getLeafAddress 1 = some (GlobalAddress.of 0 8388912) ∧ Follows n n'
        ∧ ∀ M out, Mixture LeafBuild.plain.transLeafSize 8388912 (n.encodeNodeVersions fun _ => 0)
            (n'.encodeNodeVersions fun _ => 0) M →
          decodeNodeVersions M (fun _ => 0) = some out →
          decodeNodeVersions (n.encodeNodeVersions fun _ => 0) (fun _ => 0) = some out
            ∨ decodeNodeVersions (n'.encodeNodeVersions fun _ => 0) (fun _ => 0) = some out := by
  have haddr : LeafBuild.plain.getLeafAddress 1 = some (GlobalAddress.of 0 8388912) := by decide +kernel
  refine ⟨_, _, rfl, rfl, haddr, by unfold Follows; decide +kernel, ?_⟩
  exact (torn_read_iff haddr (by unfold Follows; decide +kernel) (fun _ => 0) (fun _ => 0)
    (fun _ => 0)).mpr (.inr (by unfold SameTail; decide +kernel))

set_option maxRecDepth 10000 in
-- leaf 1: record 0 is the old one, record 15 the new one
theorem torn_read_accepted
    : ∃ n n' out : LeafNode, n = LeafNode.zero
        ∧ n' = { n.bumpNodeVersions with records :=
            (n.bumpNodeVersions.records.update 0 (int2key 5) 5).update 15 (int2key 7) 7 }
        ∧ out = { n.bumpNodeVersions with records := n.bumpNodeVersions.records.update 15 (int2key 7) 7 }
        ∧ LeafBuild.plain.getLeafAddress 1 = some (GlobalAddress.of 0 8388912) ∧ Follows n n'
        ∧ ∃ M, Mixture LeafBuild.plain.transLeafSize 8388912 (n.encodeNodeVersions fun _ => 0)
              (n'.encodeNodeVersions fun _ => 0) M
            ∧ decodeNodeVersions M (fun _ => 0) = some out
            ∧ decodeNodeVersions (n.encodeNodeVersions fun _ => 0) (fun _ => 0) ≠ some out
            ∧ decodeNodeVersions (n'.encodeNodeVersions fun _ => 0) (fun _ => 0) ≠ some out := by
  have haddr : LeafBuild.plain.getLeafAddress 1 = some (GlobalAddress.of 0 8388912) := by decide +kernel
  refine ⟨_, _, _, rfl, rfl, rfl, haddr, by unfold Follows; decide +kernel, _,
    mixture_tornImage _ _ haddr (by decide), ?_, ?_, ?_⟩
  . decide +kernel
  . decide +kernel
  . decide +kernel

end

end LeafNode

end Rolex

import Rolex.Version.Segment

/-!
This module contains what the encoders and decoders of whole nodes do, for both layouts alike: an encoder
makes the image of the node with its node versions incremented, and a decoder accepts just the images of
nodes with one node version.
-/

namespace Rolex

namespace Frame

variable {F : Frame} {node img out output : Buffer}

theorem isImage_iff_woven
    : F.IsImage node img ↔ Weave.Woven 1 63 64 F.size (fun i _ => node (F.owner i)) node img := by
  have hfirst := F.min_firstAfter_zero
  have hadd := rawPos_add 0 F.size
  have hwi := F.woven_image node 0 F.size
  simp only [rawPos_zero, hfirst, Nat.zero_add] at hwi hadd
  constructor
  . intro h
    have h64 := F.size_eq
    refine ⟨?_, ?_, ?_⟩
    . intro x hx
      rw [h x (by omega)]
      exact hwi.head hx
    . intro b t hb ht
      rw [h _ (by omega)]
      exact hwi.mark hb ht
    . intro b t ht hb
      rw [h _ (by omega)]
      exact hwi.data ht hb
  . intro h y hy
    exact woven_congr F.size_eq h hwi (fun _ _ => rfl) (fun _ _ => rfl) (by omega)

/-- A list of all offsets at which versions stand. -/
structure VersionOffsets (F : Frame) (l : List Nat) : Prop where
  mem : ∀ {x}, x < F.size → F.owner x ∈ l
  lt : ∀ {x}, x ∈ l → x < F.size
  owner : ∀ {x}, x ∈ l → F.owner x = x

variable {l : List Nat}

theorem VersionOffsets.mem_iff (h : F.VersionOffsets l) {x : Nat} (hx : x < F.size)
    : x ∈ l ↔ F.owner x = x := by
  constructor
  . exact h.owner
  . intro heq
    rw [← heq]
    exact h.mem hx

theorem VersionOffsets.uniform_iff (h : F.VersionOffsets l)
    : F.Uniform node ↔ ∀ x ∈ l, Layout.nodeVersion node x = Layout.nodeVersion node 0 := by
  constructor
  . intro hu x hx
    have heq := hu x (h.lt hx)
    rw [h.owner hx] at heq
    exact heq
  . intro hl x hx
    exact hl _ (h.mem hx)

/-- The node version of all objects set. -/
def setNodeVersions (F : Frame) (v : BitVec 4) (node : Buffer) : Buffer :=
  fun x => if F.owner x = x then
    ({ PackedVersion.ofByte (node x) with nodeVersion := v }).toByte
  else
    node x

theorem VersionOffsets.foldl_setNodeVersion (h : F.VersionOffsets l) (v : BitVec 4) {x : Nat}
    (hx : x < F.size)
    : l.foldl (VersionManager.setNodeVersion v) node x = F.setNodeVersions v node x := by
  rw [VersionManager.foldl_setNodeVersion]
  unfold setNodeVersions
  simp only [h.mem_iff hx]

theorem uniform_setNodeVersions (F : Frame) (v : BitVec 4) (node : Buffer)
    : F.Uniform (F.setNodeVersions v node) := by
  have hversion : ∀ x, Layout.nodeVersion (F.setNodeVersions v node) (F.owner x) = v := by
    intro x
    unfold Layout.nodeVersion setNodeVersions
    rw [if_pos (F.owner_owner x), PackedVersion.ofByte_toByte]
  intro x _
  have hzero := hversion 0
  rw [F.owner_zero] at hzero
  rw [hversion x, hzero]

theorem IsImage.congr {node' : Buffer} (h : F.IsImage node img) (heq : ∀ x, x < F.size → node x = node' x)
    : F.IsImage node' img := by
  have h64 := F.size_eq
  intro y hy
  rw [h y hy]
  apply image_congr_outside (d := F.size) (e := F.size) (.inr rfl) _ hy (.inl hy)
  intro x hx _
  exact heq x hx

theorem Uniform.congr {node' : Buffer} (h : F.Uniform node) (heq : ∀ x, x < F.size → node x = node' x)
    : F.Uniform node' := by
  have h64 := F.size_eq
  intro x hx
  have hle := F.owner_le x
  unfold Layout.nodeVersion
  rw [← heq _ (by omega), ← heq 0 (by omega)]
  exact h x hx

/-- A function that accepts the images of uniform nodes and takes the node out of them. -/
def Decoder (F : Frame) (decode : Buffer → Buffer → Option Buffer) : Prop :=
  ∀ img output out, decode img output = some out
    ↔ out = Weave.taken 1 63 64 img output F.size ∧ F.IsImage out img ∧ F.Uniform out

variable {decode : Buffer → Buffer → Option Buffer}

theorem decoder_of {consistent : Buffer → Bool}
    (hdecode : ∀ img output, decode img output
      = (checkVersions F.size 64 (fun out j => .ofByte (out (F.owner j))) img output).bind
          fun out => if consistent out then some out else none)
    (hconsistent : ∀ out, consistent out = true ↔ F.Uniform out)
    : F.Decoder decode := by
  intro img output out
  rw [hdecode, Option.bind_eq_some_iff]
  constructor
  . rintro ⟨out', hcheck, hsome⟩
    obtain ⟨htaken, hwoven⟩ := (checkVersions_eq_some F.size_eq F.owner_le).mp hcheck
    split at hsome
    . next hc =>
      obtain rfl := Option.some.inj hsome
      exact ⟨htaken, isImage_iff_woven.mpr hwoven, (hconsistent _).mp hc⟩
    . cases hsome
  . rintro ⟨htaken, himage, huniform⟩
    refine ⟨out, (checkVersions_eq_some F.size_eq F.owner_le).mpr ⟨htaken, ?_⟩, ?_⟩
    . exact isImage_iff_woven.mp himage
    . rw [if_pos ((hconsistent out).mpr huniform)]

theorem Decoder.of_isImage (hdec : F.Decoder decode) (himage : F.IsImage node img)
    (huniform : F.Uniform node) (output : Buffer)
    : ∃ out, decode img output = some out ∧ ∀ x, x < F.size → out x = node x := by
  have htaken : ∀ x, x < F.size → Weave.taken 1 63 64 img output F.size x = node x := by
    intro x hx
    rw [Weave.taken_of_lt hx, (isImage_iff_woven.mp himage).apply_pos (by decide) hx]
  refine ⟨_, (hdec img output _).mpr ⟨rfl, ?_, ?_⟩, htaken⟩
  . exact himage.congr fun x hx => (htaken x hx).symm
  . exact huniform.congr fun x hx => (htaken x hx).symm

theorem generateVersions_of_ge (F : Frame) {objVersion : Nat → PackedVersion} {x : Nat}
    (hx : rawPos F.size ≤ x)
    : generateVersions F.size 64 objVersion node output x = output x := by
  have h64 := F.size_eq
  unfold rawPos at hx
  apply Weave.weave_of_ge (by decide) h64
  rw [versionSize_eq, blockSize_eq]
  omega

end Frame

theorem pos_of_le {e : Nat} (he : leafEntrySize ≤ e) : 0 < e := Nat.lt_of_lt_of_le (by decide) he

section Managers

variable {e : Nat} {node input output : Buffer}

theorem headerOwner_of_lt {t : Nat} (ht : t < 9) : headerOwner e t = 0 := if_pos ht

theorem entryOwner_of_lt {t : Nat} (ht : t < e) : entryOwner e t = 0 := by
  unfold entryOwner
  rw [Nat.div_eq_of_lt ht, Nat.mul_zero]

theorem headerOwner_entry (he : 0 < e) (i : Nat) {t : Nat} (ht : t < e)
    : headerOwner e (9 + e * i + t) = 9 + e * i := by
  rw [Nat.add_assoc, ← leafMetadataSize_eq, headerOwner_add, entryOwner_add he, entryOwner_of_lt ht,
    Nat.add_zero]

theorem nodeLayout_firstOffset (he : leafEntrySize ≤ e)
    : (nodeLayout e (pos_of_le he)).firstOffset = 64 :=
  Nat.min_eq_left (plainFrame e he).size_eq

theorem nodeLayout_objVersion (he : 0 < e) (node : Buffer) (j : Nat)
    : (nodeLayout e he).objVersion node j = .ofByte (node (headerOwner e j)) := by
  unfold Layout.objVersion headerOwner nodeLayout
  dsimp only
  split
  . rfl
  . rfl

theorem nodeLayout_versionOffsets (he : leafEntrySize ≤ e)
    : (plainFrame e he).VersionOffsets (nodeLayout e (pos_of_le he)).versionOffsets where
  mem := by
    intro x hx
    change headerOwner e x ∈ _
    unfold headerOwner
    split
    . exact List.mem_cons_self
    . next h =>
      apply Layout.entryOffset_mem
      apply Nat.div_lt_of_lt_mul
      change x < leafMetadataSize + e * leafSpanSize at hx
      change x - leafMetadataSize < e * leafSpanSize
      omega
  lt := Layout.lt_of_mem_versionOffsets
  owner := by
    intro x hx
    change headerOwner e x = x
    rcases List.mem_cons.mp hx with rfl | hx
    . exact headerOwner_of_lt (by decide)
    . obtain ⟨i, -, rfl⟩ := List.mem_map.mp hx
      exact headerOwner_entry (pos_of_le he) i (pos_of_le he)

theorem plain_decoder (he : leafEntrySize ≤ e)
    : (plainFrame e he).Decoder (VersionManager.decodeNodeVersions (nodeLayout e (pos_of_le he))) := by
  apply Frame.decoder_of
  . intro img output
    have hcheck : VersionManager.decodeNodeVersions.loop (nodeLayout e (pos_of_le he)) img
        ((nodeLayout e (pos_of_le he)).size + 1) (nodeLayout e (pos_of_le he)).firstOffset
        (nodeLayout e (pos_of_le he)).firstOffset
        (memcpy output 0 img 0 (nodeLayout e (pos_of_le he)).firstOffset)
        = checkVersions (plainFrame e he).size 64
            (fun out j => .ofByte (out ((plainFrame e he).owner j))) img output := by
      rw [VersionManager.decodeNodeVersions.loop_eq, nodeLayout_firstOffset he]
      unfold Layout.accepts
      simp only [nodeLayout_objVersion]
      rfl
    unfold VersionManager.decodeNodeVersions
    dsimp only
    rw [hcheck]
    rfl
  . intro out
    rw [Layout.isConsistent_iff, (nodeLayout_versionOffsets he).uniform_iff]
    have hzero : 0 ∈ (nodeLayout e (pos_of_le he)).versionOffsets := List.mem_cons_self
    have hfirst : (nodeLayout e (pos_of_le he)).entryOffset 0
        ∈ (nodeLayout e (pos_of_le he)).versionOffsets := Layout.entryOffset_mem (show 0 < leafSpanSize by decide)
    constructor
    . intro h x hx
      rw [← h x hx, h 0 hzero]
    . intro h x hx
      rw [h x hx, h _ hfirst]

theorem plain_encode (he : leafEntrySize ≤ e)
    : (plainFrame e he).IsImage
        ((plainFrame e he).setNodeVersions (Layout.nodeVersion input leafMetadataSize + 1) input)
        (VersionManager.encodeNodeVersions (nodeLayout e (pos_of_le he)) input output) := by
  have himage : (plainFrame e he).IsImage
      (VersionManager.incrementNodeVersions (nodeLayout e (pos_of_le he)) input)
      (VersionManager.encodeNodeVersions (nodeLayout e (pos_of_le he)) input output) := by
    rw [Frame.isImage_iff_woven]
    unfold VersionManager.encodeNodeVersions
    dsimp only
    rw [VersionManager.encodeNodeVersions.loop_eq, nodeLayout_firstOffset he]
    simp only [nodeLayout_objVersion]
    exact woven_generateVersions _
  apply himage.congr
  intro x hx
  rw [← (nodeLayout_versionOffsets he).foldl_setNodeVersion _ hx]
  unfold Layout.versionOffsets
  rw [List.foldl_cons, List.foldl_map]
  rfl

theorem plain_encode_of_ge (he : leafEntrySize ≤ e) {x : Nat} (hx : rawPos (plainFrame e he).size ≤ x)
    : VersionManager.encodeNodeVersions (nodeLayout e (pos_of_le he)) input output x = output x := by
  unfold VersionManager.encodeNodeVersions
  rw [VersionManager.encodeNodeVersions.loop_eq, nodeLayout_firstOffset he]
  exact (plainFrame e he).generateVersions_of_ge hx

namespace LeafVersionManager

/-- The offsets of all versions of a node. -/
def versionOffsets (e : Nat) : List Nat := (List.range entryGroupNum).flatMap (groupVersions e)

theorem mem_versionOffsets {x : Nat}
    : x ∈ versionOffsets e
        ↔
      ∃ i, i < 2 ∧ (x = groupBytes e * i ∨ ∃ j, j < 8 ∧ x = groupBytes e * i + 9 + e * j) := by
  have h2 : entryGroupNum = 2 := rfl
  unfold versionOffsets groupVersions recordOffset groupOffset
  simp only [List.mem_flatMap, List.mem_range, List.mem_cons, List.mem_map, h2, neighborSize_eq,
    leafMetadataSize_eq, eq_comm]

theorem scatteredOwner_record (he : 0 < e) (i : Nat) {j t : Nat} (hj : j < 8) (ht : t < e)
    : scatteredOwner e (groupBytes e * i + 9 + e * j + t) = groupBytes e * i + 9 + e * j := by
  have hg := groupBytes_eq e
  have hmul := Nat.mul_le_mul_left e (show j + 1 ≤ 8 by omega)
  rw [Nat.mul_succ] at hmul
  rw [Nat.add_assoc, Nat.add_assoc, scatteredOwner_add, scatteredOwner_of_lt (by omega), ← Nat.add_assoc,
    headerOwner_entry he j ht, Nat.add_assoc]

theorem scatteredOwner_metadata (i : Nat) {t : Nat} (ht : t < 9)
    : scatteredOwner e (groupBytes e * i + t) = groupBytes e * i := by
  have hg := groupBytes_eq e
  rw [scatteredOwner_add, scatteredOwner_of_lt (by omega), headerOwner_of_lt ht, Nat.add_zero]

theorem versionOffsets_spec (he : leafEntrySize ≤ e)
    : (scatteredFrame e he).VersionOffsets (versionOffsets e) where
  mem := by
    intro x hx
    change x < groupBytes e * 2 at hx
    change scatteredOwner e x ∈ _
    rw [mem_versionOffsets]
    have hg := groupBytes_eq e
    have hmod := Nat.mod_lt x (groupBytes_pos (e := e))
    refine ⟨x / groupBytes e, Nat.div_lt_of_lt_mul hx, ?_⟩
    unfold scatteredOwner headerOwner
    split
    . exact .inl rfl
    . next h =>
      rw [leafMetadataSize_eq] at h ⊢
      refine .inr ⟨(x % groupBytes e - 9) / e, ?_, ?_⟩
      . apply Nat.div_lt_of_lt_mul
        omega
      . rw [Nat.add_assoc]
        rfl
  lt := by
    intro x hx
    change x < groupBytes e * 2
    have hg := groupBytes_eq e
    obtain ⟨i, hi, h⟩ := mem_versionOffsets.mp hx
    have hmul := Nat.mul_le_mul_left (groupBytes e) (show i ≤ 1 by omega)
    rcases h with rfl | ⟨j, hj, rfl⟩
    . omega
    . have hlt := Nat.mul_lt_mul_of_pos_left hj (pos_of_le he)
      omega
  owner := by
    intro x hx
    change scatteredOwner e x = x
    obtain ⟨i, -, rfl | ⟨j, hj, rfl⟩⟩ := mem_versionOffsets.mp hx
    . exact scatteredOwner_metadata i (show 0 < 9 by decide)
    . exact scatteredOwner_record (pos_of_le he) i hj (pos_of_le he)

end LeafVersionManager

theorem scatteredObjVersion_eq
    : LeafVersionManager.objVersion e = fun leaf j => .ofByte (leaf (scatteredOwner e j)) := by
  funext leaf j
  exact LeafVersionManager.objVersion_eq leaf j

theorem scattered_decoder (he : leafEntrySize ≤ e)
    : (scatteredFrame e he).Decoder (LeafVersionManager.decodeNodeVersions e) := by
  apply Frame.decoder_of
  . intro img output
    unfold LeafVersionManager.decodeNodeVersions
    rw [LeafVersionManager.firstOffset_eq he, scatteredObjVersion_eq]
    rfl
  . intro out
    rw [(LeafVersionManager.versionOffsets_spec he).uniform_iff]
    unfold LeafVersionManager.versionOffsets
    simp only [List.all_eq_true, beq_iff_eq, List.mem_flatMap, forall_exists_index, and_imp]
    constructor
    . intro h x i hi hx
      exact (h i hi x hx).symm
    . intro h i hi x hx
      exact (h x i hi hx).symm

theorem scattered_encode (he : leafEntrySize ≤ e)
    : (scatteredFrame e he).IsImage
        ((scatteredFrame e he).setNodeVersions (Layout.nodeVersion input 0 + 1) input)
        (LeafVersionManager.encodeNodeVersions e input output) := by
  have himage : (scatteredFrame e he).IsImage (LeafVersionManager.incrementNodeVersions e input)
      (LeafVersionManager.encodeNodeVersions e input output) := by
    rw [Frame.isImage_iff_woven]
    unfold LeafVersionManager.encodeNodeVersions
    rw [LeafVersionManager.firstOffset_eq he, scatteredObjVersion_eq]
    exact woven_generateVersions _
  apply himage.congr
  intro x hx
  rw [← (LeafVersionManager.versionOffsets_spec he).foldl_setNodeVersion _ hx]
  rfl

theorem scattered_encode_of_ge (he : leafEntrySize ≤ e) {x : Nat}
    (hx : rawPos (scatteredFrame e he).size ≤ x)
    : LeafVersionManager.encodeNodeVersions e input output x = output x := by
  unfold LeafVersionManager.encodeNodeVersions
  rw [LeafVersionManager.firstOffset_eq he]
  exact (scatteredFrame e he).generateVersions_of_ge hx

end Managers

end Rolex

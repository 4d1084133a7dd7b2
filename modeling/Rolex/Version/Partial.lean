import Rolex.Version.Codec

/-!
This module contains the READs of segments of a node and how they agree with READs of the whole node.
-/

namespace Rolex

variable {E : Type} [EntryType E] {repl : Bool}

open EntryType LeafVersionManager

/-- Where the part of a node starts that belongs to the entries from `i` on. -/
def segmentStart (repl : Bool) (E : Type) [EntryType E] (i : Nat) : Nat :=
  match repl with
  | true => decodedOffset (size E) i
  | false => leafMetadataSize + size E * i

theorem segmentStart_le_recordOffset (repl : Bool) (E : Type) [EntryType E] (i : Nat)
    : segmentStart repl E i ≤ recordOffset repl E i := by
  cases repl with
  | true =>
    change decodedOffset (size E) i ≤ entryOffset (size E) i
    obtain ⟨q, r, rfl, hr⟩ : ∃ q r, i = 8 * q + r ∧ r < 8 := ⟨i / 8, i % 8, by omega, by omega⟩
    rw [entryOffset_add, entryOffset_lt _ hr]
    rcases Nat.eq_zero_or_pos r with rfl | hpos
    . rw [Nat.add_zero, decodedOffset_group]
      omega
    . rw [decodedOffset_record _ _ hpos hr]
      omega
  | false => exact Nat.le_refl _

theorem recordOffset_add_size (repl : Bool) (E : Type) [EntryType E] (i : Nat)
    : recordOffset repl E i + size E = segmentStart repl E (i + 1) := by
  cases repl with
  | true =>
    change entryOffset (size E) i + size E = decodedOffset (size E) (i + 1)
    obtain ⟨q, r, rfl, hr⟩ : ∃ q r, i = 8 * q + r ∧ r < 8 := ⟨i / 8, i % 8, by omega, by omega⟩
    rw [entryOffset_add, entryOffset_lt _ hr, Nat.add_assoc (8 * q)]
    rcases Nat.lt_or_ge (r + 1) 8 with hlt | hge
    . rw [decodedOffset_record _ _ (by omega) hlt, Nat.mul_succ]
      omega
    . obtain rfl : r = 7 := by omega
      have hidx : 8 * q + (7 + 1) = 8 * (q + 1) := by omega
      have hg := groupBytes_eq (size E)
      have hmul := Nat.mul_add (groupBytes (size E)) q 1
      rw [hidx, decodedOffset_group]
      omega
  | false =>
    change leafMetadataSize + size E * i + size E = leafMetadataSize + size E * (i + 1)
    rw [Nat.mul_succ]
    omega

theorem segmentStart_lt (repl : Bool) (E : Type) [EntryType E] (i : Nat)
    : segmentStart repl E i < segmentStart repl E (i + 1) := by
  have hle := segmentStart_le_recordOffset repl E i
  have hadd := recordOffset_add_size repl E i
  have hpos := size_pos (E := E)
  omega

theorem segmentStart_strictMono (repl : Bool) (E : Type) [EntryType E] : StrictMono (segmentStart repl E) :=
  strictMono_nat_of_lt_succ (segmentStart_lt repl E)

theorem segmentStart_span : segmentStart repl E leafSpanSize = (nodeFrame repl E).size := by
  cases repl with
  | true => exact decodedOffset_group (size E) 2
  | false => rfl

/-- The entries `start, ..., start + num - 1` of a node. -/
def nodeSegment (repl : Bool) (E : Type) [EntryType E] {start num : Nat} (h : start + num ≤ leafSpanSize)
    : (nodeFrame repl E).Segment :=
  match repl with
  | true => scatteredSegment le_size h
  | false => plainSegment le_size h

theorem nodeSegment_start (repl : Bool) (E : Type) [EntryType E] {start num : Nat} (h : start + num ≤ leafSpanSize)
    : (nodeSegment repl E h).start = segmentStart repl E start := by
  cases repl with
  | true => rfl
  | false => rfl

theorem nodeSegment_end (repl : Bool) (E : Type) [EntryType E] {start num : Nat} (h : start + num ≤ leafSpanSize)
    : (nodeSegment repl E h).start + (nodeSegment repl E h).len = segmentStart repl E (start + num) := by
  cases repl with
  | true => exact Nat.add_sub_cancel' (decodedOffset_mono (size E) start num)
  | false =>
    change leafMetadataSize + size E * start + size E * num = leafMetadataSize + size E * (start + num)
    rw [Nat.mul_add, Nat.add_assoc]

theorem nodeSegment_len {start num : Nat} (h : start + num ≤ leafSpanSize)
    : (nodeSegment repl E h).len = segmentStart repl E (start + num) - segmentStart repl E start := by
  have hstart := nodeSegment_start repl E h
  have hend := nodeSegment_end repl E h
  omega

/-- `get_offset_info` of the version manager of the layout. -/
def getOffsetInfo (repl : Bool) (E : Type) [EntryType E] (start num : Nat) : Nat × Nat × Nat :=
  if repl then
    LeafVersionManager.getOffsetInfo (size E) start num
  else
    VersionManager.getOffsetInfo (size E) start num

theorem getOffsetInfo_eq (start num : Nat)
    : getOffsetInfo repl E start num
      = (rawPos (segmentStart repl E start),
          rawPos (segmentStart repl E (start + num)) - rawPos (segmentStart repl E start),
          min (firstAfter (segmentStart repl E start))
            (segmentStart repl E (start + num) - segmentStart repl E start)) := by
  have hle := (segmentStart_strictMono repl E).monotone (Nat.le_add_right start num)
  have heq := offsetInfo_eq hle (segmentStart repl E (start + num) - segmentStart repl E start)
  rw [← heq]
  cases repl with
  | true =>
    have hfirst := LeafVersionManager.firstOffset_eq (le_size (E := E))
    change LeafVersionManager.getOffsetInfo (size E) start num = _
    unfold LeafVersionManager.getOffsetInfo
    rw [hfirst]
    rfl
  | false =>
    have hfirst : min cachelineSize (leafMetadataSize + size E * leafSpanSize) = 64 :=
      Nat.min_eq_left (plainFrame (size E) le_size).size_eq
    have hlen : size E * num = leafMetadataSize + size E * (start + num) - (leafMetadataSize + size E * start)
        := by
      rw [Nat.mul_add]
      omega
    change VersionManager.getOffsetInfo (size E) start num = _
    unfold VersionManager.getOffsetInfo
    rw [hfirst, hlen]
    rfl

theorem getOffsetInfo_end (repl : Bool) (E : Type) [EntryType E] (start num : Nat)
    : (getOffsetInfo repl E start num).1 + (getOffsetInfo repl E start num).2.1
      = rawPos (segmentStart repl E (start + num)) := by
  have hmono := rawPos_mono ((segmentStart_strictMono repl E).monotone (Nat.le_add_right start num))
  rw [getOffsetInfo_eq]
  exact Nat.add_sub_cancel' hmono

namespace Node

/-- The records in a buffer of `num` records. -/
def recordsOf (E : Type) [EntryType E] (buf : Buffer) (num : Nat) : List E :=
  (List.range num).map fun j => EntryType.ofBytes buf (size E * j)

/--
What a READ of a segment gives, `none` if the versions do not match: the node version, the metadata if
the segment contains it, and the records.
-/
def decodeSegment (repl : Bool) (start num : Nat) (seg intermediate output : Buffer)
    : Option (BitVec 4 × Option LeafMetadata × List E) :=
  let firstOffset := (getOffsetInfo repl E start num).2.2
  if repl then do
    -- `[first_metadata_offset, new_len]`
    let info := MetadataManager.getOffsetInfo (size E) start num
    let (nodeVersion, segment) ← LeafVersionManager.decodeSegmentVersions (size E) seg intermediate
      firstOffset num info.1 info.2
    let (metadata, records) ← MetadataManager.decodeSegmentMetadata (size E) segment output info.1 num
    return (nodeVersion, metadata, recordsOf E records num)
  else do
    let (nodeVersion, records) ← VersionManager.decodeSegmentVersions (size E) seg output firstOffset num
    return (nodeVersion, none, recordsOf E records num)

variable {start num : Nat} {rs : Vector E leafSpanSize} {out : Buffer}

theorem recordsOf_eq (hlen : start + num ≤ leafSpanSize)
    (h : ∀ x, x < size E * num → out x = recordBytes rs start x)
    : recordsOf E out num = (rs.toList.drop start).take num := by
  unfold recordsOf
  apply List.ext_getElem
  . simp
    omega
  . intro j hj _
    have hj' : j < num := by
      rw [List.length_map, List.length_range] at hj
      exact hj
    have hmul := Nat.mul_le_mul_left (size E) (show j + 1 ≤ num by omega)
    rw [Nat.mul_succ] at hmul
    rw [List.getElem_map, List.getElem_range, List.getElem_take, List.getElem_drop]
    apply EntryType.ofBytes_eq
    intro t ht
    rw [h _ (by omega), recordBytes_apply rs start (by omega) ht]
    rfl

end Node

theorem Frame.Segment.checkVersions {F : Frame} (S : F.Segment) {node seg : Buffer} (output : Buffer)
    (huniform : F.Uniform node)
    (hseg : ∀ y, y < rawPos (S.start + S.len) - rawPos S.start → seg y = F.image node (rawPos S.start + y))
    : ∃ out, checkVersions S.len (min (firstAfter S.start) S.len)
          (fun out j => .ofByte (out (S.owner j))) seg output = some out
        ∧ (∀ x, x < S.len → out x = node (S.start + x))
        ∧ ∀ x, x < S.len → F.owner (S.start + x) = S.start + x →
            Layout.nodeVersion out x = Layout.nodeVersion node 0 := by
  obtain ⟨out, hcheck, hout⟩ := checkVersions_part hseg (fun x hx => S.owner_eq hx) S.owner_le
  refine ⟨out, hcheck, hout, ?_⟩
  intro x hx howner
  have hle := S.le_size
  have hversion := huniform (S.start + x) (by omega)
  rw [howner] at hversion
  unfold Layout.nodeVersion at hversion ⊢
  rw [hout x hx]
  exact hversion

namespace Node

variable {n : Node E} {img buf seg intermediate output : Buffer} {start num : Nat}

/-- The bytes of a READ of a segment. -/
def IsPart (repl : Bool) (E : Type) [EntryType E] (start num : Nat) (img seg : Buffer) : Prop :=
  ∀ y, y < (getOffsetInfo repl E start num).2.1 → seg y = img ((getOffsetInfo repl E start num).1 + y)

theorem IsEncoded.checkVersions (h : IsEncoded repl n img buf fun _ => n.metadata)
    (hlen : start + num ≤ leafSpanSize) (hseg : IsPart repl E start num img seg) (output : Buffer)
    : ∃ out, checkVersions (nodeSegment repl E hlen).len (getOffsetInfo repl E start num).2.2
          (fun out j => .ofByte (out ((nodeSegment repl E hlen).owner j))) seg output = some out
        ∧ (∀ x, segmentStart repl E start + x < segmentStart repl E (start + num) →
            out x = buf (segmentStart repl E start + x))
        ∧ ∀ x, segmentStart repl E start + x < segmentStart repl E (start + num) →
            (nodeFrame repl E).owner (segmentStart repl E start + x) = segmentStart repl E start + x →
            Layout.nodeVersion out x = n.metadata.hVersion.nodeVersion := by
  have hle := rawPos_mono ((segmentStart_strictMono repl E).monotone hlen)
  have hstart := nodeSegment_start repl E hlen
  have hend := nodeSegment_end repl E hlen
  have hversion := h.holds.metadata_nodeVersion metadataNum_pos
  rw [metadataOffset_zero] at hversion
  rw [segmentStart_span] at hle
  have hpart : ∀ y, y < rawPos ((nodeSegment repl E hlen).start + (nodeSegment repl E hlen).len)
      - rawPos (nodeSegment repl E hlen).start →
      seg y = (nodeFrame repl E).image buf (rawPos (nodeSegment repl E hlen).start + y) := by
    intro y hy
    unfold IsPart at hseg
    rw [getOffsetInfo_eq] at hseg
    rw [hend, hstart] at hy
    rw [hstart, hseg y hy, h.image _ (by omega)]
  obtain ⟨out, hcheck, hout, hversions⟩ := (nodeSegment repl E hlen).checkVersions output
    h.uniform hpart
  have hfirst : min (firstAfter (nodeSegment repl E hlen).start) (nodeSegment repl E hlen).len
      = (getOffsetInfo repl E start num).2.2 := by
    rw [getOffsetInfo_eq, hstart, nodeSegment_len]
  rw [hfirst] at hcheck
  rw [hstart] at hout hversions
  refine ⟨out, hcheck, ?_, ?_⟩
  . intro x hx
    exact hout x (by omega)
  . intro x hx howner
    rw [← hversion]
    exact hversions x (by omega) howner

theorem segmentStart_false_add (start j t : Nat)
    : segmentStart false E start + (size E * j + t) = recordOffset false E (start + j) + t := by
  change leafMetadataSize + size E * start + (size E * j + t) = leafMetadataSize + size E * (start + j) + t
  rw [Nat.mul_add]
  omega

theorem segmentStart_false_end (start num : Nat)
    : segmentStart false E (start + num) = segmentStart false E start + size E * num := by
  have hadd := segmentStart_false_add (E := E) start num 0
  exact hadd.symm

theorem decodeSegment_false (h : IsEncoded false n img buf fun _ => n.metadata) (hnum : 1 ≤ num)
    (hlen : start + num ≤ leafSpanSize) (hseg : IsPart false E start num img seg)
    (intermediate output : Buffer)
    : decodeSegment false start num seg intermediate output
      = some (n.metadata.hVersion.nodeVersion, none, (n.records.toList.drop start).take num) := by
  obtain ⟨out, hcheck, hout, hversion⟩ := h.checkVersions hlen hseg output
  rw [segmentStart_false_end] at hout hversion
  have hversions : ∀ j, j < num → Layout.nodeVersion out (size E * j) = n.metadata.hVersion.nodeVersion := by
    intro j hj
    have hmul := Nat.mul_lt_mul_of_pos_left hj (size_pos (E := E))
    have hadd := segmentStart_false_add (E := E) start j 0
    rw [Nat.add_zero, Nat.add_zero] at hadd
    apply hversion
    . omega
    . rw [hadd, owner_recordOffset]
  have hzero := hversions 0 (by omega)
  rw [Nat.mul_zero] at hzero
  have hall : ((List.range' 1 (num - 1)).all fun i =>
      Layout.nodeVersion out 0 == Layout.nodeVersion out (size E * i)) = true := by
    rw [List.all_eq_true]
    intro i hi
    rw [List.mem_range'_1] at hi
    rw [beq_iff_eq, hzero, hversions i (by omega)]
  have hrecords : ∀ x, x < size E * num → out x = recordBytes n.records start x := by
    intro x hx
    have hdiv := Nat.div_add_mod x (size E)
    have hlt : x / size E < num := Nat.div_lt_of_lt_mul hx
    rw [hout x (by omega), ← hdiv, segmentStart_false_add, h.holds.record (by omega) (Nat.mod_lt x size_pos),
      recordBytes_apply n.records start (by omega) (Nat.mod_lt x size_pos)]
  have hdec : VersionManager.decodeSegmentVersions (size E) seg output (getOffsetInfo false E start num).2.2
      num = some (Layout.nodeVersion out 0, out) := by
    have hcheck' : checkVersions (size E * num) (getOffsetInfo false E start num).2.2
      (VersionManager.segmentObjVersion (size E)) seg output = some out := hcheck
    unfold VersionManager.decodeSegmentVersions
    rw [hcheck', Option.bind_eq_bind, Option.bind_some, if_pos hall]
  unfold decodeSegment
  rw [if_neg (by decide), hdec]
  change some (Layout.nodeVersion out 0, none, recordsOf E out num) = _
  rw [recordsOf_eq hlen hrecords, hzero]

theorem record_lt_segmentStart {j t : Nat} (hj : j < num) (ht : t < size E)
    : recordOffset repl E (start + j) + t < segmentStart repl E (start + num) := by
  have hadd := recordOffset_add_size repl E (start + j)
  have hle := (segmentStart_strictMono repl E).monotone (show start + j + 1 ≤ start + num by omega)
  omega

theorem metadata_lt_segmentStart {g i t : Nat} (hg : 8 * g < i) (ht : t < leafMetadataSize)
    : metadataOffset true E g + t < segmentStart true E i := by
  have hle := (segmentStart_strictMono true E).monotone (show 8 * g + 1 ≤ i by omega)
  have hadd := recordOffset_add_size true E (8 * g)
  have hrec : recordOffset true E (8 * g) = metadataOffset true E g + 9 := by
    change entryOffset (size E) (8 * g) = groupBytes (size E) * g + 9
    have hentry := entryOffset_add (size E) g 0
    rw [entryOffset_lt (size E) (show 0 < 8 by decide)] at hentry
    exact hentry
  rw [leafMetadataSize_eq] at ht
  omega

theorem segmentStart_true_add {j : Nat} (hj : j < num)
    : segmentStart true E start + segmentOffset (size E) (size E * min (toGroup start) num) j
      = recordOffset true E (start + j) := by
  have hentry := entryOffset_eq_segmentOffset (size_pos (E := E)) start hj
  rw [firstMetadataOffset_eq] at hentry
  exact hentry.symm

theorem segmentStart_true_group {q b : Nat} (hq : start + toGroup start = 8 * q)
    (hb : min (toGroup start) num + 8 * b < num)
    : segmentStart true E start + (size E * min (toGroup start) num + groupBytes (size E) * b)
        = metadataOffset true E (q + b)
      ∧ 8 * (q + b) < start + num := by
  have hgroup := decodedOffset_add_toGroup (size E) hq
  rw [Nat.min_eq_left (by omega)] at hb ⊢
  constructor
  . change decodedOffset (size E) start + _ = groupBytes (size E) * (q + b)
    rw [Nat.mul_add]
    omega
  . omega

theorem IsEncoded.scattered (h : IsEncoded true n img buf fun _ => n.metadata)
    (hlen : start + num ≤ leafSpanSize) {out : Buffer}
    (hout : ∀ x, segmentStart true E start + x < segmentStart true E (start + num) →
      out x = buf (segmentStart true E start + x))
    : Scattered (size E) (min (toGroup start) num) num (fun _ => n.metadata) (recordBytes n.records start)
        out := by
  obtain ⟨q, hq⟩ := add_toGroup start
  have hs := h.holds.scattered hlen hq
  constructor
  . intro j t hj ht
    rw [← hs.record hj ht]
    apply hout
    rw [← Nat.add_assoc, segmentStart_true_add hj]
    exact record_lt_segmentStart hj ht
  . intro b t hb ht
    obtain ⟨hpos, hlt⟩ := segmentStart_true_group (E := E) hq hb
    rw [← hs.metadata hb ht]
    apply hout
    rw [← Nat.add_assoc, hpos]
    exact metadata_lt_segmentStart hlt ht

theorem owner_segmentVersions {x : Nat}
    (hx : x ∈ segmentVersions (size E) (size E * min (toGroup start) num) num)
    : segmentStart true E start + x < segmentStart true E (start + num)
        ∧ (nodeFrame true E).owner (segmentStart true E start + x) = segmentStart true E start + x := by
  unfold segmentVersions at hx
  rw [Nat.mul_div_cancel_left _ size_pos, neighborSize_eq] at hx
  rcases List.mem_append.mp hx with hx | hx
  . obtain ⟨j, hj, rfl⟩ := List.mem_map.mp hx
    rw [List.mem_range] at hj
    rw [segmentStart_true_add hj, owner_recordOffset]
    exact ⟨record_lt_segmentStart hj size_pos, rfl⟩
  . obtain ⟨b, hb, rfl⟩ := List.mem_map.mp hx
    rw [List.mem_range] at hb
    obtain ⟨q, hq⟩ := add_toGroup start
    have hlt : min (toGroup start) num + 8 * b < num := by
      split at hb
      . omega
      . omega
    obtain ⟨hpos, hlt⟩ := segmentStart_true_group (E := E) hq hlt
    have hpos' : segmentStart true E start + (size E * min (toGroup start) num + groupOffset (size E) b)
        = metadataOffset true E (q + b) := hpos
    rw [hpos', owner_metadataOffset]
    exact ⟨metadata_lt_segmentStart hlt (show 0 < leafMetadataSize by decide), rfl⟩

theorem decodeSegment_true (h : IsEncoded true n img buf fun _ => n.metadata) (hnum : 1 ≤ num)
    (hlen : start + num ≤ leafSpanSize) (hseg : IsPart true E start num img seg)
    (intermediate output : Buffer)
    : decodeSegment true start num seg intermediate output
      = some (n.metadata.hVersion.nodeVersion, if toGroup start < num then some n.metadata else none,
          (n.records.toList.drop start).take num) := by
  obtain ⟨out, hcheck, hout, hversion⟩ := h.checkVersions hlen hseg intermediate
  have hfirst := firstMetadataOffset_eq (size E) start num
  have hnew := newLen_eq (size_pos (E := E)) start num
  have hmono := segmentStart_strictMono true E (show start < start + num by omega)
  have hzero : Layout.nodeVersion out 0 = n.metadata.hVersion.nodeVersion :=
    hversion 0 hmono (scatteredOwner_decodedOffset size_pos start)
  have hall : ((segmentVersions (size E) (size E * min (toGroup start) num) num).all fun x =>
      Layout.nodeVersion out 0 == Layout.nodeVersion out x) = true := by
    rw [List.all_eq_true]
    intro x hx
    obtain ⟨hlt, howner⟩ := owner_segmentVersions hx
    rw [beq_iff_eq, hzero, hversion x hlt howner]
  have hdec : LeafVersionManager.decodeSegmentVersions (size E) seg intermediate
      (getOffsetInfo true E start num).2.2 num (MetadataManager.getOffsetInfo (size E) start num).1
      (MetadataManager.getOffsetInfo (size E) start num).2 = some (Layout.nodeVersion out 0, out) := by
    have hcheck' : checkVersions (MetadataManager.getOffsetInfo (size E) start num).2
        (getOffsetInfo true E start num).2.2
        (LeafVersionManager.segmentObjVersion (size E) (MetadataManager.getOffsetInfo (size E) start num).1)
        seg intermediate = some out := by
      have hobj : LeafVersionManager.segmentObjVersion (size E)
          (MetadataManager.getOffsetInfo (size E) start num).1
          = fun out j => .ofByte (out ((nodeSegment true E hlen).owner j)) := by
        funext segment j
        exact LeafVersionManager.segmentObjVersion_eq _ segment j
      rw [hobj, hnew]
      exact hcheck
    unfold LeafVersionManager.decodeSegmentVersions
    rw [hcheck', Option.bind_eq_bind, Option.bind_some, hfirst, if_pos hall]
  obtain ⟨records, hmeta, hrecords⟩ := (h.scattered hlen hout).decodeSegmentMetadata size_pos
    (Nat.min_le_right _ _) output (fun _ => strncmpEq_refl _ _)
  have hlt : min (toGroup start) num < num ↔ toGroup start < num := by omega
  rw [← hfirst, if_congr hlt rfl rfl] at hmeta
  unfold decodeSegment
  rw [if_pos rfl]
  dsimp only
  rw [hdec, Option.bind_eq_bind, Option.bind_some]
  dsimp only
  rw [hmeta]
  change some (Layout.nodeVersion out 0, _, recordsOf E records num) = _
  rw [recordsOf_eq hlen hrecords, hzero]

theorem toGroup_lt_iff : toGroup start < num ↔ ∃ i, start ≤ i ∧ i < start + num ∧ i % neighborSize = 0 := by
  obtain ⟨q, hq⟩ := add_toGroup start
  have hlt := toGroup_lt start
  rw [neighborSize_eq]
  constructor
  . intro h
    exact ⟨start + toGroup start, by omega, by omega, by omega⟩
  . rintro ⟨i, hle, hi, hmod⟩
    omega

theorem decodeSegment_eq (h : IsEncoded repl n img buf fun _ => n.metadata) (hnum : 1 ≤ num)
    (hlen : start + num ≤ leafSpanSize) (hseg : IsPart repl E start num img seg)
    (intermediate output : Buffer)
    : decodeSegment repl start num seg intermediate output
      = some (n.metadata.hVersion.nodeVersion,
          if repl = true ∧ toGroup start < num then some n.metadata else none,
          (n.records.toList.drop start).take num) := by
  cases repl with
  | true =>
    rw [decodeSegment_true h hnum hlen hseg intermediate output]
    simp only [true_and]
  | false => exact decodeSegment_false h hnum hlen hseg intermediate output

/-- A READ of a segment gives the part of the node that a READ of the whole node gives. -/
theorem decodeSegment_encode (repl : Bool) (n : Node E) (start num : Nat) (hnum : 1 ≤ num)
    (hlen : start + num ≤ leafSpanSize) (intermediate output intermediate' output' seg : Buffer)
    (hseg : IsPart repl E start num (n.encode repl intermediate output) seg)
    : (∃ metadata, decodeSegment repl start num seg intermediate' output'
          = some (n.oldNodeVersion repl + 1, metadata,
              ((n.bumpNodeVersions repl).records.toList.drop start).take num)
        ∧ (repl = true → (∃ i, start ≤ i ∧ i < start + num ∧ i % neighborSize = 0) →
            metadata = some (n.bumpNodeVersions repl).metadata))
      ∧ (getOffsetInfo repl E start num).1 + (getOffsetInfo repl E start num).2.1 ≤ transLeafSize repl E
      ∧ (start + num = leafSpanSize →
          (getOffsetInfo repl E start num).1 + (getOffsetInfo repl E start num).2.1 = transLeafSize repl E)
      ∧ ∀ num', (getOffsetInfo repl E start num).1 + (getOffsetInfo repl E start num).2.1
          = (getOffsetInfo repl E (start + num) num').1 := by
  rw [getOffsetInfo_end, transLeafSize_eq, ← segmentStart_span]
  refine ⟨?_, ?_, ?_, ?_⟩
  . obtain ⟨buf, hbuf⟩ := n.isEncoded_encode repl intermediate output
    refine ⟨_, decodeSegment_eq hbuf hnum hlen hseg intermediate' output', ?_⟩
    intro hrepl hgroup
    rw [if_pos ⟨hrepl, toGroup_lt_iff.mpr hgroup⟩]
  . exact rawPos_mono ((segmentStart_strictMono repl E).monotone hlen)
  . intro heq
    rw [heq]
  . intro num'
    rw [getOffsetInfo_eq]

def sampleNode (first : Nat) (synonymPtr : GlobalAddress) : Node LeafEntry :=
  ⟨⟨⟨3, 0⟩, synonymPtr⟩, Vector.ofFn fun i => ⟨⟨3, 0⟩, int2key (first + i.val), 7⟩⟩

/-- The entries 5, ..., 8 contain the second copy of the metadata. -/
theorem decodeSegment_encode_group
    : ∃ (n : Node LeafEntry) (metadata : Option LeafMetadata), n = sampleNode 16 (.of 0 4096)
        ∧ decodeSegment true 5 4
            (fun y => n.encode true (fun _ => 0) (fun _ => 0) ((getOffsetInfo true LeafEntry 5 4).1 + y))
            (fun _ => 0) (fun _ => 0)
          = some (4, metadata, ((n.bumpNodeVersions true).records.toList.drop 5).take 4)
        ∧ ((n.bumpNodeVersions true).records.toList.drop 5).take 4
          = [21, 22, 23, 24].map (fun k => ⟨⟨4, 0⟩, int2key k, 7⟩)
        ∧ metadata = some ⟨⟨4, 0⟩, .of 0 4096⟩
        ∧ (getOffsetInfo true LeafEntry 5 4).1 + (getOffsetInfo true LeafEntry 5 4).2.1
          ≤ transLeafSize true LeafEntry := by
  obtain ⟨⟨metadata, hdec, hmeta⟩, hle, -⟩ := decodeSegment_encode true (sampleNode 16 (.of 0 4096)) 5 4 (by decide)
    (by decide) (fun _ => 0) (fun _ => 0) (fun _ => 0) (fun _ => 0) _ (fun _ _ => rfl)
  exact ⟨_, metadata, rfl, hdec, by decide +kernel, hmeta rfl ⟨8, by decide⟩, hle⟩

end Node

end Rolex

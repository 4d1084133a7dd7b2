import Rolex.Version.Node

/-!
This module contains what the encoders and decoders make of nodes and of the metadata scattered in them,
and that reading an image of a node gives the node back.
-/

namespace Rolex

theorem strncmpEq_congr {n : Nat} {lhs lhs' rhs rhs' : Buffer} (hl : ∀ t, t < n → lhs t = lhs' t)
    (hr : ∀ t, t < n → rhs t = rhs' t)
    : strncmpEq lhs rhs n = strncmpEq lhs' rhs' n := by
  induction n generalizing lhs lhs' rhs rhs' with
  | zero => rfl
  | succ n ih =>
    unfold strncmpEq
    rw [hl 0 (by omega), hr 0 (by omega), ih (fun t ht => hl (t + 1) (by omega))
      (fun t ht => hr (t + 1) (by omega))]

theorem strncmpEq_refl (buf : Buffer) (n : Nat) : strncmpEq buf buf n = true := by
  induction n generalizing buf with
  | zero => rfl
  | succ n ih =>
    unfold strncmpEq
    rw [ih, Bool.or_true, Bool.and_true]
    exact beq_self_eq_true _

section Scattered

variable {e a num : Nat} {metas : Nat → LeafMetadata} {records seg output out : Buffer}

/-- A segment with `a` records before its first metadata, as the metadata and the records one by one. -/
structure Scattered (e a num : Nat) (metas : Nat → LeafMetadata) (records seg : Buffer) : Prop where
  record : ∀ {j t}, j < num → t < e →
    seg (LeafVersionManager.segmentOffset e (e * a) j + t) = records (e * j + t)
  metadata : ∀ {b t}, a + 8 * b < num → t < leafMetadataSize →
    seg (e * a + groupBytes e * b + t) = (metas b).byte t

theorem pos_segment (he : 0 < e) {j t : Nat} (ht : t < e)
    : Weave.pos leafMetadataSize (groupSize e) (e * a) (e * j + t)
      = LeafVersionManager.segmentOffset e (e * a) j + t := by
  unfold Weave.pos LeafVersionManager.segmentOffset LeafVersionManager.recordOffset
    LeafVersionManager.groupOffset
  dsimp only
  rw [Nat.mul_div_cancel_left a he]
  by_cases h : j < a
  . have hmul := Nat.mul_le_mul_left e (show j + 1 ≤ a by omega)
    rw [Nat.mul_succ] at hmul
    rw [if_pos (by omega), if_pos h]
  . have hmul := Nat.mul_le_mul_left e (show a ≤ j by omega)
    have hsub : e * j + t - e * a = e * (j - a) + t := by
      rw [Nat.mul_sub]
      omega
    have hdiv : (e * (j - a) + t) / e = j - a := by
      rw [Nat.mul_add_div he, Nat.div_eq_of_lt ht, Nat.add_zero]
    have hmod : (e * (j - a) + t) % e = t := by
      rw [Nat.mul_add_mod, Nat.mod_eq_of_lt ht]
    rw [if_neg (by omega), if_neg h, hsub, groupSize_eq, ← Nat.div_div_eq_div_mul, Nat.mod_mul, hdiv, hmod,
      neighborSize_eq]
    unfold groupBytes groupSize
    rw [neighborSize_eq]
    omega

theorem lt_of_group (he : 0 < e) {b : Nat} : e * a + groupSize e * b < e * num ↔ a + 8 * b < num := by
  have hmul : e * a + groupSize e * b = e * (a + 8 * b) := by
    rw [groupSize_eq, Nat.mul_add, Nat.mul_assoc]
  rw [hmul]
  exact Nat.mul_lt_mul_left he

theorem groupSize_pos (he : 0 < e) : 0 < groupSize e := by
  rw [groupSize_eq]
  omega

theorem scattered_of_woven (he : 0 < e) {mark : Nat → Nat → BitVec 8}
    (h : Weave.Woven leafMetadataSize (groupSize e) (e * a) (e * num) mark records seg)
    (hmark : ∀ b t, t < leafMetadataSize → mark (e * a + groupSize e * b) t = (metas b).byte t)
    : Scattered e a num metas records seg where
  record := by
    intro j t hj ht
    have hmul := Nat.mul_le_mul_left e (show j + 1 ≤ num by omega)
    rw [Nat.mul_succ] at hmul
    rw [← pos_segment he ht]
    exact h.apply_pos (groupSize_pos he) (by omega)
  metadata := by
    intro b t hb ht
    have hbyte := h.mark ((lt_of_group he).mpr hb) ht
    rw [hmark b t ht] at hbyte
    exact hbyte

theorem scattered_encodeSegmentMetadata (he : 0 < e) (m : LeafMetadata)
    : Scattered e a num (fun _ => m) records
        (MetadataManager.encodeSegmentMetadata e records output (e * a) num m) :=
  scattered_of_woven he (Weave.woven_weave (groupSize_pos he)) fun _ _ _ => rfl

theorem unweave_metadata_eq_some (he : 0 < e) (ha : a ≤ num) {first : Nat} (hfirst : first = e * a)
    {same : Buffer → Bool}
    : Weave.unweave leafMetadataSize (groupSize e) (e * num) first (fun _ _ metadata => same metadata)
          seg output = some out
        ↔
      out = Weave.taken leafMetadataSize (groupSize e) first seg output (e * num)
        ∧ ∀ b, a + 8 * b < num → same (fun t => seg (first + groupBytes e * b + t)) = true := by
  subst hfirst
  refine (Weave.unweave_eq_some (groupSize_pos he) (Nat.mul_le_mul_left e ha)
    (fun _ _ _ _ _ _ => rfl)).trans (and_congr_right fun _ => ?_)
  constructor
  . intro hacc b hb
    exact hacc b (Nat.zero_le b) ((lt_of_group he).mpr hb)
  . intro hall b _ hb
    exact hall b ((lt_of_group he).mp hb)

namespace Scattered

variable (h : Scattered e a num metas records seg)
include h

theorem taken (he : 0 < e) (output : Buffer) {x : Nat} (hx : x < e * num)
    : Weave.taken leafMetadataSize (groupSize e) (e * a) seg output (e * num) x = records x := by
  have hdiv := Nat.div_add_mod x e
  rw [Weave.taken_of_lt hx, ← hdiv, pos_segment he (Nat.mod_lt x he)]
  exact h.record (Nat.div_lt_of_lt_mul hx) (Nat.mod_lt x he)

theorem metadata_first (hlt : a < num) {t : Nat} (ht : t < leafMetadataSize)
    : seg (e * a + t) = (metas 0).byte t := by
  have hbyte := h.metadata (b := 0) hlt ht
  rw [Nat.mul_zero, Nat.add_zero] at hbyte
  exact hbyte

theorem decodeSegmentMetadata (he : 0 < e) (ha : a ≤ num) (output : Buffer)
    (hsame : ∀ b, strncmpEq (metas 0).byte (metas b).byte leafMetadataSize = true)
    : ∃ out, MetadataManager.decodeSegmentMetadata e seg output (e * a) num
          = some (if a < num then some (metas 0) else none, out)
        ∧ ∀ x, x < e * num → out x = records x := by
  unfold MetadataManager.decodeSegmentMetadata
  by_cases hlt : a < num
  . have hfirst : LeafMetadata.ofBytes seg (e * a) = metas 0 := by
      apply LeafMetadata.ofBytes_eq
      intro t ht
      exact h.metadata_first hlt ht
    have hall : ∀ b, a + 8 * b < num → strncmpEq (fun t => seg (e * a + t))
        (fun t => seg (e * a + groupBytes e * b + t)) leafMetadataSize = true := by
      intro b hb
      rw [← hsame b]
      apply strncmpEq_congr
      . intro t ht
        exact h.metadata_first hlt ht
      . intro t ht
        exact h.metadata hb ht
    have hmul := Nat.mul_lt_mul_of_pos_left hlt he
    rw [if_neg (by omega), if_pos hlt, hfirst]
    dsimp only
    rw [(unweave_metadata_eq_some he ha rfl).mpr ⟨rfl, hall⟩]
    exact ⟨_, rfl, fun x hx => h.taken he output hx⟩
  . obtain rfl : a = num := by omega
    rw [if_pos (Nat.le_refl _), if_neg hlt]
    refine ⟨_, rfl, ?_⟩
    intro x hx
    rw [← h.taken he output hx, Weave.taken_of_lt hx]
    unfold memcpy Weave.pos
    rw [if_pos (by omega), if_pos hx, Nat.zero_add, Nat.sub_zero]

end Scattered

/-- All copies of the metadata equal the first one, as `strncmp` compares them. -/
def SameMetadata (metas : Nat → LeafMetadata) (groups : Nat) : Prop :=
  ∀ b, b < groups → strncmpEq (metas b).byte (metas 0).byte leafMetadataSize = true

theorem Scattered.decodeNodeMetadata_eq_some (h : Scattered e 0 leafSpanSize metas records seg)
    (he : 0 < e) (output : Buffer)
    : MetadataManager.decodeNodeMetadata e seg output = some out
        ↔
      SameMetadata metas entryGroupNum
        ∧ out = fun x =>
          if x < leafMetadataSize then
            seg x
          else
            Weave.taken leafMetadataSize (groupSize e) 0 seg (fun x => output (leafMetadataSize + x))
              (e * leafSpanSize) (x - leafMetadataSize) := by
  have hfirst : ∀ t, t < leafMetadataSize → seg t = (metas 0).byte t := by
    intro t ht
    have hbyte := h.metadata_first (show 0 < leafSpanSize by decide) ht
    rw [Nat.mul_zero, Nat.zero_add] at hbyte
    exact hbyte
  have hsame : (∀ b, 0 + 8 * b < leafSpanSize → strncmpEq (fun t => seg (0 + groupBytes e * b + t)) seg
      leafMetadataSize = true) ↔ SameMetadata metas entryGroupNum := by
    have h2 : entryGroupNum = 2 := rfl
    have hcmp : ∀ b, 0 + 8 * b < leafSpanSize →
        strncmpEq (fun t => seg (0 + groupBytes e * b + t)) seg leafMetadataSize
          = strncmpEq (metas b).byte (metas 0).byte leafMetadataSize :=
      fun b hb => strncmpEq_congr (fun t ht => h.metadata hb ht) hfirst
    unfold SameMetadata
    rw [h2]
    rw [leafSpanSize_eq] at hcmp ⊢
    constructor
    . intro hall b hb
      rw [← hcmp b (by omega)]
      exact hall b (by omega)
    . intro hall b hb
      rw [hcmp b hb]
      exact hall b (by omega)
  unfold MetadataManager.decodeNodeMetadata
  simp only [Option.bind_eq_bind, Option.bind_eq_some_iff,
    unweave_metadata_eq_some he (Nat.zero_le _) (Nat.mul_zero e).symm, hsame]
  constructor
  . rintro ⟨records, ⟨rfl, hall⟩, hout⟩
    exact ⟨hall, (Option.some.inj hout).symm⟩
  . rintro ⟨hall, rfl⟩
    exact ⟨_, ⟨rfl, hall⟩, rfl⟩

end Scattered

section

variable {E : Type} [EntryType E] {buf : Buffer} {metas : Nat → LeafMetadata} {rs : Vector E leafSpanSize}

open EntryType LeafVersionManager

theorem Holds.scattered (h : Holds true buf metas rs) {start num q : Nat} (hlen : start + num ≤ leafSpanSize)
    (hq : start + toGroup start = 8 * q)
    : Scattered (size E) (min (toGroup start) num) num (fun b => metas (q + b)) (recordBytes rs start)
        (fun x => buf (decodedOffset (size E) start + x)) where
  record := by
    intro j t hj ht
    have hoff := entryOffset_eq_segmentOffset (size_pos (E := E)) start hj
    rw [firstMetadataOffset_eq] at hoff
    rw [← Nat.add_assoc, ← hoff, recordBytes_apply rs start (by omega) ht]
    exact h.record (by omega) ht
  metadata := by
    intro b t hb ht
    have hgroup := decodedOffset_add_toGroup (size E) hq
    rw [leafSpanSize_eq] at hlen
    rw [Nat.min_eq_left (by omega)]
    have hpos : decodedOffset (size E) start + (size E * toGroup start + groupBytes (size E) * b + t)
        = metadataOffset true E (q + b) + t := by
      change _ = groupBytes (size E) * (q + b) + t
      rw [Nat.mul_add]
      omega
    rw [hpos]
    apply h.metadata _ ht
    change q + b < 2
    omega

theorem Holds.scattered_zero (h : Holds true buf metas rs)
    : Scattered (size E) 0 leafSpanSize metas (recordBytes rs 0) buf := by
  have hs := h.scattered (q := 0) (Nat.le_of_eq (Nat.zero_add leafSpanSize)) rfl
  have hzero : decodedOffset (size E) 0 = 0 := Nat.mul_zero _
  simp only [hzero, Nat.zero_add] at hs
  exact hs

theorem holds_of_scattered_zero {seg : Buffer}
    (h : Scattered (size E) 0 leafSpanSize metas (recordBytes rs 0) seg)
    : Holds true seg metas rs where
  metadata := by
    intro g t hg ht
    have hlt : 0 + 8 * g < leafSpanSize := by
      change g < 2 at hg
      rw [leafSpanSize_eq]
      omega
    have hbyte := h.metadata hlt ht
    rw [Nat.mul_zero, Nat.zero_add] at hbyte
    exact hbyte
  record := by
    intro i t hi ht
    have hoff := entryOffset_eq_segmentOffset (size_pos (E := E)) 0 hi
    have hzero : decodedOffset (size E) 0 = 0 := Nat.mul_zero _
    have hbyte := h.record hi ht
    rw [firstMetadataOffset_eq, hzero, Nat.zero_add, Nat.zero_add] at hoff
    rw [recordBytes_apply rs 0 (by omega) ht] at hbyte
    simp only [Nat.zero_add] at hbyte
    change seg (entryOffset (size E) i + t) = _
    rw [hoff]
    exact hbyte

namespace Node

theorem bytes_metadata (n : Node E) {t : Nat} (ht : t < leafMetadataSize)
    : n.bytes t = n.metadata.byte t := if_pos ht

theorem bytes_records (n : Node E) (x : Nat)
    : n.bytes (leafMetadataSize + x) = recordBytes n.records 0 x := by
  unfold bytes
  rw [if_neg (by omega), Nat.add_sub_cancel_left]

theorem holds_bytes (n : Node E) : Holds false n.bytes (fun _ => n.metadata) n.records where
  metadata := by
    intro g t _ ht
    change n.bytes (0 + t) = _
    rw [Nat.zero_add, n.bytes_metadata ht]
  record := by
    intro i t hi ht
    change n.bytes (leafMetadataSize + size E * i + t) = _
    rw [Nat.add_assoc, bytes_records, recordBytes_apply n.records 0 (by omega) ht]
    simp only [Nat.zero_add]

theorem holds_encodeNodeMetadata (n : Node E) (output : Buffer)
    : Holds true (MetadataManager.encodeNodeMetadata (size E) n.bytes output) (fun _ => n.metadata)
        n.records := by
  have hbytes : (fun x => n.bytes (leafMetadataSize + x)) = recordBytes n.records 0 :=
    funext n.bytes_records
  unfold MetadataManager.encodeNodeMetadata
  rw [hbytes]
  apply holds_of_scattered_zero
  apply scattered_of_woven size_pos (Weave.woven_weave (groupSize_pos size_pos))
  intro b t ht
  exact n.bytes_metadata ht

theorem ofBytes_eq {n : Node E} (h : Holds false buf metas n.records) (hmeta : metas 0 = n.metadata)
    : ofBytes buf = n := by
  have hm := h.metadata_eq metadataNum_pos
  have hr := h.records_eq
  rw [hmeta] at hm
  obtain ⟨metadata, records⟩ := n
  unfold ofBytes
  congr

variable {repl : Bool} {img intermediate output : Buffer} {n : Node E}

/-- An image holds a node. -/
structure IsEncoded (repl : Bool) (n : Node E) (img buf : Buffer) (metas : Nat → LeafMetadata)
    : Prop where
  image : (nodeFrame repl E).IsImage buf img
  uniform : (nodeFrame repl E).Uniform buf
  holds : Holds repl buf metas n.records
  metadata : metas 0 = n.metadata
  same : SameMetadata metas (metadataNum repl)

theorem decode_false_eq_some
    : decode false img intermediate output = some n ↔ ∃ buf metas, IsEncoded false n img buf metas := by
  have hiff : decode false img intermediate output = some n
      ↔ ∃ leaf, VersionManager.decodeNodeVersions (nodeLayout (size E) size_pos) img output = some leaf
        ∧ ofBytes leaf = n := by
    unfold decode
    simp only [Bool.false_eq_true, if_false, Option.bind_eq_bind, Option.bind_eq_some_iff, Option.pure_def,
      Option.some.injEq]
  rw [hiff]
  constructor
  . rintro ⟨leaf, hleaf, rfl⟩
    obtain ⟨-, himage, huniform⟩ := (plain_decoder le_size img output leaf).mp hleaf
    refine ⟨leaf, _, himage, huniform, Holds.of_buffer false leaf, rfl, ?_⟩
    intro b hb
    obtain rfl : b = 0 := Nat.lt_one_iff.mp hb
    exact strncmpEq_refl _ _
  . rintro ⟨buf, metas, h⟩
    obtain ⟨leaf, hleaf, heq⟩ := (plain_decoder le_size).of_isImage h.image h.uniform output
    exact ⟨leaf, hleaf, ofBytes_eq (h.holds.congr heq) h.metadata⟩

theorem holds_decodeNodeMetadata {leaf : Buffer} {rs : Vector E leafSpanSize} (h : Holds true buf metas rs)
    (hdec : MetadataManager.decodeNodeMetadata (size E) buf output = some leaf)
    : Holds false leaf metas rs := by
  obtain ⟨-, rfl⟩ := (h.scattered_zero.decodeNodeMetadata_eq_some size_pos output).mp hdec
  constructor
  . intro g t hg ht
    obtain rfl : g = 0 := Nat.lt_one_iff.mp hg
    have hbyte := h.metadata (g := 0) (by decide) ht
    rw [metadataOffset_zero] at hbyte ⊢
    rw [Nat.zero_add] at hbyte ⊢
    rw [if_pos ht]
    exact hbyte
  . intro i t hi ht
    have hmul := Nat.mul_le_mul_left (size E) (show i + 1 ≤ leafSpanSize by omega)
    rw [Nat.mul_succ] at hmul
    have htaken := h.scattered_zero.taken size_pos (fun x => output (leafMetadataSize + x))
      (show size E * i + t < size E * leafSpanSize by omega)
    rw [recordBytes_apply rs 0 (by omega) ht] at htaken
    simp only [Nat.zero_add, Nat.mul_zero] at htaken
    have hpos : recordOffset false E i + t = leafMetadataSize + (size E * i + t) := Nat.add_assoc _ _ _
    rw [hpos, if_neg (by omega), Nat.add_sub_cancel_left]
    exact htaken

theorem decode_true_eq_some
    : decode true img intermediate output = some n ↔ ∃ buf metas, IsEncoded true n img buf metas := by
  have hiff : decode true img intermediate output = some n
      ↔ ∃ scatteredLeaf, LeafVersionManager.decodeNodeVersions (size E) img intermediate
            = some scatteredLeaf
          ∧ ∃ leaf, MetadataManager.decodeNodeMetadata (size E) scatteredLeaf output = some leaf
            ∧ ofBytes leaf = n := by
    unfold decode
    simp only [if_true, Option.bind_eq_bind, Option.bind_eq_some_iff, Option.pure_def,
      Option.some.injEq]
  rw [hiff]
  constructor
  . rintro ⟨buf, hbuf, leaf, hleaf, rfl⟩
    obtain ⟨-, himage, huniform⟩ := (scattered_decoder le_size img intermediate buf).mp hbuf
    have hholds := Holds.of_buffer (E := E) true buf
    have heq : ofBytes leaf = ⟨_, _⟩ :=
      ofBytes_eq (n := ⟨_, _⟩) (holds_decodeNodeMetadata hholds hleaf) rfl
    have hsame := ((hholds.scattered_zero.decodeNodeMetadata_eq_some size_pos output).mp hleaf).1
    rw [heq]
    exact ⟨buf, _, himage, huniform, hholds, rfl, hsame⟩
  . rintro ⟨buf, metas, h⟩
    obtain ⟨scatteredLeaf, hscattered, heq⟩ :=
      (scattered_decoder le_size).of_isImage h.image h.uniform intermediate
    have hholds : Holds true scatteredLeaf metas n.records := h.holds.congr heq
    have hleaf := (hholds.scattered_zero.decodeNodeMetadata_eq_some size_pos output).mpr
      ⟨h.same, rfl⟩
    exact ⟨scatteredLeaf, hscattered, _, hleaf, ofBytes_eq (holds_decodeNodeMetadata hholds hleaf) h.metadata⟩

theorem decode_eq_some
    : decode repl img intermediate output = some n ↔ ∃ buf metas, IsEncoded repl n img buf metas := by
  cases repl with
  | true => exact decode_true_eq_some
  | false => exact decode_false_eq_some

theorem transLeafSize_eq : transLeafSize repl E = rawPos (nodeFrame repl E).size := by
  have h64 := (nodeFrame repl E).size_eq
  have hsize : decodedLeafSize repl E = (nodeFrame repl E).size := by
    cases repl with
    | true => rfl
    | false => rfl
  have hblock : (64 - versionSize) = 63 := rfl
  unfold transLeafSize addCachelineVersionSize rawPos
  rw [hsize, cachelineSize_eq, hblock, versionSize_eq]
  split
  . omega
  . split
    . omega
    . omega

theorem isEncoded_encode (n : Node E) (repl : Bool) (intermediate output : Buffer)
    : ∃ buf, IsEncoded repl (n.bumpNodeVersions repl) (n.encode repl intermediate output) buf
        fun _ => (n.bumpNodeVersions repl).metadata := by
  have hof : ∀ (buf : Buffer) (v : BitVec 4), Holds repl buf (fun _ => n.metadata) n.records →
      (nodeFrame repl E).IsImage ((nodeFrame repl E).setNodeVersions v buf) (n.encode repl intermediate output) →
      v = n.oldNodeVersion repl + 1 →
      IsEncoded repl (n.bumpNodeVersions repl) (n.encode repl intermediate output)
        ((nodeFrame repl E).setNodeVersions v buf) fun _ => (n.bumpNodeVersions repl).metadata := by
    rintro buf v hbuf himage rfl
    exact ⟨himage, Frame.uniform_setNodeVersions _ _ _, hbuf.setNodeVersions _, rfl,
      fun _ _ => strncmpEq_refl _ _⟩
  cases repl with
  | true =>
    have hbuf := n.holds_encodeNodeMetadata intermediate
    refine ⟨_, hof _ _ hbuf (scattered_encode le_size) ?_⟩
    have hversion := hbuf.metadata_nodeVersion metadataNum_pos
    rw [metadataOffset_zero] at hversion
    rw [hversion]
    rfl
  | false =>
    refine ⟨_, hof _ _ n.holds_bytes (plain_encode le_size) ?_⟩
    have hversion := n.holds_bytes.record_nodeVersion (show 0 < leafSpanSize by decide)
    change Layout.nodeVersion n.bytes (leafMetadataSize + size E * 0) = _ at hversion
    rw [Nat.mul_zero, Nat.add_zero] at hversion
    rw [hversion]
    rfl

theorem encode_of_ge (n : Node E) (intermediate output : Buffer) {x : Nat} (hx : transLeafSize repl E ≤ x)
    : n.encode repl intermediate output x = output x := by
  rw [transLeafSize_eq] at hx
  cases repl with
  | true => exact scattered_encode_of_ge le_size hx
  | false => exact plain_encode_of_ge le_size hx

theorem IsEncoded.image_eq {img' buf' : Buffer} (h : IsEncoded repl n img buf metas)
    (h' : IsEncoded repl n img' buf' metas) {y : Nat} (hy : y < transLeafSize repl E)
    : img y = img' y := by
  have heq : ∀ x, x < (nodeFrame repl E).size → buf x = buf' x := by
    intro x hx
    rcases exists_object hx with ⟨g, t, hg, ht, rfl⟩ | ⟨i, t, hi, ht, rfl⟩
    . rw [h.holds.metadata hg ht, h'.holds.metadata hg ht]
    . rw [h.holds.record hi ht, h'.holds.record hi ht]
  rw [transLeafSize_eq] at hy
  rw [h.image.congr heq y hy, h'.image y hy]

theorem decode_encode_bump (n : Node E) (intermediate output intermediate' output' : Buffer)
    : decode repl (n.encode repl intermediate output) intermediate' output' = some (n.bumpNodeVersions repl)
        ∧ (∀ x, transLeafSize repl E ≤ x → n.encode repl intermediate output x = output x)
        ∧ (∀ x, x < transLeafSize repl E →
            n.encode repl intermediate output x = n.encode repl intermediate' output' x)
        ∧ transLeafSize repl E ≤ lockOffset repl E
        ∧ lockOffset repl E + 8 ≤ transLeafSize repl E + allocationLockSize := by
  have hround : transLeafSize repl E ≤ lockOffset repl E
      ∧ lockOffset repl E + 8 ≤ transLeafSize repl E + allocationLockSize := by
    have h16 : allocationLockSize = 16 := rfl
    unfold lockOffset roundUp
    omega
  obtain ⟨buf, hbuf⟩ := n.isEncoded_encode repl intermediate output
  obtain ⟨buf', hbuf'⟩ := n.isEncoded_encode repl intermediate' output'
  refine ⟨decode_eq_some.mpr ⟨buf, _, hbuf⟩, fun x => n.encode_of_ge _ _, ?_, hround⟩
  intro x hx
  exact hbuf.image_eq hbuf' hx

end Node

end

end Rolex

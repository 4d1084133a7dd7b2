import Rolex.Version.Codec

/-!
This module contains what the comparison of the metadata copies finds out. `operator==` of
`LeafMetadata` is `strncmp`, which does not look behind the first zero byte.
-/

namespace Rolex

section Strncmp

theorem strncmpEq_iff {lhs rhs : Buffer} {n : Nat}
    : strncmpEq lhs rhs n = true
        ↔
      ∀ t, t < n → (∀ s, s < t → lhs s ≠ 0) → lhs t = rhs t := by
  induction n generalizing lhs rhs with
  | zero => simp [strncmpEq]
  | succ n ih =>
    unfold strncmpEq
    rw [Bool.and_eq_true, Bool.or_eq_true, beq_iff_eq, beq_iff_eq, ih]
    constructor
    . rintro ⟨hzero, hrest⟩ t ht hpre
      cases t with
      | zero => exact hzero
      | succ t =>
        rcases hrest with hend | hrest
        . exact absurd hend (hpre 0 (by omega))
        . exact hrest t (by omega) (fun s hs => hpre (s + 1) (by omega))
    . intro h
      refine ⟨h 0 (by omega) (by simp), ?_⟩
      by_cases hend : lhs 0 = 0
      . exact .inl hend
      . right
        intro t ht hpre
        apply h (t + 1) (by omega)
        intro s hs
        cases s with
        | zero => exact hend
        | succ s => exact hpre s (by omega)

theorem strncmpEq_comm (lhs rhs : Buffer) (n : Nat) : strncmpEq lhs rhs n = strncmpEq rhs lhs n := by
  induction n generalizing lhs rhs with
  | zero => rfl
  | succ n ih =>
    unfold strncmpEq
    rw [ih]
    by_cases h : lhs 0 = rhs 0
    . rw [h]
    . have hl : (lhs 0 == rhs 0) = false := beq_eq_false_iff_ne.mpr h
      have hr : (rhs 0 == lhs 0) = false := beq_eq_false_iff_ne.mpr (Ne.symm h)
      rw [hl, hr]
      rfl

end Strncmp

namespace LeafMetadata

/-- The copies differ at a byte in front of which the first one has no zero byte. -/
def DiffersVisibly (c first : LeafMetadata) : Prop :=
  ∃ t, t < leafMetadataSize ∧ c.byte t ≠ first.byte t ∧ ∀ s, s < t → first.byte s ≠ 0

theorem strncmpEq_iff_not_differsVisibly {c first : LeafMetadata}
    : strncmpEq first.byte c.byte leafMetadataSize = true ↔ ¬ c.DiffersVisibly first := by
  rw [strncmpEq_iff]
  unfold DiffersVisibly
  constructor
  . rintro h ⟨t, ht, hne, hpre⟩
    exact hne (h t ht hpre).symm
  . intro h t ht hpre
    apply Classical.byContradiction
    intro hne
    exact h ⟨t, ht, Ne.symm hne, hpre⟩

theorem DiffersVisibly.ne {c first : LeafMetadata} (h : c.DiffersVisibly first) : c ≠ first := by
  rintro rfl
  obtain ⟨t, -, hne, -⟩ := h
  exact hne rfl

end LeafMetadata

section Checks

open EntryType

/-- Copy `b` of the metadata in a scattered leaf (`first = 0`) or segment. -/
def metadataCopy (e : Nat) (buf : Buffer) (first b : Nat) : LeafMetadata :=
  .ofBytes buf (first + groupBytes e * b)

/-- How many groups start in the segment of `entryNum` records from `startEntryIdx` on. -/
def copiesInSegment (startEntryIdx entryNum : Nat) : Nat :=
  (entryNum - (neighborSize - startEntryIdx % neighborSize) % neighborSize + (neighborSize - 1))
    / neighborSize

/-- Copies that differ from the first one are not all different behind a zero byte only. -/
def DifferencesVisible (copies : Nat → LeafMetadata) (n : Nat) : Prop :=
  (∃ b < n, copies b ≠ copies 0) → ∃ b < n, (copies b).DiffersVisibly (copies 0)

theorem strncmpEq_metadataCopy (e : Nat) (buf : Buffer) (first b : Nat)
    : strncmpEq (fun t => buf (first + groupBytes e * 0 + t))
          (fun t => buf (first + groupBytes e * b + t)) leafMetadataSize
        = strncmpEq (metadataCopy e buf first 0).byte (metadataCopy e buf first b).byte
            leafMetadataSize :=
  strncmpEq_congr (fun _ ht => (LeafMetadata.byte_ofBytes _ _ ht).symm)
    (fun _ ht => (LeafMetadata.byte_ofBytes _ _ ht).symm)

/-- A check that no copy differs visibly is a check for equality exactly on these copies. -/
theorem differencesVisible_iff {copies : Nat → LeafMetadata} {n : Nat} {passes : Prop}
    (h : passes ↔ ∀ b < n, ¬ (copies b).DiffersVisibly (copies 0))
    : (passes ↔ ∀ b < n, copies b = copies 0) ↔ DifferencesVisible copies n := by
  unfold DifferencesVisible
  rw [h]
  constructor
  . rintro hiff ⟨b, hb, hne⟩
    apply Classical.byContradiction
    intro hnone
    exact hne (hiff.mp (fun b hb hd => hnone ⟨b, hb, hd⟩) b hb)
  . intro hvis
    constructor
    . intro hnone b hb
      apply Classical.byContradiction
      intro hne
      obtain ⟨b', hb', hd⟩ := hvis ⟨b, hb, hne⟩
      exact hnone b' hb' hd
    . intro heq b hb hd
      exact hd.ne (heq b hb)

variable {e : Nat} {input output : Buffer}

theorem decodeNodeMetadata_isSome (he : 0 < e)
    : (MetadataManager.decodeNodeMetadata e input output).isSome = true
        ↔
      ∀ b < entryGroupNum,
        ¬ (metadataCopy e input 0 b).DiffersVisibly (metadataCopy e input 0 0) := by
  have hloop := fun out => @unweave_metadata_eq_some e 0 leafSpanSize input
    (fun x => output (leafMetadataSize + x)) out he (Nat.zero_le _) 0 (Nat.mul_zero e).symm
    (fun metadata => strncmpEq metadata input leafMetadataSize)
  have hbound : ∀ b, 0 + 8 * b < leafSpanSize ↔ b < entryGroupNum := by
    intro b
    have h2 : entryGroupNum = 2 := rfl
    rw [leafSpanSize_eq, h2]
    omega
  have hcopy : ∀ b, strncmpEq (fun t => input (0 + groupBytes e * b + t)) input leafMetadataSize = true
      ↔ ¬ (metadataCopy e input 0 b).DiffersVisibly (metadataCopy e input 0 0) := by
    intro b
    rw [← LeafMetadata.strncmpEq_iff_not_differsVisibly, ← strncmpEq_metadataCopy, strncmpEq_comm]
    simp only [Nat.mul_zero, Nat.zero_add]
  unfold MetadataManager.decodeNodeMetadata
  rw [Option.isSome_iff_exists]
  simp only [Option.bind_eq_bind, Option.bind_eq_some_iff, hloop, hbound, hcopy]
  constructor
  . rintro ⟨_, _, ⟨-, hall⟩, -⟩
    exact hall
  . intro hall
    exact ⟨_, _, ⟨rfl, hall⟩, rfl⟩

theorem decodeSegmentMetadata_isSome (he : 0 < e) (start num : Nat)
    : (MetadataManager.decodeSegmentMetadata e input output
          (MetadataManager.getOffsetInfo e start num).1 num).isSome = true
        ↔
      ∀ b < copiesInSegment start num,
        ¬ (metadataCopy e input (MetadataManager.getOffsetInfo e start num).1 b).DiffersVisibly
            (metadataCopy e input (MetadataManager.getOffsetInfo e start num).1 0) := by
  have hfirst : (MetadataManager.getOffsetInfo e start num).1
      = e * min ((8 - start % 8) % 8) num := by
    unfold MetadataManager.getOffsetInfo
    simp only [neighborSize_eq]
    rw [Nat.mul_comm, Nat.mul_min_mul_left]
  generalize (MetadataManager.getOffsetInfo e start num).1 = first at hfirst
  unfold copiesInSegment
  rw [neighborSize_eq]
  generalize (8 - start % 8) % 8 = a at hfirst
  have hbound : ∀ b, min a num + 8 * b < num ↔ b < (num - a + (8 - 1)) / 8 := by
    intro b
    omega
  unfold MetadataManager.decodeSegmentMetadata
  split
  . next hge =>
    have hle : num ≤ min a num := by
      rw [hfirst] at hge
      exact Nat.le_of_mul_le_mul_left hge he
    have hzero : (num - a + (8 - 1)) / 8 = 0 := by omega
    simp [hzero]
  . next hlt =>
    have hloop := fun out => @unweave_metadata_eq_some e (min a num) num input output out he
      (Nat.min_le_right a num) first hfirst
      (fun metadata => strncmpEq (fun t => input (first + t)) metadata leafMetadataSize)
    have hcopy : ∀ b, strncmpEq (fun t => input (first + t))
        (fun t => input (first + groupBytes e * b + t)) leafMetadataSize = true
          ↔ ¬ (metadataCopy e input first b).DiffersVisibly (metadataCopy e input first 0) := by
      intro b
      rw [← LeafMetadata.strncmpEq_iff_not_differsVisibly, ← strncmpEq_metadataCopy]
      simp only [Nat.mul_zero, Nat.add_zero]
    rw [Option.isSome_iff_exists]
    simp only [Option.bind_eq_bind, Option.bind_eq_some_iff, hloop, hbound, hcopy]
    constructor
    . rintro ⟨_, _, ⟨-, hall⟩, -⟩
      exact hall
    . intro hall
      exact ⟨_, _, ⟨rfl, hall⟩, rfl⟩

/--
The assertions of both decoders hold exactly if all copies are equal, if and only if copies that
differ do so at a byte that `strncmp` reaches.
-/
theorem replica_checks_exact_iff (E : Type) [EntryType E] (input output : Buffer) (start num : Nat)
    : (((MetadataManager.decodeNodeMetadata (size E) input output).isSome = true
            ↔ ∀ b < entryGroupNum,
                metadataCopy (size E) input 0 b = metadataCopy (size E) input 0 0)
          ↔ DifferencesVisible (metadataCopy (size E) input 0) entryGroupNum)
      ∧
      (((MetadataManager.decodeSegmentMetadata (size E) input output
              (MetadataManager.getOffsetInfo (size E) start num).1 num).isSome = true
            ↔ ∀ b < copiesInSegment start num,
                metadataCopy (size E) input (MetadataManager.getOffsetInfo (size E) start num).1 b
                  = metadataCopy (size E) input
                      (MetadataManager.getOffsetInfo (size E) start num).1 0)
          ↔ DifferencesVisible
              (metadataCopy (size E) input (MetadataManager.getOffsetInfo (size E) start num).1)
              (copiesInSegment start num)) :=
  ⟨differencesVisible_iff (decodeNodeMetadata_isSome size_pos),
    differencesVisible_iff (decodeSegmentMetadata_isSome size_pos start num)⟩

/-- A scattered leaf of zero records whose two metadata copies are given. -/
def twoCopies (fst snd : LeafMetadata) : Buffer :=
  fun x =>
    if x < leafMetadataSize then
      fst.byte x
    else if groupBytes leafEntrySize ≤ x ∧ x < groupBytes leafEntrySize + leafMetadataSize then
      snd.byte (x - groupBytes leafEntrySize)
    else
      0

theorem different_replicas_accepted
    : (MetadataManager.decodeNodeMetadata leafEntrySize
          (twoCopies ⟨⟨1, 0⟩, .of 0 64⟩ ⟨⟨1, 0⟩, .of 0 128⟩) (fun _ => 0)).isSome = true
      ∧ metadataCopy leafEntrySize (twoCopies ⟨⟨1, 0⟩, .of 0 64⟩ ⟨⟨1, 0⟩, .of 0 128⟩) 0 1
          ≠ metadataCopy leafEntrySize (twoCopies ⟨⟨1, 0⟩, .of 0 64⟩ ⟨⟨1, 0⟩, .of 0 128⟩) 0 0 := by
  decide +kernel

end Checks

end Rolex

import Rolex.Hopscotch.Search

/-!
This module contains a node while an insert is writing the segment that it has hopped in, and what a
search finds that reads the two ends of the ring at different times. The node versions do not tell it
that the node has changed, the hop bitmap does.
-/

namespace Rolex

variable {hash : Key → Fin leafSpanSize} {r r' s : HopRecords} {k k' : Key} {v : Value} {h j : Int}

def HopRecords.HasHome (hash : Key → Fin leafSpanSize) (r : HopRecords) (q p : Fin leafSpanSize) : Prop :=
  (r.get p).key ≠ kkeyNull ∧ hash (r.get p).key = q

theorem HopRecords.HasHome.congr {q p p' : Fin leafSpanSize} (hr : r.HasHome hash q p)
    (hkv : r'.kv p' = r.kv p)
    : r'.HasHome hash q p' := by
  have hkey : (r'.get p').key = (r.get p).key := congrArg Prod.fst hkv
  unfold HopRecords.HasHome
  rw [hkey]
  exact hr

namespace HopChain

variable {l : List Nat}

theorem kv_behind (hc : HopChain hash k v r j l r') (hlo : (hash k).val ≤ j)
    (hhi : j < (hash k).val + 16) {i : Int} (hi : j < i) (hi' : i < (hash k).val + 16)
    : r'.kv (slot i) = r.kv (slot i) := by
  unfold HopRecords.kv
  rw [hc.outside hlo]
  intro m hm hmj heq
  have := slot_injOn hm (by omega) (by omega) hi' heq
  omega

theorem kv_hopTo_of_lt (hlo : (hash k).val ≤ j) (hhi : j < (hash k).val + 16) {i : Int}
    (hi : (hash k).val ≤ i) (hij : i < j)
    : (r.hopTo hash h j).kv (slot i) = r.kv (slot i) := by
  rw [(r.edit_hopTo hash h j).kv, if_neg]
  intro heq
  have := slot_injOn hi (by omega) hlo hhi heq
  omega

theorem kv_hopTo_self : (r.hopTo hash h j).kv (slot j) = r.kv (slot h) := by
  rw [(r.edit_hopTo hash h j).kv, if_pos rfl]
  rfl

theorem home_of_moved (hc : HopChain hash k v r j l r') (hlo : (hash k).val ≤ j)
    (hhi : j < (hash k).val + 16) {i : Int} (hi : (hash k).val ≤ i) (hij : i < j)
    (hmoved : r'.kv (slot i) ≠ r.kv (slot i))
    : ∃ home : Int, (hash k).val < home ∧ home ≤ i ∧ slot home = hash (r.get (slot i)).key := by
  induction hc with
  | @place r j hj =>
    apply absurd _ hmoved
    rw [(r.edit_placeAt hash k v j).kv, if_neg]
    intro heq
    have := slot_injOn hi (by omega) hlo hhi heq
    omega
  | @hop r r' h j l hhome hle hlt hok hslot next ih =>
    have hstay := kv_hopTo_of_lt (r := r) (h := h) hlo hhi hi hij
    rcases Int.lt_trichotomy i h with hih | rfl | hih
    . rw [← hstay] at hmoved
      obtain ⟨home, hhome', hhomei, heq⟩ := ih (by omega) (by omega) hih hmoved
      refine ⟨home, hhome', hhomei, ?_⟩
      have hkey : ((r.hopTo hash h j).get (slot i)).key = (r.get (slot i)).key := congrArg Prod.fst hstay
      rw [heq, hkey]
    . exact ⟨_, hhome, hle, hslot⟩
    . exact absurd ((next.kv_behind (by omega) (by omega) hih (by omega)).trans hstay) hmoved

/--
A chain of hops across index `c`, after which no slot from `c` on has become one with a record of home
`q`, has moved no record of home `q` across `c`: it would have taken the slot of another one, and so on
up to the empty slot.
-/
theorem kept_before (hc : HopChain hash k v r j l r') (hlo : (hash k).val ≤ j)
    (hhi : j < (hash k).val + 16) {q : Fin leafSpanSize} {c : Int}
    (hsame : ∀ i, c ≤ i → i ≤ j → r'.HasHome hash q (slot i) → i ≠ j ∧ r.HasHome hash q (slot i))
    {i : Int} (hi : (hash k).val ≤ i) (hij : i < j) (hic : i < c) (hq : r.HasHome hash q (slot i))
    : ∃ i', i ≤ i' ∧ i' < c ∧ i' ≤ j ∧ r'.kv (slot i') = r.kv (slot i) := by
  induction hc with
  | @place r j hj =>
    refine ⟨i, by omega, hic, by omega, ?_⟩
    rw [(r.edit_placeAt hash k v j).kv, if_neg]
    intro heq
    have := slot_injOn hi (by omega) hlo hhi heq
    omega
  | @hop r r' h j l hhome hle hlt hok hslot next ih =>
    have hstay : ∀ {m : Int}, (hash k).val ≤ m → m < j →
        (r.hopTo hash h j).kv (slot m) = r.kv (slot m) :=
      fun hm hmj => kv_hopTo_of_lt hlo hhi hm hmj
    have hbehind : ∀ {m : Int}, h < m → m ≤ j → r'.kv (slot m) = (r.hopTo hash h j).kv (slot m) :=
      fun hm hmj => next.kv_behind (by omega) (by omega) hm (by omega)
    -- the record of `h` is in `j` at the end, and `j` has been empty
    have hmoves : c ≤ j → ¬ r.HasHome hash q (slot h) := by
      intro hcj hqh
      have hj : r'.HasHome hash q (slot j) := hqh.congr ((hbehind hlt (by omega)).trans kv_hopTo_self)
      exact (hsame j hcj (by omega) hj).1 rfl
    rcases Int.lt_trichotomy i h with hih | rfl | hih
    . have hq' : (r.hopTo hash h j).HasHome hash q (slot i) := hq.congr (hstay hi hij)
      have hsame' : ∀ m, c ≤ m → m ≤ h → r'.HasHome hash q (slot m) →
          m ≠ h ∧ (r.hopTo hash h j).HasHome hash q (slot m) := by
        intro m hcm hmh hm
        have hr := (hsame m hcm (by omega) hm).2
        refine ⟨?_, hr.congr (hstay (by omega) (by omega))⟩
        rintro rfl
        exact hmoves (by omega) hr
      obtain ⟨i', hii', hi'c, hi'h, heq⟩ := ih (by omega) (by omega) hsame' hih hq'
      exact ⟨i', hii', hi'c, by omega, heq.trans (hstay hi hij)⟩
    . refine ⟨j, by omega, ?_, by omega, (hbehind hlt (by omega)).trans kv_hopTo_self⟩
      by_contra hjc
      exact hmoves (by omega) hq
    . exact ⟨i, by omega, hic, by omega, (hbehind hih (by omega)).trans (hstay hi hij)⟩

end HopChain

/--
The slots that have been written after `n` WRITEs of `segment_write_and_unlock`. When the segment does not
wrap, its one WRITE counts as the second.
-/
def written (lIdx rIdx : Nat) : Nat → Nat → Bool
  | 0, _ => false
  | 1, p => decide (rIdx < lIdx ∧ p ≤ rIdx)
  | _ + 2, _ => true

/-- The records `r` while those of a segment are replaced by `r'`. -/
def halfway (r r' : HopRecords) (lIdx rIdx n : Nat) : HopRecords :=
  Vector.ofFn fun p => if written lIdx rIdx n p.val then r'.get p else r.get p

theorem get_halfway (r r' : HopRecords) (lIdx rIdx n : Nat) (p : Fin leafSpanSize)
    : (halfway r r' lIdx rIdx n).get p = if written lIdx rIdx n p.val then r'.get p else r.get p :=
  HopRecords.get_ofFn _ p

theorem written_iff {lIdx rIdx n p : Nat}
    : written lIdx rIdx n p = true ↔ 2 ≤ n ∨ (n = 1 ∧ rIdx < lIdx ∧ p ≤ rIdx) := by
  match n with
  | 0 => simp [written]
  | 1 => simp [written]
  | n + 2 => simp [written]

theorem halfway_zero (r r' : HopRecords) (lIdx rIdx : Nat) : halfway r r' lIdx rIdx 0 = r := by
  apply HopRecords.ext_get
  intro p
  rw [get_halfway]
  rfl

theorem halfway_two (r r' : HopRecords) (lIdx rIdx : Nat) : halfway r r' lIdx rIdx 2 = r' := by
  apply HopRecords.ext_get
  intro p
  rw [get_halfway]
  rfl

theorem segmentWrite_first {t : HopRecords} {lIdx rIdx : Nat} (hlt : rIdx < lIdx)
    (ht : ∀ p : Fin leafSpanSize, p.val ≤ rIdx → r'.get p = t.get p) (l : List Nat)
    : segmentWrite r t 0 rIdx l = halfway r (r'.bumpEntries l) lIdx rIdx 1 := by
  apply HopRecords.ext_get
  intro p
  have hin : InSegment 0 rIdx p.val ↔ p.val ≤ rIdx := by
    unfold InSegment
    rw [if_pos (Nat.zero_le rIdx)]
    exact and_iff_right (Nat.zero_le p.val)
  have hwritten : written lIdx rIdx 1 p.val = true ↔ p.val ≤ rIdx := by
    rw [written_iff]
    omega
  unfold segmentWrite
  rw [HopRecords.get_ofFn, get_halfway, HopRecords.get_bumpEntries]
  simp only [hin, hwritten]
  split
  . next hp => rw [ht p hp]
  . rfl

/-- The records that a search has in its buffer when it reads the slots behind the wrap first. -/
def ReadApart (q : Fin leafSpanSize) (rl rr s : HopRecords) : Prop :=
  ∀ i : Int, q.val ≤ i → i < q.val + 8 → s.getEntry i = if i < 16 then rr.getEntry i else rl.getEntry i

section Scan

variable {e : Int} {l : List Nat} {n₁ n₂ : Nat}

/-- A search that misses a key has read its slot after the key has left it, and its new slot before. -/
theorem Hops.exists_moved (hh : Hops hash r k v e l r') (hk : k ≠ kkeyNull) {p : Fin leafSpanSize}
    (hp : (r.get p).key = k') (hk' : k' ≠ kkeyNull) (hne : (r'.get p).key ≠ k')
    : ∃ home i i' : Int, (hash k).val < home ∧ home ≤ i ∧ i ≤ i' ∧ i' ≤ e ∧ i' < home + 8
        ∧ slot home = hash k' ∧ slot i = p ∧ (r'.get (slot i')).key = k' := by
  have hlo := hh.state.lo
  have hhi := hh.state.hi
  have hmoved : r'.kv p ≠ r.kv p := fun hkv => hne ((congrArg Prod.fst hkv).trans hp)
  obtain ⟨i, hi, hi', rfl⟩ := exists_logical (hash k).val p
  have hie : i < e := by
    by_contra hge
    rcases Int.lt_or_eq_of_le (not_lt.mp hge) with hlt | rfl
    . exact hmoved (hh.chain.kv_behind hlo hhi hlt hi')
    . exact hk' (hp.symm.trans hh.null)
  obtain ⟨home, hhome, hhomei, hslot⟩ := hh.chain.home_of_moved hlo hhi hi hie hmoved
  rw [hp] at hslot
  obtain ⟨i', hii', hi'e, hkv⟩ := hh.chain.forward hlo hhi hi hie
  have hkey : (r'.get (slot i')).key = k' := (congrArg Prod.fst hkv).trans hp
  refine ⟨home, i, i', hhome, hhomei, hii', hi'e, ?_, hslot, rfl, hkey⟩
  -- the record is near its home after the hops as well
  have hnear := (hh.inv hk).near (slot i') (by rw [hkey]; exact hk')
  have hv := val_slot i'
  have hv' := val_slot home
  have h8 : (neighborSize : Int) = 8 := rfl
  have h16 : (leafSpanSize : Int) = 16 := rfl
  rw [hkey, ← hslot, h16, h8, hv, hv'] at hnear
  omega

theorem ReadApart.key {lIdx rIdx : Nat} {q : Fin leafSpanSize}
    (hs : ReadApart q (halfway r (r'.bumpEntries l) lIdx rIdx n₁)
      (halfway r (r'.bumpEntries l) lIdx rIdx n₂) s)
    {i : Int} (hi : q.val ≤ i) (hi' : i < q.val + 8)
    : (s.getEntry i).key
        =
      if written lIdx rIdx (if i < 16 then n₂ else n₁) (slot i).val then
        (r'.get (slot i)).key
      else
        (r.get (slot i)).key := by
  have hget : ∀ n, ((halfway r (r'.bumpEntries l) lIdx rIdx n).getEntry i).key
      = if written lIdx rIdx n (slot i).val then (r'.get (slot i)).key else (r.get (slot i)).key := by
    intro n
    unfold HopRecords.getEntry
    rw [get_halfway, HopRecords.get_bumpEntries]
    split
    . rfl
    . rfl
  rw [hs i hi hi']
  split
  . exact hget n₂
  . exact hget n₁

/--
The case in which only the bitmap tells: the slots up to the end of the ring are read after all WRITEs,
those behind the wrap before all of them. If the bitmap says nothing, no record has moved across the wrap.
-/
theorem Hops.kept_of_bitsAt (hh : Hops hash r k v e l r') (hk : k ≠ kkeyNull)
    (hhome : (hash k).val < (hash k').val) (hn₁ : n₁ = 0) (hn₂ : 2 ≤ n₂)
    (hs : ReadApart (hash k') (halfway r (r'.bumpEntries l) (hash k).val (slot e).val n₁)
      (halfway r (r'.bumpEntries l) (hash k).val (slot e).val n₂) s)
    (hbits : BitsAt hash s (hash k')) {i : Int} (hi : (hash k').val ≤ i) (hi' : i < 16) (hie : i < e)
    (hkey : (r.get (slot i)).key = k') (hk' : k' ≠ kkeyNull)
    : ∃ i', i ≤ i' ∧ i' < 16 ∧ (r'.get (slot i')).key = k' := by
  have hlo := hh.state.lo
  have hhi := hh.state.hi
  have hinv := hh.inv hk
  have hlt : (hash k').val < 16 := (hash k').isLt
  -- the bitmap is that of the node after the WRITEs
  have hbitmap : ∀ d, (s.get (hash k')).hopBit d = (r'.get (hash k')).hopBit d := by
    intro d
    have hentry := hs (hash k').val (by omega) (by omega)
    rw [if_pos (by omega), HopRecords.getEntry_val, HopRecords.getEntry_val, get_halfway,
      if_pos (written_iff.mpr (.inl hn₂)), HopRecords.get_bumpEntries] at hentry
    rw [hentry]
    rfl
  have hsame : ∀ m, 16 ≤ m → m ≤ e → r'.HasHome hash (hash k') (slot m) →
      m ≠ e ∧ r.HasHome hash (hash k') (slot m) := by
    intro m hm hme hhas
    obtain ⟨d, hd, hslot⟩ := hinv.exists_offset hhas.1
    rw [hhas.2] at hslot
    have h8 := neighborSize_eq
    have hmd : m = (hash k').val + d :=
      slot_injOn (a := (hash k').val) (by omega) (by omega) (by omega) (by omega) hslot.symm
    have hat : HomeAt hash r' (hash k') d := by
      unfold HomeAt HopRecords.getEntry
      rw [hslot]
      exact hhas
    have hat' : HomeAt hash s (hash k') d := by
      have hbit := hbits d hd
      rw [hbitmap d, hinv.bitsAt (hash k') d hd] at hbit
      exact of_decide_eq_true (hbit.symm.trans (decide_eq_true hat))
    -- which the search has seen in the node before the WRITEs
    have hread : (s.getEntry m).key = (r.get (slot m)).key := by
      rw [hs.key (by omega) (by omega), if_neg (show ¬ m < 16 by omega), hn₁]
      rfl
    unfold HomeAt at hat'
    rw [← hmd, hread] at hat'
    refine ⟨?_, hat'⟩
    rintro rfl
    exact hat'.1 hh.null
  have hq : r.HasHome hash (hash k') (slot i) := by
    unfold HopRecords.HasHome
    rw [hkey]
    exact ⟨hk', rfl⟩
  obtain ⟨i', hii', hi'c, -, hkv⟩ := hh.chain.kept_before hlo hhi hsame (by omega) hie hi' hq
  exact ⟨i', hii', hi'c, (congrArg Prod.fst hkv).trans hkey⟩

theorem Hops.scanNode_halfway (hh : Hops hash r k v e l r') (hinv : r.Inv hash) (hk : k ≠ kkeyNull)
    (hle : n₁ ≤ n₂) (hstores : r.Stores k')
    (hs : ReadApart (hash k') (halfway r (r'.bumpEntries l) (hash k).val (slot e).val n₁)
      (halfway r (r'.bumpEntries l) (hash k).val (slot e).val n₂) s)
    : scanNode hash s k' ≠ .absent := by
  intro habsent
  obtain ⟨hk', p, hp⟩ := hstores
  obtain ⟨hbits, hmiss⟩ : BitsAt hash s (hash k') ∧ ∀ d, 0 ≤ d → d < neighborSize →
      (s.getEntry ((hash k').val + d)).key ≠ k' := by
    have hspec : Scanned hash s k' 0 (scanNode hash s k') := scanNode_spec hk'
    rwa [habsent] at hspec
  have h8 := neighborSize_eq
  -- a slot of the window with the key has been written before it was read, or after
  have hold : ∀ d : Nat, d < 8 → (r.get (slot ((hash k').val + d))).key = k' →
      written (hash k).val (slot e).val (if ((hash k').val : Int) + d < 16 then n₂ else n₁)
        (slot ((hash k').val + d)).val = true
      ∧ (r'.get (slot ((hash k').val + d))).key ≠ k' := by
    intro d hd hkey
    have hne := hmiss d (Nat.zero_le d) (by omega)
    rw [hs.key (by omega) (by omega)] at hne
    by_cases hw : written (hash k).val (slot e).val (if ((hash k').val : Int) + d < 16 then n₂ else n₁)
        (slot ((hash k').val + d)).val = true
    . rw [if_pos hw] at hne
      exact ⟨hw, hne⟩
    . rw [if_neg hw] at hne
      exact absurd hkey hne
  have hnew : ∀ d : Nat, d < 8 → (r'.get (slot ((hash k').val + d))).key = k' →
      ¬ written (hash k).val (slot e).val (if ((hash k').val : Int) + d < 16 then n₂ else n₁)
        (slot ((hash k').val + d)).val = true := by
    intro d hd hkey hw
    have hne := hmiss d (Nat.zero_le d) (by omega)
    rw [hs.key (by omega) (by omega), if_pos hw] at hne
    exact hne hkey
  obtain ⟨d, hd, hslot⟩ := hinv.exists_offset (by rw [hp]; exact hk')
  rw [hp] at hslot
  rw [← hslot] at hp
  obtain ⟨hw, hne⟩ := hold d (by omega) hp
  obtain ⟨home, i, i', hhome, hhomei, hii', hi'e, hi'8, hslotHome, hsloti, hkey⟩ :=
    hh.exists_moved hk hp hk' hne
  have hltk : (hash k).val < 16 := (hash k).isLt
  have hlt : (hash k').val < 16 := (hash k').isLt
  have hlo := hh.state.lo
  have hhi := hh.state.hi
  have hmod : home % 16 = (hash k').val := by
    rw [← val_slot, hslotHome]
  rw [slot_eq_slot_iff] at hsloti
  obtain ⟨d', hd'⟩ : ∃ d' : Nat, i' = home + d' := ⟨(i' - home).toNat, by omega⟩
  have hslot' : slot i' = slot ((hash k').val + d') := by
    rw [slot_eq_slot_iff]
    omega
  rw [hslot'] at hkey
  have hw' := hnew d' (by omega) hkey
  have hvd := val_slot ((hash k').val + d)
  have hvd' := val_slot ((hash k').val + d')
  have hve := val_slot e
  rw [written_iff] at hw hw'
  -- the two slots lie on one side of the wrap, or the key has moved across it
  by_cases hwrap : ((hash k').val : Int) + d < 16 ∧ 16 ≤ ((hash k').val : Int) + d' ∧ home = (hash k').val
  . obtain ⟨hR, hL, rfl⟩ := hwrap
    rw [if_pos hR] at hw
    rw [if_neg (by omega)] at hw'
    obtain ⟨j, hij, hj, hkeyj⟩ := hh.kept_of_bitsAt hk (by omega) (by omega) (by omega) hs hbits
      (show ((hash k').val : Int) ≤ (hash k').val + d by omega) hR (by omega) hp hk'
    obtain ⟨t, rfl⟩ : ∃ t : Nat, j = (hash k').val + t := ⟨(j - (hash k').val).toNat, by omega⟩
    apply hnew t (by omega) hkeyj
    rw [if_pos hj, written_iff]
    omega
  . split at hw
    . split at hw'
      . omega
      . omega
    . split at hw'
      . omega
      . omega

end Scan

end Rolex

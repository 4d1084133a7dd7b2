import Mathlib.Data.Fintype.Card
import Rolex.Hopscotch.Inv

/-!
This module contains the chains of hops that `next_hop` makes: what they do to the records of a node,
and that they look at nothing but the slots from the home of the key to the empty slot.
-/

namespace Rolex

variable {hash : Key → Fin leafSpanSize} {r r' s s' : HopRecords} {k : Key} {v : Value} {h j : Int}

namespace HopRecords

def kv (r : HopRecords) (p : Fin leafSpanSize) : Key × Value := ((r.get p).key, (r.get p).value)

theorem Edit.kv {j q : Fin leafSpanSize} (he : r.Edit j k v q r') (p : Fin leafSpanSize)
    : r'.kv p = if p = j then (k, v) else r.kv p := by
  unfold HopRecords.kv
  rw [he.key, he.value]
  split
  . rfl
  . rfl

def copies (r : HopRecords) (x : Key × Value) : Nat := (Finset.univ.filter fun p => r.kv p = x).card

def Distinct (r : HopRecords) : Prop :=
  ∀ p q, (r.get p).key ≠ kkeyNull → (r.get p).key = (r.get q).key → p = q

instance (r : HopRecords) : Decidable r.Distinct := by
  unfold Distinct
  infer_instance

/-- No key is stored twice in the slots other than `j`. -/
def DistinctBut (r : HopRecords) (j : Fin leafSpanSize) : Prop :=
  ∀ p q, p ≠ j → q ≠ j → (r.get p).key ≠ kkeyNull → (r.get p).key = (r.get q).key → p = q

end HopRecords

/-- The chain of hops from `j` on, with the indices that are hopped to. -/
inductive HopChain (hash : Key → Fin leafSpanSize) (k : Key) (v : Value)
    : HopRecords → Int → List Nat → HopRecords → Prop
  | place {r : HopRecords} {j : Int} (hj : j < (hash k).val + 8) :
      HopChain hash k v r j [(slot j).val] (r.placeAt hash k v j)
  | hop {r r' : HopRecords} {h j : Int} {l : List Nat} (hhome : (hash k).val < hHashIdx hash r h)
      (hle : hHashIdx hash r h ≤ h) (hlt : h < j) (hok : j < hHashIdx hash r h + 8)
      (hslot : slot (hHashIdx hash r h) = hash (r.getEntry h).key)
      (next : HopChain hash k v (r.hopTo hash h j) h l r') :
      HopChain hash k v r j ((slot j).val :: l) r'

theorem hopReaches_congr {a : Int} {fuel : Nat}
    (hkey : ∀ i, a ≤ i → i < j → (r.getEntry i).key = (s.getEntry i).key)
    : hopReaches hash r a j fuel = hopReaches hash s a j fuel := by
  have h8 := neighborSize_eq
  induction fuel generalizing j with
  | zero => rfl
  | succ fuel ih =>
    unfold hopReaches
    split
    . rfl
    . next hj =>
      have hcongr : findHop hash r j (neighborSize - 1) = findHop hash s j (neighborSize - 1) := by
        apply findHop_congr
        intro i hi hij
        exact hkey i (by omega) hij
      rw [← hcongr]
      cases hf : findHop hash r j (neighborSize - 1) with
      | none => rfl
      | some h =>
        have hlt := (findHop_eq_some hf).1
        exact ih (fun i hi hih => hkey i hi (by omega))

/-- `next_hop` runs without a failing assertion, and as `hopscotch_get_split_key` foresees. -/
theorem nextHop_spec (assertHome : Bool) (hs : HopState hash k r j) {fuel : Nat}
    (hfuel : j - (hash k).val < fuel) (acc : List Nat)
    : (hopReaches hash r (hash k).val j fuel = true →
        ∃ l r', nextHop hash assertHome k v r j acc fuel = .ok (some (r', acc ++ l))
          ∧ HopChain hash k v r j l r')
        ∧ (hopReaches hash r (hash k).val j fuel = false →
            nextHop hash assertHome k v r j acc fuel = .ok none) := by
  have h8 := neighborSize_eq
  induction fuel generalizing r j acc with
  | zero =>
    have := hs.lo
    omega
  | succ fuel ih =>
    unfold hopReaches nextHop
    dsimp only
    by_cases hj : j < (hash k).val + neighborSize
    . rw [if_pos hj, if_pos hj, hs.place_eq (by omega)]
      refine ⟨fun _ => ⟨_, _, rfl, .place (by omega)⟩, ?_⟩
      intro hfalse
      cases hfalse
    . rw [if_neg hj, if_neg hj, hs.homesBehind (by omega)]
      simp only [Bool.not_true, Bool.and_false, Bool.false_eq_true, if_false]
      cases hf : findHop hash r j (neighborSize - 1) with
      | none => simp
      | some h =>
        obtain ⟨hhome, hle, hlt, hok, hslot⟩ := hs.findHop_spec (by omega) hf
        have hcongr : hopReaches hash r (hash k).val h fuel
            = hopReaches hash (r.hopTo hash h j) (hash k).val h fuel := by
          apply hopReaches_congr
          intro i hi hih
          unfold HopRecords.getEntry
          rw [(r.edit_hopTo hash h j).key, if_neg (hs.slot_ne hi (by omega))]
        obtain ⟨hsome, hnone⟩ := ih (hs.hop (by omega) hlt hok) (by omega) (acc ++ [(slot j).val])
        dsimp only
        rw [hs.hop_eq (by omega) hlt hok, hcongr]
        refine ⟨?_, hnone⟩
        intro hreach
        obtain ⟨l, r', heq, hchain⟩ := hsome hreach
        rw [List.append_assoc] at heq
        exact ⟨_, _, heq, .hop hhome hle hlt hok hslot hchain⟩

namespace HopChain

variable {l : List Nat}

theorem inv (hc : HopChain hash k v r j l r') (hs : HopState hash k r j) (hk : k ≠ kkeyNull)
    : r'.Inv hash := by
  induction hc with
  | place hj => exact hs.inv_placeAt hj hk
  | hop hhome hle hlt hok _ _ ih => exact ih (hs.hop (by omega) hlt hok)

theorem outside (hc : HopChain hash k v r j l r') (hlo : (hash k).val ≤ j) {p : Fin leafSpanSize}
    (hp : ∀ i : Int, (hash k).val ≤ i → i ≤ j → slot i ≠ p)
    : r'.get p = r.get p := by
  induction hc with
  | @place r j hj =>
    apply (r.edit_placeAt hash k v j).other
    . exact (hp j hlo (by omega)).symm
    . rw [← slot_val (hash k)]
      exact (hp (hash k).val (by omega) hlo).symm
  | @hop r r' h j l hhome hle hlt hok hslot next ih =>
    rw [ih (by omega) (fun i hi hih => hp i hi (by omega))]
    apply (r.edit_hopTo hash h j).other
    . exact (hp j hlo (by omega)).symm
    . exact (hp _ (by omega) (by omega)).symm

theorem mem_hopped (hc : HopChain hash k v r j l r') (hlo : (hash k).val ≤ j) {x : Nat} (hx : x ∈ l)
    : ∃ i : Int, (hash k).val ≤ i ∧ i ≤ j ∧ x = (slot i).val := by
  induction hc with
  | @place r j hj =>
    rw [List.mem_singleton] at hx
    exact ⟨j, hlo, by omega, hx⟩
  | @hop r r' h j l hhome hle hlt hok hslot next ih =>
    rcases List.mem_cons.mp hx with rfl | hx
    . exact ⟨j, hlo, by omega, rfl⟩
    . obtain ⟨i, hi, hih, rfl⟩ := ih (by omega) hx
      exact ⟨i, hi, by omega, rfl⟩

theorem nodup (hc : HopChain hash k v r j l r') (hlo : (hash k).val ≤ j) (hhi : j < (hash k).val + 16)
    : l.Nodup := by
  induction hc with
  | place hj => exact List.nodup_singleton _
  | @hop r r' h j l hhome hle hlt hok hslot next ih =>
    rw [List.nodup_cons]
    refine ⟨?_, ih (by omega) (by omega)⟩
    intro hmem
    obtain ⟨i, hi, hih, heq⟩ := next.mem_hopped (by omega) hmem
    have := slot_injOn hlo hhi hi (by omega) (Fin.ext heq)
    omega

theorem kept (hc : HopChain hash k v r j l r') {p : Fin leafSpanSize} (hp : p.val ∉ l)
    : (r'.get p).key = (r.get p).key ∧ (r'.get p).value = (r.get p).value := by
  induction hc with
  | @place r j hj =>
    have hne : p ≠ slot j := by
      rintro rfl
      exact hp (List.mem_singleton.mpr rfl)
    rw [(r.edit_placeAt hash k v j).key, (r.edit_placeAt hash k v j).value, if_neg hne, if_neg hne]
    exact ⟨rfl, rfl⟩
  | @hop r r' h j l hhome hle hlt hok hslot next ih =>
    rw [List.mem_cons, not_or] at hp
    have hne : p ≠ slot j := fun he => hp.1 (congrArg Fin.val he)
    obtain ⟨hkey, hvalue⟩ := ih hp.2
    rw [(r.edit_hopTo hash h j).key, if_neg hne] at hkey
    rw [(r.edit_hopTo hash h j).value, if_neg hne] at hvalue
    exact ⟨hkey, hvalue⟩

theorem versions (hc : HopChain hash k v r j l r') (p : Fin leafSpanSize)
    : (r'.get p).hVersion = (r.get p).hVersion ∧ (r'.get p).hopPadding = (r.get p).hopPadding := by
  induction hc with
  | @place r j hj => exact ⟨(r.edit_placeAt hash k v j).hVersion p, (r.edit_placeAt hash k v j).hopPadding p⟩
  | @hop r r' h j l hhome hle hlt hok hslot next ih =>
    rw [ih.1, ih.2]
    exact ⟨(r.edit_hopTo hash h j).hVersion p, (r.edit_hopTo hash h j).hopPadding p⟩

theorem copies (hc : HopChain hash k v r j l r') (hlo : (hash k).val ≤ j) (hhi : j < (hash k).val + 16)
    (x : Key × Value)
    : r'.copies x = (Finset.univ.filter fun p => p ≠ slot j ∧ r.kv p = x).card
        + if x = (k, v) then 1 else 0 := by
  unfold HopRecords.copies
  induction hc with
  | @place r j hj =>
    have hkv := (r.edit_placeAt hash k v j).kv
    split
    . next hx =>
      rw [← Finset.card_insert_of_notMem (a := slot j) (by simp)]
      congr 1
      ext p
      by_cases hp : p = slot j
      . simp [hkv, hp, hx]
      . simp [hkv, hp]
    . next hx =>
      rw [Nat.add_zero]
      congr 1
      ext p
      by_cases hp : p = slot j
      . simp [hkv, hp, Ne.symm hx]
      . simp [hkv, hp]
  | @hop r r' h j l hhome hle hlt hok hslot next ih =>
    rw [ih (by omega) (by omega)]
    have hkv := (r.edit_hopTo hash h j).kv
    have hne : slot h ≠ slot j := by
      intro he
      have := slot_injOn (by omega) (by omega) hlo hhi he
      omega
    congr 1
    -- the record in `h` is the one that is now in `j`
    apply Finset.card_equiv (Equiv.swap (slot h) (slot j))
    intro p
    rcases eq_or_ne p (slot h) with rfl | hph
    . simp
    . rcases eq_or_ne p (slot j) with rfl | hpj
      . have hval : (r.hopTo hash h j).kv (slot j) = r.kv (slot h) := by
          rw [hkv, if_pos rfl]
          rfl
        simp [hval, hne, hph]
      . simp [hkv, hph, hpj, Equiv.swap_apply_of_ne_of_ne hph hpj]

theorem forward (hc : HopChain hash k v r j l r') (hlo : (hash k).val ≤ j)
    (hhi : j < (hash k).val + 16) {i : Int} (hi : (hash k).val ≤ i) (hij : i < j)
    : ∃ i', i ≤ i' ∧ i' ≤ j ∧ r'.kv (slot i') = r.kv (slot i) := by
  induction hc with
  | @place r j hj =>
    refine ⟨i, by omega, by omega, ?_⟩
    rw [(r.edit_placeAt hash k v j).kv, if_neg]
    intro he
    have := slot_injOn hi (by omega) hlo hhi he
    omega
  | @hop r r' h j l hhome hle hlt hok hslot next ih =>
    have hkv := (r.edit_hopTo hash h j).kv
    -- slots behind `h` are not touched any more
    have hbehind : ∀ m, h < m → m ≤ j → r'.kv (slot m) = (r.hopTo hash h j).kv (slot m) := by
      intro m hm hmj
      unfold HopRecords.kv
      rw [next.outside (by omega)]
      intro i hi hih he
      have := slot_injOn hi (by omega) (by omega) (by omega) he
      omega
    have hstay : ∀ m : Int, (hash k).val ≤ m → m < j →
        (r.hopTo hash h j).kv (slot m) = r.kv (slot m) := by
      intro m hm hmj
      rw [hkv, if_neg]
      intro he
      have := slot_injOn hm (by omega) hlo hhi he
      omega
    rcases Int.lt_trichotomy i h with hih | rfl | hih
    . obtain ⟨i', hii', hi'h, heq⟩ := ih (by omega) (by omega) hih
      exact ⟨i', hii', by omega, heq.trans (hstay i hi hij)⟩
    . refine ⟨j, by omega, by omega, ?_⟩
      rw [hbehind j hlt (by omega), hkv, if_pos rfl]
      rfl
    . exact ⟨i, by omega, by omega, (hbehind i hih (by omega)).trans (hstay i hi hij)⟩

theorem twice (hc : HopChain hash k v r j l r') (hlo : (hash k).val ≤ j) (hhi : j < (hash k).val + 16)
    {p : Fin leafSpanSize} (hp : p ≠ slot j) (hkey : (r.get p).key = k)
    : ∃ p q, p ≠ q ∧ (r'.get p).key = k ∧ (r'.get q).key = k := by
  induction hc generalizing p with
  | @place r j hj =>
    have hkeys := (r.edit_placeAt hash k v j).key
    refine ⟨p, slot j, hp, ?_, ?_⟩
    . rw [hkeys, if_neg hp, hkey]
    . rw [hkeys, if_pos rfl]
  | @hop r r' h j l hhome hle hlt hok hslot next ih =>
    have hkeys := (r.edit_hopTo hash h j).key
    by_cases hph : p = slot h
    . have hne : slot j ≠ slot h := fun he => hp (hph.trans he.symm)
      apply ih (by omega) (by omega) hne
      rw [hkeys, if_pos rfl, ← hkey, hph]
      rfl
    . apply ih (by omega) (by omega) hph
      rw [hkeys, if_neg hp, hkey]

theorem distinct (hc : HopChain hash k v r j l r') (hlo : (hash k).val ≤ j)
    (hhi : j < (hash k).val + 16) (hdist : r.DistinctBut (slot j))
    (hk : ∀ p, p ≠ slot j → (r.get p).key ≠ k)
    : r'.Distinct := by
  induction hc with
  | @place r j hj =>
    have hkey := (r.edit_placeAt hash k v j).key
    intro p q hp heq
    rw [hkey] at hp
    rw [hkey, hkey] at heq
    by_cases hpj : p = slot j
    . by_cases hqj : q = slot j
      . rw [hpj, hqj]
      . rw [if_pos hpj, if_neg hqj] at heq
        exact absurd heq.symm (hk q hqj)
    . rw [if_neg hpj] at hp heq
      by_cases hqj : q = slot j
      . rw [if_pos hqj] at heq
        exact absurd heq (hk p hpj)
      . rw [if_neg hqj] at heq
        exact hdist p q hpj hqj hp heq
  | @hop r r' h j l hhome hle hlt hok hslot next ih =>
    have hkey := (r.edit_hopTo hash h j).key
    have hne : slot h ≠ slot j := by
      intro he
      have := slot_injOn (by omega) (by omega) hlo hhi he
      omega
    -- without slot `h` the hopped records are those of `r` without slot `j`
    have hfrom : ∀ p, p ≠ slot h → ∃ p', p' ≠ slot j ∧ (p' = slot h ↔ p = slot j)
        ∧ (p ≠ slot j → p' = p) ∧ ((r.hopTo hash h j).get p).key = (r.get p').key := by
      intro p hp
      by_cases hpj : p = slot j
      . refine ⟨slot h, hne, ⟨fun _ => hpj, fun _ => rfl⟩, fun hc => absurd hpj hc, ?_⟩
        rw [hkey, if_pos hpj]
        rfl
      . refine ⟨p, hpj, ⟨fun hc => absurd hc hp, fun hc => absurd hc hpj⟩, fun _ => rfl, ?_⟩
        rw [hkey, if_neg hpj]
    apply ih (by omega) (by omega)
    . intro p q hp hq hnull heq
      obtain ⟨p', hp'j, hp'h, hp'p, hp'key⟩ := hfrom p hp
      obtain ⟨q', hq'j, hq'h, hq'q, hq'key⟩ := hfrom q hq
      rw [hp'key] at hnull heq
      rw [hq'key] at heq
      have hpq := hdist p' q' hp'j hq'j hnull heq
      by_cases hpj : p = slot j
      . rw [hpj, hq'h.mp (hpq.symm.trans (hp'h.mpr hpj))]
      . by_cases hqj : q = slot j
        . exact absurd (hp'h.mp (hpq.trans (hq'h.mpr hqj))) hpj
        . rw [← hp'p hpj, ← hq'q hqj, hpq]
    . intro p hp
      obtain ⟨p', hp'j, -, -, hp'key⟩ := hfrom p hp
      rw [hp'key]
      exact hk p' hp'j

end HopChain

end Rolex

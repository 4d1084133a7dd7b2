import Rolex.Hopscotch.Chain

/-!
This module contains what `hopscotch_insert_and_unlock` and `hopscotch_insert_locally` do. The first
one may be given a node of which only a window has been fetched.
-/

namespace Rolex

def AgreeOn (a e : Int) (r s : HopRecords) : Prop :=
  ∀ i, a ≤ i → i ≤ e → r.getEntry i = s.getEntry i

variable {hash : Key → Fin leafSpanSize} {r r' s s' : HopRecords} {k : Key} {v : Value}
  {a e h i j : Int}

namespace AgreeOn

theorem trans (hrs : AgreeOn a e r s) (hs : AgreeOn a e s s') : AgreeOn a e r s' := by
  intro i hi hie
  rw [hrs i hi hie, hs i hi hie]

theorem setEntry (hrs : AgreeOn a e r s) (i : Int) (x : HopEntry)
    : AgreeOn a e (r.setEntry i x) (s.setEntry i x) := by
  intro i' hi hi'
  unfold HopRecords.getEntry
  rw [HopRecords.get_setEntry, HopRecords.get_setEntry]
  split
  . rfl
  . exact hrs i' hi hi'

theorem putKv (hrs : AgreeOn a e r s) (hi : a ≤ i) (hie : i ≤ e) (k : Key) (v : Value)
    : AgreeOn a e (r.putKv i k v) (s.putKv i k v) := by
  unfold HopRecords.putKv
  rw [hrs i hi hie]
  exact hrs.setEntry i _

theorem putBit (hrs : AgreeOn a e r s) (hi : a ≤ i) (hie : i ≤ e) (n : Nat) (b : Bool)
    : AgreeOn a e (r.putBit i n b) (s.putBit i n b) := by
  unfold HopRecords.putBit
  rw [hrs i hi hie]
  exact hrs.setEntry i _

theorem hHashIdx (hrs : AgreeOn a e r s) (hash : Key → Fin leafSpanSize) (hi : a ≤ i) (hie : i ≤ e)
    : hHashIdx hash r i = hHashIdx hash s i := by
  unfold Rolex.hHashIdx
  rw [hrs i hi hie]

theorem hopTo (hrs : AgreeOn a e r s) (hhome : a ≤ Rolex.hHashIdx hash r h)
    (hle : Rolex.hHashIdx hash r h ≤ h) (hlt : h < j) (hje : j ≤ e)
    : AgreeOn a e (r.hopTo hash h j) (s.hopTo hash h j) := by
  unfold HopRecords.hopTo
  rw [← hrs.hHashIdx hash (by omega) (by omega), hrs h (by omega) (by omega)]
  apply AgreeOn.putBit ?_ hhome (by omega)
  apply AgreeOn.putBit ?_ hhome (by omega)
  exact hrs.putKv (by omega) hje _ _

theorem placeAt (hrs : AgreeOn (hash k).val e r s) (hlo : (hash k).val ≤ j) (hje : j ≤ e)
    : AgreeOn (hash k).val e (r.placeAt hash k v j) (s.placeAt hash k v j) :=
  (hrs.putKv hlo hje k v).putBit (by omega) (by omega) _ _

end AgreeOn

theorem homesBehind_congr {n : Nat}
    (h : ∀ i, j - n ≤ i → i < j → hHashIdx hash r i = hHashIdx hash s i)
    : homesBehind hash r j n = homesBehind hash s j n := by
  induction n with
  | zero => rfl
  | succ n ih =>
    unfold homesBehind
    rw [h _ (by omega) (by omega), ih (fun i hi hi' => h i (by omega) hi')]

theorem nextHop_congr (assertHome : Bool) (hs : HopState hash k r j)
    (hrs : AgreeOn (hash k).val e r s) (hje : j ≤ e) (fuel : Nat) (acc : List Nat)
    : (nextHop hash assertHome k v r j acc fuel = .ok none →
        nextHop hash assertHome k v s j acc fuel = .ok none)
        ∧ ∀ {l : List Nat} {r' : HopRecords},
            nextHop hash assertHome k v r j acc fuel = .ok (some (r', l)) →
            ∃ s', nextHop hash assertHome k v s j acc fuel = .ok (some (s', l))
              ∧ AgreeOn (hash k).val e r' s' := by
  have h8 := neighborSize_eq
  induction fuel generalizing r s j acc with
  | zero =>
    refine ⟨fun _ => rfl, ?_⟩
    intro l r' h
    cases h
  | succ fuel ih =>
    have hlo := hs.lo
    unfold nextHop
    dsimp only
    by_cases hj : j < (hash k).val + neighborSize
    . have hbit := hs.hopBit_place (by omega)
      rw [hrs _ (by omega) (by omega)] at hbit
      simp only [if_pos hj]
      rw [hs.place_eq (by omega), place_eq_of_bit hlo (by omega) hbit]
      constructor
      . intro h
        cases h
      . intro l r' h
        cases h
        exact ⟨_, rfl, hrs.placeAt hlo hje⟩
    . have hbehind : homesBehind hash s j (neighborSize - 1) = true := by
        rw [← hs.homesBehind (by omega)]
        apply homesBehind_congr
        intro i hi hij
        exact (hrs.hHashIdx hash (by omega) (by omega)).symm
      have hfind : findHop hash s j (neighborSize - 1) = findHop hash r j (neighborSize - 1) := by
        apply findHop_congr
        intro i hi hij
        rw [hrs i (by omega) (by omega)]
      simp only [if_neg hj]
      rw [hs.homesBehind (by omega), hbehind, hfind]
      simp only [Bool.not_true, Bool.and_false, Bool.false_eq_true, if_false]
      cases hf : findHop hash r j (neighborSize - 1) with
      | none =>
        refine ⟨fun _ => rfl, ?_⟩
        intro l r' h
        cases h
      | some h =>
        obtain ⟨hhome, hle, hlt, hok, -⟩ := hs.findHop_spec (by omega) hf
        have hidx := hrs.hHashIdx hash (show _ ≤ h by omega) (by omega)
        have hfrom := hs.hopBit_home (by omega) hlt
        have hto := hs.hopBit_hole (by omega) hlt hok
        have hagree : AgreeOn (hash k).val e (r.hopTo hash h j) (s.hopTo hash h j) :=
          hrs.hopTo (by omega) hle hlt hje
        rw [hrs _ (by omega) (by omega)] at hfrom hto
        rw [hidx] at hfrom hto hle hok hhome
        dsimp only
        rw [hop_eq_of_bits hle hlt hok hfrom hto]
        rw [← hidx] at hle hok hhome
        rw [hs.hop_eq (by omega) hlt hok]
        exact ih (hs.hop (by omega) hlt hok) hagree (by omega) _

theorem findEmpty_eq_some {n : Nat} (h : findEmpty r a n = some e)
    : a ≤ e ∧ e < a + n ∧ e < a + 16 ∧ (r.getEntry e).key = kkeyNull
        ∧ ∀ i, a ≤ i → i < e → (r.getEntry i).key ≠ kkeyNull := by
  obtain ⟨t, ht, rfl⟩ := Option.map_eq_some_iff.mp h
  obtain ⟨hnull, htn, hfull⟩ := List.find?_range_eq_some.mp ht
  rw [decide_eq_true_eq] at hnull
  rw [List.mem_range] at htn
  have hbefore : ∀ i, a ≤ i → i < a + t → (r.getEntry i).key ≠ kkeyNull := by
    intro i hi hit hkey
    have := hfull (i - a).toNat (by omega)
    rw [Int.toNat_of_nonneg (by omega), show a + (i - a) = i by omega, hkey] at this
    simp at this
  refine ⟨by omega, by omega, ?_, hnull, hbefore⟩
  -- the ring has 16 slots, so a later index would be that of a slot seen before
  by_contra hge
  apply hbefore (a + t - 16) (by omega) (by omega)
  unfold HopRecords.getEntry at hnull ⊢
  rwa [slot_eq_slot_iff.mpr (show (a + t - 16) % 16 = (a + t) % 16 by omega)]

theorem findEmpty_eq_none {n : Nat} (h : findEmpty r a n = none) (hi : a ≤ i) (hin : i < a + n)
    : (r.getEntry i).key ≠ kkeyNull := by
  unfold findEmpty at h
  rw [Option.map_eq_none_iff, List.find?_eq_none] at h
  have := h (i - a).toNat (List.mem_range.mpr (by omega))
  rw [Int.toNat_of_nonneg (by omega), show a + (i - a) = i by omega] at this
  simpa using this

theorem findEmpty_iff {n : Nat}
    : findEmpty r (hash k).val n = some e ↔ (hash k).val ≤ e ∧ e < (hash k).val + n
        ∧ (r.getEntry e).key = kkeyNull ∧ ∀ j : Int, (hash k).val ≤ j → j < e → (r.getEntry j).key ≠ kkeyNull := by
  constructor
  . intro h
    obtain ⟨hlo, hn, -, hnull, hfull⟩ := findEmpty_eq_some h
    exact ⟨hlo, hn, hnull, hfull⟩
  . rintro ⟨hlo, hn, hnull, hfull⟩
    cases h : findEmpty r (hash k).val n with
    | none => exact absurd hnull (findEmpty_eq_none h hlo hn)
    | some e' =>
      obtain ⟨hlo', -, -, hnull', hfull'⟩ := findEmpty_eq_some h
      rcases Int.lt_trichotomy e e' with hlt | rfl | hlt
      . exact absurd hnull (hfull' e hlo hlt)
      . rfl
      . exact absurd hnull' (hfull e' hlo' hlt)

theorem findEmpty_congr {n : Nat} (hrs : AgreeOn a (a + n - 1) r s)
    : findEmpty r a n = findEmpty s a n := by
  have hfind : ∀ m : Nat, m ≤ n →
      (List.range m).find? (fun i : Nat => decide ((r.getEntry (a + i)).key = kkeyNull))
        = (List.range m).find? (fun i : Nat => decide ((s.getEntry (a + i)).key = kkeyNull)) := by
    intro m hm
    induction m with
    | zero => rfl
    | succ m ih =>
      rw [List.range_succ, List.find?_append, List.find?_append, ih (by omega)]
      simp only [List.find?_singleton]
      rw [hrs (a + m) (by omega) (by omega)]
  unfold findEmpty
  rw [hfind n (le_refl n)]

/-- A successful insert by hopping: `e` is the first empty slot from the home of the key on. -/
structure Hops (hash : Key → Fin leafSpanSize) (r : HopRecords) (k : Key) (v : Value) (e : Int)
    (l : List Nat) (r' : HopRecords) : Prop where
  state : HopState hash k r e
  null : (r.getEntry e).key = kkeyNull
  chain : HopChain hash k v r e l r'

theorem HopRecords.Inv.hopState (hinv : r.Inv hash) {n : Nat}
    (he : findEmpty r (hash k).val n = some e)
    : HopState hash k r e := by
  obtain ⟨hlo, -, hhi, hnull, hfull⟩ := findEmpty_eq_some he
  refine ⟨?_, hlo, hhi, hfull⟩
  apply (HopRecords.inv_iff.mp hinv).hole
  exact HopRecords.toTable_key_eq_none.mpr hnull

/-- `hopscotch_insert_and_unlock` on `r` and on a node `s` of which the window has been fetched from `r`. -/
theorem hopscotchInsert_window (hinv : r.Inv hash) {n : Nat}
    (hrs : AgreeOn (hash k).val ((hash k).val + n - 1) r s)
    : (hopscotchInsert hash r k v n = .ok none ∧ hopscotchInsert hash s k v n = .ok none)
        ∨ ∃ e l r' s', hopscotchInsert hash r k v n = .ok (some ⟨r', e, l⟩)
          ∧ hopscotchInsert hash s k v n = .ok (some ⟨s', e, l⟩) ∧ Hops hash r k v e l r'
          ∧ e < (hash k).val + n ∧ AgreeOn (hash k).val ((hash k).val + n - 1) r' s' := by
  unfold hopscotchInsert
  rw [← findEmpty_congr hrs]
  cases he : findEmpty r (hash k).val n with
  | none => exact .inl ⟨rfl, rfl⟩
  | some e =>
    have hs := hinv.hopState he
    obtain ⟨hlo, hen, hhi, hnull, -⟩ := findEmpty_eq_some he
    have hhi' : e - (hash k).val < 16 := by omega
    have hfuel : e - (hash k).val < leafSpanSize := hhi'
    obtain ⟨hsome, hnone⟩ := nextHop_spec true hs hfuel []
    obtain ⟨hnone', hsome'⟩ := nextHop_congr true hs hrs (by omega) leafSpanSize []
    dsimp only
    cases hreach : hopReaches hash r (hash k).val e leafSpanSize with
    | false =>
      left
      rw [hnone hreach, hnone' (hnone hreach)]
      exact ⟨rfl, rfl⟩
    | true =>
      right
      obtain ⟨l, r', heq, hchain⟩ := hsome hreach
      obtain ⟨s', heq', hagree⟩ := hsome' heq
      refine ⟨e, l, r', s', ?_, ?_, ⟨hs, hnull, hchain⟩, hen, hagree⟩
      . rw [heq]
        rfl
      . rw [heq']
        rfl

theorem hopscotchInsert_spec (hinv : r.Inv hash) {n : Nat}
    (hrs : AgreeOn (hash k).val ((hash k).val + n - 1) r s)
    : hopscotchInsert hash s k v n = .ok none
        ∨ ∃ e l r' s', hopscotchInsert hash s k v n = .ok (some ⟨s', e, l⟩) ∧ Hops hash r k v e l r'
          ∧ e < (hash k).val + n ∧ AgreeOn (hash k).val ((hash k).val + n - 1) r' s' := by
  rcases hopscotchInsert_window hinv hrs with ⟨-, hnone⟩ | ⟨e, l, r', s', -, h⟩
  . exact .inl hnone
  . exact .inr ⟨e, l, r', s', h⟩

theorem hopscotchInsertLocally_spec (hinv : r.Inv hash) (k : Key) (v : Value)
    : (∃ e l r', findEmpty r (hash k).val leafSpanSize = some e
          ∧ hopReaches hash r (hash k).val e leafSpanSize = true
          ∧ hopscotchInsertLocally hash r k v = .ok r' ∧ Hops hash r k v e l r')
        ∨ (findEmpty r (hash k).val leafSpanSize = none
            ∧ hopscotchInsertLocally hash r k v = .error .emptySlot)
        ∨ ∃ e, findEmpty r (hash k).val leafSpanSize = some e
            ∧ hopReaches hash r (hash k).val e leafSpanSize = false
            ∧ hopscotchInsertLocally hash r k v = .error .hopFails := by
  unfold hopscotchInsertLocally
  cases he : findEmpty r (hash k).val leafSpanSize with
  | none => exact .inr (.inl ⟨rfl, rfl⟩)
  | some e =>
    have hs := hinv.hopState he
    obtain ⟨hlo, hen, hhi, hnull, -⟩ := findEmpty_eq_some he
    have hhi' : e - (hash k).val < 16 := by omega
    have hfuel : e - (hash k).val < leafSpanSize := hhi'
    obtain ⟨hsome, hnone⟩ := nextHop_spec false hs hfuel []
    dsimp only
    cases hreach : hopReaches hash r (hash k).val e leafSpanSize with
    | false =>
      refine .inr (.inr ⟨e, rfl, hreach, ?_⟩)
      rw [hnone hreach]
      rfl
    | true =>
      obtain ⟨l, r', heq, hchain⟩ := hsome hreach
      refine .inl ⟨e, l, r', rfl, hreach, ?_, hs, hnull, hchain⟩
      rw [heq]
      rfl

theorem hops_of_insertLocally (hinv : r.Inv hash) (hok : hopscotchInsertLocally hash r k v = .ok r')
    : ∃ e l, Hops hash r k v e l r' := by
  rcases hopscotchInsertLocally_spec hinv k v with
    ⟨e, l, r'', -, -, heq, hh⟩ | ⟨-, heq⟩ | ⟨e, -, -, heq⟩
  . rw [heq] at hok
    cases hok
    exact ⟨e, l, hh⟩
  . rw [heq] at hok
    cases hok
  . rw [heq] at hok
    cases hok

theorem error_of_insertLocally (hinv : r.Inv hash) {x : Assertion}
    (herr : hopscotchInsertLocally hash r k v = .error x)
    : x = .emptySlot ∨ x = .hopFails := by
  rcases hopscotchInsertLocally_spec hinv k v with ⟨e, l, r'', -, -, heq, -⟩ | ⟨-, heq⟩ | ⟨e, -, -, heq⟩
  . rw [heq] at herr
    cases herr
  . rw [heq] at herr
    cases herr
    exact .inl rfl
  . rw [heq] at herr
    cases herr
    exact .inr rfl

namespace HopRecords

def Has (r : HopRecords) (k : Key) (v : Value) : Prop := k ≠ kkeyNull ∧ ∃ p, r.kv p = (k, v)

def Stores (r : HopRecords) (k : Key) : Prop := k ≠ kkeyNull ∧ ∃ p, (r.get p).key = k

instance (r : HopRecords) (k : Key) (v : Value) : Decidable (r.Has k v) := by
  unfold Has
  infer_instance

instance (r : HopRecords) (k : Key) : Decidable (r.Stores k) := by
  unfold Stores
  infer_instance

theorem has_iff_copies {k : Key} {v : Value} : r.Has k v ↔ k ≠ kkeyNull ∧ 0 < r.copies (k, v) := by
  unfold Has copies
  rw [Finset.card_pos, Finset.filter_nonempty_iff]
  simp

/-- The first empty slot among the `n` slots from the home of `k` on hops into its neighborhood. -/
def Takes (hash : Key → Fin leafSpanSize) (r : HopRecords) (k : Key) (n : Nat) : Prop :=
  ∃ e : Int, (hash k).val ≤ e ∧ e < (hash k).val + n ∧ (r.getEntry e).key = kkeyNull
    ∧ (∀ j : Int, (hash k).val ≤ j → j < e → (r.getEntry j).key ≠ kkeyNull)
    ∧ hopReaches hash r (hash k).val e leafSpanSize = true

/-- The entry versions of the records `l` incremented. -/
def bumpEntries (r : HopRecords) (l : List Nat) : HopRecords :=
  Vector.ofFn fun p => (r.get p).bumpEntryVersion (l.count p.val)

theorem get_ofFn (f : Fin leafSpanSize → HopEntry) (p : Fin leafSpanSize)
    : (Vector.ofFn f).get p = f p := by
  change (Vector.ofFn f)[p.val] = f p
  rw [Vector.getElem_ofFn]

theorem ext_get (h : ∀ p, r.get p = s.get p) : r = s := by
  apply Vector.ext
  intro i hi
  exact h ⟨i, hi⟩

theorem get_bumpEntries (r : HopRecords) (l : List Nat) (p : Fin leafSpanSize)
    : (r.bumpEntries l).get p = (r.get p).bumpEntryVersion (l.count p.val) :=
  get_ofFn _ p

theorem Inv.congr (hinv : r.Inv hash) (hkey : ∀ p, (s.get p).key = (r.get p).key)
    (hbits : ∀ p, (s.get p).hopBitmap = (r.get p).hopBitmap)
    : s.Inv hash := by
  constructor
  . intro p hp
    rw [hkey] at hp ⊢
    exact hinv.near p hp
  . intro q d hd
    rw [hbits, hkey]
    exact hinv.bits q d hd

theorem Inv.bumpEntries (hinv : r.Inv hash) (l : List Nat) : (r.bumpEntries l).Inv hash := by
  apply hinv.congr
  . intro p
    rw [get_bumpEntries]
    rfl
  . intro p
    rw [get_bumpEntries]
    rfl

end HopRecords

theorem hopscotchInsertLocally_ok_iff (hinv : r.Inv hash)
    : (∃ r', hopscotchInsertLocally hash r k v = .ok r') ↔ r.Takes hash k leafSpanSize := by
  rcases hopscotchInsertLocally_spec hinv k v with
    ⟨e, l, r', he, hreach, heq, -⟩ | ⟨hnone, heq⟩ | ⟨e, he, hreach, heq⟩
  . obtain ⟨hlo, hn, hnull, hfull⟩ := findEmpty_iff.mp he
    exact iff_of_true ⟨r', heq⟩ ⟨e, hlo, hn, hnull, hfull, hreach⟩
  . refine iff_of_false (by simp [heq]) ?_
    rintro ⟨e, hlo, hn, hnull, -⟩
    exact findEmpty_eq_none hnone hlo hn hnull
  . refine iff_of_false (by simp [heq]) ?_
    rintro ⟨e', hlo, hn, hnull, hfull, hreach'⟩
    obtain rfl := Option.some.inj (he.symm.trans (findEmpty_iff.mpr ⟨hlo, hn, hnull, hfull⟩))
    rw [hreach] at hreach'
    cases hreach'

theorem inSegment_iff {q p : Fin leafSpanSize} (hlo : q.val ≤ e) (hhi : e < q.val + 16)
    : InSegment q.val (slot e).val p.val ↔ ∃ i : Int, q.val ≤ i ∧ i ≤ e ∧ slot i = p := by
  have hq : q.val < 16 := q.isLt
  have hp : p.val < 16 := p.isLt
  have hslot := val_slot e
  have hof : ∀ i : Int, i % 16 = p.val → slot i = p := by
    intro i hi
    rw [← slot_val p, slot_eq_slot_iff]
    omega
  unfold InSegment
  constructor
  . intro h
    split at h
    . exact ⟨p.val, by omega, by omega, slot_val p⟩
    . rcases h with h | h
      . exact ⟨p.val + 16, by omega, by omega, hof _ (by omega)⟩
      . exact ⟨p.val, by omega, by omega, slot_val p⟩
  . rintro ⟨i, hi, hie, rfl⟩
    have := val_slot i
    split
    . omega
    . omega

namespace Hops

variable {l : List Nat}

theorem inv (hh : Hops hash r k v e l r') (hk : k ≠ kkeyNull) : r'.Inv hash :=
  hh.chain.inv hh.state hk

theorem copies (hh : Hops hash r k v e l r') {x : Key × Value} (hx : x.1 ≠ kkeyNull)
    : r'.copies x = r.copies x + if x = (k, v) then 1 else 0 := by
  rw [hh.chain.copies hh.state.lo hh.state.hi]
  congr 2
  ext p
  simp only [Finset.mem_filter, Finset.mem_univ, true_and, and_iff_right_iff_imp]
  rintro rfl rfl
  exact hx hh.null

theorem has_iff (hh : Hops hash r k v e l r') (hk : k ≠ kkeyNull) {k' : Key} {v' : Value}
    : r'.Has k' v' ↔ r.Has k' v' ∨ (k' = k ∧ v' = v) := by
  rw [HopRecords.has_iff_copies, HopRecords.has_iff_copies, ← Prod.mk.injEq]
  by_cases hx : (k', v') = (k, v)
  . obtain ⟨rfl, rfl⟩ := Prod.mk.inj hx
    simp [hk, hh.copies (x := (k', v')) hk]
  . simp only [hx, or_false]
    apply and_congr_right
    intro hk'
    rw [hh.copies (x := (k', v')) hk', if_neg hx, Nat.add_zero]

theorem distinct (hh : Hops hash r k v e l r') (hdist : r.Distinct) (hk : ¬ r.Stores k)
    (hne : k ≠ kkeyNull)
    : r'.Distinct := by
  apply hh.chain.distinct hh.state.lo hh.state.hi
  . intro p q _ _
    exact hdist p q
  . intro p _ hp
    exact hk ⟨hne, p, hp⟩

theorem segmentWrite_eq (hh : Hops hash r k v e l r') (hagree : AgreeOn (hash k).val e r' s')
    : segmentWrite r s' (hash k).val (slot e).val l = r'.bumpEntries l := by
  apply HopRecords.ext_get
  intro p
  unfold segmentWrite
  rw [HopRecords.get_ofFn, HopRecords.get_bumpEntries]
  have hiff := inSegment_iff (p := p) hh.state.lo hh.state.hi
  split
  . next hin =>
    obtain ⟨i, hi, hie, rfl⟩ := hiff.mp hin
    have hget : r'.get (slot i) = s'.get (slot i) := hagree i hi hie
    rw [hget]
  . next hout =>
    have hp : ∀ i : Int, (hash k).val ≤ i → i ≤ e → slot i ≠ p :=
      fun i hi hie hip => hout (hiff.mpr ⟨i, hi, hie, hip⟩)
    have hcount : l.count p.val = 0 := by
      rw [List.count_eq_zero]
      intro hmem
      obtain ⟨i, hi, hie, heq⟩ := hh.chain.mem_hopped hh.state.lo hmem
      exact hp i hi hie (Fin.ext heq.symm)
    rw [hh.chain.outside hh.state.lo hp, hcount]
    unfold HopEntry.bumpEntryVersion
    simp

end Hops

end Rolex

import Rolex.Lib.Hopscotch
import Rolex.Hopscotch.Basic

/-!
This module contains the hopscotch invariant of the records of a node, and what one hop does to them.
-/

namespace Rolex

theorem val_slot (i : Int) : ((slot i).val : Int) = i % 16 := by
  have h := Int.emod_nonneg i (show (16 : Int) ≠ 0 by decide)
  simp only [slot, leafSpanSize_eq]
  omega

theorem slot_eq_slot_iff {i j : Int} : slot i = slot j ↔ i % 16 = j % 16 := by
  rw [Fin.ext_iff, ← val_slot, ← val_slot]
  omega

@[simp]
theorem slot_val (p : Fin leafSpanSize) : slot p.val = p := by
  have h : p.val < 16 := p.isLt
  rw [Fin.ext_iff]
  have := val_slot p.val
  omega

theorem slot_add (i j : Int) : slot (i + j) = slot i + slot j := by
  have hi := val_slot i
  have hj := val_slot j
  have hij := val_slot (i + j)
  have hadd : (slot i + slot j).val = ((slot i).val + (slot j).val) % 16 := Fin.val_add _ _
  rw [Fin.ext_iff, hadd]
  omega

theorem slot_sub (i j : Int) : slot (i - j) = slot i - slot j := by
  rw [eq_sub_iff_add_eq, ← slot_add, Int.sub_add_cancel]

theorem exists_logical (a : Int) (p : Fin leafSpanSize) : ∃ i, a ≤ i ∧ i < a + 16 ∧ slot i = p := by
  have hp : p.val < 16 := p.isLt
  refine ⟨a + (p.val - a) % 16, by omega, by omega, ?_⟩
  rw [← slot_val p, slot_eq_slot_iff, slot_val]
  omega

theorem slot_injOn {a i j : Int} (hi : a ≤ i) (hi' : i < a + 16) (hj : a ≤ j) (hj' : j < a + 16)
    (h : slot i = slot j)
    : i = j := by
  rw [slot_eq_slot_iff] at h
  omega

namespace HopEntry

def putHopBit (e : HopEntry) (n : Nat) (b : Bool) : HopEntry :=
  { e with hopBitmap :=
      if b then
        e.hopBitmap ||| BitVec.twoPow neighborSize (neighborSize - n - 1)
      else
        e.hopBitmap &&& ~~~ BitVec.twoPow neighborSize (neighborSize - n - 1) }

@[simp]
theorem putHopBit_key (e : HopEntry) (n : Nat) (b : Bool) : (e.putHopBit n b).key = e.key := rfl

@[simp]
theorem putHopBit_value (e : HopEntry) (n : Nat) (b : Bool) : (e.putHopBit n b).value = e.value := rfl

@[simp]
theorem update_key (e : HopEntry) (k : Key) (v : Value) : (e.update k v).key = k := rfl

@[simp]
theorem update_value (e : HopEntry) (k : Key) (v : Value) : (e.update k v).value = v := rfl

@[simp]
theorem hopBit_update (e : HopEntry) (k : Key) (v : Value) (i : Nat)
    : (e.update k v).hopBit i = e.hopBit i := rfl

theorem hopBit_putHopBit {e : HopEntry} {n i : Nat} {b : Bool} (hn : n < neighborSize)
    (hi : i < neighborSize)
    : (e.putHopBit n b).hopBit i = if i = n then b else e.hopBit i := by
  have hbit : (BitVec.twoPow neighborSize (neighborSize - n - 1)).getLsbD (neighborSize - i - 1)
      = decide (i = n) := by
    have hlt : neighborSize - n - 1 < neighborSize := by omega
    have hiff : neighborSize - n - 1 = neighborSize - i - 1 ↔ i = n := by omega
    rw [BitVec.getLsbD_twoPow]
    simp only [hlt, hiff, decide_true, Bool.true_and]
  have hlt : neighborSize - i - 1 < neighborSize := by omega
  unfold putHopBit hopBit
  cases b with
  | true =>
    rw [if_pos rfl, BitVec.getLsbD_or, hbit]
    split
    . next h => simp [h]
    . next h => simp [h]
  | false =>
    rw [if_neg (by decide), BitVec.getLsbD_and, BitVec.getLsbD_not, hbit]
    split
    . next h => simp [h]
    . next h => simp [h, hlt]

theorem setHopBit_eq {e : HopEntry} {idx : Int} (h : 0 ≤ idx) (h' : idx < neighborSize)
    (hbit : e.hopBit idx.toNat = false)
    : e.setHopBit idx = .ok (e.putHopBit idx.toNat true) := by
  unfold setHopBit
  rw [if_pos ⟨h, h', hbit⟩]
  rfl

theorem setHopBit_natCast {e : HopEntry} {n : Nat} (hn : n < neighborSize) (hbit : e.hopBit n = false)
    : e.setHopBit n = .ok (e.putHopBit n true) :=
  setHopBit_eq (by omega) (by omega) hbit

theorem unsetHopBit_eq {e : HopEntry} {idx : Int} (h : 0 ≤ idx) (h' : idx < neighborSize)
    (hbit : e.hopBit idx.toNat = true)
    : e.unsetHopBit idx = .ok (e.putHopBit idx.toNat false) := by
  unfold unsetHopBit
  rw [if_pos ⟨h, h', hbit⟩]
  rfl

theorem unsetHopBit_natCast {e : HopEntry} {n : Nat} (hn : n < neighborSize)
    (hbit : e.hopBit n = true)
    : e.unsetHopBit n = .ok (e.putHopBit n false) :=
  unsetHopBit_eq (by omega) (by omega) hbit

end HopEntry

namespace HopRecords

theorem get_setEntry (r : HopRecords) (i : Int) (e : HopEntry) (p : Fin leafSpanSize)
    : (r.setEntry i e).get p = if p = slot i then e else r.get p := by
  change (Vector.set r (slot i).val e (slot i).isLt)[p.val] = if p = slot i then e else r[p.val]
  rw [Vector.getElem_set]
  simp only [Fin.ext_iff, eq_comm]

def putKv (r : HopRecords) (j : Int) (k : Key) (v : Value) : HopRecords :=
  r.setEntry j ((r.getEntry j).update k v)

def putBit (r : HopRecords) (q : Int) (n : Nat) (b : Bool) : HopRecords :=
  r.setEntry q ((r.getEntry q).putHopBit n b)

theorem get_putKv (r : HopRecords) (j : Int) (k : Key) (v : Value) (p : Fin leafSpanSize)
    : (r.putKv j k v).get p = if p = slot j then (r.get p).update k v else r.get p := by
  unfold putKv getEntry
  rw [get_setEntry]
  split
  . next h => rw [h]
  . rfl

theorem get_putBit (r : HopRecords) (q : Int) (n : Nat) (b : Bool) (p : Fin leafSpanSize)
    : (r.putBit q n b).get p = if p = slot q then (r.get p).putHopBit n b else r.get p := by
  unfold putBit getEntry
  rw [get_setEntry]
  split
  . next h => rw [h]
  . rfl

def toTable (r : HopRecords) : HopTable (Fin leafSpanSize) Key where
  key := fun p => if (r.get p).key = kkeyNull then none else some (r.get p).key
  bit := fun q d => decide (d.val < neighborSize) && (r.get q).hopBit d.val

theorem toTable_key_eq_some {r : HopRecords} {p : Fin leafSpanSize} {k : Key}
    : r.toTable.key p = some k ↔ (r.get p).key = k ∧ k ≠ kkeyNull := by
  simp only [toTable]
  split
  . next h =>
    constructor
    . intro h'
      cases h'
    . rintro ⟨rfl, hne⟩
      exact absurd h hne
  . next h =>
    rw [Option.some.injEq]
    constructor
    . rintro rfl
      exact ⟨rfl, h⟩
    . intro h'
      exact h'.1

theorem toTable_key_eq_none {r : HopRecords} {p : Fin leafSpanSize}
    : r.toTable.key p = none ↔ (r.get p).key = kkeyNull := by
  simp [toTable]

theorem toTable_putKv (r : HopRecords) (j : Int) {k : Key} (v : Value) (hk : k ≠ kkeyNull)
    : (r.putKv j k v).toTable = r.toTable.setKey (slot j) (some k) := by
  apply HopTable.ext
  . funext p
    simp only [toTable, HopTable.setKey, get_putKv]
    split
    . simp [hk]
    . rfl
  . funext q d
    simp only [toTable, HopTable.setKey, get_putKv]
    split
    . rfl
    . rfl

theorem toTable_putKv_null (r : HopRecords) (j : Int) (v : Value)
    : (r.putKv j kkeyNull v).toTable = r.toTable.setKey (slot j) none := by
  apply HopTable.ext
  . funext p
    simp only [toTable, HopTable.setKey, get_putKv]
    split
    . simp
    . rfl
  . funext q d
    simp only [toTable, HopTable.setKey, get_putKv]
    split
    . rfl
    . rfl

theorem toTable_putBit (r : HopRecords) (q : Int) {n : Nat} (b : Bool) (hn : n < neighborSize)
    : (r.putBit q n b).toTable = r.toTable.setBit (slot q) (slot n) b := by
  have hn' := neighborSize_eq
  have hval := val_slot n
  apply HopTable.ext
  . funext p
    simp only [toTable, HopTable.setBit, get_putBit]
    split
    . rfl
    . rfl
  . funext q' d
    simp only [toTable, HopTable.setBit, get_putBit]
    by_cases hd : d.val < neighborSize
    . have hiff : d = slot n ↔ d.val = n := by
        rw [Fin.ext_iff]
        omega
      by_cases hq : q' = slot q
      . simp only [hq, if_true, true_and, hd, decide_true, Bool.true_and,
          HopEntry.hopBit_putHopBit hn hd, hiff]
      . simp only [hq, if_false, false_and]
    . have hne : d ≠ slot n := by
        rw [ne_eq, Fin.ext_iff]
        omega
      simp only [hd, decide_false, Bool.false_and, hne, and_false, if_false]

end HopRecords

/-- The distances from a slot to those of its neighborhood. -/
def neighborhood : Set (Fin leafSpanSize) := {d | d.val < neighborSize}

theorem slot_mem_neighborhood {i : Int} : slot i ∈ neighborhood ↔ i % 16 < 8 := by
  have h := val_slot i
  have h' := neighborSize_eq
  change (slot i).val < neighborSize ↔ _
  omega

/-- The hopscotch invariant: records are near their home, and its bitmap says where. -/
structure HopRecords.Inv (hash : Key → Fin leafSpanSize) (r : HopRecords) : Prop where
  near : ∀ p : Fin leafSpanSize, (r.get p).key ≠ kkeyNull →
    ((p.val : Int) - (hash (r.get p).key).val) % leafSpanSize < neighborSize
  bits : ∀ (q : Fin leafSpanSize) (d : Nat), d < neighborSize →
    ((r.get q).hopBitmap.getLsbD (neighborSize - d - 1) = true
      ↔ (r.get (slot (q.val + d))).key ≠ kkeyNull ∧ hash (r.get (slot (q.val + d))).key = q)

variable {hash : Key → Fin leafSpanSize}

theorem HopRecords.inv_iff {r : HopRecords} : r.Inv hash ↔ r.toTable.Inv neighborhood hash := by
  have hnear : ∀ p : Fin leafSpanSize, p - hash (r.get p).key ∈ neighborhood
      ↔ ((p.val : Int) - (hash (r.get p).key).val) % leafSpanSize < neighborSize := by
    intro p
    rw [← slot_val p, ← slot_val (hash (r.get (slot p.val)).key), ← slot_sub, slot_mem_neighborhood]
    simp only [slot_val]
    rfl
  have hbits : ∀ (q d : Fin leafSpanSize), d ∈ neighborhood →
      ((∃ k, r.toTable.key (q + d) = some k ∧ hash k = q)
        ↔ (r.get (slot (q.val + d.val))).key ≠ kkeyNull
          ∧ hash (r.get (slot (q.val + d.val))).key = q) := by
    intro q d _
    rw [slot_add, slot_val, slot_val]
    constructor
    . rintro ⟨k, hk, hq⟩
      obtain ⟨rfl, hne⟩ := toTable_key_eq_some.mp hk
      exact ⟨hne, hq⟩
    . rintro ⟨hne, hq⟩
      exact ⟨_, toTable_key_eq_some.mpr ⟨rfl, hne⟩, hq⟩
  constructor
  . intro h
    constructor
    . intro p k hp
      obtain ⟨rfl, hne⟩ := toTable_key_eq_some.mp hp
      exact (hnear p).mpr (h.near p hne)
    . intro q d hd
      rw [hbits q d hd, ← h.bits q d.val hd]
      have hd' : d.val < neighborSize := hd
      simp only [toTable, hd', decide_true, Bool.true_and]
      rfl
  . intro h
    constructor
    . intro p hp
      exact (hnear p).mp (h.near (toTable_key_eq_some.mpr ⟨rfl, hp⟩))
    . intro q d hd
      have hval : (slot d).val = d := by
        have h1 := val_slot d
        have h2 := neighborSize_eq
        omega
      have hmem : slot d ∈ neighborhood := by
        change (slot d).val < neighborSize
        rw [hval]
        exact hd
      have hiff := h.bits hmem (q := q)
      rw [hbits q _ hmem, hval] at hiff
      rw [← hiff]
      simp only [toTable, hval, hd, decide_true, Bool.true_and]
      rfl

section Hop

variable {r r' : HopRecords} {k : Key} {v : Value} {h j : Int}

/-- The corner cases find the home of a record that is near it, behind the record. -/
theorem hHashIdx_spec (hlo : 0 ≤ h) (hhi : h < 32)
    (hnear : (h - (hash (r.getEntry h).key).val) % 16 < 8)
    : hHashIdx hash r h ≤ h ∧ h < hHashIdx hash r h + 8
        ∧ slot (hHashIdx hash r h) = hash (r.getEntry h).key := by
  have hlt : (hash (r.getEntry h).key).val < 16 := (hash (r.getEntry h).key).isLt
  have h8 := neighborSize_eq
  have h16 := leafSpanSize_eq
  have hslot : slot (hHashIdx hash r h) = slot (hash (r.getEntry h).key).val
      ∧ hHashIdx hash r h ≤ h ∧ h < hHashIdx hash r h + 8 := by
    rw [slot_eq_slot_iff]
    unfold hHashIdx
    dsimp only
    split
    . omega
    . split
      . omega
      . omega
  rw [slot_val] at hslot
  exact ⟨hslot.2.1, hslot.2.2, hslot.1⟩

theorem findHop_eq_some {n : Nat} (hf : findHop hash r j n = some h)
    : h < j ∧ j - n ≤ h ∧ j < hHashIdx hash r h + 8 := by
  have h8 := neighborSize_eq
  induction n with
  | zero => cases hf
  | succ n ih =>
    unfold findHop at hf
    split at hf
    . next hok =>
      obtain rfl := Option.some.inj hf
      omega
    . have := ih hf
      omega

theorem findHop_congr {n : Nat}
    (h : ∀ i, j - n ≤ i → i < j → (r.getEntry i).key = (r'.getEntry i).key)
    : findHop hash r j n = findHop hash r' j n := by
  induction n with
  | zero => rfl
  | succ n ih =>
    unfold findHop
    have heq : hHashIdx hash r (j - (n + 1 : Nat)) = hHashIdx hash r' (j - (n + 1 : Nat)) := by
      unfold hHashIdx
      rw [h _ (by omega) (by omega)]
    rw [heq, ih (fun i hi hi' => h i (by omega) hi')]

theorem homesBehind_of_le {n : Nat} (h : ∀ i, j - n ≤ i → i < j → hHashIdx hash r i ≤ i)
    : homesBehind hash r j n = true := by
  induction n with
  | zero => rfl
  | succ n ih =>
    unfold homesBehind
    rw [ih (fun i hi hi' => h i (by omega) hi'), decide_eq_true (h _ (by omega) (by omega))]
    simp

/-- What holds at `next_hop`: slot `j` does not count, and the slots from the home to it are full. -/
structure HopState (hash : Key → Fin leafSpanSize) (k : Key) (r : HopRecords) (j : Int) : Prop where
  hole : r.toTable.Hole neighborhood hash (slot j)
  lo : (hash k).val ≤ j
  hi : j < (hash k).val + 16
  full : ∀ i : Int, (hash k).val ≤ i → i < j → (r.getEntry i).key ≠ kkeyNull

def HopRecords.hopTo (hash : Key → Fin leafSpanSize) (r : HopRecords) (h j : Int) : HopRecords :=
  ((r.putKv j (r.getEntry h).key (r.getEntry h).value).putBit (hHashIdx hash r h)
    (h - hHashIdx hash r h).toNat false).putBit (hHashIdx hash r h) (j - hHashIdx hash r h).toNat true

/-- The end of a chain of hops, when no assertion fails. -/
def HopRecords.placeAt (hash : Key → Fin leafSpanSize) (r : HopRecords) (k : Key) (v : Value) (j : Int)
    : HopRecords :=
  (r.putKv j k v).putBit (hash k).val (j - (hash k).val).toNat true

theorem hop_eq_of_bits (hle : hHashIdx hash r h ≤ h) (hlt : h < j) (hok : j < hHashIdx hash r h + 8)
    (hfrom : (r.getEntry (hHashIdx hash r h)).hopBit (h - hHashIdx hash r h).toNat = true)
    (hto : (r.getEntry (hHashIdx hash r h)).hopBit (j - hHashIdx hash r h).toNat = false)
    : hop hash r h j = .ok (r.hopTo hash h j) := by
  have h8 := neighborSize_eq
  unfold hop HopRecords.hopTo
  generalize hHashIdx hash r h = home at *
  generalize hr : r.putKv j (r.getEntry h).key (r.getEntry h).value = r₁
  -- copying the record to `j` changes no bit
  have hget : ∀ n, (r₁.getEntry home).hopBit n = (r.getEntry home).hopBit n := by
    intro n
    unfold HopRecords.getEntry
    rw [← hr, HopRecords.get_putKv]
    split
    . rfl
    . rfl
  have hset : ((r₁.putBit home (h - home).toNat false).getEntry home).hopBit (j - home).toNat
      = false := by
    rw [← hto, ← hget]
    unfold HopRecords.getEntry
    rw [HopRecords.get_putBit, if_pos rfl, HopEntry.hopBit_putHopBit (by omega) (by omega),
      if_neg (by omega)]
  have hr' : r.setEntry j ((r.getEntry j).update (r.getEntry h).key (r.getEntry h).value) = r₁ := hr
  have hput : r₁.setEntry home ((r₁.getEntry home).putHopBit (h - home).toNat false)
      = r₁.putBit home (h - home).toNat false := rfl
  dsimp only
  rw [hr', HopEntry.unsetHopBit_eq (by omega) (by omega) ((hget _).trans hfrom)]
  simp only [bind, Except.bind]
  rw [hput, HopEntry.setHopBit_eq (by omega) (by omega) hset]
  rfl

theorem place_eq_of_bit (hlo : (hash k).val ≤ j) (hj : j < (hash k).val + 8)
    (hbit : (r.getEntry (hash k).val).hopBit (j - (hash k).val).toNat = false)
    : place hash r k v j = .ok (r.placeAt hash k v j) := by
  have h8 := neighborSize_eq
  have hget : ((r.putKv j k v).getEntry (hash k).val).hopBit (j - (hash k).val).toNat = false := by
    rw [← hbit]
    unfold HopRecords.getEntry
    rw [HopRecords.get_putKv]
    split
    . rfl
    . rfl
  have hput : r.setEntry j ((r.getEntry j).update k v) = r.putKv j k v := rfl
  unfold place
  dsimp only
  rw [hput, HopEntry.setHopBit_eq (by omega) (by omega) hget]
  rfl

namespace HopState

theorem slot_ne (hs : HopState hash k r j) (hlo : (hash k).val ≤ h) (hj : h < j)
    : slot h ≠ slot j := by
  have hi := hs.hi
  intro he
  have := slot_injOn hlo (by omega) (by omega) hi he
  omega

theorem key_eq_some (hs : HopState hash k r j) (hlo : (hash k).val ≤ h) (hj : h < j)
    : r.toTable.key (slot h) = some (r.getEntry h).key :=
  HopRecords.toTable_key_eq_some.mpr ⟨rfl, hs.full h hlo hj⟩

theorem home (hs : HopState hash k r j) (hlo : (hash k).val ≤ h) (hj : h < j)
    : hHashIdx hash r h ≤ h ∧ h < hHashIdx hash r h + 8
        ∧ slot (hHashIdx hash r h) = hash (r.getEntry h).key := by
  have hlt : (hash k).val < 16 := (hash k).isLt
  have hi := hs.hi
  apply hHashIdx_spec
  . omega
  . omega
  . have hnear := hs.hole.near (hs.slot_ne hlo hj) (hs.key_eq_some hlo hj)
    rw [← slot_val (hash (r.getEntry h).key), ← slot_sub, slot_mem_neighborhood] at hnear
    simpa only [slot_val] using hnear

theorem findHop_spec (hs : HopState hash k r j) (hj : (hash k).val + 8 ≤ j)
    (hf : findHop hash r j (neighborSize - 1) = some h)
    : (hash k).val < hHashIdx hash r h ∧ hHashIdx hash r h ≤ h ∧ h < j
        ∧ j < hHashIdx hash r h + 8 ∧ slot (hHashIdx hash r h) = hash (r.getEntry h).key := by
  have h8 := neighborSize_eq
  obtain ⟨hlt, hge, hok⟩ := findHop_eq_some hf
  have hlo : (hash k).val ≤ h := by omega
  obtain ⟨hhome, -, hslot⟩ := hs.home hlo hlt
  exact ⟨by omega, hhome, hlt, hok, hslot⟩

theorem homesBehind (hs : HopState hash k r j) (hj : (hash k).val + 8 ≤ j)
    : homesBehind hash r j (neighborSize - 1) = true := by
  have h8 := neighborSize_eq
  apply homesBehind_of_le
  intro i hi hij
  exact (hs.home (by omega) hij).1

theorem toTable_hopTo (hs : HopState hash k r j) (hlo : (hash k).val ≤ h) (hlt : h < j)
    (hok : j < hHashIdx hash r h + 8)
    : (r.hopTo hash h j).toTable
        =
      ((r.toTable.setKey (slot j) (some (r.getEntry h).key)).setBit (hash (r.getEntry h).key)
        (slot h - hash (r.getEntry h).key) false).setBit (hash (r.getEntry h).key)
        (slot j - hash (r.getEntry h).key) true := by
  have h8 := neighborSize_eq
  obtain ⟨hle, -, hslot⟩ := hs.home hlo hlt
  unfold HopRecords.hopTo
  rw [HopRecords.toTable_putBit _ _ _ (by omega), HopRecords.toTable_putBit _ _ _ (by omega),
    HopRecords.toTable_putKv _ _ _ (hs.full h hlo hlt), Int.toNat_of_nonneg (by omega),
    Int.toNat_of_nonneg (by omega), slot_sub, slot_sub, hslot]

theorem val_sub_hash (hs : HopState hash k r j) (hlo : (hash k).val ≤ h) (hlt : h < j) {i : Int}
    (hi : hHashIdx hash r h ≤ i) (hi' : i < hHashIdx hash r h + 8)
    : (slot i - hash (r.getEntry h).key).val = (i - hHashIdx hash r h).toNat := by
  have := val_slot (i - hHashIdx hash r h)
  rw [← (hs.home hlo hlt).2.2, ← slot_sub]
  omega

theorem hopBit_home (hs : HopState hash k r j) (hlo : (hash k).val ≤ h) (hlt : h < j)
    : (r.getEntry (hHashIdx hash r h)).hopBit (h - hHashIdx hash r h).toNat = true := by
  obtain ⟨hle, hnear, hslot⟩ := hs.home hlo hlt
  have hbit := hs.hole.bit_home (hs.slot_ne hlo hlt) (hs.key_eq_some hlo hlt)
  simp only [HopRecords.toTable, hs.val_sub_hash hlo hlt hle hnear] at hbit
  rw [Bool.and_eq_true, ← hslot] at hbit
  exact hbit.2

/-- The bit that a hop sets belongs to slot `j`, which does not count. -/
theorem hopBit_hole (hs : HopState hash k r j) (hlo : (hash k).val ≤ h) (hlt : h < j)
    (hok : j < hHashIdx hash r h + 8)
    : (r.getEntry (hHashIdx hash r h)).hopBit (j - hHashIdx hash r h).toNat = false := by
  have h8 := neighborSize_eq
  obtain ⟨hle, -, hslot⟩ := hs.home hlo hlt
  have hval := hs.val_sub_hash hlo hlt (by omega) hok
  have hlt8 : (j - hHashIdx hash r h).toNat < neighborSize := by omega
  have hmem : slot j - hash (r.getEntry h).key ∈ neighborhood := by
    change (slot j - hash (r.getEntry h).key).val < neighborSize
    rwa [hval]
  have hbit := hs.hole.bit_hole hmem
  simp only [HopRecords.toTable, hval, hlt8, decide_true, Bool.true_and] at hbit
  rw [← hslot] at hbit
  exact hbit

theorem hop_eq (hs : HopState hash k r j) (hlo : (hash k).val ≤ h) (hlt : h < j)
    (hok : j < hHashIdx hash r h + 8)
    : hop hash r h j = .ok (r.hopTo hash h j) :=
  hop_eq_of_bits (hs.home hlo hlt).1 hlt hok (hs.hopBit_home hlo hlt) (hs.hopBit_hole hlo hlt hok)

end HopState

/-- The record `j` is now `(k, v)`, and only the bitmap of `q` may have changed with it. -/
structure HopRecords.Edit (r : HopRecords) (j : Fin leafSpanSize) (k : Key) (v : Value)
    (q : Fin leafSpanSize) (r' : HopRecords) : Prop where
  key : ∀ p, (r'.get p).key = if p = j then k else (r.get p).key
  value : ∀ p, (r'.get p).value = if p = j then v else (r.get p).value
  other : ∀ p, p ≠ j → p ≠ q → r'.get p = r.get p
  hVersion : ∀ p, (r'.get p).hVersion = (r.get p).hVersion
  hopPadding : ∀ p, (r'.get p).hopPadding = (r.get p).hopPadding

namespace HopRecords

theorem edit_putKv (r : HopRecords) (j : Int) (k : Key) (v : Value) (q : Fin leafSpanSize)
    : r.Edit (slot j) k v q (r.putKv j k v) := by
  have hsplit : ∀ {α : Type} (f : HopEntry → α) p, f ((r.putKv j k v).get p)
      = if p = slot j then f ((r.get p).update k v) else f (r.get p) := by
    intro α f p
    rw [get_putKv]
    split
    . rfl
    . rfl
  constructor
  . intro p
    exact hsplit HopEntry.key p
  . intro p
    exact hsplit HopEntry.value p
  . intro p hp _
    rw [get_putKv, if_neg hp]
  . intro p
    rw [hsplit HopEntry.hVersion]
    exact ite_self _
  . intro p
    rw [hsplit HopEntry.hopPadding]
    exact ite_self _

theorem Edit.putBit {j q : Fin leafSpanSize} {i : Int} (hr : r.Edit j k v q r') (hq : slot i = q)
    (n : Nat) (b : Bool)
    : r.Edit j k v q (r'.putBit i n b) := by
  have hsplit : ∀ {α : Type} (f : HopEntry → α), (∀ e, f (e.putHopBit n b) = f e) →
      ∀ p, f ((r'.putBit i n b).get p) = f (r'.get p) := by
    intro α f hf p
    rw [get_putBit]
    split
    . exact hf _
    . rfl
  constructor
  . intro p
    rw [hsplit HopEntry.key (fun _ => rfl)]
    exact hr.key p
  . intro p
    rw [hsplit HopEntry.value (fun _ => rfl)]
    exact hr.value p
  . intro p hj hp
    rw [get_putBit, hq, if_neg hp]
    exact hr.other p hj hp
  . intro p
    rw [hsplit HopEntry.hVersion (fun _ => rfl)]
    exact hr.hVersion p
  . intro p
    rw [hsplit HopEntry.hopPadding (fun _ => rfl)]
    exact hr.hopPadding p

theorem edit_hopTo (hash : Key → Fin leafSpanSize) (r : HopRecords) (h j : Int)
    : r.Edit (slot j) (r.getEntry h).key (r.getEntry h).value (slot (hHashIdx hash r h))
        (r.hopTo hash h j) :=
  ((edit_putKv r j _ _ _).putBit rfl _ _).putBit rfl _ _

theorem edit_placeAt (hash : Key → Fin leafSpanSize) (r : HopRecords) (k : Key) (v : Value) (j : Int)
    : r.Edit (slot j) k v (hash k) (r.placeAt hash k v j) :=
  (edit_putKv r j k v (hash k)).putBit (slot_val _) _ _

end HopRecords

namespace HopState

theorem hop (hs : HopState hash k r j) (hlo : (hash k).val ≤ h) (hlt : h < j)
    (hok : j < hHashIdx hash r h + 8)
    : HopState hash k (r.hopTo hash h j) h := by
  have hi := hs.hi
  constructor
  . rw [hs.toTable_hopTo hlo hlt hok]
    apply hs.hole.hop (hs.slot_ne hlo hlt) (hs.key_eq_some hlo hlt)
    obtain ⟨hle, -, hslot⟩ := hs.home hlo hlt
    rw [← hslot, ← slot_sub, slot_mem_neighborhood]
    omega
  . exact hlo
  . omega
  . intro i hi hih
    unfold HopRecords.getEntry
    rw [(r.edit_hopTo hash h j).key]
    split
    . exact hs.full h hlo hlt
    . exact hs.full i hi (by omega)

theorem hopBit_place (hs : HopState hash k r j) (hj : j < (hash k).val + 8)
    : (r.getEntry (hash k).val).hopBit (j - (hash k).val).toNat = false := by
  have h8 := neighborSize_eq
  have hlo := hs.lo
  have hval : (slot j - hash k).val = (j - (hash k).val).toNat := by
    have := val_slot (j - (hash k).val)
    rw [slot_sub, slot_val] at this
    omega
  have hlt8 : (j - (hash k).val).toNat < neighborSize := by omega
  have hmem : slot j - hash k ∈ neighborhood := by
    change (slot j - hash k).val < neighborSize
    rwa [hval]
  have hbit := hs.hole.bit_hole hmem
  simp only [HopRecords.toTable, hval, hlt8, decide_true, Bool.true_and] at hbit
  unfold HopRecords.getEntry
  rwa [slot_val]

theorem place_eq (hs : HopState hash k r j) (hj : j < (hash k).val + 8)
    : place hash r k v j = .ok (r.placeAt hash k v j) :=
  place_eq_of_bit hs.lo hj (hs.hopBit_place hj)

theorem inv_placeAt (hs : HopState hash k r j) (hj : j < (hash k).val + 8) (hk : k ≠ kkeyNull)
    : (r.placeAt hash k v j).Inv hash := by
  have h8 := neighborSize_eq
  have hlo := hs.lo
  rw [HopRecords.inv_iff]
  unfold HopRecords.placeAt
  rw [HopRecords.toTable_putBit _ _ _ (by omega), HopRecords.toTable_putKv _ _ _ hk,
    Int.toNat_of_nonneg (by omega), slot_sub, slot_val]
  apply hs.hole.fill
  rw [← slot_val (hash k), ← slot_sub, slot_mem_neighborhood]
  omega

end HopState

end Hop

end Rolex

import Mathlib.Data.List.Perm.Subperm
import Mathlib.Data.List.TakeWhile
import Rolex.Hopscotch.Insert

/-!
This module contains `hopscotch_split_and_unlock`: moving records to the synonym leaf keeps both nodes
hopscotch tables, and the split key is chosen such that the new record can be inserted afterwards, unless
the leaf stores a key more than once.
-/

namespace Rolex

variable {hash : Key → Fin leafSpanSize} {r a b : HopRecords} {k sk : Key} {v : Value}

namespace HopRecords

theorem set_eq_setEntry (r : HopRecords) (i : Fin leafSpanSize) (e : HopEntry)
    : Vector.set r i.val e i.isLt = r.setEntry i.val e := by
  apply ext_get
  intro p
  rw [get_setEntry, slot_val]
  change (Vector.set r i.val e i.isLt)[p.val] = _
  rw [Vector.getElem_set]
  simp only [Fin.ext_iff, eq_comm]
  rfl

theorem getEntry_val (r : HopRecords) (i : Fin leafSpanSize) : r.getEntry i.val = r.get i := by
  unfold getEntry
  rw [slot_val]

theorem setEntry_update (r : HopRecords) (i : Fin leafSpanSize) (k : Key) (v : Value)
    : r.setEntry i.val ((r.get i).update k v) = r.putKv i.val k v := by
  unfold putKv
  rw [getEntry_val]

theorem setEntry_putHopBit (r : HopRecords) (q : Fin leafSpanSize) (n : Nat) (b : Bool)
    : r.setEntry q.val ((r.get q).putHopBit n b) = r.putBit q.val n b := by
  unfold putBit
  rw [getEntry_val]

def remove (hash : Key → Fin leafSpanSize) (r : HopRecords) (i : Fin leafSpanSize) : HopRecords :=
  (r.putKv i.val kkeyNull kValueNull).putBit (hash (r.get i).key).val
    (i - hash (r.get i).key).val false

def add (hash : Key → Fin leafSpanSize) (r : HopRecords) (i : Fin leafSpanSize) (k : Key) (v : Value)
    : HopRecords :=
  (r.putKv i.val k v).putBit (hash k).val (i - hash k).val true

theorem near_lt (hinv : r.Inv hash) {i : Fin leafSpanSize} (hi : (r.get i).key ≠ kkeyNull)
    : (i - hash (r.get i).key).val < neighborSize :=
  (inv_iff.mp hinv).near (toTable_key_eq_some.mpr ⟨rfl, hi⟩)

theorem Inv.remove (hinv : r.Inv hash) {i : Fin leafSpanSize} (hi : (r.get i).key ≠ kkeyNull)
    : (r.remove hash i).Inv hash := by
  rw [inv_iff]
  unfold HopRecords.remove
  rw [toTable_putBit _ _ _ (near_lt hinv hi), toTable_putKv_null, slot_val, slot_val, slot_val]
  exact (inv_iff.mp hinv).erase (toTable_key_eq_some.mpr ⟨rfl, hi⟩)

theorem Inv.add (hinv : r.Inv hash) {i : Fin leafSpanSize} (hi : (r.get i).key = kkeyNull)
    (hk : k ≠ kkeyNull) (hnear : (i - hash k).val < neighborSize)
    : (r.add hash i k v).Inv hash := by
  rw [inv_iff]
  unfold HopRecords.add
  rw [toTable_putBit _ _ _ hnear, toTable_putKv _ _ _ hk, slot_val, slot_val, slot_val]
  exact ((inv_iff.mp hinv).hole (toTable_key_eq_none.mpr hi)).fill hnear

end HopRecords

theorem moveEntry_eq (ha : a.Inv hash) (hb : b.Inv hash) {i : Fin leafSpanSize}
    (hi : (a.get i).key ≠ kkeyNull) (hsk : sk ≤ (a.get i).key) (hbi : (b.get i).key = kkeyNull)
    : moveEntry hash sk (a, b) i
        =
      .ok (a.remove hash i, b.add hash i (a.get i).key (a.get i).value) := by
  have hlt : i.val < 16 := i.isLt
  have hlt' : (hash (a.get i).key).val < 16 := (hash (a.get i).key).isLt
  have h8 := neighborSize_eq
  have hnear := HopRecords.near_lt ha hi
  have hoff : (if hash (a.get i).key ≤ i then (i.val : Int) - (hash (a.get i).key).val
      else i.val + leafSpanSize - (hash (a.get i).key).val)
      = ((i - hash (a.get i).key).val : Nat) := by
    have hval := val_slot ((i.val : Int) - (hash (a.get i).key).val)
    rw [slot_sub, slot_val, slot_val] at hval
    have h16 := leafSpanSize_eq
    rw [hval]
    split
    . next h =>
      have h' : (hash (a.get i).key).val ≤ i.val := h
      omega
    . next h =>
      have h' : ¬ (hash (a.get i).key).val ≤ i.val := h
      omega
  have hset : ((b.putKv i.val (a.get i).key (a.get i).value).get
      (hash (a.get i).key)).hopBit (i - hash (a.get i).key).val = false := by
    have hbit := ((HopRecords.inv_iff.mp hb).hole
      (HopRecords.toTable_key_eq_none.mpr hbi)).bit_hole hnear
    simp only [HopRecords.toTable, hnear, decide_true, Bool.true_and] at hbit
    rw [HopRecords.get_putKv, ← hbit]
    split
    . rfl
    . rfl
  have hunset : ((a.putKv i.val kkeyNull kValueNull).get
      (hash (a.get i).key)).hopBit (i - hash (a.get i).key).val = true := by
    have hbit := (HopRecords.inv_iff.mp ha).bit_home
      (HopRecords.toTable_key_eq_some.mpr ⟨rfl, hi⟩)
    simp only [HopRecords.toTable, hnear, decide_true, Bool.true_and] at hbit
    rw [HopRecords.get_putKv, ← hbit]
    split
    . rfl
    . rfl
  unfold moveEntry
  dsimp only
  rw [if_pos ⟨hi, hsk⟩, hoff]
  simp only [HopRecords.set_eq_setEntry, HopRecords.setEntry_update]
  rw [HopEntry.setHopBit_natCast hnear hset, HopEntry.unsetHopBit_natCast hnear hunset]
  simp only [bind, Except.bind, pure, Except.pure, HopRecords.setEntry_putHopBit]
  rfl

namespace HopRecords

theorem get_zero (p : Fin leafSpanSize) : zero.get p = HopEntry.null := by
  change (Vector.replicate leafSpanSize HopEntry.null)[p.val] = HopEntry.null
  rw [Vector.getElem_replicate]

theorem zero_inv (hash : Key → Fin leafSpanSize) : zero.Inv hash := by
  constructor
  . intro p hp
    rw [get_zero] at hp
    exact absurd rfl hp
  . intro q d hd
    rw [get_zero, get_zero]
    simp [HopEntry.null]

theorem edit_remove (hash : Key → Fin leafSpanSize) (r : HopRecords) (i : Fin leafSpanSize)
    : r.Edit i kkeyNull kValueNull (hash (r.get i).key) (r.remove hash i) := by
  have hedit := edit_putKv r i.val kkeyNull kValueNull (hash (r.get i).key)
  rw [slot_val] at hedit
  exact hedit.putBit (slot_val _) _ _

theorem edit_add (hash : Key → Fin leafSpanSize) (r : HopRecords) (i : Fin leafSpanSize) (k : Key)
    (v : Value)
    : r.Edit i k v (hash k) (r.add hash i k v) := by
  have hedit := edit_putKv r i.val k v (hash k)
  rw [slot_val] at hedit
  exact hedit.putBit (slot_val _) _ _

/-- The record in `p` goes to the synonym leaf. -/
def Moves (sk : Key) (r : HopRecords) (p : Fin leafSpanSize) : Prop :=
  (r.get p).key ≠ kkeyNull ∧ sk ≤ (r.get p).key

end HopRecords

/-- The leaf `a` and the synonym leaf `b` while the records `rest` of `r` have not been looked at. -/
structure Moved (hash : Key → Fin leafSpanSize) (sk : Key) (r : HopRecords)
    (rest : List (Fin leafSpanSize)) (a b : HopRecords) : Prop where
  invLeaf : a.Inv hash
  invSyn : b.Inv hash
  moved : ∀ {p}, p ∉ rest → r.Moves sk p → (a.get p).key = kkeyNull ∧ b.kv p = r.kv p
  kept : ∀ {p}, p ∈ rest ∨ ¬ r.Moves sk p → a.kv p = r.kv p ∧ (b.get p).key = kkeyNull
  versions : ∀ p, (a.get p).hVersion = (r.get p).hVersion

theorem Moved.step {i : Fin leafSpanSize} {rest : List (Fin leafSpanSize)}
    (hm : Moved hash sk r (i :: rest) a b) (hi : i ∉ rest)
    : ∃ a' b', moveEntry hash sk (a, b) i = .ok (a', b') ∧ Moved hash sk r rest a' b' := by
  obtain ⟨hkv, hnull⟩ := hm.kept (.inl List.mem_cons_self)
  have hkey : (a.get i).key = (r.get i).key := congrArg Prod.fst hkv
  by_cases hmoves : r.Moves sk i
  . have hne : (a.get i).key ≠ kkeyNull := by
      rw [hkey]
      exact hmoves.1
    have hle : sk ≤ (a.get i).key := by
      rw [hkey]
      exact hmoves.2
    have hrem := a.edit_remove hash i
    have hadd := b.edit_add hash i (a.get i).key (a.get i).value
    refine ⟨_, _, moveEntry_eq hm.invLeaf hm.invSyn hne hle hnull, ?_⟩
    constructor
    . exact hm.invLeaf.remove hne
    . exact hm.invSyn.add hnull hne (HopRecords.near_lt hm.invLeaf hne)
    . intro p hp hpm
      rw [hrem.key, hadd.kv]
      by_cases hpi : p = i
      . rw [if_pos hpi, if_pos hpi, hpi]
        exact ⟨rfl, hkv⟩
      . rw [if_neg hpi, if_neg hpi]
        exact hm.moved (fun hmem => (List.mem_cons.mp hmem).elim hpi hp) hpm
    . intro p hp
      have hpi : p ≠ i := by
        rintro rfl
        exact hp.elim hi (fun h => h hmoves)
      rw [hrem.kv, hadd.key, if_neg hpi, if_neg hpi]
      exact hm.kept (hp.imp (List.mem_cons_of_mem _) id)
    . intro p
      rw [hrem.hVersion]
      exact hm.versions p
  . refine ⟨a, b, ?_, hm.invLeaf, hm.invSyn, ?_, ?_, hm.versions⟩
    . have hno : ¬ ((a.get i).key ≠ kkeyNull ∧ sk ≤ (a.get i).key) := by
        rw [hkey]
        exact hmoves
      exact if_neg hno
    . intro p hp hpm
      apply hm.moved _ hpm
      rw [List.mem_cons, not_or]
      exact ⟨fun h => hmoves (h ▸ hpm), hp⟩
    . intro p hp
      exact hm.kept (hp.imp (List.mem_cons_of_mem _) id)

theorem Moved.run {rest : List (Fin leafSpanSize)} (hnodup : rest.Nodup)
    (hm : Moved hash sk r rest a b)
    : ∃ a' b', rest.foldlM (moveEntry hash sk) (a, b) = .ok (a', b') ∧ Moved hash sk r [] a' b' := by
  induction rest generalizing a b with
  | nil => exact ⟨a, b, rfl, hm⟩
  | cons i rest ih =>
    rw [List.nodup_cons] at hnodup
    obtain ⟨a₁, b₁, heq, hm₁⟩ := hm.step hnodup.1
    obtain ⟨a', b', heq', hm'⟩ := ih hnodup.2 hm₁
    refine ⟨a', b', ?_, hm'⟩
    rw [List.foldlM_cons, heq]
    exact heq'

theorem moveEntries_spec (hinv : r.Inv hash) (sk : Key)
    : ∃ a b, moveEntries hash sk r = .ok (a, b) ∧ Moved hash sk r [] a b := by
  apply Moved.run (List.nodup_finRange _)
  refine ⟨hinv, HopRecords.zero_inv hash, ?_, ?_, fun _ => rfl⟩
  . intro p hp
    exact absurd (List.mem_finRange p) hp
  . intro p _
    rw [HopRecords.get_zero]
    exact ⟨rfl, rfl⟩

theorem countP_le_of_drop {l : List Key} {p : Key → Bool} {n : Nat}
    (h : ∀ i, (hi : i < l.length) → n ≤ i → ¬ p l[i] = true)
    : l.countP p ≤ n := by
  have hdrop : (l.drop n).countP p = 0 := by
    rw [List.countP_eq_zero]
    intro x hx
    obtain ⟨i, hi, rfl⟩ := List.mem_drop_iff_getElem.mp hx
    exact h (n + i) _ (by omega)
  calc l.countP p
      = (l.take n).countP p + (l.drop n).countP p := by rw [← List.countP_append, List.take_append_drop]
    _ ≤ (l.take n).length := by rw [hdrop]; exact List.countP_le_length
    _ ≤ n := List.length_take_le n l

theorem le_countP_of_take {l : List Key} {p : Key → Bool} {n : Nat} (hn : n ≤ l.length)
    (h : ∀ i, (hi : i < l.length) → i < n → p l[i] = true)
    : n ≤ l.countP p := by
  have htake : (l.take n).countP p = n := by
    rw [List.countP_eq_length.mpr, List.length_take_of_le hn]
    intro x hx
    obtain ⟨i, hi, rfl⟩ := List.mem_take_iff_getElem.mp hx
    exact h i _ (by omega)
  calc n
      = (l.take n).countP p := htake.symm
    _ ≤ l.countP p := (List.take_sublist n l).countP_le

theorem getElem_le_iff {l : List Key} (hl : l.Pairwise (· ≤ ·)) {n : Nat} (hn : n < l.length) {x : Key}
    : l[n] ≤ x ↔ n < l.countP (fun y => decide (y ≤ x)) := by
  have hmono : ∀ i j, (hi : i < l.length) → (hj : j < l.length) → i ≤ j → l[i] ≤ l[j] := by
    intro i j hi hj hij
    rcases Nat.lt_or_eq_of_le hij with hlt | rfl
    . exact List.pairwise_iff_getElem.mp hl i j hi hj hlt
    . exact le_refl _
  constructor
  . intro hle
    apply le_countP_of_take hn
    intro i hi hin
    exact decide_eq_true ((hmono i n hi hn (by omega)).trans hle)
  . intro hlt
    by_contra hle
    have hcount : l.countP (fun y => decide (y ≤ x)) ≤ n := by
      apply countP_le_of_drop
      intro i hi hni
      rw [decide_eq_true_eq]
      exact fun h => hle ((hmono n i hn hi hni).trans h)
    omega

theorem getElem_mem_takeWhile {α : Type} {p : α → Bool} {l : List α} {n : Nat} (hn : n < l.length)
    (h : ∀ m, ∀ hm : m < l.length, m ≤ n → p l[m] = true)
    : l[n] ∈ l.takeWhile p := by
  induction l generalizing n with
  | nil => cases hn
  | cons x l ih =>
    have hx : p x = true := h 0 (by simp) (by omega)
    rw [List.takeWhile_cons, if_pos hx]
    cases n with
    | zero => exact List.mem_cons_self
    | succ n =>
      apply List.mem_cons_of_mem
      apply ih
      intro m hm hmn
      exact h (m + 1) (by simpa using hm) (by omega)

section SplitKey

variable {q : Int}

def ring (q : Int) : List Int := (List.range leafSpanSize).map fun i : Nat => q + i

theorem mem_ring {i : Int} : i ∈ ring q ↔ q ≤ i ∧ i < q + 16 := by
  unfold ring
  rw [List.mem_map]
  constructor
  . rintro ⟨t, ht, rfl⟩
    rw [List.mem_range, leafSpanSize_eq] at ht
    omega
  . intro h
    refine ⟨(i - q).toNat, ?_, by omega⟩
    rw [List.mem_range, leafSpanSize_eq]
    omega

theorem nodup_ring : (ring q).Nodup := by
  apply List.Nodup.map ?_ List.nodup_range
  intro a b h
  have h' : q + (a : Int) = q + b := h
  omega

theorem criticalIdxes_sublist : (criticalIdxes hash r q).Sublist (ring q) :=
  (List.filter_sublist).trans (List.takeWhile_sublist _)

theorem of_mem_criticalIdxes {i : Int} (hi : i ∈ criticalIdxes hash r q)
    : q ≤ i ∧ i < q + 16 ∧ (r.getEntry i).key ≠ kkeyNull
        ∧ hopReaches hash r q i leafSpanSize = true := by
  obtain ⟨hlo, hhi⟩ := mem_ring.mp (criticalIdxes_sublist.subset hi)
  unfold criticalIdxes at hi
  obtain ⟨hmem, hreach⟩ := List.mem_filter.mp hi
  have := List.mem_takeWhile_imp hmem
  rw [decide_eq_true_eq] at this
  exact ⟨hlo, hhi, this, hreach⟩

theorem hopReaches_of_lt {i : Int} (hi : i < q + 8) : hopReaches hash r q i leafSpanSize = true := by
  have h8 := neighborSize_eq
  change hopReaches hash r q i (15 + 1) = true
  rw [hopReaches, if_pos (by omega)]

theorem mem_criticalIdxes {i : Int} (hlo : q ≤ i) (hhi : i < q + 8)
    (hfull : ∀ i', q ≤ i' → i' ≤ i → (r.getEntry i').key ≠ kkeyNull)
    : i ∈ criticalIdxes hash r q := by
  have h16 := leafSpanSize_eq
  have hlen : (i - q).toNat < (ring q).length := by
    unfold ring
    rw [List.length_map, List.length_range]
    omega
  have hget : ∀ m (hm : m < (ring q).length), (ring q)[m] = q + m := by
    intro m hm
    simp [ring]
  have hmem : (ring q)[(i - q).toNat]
      ∈ (ring q).takeWhile fun i => decide ((r.getEntry i).key ≠ kkeyNull) := by
    apply getElem_mem_takeWhile
    intro m hm hmi
    rw [hget, decide_eq_true_eq]
    exact hfull _ (by omega) (by omega)
  rw [hget, Int.toNat_of_nonneg (by omega), show q + (i - q) = i by omega] at hmem
  unfold criticalIdxes
  rw [List.mem_filter]
  exact ⟨hmem, hopReaches_of_lt hhi⟩

theorem length_criticalIdxes_le : (criticalIdxes hash r q).length ≤ 16 := by
  have h : (criticalIdxes hash r q).length ≤ (ring q).length := criticalIdxes_sublist.length_le
  simpa [ring, leafSpanSize_eq] using h

theorem le_countP_criticalKeys {l : List Int} (hnodup : l.Nodup) (hsub : l ⊆ criticalIdxes hash r q)
    {p : Key → Bool} (hp : ∀ i ∈ l, p (r.getEntry i).key = true)
    : l.length ≤ (criticalKeys hash r q).countP p := by
  unfold criticalKeys
  rw [List.countP_map]
  calc l.length
      = l.countP (p ∘ fun i => (r.getEntry i).key) := (List.countP_eq_length.mpr hp).symm
    _ ≤ _ := (List.subperm_of_subset hnodup hsub).countP_le _

theorem le_countP_of_critical {n : Nat}
    (hcrit : ∀ i, q ≤ i → i < q + n → i ∈ criticalIdxes hash r q) {p : Key → Bool}
    (hp : ∀ i, q ≤ i → i < q + n → p (r.getEntry i).key = true)
    : n ≤ (criticalKeys hash r q).countP p := by
  have hlen : ((List.range n).map fun t : Nat => q + t).length = n := by simp
  rw [← hlen]
  apply le_countP_criticalKeys
  . apply List.Nodup.map ?_ List.nodup_range
    intro a b h
    have h' : q + (a : Int) = q + b := h
    omega
  . intro i hi
    obtain ⟨t, ht, rfl⟩ := List.mem_map.mp hi
    rw [List.mem_range] at ht
    exact hcrit _ (by omega) (by omega)
  . intro i hi
    obtain ⟨t, ht, rfl⟩ := List.mem_map.mp hi
    rw [List.mem_range] at ht
    exact hp _ (by omega) (by omega)

theorem length_criticalKeys_le : (criticalKeys hash r q).length ≤ 16 := by
  unfold criticalKeys
  rw [List.length_map]
  exact length_criticalIdxes_le

theorem nodup_criticalKeys (hdist : r.Distinct) : (criticalKeys hash r q).Nodup := by
  unfold criticalKeys
  rw [List.nodup_map_iff_inj_on (nodup_ring.sublist criticalIdxes_sublist)]
  intro i hi j hj heq
  obtain ⟨hilo, hihi, hinull, -⟩ := of_mem_criticalIdxes hi
  obtain ⟨hjlo, hjhi, -, -⟩ := of_mem_criticalIdxes hj
  exact slot_injOn hilo hihi hjlo hjhi (hdist _ _ hinull heq)

/-- The split key is at most `x`: more than half of the critical keys and `k` are. -/
def Upper (hash : Key → Fin leafSpanSize) (r : HopRecords) (k x : Key) : Prop :=
  ((criticalKeys hash r (hash k).val).length + 1) / 2
    < (criticalKeys hash r (hash k).val ++ [k]).countP (fun y => decide (y ≤ x))

theorem criticalKeys_ne_nil (hhome : (r.get (hash k)).key ≠ kkeyNull)
    : criticalKeys hash r (hash k).val ≠ [] := by
  have hmem : ((hash k).val : Int) ∈ criticalIdxes hash r (hash k).val := by
    apply mem_criticalIdxes (by omega) (by omega)
    intro i hi hi'
    obtain rfl : i = (hash k).val := by omega
    rwa [HopRecords.getEntry_val]
  exact List.ne_nil_of_mem (List.mem_map_of_mem hmem)

/-- At most half of the critical keys and `k` are smaller than the split key, and half if all differ. -/
theorem hopscotchGetSplitKey_spec (hcrit : criticalKeys hash r (hash k).val ≠ [])
    : ∃ sk, hopscotchGetSplitKey hash r k = .ok sk ∧ (∀ x, sk ≤ x ↔ Upper hash r k x)
        ∧ (criticalKeys hash r (hash k).val ++ [k]).countP (fun x => decide (x < sk))
            ≤ ((criticalKeys hash r (hash k).val).length + 1) / 2
        ∧ (r.Distinct → k ≠ kkeyNull → ¬ r.Stores k →
            ((criticalKeys hash r (hash k).val).length + 1) / 2
              ≤ (criticalKeys hash r (hash k).val ++ [k]).countP (fun x => decide (x < sk))) := by
  have hnodup : r.Distinct → k ≠ kkeyNull → ¬ r.Stores k →
      (criticalKeys hash r (hash k).val ++ [k]).Nodup := by
    intro hdist hk hfresh
    rw [← List.concat_eq_append, List.nodup_concat]
    refine ⟨?_, nodup_criticalKeys hdist⟩
    intro hmem
    obtain ⟨i, -, hi⟩ := List.mem_map.mp hmem
    exact hfresh ⟨hk, slot i, hi⟩
  unfold hopscotchGetSplitKey Upper
  dsimp only
  rw [if_neg hcrit]
  generalize criticalKeys hash r (hash k).val = c at *
  have hperm := List.perm_insertionSort (· ≤ ·) (c ++ [k])
  have hle := List.pairwise_insertionSort (· ≤ ·) (c ++ [k])
  simp only [← hperm.countP_eq, ← hperm.nodup_iff] at hnodup ⊢
  have hlen : ((c ++ [k]).insertionSort (· ≤ ·)).length = c.length + 1 := by
    rw [hperm.length_eq, List.length_append]
    rfl
  rw [hlen]
  generalize (c ++ [k]).insertionSort (· ≤ ·) = l at *
  have hidx : (c.length + 1) / 2 < l.length := by omega
  rw [List.getD_eq_getElem?_getD, List.getElem?_eq_getElem hidx, Option.getD_some]
  refine ⟨_, rfl, fun x => getElem_le_iff hle hidx, ?_, ?_⟩
  . apply countP_le_of_drop
    intro i hi hni
    rw [decide_eq_true_eq, not_lt]
    rcases Nat.lt_or_eq_of_le hni with hlt | rfl
    . exact List.pairwise_iff_getElem.mp hle _ i hidx hi hlt
    . exact le_refl _
  . intro hdist hk hfresh
    have hlt : l.Pairwise (· < ·) :=
      (hle.and (hnodup hdist hk hfresh)).imp fun h => lt_of_le_of_ne h.1 h.2
    apply le_countP_of_take (Nat.le_of_lt hidx)
    intro i hi hin
    exact decide_eq_true (List.pairwise_iff_getElem.mp hlt i _ hi hidx hin)

end SplitKey

theorem findEmpty_of_null {q i : Int} (hlo : q ≤ i) (hhi : i < q + 16)
    (hnull : (r.getEntry i).key = kkeyNull)
    : ∃ e, findEmpty r q leafSpanSize = some e ∧ e ≤ i := by
  cases he : findEmpty r q leafSpanSize with
  | none => exact absurd hnull (findEmpty_eq_none he hlo hhi)
  | some e =>
    refine ⟨e, rfl, ?_⟩
    by_contra hlt
    exact (findEmpty_eq_some he).2.2.2.2 i hlo (by omega) hnull

theorem takes_of_null {i : Int} (hlo : (hash k).val ≤ i) (hhi : i < (hash k).val + 8)
    (hnull : (r.getEntry i).key = kkeyNull)
    : r.Takes hash k leafSpanSize := by
  obtain ⟨e, he, hei⟩ := findEmpty_of_null hlo (by omega) hnull
  obtain ⟨helo, hehi, henull, hfull⟩ := findEmpty_iff.mp he
  exact ⟨e, helo, hehi, henull, hfull, hopReaches_of_lt (by omega)⟩

theorem mem_criticalIdxes_of_full {q : Int}
    (hfull : ∀ i, q ≤ i → i < q + 8 → (r.getEntry i).key ≠ kkeyNull) (i : Int) (hlo : q ≤ i)
    (hhi : i < q + 8)
    : i ∈ criticalIdxes hash r q :=
  mem_criticalIdxes hlo hhi fun i' hi' hi'i => hfull i' hi' (by omega)

/-- `k` is smaller than the split key: one of the eight records of its neighborhood has been moved. -/
theorem takes_leaf (hm : Moved hash sk r [] a b) (hlt : k < sk)
    (hcount : (criticalKeys hash r (hash k).val ++ [k]).countP (fun x => decide (x < sk))
      ≤ ((criticalKeys hash r (hash k).val).length + 1) / 2)
    : a.Takes hash k leafSpanSize := by
  by_cases hnull : ∃ i : Int, (hash k).val ≤ i ∧ i < (hash k).val + 8
      ∧ (a.getEntry i).key = kkeyNull
  . obtain ⟨i, hlo, hhi, hnull⟩ := hnull
    exact takes_of_null hlo hhi hnull
  . exfalso
    -- else these eight records and `k` are smaller than the split key: more than half of 17
    have hstay : ∀ i : Int, (hash k).val ≤ i → i < (hash k).val + 8 →
        (r.getEntry i).key ≠ kkeyNull ∧ (r.getEntry i).key < sk := by
      intro i hlo hhi
      have hne : (a.getEntry i).key ≠ kkeyNull := fun h => hnull ⟨i, hlo, hhi, h⟩
      have hmoves : ¬ r.Moves sk (slot i) := by
        intro hmoves
        exact hne (hm.moved (by simp) hmoves).1
      have hkey : (a.getEntry i).key = (r.getEntry i).key :=
        congrArg Prod.fst (hm.kept (.inr hmoves)).1
      rw [hkey] at hne
      exact ⟨hne, not_le.mp fun hle => hmoves ⟨hne, hle⟩⟩
    have hcrit : ∀ i : Int, (hash k).val ≤ i → i < (hash k).val + 8 →
        i ∈ criticalIdxes hash r (hash k).val :=
      mem_criticalIdxes_of_full fun i hlo hhi => (hstay i hlo hhi).1
    have hle : 8 ≤ (criticalKeys hash r (hash k).val).countP (fun x => decide (x < sk)) := by
      apply le_countP_of_critical hcrit
      intro i hlo hhi
      rw [decide_eq_true_eq]
      exact (hstay i hlo (by omega)).2
    have hlen : (criticalKeys hash r (hash k).val).length ≤ 16 := length_criticalKeys_le
    have hone : [k].countP (fun x => decide (x < sk)) = 1 := by simp [hlt]
    rw [List.countP_append, hone] at hcount
    omega

/--
`k` is not smaller than the split key: one of the eight records of its neighborhood has stayed in the
leaf, or these are all that has been moved, and the next slot is empty and hops.
-/
theorem takes_syn (hm : Moved hash sk r [] a b) (hle : sk ≤ k)
    (hcount : ((criticalKeys hash r (hash k).val).length + 1) / 2
      ≤ (criticalKeys hash r (hash k).val ++ [k]).countP (fun x => decide (x < sk)))
    : b.Takes hash k leafSpanSize := by
  by_cases hnull : ∃ i : Int, (hash k).val ≤ i ∧ i < (hash k).val + 8
      ∧ (b.getEntry i).key = kkeyNull
  . obtain ⟨i, hlo, hhi, hnull⟩ := hnull
    exact takes_of_null hlo hhi hnull
  . have hmoves : ∀ i : Int, (hash k).val ≤ i → i < (hash k).val + 8 → r.Moves sk (slot i) := by
      intro i hlo hhi
      by_contra hmoves
      exact hnull ⟨i, hlo, hhi, (hm.kept (.inr hmoves)).2⟩
    have hcrit : ∀ i : Int, (hash k).val ≤ i → i < (hash k).val + 8 →
        i ∈ criticalIdxes hash r (hash k).val :=
      mem_criticalIdxes_of_full fun i hlo hhi => (hmoves i hlo hhi).1
    -- half of the critical keys, at least eight of them, are not smaller than the split key
    have hlen : (criticalKeys hash r (hash k).val).length ≤ 16 := length_criticalKeys_le
    have hone : [k].countP (fun x => decide (x < sk)) = 0 := by simp [hle]
    have hsplit := List.length_eq_countP_add_countP (fun x => decide (x < sk))
      (l := criticalKeys hash r (hash k).val)
    have hge : ∀ n : Nat, (∀ i : Int, (hash k).val ≤ i → i < (hash k).val + n →
        i ∈ criticalIdxes hash r (hash k).val ∧ r.Moves sk (slot i)) →
        n ≤ (criticalKeys hash r (hash k).val).countP (fun x => decide ¬ decide (x < sk) = true) := by
      intro n hn
      apply le_countP_of_critical fun i hlo hhi => (hn i hlo hhi).1
      intro i hlo hhi
      rw [decide_eq_true_eq, decide_eq_true_eq, not_lt]
      exact (hn i hlo hhi).2.2
    have hge8 := hge 8 fun i hlo hhi => ⟨hcrit i hlo hhi, hmoves i hlo hhi⟩
    rw [List.countP_append, hone] at hcount
    -- so all slots are critical, and no other key is that large
    have hall : criticalIdxes hash r (hash k).val = ring (hash k).val := by
      apply criticalIdxes_sublist.eq_of_length
      have hmap : (criticalKeys hash r (hash k).val).length
          = (criticalIdxes hash r (hash k).val).length := List.length_map ..
      have hring : (ring (hash k).val).length = 16 := by simp [ring, leafSpanSize_eq]
      omega
    have hnext : ((hash k).val : Int) + 8 ∈ criticalIdxes hash r (hash k).val := by
      rw [hall, mem_ring]
      omega
    have hstay : ¬ r.Moves sk (slot ((hash k).val + 8)) := by
      intro hnextMoves
      have hge9 := hge 9 fun i hlo hhi => by
        rcases Int.lt_or_eq_of_le (Int.le_of_lt_add_one (by omega : i < (hash k).val + 8 + 1)) with h | rfl
        . exact ⟨hcrit i hlo h, hmoves i hlo h⟩
        . exact ⟨hnext, hnextMoves⟩
      omega
    obtain ⟨e, he, hee⟩ := findEmpty_of_null (show ((hash k).val : Int) ≤ (hash k).val + 8 by omega)
      (by omega) (hm.kept (.inr hstay)).2
    obtain ⟨helo, hehi, henull, hfull⟩ := findEmpty_iff.mp he
    obtain rfl : e = (hash k).val + 8 := by
      by_contra hne
      exact hnull ⟨e, helo, by omega, henull⟩
    refine ⟨_, helo, hehi, henull, hfull, ?_⟩
    rw [← (of_mem_criticalIdxes hnext).2.2.2]
    apply hopReaches_congr
    intro i hlo hhi
    exact congrArg Prod.fst (hm.moved (by simp) (hmoves i hlo hhi)).2

/-- The first slot from the home of `k` on whose record is not moved hops into the neighborhood. -/
def Splittable (hash : Key → Fin leafSpanSize) (r : HopRecords) (k : Key) : Prop :=
  Upper hash r k k → ∃ i : Int, (hash k).val ≤ i ∧ i < (hash k).val + leafSpanSize
    ∧ ¬ ((r.getEntry i).key ≠ kkeyNull ∧ Upper hash r k (r.getEntry i).key)
    ∧ (∀ j : Int, (hash k).val ≤ j → j < i →
        (r.getEntry j).key ≠ kkeyNull ∧ Upper hash r k (r.getEntry j).key)
    ∧ hopReaches hash r (hash k).val i leafSpanSize = true

theorem splittable_iff (hm : Moved hash sk r [] a b) (hsk : ∀ x, sk ≤ x ↔ Upper hash r k x)
    : Splittable hash r k ↔ (sk ≤ k → b.Takes hash k leafSpanSize) := by
  have hmoves : ∀ {i}, (r.getEntry i).key ≠ kkeyNull ∧ Upper hash r k (r.getEntry i).key
      ↔ (b.getEntry i).key ≠ kkeyNull := by
    intro i
    rw [← hsk]
    by_cases hi : r.Moves sk (slot i)
    . refine iff_of_true hi ?_
      rw [show (b.getEntry i).key = _ from congrArg Prod.fst (hm.moved (by simp) hi).2]
      exact hi.1
    . exact iff_of_false hi (not_not_intro (hm.kept (.inr hi)).2)
  have hkey : ∀ {i}, (b.getEntry i).key ≠ kkeyNull → (b.getEntry i).key = (r.getEntry i).key := by
    intro i hi
    exact congrArg Prod.fst (hm.moved (by simp) ⟨(hmoves.mpr hi).1, (hsk _).mpr (hmoves.mpr hi).2⟩).2
  unfold Splittable HopRecords.Takes
  rw [← hsk]
  simp only [hmoves, not_not]
  apply imp_congr_right
  intro _
  apply exists_congr
  intro i
  simp only [and_congr_right_iff]
  intro _ _ _ hfull
  rw [hopReaches_congr fun j hlo hhi => hkey (hfull j hlo hhi)]

theorem home_ne_null_of_fail {s : HopRecords} {n : Nat} (hn : 1 ≤ n)
    (hfail : hopscotchInsert hash s k v n = .ok none)
    : (s.get (hash k)).key ≠ kkeyNull := by
  have h8 := neighborSize_eq
  intro hnull
  have he : findEmpty s (hash k).val n = some ((hash k).val : Int) := by
    cases he : findEmpty s (hash k).val n with
    | none =>
      have hne := findEmpty_eq_none he (show ((hash k).val : Int) ≤ (hash k).val by omega) (by omega)
      rw [HopRecords.getEntry_val] at hne
      exact absurd hnull hne
    | some e =>
      obtain ⟨hlo, -, -, -, hfull⟩ := findEmpty_eq_some he
      rw [Option.some.injEq]
      by_contra hne
      have hhome := hfull (hash k).val (by omega) (by omega)
      rw [HopRecords.getEntry_val] at hhome
      exact hhome hnull
  unfold hopscotchInsert at hfail
  rw [he] at hfail
  change (nextHop hash true k v s (hash k).val [] (15 + 1) >>= _) = _ at hfail
  rw [nextHop, if_pos (by omega)] at hfail
  cases hp : place hash s k v (hash k).val with
  | error x =>
    rw [hp] at hfail
    cases hfail
  | ok s' =>
    rw [hp] at hfail
    cases hfail

namespace Moved

theorem copies (hm : Moved hash sk r [] a b) {x : Key × Value} (hx : x.1 ≠ kkeyNull)
    : a.copies x + b.copies x = r.copies x := by
  classical
  unfold HopRecords.copies
  rw [← Finset.card_filter_add_card_filter_not (s := Finset.univ.filter fun p => r.kv p = x) (r.Moves sk),
    add_comm, Finset.filter_filter, Finset.filter_filter]
  congr 2
  . ext p
    simp only [Finset.mem_filter, Finset.mem_univ, true_and]
    by_cases hmoves : r.Moves sk p
    . simp [(hm.moved (by simp) hmoves).2, hmoves]
    . simp only [hmoves, and_false, iff_false]
      rintro rfl
      exact hx (hm.kept (.inr hmoves)).2
  . ext p
    simp only [Finset.mem_filter, Finset.mem_univ, true_and]
    by_cases hmoves : r.Moves sk p
    . simp only [hmoves, not_true, and_false, iff_false]
      rintro rfl
      exact hx (hm.moved (by simp) hmoves).1
    . simp [(hm.kept (.inr hmoves)).1, hmoves]

theorem lt_of_stores_leaf (hm : Moved hash sk r [] a b) {k' : Key} (h : a.Stores k') : k' < sk := by
  obtain ⟨hne, p, rfl⟩ := h
  by_cases hmoves : r.Moves sk p
  . exact absurd (hm.moved (by simp) hmoves).1 hne
  . have hkey : (a.get p).key = (r.get p).key := congrArg Prod.fst (hm.kept (.inr hmoves)).1
    rw [hkey] at hne ⊢
    exact not_le.mp fun hle => hmoves ⟨hne, hle⟩

theorem le_of_stores_syn (hm : Moved hash sk r [] a b) {k' : Key} (h : b.Stores k') : sk ≤ k' := by
  obtain ⟨hne, p, rfl⟩ := h
  by_cases hmoves : r.Moves sk p
  . have hkey : (b.get p).key = (r.get p).key := congrArg Prod.fst (hm.moved (by simp) hmoves).2
    rw [hkey]
    exact hmoves.2
  . exact absurd (hm.kept (.inr hmoves)).2 hne

theorem key_eq (hm : Moved hash sk r [] a b) {p : Fin leafSpanSize}
    : ((a.get p).key ≠ kkeyNull → (a.get p).key = (r.get p).key)
        ∧ ((b.get p).key ≠ kkeyNull → (b.get p).key = (r.get p).key) := by
  by_cases hmoves : r.Moves sk p
  . exact ⟨fun h => absurd (hm.moved (by simp) hmoves).1 h,
      fun _ => congrArg Prod.fst (hm.moved (by simp) hmoves).2⟩
  . exact ⟨fun _ => congrArg Prod.fst (hm.kept (.inr hmoves)).1,
      fun h => absurd (hm.kept (.inr hmoves)).2 h⟩

theorem distinct (hm : Moved hash sk r [] a b) (hdist : r.Distinct) : a.Distinct ∧ b.Distinct := by
  constructor
  . intro p q hp heq
    have hq : (a.get q).key ≠ kkeyNull := heq ▸ hp
    rw [hm.key_eq.1 hp, hm.key_eq.1 hq] at heq
    rw [hm.key_eq.1 hp] at hp
    exact hdist p q hp heq
  . intro p q hp heq
    have hq : (b.get q).key ≠ kkeyNull := heq ▸ hp
    rw [hm.key_eq.2 hp, hm.key_eq.2 hq] at heq
    rw [hm.key_eq.2 hp] at hp
    exact hdist p q hp heq

theorem stores_of (hm : Moved hash sk r [] a b) {k' : Key} (h : a.Stores k' ∨ b.Stores k')
    : r.Stores k' := by
  rcases h with ⟨hne, p, rfl⟩ | ⟨hne, p, rfl⟩
  . exact ⟨hne, p, (hm.key_eq.1 hne).symm⟩
  . exact ⟨hne, p, (hm.key_eq.2 hne).symm⟩

end Moved

theorem HopRecords.stores_iff {r : HopRecords} {k : Key} : r.Stores k ↔ ∃ v, r.Has k v := by
  constructor
  . rintro ⟨hne, p, rfl⟩
    exact ⟨_, hne, p, rfl⟩
  . rintro ⟨v, hne, p, hp⟩
    exact ⟨hne, p, congrArg Prod.fst hp⟩

theorem Hops.stores_iff {r' : HopRecords} {e : Int} {l : List Nat} (hh : Hops hash r k v e l r')
    (hk : k ≠ kkeyNull) {k' : Key}
    : r'.Stores k' ↔ r.Stores k' ∨ k' = k := by
  rw [HopRecords.stores_iff, HopRecords.stores_iff]
  simp only [hh.has_iff hk, exists_or, exists_and_left, exists_eq, and_true]

/-- The two nodes after a split divide the old records and the new one between them. -/
structure SplitInto (hash : Key → Fin leafSpanSize) (r : HopRecords) (k : Key) (v : Value)
    (a b : HopRecords) : Prop where
  invLeaf : a.Inv hash
  invSyn : b.Inv hash
  disjoint : ∀ k', ¬ (a.Stores k' ∧ b.Stores k')
  copies : ∀ x : Key × Value, x.1 ≠ kkeyNull →
    a.copies x + b.copies x = r.copies x + if x = (k, v) then 1 else 0
  distinct : r.Distinct → ¬ r.Stores k → a.Distinct ∧ b.Distinct

theorem SplitInto.has_iff (h : SplitInto hash r k v a b) (hk : k ≠ kkeyNull) (k' : Key) (v' : Value)
    : a.Has k' v' ∨ b.Has k' v' ↔ r.Has k' v' ∨ (k' = k ∧ v' = v) := by
  by_cases hk' : k' = kkeyNull
  . simp [HopRecords.has_iff_copies, hk', hk.symm]
  . have hsum := h.copies (k', v') hk'
    simp only [HopRecords.has_iff_copies, ne_eq, hk', not_false_eq_true, true_and, ← Prod.mk.injEq]
    split at hsum
    . next heq =>
      simp only [heq, or_true, iff_true] at hsum ⊢
      omega
    . next hne =>
      simp only [hne, or_false]
      omega

theorem Moved.splitLeaf {a' : HopRecords} {e : Int} {l : List Nat} (hm : Moved hash sk r [] a b)
    (hk : k ≠ kkeyNull) (hlt : k < sk) (hh : Hops hash a k v e l a')
    : SplitInto hash r k v a' b where
  invLeaf := hh.inv hk
  invSyn := hm.invSyn
  disjoint := by
    rintro k' ⟨ha, hb⟩
    have hge := hm.le_of_stores_syn hb
    rcases (hh.stores_iff hk).mp ha with ha | rfl
    . exact absurd (hm.lt_of_stores_leaf ha) (not_lt.mpr hge)
    . exact absurd hlt (not_lt.mpr hge)
  copies := by
    intro x hx
    rw [hh.copies hx, ← hm.copies hx, Nat.add_right_comm]
  distinct hdist hfresh :=
    ⟨hh.distinct (hm.distinct hdist).1 (fun h => hfresh (hm.stores_of (.inl h))) hk, (hm.distinct hdist).2⟩

theorem Moved.splitSyn {b' : HopRecords} {e : Int} {l : List Nat} (hm : Moved hash sk r [] a b)
    (hk : k ≠ kkeyNull) (hge : sk ≤ k) (hh : Hops hash b k v e l b')
    : SplitInto hash r k v a b' where
  invLeaf := hm.invLeaf
  invSyn := hh.inv hk
  disjoint := by
    rintro k' ⟨ha, hb⟩
    have hlt := hm.lt_of_stores_leaf ha
    rcases (hh.stores_iff hk).mp hb with hb | rfl
    . exact absurd hlt (not_lt.mpr (hm.le_of_stores_syn hb))
    . exact absurd hlt (not_lt.mpr hge)
  copies := by
    intro x hx
    rw [hh.copies hx, ← hm.copies hx, Nat.add_assoc]
  distinct hdist hfresh :=
    ⟨(hm.distinct hdist).1, hh.distinct (hm.distinct hdist).2 (fun h => hfresh (hm.stores_of (.inr h))) hk⟩

/-- The nodes that `hopscotch_split_and_unlock` writes. -/
def splitNodes (leaf : HopNode) (synonymAddr : GlobalAddress) (a b : HopRecords) : HopNode × HopNode :=
  (⟨{ leaf.metadata with synonymPtr := synonymAddr }, a⟩, { HopNode.zero with records := b })

theorem hopscotchSplit_eq {leaf : HopNode} (hinv : leaf.records.Inv hash)
    (hsk : hopscotchGetSplitKey hash leaf.records k = .ok sk) (v : Value) (synonymAddr : GlobalAddress)
    : ∃ a b, Moved hash sk leaf.records [] a b
        ∧ (k < sk → hopscotchSplit hash leaf k v synonymAddr
            = (hopscotchInsertLocally hash a k v).map fun a' => splitNodes leaf synonymAddr a' b)
        ∧ (sk ≤ k → hopscotchSplit hash leaf k v synonymAddr
            = (hopscotchInsertLocally hash b k v).map fun b' => splitNodes leaf synonymAddr a b') := by
  obtain ⟨a, b, hmove, hm⟩ := moveEntries_spec hinv sk
  unfold hopscotchSplit
  rw [hsk]
  dsimp only [bind, Except.bind]
  rw [hmove]
  dsimp only
  refine ⟨a, b, hm, ?_, ?_⟩
  . intro hlt
    rw [if_pos hlt]
    cases hopscotchInsertLocally hash a k v with
    | error x => rfl
    | ok a' => rfl
  . intro hle
    rw [if_neg (not_lt.mpr hle)]
    cases hopscotchInsertLocally hash b k v with
    | error x => rfl
    | ok b' => rfl

theorem hopscotchSplit_ok_iff {leaf : HopNode} (hinv : leaf.records.Inv hash)
    (hcrit : criticalKeys hash leaf.records (hash k).val ≠ []) (v : Value) (synonymAddr : GlobalAddress)
    : (∃ leaf' syn, hopscotchSplit hash leaf k v synonymAddr = .ok (leaf', syn))
        ↔ Splittable hash leaf.records k := by
  obtain ⟨sk, hsk, hupper, hcount, -⟩ := hopscotchGetSplitKey_spec hcrit
  obtain ⟨a, b, hm, hleaf, hsyn⟩ := hopscotchSplit_eq hinv hsk v synonymAddr
  have hmap : ∀ (x : Except Assertion HopRecords) (f : HopRecords → HopNode × HopNode),
      (∃ leaf' syn, x.map f = .ok (leaf', syn)) ↔ ∃ r', x = .ok r' := by
    rintro (x | r') f
    . simp [Except.map]
    . exact iff_of_true ⟨_, _, rfl⟩ ⟨r', rfl⟩
  rw [splittable_iff hm hupper]
  by_cases hlt : k < sk
  . rw [hleaf hlt, hmap, hopscotchInsertLocally_ok_iff hm.invLeaf]
    exact iff_of_true (takes_leaf hm hlt hcount) fun hle => absurd hlt (not_lt.mpr hle)
  . rw [hsyn (not_lt.mp hlt), hmap, hopscotchInsertLocally_ok_iff hm.invSyn, imp_iff_right (not_lt.mp hlt)]

theorem splittable_of_distinct (hinv : r.Inv hash) (hcrit : criticalKeys hash r (hash k).val ≠ [])
    (hk : k ≠ kkeyNull) (hdist : r.Distinct) (hfresh : ¬ r.Stores k)
    : Splittable hash r k := by
  obtain ⟨sk, -, hupper, -, hcount⟩ := hopscotchGetSplitKey_spec hcrit
  obtain ⟨a, b, -, hm⟩ := moveEntries_spec hinv sk
  rw [splittable_iff hm hupper]
  intro hle
  exact takes_syn hm hle (hcount hdist hk hfresh)

theorem error_of_getSplitKey {x : Assertion} (herr : hopscotchGetSplitKey hash r k = .error x)
    : x = .criticalKeys := by
  unfold hopscotchGetSplitKey at herr
  dsimp only at herr
  split at herr
  . cases herr
    rfl
  . cases herr

/-- What a split that goes through has done: the moves, and then the hops in one of the two nodes. -/
theorem hops_of_split_ok {leaf leaf' syn : HopNode} {synonymAddr : GlobalAddress}
    (hinv : leaf.records.Inv hash)
    (hok : hopscotchSplit hash leaf k v synonymAddr = .ok (leaf', syn))
    : ∃ sk a b e l, Moved hash sk leaf.records [] a b
        ∧ ((k < sk ∧ ∃ a', Hops hash a k v e l a' ∧ (leaf', syn) = splitNodes leaf synonymAddr a' b)
          ∨ (sk ≤ k ∧ ∃ b', Hops hash b k v e l b' ∧ (leaf', syn) = splitNodes leaf synonymAddr a b')) := by
  cases hsk : hopscotchGetSplitKey hash leaf.records k with
  | error x =>
    unfold hopscotchSplit at hok
    rw [hsk] at hok
    cases hok
  | ok sk =>
    obtain ⟨a, b, hm, hleaf, hsyn⟩ := hopscotchSplit_eq hinv hsk v synonymAddr
    by_cases hlt : k < sk
    . rw [hleaf hlt] at hok
      cases heq : hopscotchInsertLocally hash a k v with
      | error x =>
        rw [heq] at hok
        cases hok
      | ok a' =>
        obtain ⟨e, l, hh⟩ := hops_of_insertLocally hm.invLeaf heq
        rw [heq] at hok
        exact ⟨sk, a, b, e, l, hm, .inl ⟨hlt, a', hh, (Except.ok.inj hok).symm⟩⟩
    . rw [hsyn (not_lt.mp hlt)] at hok
      cases heq : hopscotchInsertLocally hash b k v with
      | error x =>
        rw [heq] at hok
        cases hok
      | ok b' =>
        obtain ⟨e, l, hh⟩ := hops_of_insertLocally hm.invSyn heq
        rw [heq] at hok
        exact ⟨sk, a, b, e, l, hm, .inr ⟨not_lt.mp hlt, b', hh, (Except.ok.inj hok).symm⟩⟩

theorem splitInto_of_ok {leaf leaf' syn : HopNode} {synonymAddr : GlobalAddress}
    (hinv : leaf.records.Inv hash) (hk : k ≠ kkeyNull)
    (hok : hopscotchSplit hash leaf k v synonymAddr = .ok (leaf', syn))
    : SplitInto hash leaf.records k v leaf'.records syn.records
        ∧ leaf'.metadata.synonymPtr = synonymAddr := by
  obtain ⟨sk, a, b, e, l, hm, ⟨hlt, a', hh, heq⟩ | ⟨hle, b', hh, heq⟩⟩ := hops_of_split_ok hinv hok
  . cases heq
    exact ⟨hm.splitLeaf hk hlt hh, rfl⟩
  . cases heq
    exact ⟨hm.splitSyn hk hle hh, rfl⟩

/-- A split fails only for want of critical keys, of an empty slot or of a hop. -/
theorem error_of_split {leaf : HopNode} {synonymAddr : GlobalAddress} (hinv : leaf.records.Inv hash)
    {x : Assertion} (herr : hopscotchSplit hash leaf k v synonymAddr = .error x)
    : x = .criticalKeys ∨ x = .emptySlot ∨ x = .hopFails := by
  cases hsk : hopscotchGetSplitKey hash leaf.records k with
  | error y =>
    unfold hopscotchSplit at herr
    rw [hsk] at herr
    cases herr
    exact .inl (error_of_getSplitKey hsk)
  | ok sk =>
    obtain ⟨a, b, hm, hleaf, hsyn⟩ := hopscotchSplit_eq hinv hsk v synonymAddr
    right
    by_cases hlt : k < sk
    . rw [hleaf hlt] at herr
      cases heq : hopscotchInsertLocally hash a k v with
      | error y =>
        rw [heq] at herr
        cases herr
        exact error_of_insertLocally hm.invLeaf heq
      | ok a' =>
        rw [heq] at herr
        cases herr
    . rw [hsyn (not_lt.mp hlt)] at herr
      cases heq : hopscotchInsertLocally hash b k v with
      | error y =>
        rw [heq] at herr
        cases herr
        exact error_of_insertLocally hm.invSyn heq
      | ok b' =>
        rw [heq] at herr
        cases herr

end Rolex

import Rolex.Leaf.Sorted
import Mathlib.Data.Set.Insert

/-!
This module contains what an insert or an update computes locally on a leaf and its synonym leaf,
between reading the two nodes and writing them back, and the invariant that ties the two together.
-/

namespace Rolex

/-- What `RolexIndex::insert_into_syn_leaf_locally` does. -/
inductive SynInsert where
  /-- `GlobalAddress::Max()`: the key exists. -/
  | existing
  /-- There was no synonym leaf, this one is to be placed at an address to be allocated. -/
  | allocated (synLeaf : LeafNode)
  /--
  `GlobalAddress::Null()`: the synonym leaf after the insert, and the indices not below `leafSpanSize`
  that were assigned.
  -/
  | stored (synLeaf : LeafNode) (overrun : List Nat)

def LeafNode.newSyn (k : Key) (v : Value) : LeafNode :=
  { LeafNode.zero with records := LeafNode.zero.records.update 0 k v }

def insertIntoSynLeafLocally (k : Key) (v : Value) : Option LeafNode → SynInsert
  | none => .allocated (LeafNode.newSyn k v)
  | some synLeaf =>
    match synLeaf.records.findSlot k with
    | .existing => .existing
    | .free i =>
      let j := synLeaf.records.firstNull i
      let j := if j = leafSpanSize then j - 1 else j
      .stored { synLeaf with records := synLeaf.records.shiftInsert i j k v }
        (if i < leafSpanSize then [] else [i])

/-- What an insert is going to write. -/
inductive Plan where
  /-- The key exists, the lock is released and nothing is written. -/
  | existing
  | writeLeaf (leaf : LeafNode)
  | writeSyn (synLeaf : LeafNode) (overrun : List Nat)
  | writeBoth (leaf synLeaf : LeafNode) (overrun : List Nat)
  /-- Both nodes, after the leaf has been given the address allocated for the synonym leaf. -/
  | link (leaf synLeaf : LeafNode)

/-- Step 3 of `RolexIndex::insert`, the sorted leaf branch. -/
def insertLocally (k : Key) (v : Value) (leaf : LeafNode) (synLeaf : Option LeafNode) : Plan :=
  match leaf.records.findSlot k with
  | .existing => .existing
  | .free i =>
    if i = leafSpanSize then
      -- insert k into the synonym leaf
      match insertIntoSynLeafLocally k v synLeaf with
      | .existing => .existing
      | .allocated synLeaf => .link leaf synLeaf
      | .stored synLeaf overrun => .writeSyn synLeaf overrun
    else
      -- insert k into the leaf
      let j := leaf.records.firstNull i
      if j = leafSpanSize then
        -- overflow the last k to the synonym leaf
        let last := leaf.records.get (j - 1)
        let leaf := { leaf with records := leaf.records.shiftInsert i (leafSpanSize - 1) k v }
        match insertIntoSynLeafLocally last.key last.value synLeaf with
        | .existing => .existing
        | .allocated synLeaf => .link leaf synLeaf
        | .stored synLeaf overrun => .writeBoth leaf synLeaf overrun
      else
        .writeLeaf { leaf with records := leaf.records.shiftInsert i j k v }

/-- The record indices behind the array that an insert assigns. -/
def Plan.overrun : Plan → List Nat
  | .existing => []
  | .writeLeaf _ => []
  | .writeSyn _ overrun => overrun
  | .writeBoth _ _ overrun => overrun
  | .link _ _ => []

/-- Step 3 of `RolexIndex::update` on one node, `none` when it does not hold the key. -/
def updateLocally (k : Key) (v : Value) (leaf : LeafNode) : Option LeafNode :=
  let i := leaf.records.toList.findIdx (fun e => e.key = k)
  if i < leafSpanSize then
    some { leaf with records := leaf.records.update i k v }
  else
    none

/-- A leaf and, if it has one, its synonym leaf. -/
structure Group where
  leaf : LeafNode
  syn : Option LeafNode

def LeafNode.link (leaf : LeafNode) (addr : GlobalAddress) : LeafNode :=
  { leaf with metadata := { leaf.metadata with synonymPtr := addr } }

/-- The nodes after the writes of a plan, `addr` being the allocated address. -/
def Plan.apply (addr : GlobalAddress) (g : Group) : Plan → Group
  | .existing => g
  | .writeLeaf leaf => { g with leaf := leaf.bumpNodeVersions }
  | .writeSyn synLeaf _ => { g with syn := some synLeaf.bumpNodeVersions }
  | .writeBoth leaf synLeaf _ => ⟨leaf.bumpNodeVersions, some synLeaf.bumpNodeVersions⟩
  | .link leaf synLeaf => ⟨(leaf.link addr).bumpNodeVersions, some synLeaf.bumpNodeVersions⟩

namespace Group

def insert (addr : GlobalAddress) (k : Key) (v : Value) (g : Group) : Group :=
  (insertLocally k v g.leaf g.syn).apply addr g

def Has (g : Group) (k : Key) (v : Value) : Prop :=
  g.leaf.records.Has k v ∨ ∃ s, g.syn = some s ∧ s.records.Has k v

/--
The invariant of a leaf and its synonym leaf: both sorted, the synonym leaf present exactly when the
pointer is set, then the leaf full and all its keys below those of the synonym leaf.
-/
structure Inv (g : Group) : Prop where
  leaf : ∃ n, g.leaf.records.Sorted n
  ptr : g.syn = none ↔ g.leaf.metadata.synonymPtr = GlobalAddress.null
  full : ∀ s, g.syn = some s → g.leaf.records.Sorted leafSpanSize
  syn : ∀ s, g.syn = some s → ∃ m, 0 < m ∧ s.records.Sorted m
  lt : ∀ s, g.syn = some s → ∀ t u, t < leafSpanSize → (s.records.get u).key ≠ kkeyNull →
    (g.leaf.records.get t).key < (s.records.get u).key

/-- There is room for one more pair: in the leaf, in the synonym leaf, or in one yet to be made. -/
def Room (g : Group) : Prop :=
  (∃ t, t < leafSpanSize ∧ (g.leaf.records.get t).key = kkeyNull) ∨ g.syn = none
    ∨ ∃ s, g.syn = some s ∧ ∃ t, t < leafSpanSize ∧ (s.records.get t).key = kkeyNull

end Group

/-- The slot `i` splits the first `n` keys around `k`. -/
structure Records.Splits (r : Records) (n i : Nat) (k : Key) : Prop where
  le : i ≤ n
  below : ∀ t, t < i → (r.get t).key < k
  above : ∀ t, i ≤ t → t < n → k < (r.get t).key

/-- What storing an absent pair in a sorted synonym leaf comes to. -/
inductive SynCase (s : LeafNode) (k : Key) (v : Value) : LeafNode → List Nat → Prop
  | room {m i : Nat} (hs : s.records.Sorted m) (hm : m < leafSpanSize)
      (hi : s.records.Splits m i k) :
      SynCase s k v { s with records := s.records.shiftInsert i m k v } []
  /-- No room: the last record is overwritten. -/
  | drop {i : Nat} (hs : s.records.Sorted leafSpanSize) (hlt : i < leafSpanSize)
      (hi : s.records.Splits leafSpanSize i k) :
      SynCase s k v { s with records := s.records.shiftInsert i (leafSpanSize - 1) k v } []
  /-- No room and no larger key: the store goes behind the array. -/
  | overrun (hs : s.records.Sorted leafSpanSize)
      (hbelow : ∀ t, t < leafSpanSize → (s.records.get t).key < k) :
      SynCase s k v s [leafSpanSize]

/-- What an insert into a leaf and its synonym leaf comes to. -/
inductive InsertCase (g : Group) (k : Key) (v : Value) : Plan → Prop
  | existing {w : Value} (h : g.Has k w) : InsertCase g k v .existing
  | leaf {n i : Nat} (hn : g.leaf.records.Sorted n) (hlt : n < leafSpanSize) (hsyn : g.syn = none)
      (hi : g.leaf.records.Splits n i k) :
      InsertCase g k v (.writeLeaf { g.leaf with records := g.leaf.records.shiftInsert i n k v })
  | newSyn (hn : g.leaf.records.Sorted leafSpanSize) (hsyn : g.syn = none)
      (hi : g.leaf.records.Splits leafSpanSize leafSpanSize k) :
      InsertCase g k v (.link g.leaf (LeafNode.newSyn k v))
  | overflowNew {i : Nat} (hn : g.leaf.records.Sorted leafSpanSize) (hsyn : g.syn = none)
      (hlt : i < leafSpanSize) (hi : g.leaf.records.Splits leafSpanSize i k) :
      InsertCase g k v (.link
        { g.leaf with records := g.leaf.records.shiftInsert i (leafSpanSize - 1) k v }
        (LeafNode.newSyn (g.leaf.records.get (leafSpanSize - 1)).key
          (g.leaf.records.get (leafSpanSize - 1)).value))
  | syn {s s' : LeafNode} {overrun : List Nat} (hn : g.leaf.records.Sorted leafSpanSize)
      (hsyn : g.syn = some s) (hi : g.leaf.records.Splits leafSpanSize leafSpanSize k)
      (hs : SynCase s k v s' overrun) :
      InsertCase g k v (.writeSyn s' overrun)
  | overflow {s s' : LeafNode} {i : Nat} {overrun : List Nat}
      (hn : g.leaf.records.Sorted leafSpanSize) (hsyn : g.syn = some s)
      (hlt : i < leafSpanSize) (hi : g.leaf.records.Splits leafSpanSize i k)
      (hs : SynCase s (g.leaf.records.get (leafSpanSize - 1)).key
        (g.leaf.records.get (leafSpanSize - 1)).value s' overrun) :
      InsertCase g k v (.writeBoth
        { g.leaf with records := g.leaf.records.shiftInsert i (leafSpanSize - 1) k v } s' overrun)

theorem Records.Sorted.findSlot_cases {r : Records} {n : Nat} (h : r.Sorted n) {k : Key}
    (hk : k ≠ kkeyNull)
    : (r.findSlot k = .existing ∧ ∃ t, t < n ∧ (r.get t).key = k)
        ∨
      ∃ i, r.findSlot k = .free i ∧ r.Splits n i k := by
  rcases h.findSlot_spec hk with hex | ⟨i, hfree, hle, hbelow, habove⟩
  . exact .inl hex
  . exact .inr ⟨i, hfree, hle, hbelow, habove⟩

theorem insertIntoSynLeafLocally_cases {s : LeafNode} {m : Nat} (hs : s.records.Sorted m) {k : Key}
    (hk : k ≠ kkeyNull) (v : Value)
    : (insertIntoSynLeafLocally k v (some s) = .existing ∧ ∃ t, t < m ∧ (s.records.get t).key = k)
        ∨
      ∃ s' overrun, insertIntoSynLeafLocally k v (some s) = .stored s' overrun
        ∧ SynCase s k v s' overrun := by
  unfold insertIntoSynLeafLocally
  rcases hs.findSlot_cases hk with ⟨hex, ht⟩ | ⟨i, hfree, hi⟩
  . left
    simpa [hex] using ht
  . right
    simp only [hfree, hs.firstNull_eq hi.le]
    refine ⟨_, _, rfl, ?_⟩
    have hle := hs.le
    have hile := hi.le
    by_cases hm : m = leafSpanSize
    . subst hm
      rw [if_pos rfl]
      by_cases hlt : i < leafSpanSize
      . rw [if_pos hlt]
        exact .drop hs hlt hi
      . have heq : i = leafSpanSize := by omega
        subst heq
        rw [if_neg hlt, Records.shiftInsert_of_le _ _ _ (Nat.le_refl _) (by omega)]
        exact .overrun hs hi.below
    . rw [if_neg hm, if_pos (by omega)]
      exact .room hs (by omega) hi

theorem Records.has_of_get {r : Records} {t : Nat} (ht : t < leafSpanSize)
    : r.Has (r.get t).key (r.get t).value := ⟨t, ht, rfl, rfl⟩

theorem insertLocally_cases {g : Group} (h : g.Inv) {k : Key} (hk : k ≠ kkeyNull) (v : Value)
    : InsertCase g k v (insertLocally k v g.leaf g.syn) := by
  obtain ⟨n, hn⟩ := h.leaf
  have hnle := hn.le
  unfold insertLocally
  rcases hn.findSlot_cases hk with ⟨hex, t, ht, rfl⟩ | ⟨i, hfree, hi⟩
  . rw [hex]
    exact .existing (.inl (Records.has_of_get (by omega)))
  . have hile := hi.le
    rw [hfree]
    simp only [hn.firstNull_eq hi.le]
    by_cases hlt : n < leafSpanSize
    . -- room in the leaf, which therefore has no synonym leaf
      have hsyn : g.syn = none := by
        cases hs : g.syn with
        | none => rfl
        | some s =>
          have := hn.unique (h.full s hs)
          omega
      rw [if_neg (by omega), if_neg (by omega)]
      exact .leaf hn hlt hsyn hi
    . have heq : n = leafSpanSize := by omega
      subst heq
      by_cases hend : i = leafSpanSize
      . subst hend
        rw [if_pos rfl]
        cases hsyn : g.syn with
        | none => exact .newSyn hn hsyn hi
        | some s =>
          obtain ⟨m, -, hs⟩ := h.syn s hsyn
          have hmle := hs.le
          rcases insertIntoSynLeafLocally_cases hs hk v with ⟨hres, t, ht, rfl⟩ | ⟨s', o, hres, hc⟩
          . rw [hres]
            exact .existing (.inr ⟨s, hsyn, Records.has_of_get (by omega)⟩)
          . rw [hres]
            exact .syn hn hsyn hi hc
      . have hlt' : i < leafSpanSize := by omega
        rw [if_neg hend, if_pos rfl]
        cases hsyn : g.syn with
        | none => exact .overflowNew hn hsyn hlt' hi
        | some s =>
          obtain ⟨m, -, hs⟩ := h.syn s hsyn
          have hlive : (g.leaf.records.get (leafSpanSize - 1)).key ≠ kkeyNull :=
            hn.live _ (by omega)
          rcases insertIntoSynLeafLocally_cases hs hlive
            (g.leaf.records.get (leafSpanSize - 1)).value with ⟨-, t, ht, heq⟩ | ⟨s', o, hres, hc⟩
          . -- the overflowed key is below every key of the synonym leaf
            have := h.lt s hsyn (leafSpanSize - 1) t (by omega) (hs.live t ht)
            rw [heq] at this
            exact absurd this (lt_irrefl _)
          . rw [hres]
            exact .overflow hn hsyn hlt' hi hc

@[simp]
theorem LeafNode.sorted_bumpNodeVersions {n : LeafNode} {m : Nat}
    : n.bumpNodeVersions.records.Sorted m ↔ n.records.Sorted m := by
  constructor
  . intro h
    exact ⟨h.le, by simpa using h.live, by simpa using h.dead, by simpa using h.lt⟩
  . intro h
    exact ⟨h.le, by simpa using h.live, by simpa using h.dead, by simpa using h.lt⟩

@[simp]
theorem LeafNode.has_bumpNodeVersions {n : LeafNode} {k : Key} {v : Value}
    : n.bumpNodeVersions.records.Has k v ↔ n.records.Has k v := by
  simp [Records.Has]

theorem LeafNode.newSyn_get (k : Key) (v : Value) (t : Nat)
    : ((newSyn k v).records.get t).key = (if t = 0 then k else kkeyNull)
        ∧ ((newSyn k v).records.get t).value = (if t = 0 then v else kValueNull) := by
  have hpos : 0 < leafSpanSize := by decide
  unfold newSyn Records.update
  dsimp only
  rw [Records.get_put]
  by_cases ht : t = 0
  . subst ht
    simp [hpos, LeafEntry.update]
  . have : ¬ 0 = t := fun e => ht e.symm
    simp [ht, this, LeafEntry.null]

theorem LeafNode.newSyn_sorted {k : Key} (hk : k ≠ kkeyNull) (v : Value)
    : (newSyn k v).records.Sorted 1 where
  le := by decide
  live := by
    intro t ht
    rw [(newSyn_get k v t).1, if_pos (by omega)]
    exact hk
  dead := by
    intro t ht
    rw [(newSyn_get k v t).1, if_neg (by omega)]
  lt := by
    intro s t hst ht
    omega

theorem LeafNode.newSyn_has {k : Key} {v : Value} {k' : Key} {v' : Value} (hk' : k' ≠ kkeyNull)
    : (newSyn k v).records.Has k' v' ↔ k' = k ∧ v' = v := by
  constructor
  . rintro ⟨t, ht, hkey, hval⟩
    rw [(newSyn_get k v t).1] at hkey
    rw [(newSyn_get k v t).2] at hval
    by_cases h0 : t = 0
    . rw [if_pos h0] at hkey hval
      exact ⟨hkey.symm, hval.symm⟩
    . rw [if_neg h0] at hkey
      exact absurd hkey.symm hk'
  . rintro ⟨rfl, rfl⟩
    exact ⟨0, by decide, by simp [newSyn_get], by simp [newSyn_get]⟩

section Records

variable {r : Records} {n i : Nat} {k : Key} {v : Value}

theorem Records.Splits.sorted_shiftInsert_room (hi : r.Splits n i k) (hn : r.Sorted n)
    (hlt : n < leafSpanSize) (hk : k ≠ kkeyNull)
    : (r.shiftInsert i n k v).Sorted (n + 1) :=
  hn.shiftInsert v hk hi.le hlt (Nat.le_refl _) (by omega) hi.below hi.above

theorem Records.Splits.sorted_shiftInsert_full (hi : r.Splits leafSpanSize i k)
    (hn : r.Sorted leafSpanSize) (hlt : i < leafSpanSize) (hk : k ≠ kkeyNull)
    : (r.shiftInsert i (leafSpanSize - 1) k v).Sorted leafSpanSize :=
  hn.shiftInsert v hk (by omega) (by omega) (by omega) (by omega) hi.below hi.above

theorem Records.Splits.not_has (hi : r.Splits n i k) (hn : r.Sorted n) (hk : k ≠ kkeyNull)
    {w : Value}
    : ¬ r.Has k w := by
  rintro ⟨t, -, rfl, -⟩
  cases Nat.lt_or_ge t i with
  | inl hlt => exact absurd (hi.below t hlt) (lt_irrefl _)
  | inr hge => exact absurd (hi.above t hge (hn.le_of_live hk)) (lt_irrefl _)

theorem Records.Splits.has_shiftInsert_room (hi : r.Splits n i k) (hn : r.Sorted n)
    (hlt : n < leafSpanSize) {k' : Key} {v' : Value} (hk' : k' ≠ kkeyNull)
    : (r.shiftInsert i n k v).Has k' v' ↔ (k' = k ∧ v' = v) ∨ r.Has k' v' := by
  rw [has_shiftInsert hn hi.le hlt (Nat.le_refl _) (by omega) hk', hn.dead n (Nat.le_refl _)]
  simp [hk'.symm]

theorem Records.Sorted.has_shiftInsert_full (hn : r.Sorted leafSpanSize) (hlt : i < leafSpanSize)
    {k' : Key} {v' : Value} (hk' : k' ≠ kkeyNull)
    : (r.shiftInsert i (leafSpanSize - 1) k v).Has k' v'
        ↔
      (k' = k ∧ v' = v) ∨ (r.Has k' v' ∧ (r.get (leafSpanSize - 1)).key ≠ k') :=
  has_shiftInsert hn (by omega) (by omega) (by omega) (by omega) hk'

theorem Records.Sorted.has_last (hn : r.Sorted leafSpanSize)
    : r.Has (r.get (leafSpanSize - 1)).key v ↔ v = (r.get (leafSpanSize - 1)).value := by
  have hpos : 0 < leafSpanSize := by decide
  constructor
  . rintro ⟨t, ht, hkey, hval⟩
    have := hn.key_injective ht (show leafSpanSize - 1 < leafSpanSize by omega) hkey
    rw [← hval, this]
  . rintro rfl
    exact Records.has_of_get (by omega)

end Records

namespace SynCase

variable {s s' : LeafNode} {k : Key} {v : Value} {o : List Nat}

theorem sorted (h : SynCase s k v s' o) (hk : k ≠ kkeyNull)
    : ∃ m, 0 < m ∧ s'.records.Sorted m := by
  cases h with
  | room hs hm hi => exact ⟨_, by omega, hi.sorted_shiftInsert_room hs hm hk⟩
  | drop hs hlt hi => exact ⟨_, by decide, hi.sorted_shiftInsert_full hs hlt hk⟩
  | overrun hs hbelow => exact ⟨_, by decide, hs⟩

theorem not_has (h : SynCase s k v s' o) (hk : k ≠ kkeyNull) {w : Value}
    : ¬ s.records.Has k w := by
  cases h with
  | room hs hm hi => exact hi.not_has hs hk
  | drop hs hlt hi => exact hi.not_has hs hk
  | overrun hs hbelow =>
    rintro ⟨t, ht, rfl, -⟩
    exact absurd (hbelow t ht) (lt_irrefl _)

theorem has_of_has (h : SynCase s k v s' o) {k' : Key} {v' : Value} (hk' : k' ≠ kkeyNull)
    (hhas : s'.records.Has k' v')
    : (k' = k ∧ v' = v) ∨ s.records.Has k' v' := by
  cases h with
  | room hs hm hi => exact (hi.has_shiftInsert_room hs hm hk').mp hhas
  | drop hs hlt hi =>
    rcases (hs.has_shiftInsert_full hlt hk').mp hhas with hnew | hold
    . exact .inl hnew
    . exact .inr hold.1
  | overrun hs hbelow => exact .inr hhas

/-- With a null slot, nothing is lost and every store is inside the array. -/
theorem has_iff_of_room (h : SynCase s k v s' o)
    (hroom : ∃ t, t < leafSpanSize ∧ (s.records.get t).key = kkeyNull) {k' : Key} {v' : Value}
    (hk' : k' ≠ kkeyNull)
    : s'.records.Has k' v' ↔ (k' = k ∧ v' = v) ∨ s.records.Has k' v' := by
  obtain ⟨t, ht, hnull⟩ := hroom
  cases h with
  | room hs hm hi => exact hi.has_shiftInsert_room hs hm hk'
  | drop hs hlt hi => exact absurd hnull (hs.live t ht)
  | overrun hs hbelow => exact absurd hnull (hs.live t ht)

theorem overrun_eq_nil (h : SynCase s k v s' o)
    (hroom : ∃ t, t < leafSpanSize ∧ (s.records.get t).key = kkeyNull)
    : o = [] := by
  obtain ⟨t, ht, hnull⟩ := hroom
  cases h with
  | room hs hm hi => rfl
  | drop hs hlt hi => rfl
  | overrun hs hbelow => exact absurd hnull (hs.live t ht)

end SynCase

namespace InsertCase

variable {g : Group} {k : Key} {v : Value} {p : Plan} {addr : GlobalAddress}

theorem lt_last {i : Nat} (hlt : i < leafSpanSize)
    (hi : g.leaf.records.Splits leafSpanSize i k)
    : k < (g.leaf.records.get (leafSpanSize - 1)).key :=
  hi.above _ (by omega) (by omega)

theorem not_has (h : InsertCase g k v p) (hinv : g.Inv) (hk : k ≠ kkeyNull) (hp : p ≠ .existing)
    {w : Value}
    : ¬ g.Has k w := by
  have hnone : g.syn = none → ∀ {n i}, g.leaf.records.Sorted n → g.leaf.records.Splits n i k →
      ¬ g.Has k w := by
    rintro hsyn n i hn hi (hhas | ⟨s, hs, -⟩)
    . exact hi.not_has hn hk hhas
    . rw [hsyn] at hs
      cases hs
  cases h with
  | existing h => exact absurd rfl hp
  | leaf hn hlt hsyn hi => exact hnone hsyn hn hi
  | newSyn hn hsyn hi => exact hnone hsyn hn hi
  | overflowNew hn hsyn hlt hi => exact hnone hsyn hn hi
  | syn hn hsyn hi hs =>
    rintro (hhas | ⟨s, hs', hhas⟩)
    . exact hi.not_has hn hk hhas
    . obtain rfl := Option.some.inj (hsyn.symm.trans hs')
      exact hs.not_has hk hhas
  | overflow hn hsyn hlt hi hs =>
    rintro (hhas | ⟨s, hs', t, -, rfl, -⟩)
    . exact hi.not_has hn hk hhas
    . have h1 := hinv.lt s hs' (leafSpanSize - 1) t (by omega) hk
      exact absurd (lt_trans h1 (lt_last hlt hi)) (lt_irrefl _)

theorem apply_inv (h : InsertCase g k v p) (hinv : g.Inv) (hk : k ≠ kkeyNull)
    (haddr : addr ≠ GlobalAddress.null)
    : (p.apply addr g).Inv := by
  have hpos : leafSpanSize - 1 < leafSpanSize := by decide
  -- every key of a full leaf that `k` shifts is below the key that overflows
  have hshift : ∀ {i t}, g.leaf.records.Sorted leafSpanSize → i < leafSpanSize →
      g.leaf.records.Splits leafSpanSize i k → t < leafSpanSize →
      ((g.leaf.records.shiftInsert i (leafSpanSize - 1) k v).get t).key
        < (g.leaf.records.get (leafSpanSize - 1)).key := by
    intro i t hn hlt hi ht
    rw [Records.shiftInsert_key _ _ _ (by omega) hpos]
    split
    . exact lt_last hlt hi
    . split
      . exact hn.lt _ _ (by omega) hpos
      . exact hn.lt _ _ (by omega) hpos
  cases h with
  | existing h => exact hinv
  | leaf hn hlt hsyn hi =>
    refine ⟨⟨_, LeafNode.sorted_bumpNodeVersions.mpr (hi.sorted_shiftInsert_room hn hlt hk)⟩,
      hinv.ptr, ?_, ?_, ?_⟩
    all_goals
      intro s hs
      rw [Plan.apply, hsyn] at hs
      cases hs
  | newSyn hn hsyn hi =>
    refine ⟨⟨_, LeafNode.sorted_bumpNodeVersions.mpr hn⟩, ?_, ?_, ?_, ?_⟩
    . simp [Plan.apply, LeafNode.link, haddr]
    . intro s hs
      exact LeafNode.sorted_bumpNodeVersions.mpr hn
    . rintro s ⟨⟩
      exact ⟨1, by omega, LeafNode.sorted_bumpNodeVersions.mpr (LeafNode.newSyn_sorted hk v)⟩
    . rintro s ⟨⟩ t u ht hu
      simp only [LeafNode.bumpNodeVersions_key, (LeafNode.newSyn_get k v u).1] at hu ⊢
      split at hu
      . next h0 =>
        rw [if_pos h0]
        simpa [Plan.apply, LeafNode.link] using hi.below t ht
      . exact absurd rfl hu
  | overflowNew hn hsyn hlt hi =>
    have hsorted := hi.sorted_shiftInsert_full (v := v) hn hlt hk
    have hlive := hn.live (leafSpanSize - 1) hpos
    refine ⟨⟨_, LeafNode.sorted_bumpNodeVersions.mpr hsorted⟩, ?_, ?_, ?_, ?_⟩
    . simp [Plan.apply, LeafNode.link, haddr]
    . intro s hs
      exact LeafNode.sorted_bumpNodeVersions.mpr hsorted
    . rintro s ⟨⟩
      exact ⟨1, by omega, LeafNode.sorted_bumpNodeVersions.mpr (LeafNode.newSyn_sorted hlive _)⟩
    . rintro s ⟨⟩ t u ht hu
      simp only [LeafNode.bumpNodeVersions_key, (LeafNode.newSyn_get _ _ u).1] at hu ⊢
      split at hu
      . next h0 =>
        rw [if_pos h0]
        simpa [Plan.apply, LeafNode.link] using hshift hn hlt hi ht
      . exact absurd rfl hu
  | @syn s s' o hn hsyn hi hs =>
    obtain ⟨m, hm, hsorted⟩ := hs.sorted hk
    refine ⟨hinv.leaf, ?_, ?_, ?_, ?_⟩
    . have := hinv.ptr
      rw [hsyn] at this
      simpa [Plan.apply] using this
    . exact fun _ _ => hn
    . rintro _ ⟨⟩
      exact ⟨m, hm, LeafNode.sorted_bumpNodeVersions.mpr hsorted⟩
    . rintro _ ⟨⟩ t u ht hu
      simp only [LeafNode.bumpNodeVersions_key] at hu ⊢
      have hul : u < leafSpanSize := Nat.lt_of_lt_of_le (hsorted.le_of_live hu) hsorted.le
      rcases hs.has_of_has hu (Records.has_of_get hul) with ⟨hnew, -⟩ | ⟨u', -, hkey, -⟩
      . rw [hnew]
        exact hi.below t ht
      . rw [← hkey] at hu ⊢
        exact hinv.lt s hsyn t u' ht hu
  | @overflow s s' i o hn hsyn hlt hi hs =>
    have hlive := hn.live (leafSpanSize - 1) hpos
    have hleaf := hi.sorted_shiftInsert_full (v := v) hn hlt hk
    obtain ⟨m, hm, hsorted⟩ := hs.sorted hlive
    refine ⟨⟨_, LeafNode.sorted_bumpNodeVersions.mpr hleaf⟩, ?_, ?_, ?_, ?_⟩
    . have := hinv.ptr
      rw [hsyn] at this
      simpa [Plan.apply] using this
    . exact fun _ _ => LeafNode.sorted_bumpNodeVersions.mpr hleaf
    . rintro _ ⟨⟩
      exact ⟨m, hm, LeafNode.sorted_bumpNodeVersions.mpr hsorted⟩
    . rintro _ ⟨⟩ t u ht hu
      simp only [LeafNode.bumpNodeVersions_key, Plan.apply] at hu ⊢
      have hul : u < leafSpanSize := Nat.lt_of_lt_of_le (hsorted.le_of_live hu) hsorted.le
      have hlast := hshift hn hlt hi ht
      rcases hs.has_of_has hu (Records.has_of_get hul) with ⟨hnew, -⟩ | ⟨u', -, hkey, -⟩
      . rw [hnew]
        exact hlast
      . rw [← hkey] at hu ⊢
        exact lt_trans hlast (hinv.lt s hsyn (leafSpanSize - 1) u' hpos hu)

theorem room_syn {s : LeafNode} (hn : g.leaf.records.Sorted leafSpanSize) (hsyn : g.syn = some s)
    (hroom : g.Room)
    : ∃ t, t < leafSpanSize ∧ (s.records.get t).key = kkeyNull := by
  rcases hroom with ⟨t, ht, hnull⟩ | hnone | ⟨s', hs', hnull⟩
  . exact absurd hnull (hn.live t ht)
  . rw [hsyn] at hnone
    cases hnone
  . obtain rfl := Option.some.inj (hsyn.symm.trans hs')
    exact hnull

theorem overrun_eq_nil (h : InsertCase g k v p) (hroom : g.Room) : p.overrun = [] := by
  cases h with
  | existing h => rfl
  | leaf hn hlt hsyn hi => rfl
  | newSyn hn hsyn hi => rfl
  | overflowNew hn hsyn hlt hi => rfl
  | syn hn hsyn hi hs => exact hs.overrun_eq_nil (room_syn hn hsyn hroom)
  | overflow hn hsyn hlt hi hs => exact hs.overrun_eq_nil (room_syn hn hsyn hroom)

theorem has_leaf_iff (hn : g.leaf.records.Sorted leafSpanSize) {k' : Key} {v' : Value}
    : g.leaf.records.Has k' v'
        ↔
      (g.leaf.records.Has k' v' ∧ (g.leaf.records.get (leafSpanSize - 1)).key ≠ k')
        ∨ (k' = (g.leaf.records.get (leafSpanSize - 1)).key
            ∧ v' = (g.leaf.records.get (leafSpanSize - 1)).value) := by
  by_cases heq : (g.leaf.records.get (leafSpanSize - 1)).key = k'
  . subst heq
    simp [hn.has_last]
  . have heq' : k' ≠ (g.leaf.records.get (leafSpanSize - 1)).key := fun e => heq e.symm
    simp [heq, heq']

theorem has_apply_of_room (h : InsertCase g k v p) (hp : p ≠ .existing) (hroom : g.Room)
    {k' : Key} {v' : Value} (hk' : k' ≠ kkeyNull)
    : (p.apply addr g).Has k' v' ↔ (k' = k ∧ v' = v) ∨ g.Has k' v' := by
  cases h with
  | existing h => exact absurd rfl hp
  | leaf hn hlt hsyn hi =>
    simp only [Group.Has, Plan.apply, LeafNode.has_bumpNodeVersions, hsyn,
      hi.has_shiftInsert_room hn hlt hk']
    tauto
  | newSyn hn hsyn hi =>
    simp only [Group.Has, Plan.apply, LeafNode.has_bumpNodeVersions, hsyn, LeafNode.link,
      Option.some.injEq, exists_eq_left', LeafNode.newSyn_has hk']
    simp only [reduceCtorEq, false_and, exists_false, or_false]
    tauto
  | overflowNew hn hsyn hlt hi =>
    simp only [Group.Has, Plan.apply, LeafNode.has_bumpNodeVersions, hsyn, LeafNode.link,
      Option.some.injEq, exists_eq_left', LeafNode.newSyn_has hk', hn.has_shiftInsert_full hlt hk']
    rw [has_leaf_iff hn]
    simp only [reduceCtorEq, false_and, exists_false, or_false]
    tauto
  | syn hn hsyn hi hs =>
    simp only [Group.Has, Plan.apply, LeafNode.has_bumpNodeVersions, hsyn,
      Option.some.injEq, exists_eq_left', hs.has_iff_of_room (room_syn hn hsyn hroom) hk']
    tauto
  | overflow hn hsyn hlt hi hs =>
    simp only [Group.Has, Plan.apply, LeafNode.has_bumpNodeVersions, hsyn,
      Option.some.injEq, exists_eq_left', hn.has_shiftInsert_full hlt hk',
      hs.has_iff_of_room (room_syn hn hsyn hroom) hk']
    rw [has_leaf_iff hn]
    tauto

theorem has_of_has_apply (h : InsertCase g k v p) {k' : Key} {v' : Value} (hk' : k' ≠ kkeyNull)
    (hhas : (p.apply addr g).Has k' v')
    : (k' = k ∧ v' = v) ∨ g.Has k' v' := by
  have hlast : ∀ {k' v'}, (k' = (g.leaf.records.get (leafSpanSize - 1)).key
      ∧ v' = (g.leaf.records.get (leafSpanSize - 1)).value) → g.leaf.records.Has k' v' := by
    rintro _ _ ⟨rfl, rfl⟩
    exact Records.has_of_get (by decide)
  cases h with
  | existing h => exact .inr hhas
  | leaf hn hlt hsyn hi =>
    rcases hhas with hleaf | ⟨s, hs, -⟩
    . rcases (hi.has_shiftInsert_room hn hlt hk').mp (LeafNode.has_bumpNodeVersions.mp hleaf) with
        hnew | hold
      . exact .inl hnew
      . exact .inr (.inl hold)
    . rw [Plan.apply, hsyn] at hs
      cases hs
  | newSyn hn hsyn hi =>
    rcases hhas with hleaf | ⟨s, ⟨⟩, hs⟩
    . exact .inr (.inl (LeafNode.has_bumpNodeVersions.mp hleaf))
    . exact .inl ((LeafNode.newSyn_has hk').mp (LeafNode.has_bumpNodeVersions.mp hs))
  | overflowNew hn hsyn hlt hi =>
    rcases hhas with hleaf | ⟨s, ⟨⟩, hs⟩
    . rcases (hn.has_shiftInsert_full hlt hk').mp (LeafNode.has_bumpNodeVersions.mp hleaf) with
        hnew | ⟨hold, -⟩
      . exact .inl hnew
      . exact .inr (.inl hold)
    . exact .inr (.inl (hlast
        ((LeafNode.newSyn_has hk').mp (LeafNode.has_bumpNodeVersions.mp hs))))
  | syn hn hsyn hi hs =>
    rcases hhas with hleaf | ⟨s, ⟨⟩, hhas⟩
    . exact .inr (.inl hleaf)
    . rcases hs.has_of_has hk' (LeafNode.has_bumpNodeVersions.mp hhas) with hnew | hold
      . exact .inl hnew
      . exact .inr (.inr ⟨_, hsyn, hold⟩)
  | overflow hn hsyn hlt hi hs =>
    rcases hhas with hleaf | ⟨s, ⟨⟩, hhas⟩
    . rcases (hn.has_shiftInsert_full hlt hk').mp (LeafNode.has_bumpNodeVersions.mp hleaf) with
        hnew | ⟨hold, -⟩
      . exact .inl hnew
      . exact .inr (.inl hold)
    . rcases hs.has_of_has hk' (LeafNode.has_bumpNodeVersions.mp hhas) with hnew | hold
      . exact .inr (.inl (hlast hnew))
      . exact .inr (.inr ⟨_, hsyn, hold⟩)

end InsertCase

section Full

/-! A full leaf with a full synonym leaf: an insert of an absent key loses a key. -/

variable {g : Group} {s : LeafNode} {k : Key} {v : Value} {p : Plan} {addr : GlobalAddress}

theorem Group.Inv.last_not_has_leaf (hinv : g.Inv) (hsyn : g.syn = some s)
    (hs : s.records.Sorted leafSpanSize) {w : Value}
    : ¬ g.leaf.records.Has (s.records.get (leafSpanSize - 1)).key w := by
  rintro ⟨t, ht, hkey, -⟩
  have := hinv.lt s hsyn t (leafSpanSize - 1) ht (hs.live _ (by decide))
  rw [hkey] at this
  exact absurd this (lt_irrefl _)

theorem SynCase.not_has_last {s' : LeafNode} {o : List Nat} (h : SynCase s k v s' o)
    (hs : s.records.Sorted leafSpanSize) (hlt : k < (s.records.get (leafSpanSize - 1)).key)
    {w : Value}
    : ¬ s'.records.Has (s.records.get (leafSpanSize - 1)).key w := by
  have hlive := hs.live (leafSpanSize - 1) (by decide)
  cases h with
  | room hs' hm hi =>
    have := hs.unique hs'
    omega
  | drop _ hlt' hi =>
    rw [hs.has_shiftInsert_full hlt' hlive]
    rintro (⟨heq, -⟩ | ⟨-, hne⟩)
    . exact absurd heq hlt.ne'
    . exact hne rfl
  | overrun _ hbelow => exact absurd (hbelow (leafSpanSize - 1) (by decide)) hlt.not_gt

theorem SynCase.has_of_ne_last {s' : LeafNode} {o : List Nat} (h : SynCase s k v s' o) {k' : Key}
    {w : Value} (hk' : k' ≠ kkeyNull) (hhas : s.records.Has k' w)
    (hne : ¬ (s.records.Sorted leafSpanSize ∧ k < (s.records.get (leafSpanSize - 1)).key
      ∧ k' = (s.records.get (leafSpanSize - 1)).key))
    : s'.records.Has k' w := by
  cases h with
  | room hs hm hi => exact (hi.has_shiftInsert_room hs hm hk').mpr (.inr hhas)
  | drop hs hlt hi =>
    refine (hs.has_shiftInsert_full hlt hk').mpr (.inr ⟨hhas, ?_⟩)
    intro heq
    exact hne ⟨hs, hi.above _ (by omega) (by decide), heq.symm⟩
  | overrun hs hbelow => exact hhas

namespace InsertCase

theorem drops_last (h : InsertCase g k v p) (hp : p ≠ .existing) (hinv : g.Inv)
    (hsyn : g.syn = some s) (hs : s.records.Sorted leafSpanSize)
    (hlt : k < (s.records.get (leafSpanSize - 1)).key) {w : Value}
    : ¬ (p.apply addr g).Has (s.records.get (leafSpanSize - 1)).key w := by
  have hlive := hs.live (leafSpanSize - 1) (by decide)
  have hleaf := fun w => hinv.last_not_has_leaf hsyn hs (w := w)
  have hnone : g.syn ≠ none := by rw [hsyn]; exact Option.some_ne_none s
  cases h with
  | existing h => exact absurd rfl hp
  | leaf hn hlt hsyn' hi => exact absurd hsyn' hnone
  | newSyn hn hsyn' hi => exact absurd hsyn' hnone
  | overflowNew hn hsyn' hlt hi => exact absurd hsyn' hnone
  | syn hn hsyn' hi hc =>
    obtain rfl := Option.some.inj (hsyn.symm.trans hsyn')
    rintro (hhas | ⟨s', ⟨⟩, hhas⟩)
    . exact hleaf w hhas
    . exact hc.not_has_last hs hlt (LeafNode.has_bumpNodeVersions.mp hhas)
  | overflow hn hsyn' hlt' hi hc =>
    obtain rfl := Option.some.inj (hsyn.symm.trans hsyn')
    have hbelow := hinv.lt s hsyn (leafSpanSize - 1) (leafSpanSize - 1) (by decide) hlive
    rintro (hhas | ⟨s', ⟨⟩, hhas⟩)
    . rcases (hn.has_shiftInsert_full hlt' hlive).mp (LeafNode.has_bumpNodeVersions.mp hhas) with
        ⟨heq, -⟩ | ⟨hold, -⟩
      . exact absurd heq hlt.ne'
      . exact hleaf w hold
    . exact hc.not_has_last hs hbelow (LeafNode.has_bumpNodeVersions.mp hhas)

theorem loses_own (h : InsertCase g k v p) (hp : p ≠ .existing) (hinv : g.Inv) (hk : k ≠ kkeyNull)
    (hsyn : g.syn = some s) (hs : s.records.Sorted leafSpanSize)
    (hlt : (s.records.get (leafSpanSize - 1)).key < k) {w : Value}
    : ¬ (p.apply addr g).Has k w := by
  have habsent := h.not_has hinv hk hp (w := w)
  have hnone : g.syn ≠ none := by rw [hsyn]; exact Option.some_ne_none s
  cases h with
  | existing h => exact absurd rfl hp
  | leaf hn hlt hsyn' hi => exact absurd hsyn' hnone
  | newSyn hn hsyn' hi => exact absurd hsyn' hnone
  | overflowNew hn hsyn' hlt hi => exact absurd hsyn' hnone
  | syn hn hsyn' hi hc =>
    obtain rfl := Option.some.inj (hsyn.symm.trans hsyn')
    cases hc with
    | room hs' hm hi =>
      have := hs.unique hs'
      omega
    | drop _ hlt' hi' => exact absurd (hi'.above _ (by omega) (by decide)) hlt.not_gt
    | overrun _ hbelow =>
      rintro (hhas | ⟨s', ⟨⟩, hhas⟩)
      . exact habsent (.inl hhas)
      . exact habsent (.inr ⟨s, hsyn, LeafNode.has_bumpNodeVersions.mp hhas⟩)
  | overflow hn hsyn' hlt' hi hc =>
    have hbelow := hinv.lt s hsyn (leafSpanSize - 1) (leafSpanSize - 1) (by decide)
      (hs.live _ (by decide))
    exact absurd ((lt_last hlt' hi).trans hbelow) hlt.not_gt

end InsertCase

/--
The stored keys `kS` that an insert of `k` takes out of the node they are in: it overflows the last
key of a full leaf to the synonym leaf, and overwrites the last record of a full synonym leaf.
-/
def Group.Exposed (g : Group) (k kS : Key) : Prop :=
  (∀ w, ¬ g.Has k w) ∧ g.leaf.records.Sorted leafSpanSize
    ∧ ((k < (g.leaf.records.get (leafSpanSize - 1)).key
          ∧ kS = (g.leaf.records.get (leafSpanSize - 1)).key)
        ∨ ∃ s, g.syn = some s ∧ s.records.Sorted leafSpanSize
            ∧ k < (s.records.get (leafSpanSize - 1)).key
            ∧ kS = (s.records.get (leafSpanSize - 1)).key)

end Full

section Update

variable {n n' : LeafNode} {k : Key} {v : Value}

theorem updateLocally_some (h : updateLocally k v n = some n')
    : ∃ i, i < leafSpanSize ∧ (n.records.get i).key = k
        ∧ n' = { n with records := n.records.update i k v } := by
  unfold updateLocally at h
  dsimp only at h
  split at h
  . next hlt =>
    refine ⟨_, hlt, ?_, (Option.some.inj h).symm⟩
    have hlen : n.records.toList.findIdx (fun e => decide (e.key = k))
        < n.records.toList.length := by simpa using hlt
    have := List.findIdx_getElem (w := hlen)
    rw [Vector.getElem_toList, ← Records.get_eq_getElem _ hlt] at this
    simpa using this
  . cases h

theorem updateLocally_eq_none
    : updateLocally k v n = none ↔ ∀ t, t < leafSpanSize → (n.records.get t).key ≠ k := by
  unfold updateLocally
  dsimp only
  constructor
  . intro h t ht heq
    split at h
    . cases h
    . next hnot =>
      apply hnot
      have : n.records.toList.findIdx (fun e => decide (e.key = k)) < n.records.toList.length := by
        apply List.findIdx_lt_length_of_exists
        refine ⟨n.records.get t, ?_, by simpa using heq⟩
        rw [Records.get_eq_getElem _ ht]
        simp
      simpa using this
  . intro h
    rw [if_neg]
    intro hlt
    have hlen : n.records.toList.findIdx (fun e => decide (e.key = k))
        < n.records.toList.length := by simpa using hlt
    have := List.findIdx_getElem (w := hlen)
    rw [Vector.getElem_toList, ← Records.get_eq_getElem _ hlt] at this
    exact h _ hlt (by simpa using this)

theorem Records.update_get {r : Records} {i : Nat} (hi : i < leafSpanSize) (t : Nat)
    : ((r.update i k v).get t).key = (if t = i then k else (r.get t).key)
        ∧ ((r.update i k v).get t).value = (if t = i then v else (r.get t).value) := by
  unfold Records.update
  rw [get_put]
  by_cases ht : t = i
  . subst ht
    simp [hi, LeafEntry.update]
  . have : ¬ i = t := fun e => ht e.symm
    simp [ht, this]

theorem updateLocally_key (h : updateLocally k v n = some n') (t : Nat)
    : (n'.records.get t).key = (n.records.get t).key := by
  obtain ⟨i, hi, hkey, rfl⟩ := updateLocally_some h
  dsimp only
  rw [(Records.update_get hi t).1]
  split
  . next ht => rw [ht, hkey]
  . rfl

theorem updateLocally_metadata (h : updateLocally k v n = some n') : n'.metadata = n.metadata := by
  obtain ⟨i, -, -, rfl⟩ := updateLocally_some h
  rfl

theorem updateLocally_sorted (h : updateLocally k v n = some n') {m : Nat}
    : n'.records.Sorted m ↔ n.records.Sorted m := by
  have hkey := updateLocally_key h
  constructor
  . intro hs
    exact hs.congr (fun t => (hkey t).symm)
  . intro hs
    exact hs.congr hkey

theorem updateLocally_has (h : updateLocally k v n = some n') (hk : k ≠ kkeyNull) {m : Nat}
    (hs : n.records.Sorted m) {k' : Key} {v' : Value}
    : n'.records.Has k' v' ↔ (k' = k ∧ v' = v) ∨ (k' ≠ k ∧ n.records.Has k' v') := by
  obtain ⟨i, hi, hkey, rfl⟩ := updateLocally_some h
  have him : i < m := hs.le_of_live (by rwa [hkey])
  have hget := fun t => Records.update_get (r := n.records) (k := k) (v := v) hi t
  constructor
  . rintro ⟨t, ht, hkt, hvt⟩
    dsimp only at hkt hvt
    rw [(hget t).1] at hkt
    rw [(hget t).2] at hvt
    by_cases hti : t = i
    . rw [if_pos hti] at hkt hvt
      exact .inl ⟨hkt.symm, hvt.symm⟩
    . rw [if_neg hti] at hkt hvt
      refine .inr ⟨?_, t, ht, hkt, hvt⟩
      rintro rfl
      have htm : t < m := hs.le_of_live (by rwa [hkt])
      exact hti (hs.key_injective htm him (hkt.trans hkey.symm))
  . rintro (⟨rfl, rfl⟩ | ⟨hne, t, ht, hkt, hvt⟩)
    . exact ⟨i, hi, by simp [(hget i).1], by simp [(hget i).2]⟩
    . have hti : t ≠ i := by
        rintro rfl
        exact hne (hkt.symm.trans hkey)
      exact ⟨t, ht, by simpa [(hget t).1, hti] using hkt, by simpa [(hget t).2, hti] using hvt⟩

end Update

namespace Group

/-- The nodes after an update: of the leaf, or of the synonym leaf if the key is not in the leaf. -/
def update (k : Key) (v : Value) (g : Group) : Group :=
  match updateLocally k v g.leaf with
  | some leaf => { g with leaf := leaf.bumpNodeVersions }
  | none =>
    match g.syn.bind (updateLocally k v) with
    | some synLeaf => { g with syn := some synLeaf.bumpNodeVersions }
    | none => g

variable {g : Group} {k : Key} {v : Value} {addr : GlobalAddress}

def pairs (g : Group) : Set (Key × Value) := {p | p.1 ≠ kkeyNull ∧ g.Has p.1 p.2}

theorem Inv.insert (h : g.Inv) (hk : k ≠ kkeyNull) (haddr : addr ≠ GlobalAddress.null)
    : (g.insert addr k v).Inv :=
  (insertLocally_cases h hk v).apply_inv h hk haddr

theorem Inv.full_of_not_room (h : g.Inv) (hroom : ¬ g.Room)
    : ∃ s, g.syn = some s ∧ s.records.Sorted leafSpanSize := by
  cases hsyn : g.syn with
  | none => exact absurd (.inr (.inl hsyn)) hroom
  | some s =>
    obtain ⟨m, -, hs⟩ := h.syn s hsyn
    have hle := hs.le
    rcases Nat.lt_or_ge m leafSpanSize with hlt | hge
    . exact absurd (.inr (.inr ⟨s, hsyn, m, hlt, hs.dead m (Nat.le_refl _)⟩)) hroom
    . obtain rfl : m = leafSpanSize := by omega
      exact ⟨s, rfl, hs⟩

theorem Inv.insertLocally_eq_existing (h : g.Inv) (hk : k ≠ kkeyNull)
    : insertLocally k v g.leaf g.syn = .existing ↔ ∃ w, g.Has k w := by
  have hcase := insertLocally_cases h hk v
  generalize insertLocally k v g.leaf g.syn = p at hcase
  constructor
  . rintro rfl
    cases hcase with
    | existing hw => exact ⟨_, hw⟩
  . rintro ⟨w, hw⟩
    apply Classical.byContradiction
    intro hp
    exact hcase.not_has h hk hp hw

/-- Without room an insert of an absent key loses a key: its own or a stored one. -/
theorem Inv.insert_loses (h : g.Inv) (addr : GlobalAddress) (hk : k ≠ kkeyNull) (hroom : ¬ g.Room)
    (habsent : ∀ w, ¬ g.Has k w)
    : ∃ k', k' ≠ kkeyNull ∧ (k' = k ∨ ∃ w, g.Has k' w) ∧ ∀ w, ¬ (g.insert addr k v).Has k' w := by
  have hp : insertLocally k v g.leaf g.syn ≠ .existing := by
    intro hex
    obtain ⟨w, hw⟩ := (h.insertLocally_eq_existing hk).mp hex
    exact habsent w hw
  have hcase := insertLocally_cases h hk v
  obtain ⟨s, hsyn, hs⟩ := h.full_of_not_room hroom
  have hlast : g.Has (s.records.get (leafSpanSize - 1)).key
      (s.records.get (leafSpanSize - 1)).value := .inr ⟨s, hsyn, Records.has_of_get (by decide)⟩
  rcases lt_trichotomy k (s.records.get (leafSpanSize - 1)).key with hlt | rfl | hgt
  . exact ⟨_, hs.live _ (by decide), .inr ⟨_, hlast⟩,
      fun w => hcase.drops_last hp h hsyn hs hlt⟩
  . exact absurd hlast (habsent _)
  . exact ⟨k, hk, .inl rfl, fun w => hcase.loses_own hp h hk hsyn hs hgt⟩

theorem Inv.insert_of_has (h : g.Inv) (hk : k ≠ kkeyNull) {w : Value} (hw : g.Has k w)
    : g.insert addr k v = g := by
  unfold Group.insert
  rw [(h.insertLocally_eq_existing hk).mpr ⟨w, hw⟩]
  rfl

theorem Inv.has_insert (h : g.Inv) (hk : k ≠ kkeyNull) (hroom : g.Room) (habsent : ∀ w, ¬ g.Has k w)
    {k' : Key} {v' : Value} (hk' : k' ≠ kkeyNull)
    : (g.insert addr k v).Has k' v' ↔ (k' = k ∧ v' = v) ∨ g.Has k' v' := by
  apply (insertLocally_cases h hk v).has_apply_of_room _ hroom hk'
  intro hp
  obtain ⟨w, hw⟩ := (h.insertLocally_eq_existing hk).mp hp
  exact habsent w hw

theorem Inv.pairs_insert (h : g.Inv) (hk : k ≠ kkeyNull) (hroom : g.Room)
    (habsent : ∀ w, ¬ g.Has k w)
    : (g.insert addr k v).pairs = Insert.insert (k, v) g.pairs := by
  ext ⟨k', v'⟩
  simp only [pairs, Set.mem_ofPred_eq, Set.mem_insert_iff, Prod.mk.injEq]
  constructor
  . rintro ⟨hk', hhas⟩
    rcases (h.has_insert hk hroom habsent hk').mp hhas with hnew | hold
    . exact .inl hnew
    . exact .inr ⟨hk', hold⟩
  . rintro (⟨rfl, rfl⟩ | ⟨hk', hold⟩)
    . exact ⟨hk, (h.has_insert hk hroom habsent hk).mpr (.inl ⟨rfl, rfl⟩)⟩
    . exact ⟨hk', (h.has_insert hk hroom habsent hk').mpr (.inr hold)⟩

/-- The record that overflows from a full leaf is never met in the synonym leaf. -/
theorem Inv.overflow_ne_existing (h : g.Inv) {i : Nat} (hi : i < leafSpanSize)
    (hslot : g.leaf.records.findSlot k = .free i) (hk : k ≠ kkeyNull)
    (hfull : g.leaf.records.firstNull i = leafSpanSize)
    : insertIntoSynLeafLocally (g.leaf.records.get (leafSpanSize - 1)).key
        (g.leaf.records.get (leafSpanSize - 1)).value g.syn ≠ .existing := by
  obtain ⟨n, hn⟩ := h.leaf
  have hsplits : g.leaf.records.Splits n i k := by
    rcases hn.findSlot_cases hk with ⟨hex, -⟩ | ⟨j, hfree, hj⟩
    . rw [hex] at hslot
      cases hslot
    . rw [hfree, Slot.free.injEq] at hslot
      rwa [← hslot]
  rw [hn.firstNull_eq hsplits.le] at hfull
  subst hfull
  cases hsyn : g.syn with
  | none => simp [insertIntoSynLeafLocally]
  | some s =>
    obtain ⟨m, -, hs⟩ := h.syn s hsyn
    have hlive := hn.live (leafSpanSize - 1) (by omega)
    rcases insertIntoSynLeafLocally_cases hs hlive
      (g.leaf.records.get (leafSpanSize - 1)).value with ⟨-, t, ht, heq⟩ | ⟨s', o, hres, -⟩
    . have := h.lt s hsyn (leafSpanSize - 1) t (by omega) (hs.live t ht)
      rw [heq] at this
      exact absurd this (lt_irrefl _)
    . rw [hres]
      simp

theorem Inv.has_unique (h : g.Inv) (hk : k ≠ kkeyNull) {v w : Value} (hv : g.Has k v)
    (hw : g.Has k w)
    : v = w := by
  have hnode : ∀ {r : Records} {n : Nat} {v w : Value}, r.Sorted n → r.Has k v → r.Has k w →
      v = w := by
    rintro r n v w hn ⟨t, -, hkt, rfl⟩ ⟨u, -, hku, rfl⟩
    have ht : t < n := hn.le_of_live (by rwa [hkt])
    have hu : u < n := hn.le_of_live (by rwa [hku])
    rw [hn.key_injective ht hu (hkt.trans hku.symm)]
  have hcross : ∀ {s v w}, g.syn = some s → g.leaf.records.Has k v → ¬ s.records.Has k w := by
    rintro s v w hs ⟨t, ht, hkt, -⟩ ⟨u, -, hku, -⟩
    have := h.lt s hs t u ht (by rwa [hku])
    rw [hkt, hku] at this
    exact lt_irrefl _ this
  obtain ⟨n, hn⟩ := h.leaf
  rcases hv with hv | ⟨s, hs, hv⟩
  . rcases hw with hw | ⟨s', hs', hw⟩
    . exact hnode hn hv hw
    . exact absurd hw (hcross hs' hv)
  . rcases hw with hw | ⟨s', hs', hw⟩
    . exact absurd hv (hcross hs hw)
    . obtain rfl := Option.some.inj (hs.symm.trans hs')
      obtain ⟨m, -, hm⟩ := h.syn s hs
      exact hnode hm hv hw

theorem Inv.update (h : g.Inv) : (g.update k v).Inv := by
  unfold Group.update
  split
  . next leaf hleaf =>
    have hkey := updateLocally_key hleaf
    obtain ⟨n, hn⟩ := h.leaf
    refine ⟨⟨n, ?_⟩, ?_, ?_, h.syn, ?_⟩
    . simpa [updateLocally_sorted hleaf] using hn
    . simpa [updateLocally_metadata hleaf] using h.ptr
    . intro s hs
      simpa [updateLocally_sorted hleaf] using h.full s hs
    . intro s hs t u ht hu
      simpa [hkey] using h.lt s hs t u ht hu
  . split
    . next synLeaf hsyn =>
      obtain ⟨s, hs, hup⟩ := Option.bind_eq_some_iff.mp hsyn
      have hkey := updateLocally_key hup
      obtain ⟨m, hm, hsorted⟩ := h.syn s hs
      refine ⟨h.leaf, ?_, fun _ _ => h.full s hs, ?_, ?_⟩
      . have := h.ptr
        rw [hs] at this
        simpa using this
      . rintro _ ⟨⟩
        exact ⟨m, hm, by simpa [updateLocally_sorted hup] using hsorted⟩
      . rintro _ ⟨⟩ t u ht hu
        simp only [LeafNode.bumpNodeVersions_key, hkey] at hu ⊢
        exact h.lt s hs t u ht hu
    . exact h

theorem has_of_has_update {k' : Key} {v' : Value} (h : (g.update k v).Has k' v')
    : ∃ w, g.Has k' w := by
  have hkeys : ∀ {n n' : LeafNode}, updateLocally k v n = some n' →
      n'.bumpNodeVersions.records.Has k' v' → ∃ w, n.records.Has k' w := by
    rintro n n' hn hhas
    obtain ⟨t, ht, hkey, -⟩ := LeafNode.has_bumpNodeVersions.mp hhas
    exact ⟨_, t, ht, (updateLocally_key hn t).symm.trans hkey, rfl⟩
  unfold Group.update at h
  split at h
  . next leaf hleaf =>
    rcases h with hhas | hsyn
    . obtain ⟨w, hw⟩ := hkeys hleaf hhas
      exact ⟨w, .inl hw⟩
    . exact ⟨v', .inr hsyn⟩
  . split at h
    . next synLeaf hsyn =>
      obtain ⟨s, hs, hup⟩ := Option.bind_eq_some_iff.mp hsyn
      rcases h with hhas | ⟨s', ⟨⟩, hhas⟩
      . exact ⟨v', .inl hhas⟩
      . obtain ⟨w, hw⟩ := hkeys hup hhas
        exact ⟨w, .inr ⟨s, hs, hw⟩⟩
    . exact ⟨v', h⟩

theorem Inv.has_update (h : g.Inv) (hk : k ≠ kkeyNull) {k' : Key} {v' : Value}
    : (g.update k v).Has k' v'
        ↔
      (k' = k ∧ v' = v ∧ ∃ w, g.Has k w) ∨ (k' ≠ k ∧ g.Has k' v') := by
  have hnone : ∀ {n : LeafNode}, updateLocally k v n = none → ∀ w, ¬ n.records.Has k w := by
    rintro n hn w ⟨t, ht, hkey, -⟩
    exact updateLocally_eq_none.mp hn t ht hkey
  have hex : ∀ {n n' : LeafNode}, updateLocally k v n = some n' → ∃ w, n.records.Has k w := by
    intro n n' hn
    obtain ⟨i, hi, hkey, -⟩ := updateLocally_some hn
    exact ⟨_, i, hi, hkey, rfl⟩
  obtain ⟨n, hn⟩ := h.leaf
  unfold Group.update
  split
  . next leaf hleaf =>
    obtain ⟨w, hw⟩ := hex hleaf
    -- the key is in the leaf, hence not in the synonym leaf
    have hsyn : ∀ s, g.syn = some s → s.records.Has k' v' → k' ≠ k := by
      rintro s hs ⟨u, -, rfl, -⟩ heq
      obtain ⟨t, ht, hkt, -⟩ := hw
      have := h.lt s hs t u ht (by rwa [heq])
      rw [hkt, heq] at this
      exact lt_irrefl _ this
    simp only [Group.Has, LeafNode.has_bumpNodeVersions, updateLocally_has hleaf hk hn]
    constructor
    . rintro ((⟨hk', hv'⟩ | hold) | ⟨s, hs, hhas⟩)
      . exact .inl ⟨hk', hv', w, .inl hw⟩
      . exact .inr ⟨hold.1, .inl hold.2⟩
      . exact .inr ⟨hsyn s hs hhas, .inr ⟨s, hs, hhas⟩⟩
    . rintro (⟨hk', hv', -⟩ | ⟨hne, hhas | hhas⟩)
      . exact .inl (.inl ⟨hk', hv'⟩)
      . exact .inl (.inr ⟨hne, hhas⟩)
      . exact .inr hhas
  . next hleaf =>
    have hleaf' := hnone hleaf
    split
    . next synLeaf hsyn =>
      obtain ⟨s, hs, hup⟩ := Option.bind_eq_some_iff.mp hsyn
      obtain ⟨m, -, hsorted⟩ := h.syn s hs
      obtain ⟨w, hw⟩ := hex hup
      simp only [Group.Has, hs, Option.some.injEq, exists_eq_left', LeafNode.has_bumpNodeVersions,
        updateLocally_has hup hk hsorted]
      constructor
      . rintro (hhas | ⟨hk', hv'⟩ | hold)
        . refine .inr ⟨?_, .inl hhas⟩
          rintro rfl
          exact hleaf' _ hhas
        . exact .inl ⟨hk', hv', w, .inr hw⟩
        . exact .inr ⟨hold.1, .inr hold.2⟩
      . rintro (⟨hk', hv', -⟩ | ⟨hne, hhas | hhas⟩)
        . exact .inr (.inl ⟨hk', hv'⟩)
        . exact .inl hhas
        . exact .inr (.inr ⟨hne, hhas⟩)
    . next hsyn =>
      have habsent : ∀ w, ¬ g.Has k w := by
        rintro w (hw | ⟨s, hs, hw⟩)
        . exact hleaf' w hw
        . rw [hs] at hsyn
          exact hnone hsyn w hw
      constructor
      . intro hhas
        refine .inr ⟨?_, hhas⟩
        rintro rfl
        exact habsent _ hhas
      . rintro (⟨-, -, w, hw⟩ | ⟨-, hhas⟩)
        . exact absurd hw (habsent w)
        . exact hhas

end Group

end Rolex

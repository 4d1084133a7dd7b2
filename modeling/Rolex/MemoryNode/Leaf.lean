import Mathlib.Order.BoundedOrder.Basic
import Mathlib.Order.Lattice
import Mathlib.Data.List.Basic
import Mathlib.Data.List.Pairwise
import Mathlib.Algebra.Group.Even
import Mathlib.Algebra.Ring.Parity

/-!
This module contains the leaves of the memory node API (`leaf.hpp`) and one lemma for each of their
functions that says what it does to the stored pairs.
-/

namespace Rolex

namespace MemoryNode

/--
`Leaf<N, K, V>`. A slot is a key with its value, since the functions move `keys` and `vals` in the same way;
the greatest key, `invalidKey()`, marks the slots without a pair.
-/
structure Leaf (N : Nat) (K V : Type) where
  slots : List (K × V)
  length_eq : slots.length = N

namespace Leaf

variable {N : Nat} {K V : Type}

theorem slots_ne_nil [NeZero N] (l : Leaf N K V) : l.slots ≠ [] := by
  intro h
  have hlen := l.length_eq
  rw [h] at hlen
  exact NeZero.ne N hlen.symm

variable [LinearOrder K] [OrderTop K]

section Code

variable [NeZero N]

def firstKey (l : Leaf N K V) : K := (l.slots.head l.slots_ne_nil).1

def lastSlot (l : Leaf N K V) : K × V := l.slots.getLast l.slots_ne_nil

def isfull (l : Leaf N K V) : Bool := l.lastSlot.1 ≠ ⊤

def isEmpty (l : Leaf N K V) : Bool := l.firstKey = ⊤

def insertHere (l : Leaf N K V) (key : K) : Bool := l.firstKey ≤ key

def search (l : Leaf N K V) (key : K) : Option V :=
  if key < l.firstKey then none else (l.slots.find? (·.1 = key)).map Prod.snd

def contain (l : Leaf N K V) (key : K) : Bool :=
  if key < l.firstKey then false else l.slots.any (·.1 = key)

def update (l : Leaf N K V) (key : K) (val : V) : Bool × Leaf N K V :=
  if key < l.firstKey then
    (false, l)
  else
    let i := l.slots.findIdx (·.1 = key)
    if i < N then
      (true, ⟨l.slots.set i (key, val), by rw [List.length_set, l.length_eq]⟩)
    else
      (false, l)

/--
`insert_not_full`. Its counters are of type `u8`: a loop that has not ended at 255 never ends, as it starts
again at slot 0.
-/
def insertNotFull (l : Leaf N K V) (key : K) (val : V) : Option (Leaf N K V) :=
  let i := l.slots.findIdx (key ≤ ·.1)
  if 255 < i then
    none
  else if l.slots[i]?.map Prod.fst = some key then
    some l
  else
    let j := i + (l.slots.drop i).findIdx (·.1 = ⊤)
    if 255 < j then
      none
    else if h : j < N then
      some ⟨l.slots.take i ++ (key, val) :: (l.slots.take j).drop i ++ l.slots.drop (j + 1), by
        have hlen := l.length_eq
        simp only [List.length_append, List.length_take, List.length_cons, List.length_drop]
        omega⟩
    else
      some l

/-- `remove`, with the same kind of counter. -/
def remove (l : Leaf N K V) (key : K) : Option (Bool × Leaf N K V) :=
  let i := l.slots.findIdx (·.1 = key)
  if 255 < i then
    none
  else if h : i < N then
    some (true, ⟨l.slots.take i ++ l.slots.drop (i + 1) ++ [(⊤, l.lastSlot.2)], by
      have hlen := l.length_eq
      simp only [List.length_append, List.length_take, List.length_singleton, List.length_drop]
      omega⟩)
  else
    some (false, l)

/-- The loop "move half data" of `insert_synonym`: the leaf and the new leaf behind it. -/
def moveHalf (cur nLeaf : Leaf N K V) : Leaf N K V × Leaf N K V :=
  let mid := N / 2
  (⟨cur.slots.take mid ++ ((cur.slots.drop mid).take mid).map (fun e => (⊤, e.2)) ++ cur.slots.drop (mid + mid), by
      have hlen := cur.length_eq
      simp only [List.length_append, List.length_take, List.length_map, List.length_drop]
      omega⟩,
    ⟨(cur.slots.drop mid).take mid ++ nLeaf.slots.drop mid, by
      have hlen := cur.length_eq
      have hlen' := nLeaf.length_eq
      simp only [List.length_append, List.length_take, List.length_drop]
      omega⟩)

end Code

/-- A leaf as the constructor leaves it: the values are not set. -/
def Blank (l : Leaf N K V) : Prop := ∀ e ∈ l.slots, e.1 = ⊤

def entries (l : Leaf N K V) : List (K × V) := l.slots.filter (·.1 ≠ ⊤)

theorem mem_entries {l : Leaf N K V} {e : K × V} : e ∈ l.entries ↔ e ∈ l.slots ∧ e.1 ≠ ⊤ := by
  simp [entries]

/-- The order of the slots: ascending keys, then the slots without a pair. -/
def Before (a b : K × V) : Prop := a.1 < b.1 ∨ a.1 = ⊤ ∧ b.1 = ⊤

theorem before_of_top {a b : K × V} (h : b.1 = ⊤) : Before a b := by
  rcases lt_or_eq_of_le (le_top : a.1 ≤ ⊤) with hlt | heq
  . exact .inl (h ▸ hlt)
  . exact .inr ⟨heq, h⟩

theorem Before.le {a b : K × V} (h : Before a b) : a.1 ≤ b.1 := by
  rcases h with h | ⟨ha, hb⟩
  . exact h.le
  . rw [ha, hb]

theorem Before.lt {a b : K × V} (h : Before a b) (hb : b.1 ≠ ⊤) : a.1 < b.1 := by
  rcases h with h | ⟨-, htop⟩
  . exact h
  . exact absurd htop hb

def Sorted (l : Leaf N K V) : Prop := l.slots.Pairwise Before

theorem Blank.sorted {l : Leaf N K V} (h : l.Blank) : l.Sorted :=
  List.Pairwise.imp_of_mem (fun _ hb _ => before_of_top (h _ hb)) (List.pairwise_of_forall fun _ _ => trivial)

section First

variable [NeZero N] {l : Leaf N K V}

omit [LinearOrder K] [OrderTop K] in
theorem head?_slots (l : Leaf N K V) : l.slots.head?.map Prod.fst = some l.firstKey := by
  rw [List.head?_eq_some_head l.slots_ne_nil]
  rfl

theorem Sorted.firstKey_le (h : l.Sorted) {e : K × V} (he : e ∈ l.slots) : l.firstKey ≤ e.1 := by
  unfold Sorted at h
  rw [← List.cons_head_tail l.slots_ne_nil] at h he
  rcases List.mem_cons.mp he with rfl | he
  . exact le_rfl
  . exact ((List.pairwise_cons.mp h).1 e he).le

theorem isEmpty_iff (h : l.Sorted) : l.isEmpty ↔ l.entries = [] := by
  rw [isEmpty, decide_eq_true_iff, List.eq_nil_iff_forall_not_mem]
  constructor
  . intro htop e he
    rw [mem_entries] at he
    exact he.2 (top_le_iff.mp (htop ▸ h.firstKey_le he.1))
  . intro hnone
    by_contra hne
    exact hnone _ (mem_entries.mpr ⟨List.head_mem _, hne⟩)

theorem firstKey_eq_top (h : l.Sorted) (hnil : l.entries = []) : l.firstKey = ⊤ :=
  decide_eq_true_iff.mp ((isEmpty_iff h).mpr hnil)

theorem firstKey_mem (h : l.entries ≠ []) (hsorted : l.Sorted) : ∃ v, (l.firstKey, v) ∈ l.entries := by
  have hne : l.firstKey ≠ ⊤ := by
    intro htop
    exact h ((isEmpty_iff hsorted).mp (decide_eq_true htop))
  exact ⟨(l.slots.head l.slots_ne_nil).2, mem_entries.mpr ⟨List.head_mem _, hne⟩⟩

theorem isfull_iff (h : l.Sorted) : l.isfull ↔ ∀ e ∈ l.slots, e.1 ≠ ⊤ := by
  rw [isfull, decide_eq_true_iff]
  constructor
  . intro hlast e he htop
    apply hlast
    unfold Sorted at h
    unfold lastSlot
    generalize l.slots_ne_nil = hne
    have hsplit := List.dropLast_append_getLast hne
    rw [← hsplit] at h he
    rcases List.mem_append.mp he with he | he
    . have hbefore := (List.pairwise_append.mp h).2.2 e he _ List.mem_cons_self
      exact top_le_iff.mp (htop ▸ hbefore.le)
    . rw [← List.mem_singleton.mp he]
      exact htop
  . intro hall
    exact hall _ (List.getLast_mem _)

end First

section Lookup

variable {l : Leaf N K V} {key : K}

theorem Sorted.eq_of_key (h : l.Sorted) {a b : K × V} (ha : a ∈ l.entries) (hb : b ∈ l.entries)
    (heq : a.1 = b.1)
    : a = b := by
  rw [mem_entries] at ha hb
  by_contra hne
  have hor : Before a b ∨ Before b a := by
    have hpairs : l.slots.Pairwise fun a b => Before a b ∨ Before b a := List.Pairwise.imp Or.inl h
    have : Std.Symm fun a b : K × V => Before a b ∨ Before b a := ⟨fun _ _ => Or.symm⟩
    exact hpairs.forall ha.1 hb.1 hne
  rcases hor with hor | hor
  . exact (hor.lt hb.2).ne heq
  . exact (hor.lt ha.2).ne heq.symm

theorem search_eq_some_iff [NeZero N] (h : l.Sorted) (hkey : key ≠ ⊤) {v : V}
    : l.search key = some v ↔ (key, v) ∈ l.entries := by
  unfold search
  split
  . next hlt =>
    simp only [reduceCtorEq, false_iff]
    intro hmem
    exact absurd (h.firstKey_le (mem_entries.mp hmem).1) (not_le.mpr hlt)
  . rw [Option.map_eq_some_iff]
    constructor
    . rintro ⟨⟨k, w⟩, hfind, rfl⟩
      have hk : k = key := by simpa using List.find?_some hfind
      rw [mem_entries, ← hk]
      exact ⟨List.mem_of_find?_eq_some hfind, by rw [hk]; exact hkey⟩
    . intro hmem
      have hsome : (l.slots.find? (·.1 = key)).isSome := by
        rw [List.find?_isSome]
        exact ⟨(key, v), (mem_entries.mp hmem).1, by simp⟩
      obtain ⟨e, he⟩ := Option.isSome_iff_exists.mp hsome
      have hk : e.1 = key := by simpa using List.find?_some he
      have hemem : e ∈ l.entries := mem_entries.mpr ⟨List.mem_of_find?_eq_some he, by rw [hk]; exact hkey⟩
      rw [h.eq_of_key hemem hmem hk] at he
      exact ⟨(key, v), he, rfl⟩

theorem contain_iff [NeZero N] (h : l.Sorted) : l.contain key ↔ ∃ e ∈ l.slots, e.1 = key := by
  unfold contain
  split
  . next hlt =>
    simp only [Bool.false_eq_true, false_iff, not_exists, not_and]
    intro e he heq
    exact absurd (heq ▸ h.firstKey_le he) (not_le.mpr hlt)
  . simp

omit [LinearOrder K] [OrderTop K] in
theorem of_mem_take_findIdx {p : K × V → Bool} {slots : List (K × V)} {a : K × V}
    (h : a ∈ slots.take (slots.findIdx p))
    : p a = false := by
  obtain ⟨m, hm, rfl⟩ := List.mem_take_iff_getElem.mp h
  exact List.not_of_lt_findIdx (Nat.lt_of_lt_of_le hm (Nat.min_le_left _ _))

omit [LinearOrder K] [OrderTop K] in
theorem slots_findIdx {p : K × V → Bool} (hlt : l.slots.findIdx p < N)
    : ∃ e, l.slots = l.slots.take (l.slots.findIdx p) ++ e :: l.slots.drop (l.slots.findIdx p + 1) ∧ p e := by
  have hlen : l.slots.findIdx p < l.slots.length := by rwa [l.length_eq]
  refine ⟨l.slots[l.slots.findIdx p], ?_, List.findIdx_getElem⟩
  rw [List.getElem_cons_drop, List.take_append_drop]

omit [LinearOrder K] [OrderTop K] in
theorem not_mem_of_findIdx {p : K × V → Bool} (hle : ¬ l.slots.findIdx p < N) {e : K × V} (he : e ∈ l.slots)
    : p e = false := by
  by_contra hp
  have hlt := List.findIdx_lt_length.mpr ⟨e, he, (Bool.not_eq_false _).mp hp⟩
  exact hle (by rwa [l.length_eq] at hlt)

end Lookup

section Change

variable [NeZero N] {l l' : Leaf N K V} {key : K} {val : V}

omit [NeZero N] in
theorem Sorted.lt_of_mem_drop (h : l.Sorted)
    (hnew : l.slots[l.slots.findIdx (key ≤ ·.1)]?.map Prod.fst ≠ some key) {b : K × V}
    (hb : b ∈ l.slots.drop (l.slots.findIdx (key ≤ ·.1)))
    : key < b.1 := by
  have hlt : l.slots.findIdx (key ≤ ·.1) < l.slots.length := by
    by_contra hle
    rw [List.drop_eq_nil_of_le (Nat.not_lt.mp hle)] at hb
    cases hb
  have hdrop := h.drop (i := l.slots.findIdx (key ≤ ·.1))
  have hfirst := @List.findIdx_getElem _ (fun e : K × V => decide (key ≤ e.1)) l.slots hlt
  rw [List.drop_eq_getElem_cons hlt] at hb hdrop
  rw [List.getElem?_eq_getElem hlt] at hnew
  have hkey : key < l.slots[l.slots.findIdx (key ≤ ·.1)].1 := by
    refine lt_of_le_of_ne (by simpa using hfirst) ?_
    intro heq
    exact hnew (by rw [Option.map_some, ← heq])
  rcases List.mem_cons.mp hb with rfl | hb
  . exact hkey
  . exact hkey.trans_le ((List.pairwise_cons.mp hdrop).1 b hb).le

theorem insertNotFull_cases (h : l.Sorted) (hins : l.insertNotFull key val = some l')
    : (l' = l ∧ ((∃ e ∈ l.slots, e.1 = key) ∨ l.isfull))
        ∨ ∃ as bs blank cs, l.slots = as ++ (bs ++ blank :: cs) ∧ l'.slots = as ++ (key, val) :: (bs ++ cs)
          ∧ blank.1 = ⊤ ∧ (∀ a ∈ as, a.1 < key) ∧ ∀ b ∈ bs ++ blank :: cs, key < b.1 := by
  unfold insertNotFull at hins
  dsimp only at hins
  split at hins
  . cases hins
  . split at hins
    . next hexists =>
      cases hins
      obtain ⟨e, he, hkey⟩ := Option.map_eq_some_iff.mp hexists
      exact .inl ⟨rfl, .inl ⟨e, List.mem_of_getElem? he, hkey⟩⟩
    . next hnew =>
      have hgreater : ∀ b ∈ l.slots.drop (l.slots.findIdx (key ≤ ·.1)), key < b.1 :=
        fun b hb => h.lt_of_mem_drop hnew hb
      have hless : ∀ a ∈ l.slots.take (l.slots.findIdx (key ≤ ·.1)), a.1 < key := by
        intro a ha
        simpa using of_mem_take_findIdx ha
      split at hins
      . cases hins
      . split at hins
        . next hlt =>
          have hslots' := congrArg Leaf.slots (Option.some.inj hins)
          dsimp only at hslots'
          clear hins
          generalize l.slots.findIdx (key ≤ ·.1) = i at *
          have hlt' : (l.slots.drop i).findIdx (·.1 = ⊤) < (l.slots.drop i).length := by
            rw [List.length_drop, l.length_eq]
            omega
          have hblank := @List.findIdx_getElem _ (fun e : K × V => decide (e.1 = ⊤)) (l.slots.drop i) hlt'
          generalize (l.slots.drop i).findIdx (·.1 = ⊤) = d at *
          have hdrop : l.slots.drop i
              = (l.slots.take (i + d)).drop i ++ (l.slots.drop i)[d] :: l.slots.drop (i + d + 1) := by
            rw [List.drop_take, Nat.add_sub_cancel_left, Nat.add_assoc, ← List.drop_drop,
              List.getElem_cons_drop, List.take_append_drop]
          refine .inr ⟨l.slots.take i, (l.slots.take (i + d)).drop i, (l.slots.drop i)[d],
            l.slots.drop (i + d + 1), ?_, ?_, by simpa using hblank, hless, ?_⟩
          . rw [← hdrop, List.take_append_drop]
          . rw [← hslots', List.append_assoc, List.cons_append]
          . rw [← hdrop]
            exact hgreater
        . next hle =>
          cases hins
          refine .inl ⟨rfl, .inr ((isfull_iff h).mpr fun e he htop => ?_)⟩
          rw [← List.take_append_drop (l.slots.findIdx (key ≤ ·.1)) l.slots] at he
          rcases List.mem_append.mp he with he | he
          . exact not_top_lt (htop ▸ hless e he)
          . have hlt : (l.slots.drop _).findIdx (·.1 = ⊤) < _ :=
              List.findIdx_lt_length.mpr ⟨e, he, decide_eq_true htop⟩
            rw [List.length_drop, l.length_eq] at hlt
            omega

theorem insertNotFull_spec (h : l.Sorted) (hins : l.insertNotFull key val = some l')
    : l'.Sorted
        ∧ ((l' = l ∧ ((∃ e ∈ l.slots, e.1 = key) ∨ l.isfull))
          ∨ (key ≠ ⊤ ∧ ∀ e, e ∈ l'.entries ↔ e = (key, val) ∨ e ∈ l.entries)) := by
  rcases insertNotFull_cases h hins with ⟨rfl, hwhy⟩ | ⟨as, bs, blank, cs, hslots, hslots', hblank, has, hbs⟩
  . exact ⟨h, .inl ⟨rfl, hwhy⟩⟩
  . have htop : key ≠ ⊤ := by
      have := hbs blank (by simp)
      exact fun htop => not_top_lt (htop ▸ this)
    refine ⟨?_, .inr ⟨htop, ?_⟩⟩
    . have hsub : (as ++ (bs ++ cs)).Pairwise Before := by
        refine List.Pairwise.sublist ?_ h
        rw [hslots]
        exact ((List.sublist_cons_self blank cs).append_left bs).append_left as
      rw [List.pairwise_append] at hsub
      rw [Sorted, hslots', List.pairwise_append, List.pairwise_cons]
      refine ⟨hsub.1, ⟨?_, hsub.2.1⟩, ?_⟩
      . intro b hb
        refine .inl (hbs b ?_)
        rcases List.mem_append.mp hb with hb | hb
        . exact List.mem_append_left _ hb
        . exact List.mem_append_right _ (List.mem_cons_of_mem _ hb)
      . intro a ha b hb
        rcases List.mem_cons.mp hb with rfl | hb
        . exact .inl (has a ha)
        . exact hsub.2.2 a ha b hb
    . intro e
      have hkeep : e.1 ≠ ⊤ → e ≠ blank := fun hne heq => hne (heq ▸ hblank)
      simp only [mem_entries, hslots, hslots', List.mem_append, List.mem_cons]
      constructor
      . rintro ⟨hmem, hne⟩
        tauto
      . rintro (rfl | ⟨hmem, hne⟩)
        . exact ⟨.inr (.inl rfl), htop⟩
        . have := hkeep hne
          tauto

theorem insertNotFull_firstKey (h : l.Sorted) (hins : l.insertNotFull key val = some l')
    : l'.firstKey = l.firstKey ∨ l'.firstKey = key ∧ key < l.firstKey := by
  rcases insertNotFull_cases h hins with ⟨rfl, -⟩ | ⟨as, bs, blank, cs, hslots, hslots', -, -, hgreater⟩
  . exact .inl rfl
  . have hhead := l.head?_slots
    have hhead' := l'.head?_slots
    rw [hslots] at hhead
    rw [hslots'] at hhead'
    cases as with
    | nil =>
      refine .inr ⟨(Option.some.inj hhead').symm, ?_⟩
      obtain ⟨e, he, heq⟩ := Option.map_eq_some_iff.mp hhead
      rw [← heq]
      exact hgreater e (List.mem_of_head? he)
    | cons a as => exact .inl ((Option.some.inj hhead').symm.trans (Option.some.inj hhead))

theorem mem_entries_insertNotFull (h : l.Sorted) (hkey : key ≠ ⊤) (hnew : ∀ e ∈ l.entries, e.1 ≠ key)
    (hroom : l.isfull = false) (hins : l.insertNotFull key val = some l') (e : K × V)
    : e ∈ l'.entries ↔ e = (key, val) ∨ e ∈ l.entries := by
  obtain ⟨-, ⟨-, ⟨a, ha, heq⟩ | hfull⟩ | ⟨-, hmem⟩⟩ := insertNotFull_spec h hins
  . exact absurd heq (hnew a (mem_entries.mpr ⟨ha, heq ▸ hkey⟩))
  . rw [hroom] at hfull
    cases hfull
  . exact hmem e

theorem remove_cases {b : Bool} (hrem : l.remove key = some (b, l'))
    : (b = true ∧ ∃ as e bs last, l.slots = as ++ e :: bs ∧ l'.slots = as ++ bs ++ [last]
          ∧ e.1 = key ∧ last.1 = ⊤)
        ∨ (b = false ∧ l' = l ∧ ∀ e ∈ l.slots, e.1 ≠ key) := by
  unfold remove at hrem
  dsimp only at hrem
  split at hrem
  . cases hrem
  . split at hrem
    . next hlt =>
      cases hrem
      obtain ⟨e, hslots, he⟩ := slots_findIdx hlt
      exact .inl ⟨rfl, _, e, _, _, hslots, rfl, by simpa using he, rfl⟩
    . next hle =>
      cases hrem
      refine .inr ⟨rfl, rfl, fun e he => ?_⟩
      simpa using not_mem_of_findIdx hle he

theorem remove_spec (h : l.Sorted) {b : Bool} (hrem : l.remove key = some (b, l'))
    : l'.Sorted ∧ ∀ e, e ∈ l'.entries ↔ e ∈ l.entries ∧ e.1 ≠ key := by
  rcases remove_cases hrem with ⟨-, as, e, bs, last, hslots, hslots', hkey, htop⟩ | ⟨-, rfl, hnone⟩
  . have hpair : (as ++ e :: bs).Pairwise Before := hslots ▸ h
    have hsub : (as ++ bs).Pairwise Before := hpair.sublist ((List.sublist_cons_self e bs).append_left as)
    constructor
    . rw [Sorted, hslots', List.pairwise_append]
      refine ⟨hsub, List.pairwise_singleton _ _, fun a _ b hb => before_of_top ?_⟩
      rw [List.mem_singleton.mp hb]
      exact htop
    . intro a
      have hother : a ∈ as ++ bs → a.1 ≠ ⊤ → a.1 ≠ key := by
        intro ha hne heq
        rw [List.pairwise_append, List.pairwise_cons] at hpair
        rcases List.mem_append.mp ha with ha | ha
        . have hbefore := hpair.2.2 a ha e List.mem_cons_self
          exact (hbefore.lt (hkey ▸ heq ▸ hne)).ne (heq.trans hkey.symm)
        . have hbefore := hpair.2.1.1 a ha
          exact (hbefore.lt hne).ne (hkey.trans heq.symm)
      simp only [mem_entries, hslots, hslots', List.mem_append, List.mem_cons, List.not_mem_nil, or_false] at hother ⊢
      constructor
      . rintro ⟨hmem | rfl, hne⟩
        . exact ⟨⟨by tauto, hne⟩, hother hmem hne⟩
        . exact absurd htop hne
      . rintro ⟨⟨hmem, hne⟩, hnkey⟩
        refine ⟨.inl ?_, hne⟩
        rcases hmem with hmem | rfl | hmem
        . exact .inl hmem
        . exact absurd hkey hnkey
        . exact .inr hmem
  . exact ⟨h, fun e => ⟨fun he => ⟨he, hnone e (mem_entries.mp he).1⟩, And.left⟩⟩

theorem update_cases (l : Leaf N K V) (key : K) (val : V) (h : l.Sorted)
    : ((l.update key val).1 = true ∧ ∃ as e bs, l.slots = as ++ e :: bs
          ∧ (l.update key val).2.slots = as ++ (key, val) :: bs ∧ e.1 = key)
        ∨ ((l.update key val).1 = false ∧ (l.update key val).2 = l ∧ ∀ e ∈ l.slots, e.1 ≠ key) := by
  unfold update
  split
  . next hlt =>
    refine .inr ⟨rfl, rfl, fun e he heq => ?_⟩
    exact absurd (heq ▸ h.firstKey_le he) (not_le.mpr hlt)
  . dsimp only
    split
    . next hlt =>
      obtain ⟨e, hslots, he⟩ := slots_findIdx hlt
      refine .inl ⟨rfl, _, e, _, hslots, ?_, by simpa using he⟩
      exact List.set_eq_take_append_cons_drop.trans (if_pos (by rwa [l.length_eq]))
    . next hle =>
      refine .inr ⟨rfl, rfl, fun e he => ?_⟩
      simpa using not_mem_of_findIdx hle he

theorem update_firstKey (h : l.Sorted) : (l.update key val).2.firstKey = l.firstKey := by
  rcases update_cases l key val h with ⟨-, as, e, bs, hslots, hslots', hkey⟩ | ⟨-, heq, -⟩
  . have hhead := (l.update key val).2.head?_slots
    have hhead' := l.head?_slots
    rw [hslots'] at hhead
    rw [hslots] at hhead'
    cases as with
    | nil => exact (Option.some.inj hhead).symm.trans (hkey.symm.trans (Option.some.inj hhead'))
    | cons a as => exact (Option.some.inj hhead).symm.trans (Option.some.inj hhead')
  . rw [heq]

theorem update_sorted (h : l.Sorted) : (l.update key val).2.Sorted := by
  rcases update_cases l key val h with ⟨-, as, e, bs, hslots, hslots', hkey⟩ | ⟨-, heq, -⟩
  . rw [Sorted, hslots, List.pairwise_append, List.pairwise_cons] at h
    rw [Sorted, hslots', List.pairwise_append, List.pairwise_cons]
    obtain ⟨has, ⟨he, hbs⟩, hcross⟩ := h
    refine ⟨has, ⟨fun b hb => ?_, hbs⟩, fun a ha b hb => ?_⟩
    . have hbefore := he b hb
      rwa [Before, hkey] at hbefore
    . rcases List.mem_cons.mp hb with rfl | hb
      . have hbefore := hcross a ha e List.mem_cons_self
        rwa [Before, hkey] at hbefore
      . exact hcross a ha b (List.mem_cons_of_mem _ hb)
  . rw [heq]
    exact h

theorem keys_update (h : l.Sorted)
    : (l.update key val).2.entries.map Prod.fst = l.entries.map Prod.fst := by
  rcases update_cases l key val h with ⟨-, as, e, bs, hslots, hslots', hkey⟩ | ⟨-, heq, -⟩
  . simp only [entries, hslots, hslots', List.filter_append, List.filter_cons, hkey, List.map_append]
    split
    . rw [List.map_cons, List.map_cons, hkey]
    . rfl
  . rw [heq]

theorem mem_entries_update (h : l.Sorted) (hkey : key ≠ ⊤) (hupd : (l.update key val).1 = true) (e : K × V)
    : e ∈ (l.update key val).2.entries ↔ e = (key, val) ∨ e ∈ l.entries ∧ e.1 ≠ key := by
  rcases update_cases l key val h with ⟨-, as, a, bs, hslots, hslots', ha⟩ | ⟨hfalse, -, -⟩
  . have hother : e ∈ as ∨ e ∈ bs → e.1 ≠ key := by
      rw [Sorted, hslots, List.pairwise_append, List.pairwise_cons] at h
      rintro (he | he) heq
      . exact ((h.2.2 e he a List.mem_cons_self).lt (ha ▸ hkey)).ne (heq.trans ha.symm)
      . exact ((h.2.1.1 e he).lt (heq ▸ hkey)).ne (ha.trans heq.symm)
    simp only [mem_entries, hslots, hslots', List.mem_append, List.mem_cons]
    constructor
    . rintro ⟨he | rfl | he, hne⟩
      . exact .inr ⟨⟨.inl he, hne⟩, hother (.inl he)⟩
      . exact .inl rfl
      . exact .inr ⟨⟨.inr (.inr he), hne⟩, hother (.inr he)⟩
    . rintro (rfl | ⟨⟨he | rfl | he, hne⟩, hnkey⟩)
      . exact ⟨.inr (.inl rfl), hkey⟩
      . exact ⟨.inl he, hne⟩
      . exact absurd ha hnkey
      . exact ⟨.inr (.inr he), hne⟩
  . rw [hupd] at hfalse
    cases hfalse

/-- A full leaf and the two leaves that a split makes of it. -/
structure Halves (l lower upper : Leaf N K V) : Prop where
  lower_sorted : lower.Sorted
  upper_sorted : upper.Sorted
  lower_ne_nil : lower.entries ≠ []
  upper_ne_nil : upper.entries ≠ []
  lower_not_full : lower.isfull = false
  upper_not_full : upper.isfull = false
  firstKey_eq : lower.firstKey = l.firstKey
  mem_iff : ∀ e, e ∈ l.entries ↔ e ∈ lower.entries ∨ e ∈ upper.entries
  lt : ∀ a ∈ lower.entries, ∀ b ∈ upper.entries, a.1 < b.1

theorem sorted_append_blanks {as bs : List (K × V)} (h : as.Pairwise Before) (hbs : ∀ b ∈ bs, b.1 = ⊤)
    : (as ++ bs).Pairwise Before := by
  rw [List.pairwise_append]
  refine ⟨h, ?_, fun a _ b hb => before_of_top (hbs b hb)⟩
  exact List.Pairwise.imp_of_mem (fun _ hb _ => before_of_top (hbs _ hb)) (List.pairwise_of_forall fun _ _ => trivial)

theorem moveHalf_halves {nLeaf : Leaf N K V} (heven : Even N) (h : l.Sorted) (hfull : l.isfull)
    (hblank : nLeaf.Blank)
    : Halves l (l.moveHalf nLeaf).1 (l.moveHalf nLeaf).2 := by
  obtain ⟨mid, hmid⟩ := heven
  have hpos : 0 < mid := by
    have := NeZero.ne N
    omega
  have hlen := l.length_eq
  have hlen' := nLeaf.length_eq
  have hhalf : N / 2 = mid := by omega
  have htake : (l.slots.drop mid).take mid = l.slots.drop mid := by
    apply List.take_of_length_le
    rw [List.length_drop]
    omega
  have hrest : l.slots.drop (mid + mid) = [] := List.drop_eq_nil_of_le (by omega)
  -- the two halves with the slots without a pair behind them
  have hlower : (l.moveHalf nLeaf).1.slots
      = l.slots.take mid ++ (l.slots.drop mid).map fun e => (⊤, e.2) := by
    simp only [moveHalf, hhalf]
    rw [htake, hrest, List.append_nil]
  have hupper : (l.moveHalf nLeaf).2.slots = l.slots.drop mid ++ nLeaf.slots.drop mid := by
    simp only [moveHalf, hhalf]
    rw [htake]
  have hblank₁ : ∀ b ∈ (l.slots.drop mid).map (fun e => ((⊤ : K), e.2)), b.1 = ⊤ := by
    intro b hb
    obtain ⟨e, -, rfl⟩ := List.mem_map.mp hb
    rfl
  have hblank₂ : ∀ b ∈ nLeaf.slots.drop mid, b.1 = ⊤ := fun b hb => hblank b (List.mem_of_mem_drop hb)
  have hpair : (l.slots.take mid ++ l.slots.drop mid).Pairwise Before := by
    rw [List.take_append_drop]
    exact h
  rw [List.pairwise_append] at hpair
  have hvalid := (isfull_iff h).mp hfull
  have hsorted₁ : (l.moveHalf nLeaf).1.Sorted := by
    rw [Sorted, hlower]
    exact sorted_append_blanks hpair.1 hblank₁
  have hsorted₂ : (l.moveHalf nLeaf).2.Sorted := by
    rw [Sorted, hupper]
    exact sorted_append_blanks hpair.2.1 hblank₂
  have hmem₁ : ∀ e, e ∈ (l.moveHalf nLeaf).1.entries ↔ e ∈ l.slots.take mid := by
    intro e
    rw [mem_entries, hlower, List.mem_append]
    constructor
    . rintro ⟨he | he, hne⟩
      . exact he
      . exact absurd (hblank₁ e he) hne
    . intro he
      exact ⟨.inl he, hvalid e (List.mem_of_mem_take he)⟩
  have hmem₂ : ∀ e, e ∈ (l.moveHalf nLeaf).2.entries ↔ e ∈ l.slots.drop mid := by
    intro e
    rw [mem_entries, hupper, List.mem_append]
    constructor
    . rintro ⟨he | he, hne⟩
      . exact he
      . exact absurd (hblank₂ e he) hne
    . intro he
      exact ⟨.inl he, hvalid e (List.mem_of_mem_drop he)⟩
  have htake₀ : l.slots.take mid ≠ [] := by
    intro hnil
    rcases List.take_eq_nil_iff.mp hnil with hnil | hnil
    . omega
    . exact l.slots_ne_nil hnil
  have hdrop : l.slots.drop mid ≠ [] := by
    intro hnil
    rw [List.drop_eq_nil_iff] at hnil
    omega
  constructor
  . exact hsorted₁
  . exact hsorted₂
  . intro hnil
    refine htake₀ (List.eq_nil_iff_forall_not_mem.mpr fun e he => ?_)
    rw [← hmem₁, hnil] at he
    cases he
  . intro hnil
    refine hdrop (List.eq_nil_iff_forall_not_mem.mpr fun e he => ?_)
    rw [← hmem₂, hnil] at he
    cases he
  . rw [← Bool.not_eq_true, isfull_iff hsorted₁, hlower]
    intro hall
    obtain ⟨e, he⟩ := List.exists_mem_of_ne_nil _ hdrop
    exact hall (⊤, e.2) (List.mem_append_right _ (List.mem_map_of_mem he)) rfl
  . rw [← Bool.not_eq_true, isfull_iff hsorted₂, hupper]
    intro hall
    have hne : nLeaf.slots.drop mid ≠ [] := by
      intro hnil
      rw [List.drop_eq_nil_iff] at hnil
      omega
    obtain ⟨e, he⟩ := List.exists_mem_of_ne_nil _ hne
    exact hall e (List.mem_append_right _ he) (hblank₂ e he)
  . have hhead := (l.moveHalf nLeaf).1.head?_slots
    have hhead' := l.head?_slots
    rw [hlower, List.head?_append_of_ne_nil, List.head?_take, if_neg (by omega), hhead'] at hhead
    . exact (Option.some.inj hhead).symm
    . exact htake₀
  . intro e
    rw [hmem₁, hmem₂, ← List.mem_append, List.take_append_drop, mem_entries]
    exact ⟨And.left, fun he => ⟨he, hvalid e he⟩⟩
  . intro a ha b hb
    rw [hmem₁] at ha
    rw [hmem₂] at hb
    exact (hpair.2.2 a ha b hb).lt (hvalid b (List.mem_of_mem_drop hb))

end Change

end Leaf

end MemoryNode

end Rolex

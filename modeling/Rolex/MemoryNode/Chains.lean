import Rolex.MemoryNode.LeafTable
import Rolex.MemoryNode.Group
import Mathlib.Data.Finset.Card
import Mathlib.Data.Finset.Range

/-!
This module contains the structure of the synonym chains of a leaf table: each slot has a chain of places that
are linked up, and every function of the table changes the chain of one slot as the lists of leaves say.
-/

namespace Rolex

namespace MemoryNode

namespace LeafTable

variable {N : Nat} {K V : Type}

def tableEntry (t : LeafTable N K V) : Place → TableEntry
  | .table i => t.table[i]?.getD ⟨0, 0⟩
  | .synonym s => t.synonymTable s

def leafNum (t : LeafTable N K V) (p : Place) : Nat := (t.tableEntry p).leafNum

def leafAt (t : LeafTable N K V) (p : Place) : Leaf N K V := t.alloc.leaves (t.leafNum p)

/-- Where the field `synonym_leaf` of a place leads to. -/
def link (t : LeafTable N K V) (p : Place) : Option Place :=
  if (t.tableEntry p).synonymLeaf = 0 then none else some (.synonym (t.tableEntry p).synonymLeaf)

/-- The chains of the slots: linked up, without a common place, each place with a leaf of its own. -/
structure Linked (t : LeafTable N K V) (places : Nat → List Place) : Prop where
  head : ∀ i < t.table.length, (places i).head? = some (.table i)
  tail : ∀ i < t.table.length, ∀ p ∈ (places i).tail, ∃ s, p = .synonym s ∧ 0 < s ∧ s < (t.synonymTable 0).leafNum
  threaded : ∀ i < t.table.length, Threaded t.link (places i)
  nodup : ∀ i < t.table.length, (places i).Nodup
  disjoint : ∀ i < t.table.length, ∀ j < t.table.length, ∀ p ∈ places i, p ∈ places j → i = j
  num_pos : 0 < (t.synonymTable 0).leafNum
  num_le : (t.synonymTable 0).leafNum ≤ kSynonymMax - 1
  leafNum_lt : ∀ i < t.table.length, ∀ p ∈ places i, t.leafNum p < t.alloc.usedNum
  leafNum_inj : ∀ i < t.table.length, ∀ j < t.table.length, ∀ p ∈ places i, ∀ q ∈ places j,
    t.leafNum p = t.leafNum q → p = q

def group (t : LeafTable N K V) (places : Nat → List Place) (i : Nat) : List (Leaf N K V) :=
  (places i).map t.leafAt

namespace Linked

variable {t : LeafTable N K V} {places : Nat → List Place} {i : Nat}

theorem cons_tail (h : Linked t places) (hi : i < t.table.length) : places i = .table i :: (places i).tail :=
  (List.eq_cons_of_mem_head? (h.head i hi))

theorem table_mem (h : Linked t places) (hi : i < t.table.length) : .table i ∈ places i := by
  rw [h.cons_tail hi]
  exact List.mem_cons_self

theorem mem_cases (h : Linked t places) (hi : i < t.table.length) {p : Place} (hp : p ∈ places i)
    : p = .table i ∨ ∃ s, p = .synonym s ∧ 0 < s ∧ s < (t.synonymTable 0).leafNum := by
  rw [h.cons_tail hi] at hp
  rcases List.mem_cons.mp hp with rfl | hp
  . exact .inl rfl
  . exact .inr (h.tail i hi p hp)

theorem exists_indices (h : Linked t places) (hi : i < t.table.length)
    : ∃ l : List Nat, places i = .table i :: l.map .synonym ∧ l.Nodup
        ∧ ∀ s ∈ l, 0 < s ∧ s < (t.synonymTable 0).leafNum := by
  have hlist : ∀ ps : List Place, (∀ p ∈ ps, ∃ s, p = .synonym s ∧ 0 < s ∧ s < (t.synonymTable 0).leafNum)
      → ∃ l : List Nat, ps = l.map .synonym ∧ ∀ s ∈ l, 0 < s ∧ s < (t.synonymTable 0).leafNum := by
    intro ps hps
    induction ps with
    | nil => exact ⟨[], rfl, by simp⟩
    | cons p ps ih =>
      obtain ⟨s, rfl, hs⟩ := hps p List.mem_cons_self
      obtain ⟨l, rfl, hl⟩ := ih fun q hq => hps q (List.mem_cons_of_mem _ hq)
      refine ⟨s :: l, rfl, fun r hr => ?_⟩
      rcases List.mem_cons.mp hr with rfl | hr
      . exact hs
      . exact hl r hr
  obtain ⟨l, hl, hbound⟩ := hlist _ (h.tail i hi)
  have heq := h.cons_tail hi
  rw [hl] at heq
  refine ⟨l, heq, ?_, hbound⟩
  have hnodup := h.nodup i hi
  rw [heq, List.nodup_cons] at hnodup
  exact List.Nodup.of_map _ hnodup.2

theorem entry_eq (h : Linked t places) (hi : i < t.table.length) {p : Place} (hp : p ∈ places i)
    : t.entry p = some (t.tableEntry p) := by
  rcases h.mem_cases hi hp with rfl | ⟨s, rfl, -, hs⟩
  . rw [entry, tableEntry, List.getElem?_eq_getElem hi, Option.getD_some]
  . have hle := h.num_le
    have hlt : s < kSynonymMax := by
      unfold kSynonymMax at hle ⊢
      omega
    rw [entry, if_pos hlt, tableEntry]

theorem alloc_getLeaf (h : Linked t places) (hi : i < t.table.length) {p : Place} (hp : p ∈ places i)
    : t.alloc.getLeaf (t.tableEntry p).leafNum = some (t.leafAt p) :=
  if_pos (h.leafNum_lt i hi p hp).le

theorem getLeaf_eq (h : Linked t places) (hi : i < t.table.length) {p : Place} (hp : p ∈ places i)
    : t.getLeaf p = some (t.leafAt p) := by
  rw [getLeaf, h.entry_eq hi hp]
  exact h.alloc_getLeaf hi hp

end Linked

section Walk

variable {t : LeafTable N K V} {places : Nat → List Place} {i : Nat}

theorem follow_of_threaded {p : Place} {l : List Nat} {fuel : Nat}
    (h : Threaded t.link (p :: l.map .synonym)) (hl : ∀ s ∈ l, 0 < s ∧ s < kSynonymMax) (hfuel : l.length ≤ fuel)
    : t.follow fuel (t.tableEntry p).synonymLeaf = some l := by
  induction l generalizing p fuel with
  | nil =>
    have hlink := h.1
    unfold link at hlink
    split at hlink
    . next hzero => rw [hzero, follow.eq_def]
    . cases hlink
  | cons s l ih =>
    obtain ⟨hpos, hlt⟩ := hl s List.mem_cons_self
    have hnext : (t.tableEntry p).synonymLeaf = s := by
      have hlink := h.1
      unfold link at hlink
      split at hlink
      . cases hlink
      . simpa using hlink
    obtain ⟨s', rfl⟩ : ∃ s', s = s' + 1 := ⟨s - 1, by omega⟩
    obtain ⟨fuel', rfl⟩ : ∃ fuel', fuel = fuel' + 1 := ⟨fuel - 1, by rw [List.length_cons] at hfuel; omega⟩
    have hrest := @ih (.synonym (s' + 1)) fuel' h.2 (fun r hr => hl r (List.mem_cons_of_mem _ hr))
      (Nat.le_of_succ_le_succ hfuel)
    rw [hnext, follow, if_pos hlt, show (t.synonymTable (s' + 1)).synonymLeaf
      = (t.tableEntry (.synonym (s' + 1))).synonymLeaf from rfl, hrest]
    rfl

theorem length_le_of_bounded {l : List Nat} {n : Nat} (hnodup : l.Nodup) (h : ∀ s ∈ l, s < n) : l.length ≤ n := by
  rw [← List.toFinset_card_of_nodup hnodup, ← Finset.card_range n]
  apply Finset.card_le_card
  intro s hs
  exact Finset.mem_range.mpr (h s (List.mem_toFinset.mp hs))

theorem Linked.sLeaves_eq (h : Linked t places) (hi : i < t.table.length) {l : List Nat}
    (hl : places i = .table i :: l.map .synonym)
    : t.sLeaves i = some l := by
  obtain ⟨l', hl', hnodup, hbound⟩ := h.exists_indices hi
  obtain rfl : l = l' := by
    rw [hl] at hl'
    exact List.map_injective_iff.mpr (fun _ _ => Place.synonym.inj) (List.cons.inj hl').2
  have hlt : ∀ s ∈ l, 0 < s ∧ s < kSynonymMax := by
    intro s hs
    have hle := h.num_le
    have hs := hbound s hs
    unfold kSynonymMax at hle ⊢
    omega
  have hthread := h.threaded i hi
  rw [hl] at hthread
  have hfollow := follow_of_threaded hthread hlt (length_le_of_bounded hnodup fun s hs => (hlt s hs).2)
  rw [tableEntry, List.getElem?_eq_getElem hi, Option.getD_some] at hfollow
  rw [sLeaves, List.getElem?_eq_getElem hi]
  exact hfollow

end Walk

section Route

variable [NeZero N] [LinearOrder K] [OrderTop K] {t : LeafTable N K V} {places : Nat → List Place} {i : Nat}

omit [OrderTop K] in
theorem lastHere_spec (key : K) {l : List Nat} (hget : ∀ s ∈ l, t.getLeaf (.synonym s) = some (t.leafAt (.synonym s)))
    {n : Nat} (hn : n ≤ l.length)
    : (t.lastHere key l n = some none ∧ ∀ s ∈ l.take n, key < (t.leafAt (.synonym s)).firstKey)
        ∨ ∃ k s, t.lastHere key l n = some (some k) ∧ k < n ∧ l[k]? = some s
          ∧ (t.leafAt (.synonym s)).firstKey ≤ key
          ∧ ∀ r ∈ (l.take n).drop (k + 1), key < (t.leafAt (.synonym r)).firstKey := by
  induction n with
  | zero => exact .inl ⟨rfl, by simp⟩
  | succ n ih =>
    have hlt : n < l.length := hn
    have htake : l.take (n + 1) = l.take n ++ [l[n]] := (List.take_append_getElem hlt).symm
    rw [lastHere, List.getElem?_eq_getElem hlt, htake]
    simp only [Option.bind_eq_bind, Option.bind_some, hget l[n] (List.getElem_mem hlt)]
    by_cases hhere : (t.leafAt (.synonym l[n])).insertHere key
    . rw [if_pos hhere]
      refine .inr ⟨n, l[n], rfl, Nat.lt_succ_self n, List.getElem?_eq_getElem hlt,
        by simpa [Leaf.insertHere] using hhere, ?_⟩
      intro r hr
      rw [List.drop_eq_nil_of_le] at hr
      . cases hr
      . rw [List.length_append, List.length_singleton, List.length_take]
        omega
    . rw [if_neg hhere]
      have habove : key < (t.leafAt (.synonym l[n])).firstKey := by simpa [Leaf.insertHere] using hhere
      rcases ih hlt.le with ⟨hlast, hall⟩ | ⟨k, s, hlast, hk, hs, hle, hall⟩
      . refine .inl ⟨hlast, fun s hs => ?_⟩
        rcases List.mem_append.mp hs with hs | hs
        . exact hall s hs
        . rw [List.mem_singleton.mp hs]
          exact habove
      . refine .inr ⟨k, s, hlast, Nat.lt_succ_of_lt hk, hs, hle, fun r hr => ?_⟩
        rw [List.drop_append_of_le_length (by rw [List.length_take]; omega)] at hr
        rcases List.mem_append.mp hr with hr | hr
        . exact hall r hr
        . rw [List.mem_singleton.mp hr]
          exact habove

omit [OrderTop K] in
theorem Linked.findCur_spec (h : Linked t places) (hi : i < t.table.length) (key : K)
    : ∃ l idx xs p ys, t.findCur key i = some (l, idx, p) ∧ places i = .table i :: l.map .synonym
        ∧ places i = xs ++ p :: ys ∧ (∀ k, idx = some k ↔ xs.length = k + 1)
        ∧ Routed key (xs.map t.leafAt) (t.leafAt p) (ys.map t.leafAt) := by
  obtain ⟨l, hl, -, -⟩ := h.exists_indices hi
  have hget : ∀ s ∈ l, t.getLeaf (.synonym s) = some (t.leafAt (.synonym s)) := by
    intro s hs
    apply h.getLeaf_eq hi
    rw [hl]
    exact List.mem_cons_of_mem _ (List.mem_map_of_mem hs)
  unfold findCur
  rw [h.sLeaves_eq hi hl]
  simp only [Option.bind_eq_bind, Option.bind_some]
  rcases lastHere_spec key hget (le_refl _) with ⟨hlast, hall⟩ | ⟨k, s, hlast, hk, hs, hle, hall⟩
  . rw [List.take_length] at hall
    refine ⟨l, none, [], .table i, l.map .synonym, by simp [hlast, curPlace], hl, hl, by simp, .inl rfl, ?_⟩
    intro y hy
    simp only [List.map_map, List.mem_map, Function.comp_apply] at hy
    obtain ⟨s, hs, rfl⟩ := hy
    exact hall s hs
  . rw [List.take_length] at hall
    have hsplit : l = l.take k ++ s :: l.drop (k + 1) := by
      obtain ⟨hlt, rfl⟩ := List.getElem?_eq_some_iff.mp hs
      rw [List.getElem_cons_drop, List.take_append_drop]
    refine ⟨l, some k, .table i :: (l.take k).map .synonym, .synonym s, (l.drop (k + 1)).map .synonym,
      by simp [hlast, curPlace, hs], hl, ?_, ?_, .inr hle, ?_⟩
    . rw [hl, List.cons_append, ← List.map_cons, ← List.map_append, ← hsplit]
    . intro k'
      rw [List.length_cons, List.length_map, List.length_take, Nat.min_eq_left hk.le]
      simp
    . intro y hy
      simp only [List.map_map, List.mem_map, Function.comp_apply] at hy
      obtain ⟨r, hr, rfl⟩ := hy
      exact hall r hr

end Route

section Change

variable {t t' : LeafTable N K V} {places : Nat → List Place} {i : Nat} {p : Place} {xs ys : List Place}

theorem leafAt_setLeaf (t : LeafTable N K V) (n : Nat) (l : Leaf N K V) (q : Place)
    : (t.setLeaf n l).leafAt q = if t.leafNum q = n then l else t.leafAt q := by
  rw [leafAt, leafAt]
  exact Function.update_apply ..

theorem Linked.setLeaf (h : Linked t places) (n : Nat) (l : Leaf N K V) : Linked (t.setLeaf n l) places :=
  ⟨h.head, h.tail, h.threaded, h.nodup, h.disjoint, h.num_pos, h.num_le, h.leafNum_lt, h.leafNum_inj⟩

theorem Linked.leafAt_setLeaf_of_ne (h : Linked t places) {j : Nat} (hi : i < t.table.length) (hj : j < t.table.length)
    (hp : p ∈ places i) (l : Leaf N K V) {q : Place} (hq : q ∈ places j) (hne : q ≠ p)
    : (t.setLeaf (t.leafNum p) l).leafAt q = t.leafAt q := by
  rw [leafAt_setLeaf, if_neg]
  intro heq
  exact hne (h.leafNum_inj j hj i hi q hq p hp heq)

theorem Linked.map_leafAt_setLeaf (h : Linked t places) {j : Nat} (hi : i < t.table.length) (hj : j < t.table.length)
    (hp : p ∈ places i) (l : Leaf N K V) {qs : List Place} (hqs : ∀ q ∈ qs, q ∈ places j ∧ q ≠ p)
    : qs.map (t.setLeaf (t.leafNum p) l).leafAt = qs.map t.leafAt :=
  List.map_congr_left fun q hq => h.leafAt_setLeaf_of_ne hi hj hp l (hqs q hq).1 (hqs q hq).2

theorem Linked.group_setLeaf (h : Linked t places) (hi : i < t.table.length) (hplaces : places i = xs ++ p :: ys)
    (l : Leaf N K V)
    : (t.setLeaf (t.leafNum p) l).group places i = xs.map t.leafAt ++ l :: ys.map t.leafAt := by
  have hnodup := h.nodup i hi
  have hp : p ∈ places i := by simp [hplaces]
  rw [hplaces] at hnodup
  have hxs : ∀ q ∈ xs, q ∈ places i ∧ q ≠ p := by
    intro q hq
    refine ⟨by simp [hplaces, hq], ?_⟩
    rintro rfl
    exact Threaded.not_mem_left_of_nodup hnodup hq
  have hys : ∀ q ∈ ys, q ∈ places i ∧ q ≠ p := by
    intro q hq
    refine ⟨by simp [hplaces, hq], ?_⟩
    rintro rfl
    exact (List.nodup_cons.mp (List.nodup_append.mp hnodup).2.1).1 hq
  rw [group, hplaces, List.map_append, List.map_cons, h.map_leafAt_setLeaf hi hi hp l hxs,
    h.map_leafAt_setLeaf hi hi hp l hys, leafAt_setLeaf, if_pos rfl]

theorem Linked.group_setLeaf_of_ne (h : Linked t places) {j : Nat} (hi : i < t.table.length)
    (hj : j < t.table.length) (hp : p ∈ places i) (hne : j ≠ i) (l : Leaf N K V)
    : (t.setLeaf (t.leafNum p) l).group places j = t.group places j := by
  apply h.map_leafAt_setLeaf hi hj hp l
  intro q hq
  refine ⟨hq, ?_⟩
  rintro rfl
  exact hne (h.disjoint j hj i hi q hq hp)

end Change

section Links

variable {t : LeafTable N K V} {places : Nat → List Place} {i : Nat} {p : Place} {xs ys : List Place}

@[simp]
theorem length_setLink (t : LeafTable N K V) (p : Place) (s : Nat) : (t.setLink p s).table.length = t.table.length := by
  cases p with
  | table i => exact List.length_modify ..
  | synonym i => rfl

@[simp]
theorem alloc_setLink (t : LeafTable N K V) (p : Place) (s : Nat) : (t.setLink p s).alloc = t.alloc := by
  cases p with
  | table i => rfl
  | synonym i => rfl

theorem synonymTable_setLink_leafNum (t : LeafTable N K V) (p : Place) (s i : Nat)
    : ((t.setLink p s).synonymTable i).leafNum = (t.synonymTable i).leafNum := by
  cases p with
  | table => rfl
  | synonym j =>
    simp only [setLink, setSynonym, Function.update_apply]
    split
    . next heq => rw [heq]
    . rfl

theorem tableEntry_setLink (t : LeafTable N K V) (p : Place) (s : Nat) (q : Place) (hp : ∃ te, t.entry p = some te)
    : (t.setLink p s).tableEntry q
        = if q = p then { t.tableEntry p with synonymLeaf := s % 2 ^ 8 } else t.tableEntry q := by
  cases p with
  | table i =>
    cases q with
    | table j =>
      obtain ⟨te, hte⟩ := hp
      by_cases heq : j = i
      . subst heq
        rw [if_pos rfl]
        simp [setLink, tableEntry, show t.table[j]? = some te from hte]
      . rw [if_neg (by simpa using heq)]
        simp [setLink, tableEntry, Ne.symm heq]
    | synonym r => rw [if_neg (by simp)]; rfl
  | synonym i =>
    cases q with
    | table j => rw [if_neg (by simp)]; rfl
    | synonym r =>
      simp only [setLink, setSynonym, tableEntry, Function.update_apply, Place.synonym.injEq]

theorem link_setLink (t : LeafTable N K V) (p : Place) (s : Nat) (hp : ∃ te, t.entry p = some te) (hs : s < 2 ^ 8)
    : (t.setLink p s).link = Function.update t.link p (if s = 0 then none else some (.synonym s)) := by
  funext q
  rw [link, tableEntry_setLink t p s q hp, Function.update_apply]
  split
  . rw [Nat.mod_eq_of_lt hs]
  . rfl

theorem leafNum_setLink (t : LeafTable N K V) (p : Place) (s : Nat) (hp : ∃ te, t.entry p = some te) (q : Place)
    : (t.setLink p s).leafNum q = t.leafNum q := by
  rw [leafNum, tableEntry_setLink t p s q hp]
  split
  . next heq => rw [heq, leafNum]
  . rfl

theorem Linked.link_eq (h : Linked t places) (hi : i < t.table.length) (hplaces : places i = xs ++ p :: ys)
    : t.link p = ys.head? := by
  have hthread := h.threaded i hi
  rw [hplaces, Threaded.append_cons] at hthread
  exact hthread.1.1

theorem Linked.synonymLeaf_lt (h : Linked t places) (hi : i < t.table.length) (hp : p ∈ places i)
    : (t.tableEntry p).synonymLeaf < 2 ^ 8 := by
  obtain ⟨xs, ys, hplaces⟩ := List.append_of_mem hp
  have hlink := h.link_eq hi hplaces
  unfold link at hlink
  split at hlink
  . next hzero =>
    rw [hzero]
    decide
  . have hmem : .synonym (t.tableEntry p).synonymLeaf ∈ ys := List.mem_of_head? hlink.symm
    have hmem' : .synonym (t.tableEntry p).synonymLeaf ∈ places i := by simp [hplaces, hmem]
    rcases h.mem_cases hi hmem' with heq | ⟨s, heq, -, hs⟩
    . cases heq
    . have hle := h.num_le
      rw [Place.synonym.inj heq]
      unfold kSynonymMax at hle
      omega

/-- The chain of one slot gets other places: old ones of the slot and perhaps `q`, which is new. -/
theorem Linked.update_chain (h : Linked t places) (hi : i < t.table.length) {t' : LeafTable N K V} {L : List Place}
    {q : Place} (hlen : t'.table.length = t.table.length)
    (hnum : (t.synonymTable 0).leafNum ≤ (t'.synonymTable 0).leafNum)
    (hnum' : (t'.synonymTable 0).leafNum ≤ kSynonymMax - 1)
    (hused : t.alloc.usedNum ≤ t'.alloc.usedNum)
    (hhead : L.head? = some (.table i))
    (htail : ∀ p ∈ L.tail, ∃ s, p = .synonym s ∧ 0 < s ∧ s < (t'.synonymTable 0).leafNum)
    (hthread : Threaded t'.link L) (hnodup : L.Nodup)
    (hlink : ∀ j < t.table.length, j ≠ i → ∀ p ∈ places j, t'.link p = t.link p)
    (hleaf : ∀ j < t.table.length, ∀ p ∈ places j, t'.leafNum p = t.leafNum p)
    (hsub : ∀ p ∈ L, p ∈ places i ∨ p = q)
    (hq : q ∈ L → (∀ j < t.table.length, q ∉ places j)
      ∧ t.alloc.usedNum ≤ t'.leafNum q ∧ t'.leafNum q < t'.alloc.usedNum)
    : Linked t' (Function.update places i L) := by
  -- a place of a new chain is a place of the old one or new
  have hcases : ∀ j < t.table.length, ∀ p ∈ Function.update places i L j,
      p ∈ places j ∨ j = i ∧ p = q ∧ q ∈ L := by
    intro j hj p hp
    by_cases hji : j = i
    . subst hji
      rw [Function.update_self] at hp
      rcases hsub p hp with hp' | rfl
      . exact .inl hp'
      . exact .inr ⟨rfl, rfl, hp⟩
    . rw [Function.update_of_ne hji] at hp
      exact .inl hp
  constructor
  . intro j hj
    rw [hlen] at hj
    by_cases hji : j = i
    . subst hji
      rw [Function.update_self]
      exact hhead
    . rw [Function.update_of_ne hji]
      exact h.head j hj
  . intro j hj p hp
    rw [hlen] at hj
    by_cases hji : j = i
    . subst hji
      rw [Function.update_self] at hp
      exact htail p hp
    . rw [Function.update_of_ne hji] at hp
      obtain ⟨s, hs, hpos, hlt⟩ := h.tail j hj p hp
      exact ⟨s, hs, hpos, hlt.trans_le hnum⟩
  . intro j hj
    rw [hlen] at hj
    by_cases hji : j = i
    . subst hji
      rw [Function.update_self]
      exact hthread
    . rw [Function.update_of_ne hji]
      exact (h.threaded j hj).congr (hlink j hj hji)
  . intro j hj
    rw [hlen] at hj
    by_cases hji : j = i
    . subst hji
      rw [Function.update_self]
      exact hnodup
    . rw [Function.update_of_ne hji]
      exact h.nodup j hj
  . intro j hj k hk p hpj hpk
    rw [hlen] at hj hk
    rcases hcases j hj p hpj with hj' | ⟨hji, hpq, hL⟩
    . rcases hcases k hk p hpk with hk' | ⟨hki, hpq, hL⟩
      . exact h.disjoint j hj k hk p hj' hk'
      . exact absurd (hpq ▸ hj') ((hq hL).1 j hj)
    . rcases hcases k hk p hpk with hk' | ⟨hki, -⟩
      . exact absurd (hpq ▸ hk') ((hq hL).1 k hk)
      . rw [hji, hki]
  . exact h.num_pos.trans_le hnum
  . exact hnum'
  . intro j hj p hp
    rw [hlen] at hj
    rcases hcases j hj p hp with hp | ⟨-, rfl, hL⟩
    . rw [hleaf j hj p hp]
      exact (h.leafNum_lt j hj p hp).trans_le hused
    . exact (hq hL).2.2
  . intro j hj k hk p hp r hr heq
    rw [hlen] at hj hk
    rcases hcases j hj p hp with hp | ⟨-, hpq, hL⟩
    . rcases hcases k hk r hr with hr | ⟨-, hrq, hL⟩
      . rw [hleaf j hj p hp, hleaf k hk r hr] at heq
        exact h.leafNum_inj j hj k hk p hp r hr heq
      . rw [hleaf j hj p hp, hrq] at heq
        have hlt := h.leafNum_lt j hj p hp
        have hge := (hq hL).2.1
        omega
    . rcases hcases k hk r hr with hr | ⟨-, hrq, -⟩
      . rw [hleaf k hk r hr, hpq] at heq
        have hlt := h.leafNum_lt k hk r hr
        have hge := (hq hL).2.1
        omega
      . rw [hpq, hrq]

theorem Linked.unlink {s : Nat} (h : Linked t places) (hi : i < t.table.length)
    (hplaces : places i = xs ++ p :: .synonym s :: ys)
    : Linked (t.setLink p (t.synonymTable s).synonymLeaf) (Function.update places i (xs ++ p :: ys)) := by
  have hp : p ∈ places i := by simp [hplaces]
  have hs : .synonym s ∈ places i := by simp [hplaces]
  have hentry : ∃ te, t.entry p = some te := ⟨_, h.entry_eq hi hp⟩
  have hlt : (t.synonymTable s).synonymLeaf < 2 ^ 8 := h.synonymLeaf_lt hi hs
  have hlink := link_setLink t p _ hentry hlt
  have hsub : ∀ q ∈ xs ++ p :: ys, q ∈ places i := by
    intro q hq
    rw [hplaces]
    simp only [List.mem_append, List.mem_cons] at hq ⊢
    tauto
  have hnodup := h.nodup i hi
  have hthread := h.threaded i hi
  rw [hplaces] at hnodup hthread
  have hzero : Place.synonym 0 ∉ xs ++ p :: ys := by
    intro hmem
    rcases h.mem_cases hi (hsub _ hmem) with heq | ⟨s', heq, hpos, -⟩
    . cases heq
    . cases heq
      exact absurd hpos (Nat.lt_irrefl 0)
  apply h.update_chain hi (q := .synonym 0)
  . exact length_setLink ..
  . rw [synonymTable_setLink_leafNum]
  . rw [synonymTable_setLink_leafNum]
    exact h.num_le
  . rw [alloc_setLink]
  . have hhead := h.head i hi
    rw [hplaces] at hhead
    cases xs with
    | nil => exact hhead
    | cons x xs => exact hhead
  . intro q hq
    rw [synonymTable_setLink_leafNum]
    apply h.tail i hi
    rw [hplaces]
    cases xs with
    | nil => exact List.mem_cons_of_mem _ hq
    | cons x xs =>
      simp only [List.cons_append, List.tail_cons, List.mem_append, List.mem_cons] at hq ⊢
      tauto
  . rw [hlink]
    exact hthread.unlink hnodup
  . refine hnodup.sublist ?_
    exact ((List.sublist_cons_self _ _).cons_cons p).append_left xs
  . intro j hj hji q hq
    rw [hlink, Function.update_of_ne]
    rintro rfl
    exact hji (h.disjoint j hj i hi q hq hp)
  . intro j hj q hq
    exact leafNum_setLink t p _ hentry q
  . exact fun q hq => .inl (hsub q hq)
  . exact fun hmem => absurd hmem hzero

theorem tableEntry_setSynonym (t : LeafTable N K V) (s : Nat) (te : TableEntry) (q : Place)
    : (t.setSynonym s te).tableEntry q = if q = .synonym s then te else t.tableEntry q := by
  cases q with
  | table j => rfl
  | synonym r => simp only [setSynonym, tableEntry, Function.update_apply, Place.synonym.injEq]

/-- The table that `synonym_emplace_back` leaves behind for a place with an entry. -/
def emplaced (t : LeafTable N K V) (p : Place) (num : Nat) : LeafTable N K V :=
  let idx := t.synonymNum
  let t' := (t.setSynonym 0 { t.synonymTable 0 with leafNum := idx + 1 }).setLink p idx
  t'.setSynonym idx ⟨(t.tableEntry p).synonymLeaf, num⟩

section Emplace

variable {num : Nat}

theorem Linked.ne_synonym_zero (h : Linked t places) (hi : i < t.table.length) (hp : p ∈ places i)
    : p ≠ .synonym 0 := by
  rintro rfl
  rcases h.mem_cases hi hp with heq | ⟨s, heq, hpos, -⟩
  . cases heq
  . cases heq
    exact absurd hpos (Nat.lt_irrefl 0)

theorem Linked.ne_synonymNum (h : Linked t places) (hi : i < t.table.length) (hp : p ∈ places i)
    : p ≠ .synonym t.synonymNum := by
  rintro rfl
  rcases h.mem_cases hi hp with heq | ⟨s, heq, -, hlt⟩
  . cases heq
  . cases heq
    exact absurd hlt (Nat.lt_irrefl _)

theorem Linked.synonymEmplaceBack_eq (h : Linked t places) (hi : i < t.table.length) (hp : p ∈ places i)
    (hroom : t.synonymNum ≠ kSynonymMax - 1) (alloc : LeafAllocator N K V)
    : { t with alloc := alloc }.synonymEmplaceBack p num = some { t.emplaced p num with alloc := alloc } := by
  have hzero := h.ne_synonym_zero hi hp
  have hentry : ({ t with alloc := alloc }.setSynonym 0 { t.synonymTable 0 with leafNum := t.synonymNum + 1 }).entry p
      = some (t.tableEntry p) := by
    rw [← h.entry_eq hi hp]
    cases p with
    | table j => rfl
    | synonym s =>
      have hs : s ≠ 0 := fun heq => hzero (heq ▸ rfl)
      simp only [entry, setSynonym, Function.update_of_ne hs]
  refine (if_neg hroom).trans (Option.bind_eq_some_iff.mpr ⟨_, hentry, ?_⟩)
  cases p with
  | table j => rfl
  | synonym s => rfl

theorem Linked.tableEntry_emplaced (h : Linked t places) (hi : i < t.table.length) (hp : p ∈ places i) (q : Place)
    : (t.emplaced p num).tableEntry q
        = if q = .synonym t.synonymNum then ⟨(t.tableEntry p).synonymLeaf, num⟩
          else if q = p then { t.tableEntry p with synonymLeaf := t.synonymNum % 2 ^ 8 }
          else if q = .synonym 0 then { t.synonymTable 0 with leafNum := t.synonymNum + 1 }
          else t.tableEntry q := by
  have hzero := h.ne_synonym_zero hi hp
  have hentry : ∃ te, (t.setSynonym 0 { t.synonymTable 0 with leafNum := t.synonymNum + 1 }).entry p = some te := by
    have hold := h.entry_eq hi hp
    cases p with
    | table j => exact ⟨_, hold⟩
    | synonym s =>
      refine ⟨_, if_pos ?_⟩
      by_contra hlt
      rw [entry, if_neg hlt] at hold
      cases hold
  unfold emplaced
  dsimp only
  rw [tableEntry_setSynonym, tableEntry_setLink _ _ _ _ hentry, tableEntry_setSynonym, tableEntry_setSynonym,
    if_neg hzero]

theorem Linked.link_emplaced (h : Linked t places) (hi : i < t.table.length) (hp : p ∈ places i) {q : Place}
    (hq : q ≠ .synonym 0)
    : (t.emplaced p num).link q
        = Function.update (Function.update t.link (.synonym t.synonymNum) (t.link p)) p
            (some (.synonym t.synonymNum)) q := by
  have hne := h.ne_synonymNum hi hp
  have hnum := h.num_le
  have hpos := h.num_pos
  rw [link, h.tableEntry_emplaced hi hp]
  by_cases hqn : q = .synonym t.synonymNum
  . rw [if_pos hqn, hqn, Function.update_of_ne hne.symm, Function.update_self]
    rfl
  . rw [if_neg hqn]
    by_cases hqp : q = p
    . have hlt : t.synonymNum < 2 ^ 8 := by
        unfold synonymNum
        unfold kSynonymMax at hnum
        omega
      have hnz : t.synonymNum ≠ 0 := hpos.ne'
      rw [if_pos hqp, hqp, Function.update_self, Nat.mod_eq_of_lt hlt, if_neg hnz]
    . rw [if_neg hqp, if_neg hq, Function.update_of_ne hqp, Function.update_of_ne hqn]
      rfl

theorem Linked.leafNum_emplaced (h : Linked t places) (hi : i < t.table.length) (hp : p ∈ places i) {j : Nat}
    (hj : j < t.table.length) {q : Place} (hq : q ∈ places j)
    : (t.emplaced p num).leafNum q = t.leafNum q := by
  rw [leafNum, h.tableEntry_emplaced hi hp, if_neg (h.ne_synonymNum hj hq)]
  split
  . next heq => rw [heq, leafNum]
  . rw [if_neg (h.ne_synonym_zero hj hq), leafNum]

theorem Linked.leafNum_emplaced_new (h : Linked t places) (hi : i < t.table.length) (hp : p ∈ places i)
    : (t.emplaced p num).leafNum (.synonym t.synonymNum) = num := by
  rw [leafNum, h.tableEntry_emplaced hi hp, if_pos rfl]

theorem Linked.emplace (h : Linked t places) (hi : i < t.table.length) (hplaces : places i = xs ++ p :: ys)
    (hroom : t.synonymNum ≠ kSynonymMax - 1) (alloc : LeafAllocator N K V)
    (hused : alloc.usedNum = t.alloc.usedNum + 1)
    : Linked { t.emplaced p t.alloc.usedNum with alloc := alloc }
        (Function.update places i (xs ++ p :: .synonym t.synonymNum :: ys)) := by
  have hp : p ∈ places i := by simp [hplaces]
  have hnum := h.num_le
  have hpos := h.num_pos
  have hnodup := h.nodup i hi
  have hthread := h.threaded i hi
  rw [hplaces] at hnodup hthread
  have hnew : .synonym t.synonymNum ∉ xs ++ p :: ys := by
    intro hmem
    exact h.ne_synonymNum hi (hplaces ▸ hmem) rfl
  have hzero : ({ t.emplaced p t.alloc.usedNum with alloc := alloc }.synonymTable 0).leafNum = t.synonymNum + 1 := by
    have hentry := @tableEntry_emplaced _ _ _ _ _ _ _ t.alloc.usedNum h hi hp (.synonym 0)
    rw [if_neg, if_neg (h.ne_synonym_zero hi hp).symm, if_pos rfl] at hentry
    . exact congrArg TableEntry.leafNum hentry
    . intro heq
      have := Place.synonym.inj heq
      unfold synonymNum at this
      omega
  apply h.update_chain hi (q := .synonym t.synonymNum)
  . exact length_setLink ..
  . rw [hzero]
    exact Nat.le_succ _
  . rw [hzero]
    unfold synonymNum at hroom ⊢
    omega
  . rw [hused]
    exact Nat.le_succ _
  . have hhead := h.head i hi
    rw [hplaces] at hhead
    cases xs with
    | nil => exact hhead
    | cons x xs => exact hhead
  . intro q hq
    rw [hzero]
    have hmem : q = .synonym t.synonymNum ∨ q ∈ (places i).tail := by
      rw [hplaces]
      cases xs with
      | nil => simpa using hq
      | cons x xs =>
        simp only [List.cons_append, List.tail_cons, List.mem_append, List.mem_cons] at hq ⊢
        tauto
    rcases hmem with rfl | hmem
    . exact ⟨t.synonymNum, rfl, hpos, Nat.lt_succ_self _⟩
    . obtain ⟨s, rfl, hs, hlt⟩ := h.tail i hi q hmem
      exact ⟨s, rfl, hs, Nat.lt_succ_of_lt hlt⟩
  . refine (hthread.insertAfter hnodup hnew).congr fun q hq => ?_
    apply h.link_emplaced hi hp
    simp only [List.mem_append, List.mem_cons] at hq
    rintro rfl
    have hne : .synonym 0 ∉ xs ++ p :: ys := fun hmem => h.ne_synonym_zero hi (hplaces ▸ hmem) rfl
    simp only [List.mem_append, List.mem_cons, not_or] at hne
    rcases hq with hq | hq | hq | hq
    . exact hne.1 hq
    . exact hne.2.1 hq
    . exact absurd (Place.synonym.inj hq) hpos.ne
    . exact hne.2.2 hq
  . have hperm : (xs ++ p :: .synonym t.synonymNum :: ys).Perm (.synonym t.synonymNum :: (xs ++ p :: ys)) := by
      rw [List.append_cons, List.append_cons xs p ys]
      exact List.perm_middle
    rw [hperm.nodup_iff, List.nodup_cons]
    exact ⟨hnew, hnodup⟩
  . intro j hj hji q hq
    refine (h.link_emplaced hi hp (h.ne_synonym_zero hj hq)).trans ?_
    rw [Function.update_of_ne, Function.update_of_ne (h.ne_synonymNum hj hq)]
    rintro rfl
    exact hji (h.disjoint j hj i hi q hq hp)
  . exact fun j hj q hq => h.leafNum_emplaced hi hp hj hq
  . intro q hq
    rw [hplaces]
    simp only [List.mem_append, List.mem_cons] at hq ⊢
    tauto
  . intro _
    have hnumber : (t.emplaced p t.alloc.usedNum).leafNum (.synonym t.synonymNum) = t.alloc.usedNum :=
      h.leafNum_emplaced_new hi hp
    refine ⟨fun j hj hmem => h.ne_synonymNum hj hmem rfl, hnumber.ge, ?_⟩
    rw [hused]
    exact Nat.lt_succ_of_le hnumber.le

end Emplace

end Links

end LeafTable

end MemoryNode

end Rolex

import Rolex.MemoryNode.Chains
import Mathlib.Order.Fin.Basic

/-!
This module contains what every function of the leaf table does to the chains and leaves of its slots, and the
structure of the chains after any sequence of calls.
-/

namespace Rolex

namespace MemoryNode

namespace LeafTable

variable {N : Nat} {K V : Type} [LinearOrder K] [OrderTop K]

/-- The chains, and that the leaves that have not been handed out are blank. -/
structure Shape (t : LeafTable N K V) (places : Nat → List Place) : Prop where
  linked : Linked t places
  spare : ∀ n, t.alloc.usedNum ≤ n → (t.alloc.leaves n).Blank

/-- The shape is kept and the leaves of all other slots are. -/
structure Keeps (t : LeafTable N K V) (places : Nat → List Place) (i : Nat) (t' : LeafTable N K V)
    (places' : Nat → List Place) : Prop where
  shape : Shape t' places'
  length_eq : t'.table.length = t.table.length
  others : ∀ j < t.table.length, j ≠ i → t'.group places' j = t.group places j

section Basic

variable {t : LeafTable N K V} {places : Nat → List Place} {i : Nat} {p : Place} {xs ys : List Place}

theorem Keeps.refl (h : Shape t places) : Keeps t places i t places := ⟨h, rfl, fun _ _ _ => rfl⟩

theorem Keeps.trans {t' t'' : LeafTable N K V} {places' places'' : Nat → List Place} (h : Keeps t places i t' places')
    (h' : Keeps t' places' i t'' places'')
    : Keeps t places i t'' places'' := by
  refine ⟨h'.shape, h'.length_eq.trans h.length_eq, fun j hj hji => ?_⟩
  rw [h'.others j (h.length_eq ▸ hj) hji, h.others j hj hji]

theorem Shape.setLeaf (h : Shape t places) (hi : i < t.table.length) (hp : p ∈ places i) (l : Leaf N K V)
    : Keeps t places i (t.setLeaf (t.leafNum p) l) places := by
  refine ⟨⟨h.linked.setLeaf _ l, fun n hn => ?_⟩, rfl, ?_⟩
  . have hlt := h.linked.leafNum_lt i hi p hp
    have hne : n ≠ t.leafNum p := (hlt.trans_le hn).ne'
    have heq : (t.setLeaf (t.leafNum p) l).alloc.leaves n = t.alloc.leaves n := Function.update_of_ne hne ..
    rw [heq]
    exact h.spare n hn
  . intro j hj hji
    exact h.linked.group_setLeaf_of_ne hi hj hp hji l

omit [LinearOrder K] [OrderTop K] in
theorem Linked.group_setLeaf_setLeaf {q : Place} (h : Linked t places) (hi : i < t.table.length)
    (hplaces : places i = xs ++ p :: q :: ys) (l m : Leaf N K V)
    : ((t.setLeaf (t.leafNum p) l).setLeaf (t.leafNum q) m).group places i
        = xs.map t.leafAt ++ l :: m :: ys.map t.leafAt := by
  have hone := h.group_setLeaf hi hplaces l
  have hplaces' : places i = (xs ++ [p]) ++ q :: ys := by
    rw [hplaces, List.append_assoc]
    rfl
  have htwo := (h.setLeaf (t.leafNum p) l).group_setLeaf hi hplaces' m
  rw [group, hplaces, List.map_append, List.map_cons, List.map_cons, List.map_cons] at hone
  obtain ⟨hxs, hrest⟩ := List.append_inj hone (by simp)
  obtain ⟨hp, hrest⟩ := List.cons.inj hrest
  rw [List.map_append, List.map_singleton, hxs, hp, (List.cons.inj hrest).2, List.append_assoc] at htwo
  exact htwo

theorem Shape.emplace (h : Shape t places) (hi : i < t.table.length) (hplaces : places i = xs ++ p :: ys)
    (hroom : t.synonymNum ≠ kSynonymMax - 1) (alloc : LeafAllocator N K V)
    (halloc : alloc = { t.alloc with usedNum := t.alloc.usedNum + 1 })
    : Keeps t places i { t.emplaced p t.alloc.usedNum with alloc := alloc }
        (Function.update places i (xs ++ p :: .synonym t.synonymNum :: ys)) := by
  subst halloc
  have hp : p ∈ places i := by simp [hplaces]
  refine ⟨⟨h.linked.emplace hi hplaces hroom _ rfl, fun n hn => ?_⟩, length_setLink .., fun j hj hji => ?_⟩
  . exact h.spare n (Nat.le_of_succ_le hn)
  . rw [group, Function.update_of_ne hji]
    refine List.map_congr_left fun q hq => ?_
    exact congrArg t.alloc.leaves (h.linked.leafNum_emplaced hi hp hj hq)

theorem Shape.unlink {s : Nat} (h : Shape t places) (hi : i < t.table.length)
    (hplaces : places i = xs ++ p :: .synonym s :: ys)
    : ∃ places', Keeps t places i (t.setLink p (t.synonymTable s).synonymLeaf) places'
        ∧ (t.setLink p (t.synonymTable s).synonymLeaf).group places' i = (xs ++ p :: ys).map t.leafAt := by
  have hp : p ∈ places i := by simp [hplaces]
  have hleaf : ∀ q, (t.setLink p (t.synonymTable s).synonymLeaf).leafAt q = t.leafAt q := by
    intro q
    rw [leafAt, leafAt, alloc_setLink, leafNum_setLink t p _ ⟨_, h.linked.entry_eq hi hp⟩]
  refine ⟨_, ⟨⟨h.linked.unlink hi hplaces, ?_⟩, length_setLink .., ?_⟩, ?_⟩
  . rw [alloc_setLink]
    exact h.spare
  . intro j _ hji
    rw [group, Function.update_of_ne hji]
    exact List.map_congr_left fun q _ => hleaf q
  . rw [group, Function.update_self]
    exact List.map_congr_left fun q _ => hleaf q

theorem Shape.emplace_setLeaf (h : Shape t places) (hi : i < t.table.length) (hplaces : places i = xs ++ p :: ys)
    (hroom : t.synonymNum ≠ kSynonymMax - 1) (alloc : LeafAllocator N K V)
    (halloc : alloc = { t.alloc with usedNum := t.alloc.usedNum + 1 }) (l m : Leaf N K V)
    : ∃ places', Keeps t places i
          (({ t.emplaced p t.alloc.usedNum with alloc := alloc }.setLeaf (t.leafNum p) l).setLeaf
            t.alloc.usedNum m) places'
        ∧ (({ t.emplaced p t.alloc.usedNum with alloc := alloc }.setLeaf (t.leafNum p) l).setLeaf
            t.alloc.usedNum m).group places' i
          = xs.map t.leafAt ++ l :: m :: ys.map t.leafAt := by
  have hp : p ∈ places i := by simp [hplaces]
  have hkeeps := h.emplace hi hplaces hroom alloc halloc
  have hnump : { t.emplaced p t.alloc.usedNum with alloc := alloc }.leafNum p = t.leafNum p :=
    h.linked.leafNum_emplaced hi hp hi hp
  have hnumq : { t.emplaced p t.alloc.usedNum with alloc := alloc }.leafNum (.synonym t.synonymNum)
      = t.alloc.usedNum := h.linked.leafNum_emplaced_new hi hp
  have hleaf : ∀ qs : List Place, (∀ q ∈ qs, q ∈ places i)
      → qs.map { t.emplaced p t.alloc.usedNum with alloc := alloc }.leafAt = qs.map t.leafAt := by
    intro qs hqs
    refine List.map_congr_left fun q hq => ?_
    rw [halloc]
    exact congrArg t.alloc.leaves (h.linked.leafNum_emplaced hi hp hi (hqs q hq))
  have hxs := hleaf xs fun q hq => by simp [hplaces, hq]
  have hys := hleaf ys fun q hq => by simp [hplaces, hq]
  generalize { t.emplaced p t.alloc.usedNum with alloc := alloc } = t₁ at *
  have hplaces' := Function.update_self i (xs ++ p :: .synonym t.synonymNum :: ys) places
  generalize Function.update places i (xs ++ p :: .synonym t.synonymNum :: ys) = places' at *
  have hi₁ : i < t₁.table.length := hkeeps.length_eq ▸ hi
  refine ⟨places', ?_, ?_⟩
  . have hone := hkeeps.shape.setLeaf hi₁ (show p ∈ places' i by simp [hplaces']) l
    have htwo := hone.shape.setLeaf hi₁ (show .synonym t.synonymNum ∈ places' i by simp [hplaces']) m
    rw [hnump] at hone htwo
    rw [show (t₁.setLeaf (t.leafNum p) l).leafNum (.synonym t.synonymNum) = t.alloc.usedNum from hnumq] at htwo
    exact hkeeps.trans (hone.trans htwo)
  . rw [← hnump, ← hnumq, ← hxs, ← hys]
    exact hkeeps.shape.linked.group_setLeaf_setLeaf hi₁ hplaces' l m

end Basic

section Slot

variable [NeZero N] {t : LeafTable N K V} {places : Nat → List Place}

/-- The slot for a key: the last one of the range whose leaf in the table has a first key that is not greater. -/
structure SlotFor (t : LeafTable N K V) (key : K) (lo hi i : Nat) : Prop where
  lo_le : lo ≤ i
  le_hi : i ≤ hi
  here : i = lo ∨ (t.leafAt (.table i)).firstKey ≤ key
  above : ∀ j, i < j → j ≤ hi → key < (t.leafAt (.table j)).firstKey

omit [OrderTop K] in
theorem Linked.findSlot_spec (h : Linked t places) (key : K) (lo d : Nat) (hd : lo + d < t.table.length)
    : ∃ i, t.findSlot key lo d = some i ∧ SlotFor t key lo (lo + d) i := by
  have hget : ∀ j < t.table.length, t.getLeaf (.table j) = some (t.leafAt (.table j)) :=
    fun j hj => h.getLeaf_eq hj (h.table_mem hj)
  induction d with
  | zero =>
    refine ⟨lo, ?_, le_rfl, le_rfl, .inl rfl, fun j hlt hle => ?_⟩
    . rw [findSlot, hget lo hd]
      rfl
    . exact absurd hle (Nat.not_le.mpr hlt)
  | succ d ih =>
    rw [findSlot, hget (lo + d + 1) hd]
    simp only [Option.bind_eq_bind, Option.bind_some]
    by_cases hhere : (t.leafAt (.table (lo + d + 1))).insertHere key
    . rw [if_pos hhere]
      refine ⟨lo + d + 1, rfl, by omega, le_rfl, .inr (by simpa [Leaf.insertHere] using hhere), fun j hlt hle => ?_⟩
      omega
    . rw [if_neg hhere]
      obtain ⟨i, hfind, hslot⟩ := ih (by omega)
      refine ⟨i, hfind, hslot.lo_le, by have := hslot.le_hi; omega, hslot.here, fun j hlt hle => ?_⟩
      rcases Nat.lt_or_ge j (lo + d + 1) with hj | hj
      . exact hslot.above j hlt (by omega)
      . obtain rfl : j = lo + d + 1 := by omega
        simpa [Leaf.insertHere] using hhere

end Slot

section Step

variable [NeZero N] {t t' : LeafTable N K V} {places : Nat → List Place} {i : Nat} {key : K} {val : V} {b : Bool}

theorem insertSplit_step {xs ys : List Place} {p : Place} (h : Shape t places) (hi : i < t.table.length)
    (hplaces : places i = xs ++ p :: ys) (hroom : t.synonymNum ≠ kSynonymMax - 1)
    (hr : Routed key (xs.map t.leafAt) (t.leafAt p) (ys.map t.leafAt))
    (hnew : (t.leafAt p).contain key = false) (hfull : (t.leafAt p).isfull)
    (hins : t.insertSplit key val p (t.leafNum p) (t.leafAt p) = some t')
    : ∃ places', Keeps t places i t' places' ∧ Inserts key val (t.group places i) true (t'.group places' i) := by
  have hp : p ∈ places i := by simp [hplaces]
  have hgroup : t.group places i = xs.map t.leafAt ++ t.leafAt p :: ys.map t.leafAt := by
    rw [group, hplaces, List.map_append, List.map_cons]
  obtain ⟨⟨num, alloc⟩, hfetch, hins⟩ := Option.bind_eq_some_iff.mp hins
  obtain ⟨rfl, halloc⟩ : num = t.alloc.usedNum ∧ alloc = { t.alloc with usedNum := t.alloc.usedNum + 1 } := by
    unfold LeafAllocator.fetchNewLeaf at hfetch
    split at hfetch
    . cases hfetch
      exact ⟨rfl, rfl⟩
    . cases hfetch
  have hblank : (alloc.leaves t.alloc.usedNum).Blank := by
    rw [halloc]
    exact h.spare _ le_rfl
  obtain ⟨t₁, hemplace, hins⟩ := Option.bind_eq_some_iff.mp hins
  cases (h.linked.synonymEmplaceBack_eq hi hp hroom alloc).symm.trans hemplace
  have hwrite := h.emplace_setLeaf hi hplaces hroom alloc halloc
  dsimp only at hins
  split at hins
  . next hhere =>
    obtain ⟨upper, hupper, hins⟩ := Option.bind_eq_some_iff.mp hins
    cases hins
    obtain ⟨places', hkeeps, hgroup'⟩ := hwrite _ _
    refine ⟨places', hkeeps, ?_⟩
    rw [hgroup, hgroup']
    exact .upper hr hnew hfull hblank hhere hupper
  . next hhere =>
    obtain ⟨lower, hlower, hins⟩ := Option.bind_eq_some_iff.mp hins
    cases hins
    obtain ⟨places', hkeeps, hgroup'⟩ := hwrite _ _
    refine ⟨places', hkeeps, ?_⟩
    rw [hgroup, hgroup']
    exact .lower hr hnew hfull hblank (Bool.eq_false_iff.mpr hhere) hlower

theorem insertSynonym_step (h : Shape t places) (hi : i < t.table.length)
    (hins : t.insertSynonym key val i = some (b, t'))
    : ∃ places', Keeps t places i t' places' ∧ Inserts key val (t.group places i) b (t'.group places' i) := by
  obtain ⟨l, idx, xs, p, ys, hfind, hl, hplaces, hidx, hr⟩ := h.linked.findCur_spec hi key
  have hp : p ∈ places i := by simp [hplaces]
  have hgroup : t.group places i = xs.map t.leafAt ++ t.leafAt p :: ys.map t.leafAt := by
    rw [group, hplaces, List.map_append, List.map_cons]
  unfold insertSynonym at hins
  split at hins
  . cases hins
    exact ⟨places, .refl h, .refused _⟩
  . next hroom =>
    rw [hfind] at hins
    simp only [Option.bind_eq_bind, Option.bind_some, h.linked.entry_eq hi hp, h.linked.alloc_getLeaf hi hp] at hins
    split at hins
    . cases hins
      exact ⟨places, .refl h, .refused _⟩
    . next hcontain =>
      split at hins
      . next hfull =>
        obtain ⟨t₁, hsplit, hins⟩ := Option.bind_eq_some_iff.mp hins
        cases hins
        exact insertSplit_step h hi hplaces hroom hr (Bool.eq_false_iff.mpr hcontain) hfull hsplit
      . next hfull =>
        obtain ⟨cur', hcur, hins⟩ := Option.bind_eq_some_iff.mp hins
        cases hins
        refine ⟨places, h.setLeaf hi hp cur', ?_⟩
        have hgroup' := h.linked.group_setLeaf hi hplaces cur'
        rw [leafNum] at hgroup'
        rw [hgroup, hgroup']
        exact .placed hr (Bool.eq_false_iff.mpr hcontain) (Bool.eq_false_iff.mpr hfull) hcur

theorem updateSynonym_step (h : Shape t places) (hi : i < t.table.length)
    (hupd : t.updateSynonym key val i = some (b, t'))
    : Keeps t places i t' places ∧ Updates key val (t.group places i) b (t'.group places i) := by
  obtain ⟨l, idx, xs, p, ys, hfind, hl, hplaces, hidx, hr⟩ := h.linked.findCur_spec hi key
  have hp : p ∈ places i := by simp [hplaces]
  have hgroup : t.group places i = xs.map t.leafAt ++ t.leafAt p :: ys.map t.leafAt := by
    rw [group, hplaces, List.map_append, List.map_cons]
  unfold updateSynonym at hupd
  rw [hfind] at hupd
  simp only [Option.bind_eq_bind, Option.bind_some, h.linked.entry_eq hi hp, h.linked.alloc_getLeaf hi hp] at hupd
  cases hupd
  refine ⟨h.setLeaf hi hp _, ?_⟩
  have hgroup' := h.linked.group_setLeaf hi hplaces ((t.leafAt p).update key val).2
  rw [leafNum] at hgroup'
  rw [hgroup, hgroup']
  exact .mk hr

theorem curPlace_pred {l : List Nat} (k : Nat)
    : curPlace i l (if k = 0 then none else some (k - 1)) = (.table i :: l.map .synonym)[k]? := by
  cases k with
  | zero => rfl
  | succ k =>
    rw [if_neg (Nat.succ_ne_zero k), Nat.add_sub_cancel, List.getElem?_cons_succ, List.getElem?_map]
    rfl

theorem removeSynonym_step (h : Shape t places) (hi : i < t.table.length)
    (hrem : t.removeSynonym key i = some (b, t'))
    : ∃ places', Keeps t places i t' places' ∧ Removes key (t.group places i) b (t'.group places' i) := by
  obtain ⟨l, idx, xs, p, ys, hfind, hl, hplaces, hidx, hr⟩ := h.linked.findCur_spec hi key
  have hp : p ∈ places i := by simp [hplaces]
  have hgroup : t.group places i = xs.map t.leafAt ++ t.leafAt p :: ys.map t.leafAt := by
    rw [group, hplaces, List.map_append, List.map_cons]
  unfold removeSynonym at hrem
  rw [hfind] at hrem
  simp only [Option.bind_eq_bind, Option.bind_some, h.linked.entry_eq hi hp, h.linked.alloc_getLeaf hi hp] at hrem
  obtain ⟨⟨res, cur⟩, hcur, hrem⟩ := Option.bind_eq_some_iff.mp hrem
  have hkept := h.setLeaf hi hp cur
  have hgroup' := h.linked.group_setLeaf hi hplaces cur
  rw [leafNum] at hgroup'
  cases idx with
  | none =>
    cases hrem
    have hxs : xs = [] := by
      cases xs with
      | nil => rfl
      | cons x xs => cases (hidx xs.length).mpr rfl
    refine ⟨places, hkept, ?_⟩
    rw [hgroup, hgroup']
    exact .kept hr hcur (.inl (by rw [hxs, List.map_nil]))
  | some k =>
    dsimp only at hrem
    split at hrem
    . next hempty =>
      obtain ⟨t₁, hremove, hrem⟩ := Option.bind_eq_some_iff.mp hrem
      cases hrem
      have hk := (hidx k).mp rfl
      -- the place in front of `p`, to which the chain behind `p` is linked
      obtain ⟨xs', r, rfl⟩ : ∃ xs' r, xs = xs' ++ [r] := by
        have hne : xs ≠ [] := by
          rintro rfl
          cases hk
        exact ⟨_, _, (List.dropLast_append_getLast hne).symm⟩
      rw [List.length_append, List.length_singleton, Nat.add_right_cancel_iff] at hk
      have hplaces' : places i = xs' ++ r :: p :: ys := by
        rw [hplaces, List.append_assoc]
        rfl
      have hprev : curPlace i l (if k = 0 then none else some (k - 1)) = some r := by
        rw [curPlace_pred, ← hl, hplaces', List.getElem?_append_right hk.le, hk, Nat.sub_self]
        rfl
      obtain ⟨s, rfl, hs⟩ : ∃ s, p = .synonym s ∧ l[k]? = some s := by
        have hget : (places i)[k + 1]? = some p := by
          rw [hplaces', List.getElem?_append_right (by omega), hk, Nat.add_sub_cancel_left]
          rfl
        rw [hl, List.getElem?_cons_succ, List.getElem?_map] at hget
        obtain ⟨s, hs, rfl⟩ := Option.map_eq_some_iff.mp hget
        exact ⟨s, rfl, hs⟩
      unfold synonymTableRemove at hremove
      rw [hs, hprev] at hremove
      cases hremove
      obtain ⟨places', hunlink, hgroup''⟩ := hkept.shape.unlink hi hplaces'
      refine ⟨places', hkept.trans hunlink, ?_⟩
      -- the leaves in front of and behind `p` are the old ones
      rw [group, hplaces, List.map_append, List.map_cons] at hgroup'
      obtain ⟨hxs, hrest⟩ := List.append_inj hgroup' (by simp)
      rw [List.append_cons, List.map_append] at hgroup''
      have hys := (List.cons.inj hrest).2
      rw [leafNum, hxs, hys] at hgroup''
      rw [hgroup, hgroup'']
      exact .unlinked hr hcur (by simp) hempty
    . next hempty =>
      cases hrem
      refine ⟨places, hkept, ?_⟩
      rw [hgroup, hgroup']
      exact .kept hr hcur (.inr (Bool.eq_false_iff.mpr hempty))

end Step

section Call

variable [NeZero N] {t t' : LeafTable N K V} {places : Nat → List Place} {lo hi i : Nat} {key : K} {val : V} {b : Bool}

omit [OrderTop K] in
theorem Linked.findSlot_some (h : Linked t places) (hhi : hi < t.table.length)
    (hfind : t.findSlot key lo (hi - lo) = some i)
    : i < t.table.length ∧ (lo ≤ hi → SlotFor t key lo hi i) := by
  rcases Nat.le_total lo hi with hle | hle
  . have hend : lo + (hi - lo) = hi := by omega
    obtain ⟨i', hfind', hslot⟩ := h.findSlot_spec key lo (hi - lo) (by rwa [hend])
    cases hfind.symm.trans hfind'
    rw [hend] at hslot
    exact ⟨hslot.le_hi.trans_lt hhi, fun _ => hslot⟩
  . have hzero : hi - lo = 0 := by omega
    rw [hzero] at hfind
    -- the first access to `table[lo]` is the only one
    obtain ⟨leaf, hleaf, hfind⟩ := Option.bind_eq_some_iff.mp hfind
    cases hfind
    obtain ⟨te, hte, -⟩ := Option.bind_eq_some_iff.mp hleaf
    obtain ⟨hlt, -⟩ := List.getElem?_eq_some_iff.mp hte
    refine ⟨hlt, fun hle' => ⟨le_rfl, hle', .inl rfl, fun j hj hj' => ?_⟩⟩
    omega

theorem insert_step (h : Shape t places) (hins : t.insert key val lo hi = some (b, t'))
    : ∃ i places', i < t.table.length ∧ SlotFor t key lo hi i ∧ Keeps t places i t' places'
        ∧ Inserts key val (t.group places i) b (t'.group places' i) := by
  unfold insert at hins
  split at hins
  . next hrange =>
    obtain ⟨i, hfind, hins⟩ := Option.bind_eq_some_iff.mp hins
    obtain ⟨hi', hslot⟩ := h.linked.findSlot_some hrange.1 hfind
    obtain ⟨places', hkeeps, hgroup⟩ := insertSynonym_step h hi' hins
    exact ⟨i, places', hi', hslot hrange.2, hkeeps, hgroup⟩
  . cases hins

theorem update_step (h : Shape t places) (hupd : t.update key val lo hi = some (b, t'))
    : ∃ i, i < t.table.length ∧ (lo ≤ hi → SlotFor t key lo hi i) ∧ Keeps t places i t' places
        ∧ Updates key val (t.group places i) b (t'.group places i) := by
  unfold update at hupd
  split at hupd
  . next hrange =>
    obtain ⟨i, hfind, hupd⟩ := Option.bind_eq_some_iff.mp hupd
    obtain ⟨hi', hslot⟩ := h.linked.findSlot_some hrange hfind
    obtain ⟨hkeeps, hgroup⟩ := updateSynonym_step h hi' hupd
    exact ⟨i, hi', hslot, hkeeps, hgroup⟩
  . cases hupd

theorem remove_step (h : Shape t places) (hrem : t.remove key lo hi = some (b, t'))
    : ∃ i places', i < t.table.length ∧ (lo ≤ hi → SlotFor t key lo hi i) ∧ Keeps t places i t' places'
        ∧ Removes key (t.group places i) b (t'.group places' i) := by
  unfold remove at hrem
  split at hrem
  . next hrange =>
    obtain ⟨i, hfind, hrem⟩ := Option.bind_eq_some_iff.mp hrem
    obtain ⟨hi', hslot⟩ := h.linked.findSlot_some hrange hfind
    obtain ⟨places', hkeeps, hgroup⟩ := removeSynonym_step h hi' hrem
    exact ⟨i, places', hi', hslot, hkeeps, hgroup⟩
  . cases hrem

end Call

section Train

variable [NeZero N] {t t' : LeafTable N K V} {places : Nat → List Place} {entries : List (K × V)}

theorem foldlM_insertNotFull_sorted {l l' : Leaf N K V} (h : l.Sorted)
    (hfold : entries.foldlM (fun leaf e => leaf.insertNotFull e.1 e.2) l = some l')
    : l'.Sorted := by
  induction entries generalizing l with
  | nil =>
    cases hfold
    exact h
  | cons e entries ih =>
    obtain ⟨l₁, hins, hfold⟩ := Option.bind_eq_some_iff.mp hfold
    exact ih (Leaf.insertNotFull_spec h hins).1 hfold

omit [NeZero N] in
theorem Shape.new {synonymTable : Nat → TableEntry} {alloc : LeafAllocator N K V}
    (hblank : ∀ n, alloc.usedNum ≤ n → (alloc.leaves n).Blank) (places : Nat → List Place)
    : Shape (.new synonymTable alloc) places := by
  have hnum : ((LeafTable.new synonymTable alloc).synonymTable 0).leafNum = 1 :=
    congrArg TableEntry.leafNum (Function.update_self 0 _ synonymTable)
  refine ⟨⟨?_, ?_, ?_, ?_, ?_, ?_, ?_, ?_, ?_⟩, hblank⟩
  . exact fun i hi => absurd hi (Nat.not_lt_zero i)
  . exact fun i hi => absurd hi (Nat.not_lt_zero i)
  . exact fun i hi => absurd hi (Nat.not_lt_zero i)
  . exact fun i hi => absurd hi (Nat.not_lt_zero i)
  . exact fun i hi => absurd hi (Nat.not_lt_zero i)
  . rw [hnum]
    exact Nat.one_pos
  . rw [hnum]
    decide
  . exact fun i hi => absurd hi (Nat.not_lt_zero i)
  . exact fun i hi => absurd hi (Nat.not_lt_zero i)

omit [LinearOrder K] [OrderTop K] [NeZero N] in
theorem tableEntry_trainEmplaceBack (t : LeafTable N K V) (num : Nat)
    : (t.trainEmplaceBack num).tableEntry (.table t.table.length) = ⟨0, num⟩ :=
  congrArg (Option.getD · _) List.getElem?_concat_length

omit [LinearOrder K] [OrderTop K] [NeZero N] in
theorem Linked.tableEntry_trainEmplaceBack_of_mem (h : Linked t places) {j : Nat} (hj : j < t.table.length) {p : Place}
    (hp : p ∈ places j) (num : Nat)
    : (t.trainEmplaceBack num).tableEntry p = t.tableEntry p := by
  rcases h.mem_cases hj hp with rfl | ⟨s, rfl, -⟩
  . exact congrArg (Option.getD · _) (List.getElem?_append_left hj)
  . rfl

omit [LinearOrder K] [OrderTop K] [NeZero N] in
theorem Linked.append (h : Linked t places) (alloc : LeafAllocator N K V) (hused : alloc.usedNum = t.alloc.usedNum + 1)
    : Linked { t.trainEmplaceBack t.alloc.usedNum with alloc := alloc }
        (Function.update places t.table.length [.table t.table.length]) := by
  have hne : ∀ j < t.table.length, j ≠ t.table.length := fun j hj => hj.ne
  -- an old slot has the old places with their entries
  have hold : ∀ j < t.table.length, ∀ p ∈ places j,
      { t.trainEmplaceBack t.alloc.usedNum with alloc := alloc }.tableEntry p = t.tableEntry p :=
    fun j hj p hp => h.tableEntry_trainEmplaceBack_of_mem hj hp _
  have hnew : { t.trainEmplaceBack t.alloc.usedNum with alloc := alloc }.tableEntry (.table t.table.length)
      = ⟨0, t.alloc.usedNum⟩ := t.tableEntry_trainEmplaceBack _
  have hcases : ∀ j < (t.table ++ [(⟨0, t.alloc.usedNum⟩ : TableEntry)]).length,
      j < t.table.length ∧ Function.update places t.table.length [.table t.table.length] j = places j
        ∨ j = t.table.length
          ∧ Function.update places t.table.length [.table t.table.length] j = [.table t.table.length] := by
    intro j hj
    rw [List.length_append, List.length_singleton] at hj
    rcases Nat.lt_succ_iff_lt_or_eq.mp hj with hj | rfl
    . exact .inl ⟨hj, Function.update_of_ne (hne j hj) ..⟩
    . exact .inr ⟨rfl, Function.update_self ..⟩
  have hfresh : ∀ j < t.table.length, .table t.table.length ∉ places j := by
    intro j hj hmem
    rcases h.mem_cases hj hmem with heq | ⟨s, heq, -⟩
    . exact hne j hj (Place.table.inj heq).symm
    . cases heq
  constructor
  . intro j hj
    rcases hcases j hj with ⟨hj, heq⟩ | ⟨rfl, heq⟩
    . rw [heq]
      exact h.head j hj
    . rw [heq]
      rfl
  . intro j hj p hp
    rcases hcases j hj with ⟨hj, heq⟩ | ⟨rfl, heq⟩
    . rw [heq] at hp
      exact h.tail j hj p hp
    . rw [heq] at hp
      cases hp
  . intro j hj
    rcases hcases j hj with ⟨hj, heq⟩ | ⟨rfl, heq⟩
    . rw [heq]
      refine (h.threaded j hj).congr fun p hp => ?_
      rw [link, link, hold j hj p hp]
    . rw [heq]
      refine ⟨?_, trivial⟩
      rw [link, hnew]
      rfl
  . intro j hj
    rcases hcases j hj with ⟨hj, heq⟩ | ⟨rfl, heq⟩
    . rw [heq]
      exact h.nodup j hj
    . rw [heq]
      exact List.nodup_singleton _
  . intro j hj k hk p hpj hpk
    rcases hcases j hj with ⟨hj, heq⟩ | ⟨rfl, heq⟩ <;> rcases hcases k hk with ⟨hk, heq'⟩ | ⟨rfl, heq'⟩
    . rw [heq] at hpj
      rw [heq'] at hpk
      exact h.disjoint j hj k hk p hpj hpk
    . rw [heq] at hpj
      rw [heq', List.mem_singleton] at hpk
      exact absurd (hpk ▸ hpj) (hfresh j hj)
    . rw [heq, List.mem_singleton] at hpj
      rw [heq'] at hpk
      exact absurd (hpj ▸ hpk) (hfresh k hk)
    . rfl
  . exact h.num_pos
  . exact h.num_le
  . intro j hj p hp
    rw [hused]
    rcases hcases j hj with ⟨hj, heq⟩ | ⟨rfl, heq⟩
    . rw [heq] at hp
      rw [leafNum, hold j hj p hp]
      exact Nat.lt_succ_of_lt (h.leafNum_lt j hj p hp)
    . rw [heq, List.mem_singleton] at hp
      rw [hp, leafNum, hnew]
      exact Nat.lt_succ_self _
  . intro j hj k hk p hp q hq hnum
    rw [leafNum, leafNum] at hnum
    rcases hcases j hj with ⟨hj, heq⟩ | ⟨rfl, heq⟩ <;> rcases hcases k hk with ⟨hk, heq'⟩ | ⟨rfl, heq'⟩
    . rw [heq] at hp
      rw [heq'] at hq
      rw [hold j hj p hp, hold k hk q hq] at hnum
      exact h.leafNum_inj j hj k hk p hp q hq hnum
    . rw [heq] at hp
      rw [heq', List.mem_singleton] at hq
      rw [hold j hj p hp, hq, hnew] at hnum
      exact absurd hnum (h.leafNum_lt j hj p hp).ne
    . rw [heq, List.mem_singleton] at hp
      rw [heq'] at hq
      rw [hold k hk q hq, hp, hnew] at hnum
      exact absurd hnum.symm (h.leafNum_lt k hk q hq).ne
    . rw [heq, List.mem_singleton] at hp
      rw [heq', List.mem_singleton] at hq
      rw [hp, hq]

theorem train_step (h : Shape t places) (htrain : t.train entries = some t')
    : ∃ places' leaf, Shape t' places' ∧ t'.table.length = t.table.length + 1 ∧ leaf.Sorted
        ∧ t'.group places' t.table.length = [leaf]
        ∧ ∀ j < t.table.length, t'.group places' j = t.group places j := by
  obtain ⟨⟨num, alloc⟩, hfetch, htrain⟩ := Option.bind_eq_some_iff.mp htrain
  obtain ⟨leaf, hfold, htrain⟩ := Option.bind_eq_some_iff.mp htrain
  cases htrain
  unfold LeafAllocator.fetchNewLeaf at hfetch
  split at hfetch
  . cases hfetch
    have hsorted := foldlM_insertNotFull_sorted (h.spare _ le_rfl).sorted hfold
    refine ⟨_, leaf, ⟨h.linked.append _ rfl, fun n hn => ?_⟩, List.length_append, hsorted, ?_, fun j hj => ?_⟩
    . have hne : n ≠ t.alloc.usedNum := (Nat.lt_of_succ_le hn).ne'
      have heq : Function.update t.alloc.leaves t.alloc.usedNum leaf n = t.alloc.leaves n :=
        Function.update_of_ne hne ..
      refine (congrArg Leaf.Blank heq).mpr ?_
      exact h.spare n (Nat.le_of_succ_le hn)
    . have hnum : (t.trainEmplaceBack t.alloc.usedNum).leafNum (.table t.table.length) = t.alloc.usedNum :=
        congrArg TableEntry.leafNum (t.tableEntry_trainEmplaceBack _)
      rw [group, Function.update_self, List.map_singleton]
      have hleaf := congrArg (Function.update t.alloc.leaves t.alloc.usedNum leaf) hnum
      exact congrArg (fun l => [l]) (hleaf.trans (Function.update_self ..))
    . rw [group, Function.update_of_ne hj.ne]
      refine List.map_congr_left fun p hp => ?_
      have hnum : (t.trainEmplaceBack t.alloc.usedNum).leafNum p = t.leafNum p :=
        congrArg TableEntry.leafNum (h.linked.tableEntry_trainEmplaceBack_of_mem hj hp _)
      have hleaf := congrArg (Function.update t.alloc.leaves t.alloc.usedNum leaf) hnum
      exact hleaf.trans (Function.update_of_ne (h.linked.leafNum_lt j hj p hp).ne ..)
  . cases hfetch

end Train

/-- The tables after any sequence of calls, over an allocator whose free leaves are blank. -/
inductive Reachable [NeZero N] : LeafTable N K V → Prop where
  | new {synonymTable : Nat → TableEntry} {alloc : LeafAllocator N K V}
    (hblank : ∀ n, alloc.usedNum ≤ n → (alloc.leaves n).Blank)
    : Reachable (.new synonymTable alloc)
  | train {t t' : LeafTable N K V} {entries : List (K × V)} (h : Reachable t) (htrain : t.train entries = some t')
    : Reachable t'
  | insert {t t' : LeafTable N K V} {key : K} {val : V} {lo hi : Nat} {b : Bool} (h : Reachable t)
    (hins : t.insert key val lo hi = some (b, t'))
    : Reachable t'
  | update {t t' : LeafTable N K V} {key : K} {val : V} {lo hi : Nat} {b : Bool} (h : Reachable t)
    (hupd : t.update key val lo hi = some (b, t'))
    : Reachable t'
  | remove {t t' : LeafTable N K V} {key : K} {lo hi : Nat} {b : Bool} (h : Reachable t)
    (hrem : t.remove key lo hi = some (b, t'))
    : Reachable t'

/-- The chains with the order of their leaves. -/
structure Inv (t : LeafTable N K V) (places : Nat → List Place) : Prop where
  shape : Shape t places
  ordered : ∀ i < t.table.length, Ordered (t.group places i)

section Run

variable [NeZero N] {t t' : LeafTable N K V} {places places' : Nat → List Place} {i : Nat}

omit [NeZero N] in
theorem Inv.keeps (h : Inv t places) (hk : Keeps t places i t' places') (ho : Ordered (t'.group places' i))
    : Inv t' places' := by
  refine ⟨hk.shape, fun j hj => ?_⟩
  by_cases hji : j = i
  . rw [hji]
    exact ho
  . rw [hk.length_eq] at hj
    rw [hk.others j hj hji]
    exact h.ordered j hj

theorem Reachable.inv (heven : Even N) (h : Reachable t) : ∃ places, Inv t places := by
  induction h with
  | new hblank => exact ⟨fun _ => [], .new hblank _, fun i hi => absurd hi (Nat.not_lt_zero i)⟩
  | train _ htrain ih =>
    obtain ⟨places, hinv⟩ := ih
    obtain ⟨places', leaf, hshape, hlen, hleaf, hgroup, hothers⟩ := train_step hinv.shape htrain
    refine ⟨places', hshape, fun j hj => ?_⟩
    rcases Nat.lt_succ_iff_lt_or_eq.mp (hlen ▸ hj) with hj | rfl
    . rw [hothers j hj]
      exact hinv.ordered j hj
    . rw [hgroup]
      exact ⟨by simpa using hleaf, by simp, List.pairwise_singleton _ _⟩
  | insert _ hins ih =>
    obtain ⟨places, hinv⟩ := ih
    obtain ⟨i, places', hi, -, hkeeps, hgroup⟩ := insert_step hinv.shape hins
    exact ⟨places', hinv.keeps hkeeps (hgroup.ordered heven (hinv.ordered i hi))⟩
  | update _ hupd ih =>
    obtain ⟨places, hinv⟩ := ih
    obtain ⟨i, hi, -, hkeeps, hgroup⟩ := update_step hinv.shape hupd
    exact ⟨places, hinv.keeps hkeeps (hgroup.ordered (hinv.ordered i hi))⟩
  | remove _ hrem ih =>
    obtain ⟨places, hinv⟩ := ih
    obtain ⟨i, places', hi, -, hkeeps, hgroup⟩ := remove_step hinv.shape hrem
    exact ⟨places', hinv.keeps hkeeps (hgroup.ordered (hinv.ordered i hi))⟩

/-- The structure of the synonym chains of all slots, given by their indices. -/
structure ChainsSound (t : LeafTable N K V) (chain : Nat → List Nat) : Prop where
  walk_ends : ∀ i < t.table.length, t.sLeaves i = some (chain i)
  acyclic : ∀ i < t.table.length, (chain i).Nodup
  disjoint : ∀ i < t.table.length, ∀ j < t.table.length, i ≠ j → (chain i).Disjoint (chain j)
  indices : ∀ i < t.table.length, ∀ s ∈ chain i, 1 ≤ s ∧ s ≤ kSynonymMax - 2 ∧ s < t.synonymNum ∧ s < 2 ^ 8
  leaves : ∀ i < t.table.length, ∀ p ∈ .table i :: (chain i).map .synonym, t.getLeaf p = some (t.leafAt p)
  ascending : ∀ i < t.table.length, ((.table i :: (chain i).map .synonym).map t.leafAt).Pairwise Leaf.Less

/--
In every reachable table every walk over the synonym leaves of a slot ends; the chains have no index twice, no
index in common and only indices that fit their field; and the keys ascend from leaf to leaf.
-/
theorem synonym_chains_sound (heven : Even N) (h : Reachable t) : ∃ chain, ChainsSound t chain := by
  obtain ⟨places, hinv⟩ := h.inv heven
  have hlinked := hinv.shape.linked
  have hex : ∀ i, ∃ l : List Nat, i < t.table.length
      → places i = .table i :: l.map .synonym ∧ l.Nodup ∧ ∀ s ∈ l, 0 < s ∧ s < (t.synonymTable 0).leafNum := by
    intro i
    by_cases hi : i < t.table.length
    . obtain ⟨l, hl⟩ := hlinked.exists_indices hi
      exact ⟨l, fun _ => hl⟩
    . exact ⟨[], fun hi' => absurd hi' hi⟩
  choose chain hchain using hex
  refine ⟨chain, ?_, ?_, ?_, ?_, ?_, ?_⟩
  . exact fun i hi => hlinked.sLeaves_eq hi (hchain i hi).1
  . exact fun i hi => (hchain i hi).2.1
  . intro i hi j hj hne s hsi hsj
    refine hne (hlinked.disjoint i hi j hj (.synonym s) ?_ ?_)
    . rw [(hchain i hi).1]
      exact List.mem_cons_of_mem _ (List.mem_map_of_mem hsi)
    . rw [(hchain j hj).1]
      exact List.mem_cons_of_mem _ (List.mem_map_of_mem hsj)
  . intro i hi s hs
    obtain ⟨hpos, hlt⟩ := (hchain i hi).2.2 s hs
    have hle := hlinked.num_le
    unfold synonymNum
    unfold kSynonymMax at hle ⊢
    omega
  . intro i hi p hp
    exact hlinked.getLeaf_eq hi ((hchain i hi).1 ▸ hp)
  . intro i hi
    rw [← (hchain i hi).1]
    exact (hinv.ordered i hi).less

/-- An allocator with leaves of two slots for keys below 10, and a table with one leaf of it. -/
def sampleTable : LeafTable 2 (Fin 10) Nat :=
  .new (fun _ => ⟨0, 0⟩) ⟨fun _ => ⟨[(9, 0), (9, 0)], rfl⟩, 0, 4⟩

theorem synonym_chains_sound_split
    : ∃ t₁ t₂ t₃ : LeafTable 2 (Fin 10) Nat, sampleTable.train [(1, 1), (5, 5)] = some t₁
        ∧ t₁.insert 3 3 0 0 = some (true, t₂) ∧ t₂.insert 2 2 0 0 = some (true, t₃)
        ∧ t₃.sLeaves 0 = some [2, 1] ∧ ∃ chain, ChainsSound t₃ chain := by
  obtain ⟨t₁, t₂, t₃, h₁, h₂, h₃, hwalk⟩ : ∃ t₁ t₂ t₃, sampleTable.train [(1, 1), (5, 5)] = some t₁
      ∧ t₁.insert 3 3 0 0 = some (true, t₂) ∧ t₂.insert 2 2 0 0 = some (true, t₃) ∧ t₃.sLeaves 0 = some [2, 1] :=
    ⟨_, _, _, rfl, rfl, rfl, rfl⟩
  have hnew : Reachable sampleTable := by
    refine .new fun n _ e he => ?_
    simp only [List.mem_cons, List.not_mem_nil, or_false, or_self] at he
    rw [he]
    rfl
  exact ⟨t₁, t₂, t₃, h₁, h₂, h₃, hwalk, synonym_chains_sound (by decide) (.insert (.insert (.train hnew h₁) h₂) h₃)⟩

end Run

end LeafTable

end MemoryNode

end Rolex

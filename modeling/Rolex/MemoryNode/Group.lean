import Rolex.MemoryNode.Leaf

/-!
This module contains what a slot of the leaf table stands for: a list of leaves, the one of the table first,
in ascending order. It says which leaf takes a key, and what inserting, updating and removing do to the list.
-/

namespace Rolex

namespace MemoryNode

variable {N : Nat} {K V : Type} [LinearOrder K] [OrderTop K]

/-- All keys of the one leaf are less than all keys of the other. -/
def Leaf.Less (a b : Leaf N K V) : Prop := ∀ x ∈ a.entries, ∀ y ∈ b.entries, x.1 < y.1

/-- The leaves of a slot. Only the first one, which is in the table, may be without a pair. -/
structure Ordered (ls : List (Leaf N K V)) : Prop where
  sorted : ∀ l ∈ ls, l.Sorted
  ne_nil : ∀ l ∈ ls.tail, l.entries ≠ []
  less : ls.Pairwise Leaf.Less

/-- The pairs of a slot. -/
def Stored (ls : List (Leaf N K V)) (e : K × V) : Prop := ∃ l ∈ ls, e ∈ l.entries

theorem stored_append {xs ys : List (Leaf N K V)} {e : K × V}
    : Stored (xs ++ ys) e ↔ Stored xs e ∨ Stored ys e := by
  simp only [Stored, List.mem_append, or_and_right, exists_or]

theorem stored_cons {l : Leaf N K V} {ls : List (Leaf N K V)} {e : K × V}
    : Stored (l :: ls) e ↔ e ∈ l.entries ∨ Stored ls e := by
  simp only [Stored, List.mem_cons, or_and_right, exists_or, exists_eq_left]

theorem Stored.ne_top {ls : List (Leaf N K V)} {e : K × V} (h : Stored ls e) : e.1 ≠ ⊤ := by
  obtain ⟨l, -, he⟩ := h
  exact (Leaf.mem_entries.mp he).2

section Order

variable {xs ys : List (Leaf N K V)} {l : Leaf N K V}

theorem Ordered.mem_sorted (h : Ordered (xs ++ l :: ys)) : l.Sorted := h.sorted l (by simp)

theorem ordered_iff
    : Ordered (xs ++ l :: ys)
        ↔ Ordered (xs ++ ys) ∧ l.Sorted ∧ (xs ≠ [] → l.entries ≠ []) ∧ (xs = [] → ∀ y ∈ ys, y.entries ≠ [])
          ∧ (∀ x ∈ xs, x.Less l) ∧ ∀ y ∈ ys, l.Less y := by
  constructor
  . intro h
    have hless := h.less
    rw [List.pairwise_append, List.pairwise_cons] at hless
    obtain ⟨hxs, ⟨hl, hys⟩, hcross⟩ := hless
    refine ⟨⟨?_, ?_, ?_⟩, h.mem_sorted, ?_, ?_, ?_, hl⟩
    . intro a ha
      rcases List.mem_append.mp ha with ha | ha
      . exact h.sorted a (List.mem_append_left _ ha)
      . exact h.sorted a (List.mem_append_right _ (List.mem_cons_of_mem _ ha))
    . intro a ha
      apply h.ne_nil
      cases xs with
      | nil => exact List.mem_of_mem_tail ha
      | cons x xs =>
        rcases List.mem_append.mp ha with ha | ha
        . exact List.mem_append_left _ ha
        . exact List.mem_append_right _ (List.mem_cons_of_mem _ ha)
    . rw [List.pairwise_append]
      exact ⟨hxs, hys, fun a ha b hb => hcross a ha b (List.mem_cons_of_mem _ hb)⟩
    . intro hne
      apply h.ne_nil
      cases xs with
      | nil => exact absurd rfl hne
      | cons x xs => exact List.mem_append_right _ List.mem_cons_self
    . rintro rfl y hy
      exact h.ne_nil y hy
    . exact fun x hx => hcross x hx l List.mem_cons_self
  . rintro ⟨h, hsorted, hne, hrest, hbelow, habove⟩
    have hless := h.less
    rw [List.pairwise_append] at hless
    refine ⟨?_, ?_, ?_⟩
    . intro a ha
      rcases List.mem_append.mp ha with ha | ha
      . exact h.sorted a (List.mem_append_left _ ha)
      . rcases List.mem_cons.mp ha with rfl | ha
        . exact hsorted
        . exact h.sorted a (List.mem_append_right _ ha)
    . intro a ha
      cases xs with
      | nil => exact hrest rfl a ha
      | cons x xs =>
        rcases List.mem_append.mp ha with ha | ha
        . exact h.ne_nil a (List.mem_append_left _ ha)
        . rcases List.mem_cons.mp ha with rfl | ha
          . exact hne (List.cons_ne_nil _ _)
          . exact h.ne_nil a (List.mem_append_right _ ha)
    . rw [List.pairwise_append, List.pairwise_cons]
      refine ⟨hless.1, ⟨habove, hless.2.1⟩, fun a ha b hb => ?_⟩
      rcases List.mem_cons.mp hb with rfl | hb
      . exact hbelow a ha
      . exact hless.2.2 a ha b hb

theorem Ordered.drop_middle (h : Ordered (xs ++ l :: ys)) : Ordered (xs ++ ys) := (ordered_iff.mp h).1

end Order

section Route

variable [NeZero N] {key : K} {val : V} {xs ys : List (Leaf N K V)} {cur cur' : Leaf N K V}

/-- `cur` is the leaf that takes a key: the last one with a first key that is not greater. -/
structure Routed (key : K) (xs : List (Leaf N K V)) (cur : Leaf N K V) (ys : List (Leaf N K V)) : Prop where
  here : xs = [] ∨ cur.firstKey ≤ key
  above : ∀ y ∈ ys, key < y.firstKey

theorem Routed.lt_above (hr : Routed key xs cur ys) (h : Ordered (xs ++ cur :: ys)) {e : K × V} (he : Stored ys e)
    : key < e.1 := by
  obtain ⟨y, hy, he⟩ := he
  have hsorted := h.sorted y (by simp [hy])
  exact (hr.above y hy).trans_le (hsorted.firstKey_le (Leaf.mem_entries.mp he).1)

theorem Routed.below_lt (hr : Routed key xs cur ys) (h : Ordered (xs ++ cur :: ys)) {e : K × V} (he : Stored xs e)
    : e.1 < key := by
  obtain ⟨x, hx, he⟩ := he
  obtain ⟨-, hsorted, hne, -, hbelow, -⟩ := ordered_iff.mp h
  have hxs : xs ≠ [] := List.ne_nil_of_mem hx
  rcases hr.here with hnil | hle
  . exact absurd hnil hxs
  . -- the first key of `cur` is a stored one
    obtain ⟨v, hfirst⟩ := Leaf.firstKey_mem (hne hxs) hsorted
    exact (hbelow x hx e he _ hfirst).trans_le hle

theorem Routed.mem_cur (hr : Routed key xs cur ys) (h : Ordered (xs ++ cur :: ys)) {e : K × V}
    (he : Stored (xs ++ cur :: ys) e) (hkey : e.1 = key)
    : e ∈ cur.entries := by
  rw [stored_append, stored_cons] at he
  rcases he with he | he | he
  . exact absurd hkey (hr.below_lt h he).ne
  . exact he
  . exact absurd hkey (hr.lt_above h he).ne'

theorem Ordered.replace (h : Ordered (xs ++ cur :: ys)) (hr : Routed key xs cur ys) (hsorted : cur'.Sorted)
    (hne : xs ≠ [] → cur'.entries ≠ [])
    (hsub : ∀ e ∈ cur'.entries, e.1 = key ∨ e ∈ cur.entries)
    : Ordered (xs ++ cur' :: ys) := by
  obtain ⟨hrest, -, -, hys, hbelow, habove⟩ := ordered_iff.mp h
  refine ordered_iff.mpr ⟨hrest, hsorted, hne, hys, ?_, ?_⟩
  . intro x hx a ha b hb
    rcases hsub b hb with heq | hb
    . rw [heq]
      exact hr.below_lt h ⟨x, hx, ha⟩
    . exact hbelow x hx a ha b hb
  . intro y hy a ha b hb
    rcases hsub a ha with heq | ha
    . rw [heq]
      exact hr.lt_above h ⟨y, hy, hb⟩
    . exact habove y hy a ha b hb

theorem Ordered.split (h : Ordered (xs ++ cur :: ys)) {lower upper : Leaf N K V} (hh : Leaf.Halves cur lower upper)
    : Ordered (xs ++ lower :: upper :: ys) := by
  obtain ⟨hrest, -, -, hys, hbelow, habove⟩ := ordered_iff.mp h
  have hlower : ∀ e ∈ lower.entries, e ∈ cur.entries := fun e he => (hh.mem_iff e).mpr (.inl he)
  have hupper : ∀ e ∈ upper.entries, e ∈ cur.entries := fun e he => (hh.mem_iff e).mpr (.inr he)
  have hfirst : Ordered (xs ++ upper :: ys) := by
    refine ordered_iff.mpr ⟨hrest, hh.upper_sorted, fun _ => hh.upper_ne_nil, hys, ?_, ?_⟩
    . exact fun x hx a ha b hb => hbelow x hx a ha b (hupper b hb)
    . exact fun y hy a ha b hb => habove y hy a (hupper a ha) b hb
  refine ordered_iff.mpr ⟨hfirst, hh.lower_sorted, fun _ => hh.lower_ne_nil, ?_, ?_, ?_⟩
  . intro hnil y hy
    rcases List.mem_cons.mp hy with rfl | hy
    . exact hh.upper_ne_nil
    . exact hys hnil y hy
  . exact fun x hx a ha b hb => hbelow x hx a ha b (hlower b hb)
  . intro y hy a ha b hb
    rcases List.mem_cons.mp hy with rfl | hy
    . exact hh.lt a ha b hb
    . exact habove y hy a (hlower a ha) b hb

end Route

section Steps

variable [NeZero N]

/-- What `insert_synonym` does to the leaves of its slot. -/
inductive Inserts (key : K) (val : V) : List (Leaf N K V) → Bool → List (Leaf N K V) → Prop where
  | refused (ls : List (Leaf N K V)) : Inserts key val ls false ls
  | placed {xs ys : List (Leaf N K V)} {cur cur' : Leaf N K V} (hr : Routed key xs cur ys)
    (hnew : cur.contain key = false) (hroom : cur.isfull = false) (hins : cur.insertNotFull key val = some cur')
    : Inserts key val (xs ++ cur :: ys) true (xs ++ cur' :: ys)
  | lower {xs ys : List (Leaf N K V)} {cur nLeaf lower : Leaf N K V} (hr : Routed key xs cur ys)
    (hnew : cur.contain key = false) (hfull : cur.isfull) (hblank : nLeaf.Blank)
    (hhere : (cur.moveHalf nLeaf).2.insertHere key = false)
    (hins : (cur.moveHalf nLeaf).1.insertNotFull key val = some lower)
    : Inserts key val (xs ++ cur :: ys) true (xs ++ lower :: (cur.moveHalf nLeaf).2 :: ys)
  | upper {xs ys : List (Leaf N K V)} {cur nLeaf upper : Leaf N K V} (hr : Routed key xs cur ys)
    (hnew : cur.contain key = false) (hfull : cur.isfull) (hblank : nLeaf.Blank)
    (hhere : (cur.moveHalf nLeaf).2.insertHere key)
    (hins : (cur.moveHalf nLeaf).2.insertNotFull key val = some upper)
    : Inserts key val (xs ++ cur :: ys) true (xs ++ (cur.moveHalf nLeaf).1 :: upper :: ys)

/-- What `update_synonym` does. -/
inductive Updates (key : K) (val : V) : List (Leaf N K V) → Bool → List (Leaf N K V) → Prop where
  | mk {xs ys : List (Leaf N K V)} {cur : Leaf N K V} (hr : Routed key xs cur ys)
    : Updates key val (xs ++ cur :: ys) (cur.update key val).1 (xs ++ (cur.update key val).2 :: ys)

/-- What `remove_synonym` does. -/
inductive Removes (key : K) : List (Leaf N K V) → Bool → List (Leaf N K V) → Prop where
  | kept {xs ys : List (Leaf N K V)} {cur cur' : Leaf N K V} {b : Bool} (hr : Routed key xs cur ys)
    (hrem : cur.remove key = some (b, cur')) (hkeep : xs = [] ∨ cur'.isEmpty = false)
    : Removes key (xs ++ cur :: ys) b (xs ++ cur' :: ys)
  | unlinked {xs ys : List (Leaf N K V)} {cur cur' : Leaf N K V} {b : Bool} (hr : Routed key xs cur ys)
    (hrem : cur.remove key = some (b, cur')) (hne : xs ≠ []) (hempty : cur'.isEmpty)
    : Removes key (xs ++ cur :: ys) b (xs ++ ys)

variable {key : K} {val : V} {ls ls' : List (Leaf N K V)} {b : Bool}

theorem entries_ne_nil_of_insertNotFull {l l' : Leaf N K V} (h : l.Sorted)
    (hins : l.insertNotFull key val = some l') (hne : l.entries ≠ [])
    : l'.entries ≠ [] := by
  obtain ⟨-, ⟨rfl, -⟩ | ⟨-, hmem⟩⟩ := Leaf.insertNotFull_spec h hins
  . exact hne
  . exact List.ne_nil_of_mem ((hmem (key, val)).mpr (.inl rfl))

theorem mem_of_insertNotFull {l l' : Leaf N K V} (h : l.Sorted) (hins : l.insertNotFull key val = some l')
    : ∀ e ∈ l'.entries, e.1 = key ∨ e ∈ l.entries := by
  intro e he
  obtain ⟨-, ⟨rfl, -⟩ | ⟨-, hmem⟩⟩ := Leaf.insertNotFull_spec h hins
  . exact .inr he
  . rcases (hmem e).mp he with rfl | he
    . exact .inl rfl
    . exact .inr he

theorem Inserts.ordered (heven : Even N) (h : Ordered ls) (hins : Inserts key val ls b ls') : Ordered ls' := by
  cases hins with
  | refused => exact h
  | placed hr hnew hroom hins =>
    have hsorted := h.mem_sorted
    refine h.replace hr (Leaf.insertNotFull_spec hsorted hins).1 ?_ (mem_of_insertNotFull hsorted hins)
    intro hxs
    exact entries_ne_nil_of_insertNotFull hsorted hins ((ordered_iff.mp h).2.2.1 hxs)
  | @lower xs ys cur nLeaf lower hr hnew hfull hblank hhere hins =>
    have hh := Leaf.moveHalf_halves heven h.mem_sorted hfull hblank
    have hsplit := h.split hh
    refine hsplit.replace ⟨?_, ?_⟩ (Leaf.insertNotFull_spec hh.lower_sorted hins).1 ?_
      (mem_of_insertNotFull hh.lower_sorted hins)
    . rw [hh.firstKey_eq]
      exact hr.here
    . intro y hy
      rcases List.mem_cons.mp hy with rfl | hy
      . simpa [Leaf.insertHere] using hhere
      . exact hr.above y hy
    . intro _
      exact entries_ne_nil_of_insertNotFull hh.lower_sorted hins hh.lower_ne_nil
  | @upper xs ys cur nLeaf upper hr hnew hfull hblank hhere hins =>
    have hh := Leaf.moveHalf_halves heven h.mem_sorted hfull hblank
    have hsplit : Ordered ((xs ++ [(cur.moveHalf nLeaf).1]) ++ (cur.moveHalf nLeaf).2 :: ys) := by
      rw [List.append_assoc]
      exact h.split hh
    have hordered := hsplit.replace ⟨.inr ?_, hr.above⟩ (Leaf.insertNotFull_spec hh.upper_sorted hins).1 ?_
      (mem_of_insertNotFull hh.upper_sorted hins)
    . rwa [List.append_assoc] at hordered
    . simpa [Leaf.insertHere] using hhere
    . intro _
      exact entries_ne_nil_of_insertNotFull hh.upper_sorted hins hh.upper_ne_nil

theorem Updates.ordered (h : Ordered ls) (hupd : Updates key val ls b ls') : Ordered ls' := by
  cases hupd with
  | @mk xs ys cur hr =>
    have hsorted := h.mem_sorted
    refine h.replace hr (Leaf.update_sorted hsorted) ?_ ?_
    . intro hxs hnil
      refine (ordered_iff.mp h).2.2.1 hxs ?_
      rw [← List.map_eq_nil_iff, ← Leaf.keys_update hsorted, hnil, List.map_nil]
    . intro e he
      rcases Leaf.update_cases cur key val hsorted with ⟨-, as, a, bs, hslots, hslots', -⟩ | ⟨-, heq, -⟩
      . rw [Leaf.mem_entries, hslots'] at he
        rw [Leaf.mem_entries, hslots]
        obtain ⟨he, hne⟩ := he
        rcases List.mem_append.mp he with he | he
        . exact .inr ⟨List.mem_append_left _ he, hne⟩
        . rcases List.mem_cons.mp he with rfl | he
          . exact .inl rfl
          . exact .inr ⟨List.mem_append_right _ (List.mem_cons_of_mem _ he), hne⟩
      . exact .inr (heq ▸ he)

theorem Removes.ordered (h : Ordered ls) (hrem : Removes key ls b ls') : Ordered ls' := by
  cases hrem with
  | @kept xs ys cur cur' b hr hrem hkeep =>
    obtain ⟨hsorted, hmem⟩ := Leaf.remove_spec h.mem_sorted hrem
    refine h.replace hr hsorted ?_ fun e he => .inr ((hmem e).mp he).1
    intro hxs hnil
    rcases hkeep with hkeep | hkeep
    . exact hxs hkeep
    . rw [← Leaf.isEmpty_iff hsorted, hkeep] at hnil
      cases hnil
  | unlinked => exact h.drop_middle

theorem not_mem_of_contain {l : Leaf N K V} (h : l.Sorted) (hnew : l.contain key = false)
    : ∀ e ∈ l.entries, e.1 ≠ key := by
  intro e he heq
  have hcontain := (Leaf.contain_iff h).mpr ⟨e, (Leaf.mem_entries.mp he).1, heq⟩
  rw [hnew] at hcontain
  cases hcontain

theorem Inserts.eq_of_false (hins : Inserts key val ls false ls') : ls' = ls := by
  cases hins
  rfl

theorem Inserts.absent (h : Ordered ls) (hins : Inserts key val ls true ls') {e : K × V} (he : Stored ls e)
    : e.1 ≠ key := by
  intro heq
  cases hins with
  | placed hr hnew => exact not_mem_of_contain h.mem_sorted hnew e (hr.mem_cur h he heq) heq
  | lower hr hnew => exact not_mem_of_contain h.mem_sorted hnew e (hr.mem_cur h he heq) heq
  | upper hr hnew => exact not_mem_of_contain h.mem_sorted hnew e (hr.mem_cur h he heq) heq

theorem Inserts.stored_iff (heven : Even N) (hkey : key ≠ ⊤) (h : Ordered ls) (hins : Inserts key val ls true ls')
    (e : K × V)
    : Stored ls' e ↔ e = (key, val) ∨ Stored ls e := by
  cases hins with
  | placed hr hnew hroom hins =>
    have hmem := Leaf.mem_entries_insertNotFull h.mem_sorted hkey (not_mem_of_contain h.mem_sorted hnew) hroom hins e
    simp only [stored_append, stored_cons, hmem]
    tauto
  | @lower xs ys cur nLeaf lower hr hnew hfull hblank hhere hins =>
    have hh := Leaf.moveHalf_halves heven h.mem_sorted hfull hblank
    have hold : ∀ a ∈ (cur.moveHalf nLeaf).1.entries, a.1 ≠ key :=
      fun a ha => not_mem_of_contain h.mem_sorted hnew a ((hh.mem_iff a).mpr (.inl ha))
    have hmem := Leaf.mem_entries_insertNotFull hh.lower_sorted hkey hold hh.lower_not_full hins e
    simp only [stored_append, stored_cons, hmem, hh.mem_iff e]
    tauto
  | @upper xs ys cur nLeaf upper hr hnew hfull hblank hhere hins =>
    have hh := Leaf.moveHalf_halves heven h.mem_sorted hfull hblank
    have hold : ∀ a ∈ (cur.moveHalf nLeaf).2.entries, a.1 ≠ key :=
      fun a ha => not_mem_of_contain h.mem_sorted hnew a ((hh.mem_iff a).mpr (.inr ha))
    have hmem := Leaf.mem_entries_insertNotFull hh.upper_sorted hkey hold hh.upper_not_full hins e
    simp only [stored_append, stored_cons, hmem, hh.mem_iff e]
    tauto

/-- The leaf in the table keeps its first key, or the new key becomes the first one. -/
theorem Inserts.head (heven : Even N) (h : Ordered ls) (hins : Inserts key val ls b ls') {a : Leaf N K V}
    (ha : ls.head? = some a)
    : ∃ a', ls'.head? = some a' ∧ (a'.firstKey = a.firstKey ∨ a'.firstKey = key ∧ key < a.firstKey) := by
  cases hins with
  | refused => exact ⟨a, ha, .inl rfl⟩
  | @placed xs ys cur cur' hr hnew hroom hins =>
    cases xs with
    | nil =>
      cases ha
      exact ⟨cur', rfl, Leaf.insertNotFull_firstKey h.mem_sorted hins⟩
    | cons x xs => exact ⟨a, ha, .inl rfl⟩
  | @lower xs ys cur nLeaf lower hr hnew hfull hblank hhere hins =>
    cases xs with
    | nil =>
      cases ha
      have hh := Leaf.moveHalf_halves heven h.mem_sorted hfull hblank
      have hfirst := Leaf.insertNotFull_firstKey hh.lower_sorted hins
      rw [hh.firstKey_eq] at hfirst
      exact ⟨lower, rfl, hfirst⟩
    | cons x xs => exact ⟨a, ha, .inl rfl⟩
  | @upper xs ys cur nLeaf upper hr hnew hfull hblank hhere hins =>
    cases xs with
    | nil =>
      cases ha
      have hh := Leaf.moveHalf_halves heven h.mem_sorted hfull hblank
      exact ⟨_, rfl, .inl hh.firstKey_eq⟩
    | cons x xs => exact ⟨a, ha, .inl rfl⟩

theorem Updates.eq_of_false (h : Ordered ls) (hupd : Updates key val ls false ls') : ls' = ls := by
  generalize hb : false = b at hupd
  cases hupd with
  | @mk xs ys cur hr =>
    rcases Leaf.update_cases cur key val h.mem_sorted with ⟨htrue, -⟩ | ⟨-, heq, -⟩
    . rw [htrue] at hb
      cases hb
    . rw [heq]

theorem Updates.stored_iff (hkey : key ≠ ⊤) (h : Ordered ls) (hupd : Updates key val ls true ls') (e : K × V)
    : Stored ls' e ↔ e = (key, val) ∨ Stored ls e ∧ e.1 ≠ key := by
  generalize hb : true = b at hupd
  cases hupd with
  | @mk xs ys cur hr =>
    have hmem := Leaf.mem_entries_update h.mem_sorted hkey hb.symm e
    have hbelow : Stored xs e → e.1 ≠ key := fun he => (hr.below_lt h he).ne
    have habove : Stored ys e → e.1 ≠ key := fun he => (hr.lt_above h he).ne'
    simp only [stored_append, stored_cons, hmem]
    tauto

theorem Updates.head (h : Ordered ls) (hupd : Updates key val ls b ls') {a : Leaf N K V} (ha : ls.head? = some a)
    : ∃ a', ls'.head? = some a' ∧ a'.firstKey = a.firstKey := by
  cases hupd with
  | @mk xs ys cur hr =>
    cases xs with
    | nil =>
      cases ha
      exact ⟨_, rfl, Leaf.update_firstKey h.mem_sorted⟩
    | cons x xs => exact ⟨a, ha, rfl⟩

theorem Removes.stored_iff (h : Ordered ls) (hrem : Removes key ls b ls') (e : K × V)
    : Stored ls' e ↔ Stored ls e ∧ e.1 ≠ key := by
  cases hrem with
  | @kept xs ys cur cur' b hr hrem hkeep =>
    have hmem := (Leaf.remove_spec h.mem_sorted hrem).2 e
    have hbelow : Stored xs e → e.1 ≠ key := fun he => (hr.below_lt h he).ne
    have habove : Stored ys e → e.1 ≠ key := fun he => (hr.lt_above h he).ne'
    simp only [stored_append, stored_cons, hmem]
    tauto
  | @unlinked xs ys cur cur' b hr hrem hne hempty =>
    obtain ⟨hsorted, hmem⟩ := Leaf.remove_spec h.mem_sorted hrem
    have hnone : e ∉ cur'.entries := by
      rw [(Leaf.isEmpty_iff hsorted).mp hempty]
      exact List.not_mem_nil
    have hbelow : Stored xs e → e.1 ≠ key := fun he => (hr.below_lt h he).ne
    have habove : Stored ys e → e.1 ≠ key := fun he => (hr.lt_above h he).ne'
    rw [hmem e] at hnone
    simp only [stored_append, stored_cons]
    tauto

theorem Removes.head (h : Ordered ls) (hrem : Removes key ls b ls') {a : Leaf N K V} (ha : ls.head? = some a)
    : ∃ a', ls'.head? = some a' ∧ ∀ e, e ∈ a'.entries ↔ e ∈ a.entries ∧ e.1 ≠ key := by
  have hbelow : ∀ {x : Leaf N K V} {xs ys : List (Leaf N K V)} {cur : Leaf N K V}, Routed key (x :: xs) cur ys
      → Ordered ((x :: xs) ++ cur :: ys) → ∀ e, e ∈ x.entries ↔ e ∈ x.entries ∧ e.1 ≠ key := by
    intro x xs ys cur hr h e
    refine ⟨fun he => ⟨he, ?_⟩, And.left⟩
    exact (hr.below_lt h ⟨x, List.mem_cons_self, he⟩).ne
  cases hrem with
  | @kept xs ys cur cur' b hr hrem hkeep =>
    cases xs with
    | nil =>
      cases ha
      exact ⟨cur', rfl, (Leaf.remove_spec h.mem_sorted hrem).2⟩
    | cons x xs =>
      cases ha
      exact ⟨a, rfl, hbelow hr h⟩
  | @unlinked xs ys cur cur' b hr hrem hne hempty =>
    cases xs with
    | nil => exact absurd rfl hne
    | cons x xs =>
      cases ha
      exact ⟨a, rfl, hbelow hr h⟩

end Steps

end MemoryNode

end Rolex

import Rolex.MemoryNode.Steps
import Mathlib.Order.Monotone.Basic

/-!
This module contains what `search` answers during a sequence of calls on the leaf table: it is a finite map
exactly as long as no `remove` takes the last pair out of a leaf of the table on which the way to a key in
the synonym leaves of its slot depends.
-/

namespace Rolex

namespace MemoryNode

variable {N : Nat} {K V : Type} [LinearOrder K] [OrderTop K]

theorem Ordered.eq_of_key {ls : List (Leaf N K V)} (h : Ordered ls) {a b : K × V} (ha : Stored ls a)
    (hb : Stored ls b) (heq : a.1 = b.1)
    : a = b := by
  obtain ⟨l, hl, ha⟩ := ha
  obtain ⟨m, hm, hb⟩ := hb
  by_cases hlm : l = m
  . subst hlm
    exact (h.sorted l hl).eq_of_key ha hb heq
  . have hpairs : ls.Pairwise fun l m => Leaf.Less l m ∨ Leaf.Less m l := h.less.imp .inl
    have : Std.Symm fun l m : Leaf N K V => Leaf.Less l m ∨ Leaf.Less m l := ⟨fun _ _ => Or.symm⟩
    rcases hpairs.forall hl hm hlm with hless | hless
    . exact absurd heq (hless a ha b hb).ne
    . exact absurd heq (hless b hb a ha).ne'

theorem Ordered.firstKey_le [NeZero N] {ls : List (Leaf N K V)} (h : Ordered ls) {a : Leaf N K V}
    (ha : ls.head? = some a) (hne : a.entries ≠ []) {e : K × V} (he : Stored ls e)
    : a.firstKey ≤ e.1 := by
  obtain ⟨rest, rfl⟩ : ∃ rest, ls = a :: rest := ⟨_, List.eq_cons_of_mem_head? ha⟩
  have hsorted := h.sorted a List.mem_cons_self
  rcases stored_cons.mp he with he | ⟨l, hl, he⟩
  . exact hsorted.firstKey_le (Leaf.mem_entries.mp he).1
  . obtain ⟨v, hv⟩ := Leaf.firstKey_mem hne hsorted
    exact ((List.pairwise_cons.mp h.less).1 l hl _ hv e he).le

namespace LeafTable

variable [NeZero N] {t t' : LeafTable N K V} {places places' : Nat → List Place} {i : Nat}

section Search

variable {key : K}

theorem searchBack_spec (hkey : key ≠ ⊤) {l : List Nat}
    (hget : ∀ s ∈ l, t.getLeaf (.synonym s) = some (t.leafAt (.synonym s)))
    (hsorted : ∀ s ∈ l, (t.leafAt (.synonym s)).Sorted) {n : Nat} (hn : n ≤ l.length)
    : ∃ r, t.searchBack key l n = some r
        ∧ (∀ v, r = some v → ∃ s ∈ l, (key, v) ∈ (t.leafAt (.synonym s)).entries)
        ∧ (r = none → ∀ s ∈ l.take n, ∀ v, (key, v) ∉ (t.leafAt (.synonym s)).entries) := by
  induction n with
  | zero => exact ⟨none, rfl, by simp, by simp⟩
  | succ n ih =>
    have hlt : n < l.length := hn
    have hmem : l[n] ∈ l := List.getElem_mem hlt
    have htake : l.take (n + 1) = l.take n ++ [l[n]] := (List.take_append_getElem hlt).symm
    have hleaf := fun v => @Leaf.search_eq_some_iff _ _ _ _ _ (t.leafAt (.synonym l[n])) key _ (hsorted _ hmem) hkey v
    rw [searchBack, List.getElem?_eq_getElem hlt]
    simp only [Option.bind_eq_bind, Option.bind_some, hget _ hmem]
    cases hsearch : (t.leafAt (.synonym l[n])).search key with
    | some v =>
      refine ⟨some v, rfl, fun w hw => ?_, fun hnone => by cases hnone⟩
      cases hw
      exact ⟨l[n], hmem, (hleaf v).mp hsearch⟩
    | none =>
      obtain ⟨r, hr, hsome, hnone⟩ := ih hlt.le
      refine ⟨r, hr, hsome, fun hr s hs v hv => ?_⟩
      rw [htake] at hs
      rcases List.mem_append.mp hs with hs | hs
      . exact hnone hr s hs v hv
      . rw [List.mem_singleton.mp hs, ← hleaf v, hsearch] at hv
        cases hv

omit [NeZero N] [LinearOrder K] [OrderTop K] in
theorem Linked.group_head (h : Linked t places) (hi : i < t.table.length)
    : (t.group places i).head? = some (t.leafAt (.table i)) := by
  rw [group, List.head?_map, h.head i hi, Option.map_some]

theorem Inv.search_spec (h : Inv t places) (hkey : key ≠ ⊤) {lo hi : Nat} (hle : lo ≤ hi) (hhi : hi < t.table.length)
    : ∃ i r, SlotFor t key lo hi i ∧ t.search key lo hi = some r
        ∧ ∀ v, r = some v ↔ Stored (t.group places i) (key, v) := by
  have hlinked := h.shape.linked
  have hend : lo + (hi - lo) = hi := by omega
  obtain ⟨i, hfind, hslot⟩ := hlinked.findSlot_spec key lo (hi - lo) (by rwa [hend])
  rw [hend] at hslot
  have hi' : i < t.table.length := hslot.le_hi.trans_lt hhi
  have hordered := h.ordered i hi'
  obtain ⟨l, hl, -, -⟩ := hlinked.exists_indices hi'
  have hplace : ∀ s ∈ l, .synonym s ∈ places i := fun s hs => by simp [hl, hs]
  have hgroup : t.group places i = t.leafAt (.table i) :: l.map fun s => t.leafAt (.synonym s) := by
    rw [group, hl, List.map_cons, List.map_map]
    rfl
  have hsorted : ∀ p ∈ places i, (t.leafAt p).Sorted := fun p hp => hordered.sorted _ (List.mem_map_of_mem hp)
  refine ⟨i, ?_⟩
  unfold search
  rw [if_pos hhi, hfind]
  simp only [Option.bind_eq_bind, Option.bind_some, hlinked.getLeaf_eq hi' (hlinked.table_mem hi')]
  have hleaf := fun v => @Leaf.search_eq_some_iff _ _ _ _ _ (t.leafAt (.table i)) key _
    (hsorted _ (hlinked.table_mem hi')) hkey v
  cases hsearch : (t.leafAt (.table i)).search key with
  | some v =>
    refine ⟨some v, hslot, rfl, fun w => ?_⟩
    have hstored : Stored (t.group places i) (key, v) := by
      rw [hgroup, stored_cons]
      exact .inl ((hleaf v).mp hsearch)
    constructor
    . intro hw
      cases hw
      exact hstored
    . intro hw
      rw [(Prod.mk.inj (hordered.eq_of_key hstored hw rfl)).2]
  | none =>
    obtain ⟨r, hr, hsome, hnone⟩ := @searchBack_spec _ _ _ _ _ _ t key hkey l
      (fun s hs => hlinked.getLeaf_eq hi' (hplace s hs)) (fun s hs => hsorted _ (hplace s hs)) l.length le_rfl
    refine ⟨r, hslot, ?_, fun v => ?_⟩
    . dsimp only
      rw [searchSynonym, hlinked.sLeaves_eq hi' hl]
      exact hr
    . constructor
      . intro hv
        obtain ⟨s, hs, hmem⟩ := hsome v hv
        rw [hgroup]
        exact ⟨_, List.mem_cons_of_mem _ (List.mem_map_of_mem hs), hmem⟩
      . intro hstored
        cases r with
        | some w =>
          obtain ⟨s, hs, hmem⟩ := hsome w rfl
          have hw : Stored (t.group places i) (key, w) := by
            rw [hgroup]
            exact ⟨_, List.mem_cons_of_mem _ (List.mem_map_of_mem hs), hmem⟩
          rw [(Prod.mk.inj (hordered.eq_of_key hw hstored rfl)).2]
        | none =>
          rw [hgroup, stored_cons] at hstored
          rcases hstored with hmem | ⟨leaf, hleaf', hmem⟩
          . rw [← hleaf v, hsearch] at hmem
            cases hmem
          . obtain ⟨s, hs, rfl⟩ := List.mem_map.mp hleaf'
            rw [List.take_length] at hnone
            exact absurd hmem (hnone rfl s hs v)

omit [OrderTop K] in
theorem SlotFor.unique {lo hi i j : Nat} (hi' : SlotFor t key lo hi i) (hj : SlotFor t key lo hi j) : i = j := by
  rcases Nat.lt_trichotomy i j with hlt | heq | hlt
  . rcases hj.here with heq | hle
    . have := hi'.lo_le
      omega
    . exact absurd hle (not_le.mpr (hi'.above j hlt hj.le_hi))
  . exact heq
  . rcases hi'.here with heq | hle
    . have := hj.lo_le
      omega
    . exact absurd hle (not_le.mpr (hj.above i hlt hi'.le_hi))

omit [OrderTop K] in
theorem Linked.findSlot_of_slotFor (h : Linked t places) {lo hi : Nat} (hle : lo ≤ hi) (hhi : hi < t.table.length)
    (hslot : SlotFor t key lo hi i)
    : t.findSlot key lo (hi - lo) = some i := by
  have hend : lo + (hi - lo) = hi := by omega
  obtain ⟨j, hfind, hj⟩ := h.findSlot_spec key lo (hi - lo) (by rwa [hend])
  rw [hend] at hj
  rw [hfind, hslot.unique hj]

end Search

/-- The calls of a sequence; the range of a key is given by the functions `lo` and `hi`. -/
inductive Call (K V : Type) where
  | insert (key : K) (val : V)
  | update (key : K) (val : V)
  | remove (key : K)
  | search (key : K)

def Call.key : Call K V → K
  | .insert key _ => key
  | .update key _ => key
  | .remove key => key
  | .search key => key

section Run

variable (lo hi : K → Nat)

/-- One call on a table, and what it does to a finite map. -/
def step (t : LeafTable N K V) (m : K → Option V) : Call K V → Option (LeafTable N K V × (K → Option V))
  | .insert key val => do
    let (b, t) ← t.insert key val (lo key) (hi key)
    return (t, if b then Function.update m key (some val) else m)
  | .update key val => do
    let (b, t) ← t.update key val (lo key) (hi key)
    return (t, if b then Function.update m key (some val) else m)
  | .remove key => do
    let (_, t) ← t.remove key (lo key) (hi key)
    return (t, Function.update m key none)
  | .search key => do
    let _ ← t.search key (lo key) (hi key)
    return (t, m)

/-- The tables and maps before, between and after the calls. -/
def run : List (Call K V) → LeafTable N K V → (K → Option V) → Option (List (LeafTable N K V × (K → Option V)))
  | [], t, m => some [(t, m)]
  | call :: calls, t, m => do
    let (t', m') ← step lo hi t m call
    let rest ← run calls t' m'
    return (t, m) :: rest

/-- `search` answers as the map says. The greatest key marks empty slots and is none of the map. -/
def Answers (t : LeafTable N K V) (m : K → Option V) : Prop :=
  ∀ k ≠ ⊤, t.search k (lo k) (hi k) = some (m k)

/--
The condition on a call: it is not a `remove` of the only key of a leaf of the table whose synonym leaves
hold a key with a range that begins at a lower slot.
-/
def Call.Fits (t : LeafTable N K V) : Call K V → Prop
  | .remove key => ∀ i l, t.findSlot key (lo key) (hi key - lo key) = some i → t.sLeaves i = some l
    → (∀ e ∈ (t.leafAt (.table i)).entries, e.1 = key)
    → ∀ s ∈ l, ∀ e ∈ (t.leafAt (.synonym s)).entries, lo e.1 < i → hi e.1 < i
  | _ => True

def AllFit : List (Call K V) → LeafTable N K V → (K → Option V) → Prop
  | [], _, _ => True
  | call :: calls, t, m =>
    call.Fits lo hi t ∧ ∀ t' m', step lo hi t m call = some (t', m') → AllFit calls t' m'

/--
The table stores the map: the pairs that are in a slot of the range of their key, and each of them is in the
slot where its key is looked for.
-/
structure Maps (t : LeafTable N K V) (places : Nat → List Place) (m : K → Option V) : Prop where
  inv : Inv t places
  range : ∀ k, lo k ≤ hi k ∧ hi k < t.table.length
  live : ∀ i < t.table.length, ∀ e, Stored (t.group places i) e → lo e.1 ≤ i → i ≤ hi e.1
    → SlotFor t e.1 (lo e.1) (hi e.1) i
  holds : ∀ k v, m k = some v ↔ ∃ i, lo k ≤ i ∧ i ≤ hi k ∧ Stored (t.group places i) (k, v)

variable {lo hi} {m : K → Option V}

namespace Maps

theorem stored_slot (h : Maps lo hi t places m) {k : K} {v : V} {i : Nat} (hslot : SlotFor t k (lo k) (hi k) i)
    : m k = some v ↔ Stored (t.group places i) (k, v) := by
  rw [h.holds k v]
  constructor
  . rintro ⟨j, hlo, hhi, hstored⟩
    have hj := h.live j (hhi.trans_lt (h.range k).2) (k, v) hstored hlo hhi
    rw [hslot.unique hj]
    exact hstored
  . exact fun hstored => ⟨i, hslot.lo_le, hslot.le_hi, hstored⟩

theorem answers (h : Maps lo hi t places m) : Answers lo hi t m := by
  intro k hk
  obtain ⟨i, r, hslot, hsearch, hr⟩ := h.inv.search_spec hk (h.range k).1 (h.range k).2
  rw [hsearch]
  refine congrArg some (Option.ext fun v => ?_)
  rw [hr v, h.stored_slot hslot]

end Maps

section Steps

variable {key : K} {val : V}

omit [NeZero N] in
theorem Keeps.leafAt_table (hk : Keeps t places i t' places') (h : Linked t places) {j : Nat}
    (hj : j < t.table.length) (hji : j ≠ i)
    : t'.leafAt (.table j) = t.leafAt (.table j) := by
  have hhead := hk.shape.linked.group_head (hk.length_eq.symm ▸ hj)
  rw [hk.others j hj hji, h.group_head hj] at hhead
  exact (Option.some.inj hhead).symm

theorem Maps.of_group_eq (h : Maps lo hi t places m) (hk : Keeps t places i t' places')
    (heq : t'.group places' i = t.group places i)
    : Maps lo hi t' places' m := by
  have hgroup : ∀ j < t.table.length, t'.group places' j = t.group places j := by
    intro j hj
    by_cases hji : j = i
    . rw [hji]
      exact heq
    . exact hk.others j hj hji
  have hleaf : ∀ j < t.table.length, t'.leafAt (.table j) = t.leafAt (.table j) := by
    intro j hj
    have hhead := hk.shape.linked.group_head (hk.length_eq.symm ▸ hj)
    rw [hgroup j hj, h.inv.shape.linked.group_head hj] at hhead
    exact (Option.some.inj hhead).symm
  have hlen := hk.length_eq
  refine ⟨⟨hk.shape, fun j hj => ?_⟩, fun k => ?_, fun j hj e he hlo hhi => ?_, fun k v => ?_⟩
  . rw [hgroup j (hlen ▸ hj)]
    exact h.inv.ordered j (hlen ▸ hj)
  . rw [hlen]
    exact h.range k
  . rw [hgroup j (hlen ▸ hj)] at he
    have hslot := h.live j (hlen ▸ hj) e he hlo hhi
    have hmax := (h.range e.1).2
    refine ⟨hslot.lo_le, hslot.le_hi, ?_, fun j' hlt hle => ?_⟩
    . rw [hleaf j (hlen ▸ hj)]
      exact hslot.here
    . rw [hleaf j' (hle.trans_lt hmax)]
      exact hslot.above j' hlt hle
  . rw [h.holds k v]
    refine exists_congr fun j => and_congr_right fun _ => and_congr_right fun hhi => ?_
    rw [hgroup j (hhi.trans_lt (h.range k).2)]

theorem Maps.change {m' : K → Option V} (h : Maps lo hi t places m) (hi' : i < t.table.length)
    (hslot : SlotFor t key (lo key) (hi key) i) (hk : Keeps t places i t' places')
    (hordered : Ordered (t'.group places' i))
    (hother : ∀ k ≠ key, m' k = m k) (hkey : ∀ v, m' key = some v ↔ Stored (t'.group places' i) (key, v))
    (hstored : ∀ e, e.1 ≠ key → (Stored (t'.group places' i) e ↔ Stored (t.group places i) e))
    (hway : ∀ j < t.table.length, ∀ e, Stored (t'.group places' j) e → SlotFor t e.1 (lo e.1) (hi e.1) j
      → SlotFor t' e.1 (lo e.1) (hi e.1) j)
    : Maps lo hi t' places' m' := by
  have hlen := hk.length_eq
  refine ⟨h.inv.keeps hk hordered, fun k => ?_, fun j hj e he hloj hhij => ?_, fun k v => ?_⟩
  . rw [hlen]
    exact h.range k
  . rw [hlen] at hj
    refine hway j hj e he ?_
    by_cases hji : j = i
    . subst hji
      by_cases hek : e.1 = key
      . rw [hek]
        exact hslot
      . exact h.live j hj e ((hstored e hek).mp he) hloj hhij
    . rw [hk.others j hj hji] at he
      exact h.live j hj e he hloj hhij
  . by_cases hkk : k = key
    . subst hkk
      rw [hkey v]
      constructor
      . exact fun hv => ⟨i, hslot.lo_le, hslot.le_hi, hv⟩
      . rintro ⟨j, hloj, hhij, hj⟩
        have hjlen : j < t.table.length := hhij.trans_lt (h.range k).2
        by_cases hji : j = i
        . exact hji ▸ hj
        . rw [hk.others j hjlen hji] at hj
          exact absurd (SlotFor.unique (h.live j hjlen (k, v) hj hloj hhij) hslot) hji
    . rw [hother k hkk, h.holds k v]
      refine exists_congr fun j => and_congr_right fun _ => and_congr_right fun hhi => ?_
      by_cases hji : j = i
      . rw [hji]
        exact (hstored (k, v) hkk).symm
      . rw [hk.others j (hhi.trans_lt (h.range k).2) hji]

theorem Maps.insert (heven : Even N) (hlo : Monotone lo) (hkey : key ≠ ⊤) (h : Maps lo hi t places m) {b : Bool}
    (hins : t.insert key val (lo key) (hi key) = some (b, t'))
    : ∃ places', Maps lo hi t' places' (if b then Function.update m key (some val) else m) := by
  obtain ⟨i, places', hi', hslot, hk, hgroup⟩ := insert_step h.inv.shape hins
  refine ⟨places', ?_⟩
  cases b with
  | false => exact h.of_group_eq hk hgroup.eq_of_false
  | true =>
    have hlinked := h.inv.shape.linked
    have hordered := h.inv.ordered i hi'
    have hstored := hgroup.stored_iff heven hkey hordered
    obtain ⟨a', ha', hfirst⟩ := hgroup.head heven hordered (hlinked.group_head hi')
    cases (hk.shape.linked.group_head (hk.length_eq.symm ▸ hi')).symm.trans ha'
    -- if the first key changes, the slot is the lowest one of the key, so greater keys begin there or later
    have hnear : ∀ k j, lo k ≤ j → j < i → key < (t.leafAt (.table i)).firstKey → k < key := by
      intro k j hloj hji hlt
      rcases hslot.here with heq | hle
      . by_contra hge
        have hmono := hlo (not_lt.mp hge)
        omega
      . exact absurd hle (not_le.mpr hlt)
    refine h.change hi' hslot hk (hgroup.ordered heven hordered) ?_ ?_ ?_ ?_
    . exact fun k hkk => Function.update_of_ne hkk ..
    . intro v
      rw [if_pos rfl, Function.update_self, hstored, Option.some.injEq, Prod.mk.injEq]
      have habsent := @Inserts.absent _ _ _ _ _ _ key val _ _ hordered hgroup (key, v)
      constructor
      . exact fun heq => .inl ⟨rfl, heq.symm⟩
      . rintro (⟨-, heq⟩ | hold)
        . exact heq.symm
        . exact absurd rfl (habsent hold)
    . intro e hek
      rw [hstored]
      exact ⟨fun hor => hor.resolve_left fun heq => hek (congrArg Prod.fst heq), .inr⟩
    . intro j hj e _ hold
      refine ⟨hold.lo_le, hold.le_hi, ?_, fun j' hlt hle => ?_⟩
      . by_cases hji : j = i
        . subst hji
          refine hold.here.imp_right fun hle => ?_
          rcases hfirst with hsame | ⟨hnew, hless⟩
          . exact hsame ▸ hle
          . exact hnew ▸ hless.le.trans hle
        . rw [hk.leafAt_table hlinked hj hji]
          exact hold.here
      . have habove := hold.above j' hlt hle
        by_cases hji : j' = i
        . subst hji
          rcases hfirst with hsame | ⟨hnew, hless⟩
          . exact hsame ▸ habove
          . exact hnew ▸ hnear e.1 j hold.lo_le hlt hless
        . rw [hk.leafAt_table hlinked (hle.trans_lt (h.range e.1).2) hji]
          exact habove

theorem Maps.update (hkey : key ≠ ⊤) (h : Maps lo hi t places m) {b : Bool}
    (hupd : t.update key val (lo key) (hi key) = some (b, t'))
    : Maps lo hi t' places (if b then Function.update m key (some val) else m) := by
  obtain ⟨i, hi', hslot, hk, hgroup⟩ := update_step h.inv.shape hupd
  have hslot := hslot (h.range key).1
  have hlinked := h.inv.shape.linked
  have hordered := h.inv.ordered i hi'
  cases b with
  | false => exact h.of_group_eq hk (hgroup.eq_of_false hordered)
  | true =>
    have hstored := hgroup.stored_iff hkey hordered
    obtain ⟨a', ha', hfirst⟩ := hgroup.head hordered (hlinked.group_head hi')
    cases (hk.shape.linked.group_head (hk.length_eq.symm ▸ hi')).symm.trans ha'
    have hsame : ∀ j < t.table.length, (t'.leafAt (.table j)).firstKey = (t.leafAt (.table j)).firstKey := by
      intro j hj
      by_cases hji : j = i
      . rw [hji]
        exact hfirst
      . rw [hk.leafAt_table hlinked hj hji]
    refine h.change hi' hslot hk (hgroup.ordered hordered) ?_ ?_ ?_ ?_
    . exact fun k hkk => Function.update_of_ne hkk ..
    . intro v
      rw [if_pos rfl, Function.update_self, hstored, Option.some.injEq, Prod.mk.injEq]
      constructor
      . exact fun heq => .inl ⟨rfl, heq.symm⟩
      . rintro (⟨-, heq⟩ | ⟨-, hne⟩)
        . exact heq.symm
        . exact absurd rfl hne
    . intro e hek
      rw [hstored]
      exact ⟨fun hor => (hor.resolve_left fun heq => hek (congrArg Prod.fst heq)).1, fun he => .inr ⟨he, hek⟩⟩
    . intro j hj e _ hold
      refine ⟨hold.lo_le, hold.le_hi, ?_, fun j' hlt hle => ?_⟩
      . rw [hsame j hj]
        exact hold.here
      . rw [hsame j' (hle.trans_lt (h.range e.1).2)]
        exact hold.above j' hlt hle

theorem firstKey_le_of_subset {a a' : Leaf N K V} (ha : a.Sorted) (ha' : a'.Sorted)
    (hsub : ∀ e ∈ a'.entries, e ∈ a.entries)
    : a.firstKey ≤ a'.firstKey := by
  by_cases hempty : a'.entries = []
  . rw [Leaf.firstKey_eq_top ha' hempty]
    exact le_top
  . obtain ⟨v, hv⟩ := Leaf.firstKey_mem hempty ha'
    have hle := ha.firstKey_le (Leaf.mem_entries.mp (hsub _ hv)).1
    exact hle

theorem Maps.remove_effect (h : Maps lo hi t places m) {b : Bool}
    (hrem : t.remove key (lo key) (hi key) = some (b, t'))
    : ∃ i places', i < t.table.length ∧ SlotFor t key (lo key) (hi key) i ∧ Keeps t places i t' places'
        ∧ Ordered (t'.group places' i)
        ∧ (∀ e, Stored (t'.group places' i) e ↔ Stored (t.group places i) e ∧ e.1 ≠ key)
        ∧ ∀ e, e ∈ (t'.leafAt (.table i)).entries ↔ e ∈ (t.leafAt (.table i)).entries ∧ e.1 ≠ key := by
  obtain ⟨i, places', hi', hslot, hk, hgroup⟩ := remove_step h.inv.shape hrem
  have hordered := h.inv.ordered i hi'
  obtain ⟨a', ha', hmem⟩ := hgroup.head hordered (h.inv.shape.linked.group_head hi')
  cases (hk.shape.linked.group_head (hk.length_eq.symm ▸ hi')).symm.trans ha'
  exact ⟨i, places', hi', hslot (h.range key).1, hk, hgroup.ordered hordered, hgroup.stored_iff hordered, hmem⟩

omit [NeZero N] in
theorem Inv.sorted_table (h : Inv t places) (hi : i < t.table.length) : (t.leafAt (.table i)).Sorted :=
  (h.ordered i hi).sorted _ (List.mem_of_head? (h.shape.linked.group_head hi))

omit [NeZero N] in
theorem Inv.stored_cases (h : Inv t places) (hi : i < t.table.length) {l : List Nat} (hl : t.sLeaves i = some l)
    {e : K × V}
    : Stored (t.group places i) e
        ↔ e ∈ (t.leafAt (.table i)).entries ∨ ∃ s ∈ l, e ∈ (t.leafAt (.synonym s)).entries := by
  obtain ⟨l', hl', -, -⟩ := h.shape.linked.exists_indices hi
  cases hl.symm.trans (h.shape.linked.sLeaves_eq hi hl')
  rw [group, hl', List.map_cons, stored_cons, List.map_map]
  simp [Stored]

omit [NeZero N] in
theorem Inv.less_synonym (h : Inv t places) (hi : i < t.table.length) {l : List Nat} (hl : t.sLeaves i = some l)
    {s : Nat} (hs : s ∈ l)
    : (t.leafAt (.table i)).Less (t.leafAt (.synonym s)) := by
  obtain ⟨l', hl', -, -⟩ := h.shape.linked.exists_indices hi
  cases hl.symm.trans (h.shape.linked.sLeaves_eq hi hl')
  have hless := (h.ordered i hi).less
  rw [group, hl', List.map_cons, List.pairwise_cons] at hless
  exact hless.1 _ (List.mem_map_of_mem (List.mem_map_of_mem hs))

/-- The way to the keys of the slot of a `remove` that meets the condition. -/
theorem Maps.remove (h : Maps lo hi t places m) {b : Bool} (hfits : (Call.remove key : Call K V).Fits lo hi t)
    (hrem : t.remove key (lo key) (hi key) = some (b, t'))
    : ∃ places', Maps lo hi t' places' (Function.update m key none) := by
  obtain ⟨i, places', hi', hslot, hk, hordered, hstored, hmem⟩ := h.remove_effect hrem
  have hlinked := h.inv.shape.linked
  have hinv' := h.inv.keeps hk hordered
  have hsorted' := hinv'.sorted_table (hk.length_eq.symm ▸ hi')
  have hfirst := firstKey_le_of_subset (h.inv.sorted_table hi') hsorted' fun e he => ((hmem e).mp he).1
  refine ⟨places', h.change hi' hslot hk hordered ?_ ?_ ?_ ?_⟩
  . exact fun k hkk => Function.update_of_ne hkk ..
  . intro v
    rw [Function.update_self, hstored]
    simp
  . intro e hek
    rw [hstored]
    exact and_iff_left hek
  . intro j hj e he hold
    refine ⟨hold.lo_le, hold.le_hi, ?_, fun j' hlt hle => ?_⟩
    . by_cases hji : j = i
      . subst hji
        rcases Nat.eq_or_lt_of_le hold.lo_le with heq | hlt
        . exact .inl heq.symm
        . -- the slot is not the lowest one of the key, so the leaf in the table has to keep a pair
          right
          obtain ⟨l, hl, -, -⟩ := hlinked.exists_indices hi'
          have hwalk := hlinked.sLeaves_eq hi' hl
          by_cases hempty : (t'.leafAt (.table j)).entries = []
          . have honly : ∀ a ∈ (t.leafAt (.table j)).entries, a.1 = key := by
              intro a ha
              by_contra hne
              have hmem' := (hmem a).mpr ⟨ha, hne⟩
              rw [hempty] at hmem'
              cases hmem'
            have hold' := (hstored e).mp he
            rcases (h.inv.stored_cases hi' hwalk).mp hold'.1 with htable | ⟨s, hs, hsyn⟩
            . exact absurd (honly e htable) hold'.2
            . have hfind := hlinked.findSlot_of_slotFor (h.range key).1 (h.range key).2 hslot
              have hout := hfits j l hfind hwalk honly s hs e hsyn hlt
              have := hold.le_hi
              omega
          . have hhead := hinv'.shape.linked.group_head (hk.length_eq.symm ▸ hi')
            exact hordered.firstKey_le hhead hempty he
      . rw [hk.leafAt_table hlinked hj hji]
        exact hold.here
    . have habove := hold.above j' hlt hle
      by_cases hji : j' = i
      . subst hji
        exact habove.trans_le hfirst
      . rw [hk.leafAt_table hlinked (hle.trans_lt (h.range e.1).2) hji]
        exact habove

/-- A `remove` that does not meet the condition makes another key unreachable. -/
theorem Maps.not_answers_remove (h : Maps lo hi t places m) {b : Bool}
    (hfits : ¬ (Call.remove key : Call K V).Fits lo hi t)
    (hrem : t.remove key (lo key) (hi key) = some (b, t'))
    : ¬ Answers lo hi t' (Function.update m key none) := by
  intro hanswers
  obtain ⟨i, places', hi', hslot, hk, hordered, hstored, hmem⟩ := h.remove_effect hrem
  have hlinked := h.inv.shape.linked
  have hinv' := h.inv.keeps hk hordered
  simp only [Call.Fits, not_forall, exists_prop] at hfits
  obtain ⟨j, l, hfind, hwalk, honly, s, hs, e, he, hlt, hle⟩ := hfits
  cases (hlinked.findSlot_of_slotFor (h.range key).1 (h.range key).2 hslot).symm.trans hfind
  have hle := Nat.le_of_not_lt hle
  have hold : Stored (t.group places i) e := (h.inv.stored_cases hi' hwalk).mpr (.inr ⟨s, hs, he⟩)
  have hway := h.live i hi' e hold hlt.le hle
  have htop : ∀ a : Leaf N K V, a.Sorted → i = lo e.1 ∨ a.firstKey ≤ e.1 → a.entries ≠ [] := by
    rintro a ha (heq | hfirst) hnil
    . omega
    . rw [Leaf.firstKey_eq_top ha hnil] at hfirst
      exact hold.ne_top (top_le_iff.mp hfirst)
  -- the way to `e` leads over the first key of the leaf in the table, which is `key`
  have hne : e.1 ≠ key := by
    intro heq
    have hsorted := h.inv.sorted_table hi'
    obtain ⟨v, hv⟩ := Leaf.firstKey_mem (htop _ hsorted hway.here) hsorted
    have hlt := h.inv.less_synonym hi' hwalk hs _ hv e he
    rw [heq, ← honly _ hv] at hlt
    exact lt_irrefl _ hlt
  have hvalue : Function.update m key none e.1 = some e.2 := by
    rw [Function.update_of_ne hne, h.holds]
    exact ⟨i, hlt.le, hle, hold⟩
  obtain ⟨j, r, hslot', hsearch, hr⟩ := hinv'.search_spec hold.ne_top (h.range e.1).1
    (hk.length_eq.symm ▸ (h.range e.1).2)
  rw [hanswers e.1 hold.ne_top, hvalue] at hsearch
  have hfound := (hr e.2).mp (Option.some.inj hsearch).symm
  by_cases hji : j = i
  . subst hji
    refine htop _ (hinv'.sorted_table (hk.length_eq.symm ▸ hi')) hslot'.here ?_
    rw [List.eq_nil_iff_forall_not_mem]
    intro a ha
    obtain ⟨hold', hne'⟩ := (hmem a).mp ha
    exact hne' (honly a hold')
  . have hj : j < t.table.length := hslot'.le_hi.trans_lt (h.range e.1).2
    rw [hk.others j hj hji] at hfound
    exact hji (SlotFor.unique (h.live j hj e hfound hslot'.lo_le hslot'.le_hi) hway)

end Steps

section Main

variable {m m' : K → Option V}

theorem Maps.step_iff (heven : Even N) (hlo : Monotone lo) (h : Maps lo hi t places m) {call : Call K V}
    (hkey : call.key ≠ ⊤) (hstep : step lo hi t m call = some (t', m'))
    : (Answers lo hi t' m' ↔ call.Fits lo hi t)
        ∧ (call.Fits lo hi t → ∃ places', Maps lo hi t' places' m') := by
  have hiff : (call.Fits lo hi t → ∃ places', Maps lo hi t' places' m')
      → (¬ call.Fits lo hi t → ¬ Answers lo hi t' m') → (Answers lo hi t' m' ↔ call.Fits lo hi t) := by
    intro hyes hno
    constructor
    . intro hanswers
      by_contra hnot
      exact hno hnot hanswers
    . intro hfits
      obtain ⟨places', hmaps⟩ := hyes hfits
      exact hmaps.answers
  cases call with
  | insert key val =>
    obtain ⟨⟨b, t₁⟩, hins, hstep⟩ := Option.bind_eq_some_iff.mp hstep
    cases hstep
    have hmaps := h.insert heven hlo hkey hins
    exact ⟨hiff (fun _ => hmaps) fun hnot => absurd trivial hnot, fun _ => hmaps⟩
  | update key val =>
    obtain ⟨⟨b, t₁⟩, hupd, hstep⟩ := Option.bind_eq_some_iff.mp hstep
    cases hstep
    have hmaps := h.update hkey hupd
    exact ⟨hiff (fun _ => ⟨_, hmaps⟩) fun hnot => absurd trivial hnot, fun _ => ⟨_, hmaps⟩⟩
  | remove key =>
    obtain ⟨⟨b, t₁⟩, hrem, hstep⟩ := Option.bind_eq_some_iff.mp hstep
    cases hstep
    exact ⟨hiff (fun hfits => h.remove hfits hrem) fun hnot => h.not_answers_remove hnot hrem,
      fun hfits => h.remove hfits hrem⟩
  | search key =>
    obtain ⟨r, -, hstep⟩ := Option.bind_eq_some_iff.mp hstep
    cases hstep
    exact ⟨hiff (fun _ => ⟨_, h⟩) fun hnot => absurd trivial hnot, fun _ => ⟨_, h⟩⟩

theorem mem_run_self {calls : List (Call K V)} {states : List (LeafTable N K V × (K → Option V))}
    (h : run lo hi calls t m = some states)
    : (t, m) ∈ states := by
  cases calls with
  | nil =>
    cases h
    exact List.mem_singleton_self _
  | cons call calls =>
    obtain ⟨⟨t', m'⟩, -, h⟩ := Option.bind_eq_some_iff.mp h
    obtain ⟨rest, -, h⟩ := Option.bind_eq_some_iff.mp h
    cases h
    exact List.mem_cons_self

theorem Maps.run_iff (heven : Even N) (hlo : Monotone lo) (h : Maps lo hi t places m) {calls : List (Call K V)}
    (hkeys : ∀ call ∈ calls, call.key ≠ ⊤) {states : List (LeafTable N K V × (K → Option V))}
    (hrun : run lo hi calls t m = some states)
    : (∀ s ∈ states, Answers lo hi s.1 s.2) ↔ AllFit lo hi calls t m := by
  induction calls generalizing t places m states with
  | nil =>
    cases hrun
    simpa [AllFit] using h.answers
  | cons call calls ih =>
    obtain ⟨⟨t', m'⟩, hstep, hrun⟩ := Option.bind_eq_some_iff.mp hrun
    obtain ⟨rest, hrest, hrun⟩ := Option.bind_eq_some_iff.mp hrun
    cases hrun
    obtain ⟨hiff, hmaps⟩ := h.step_iff heven hlo (hkeys call List.mem_cons_self) hstep
    have hkeys' : ∀ c ∈ calls, c.key ≠ ⊤ := fun c hc => hkeys c (List.mem_cons_of_mem _ hc)
    constructor
    . intro hall
      have hfits := hiff.mp (hall (t', m') (List.mem_cons_of_mem _ (mem_run_self hrest)))
      obtain ⟨places', hmaps'⟩ := hmaps hfits
      refine ⟨hfits, fun t₁ m₁ hstep₁ => ?_⟩
      cases hstep.symm.trans hstep₁
      exact (ih hmaps' hkeys' hrest).mp fun s hs => hall s (List.mem_cons_of_mem _ hs)
    . rintro ⟨hfits, hnext⟩ s hs
      obtain ⟨places', hmaps'⟩ := hmaps hfits
      rcases List.mem_cons.mp hs with rfl | hs
      . exact h.answers
      . exact (ih hmaps' hkeys' hrest).mpr (hnext t' m' hstep) s hs

end Main

end Run

/-- The tables that training builds over an allocator whose free leaves are blank. -/
inductive Trained : LeafTable N K V → Prop where
  | new {synonymTable : Nat → TableEntry} {alloc : LeafAllocator N K V}
    (hblank : ∀ n, alloc.usedNum ≤ n → (alloc.leaves n).Blank)
    : Trained (.new synonymTable alloc)
  | train {t t' : LeafTable N K V} {entries : List (K × V)} (h : Trained t) (htrain : t.train entries = some t')
    : Trained t'

/-- The keys ascend from leaf to leaf. -/
def Ascending (t : LeafTable N K V) : Prop :=
  ∀ i j, i < j → j < t.table.length → (t.leafAt (.table i)).Less (t.leafAt (.table j))

/-- The map that a trained table stands for: the pairs of the leaves in the range of their key. -/
def contents (lo hi : K → Nat) (t : LeafTable N K V) (k : K) : Option V :=
  (List.range' (lo k) (hi k + 1 - lo k)).findSome? fun i =>
    ((t.leafAt (.table i)).entries.find? (·.1 = k)).map Prod.snd

section Trained

theorem Trained.inv (h : Trained t)
    : ∃ places, Inv t places ∧ ∀ i < t.table.length, t.group places i = [t.leafAt (.table i)] := by
  have hgroups : ∃ places, Inv t places ∧ ∀ i < t.table.length, ∃ leaf, t.group places i = [leaf] := by
    induction h with
    | new hblank => exact ⟨fun _ => [], ⟨.new hblank _, fun i hi => absurd hi (Nat.not_lt_zero i)⟩,
        fun i hi => absurd hi (Nat.not_lt_zero i)⟩
    | train _ htrain ih =>
      obtain ⟨places, hinv, hone⟩ := ih
      obtain ⟨places', leaf, hshape, hlen, hleaf, hgroup, hothers⟩ := train_step hinv.shape htrain
      refine ⟨places', ⟨hshape, fun j hj => ?_⟩, fun j hj => ?_⟩
      . rcases Nat.lt_succ_iff_lt_or_eq.mp (hlen ▸ hj) with hj | rfl
        . rw [hothers j hj]
          exact hinv.ordered j hj
        . rw [hgroup]
          exact ⟨by simpa using hleaf, by simp, List.pairwise_singleton _ _⟩
      . rcases Nat.lt_succ_iff_lt_or_eq.mp (hlen ▸ hj) with hj | rfl
        . rw [hothers j hj]
          exact hone j hj
        . exact ⟨leaf, hgroup⟩
  obtain ⟨places, hinv, hone⟩ := hgroups
  refine ⟨places, hinv, fun i hi => ?_⟩
  obtain ⟨leaf, hleaf⟩ := hone i hi
  have hhead := hinv.shape.linked.group_head hi
  rw [hleaf] at hhead
  rw [hleaf, Option.some.inj hhead]

omit [NeZero N] in
theorem contents_eq_some_iff {lo hi : K → Nat} (hsorted : ∀ i < t.table.length, (t.leafAt (.table i)).Sorted)
    (hasc : Ascending t) {k : K} (hrange : hi k < t.table.length) {v : V}
    : contents lo hi t k = some v
        ↔ ∃ i, lo k ≤ i ∧ i ≤ hi k ∧ (k, v) ∈ (t.leafAt (.table i)).entries := by
  have hfound : ∀ {i w}, ((t.leafAt (.table i)).entries.find? (·.1 = k)).map Prod.snd = some w
      → (k, w) ∈ (t.leafAt (.table i)).entries := by
    intro i w hw
    obtain ⟨⟨k', w'⟩, hfind, rfl⟩ := Option.map_eq_some_iff.mp hw
    have hk : k' = k := by simpa using List.find?_some hfind
    rw [← hk]
    exact List.mem_of_find?_eq_some hfind
  constructor
  . intro h
    obtain ⟨i, hi, hfind⟩ := List.exists_of_findSome?_eq_some h
    rw [List.mem_range'_1] at hi
    exact ⟨i, hi.1, by omega, hfound hfind⟩
  . rintro ⟨i, hlo, hhi, hmem⟩
    have hsome : (contents lo hi t k).isSome := by
      rw [contents, List.findSome?_isSome_iff]
      refine ⟨i, by rw [List.mem_range'_1]; omega, ?_⟩
      rw [Option.isSome_map, List.find?_isSome]
      exact ⟨(k, v), hmem, by simp⟩
    obtain ⟨w, hw⟩ := Option.isSome_iff_exists.mp hsome
    obtain ⟨j, hj, hfind⟩ := List.exists_of_findSome?_eq_some hw
    rw [List.mem_range'_1] at hj
    have hmem' := hfound hfind
    -- the key is in one leaf only
    rcases Nat.lt_trichotomy i j with hlt | rfl | hlt
    . exact absurd (hasc i j hlt (by omega) _ hmem _ hmem') (lt_irrefl k)
    . rw [hw, (Prod.mk.inj ((hsorted i (by omega)).eq_of_key hmem' hmem rfl)).2]
    . exact absurd (hasc j i hlt (by omega) _ hmem' _ hmem) (lt_irrefl k)

theorem Trained.maps {lo hi : K → Nat} (h : Trained t) (hasc : Ascending t)
    (hrange : ∀ k, lo k ≤ hi k ∧ hi k < t.table.length)
    : ∃ places, Maps lo hi t places (contents lo hi t) := by
  obtain ⟨places, hinv, hone⟩ := h.inv
  have hstored : ∀ i < t.table.length, ∀ e, Stored (t.group places i) e ↔ e ∈ (t.leafAt (.table i)).entries := by
    intro i hi e
    rw [hone i hi]
    simp [Stored]
  refine ⟨places, hinv, hrange, fun i hi e he hlo hhi => ?_, fun k v => ?_⟩
  . rw [hstored i hi] at he
    refine ⟨hlo, hhi, .inr ((hinv.sorted_table hi).firstKey_le (Leaf.mem_entries.mp he).1), fun j hlt hle => ?_⟩
    have hj : j < t.table.length := hle.trans_lt (hrange e.1).2
    have hsorted := hinv.sorted_table hj
    by_cases hempty : (t.leafAt (.table j)).entries = []
    . rw [Leaf.firstKey_eq_top hsorted hempty]
      exact lt_top_iff_ne_top.mpr (Leaf.mem_entries.mp he).2
    . obtain ⟨v, hv⟩ := Leaf.firstKey_mem hempty hsorted
      have hless := hasc i j hlt hj e he _ hv
      exact hless
  . rw [contents_eq_some_iff (fun i hi => hinv.sorted_table hi) hasc (hrange k).2]
    refine exists_congr fun i => and_congr_right fun _ => and_congr_right fun hhi => ?_
    rw [hstored i (hhi.trans_lt (hrange k).2)]

end Trained

/--
On a trained table with ascending keys, in every sequence of calls with ranges whose lower ends are monotone,
`search` answers in every state as the finite map of the calls exactly if no `remove` takes the only key out of
a leaf of the table while its synonym leaves hold a key whose range begins at a lower slot.
-/
theorem search_answers_map_iff {lo hi : K → Nat} (heven : Even N) (hlo : Monotone lo) (htrained : Trained t)
    (hasc : Ascending t) (hrange : ∀ k, lo k ≤ hi k ∧ hi k < t.table.length) {calls : List (Call K V)}
    (hkeys : ∀ call ∈ calls, call.key ≠ ⊤) {states : List (LeafTable N K V × (K → Option V))}
    (hrun : run lo hi calls t (contents lo hi t) = some states)
    : (∀ s ∈ states, Answers lo hi s.1 s.2) ↔ AllFit lo hi calls t (contents lo hi t) := by
  obtain ⟨places, hmaps⟩ := htrained.maps hasc hrange
  exact hmaps.run_iff heven hlo hkeys hrun

-- without 6 there is room for 7 in the leaf of slot 1, and 8 splits it
theorem search_answers_map_iff_removed
    : ∃ (t₁ t₂ : LeafTable 2 (Fin 10) Nat) (states : List (LeafTable 2 (Fin 10) Nat × (Fin 10 → Option Nat))),
        sampleTable.train [(1, 1)] = some t₁ ∧ t₁.train [(5, 5), (6, 6)] = some t₂
        ∧ run (fun _ => 0) (fun _ => 1) [.remove 6, .insert 7 7, .insert 8 8, .update 7 9] t₂
            (contents (fun _ => 0) (fun _ => 1) t₂) = some states
        ∧ ∀ s ∈ states, Answers (fun _ => 0) (fun _ => 1) s.1 s.2 := by
  obtain ⟨t₁, t₂, states, h₁, h₂, hrun, hlen, hleaf₀, hleaf₁, hslot⟩ :
      ∃ t₁ t₂ states, sampleTable.train [(1, 1)] = some t₁ ∧ t₁.train [(5, 5), (6, 6)] = some t₂
        ∧ run (fun _ => 0) (fun _ => 1) [.remove 6, .insert 7 7, .insert 8 8, .update 7 9] t₂
            (contents (fun _ => 0) (fun _ => 1) t₂) = some states
        ∧ t₂.table.length = 2 ∧ (t₂.leafAt (.table 0)).entries = [(1, 1)]
        ∧ (t₂.leafAt (.table 1)).entries = [(5, 5), (6, 6)] ∧ t₂.findSlot 6 0 1 = some 1 :=
    ⟨_, _, _, rfl, rfl, rfl, rfl, rfl, rfl, rfl⟩
  have hnew : Trained sampleTable := by
    refine .new fun n _ e he => ?_
    simp only [List.mem_cons, List.not_mem_nil, or_false, or_self] at he
    rw [he]
    rfl
  have hasc : Ascending t₂ := by
    intro i j hij hj
    obtain ⟨rfl, rfl⟩ : i = 0 ∧ j = 1 := by omega
    rw [Leaf.Less, hleaf₀, hleaf₁]
    decide
  refine ⟨t₁, t₂, states, h₁, h₂, hrun, ?_⟩
  refine (search_answers_map_iff (by decide) monotone_const (.train (.train hnew h₁) h₂) hasc ?_ ?_ hrun).mpr ?_
  . exact fun _ => ⟨Nat.zero_le 1, by omega⟩
  . decide
  . refine ⟨?_, fun _ _ _ => ⟨trivial, fun _ _ _ => ⟨trivial, fun _ _ _ => ⟨trivial, fun _ _ _ => trivial⟩⟩⟩⟩
    intro i l hi _ hall
    cases hslot.symm.trans hi
    rw [hleaf₁] at hall
    exact absurd (hall (5, 5) List.mem_cons_self) (by decide)

-- the leaf of slot 1 is split into [5] and [6, 7]; without 5 the search for 6 stops at slot 0
theorem removed_key_hides_another
    : ∃ t₁ t₂ t₃ t₄ : LeafTable 2 (Fin 10) Nat, sampleTable.train [(1, 1)] = some t₁
        ∧ t₁.train [(5, 5), (6, 6)] = some t₂ ∧ t₂.insert 7 7 0 1 = some (true, t₃)
        ∧ t₃.search 6 0 1 = some (some 6) ∧ t₃.remove 5 0 1 = some (true, t₄) ∧ t₄.search 6 0 1 = some none :=
  ⟨_, _, _, _, rfl, rfl, rfl, rfl, rfl, rfl⟩

end LeafTable

end MemoryNode

end Rolex

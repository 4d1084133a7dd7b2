import Rolex.Index.Search
import Rolex.Model.Cache

/-!
This module contains calls of the index that run one after another: the invariant of the memory
between two calls, and that the calls behave as those of a finite map as long as no group of nodes
is asked to take more pairs than it has records.
-/

namespace Rolex

/-- `k` is inserted into the leaf at `a`, and all leaves of its range have an address. -/
def Routed (cache : Cache) (k : Key) (a : GlobalAddress) : Prop :=
  ∃ l r insertIdx leafAddrs, cache.searchFromCacheForInsert k = some (l, r, insertIdx)
    ∧ leafAddresses l r = some leafAddrs ∧ getLeafAddress insertIdx = some a

theorem Routed.isLeaf {cache : Cache} {k : Key} {a : GlobalAddress} (h : Routed cache k a)
    : IsLeaf a := by
  obtain ⟨_, _, insertIdx, _, _, _, ha⟩ := h
  exact ⟨insertIdx, ha⟩

theorem Routed.unique {cache : Cache} {k : Key} {a b : GlobalAddress} (ha : Routed cache k a)
    (hb : Routed cache k b)
    : a = b := by
  obtain ⟨_, _, _, _, hc, _, ha⟩ := ha
  obtain ⟨_, _, _, _, hc', _, hb⟩ := hb
  rw [hc, Option.some.injEq, Prod.mk.injEq, Prod.mk.injEq] at hc'
  obtain ⟨rfl, rfl, rfl⟩ := hc'
  exact Option.some.inj (ha.symm.trans hb)

theorem Routed.range {cache : Cache} {k : Key} {a : GlobalAddress} (h : Routed cache k a)
    : ∃ l r leafAddrs, cache.searchFromCache k = some (l, r)
        ∧ leafAddresses l r = some leafAddrs ∧ a ∈ leafAddrs := by
  obtain ⟨l, r, insertIdx, leafAddrs, hc, hl, ha⟩ := h
  obtain ⟨hs, hle, hge⟩ := cache.routed hc
  exact ⟨l, r, leafAddrs, hs, hl, (mem_leafAddresses hl a).mpr ⟨insertIdx, hle, hge, ha⟩⟩

section

variable {ι : Type}

/-- The memory while no call is running. -/
structure Mem.Inv (m : Mem ι) : Prop where
  shape : m.Shape
  group : ∀ a, IsLeaf a → (m.group a).Inv
  unlocked : ∀ a, IsLeaf a → m.Unlocked a

theorem LeafNode.zero_sorted : LeafNode.zero.records.Sorted 0 :=
  ⟨Nat.zero_le _, fun _ h => absurd h (Nat.not_lt_zero _), fun t _ => by simp [LeafEntry.null],
    fun _ _ _ h => absurd h (Nat.not_lt_zero _)⟩

theorem Mem.init_inv : (init : Mem ι).Inv where
  shape := init_shape
  group := by
    intro a _
    refine ⟨⟨0, LeafNode.zero_sorted⟩, ⟨fun _ => rfl, fun _ => rfl⟩, ?_, ?_, ?_⟩
    all_goals
      intro s hs
      cases hs
  unlocked := fun _ _ => by
    unfold Mem.Unlocked
    rfl

theorem Mem.Inv.step {m m' : Mem ι} {a : GlobalAddress} {g : Group} (h : m.Inv)
    (hstep : GroupStep m a g m') (hg : g.Inv)
    : m'.Inv where
  shape := hstep.shape
  group := by
    intro b hb
    rw [hstep.group b hb]
    split
    . exact hg
    . exact h.group b hb
  unlocked := by
    intro b hb
    unfold Mem.Unlocked
    rw [hstep.lock]
    exact h.unlocked b hb

end

section Calls

variable {ι : Type} [DecidableEq ι] {i : ι} {m m' : Mem ι} {cache : Cache} {k : Key} {v : Value}
variable {a : GlobalAddress}

theorem insert_run_eq (hr : Routed cache k a) (v : Value)
    : (insert cache k v).run (exec i) m = (insertLocked k v a).run (exec i) m := by
  obtain ⟨l, r, insertIdx, leafAddrs, hc, hl, hidx⟩ := hr
  simp only [insert, hc, hl, hidx, Prog.check_some, Prog.ret_bind]
  rw [Prog.run_bind_eq (exec i) (fetchNodes_run _)]

theorem insert_run (h : m.Inv) (hr : Routed cache k a) (v : Value)
    : (m.OutOfMemory i a ∧ (insert cache k v).run (exec i) m = none) ∨ ∃ m' addr,
        (insert cache k v).run (exec i) m
          = some ((insertLocally k v (m.group a).leaf (m.group a).syn).overrun, m')
        ∧ addr ≠ GlobalAddress.null ∧ GroupStep m a ((m.group a).insert addr k v) m' := by
  have ha := hr.isLeaf
  rw [insert_run_eq hr]
  exact insertLocked_run k v h.shape ha (h.unlocked a ha)

theorem routed_of_insert_run {o : List Nat} (h : (insert cache k v).run (exec i) m = some (o, m'))
    : ∃ a, Routed cache k a := by
  unfold insert at h
  cases hc : cache.searchFromCacheForInsert k with
  | none => simp [hc] at h
  | some res =>
    obtain ⟨l, r, insertIdx⟩ := res
    simp only [hc, Prog.check_some, Prog.ret_bind] at h
    cases hl : leafAddresses l r with
    | none => simp [hl] at h
    | some leafAddrs =>
      simp only [hl, Prog.check_some, Prog.ret_bind] at h
      rw [Prog.run_bind_eq (exec i) (fetchNodes_run _)] at h
      cases ha : getLeafAddress insertIdx with
      | none => simp [ha] at h
      | some a => exact ⟨a, l, r, insertIdx, leafAddrs, hc, hl, ha⟩

theorem update_run {l r : Nat} {leafAddrs : List GlobalAddress} (h : m.Inv)
    (hrange : cache.searchFromCache k = some (l, r))
    (hleaves : leafAddresses l r = some leafAddrs) (v : Value)
    : ((∀ a ∈ leafAddrs, ∀ w, ¬ (m.group a).Has k w)
          ∧ (update cache k v).run (exec i) m = some ((), m))
        ∨ ∃ a ∈ leafAddrs, IsLeaf a ∧ (∃ w, (m.group a).Has k w)
            ∧ ∃ m', (update cache k v).run (exec i) m = some ((), m')
                ∧ GroupStep m a ((m.group a).update k v) m' := by
  unfold update
  rw [Prog.run_bind_eq (exec i) (searchAux_run hrange hleaves)]
  cases hfind : findKey k (m.fetched leafAddrs) with
  | none => exact .inl ⟨findKey_fetched_eq_none.mp hfind, rfl⟩
  | some res =>
    obtain ⟨w, leafAddr, a⟩ := res
    obtain ⟨hmem, hhit⟩ := findKey_fetched_eq_some hfind
    obtain ⟨leafIdx, -, -, hidx⟩ := (mem_leafAddresses hleaves a).mp hmem
    have ha : IsLeaf a := ⟨leafIdx, hidx⟩
    obtain ⟨m', hrun, hstep⟩ := updateLocked_run (i := i) (v := v) h.shape ha (h.unlocked a ha) hhit
    exact .inr ⟨a, hmem, ha, ⟨w, hhit.has⟩, m', hrun, hstep⟩

theorem update_cases (h : m.Inv) (hrun : (update cache k v).run (exec i) m = some ((), m'))
    : m' = m ∨ ∃ a, IsLeaf a ∧ GroupStep m a ((m.group a).update k v) m' := by
  cases hc : cache.searchFromCache k with
  | none =>
    unfold update searchAux at hrun
    simp [hc] at hrun
  | some res =>
    obtain ⟨l, r⟩ := res
    cases hl : leafAddresses l r with
    | none =>
      unfold update searchAux at hrun
      simp [hc, hl] at hrun
    | some leafAddrs =>
      rcases update_run (i := i) h hc hl v with ⟨-, heq⟩ | ⟨a, -, ha, -, m₁, heq, hstep⟩
      . rw [heq, Option.some.injEq, Prod.mk.injEq] at hrun
        exact .inl hrun.2.symm
      . rw [heq, Option.some.injEq, Prod.mk.injEq] at hrun
        obtain ⟨-, rfl⟩ := hrun
        exact .inr ⟨a, ha, hstep⟩

theorem search_run (h : m.Inv) (hk : k ≠ kkeyNull) (hr : Routed cache k a)
    (honly : ∀ b, IsLeaf b → b ≠ a → ∀ w, ¬ (m.group b).Has k w)
    : ∃ res, (search cache k).run (exec i) m = some (res, m)
        ∧ ∀ v, res = some v ↔ (m.group a).Has k v := by
  obtain ⟨l, r, leafAddrs, hrange, hleaves, hmem⟩ := hr.range
  unfold search
  rw [Prog.run_bind_eq (exec i) (searchAux_run hrange hleaves)]
  refine ⟨_, rfl, fun v => ?_⟩
  cases hfind : findKey k (m.fetched leafAddrs) with
  | none =>
    have := findKey_fetched_eq_none.mp hfind a hmem v
    simp [this]
  | some res =>
    obtain ⟨w, leafAddr, b⟩ := res
    obtain ⟨hmem', hhit⟩ := findKey_fetched_eq_some hfind
    have hb : b = a := by
      obtain ⟨leafIdx, -, -, hidx⟩ := (mem_leafAddresses hleaves b).mp hmem'
      apply Classical.byContradiction
      intro hne
      exact honly b ⟨leafIdx, hidx⟩ hne w hhit.has
    subst hb
    simp only [Option.map_some, Option.some.injEq]
    constructor
    . rintro rfl
      exact hhit.has
    . exact fun hv => (h.group b hr.isLeaf).has_unique hk hhit.has hv

theorem insert_cases {o : List Nat} (h : m.Inv)
    (hrun : (insert cache k v).run (exec i) m = some (o, m'))
    : ∃ a addr, Routed cache k a ∧ addr ≠ GlobalAddress.null
        ∧ o = (insertLocally k v (m.group a).leaf (m.group a).syn).overrun
        ∧ GroupStep m a ((m.group a).insert addr k v) m' := by
  obtain ⟨a, hr⟩ := routed_of_insert_run hrun
  rcases insert_run (i := i) h hr v with ⟨-, heq⟩ | ⟨m₁, addr, heq, haddr, hstep⟩
  . rw [heq] at hrun
    cases hrun
  . rw [heq, Option.some.injEq, Prod.mk.injEq] at hrun
    obtain ⟨rfl, rfl⟩ := hrun
    exact ⟨a, addr, hr, haddr, rfl, hstep⟩

variable (cache) in
/-- The memories that calls of `insert` and `update`, one after another, can lead to. -/
inductive Reachable : Mem ι → Prop
  | init : Reachable Mem.init
  | insert {i : ι} {m m' : Mem ι} {k : Key} {v : Value} {o : List Nat} (h : Reachable m)
      (hk : k ≠ kkeyNull) (hrun : (insert cache k v).run (exec i) m = some (o, m')) : Reachable m'
  | update {i : ι} {m m' : Mem ι} {k : Key} {v : Value} (h : Reachable m)
      (hrun : (update cache k v).run (exec i) m = some ((), m')) : Reachable m'

theorem Reachable.inv (h : Reachable cache m) : m.Inv := by
  induction h with
  | init => exact Mem.init_inv
  | insert h hk hrun ih =>
    obtain ⟨a, addr, hr, haddr, -, hstep⟩ := insert_cases ih hrun
    exact ih.step hstep ((ih.group a hr.isLeaf).insert hk haddr)
  | update h hrun ih =>
    rcases update_cases ih hrun with rfl | ⟨a, ha, hstep⟩
    . exact ih
    . exact ih.step hstep (ih.group a ha).update

theorem Reachable.routed (h : Reachable cache m) (ha : IsLeaf a) {w : Value} (hk : k ≠ kkeyNull)
    (hhas : (m.group a).Has k w)
    : Routed cache k a := by
  induction h generalizing a k w with
  | init =>
    rcases hhas with ⟨t, -, hkey, -⟩ | ⟨s, hs, -⟩
    . exact absurd (hkey.symm.trans (by simp [Mem.group, Mem.init, LeafEntry.null])) hk
    . cases hs
  | insert h hk' hrun ih =>
    obtain ⟨b, addr, hr, -, -, hstep⟩ := insert_cases h.inv hrun
    rw [hstep.group a ha] at hhas
    split at hhas
    . next hab =>
      subst hab
      rcases (insertLocally_cases (h.inv.group a ha) hk' _).has_of_has_apply hk hhas with
        ⟨rfl, -⟩ | hold
      . exact hr
      . exact ih ha hk hold
    . exact ih ha hk hhas
  | update h hrun ih =>
    rcases update_cases h.inv hrun with rfl | ⟨b, -, hstep⟩
    . exact ih ha hk hhas
    . rw [hstep.group a ha] at hhas
      split at hhas
      . next hab =>
        subst hab
        obtain ⟨w', hw'⟩ := Group.has_of_has_update hhas
        exact ih ha hk hw'
      . exact ih ha hk hhas

/--
Every leaf reached by inserts and updates: it and its synonym leaf are sorted without holes, the
pointer is set only when the leaf is full, and all keys of the leaf are below those of the synonym leaf.
While the latter is absent or has a null slot, an insert of an absent key adds exactly its pair, and
the record it pushes out of the leaf is never taken for an existing one.
-/
theorem reachable_group_sorted (h : Reachable cache m) (ha : IsLeaf a)
    : (∃ n, (m.node a).records.Sorted n)
        ∧ (m.ptr a ≠ GlobalAddress.null →
            (m.node a).records.Sorted leafSpanSize ∧ (∃ n, (m.node (m.ptr a)).records.Sorted n)
            ∧ ∀ t u, t < leafSpanSize → ((m.node (m.ptr a)).records.get u).key ≠ kkeyNull →
                ((m.node a).records.get t).key < ((m.node (m.ptr a)).records.get u).key)
        ∧ (∀ k v, k ≠ kkeyNull → Routed cache k a → (∀ w, ¬ (m.group a).Has k w) →
            (m.ptr a = GlobalAddress.null
              ∨ ∃ t, t < leafSpanSize ∧ ((m.node (m.ptr a)).records.get t).key = kkeyNull) →
            (m.OutOfMemory i a ∧ (insert cache k v).run (exec i) m = none)
              ∨ ∃ o m', (insert cache k v).run (exec i) m = some (o, m')
                  ∧ (m'.group a).pairs = Insert.insert (k, v) (m.group a).pairs)
        ∧ (∀ k j, k ≠ kkeyNull → (m.node a).records.findSlot k = .free j → j < leafSpanSize →
            (m.node a).records.firstNull j = leafSpanSize →
            insertIntoSynLeafLocally ((m.node a).records.get (leafSpanSize - 1)).key
              ((m.node a).records.get (leafSpanSize - 1)).value (m.group a).syn ≠ .existing) := by
  have hinv := h.inv
  have hg := hinv.group a ha
  have hsyn : m.ptr a ≠ GlobalAddress.null → (m.group a).syn = some (m.node (m.ptr a)) :=
    fun hptr => if_neg hptr
  refine ⟨hg.leaf, fun hptr => ?_, fun k v hk hr habsent hroom => ?_, fun k j hk hslot hj hfull => ?_⟩
  . obtain ⟨n, -, hn⟩ := hg.syn _ (hsyn hptr)
    exact ⟨hg.full _ (hsyn hptr), ⟨n, hn⟩, hg.lt _ (hsyn hptr)⟩
  . have hroom' : (m.group a).Room := by
      by_cases hptr : m.ptr a = GlobalAddress.null
      . exact .inr (.inl (if_pos hptr))
      . exact .inr (.inr ⟨_, hsyn hptr, hroom.resolve_left hptr⟩)
    rcases insert_run (i := i) hinv hr v with hoom | ⟨m', addr, hrun, -, hstep⟩
    . exact .inl hoom
    . refine .inr ⟨_, m', hrun, ?_⟩
      rw [hstep.group a ha, if_pos rfl]
      exact hg.pairs_insert hk hroom' habsent
  . exact hg.overflow_ne_existing hj hslot hk hfull

variable (i cache) in
def insertAll : List (Key × Value) → Mem ι → Option (Mem ι)
  | [], m => some m
  | (k, v) :: kvs, m => do
    let (_, m) ← (insert cache k v).run (exec i) m
    insertAll kvs m

theorem Reachable.insertAll {kvs : List (Key × Value)} (h : Reachable cache m)
    (hkvs : ∀ kv ∈ kvs, kv.1 ≠ kkeyNull) (hrun : insertAll i cache kvs m = some m')
    : Reachable cache m' := by
  induction kvs generalizing m with
  | nil => exact Option.some.inj hrun ▸ h
  | cons kv kvs ih =>
    obtain ⟨⟨o, m₁⟩, hfirst, hrest⟩ := Option.bind_eq_some_iff.mp hrun
    exact ih (h.insert (hkvs kv List.mem_cons_self) hfirst)
      (fun kv hkv => hkvs kv (List.mem_cons_of_mem _ hkv)) hrest

/-- A training set of two segments. -/
def sampleKeys : List Key :=
  (List.range 32).map (fun i => int2key (i + 1))
    ++ (List.range 16).map (fun i => int2key (1000000 + 10 * i))

/-- Pairs for the keys from `first` on. -/
def samplePairs (first n : Nat) : List (Key × Value) :=
  (List.range n).map (fun i => (int2key (first + i), 7))

set_option maxRecDepth 10000 in
theorem reachable_group_sorted_sample
    : ∃ (C : RolexCache) (m : Mem Unit) (a : GlobalAddress), RolexCache.new sampleKeys = some C
        ∧ insertAll () C.toCache (samplePairs 1000001 17) Mem.init = some m ∧ IsLeaf a
        ∧ m.ptr a ≠ GlobalAddress.null ∧ (m.node a).records.Sorted leafSpanSize := by
  have ha : IsLeaf (GlobalAddress.of 0 8389520) := ⟨3, by decide⟩
  have hrun : ((RolexCache.new sampleKeys).bind (fun C =>
      (insertAll () C.toCache (samplePairs 1000001 17) Mem.init).map (fun m : Mem Unit =>
        decide (m.ptr (GlobalAddress.of 0 8389520) ≠ GlobalAddress.null)))) = some true := by
    decide +kernel
  obtain ⟨C, hC, hrun⟩ := Option.bind_eq_some_iff.mp hrun
  obtain ⟨m, hm, hptr⟩ := Option.map_eq_some_iff.mp hrun
  replace hptr := of_decide_eq_true hptr
  have hreach : Reachable C.toCache m := Reachable.init.insertAll (by decide) hm
  exact ⟨C, m, _, hC, hm, ha, hptr, ((reachable_group_sorted (i := ()) hreach ha).2.1 hptr).1⟩

/-- The finite map after an insert: the pair is added if the key is absent. -/
def insertMap (f : Key → Option Value) (k : Key) (v : Value) : Key → Option Value :=
  if f k = none then Function.update f k (some v) else f

/-- The finite map after an update: the value is overwritten if the key is present. -/
def updateMap (f : Key → Option Value) (k : Key) (v : Value) : Key → Option Value :=
  if f k = none then f else Function.update f k (some v)

structure Stores (cache : Cache) (m : Mem ι) (f : Key → Option Value) : Prop where
  inv : m.Inv
  routed : ∀ a, IsLeaf a → ∀ k v, k ≠ kkeyNull → (m.group a).Has k v → Routed cache k a
  agree : ∀ k a, k ≠ kkeyNull → Routed cache k a → ∀ v, (m.group a).Has k v ↔ f k = some v

omit [DecidableEq ι] in
theorem init_stores : Stores cache (Mem.init : Mem ι) (fun _ => none) := by
  have habsent : ∀ a k v, k ≠ kkeyNull → ¬ ((Mem.init : Mem ι).group a).Has k v := by
    rintro a k v hk (⟨t, -, hkey, -⟩ | ⟨s, hs, -⟩)
    . exact hk (hkey.symm.trans (by simp [Mem.group, Mem.init, LeafEntry.null]))
    . cases hs
  refine ⟨Mem.init_inv, fun a _ k v hk h => absurd h (habsent a k v hk), ?_⟩
  intro k a hk _ v
  simp [habsent a k v hk]

omit [DecidableEq ι] in
theorem Stores.only {f : Key → Option Value} (h : Stores cache m f) (hk : k ≠ kkeyNull)
    (hr : Routed cache k a)
    : ∀ b, IsLeaf b → b ≠ a → ∀ w, ¬ (m.group b).Has k w := by
  intro b hb hne w hw
  exact hne ((h.routed b hb k w hk hw).unique hr)

theorem Stores.run_search {f : Key → Option Value} (h : Stores cache m f) (hk : k ≠ kkeyNull)
    (hr : Routed cache k a)
    : (search cache k).run (exec i) m = some (f k, m) := by
  obtain ⟨res, hrun, hres⟩ := search_run (i := i) h.inv hk hr (h.only hk hr)
  have : res = f k := by
    apply Option.ext
    intro v
    rw [hres, h.agree k a hk hr]
  rw [hrun, this]

omit [DecidableEq ι] in
theorem Stores.of_insert {f : Key → Option Value} {addr : GlobalAddress}
    (h : Stores cache m f) (hk : k ≠ kkeyNull) (hr : Routed cache k a)
    (haddr : addr ≠ GlobalAddress.null) (hroom : f k = none → (m.group a).Room)
    (hstep : GroupStep m a ((m.group a).insert addr k v) m')
    : Stores cache m' (insertMap f k v) := by
  have hg := h.inv.group a hr.isLeaf
  -- the pairs of the group afterwards, in terms of the map
  have hpairs : ∀ k' v', k' ≠ kkeyNull → (((m.group a).insert addr k v).Has k' v'
      ↔ (f k = none ∧ k' = k ∧ v' = v) ∨ (m.group a).Has k' v') := by
    intro k' v' hk'
    cases hf : f k with
    | none =>
      have habsent : ∀ w, ¬ (m.group a).Has k w := by
        intro w
        rw [h.agree k a hk hr, hf]
        simp
      simpa using hg.has_insert hk (hroom hf) habsent hk'
    | some w =>
      have hw : (m.group a).Has k w := (h.agree k a hk hr w).mpr hf
      rw [hg.insert_of_has hk hw]
      simp
  have hmap : ∀ k' v', insertMap f k v k' = some v'
      ↔ (f k = none ∧ k' = k ∧ v' = v) ∨ f k' = some v' := by
    intro k' v'
    unfold insertMap
    split
    . next hf =>
      by_cases hkk : k' = k
      . subst hkk
        simp [hf, eq_comm]
      . simp [hkk, hf]
    . next hf => simp [hf]
  refine ⟨h.inv.step hstep (hg.insert hk haddr), ?_, ?_⟩
  . intro b hb k' v' hk' hhas
    rw [hstep.group b hb] at hhas
    split at hhas
    . next hba =>
      subst hba
      rcases (hpairs k' v' hk').mp hhas with ⟨-, rfl, -⟩ | hold
      . exact hr
      . exact h.routed b hb k' v' hk' hold
    . exact h.routed b hb k' v' hk' hhas
  . intro k' b hk' hr' v'
    rw [hstep.group b hr'.isLeaf, hmap]
    split
    . next hba =>
      subst hba
      rw [hpairs k' v' hk', h.agree k' b hk' hr']
    . next hba =>
      rw [h.agree k' b hk' hr']
      constructor
      . exact .inr
      . rintro (⟨-, rfl, -⟩ | hold)
        . exact absurd (hr'.unique hr) hba
        . exact hold

omit [DecidableEq ι] in
theorem Stores.of_update {f : Key → Option Value} (h : Stores cache m f) (hk : k ≠ kkeyNull)
    (hr : Routed cache k a) (hstep : GroupStep m a ((m.group a).update k v) m')
    : Stores cache m' (updateMap f k v) := by
  have hg := h.inv.group a hr.isLeaf
  have hmap : ∀ k' v', updateMap f k v k' = some v'
      ↔ (k' = k ∧ v' = v ∧ ∃ w, f k = some w) ∨ (k' ≠ k ∧ f k' = some v') := by
    intro k' v'
    unfold updateMap
    by_cases hkk : k' = k
    . subst hkk
      cases hf : f k' with
      | none => simp [hf]
      | some w => simp [eq_comm]
    . split
      . simp [hkk]
      . simp [hkk]
  refine ⟨h.inv.step hstep hg.update, ?_, ?_⟩
  . intro b hb k' v' hk' hhas
    rw [hstep.group b hb] at hhas
    split at hhas
    . next hba =>
      subst hba
      rcases (hg.has_update hk).mp hhas with ⟨rfl, -, -⟩ | ⟨-, hold⟩
      . exact hr
      . exact h.routed b hb k' v' hk' hold
    . exact h.routed b hb k' v' hk' hhas
  . intro k' b hk' hr' v'
    rw [hstep.group b hr'.isLeaf, hmap]
    split
    . next hba =>
      subst hba
      rw [hg.has_update hk]
      simp only [h.agree k b hk hr, h.agree k' b hk' hr']
    . next hba =>
      have hne : k' ≠ k := by
        rintro rfl
        exact hba (hr'.unique hr)
      simp [hne, h.agree k' b hk' hr']

theorem Stores.run_update {f : Key → Option Value} (h : Stores cache m f) (hk : k ≠ kkeyNull)
    (hr : Routed cache k a) (v : Value)
    : ∃ m', (update cache k v).run (exec i) m = some ((), m')
        ∧ Stores cache m' (updateMap f k v) := by
  obtain ⟨l, r, leafAddrs, hrange, hleaves, hmem⟩ := hr.range
  rcases update_run (i := i) h.inv hrange hleaves v with
    ⟨habsent, hrun⟩ | ⟨b, -, hb, ⟨w, hw⟩, m', hrun, hstep⟩
  . refine ⟨m, hrun, ?_⟩
    have hf : f k = none := by
      cases hf : f k with
      | none => rfl
      | some w => exact absurd ((h.agree k a hk hr w).mpr hf) (habsent a hmem w)
    rwa [updateMap, if_pos hf]
  . have hba := (h.routed b hb k w hk hw).unique hr
    subst hba
    exact ⟨m', hrun, h.of_update hk hr hstep⟩

variable (i cache) in
/--
The memories that calls of one client lead to from zeroed memory, with the finite map that the calls
describe. An insert of an absent key is made only while the group of its leaf has room for it.
-/
inductive Run : Mem ι → (Key → Option Value) → Prop
  | init : Run Mem.init (fun _ => none)
  | insert {m m' : Mem ι} {f : Key → Option Value} {k : Key} {v : Value} {a : GlobalAddress}
      {o : List Nat} (h : Run m f) (hk : k ≠ kkeyNull) (hr : Routed cache k a)
      (hroom : f k = none → (m.group a).Room)
      (hrun : (insert cache k v).run (exec i) m = some (o, m')) : Run m' (insertMap f k v)
  | update {m m' : Mem ι} {f : Key → Option Value} {k : Key} {v : Value} {a : GlobalAddress}
      (h : Run m f) (hk : k ≠ kkeyNull) (hr : Routed cache k a)
      (hrun : (update cache k v).run (exec i) m = some ((), m')) : Run m' (updateMap f k v)
  | search {m m' : Mem ι} {f : Key → Option Value} {k : Key} {a : GlobalAddress}
      {res : Option Value} (h : Run m f) (hk : k ≠ kkeyNull) (hr : Routed cache k a)
      (hrun : (search cache k).run (exec i) m = some (res, m')) : Run m' f

theorem Run.stores {f : Key → Option Value} (h : Run i cache m f) : Stores cache m f := by
  induction h with
  | init => exact init_stores
  | insert h hk hr hroom hrun ih =>
    obtain ⟨b, addr, hr', haddr, -, hstep⟩ := insert_cases ih.inv hrun
    obtain rfl := hr.unique hr'
    exact ih.of_insert hk hr haddr hroom hstep
  | update h hk hr hrun ih =>
    obtain ⟨m₁, hrun', hstores⟩ := ih.run_update (i := i) hk hr _
    rw [hrun', Option.some.injEq, Prod.mk.injEq] at hrun
    obtain ⟨-, rfl⟩ := hrun
    exact hstores
  | search h hk hr hrun ih =>
    rw [ih.run_search hk hr, Option.some.injEq, Prod.mk.injEq] at hrun
    obtain ⟨-, rfl⟩ := hrun
    exact ih

theorem Stores.insert_without_room {f : Key → Option Value} (h : Stores cache m f)
    (hk : k ≠ kkeyNull) (hr : Routed cache k a) (hf : f k = none) (hroom : ¬ (m.group a).Room)
    {addr : GlobalAddress} (haddr : addr ≠ GlobalAddress.null)
    (hstep : GroupStep m a ((m.group a).insert addr k v) m')
    : ∃ k' a', k' ≠ kkeyNull ∧ Routed cache k' a'
        ∧ (search cache k').run (exec i) m' ≠ some (insertMap f k v k', m') := by
  have hg := h.inv.group a hr.isLeaf
  have habsent : ∀ w, ¬ (m.group a).Has k w := by
    intro w
    rw [h.agree k a hk hr, hf]
    simp
  obtain ⟨k', hk', hold, hlost⟩ := hg.insert_loses (v := v) addr hk hroom habsent
  have hr' : Routed cache k' a := by
    rcases hold with rfl | ⟨w, hw⟩
    . exact hr
    . exact h.routed a hr.isLeaf k' w hk' hw
  refine ⟨k', a, hk', hr', ?_⟩
  obtain ⟨res, hrun, hres⟩ := search_run (i := i) (h.inv.step hstep (hg.insert hk haddr)) hk' hr' (by
    intro b hb hne w
    rw [hstep.group b hb, if_neg hne]
    exact h.only hk' hr' b hb hne w)
  rw [hrun]
  intro heq
  simp only [Option.some.injEq, Prod.mk.injEq, and_true] at heq
  have hnone : res = none := by
    rw [Option.eq_none_iff_forall_ne_some]
    intro w hw
    have := (hres w).mp hw
    rw [hstep.group a hr.isLeaf, if_pos rfl] at this
    exact hlost w this
  rw [hnone, insertMap, if_pos hf] at heq
  rcases hold with rfl | ⟨w, hw⟩
  . simp at heq
  . have hfk := (h.agree k' a hk' hr' w).mp hw
    have hne : k' ≠ k := by
      rintro rfl
      rw [hf] at hfk
      cases hfk
    rw [Function.update_of_ne hne, hfk] at heq
    cases heq

/--
In every such run a search answers as the finite map does, an update returns, and an insert, unless
the memory node has no space for a new synonym leaf, returns without having assigned a record behind
the array. The condition is exact: after an insert that does not meet it some search answers
differently.
-/
theorem run_refines_map {f : Key → Option Value} (h : Run i cache m f)
    (hk : k ≠ kkeyNull) (hr : Routed cache k a)
    : (search cache k).run (exec i) m = some (f k, m)
        ∧ (∀ v, ∃ m', (update cache k v).run (exec i) m = some ((), m'))
        ∧ (∀ v, (f k = none → (m.group a).Room) →
            (m.OutOfMemory i a ∧ (insert cache k v).run (exec i) m = none)
              ∨ ∃ m', (insert cache k v).run (exec i) m = some ([], m'))
        ∧ (∀ v o m', f k = none → ¬ (m.group a).Room →
            (insert cache k v).run (exec i) m = some (o, m') →
            ∃ k' a', k' ≠ kkeyNull ∧ Routed cache k' a'
              ∧ (search cache k').run (exec i) m' ≠ some (insertMap f k v k', m')) := by
  have hs := h.stores
  refine ⟨hs.run_search hk hr, fun v => ?_, fun v hroom => ?_, fun v o m' hf hroom hrun => ?_⟩
  . obtain ⟨m', hrun, -⟩ := hs.run_update (i := i) hk hr v
    exact ⟨m', hrun⟩
  . have hg := hs.inv.group a hr.isLeaf
    rcases insert_run (i := i) hs.inv hr v with hoom | ⟨m', addr, hrun, -⟩
    . exact .inl hoom
    . right
      refine ⟨m', ?_⟩
      rw [hrun]
      cases hf : f k with
      | none => rw [(insertLocally_cases hg hk v).overrun_eq_nil (hroom hf)]
      | some w =>
        have hw := (hs.agree k a hk hr w).mpr hf
        rw [(hg.insertLocally_eq_existing hk).mpr ⟨w, hw⟩]
        rfl
  . obtain ⟨b, addr, hr', haddr, -, hstep⟩ := insert_cases hs.inv hrun
    obtain rfl := hr.unique hr'
    exact hs.insert_without_room hk hr hf hroom haddr hstep

-- the second insert of the key leaves its value, an update changes it
theorem run_refines_map_sample
    : ∃ (C : RolexCache) (m m' m'' : Mem Unit), RolexCache.new sampleKeys = some C
        ∧ insertAll () C.toCache [(int2key 1000001, 7), (int2key 1000001, 9)] Mem.init = some m
        ∧ (search C.toCache (int2key 1000001)).run (exec ()) m = some (some 7, m)
        ∧ (update C.toCache (int2key 1000001) 8).run (exec ()) m = some ((), m')
        ∧ (search C.toCache (int2key 1000001)).run (exec ()) m' = some (some 8, m')
        ∧ (insert C.toCache (int2key 1000001) 5).run (exec ()) m' = some ([], m'') := by
  have hrun : ((RolexCache.new sampleKeys).bind (fun C =>
      ((insert C.toCache (int2key 1000001) 7).run (exec ()) (Mem.init : Mem Unit)).bind (fun x =>
        ((insert C.toCache (int2key 1000001) 9).run (exec ()) x.2).bind (fun x =>
          ((update C.toCache (int2key 1000001) 8).run (exec ()) x.2).bind (fun x =>
            (insert C.toCache (int2key 1000001) 5).run (exec ()) x.2))))).isSome := by
    decide +kernel
  obtain ⟨⟨o₃, m''⟩, hrun⟩ := Option.isSome_iff_exists.mp hrun
  obtain ⟨C, hC, hrun⟩ := Option.bind_eq_some_iff.mp hrun
  obtain ⟨⟨o₁, m₁⟩, hone, hrun⟩ := Option.bind_eq_some_iff.mp hrun
  obtain ⟨⟨o₂, m⟩, htwo, hrun⟩ := Option.bind_eq_some_iff.mp hrun
  obtain ⟨⟨u, m'⟩, hupdate, hagain⟩ := Option.bind_eq_some_iff.mp hrun
  obtain ⟨a, hr⟩ := routed_of_insert_run hone
  have hk : int2key 1000001 ≠ kkeyNull := by decide
  have hroom : ((Mem.init : Mem Unit).group a).Room := .inl ⟨0, by decide, by simp [Mem.group,
    Mem.init, LeafEntry.null]⟩
  have hinserts := Run.insert (.insert .init hk hr (fun _ => hroom) hone) hk hr (by simp [insertMap]) htwo
  have hsearch := (run_refines_map hinserts hk hr).1
  obtain ⟨hsearch', -, hinsert, -⟩ := run_refines_map (.update hinserts hk hr hupdate) hk hr
  refine ⟨C, m, m', m'', hC, ?_, ?_, hupdate, ?_, ?_⟩
  . simp [insertAll, hone, htwo]
  . simpa [insertMap] using hsearch
  . simpa [insertMap, updateMap] using hsearch'
  . rcases hinsert 5 (by simp [insertMap, updateMap]) with ⟨-, hnone⟩ | ⟨m₃, hm₃⟩
    . cases hnone.symm.trans hagain
    . cases hm₃.symm.trans hagain
      exact hagain

set_option maxRecDepth 10000 in
-- the 33rd key of a leaf: the insert assigns a record behind the array, and the key is not found
theorem overfull_group_loses_key
    : ∃ (C : RolexCache) (m m' m'' : Mem Unit), RolexCache.new sampleKeys = some C
        ∧ insertAll () C.toCache (samplePairs 1000001 32) Mem.init = some m
        ∧ (insert C.toCache (int2key 1000033) 7).run (exec ()) m = some ([16], m')
        ∧ (search C.toCache (int2key 1000033)).run (exec ()) m' = some (none, m'') := by
  have hrun : ((RolexCache.new sampleKeys).bind (fun C =>
      (insertAll () C.toCache (samplePairs 1000001 32) Mem.init).bind (fun m : Mem Unit =>
        ((insert C.toCache (int2key 1000033) 7).run (exec ()) m).bind (fun r =>
          ((search C.toCache (int2key 1000033)).run (exec ()) r.2).map (fun r' => (r.1, r'.1))))))
      = some ([16], none) := by
    decide +kernel
  obtain ⟨C, hC, hrun⟩ := Option.bind_eq_some_iff.mp hrun
  obtain ⟨m, hm, hrun⟩ := Option.bind_eq_some_iff.mp hrun
  obtain ⟨⟨o, m'⟩, hm', hrun⟩ := Option.bind_eq_some_iff.mp hrun
  obtain ⟨⟨res, m''⟩, hm'', hres⟩ := Option.map_eq_some_iff.mp hrun
  simp only [Prod.mk.injEq] at hres
  obtain ⟨rfl, rfl⟩ := hres
  exact ⟨C, m, m', m'', hC, hm, hm', hm''⟩

end Calls

end Rolex

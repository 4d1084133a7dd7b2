import Rolex.Lib.System
import Rolex.Index.Sequential

/-!
This module contains a search beside an insert of another client: the memory images that the insert
passes through, what a search can find on them, and exactly which stored keys it can miss.
-/

namespace Rolex

section Samples

variable {ι : Type} [DecidableEq ι] {i : ι} {l : List (Mem ι)} {cache : Cache} {k : Key}
variable {a : GlobalAddress}

theorem fetchNodes_readOnly (leafAddrs : List GlobalAddress)
    : (fetchNodes leafAddrs).ReadOnly (exec (ι := ι) i) := by
  induction leafAddrs with
  | nil => trivial
  | cons a leafAddrs ih =>
    refine ⟨fun _ => rfl, fun n => ?_⟩
    exact ih.bind (fun _ => trivial)

theorem search_readOnly (cache : Cache) (k : Key)
    : (search cache k).ReadOnly (exec (ι := ι) i) := by
  have hcheck : ∀ {α β : Type} (x : Option α) (f : α → ProgM β),
      (∀ y, (f y).ReadOnly (exec (ι := ι) i)) → (Prog.check x >>= f).ReadOnly (exec (ι := ι) i) := by
    intro α β x f hf
    cases x with
    | none => trivial
    | some y => exact hf y
  refine Prog.ReadOnly.bind ?_ (fun _ => trivial)
  refine hcheck _ _ (fun lr => hcheck _ _ (fun leafAddrs => ?_))
  exact (fetchNodes_readOnly _).bind (fun _ => (fetchNodes_readOnly _).bind (fun _ => trivial))

theorem fetchNodes_readsAt {leafAddrs : List GlobalAddress} {leaves : List LeafNode} {t t' : Nat}
    (h : (fetchNodes leafAddrs).ReadsAt (exec i) l t leaves t')
    : List.Forall₂ (fun a leaf => ∃ s ∈ l, leaf = s.node a) leafAddrs leaves := by
  induction leafAddrs generalizing leaves t t' with
  | nil =>
    obtain ⟨rfl, -⟩ := h
    exact .nil
  | cons a leafAddrs ih =>
    simp only [fetchNodes, fetchNode, Prog.call_bind, Prog.readsAt_op, Prog.readsAt_bind] at h
    obtain ⟨u, s, -, hs, rest, u', hrest, rfl, -⟩ := h
    exact .cons ⟨s, List.mem_of_getElem? hs, rfl⟩ (ih hrest)

/-- `k` can be read at all times: in the leaf, or in the synonym leaf that the leaf points to. -/
def Visible (l : List (Mem ι)) (a : GlobalAddress) (k : Key) : Prop :=
  (∀ s ∈ l, ∃ w, (s.node a).records.Has k w)
    ∨ ∃ p, p ≠ GlobalAddress.null ∧ ∀ s ∈ l, s.ptr a = p ∧ ∃ w, (s.node p).records.Has k w

theorem exists_mem_zip {α β : Type} {R : α → β → Prop} {as : List α} {bs : List β}
    (h : List.Forall₂ R as bs) {x : α} (hx : x ∈ as)
    : ∃ y, (x, y) ∈ as.zip bs ∧ R x y := by
  induction h with
  | nil => cases hx
  | @cons x' y' as bs hxy _ ih =>
    rcases List.mem_cons.mp hx with rfl | hx
    . exact ⟨y', List.mem_cons_self, hxy⟩
    . obtain ⟨y, hy, hr⟩ := ih hx
      exact ⟨y, List.mem_cons_of_mem _ hy, hr⟩

/-- A key that is visible in its leaf's group is found, whenever the nodes are read. -/
theorem search_of_visible {lo r : Nat} {leafAddrs : List GlobalAddress}
    {res : Option Value} {t t' : Nat} (hrange : cache.searchFromCache k = some (lo, r))
    (hleaves : leafAddresses lo r = some leafAddrs) (ha : a ∈ leafAddrs) (hv : Visible l a k)
    (h : (search cache k).ReadsAt (exec i) l t res t')
    : ∃ w, res = some w := by
  unfold search searchAux at h
  simp only [hrange, hleaves, Prog.check_some, Prog.ret_bind, Prog.readsAt_bind] at h
  obtain ⟨res', u, ⟨leaves, u₁, hfetch, appendLeaves, u₂, happend, rfl, -⟩, rfl, -⟩ := h
  replace hfetch := fetchNodes_readsAt hfetch
  replace happend := fetchNodes_readsAt happend
  obtain ⟨leaf, hleaf, s, hs, rfl⟩ := exists_mem_zip hfetch ha
  apply Option.ne_none_iff_exists'.mp
  rw [ne_eq, Option.map_eq_none_iff, findKey_eq_none]
  intro hmiss
  rcases hv with hall | ⟨p, hp, hall⟩
  . obtain ⟨w, hw⟩ := hall s hs
    have := hmiss (a, a, s.node a) (List.mem_append_left _ (List.mem_map.mpr ⟨_, hleaf, rfl⟩))
    exact LeafNode.find_eq_none.mp this w hw
  . have hmem := mem_appendLeafAddrs.mpr ⟨hp, _, hleaf, (hall s hs).1⟩
    have happend' : List.Forall₂ (fun e leaf => ∃ s ∈ l, leaf = s.node e.1)
        (appendLeafAddrs (leafAddrs.zip leaves)) appendLeaves := by
      exact List.forall₂_map_left_iff.mp happend
    obtain ⟨synLeaf, hsyn, s', hs', rfl⟩ := exists_mem_zip happend' hmem
    obtain ⟨w, hw⟩ := (hall s' hs').2
    have := hmiss (p, a, s'.node p) (List.mem_append_right _ (List.mem_map.mpr ⟨_, hsyn, rfl⟩))
    exact LeafNode.find_eq_none.mp this w hw

theorem search_miss {lo r : Nat} {leafAddrs : List GlobalAddress} {s : Mem ι}
    (hrange : cache.searchFromCache k = some (lo, r))
    (hleaves : leafAddresses lo r = some leafAddrs) (hs : s ∈ l)
    (habsent : ∀ b ∈ leafAddrs, ∀ w, ¬ (s.group b).Has k w)
    : ∃ t, (search cache k).ReadsAt (exec i) l 0 none t := by
  obtain ⟨t, ht⟩ := List.getElem?_of_mem hs
  have hrun : (search cache k).run (exec i) s = some (none, s) := by
    unfold search
    rw [Prog.run_bind_eq (exec i) (searchAux_run hrange hleaves),
      findKey_fetched_eq_none.mpr habsent]
    rfl
  exact (Prog.readsAt_of_run (search_readOnly cache k) ht hrun).of_le (Nat.zero_le t)

end Samples

section Images

variable {ι : Type} [DecidableEq ι] {i : ι} {m x : Mem ι} {cache : Cache} {k : Key} {v : Value}
variable {a : GlobalAddress}

variable (i m a) in
/-- The node images while a plan for the leaf at `a` is written. -/
inductive Plan.Image : Plan → (GlobalAddress → LeafNode) → Prop
  | old {plan : Plan} : Image plan m.node
  | leaf {leaf : LeafNode} :
      Image (.writeLeaf leaf) (Function.update m.node a leaf.bumpNodeVersions)
  | syn {synLeaf : LeafNode} {o : List Nat} :
      Image (.writeSyn synLeaf o) (Function.update m.node (m.ptr a) synLeaf.bumpNodeVersions)
  | bothLeaf {leaf synLeaf : LeafNode} {o : List Nat} :
      Image (.writeBoth leaf synLeaf o) (Function.update m.node a leaf.bumpNodeVersions)
  | both {leaf synLeaf : LeafNode} {o : List Nat} :
      Image (.writeBoth leaf synLeaf o)
        (Function.update (Function.update m.node a leaf.bumpNodeVersions) (m.ptr a)
          synLeaf.bumpNodeVersions)
  | linkLeaf {leaf synLeaf : LeafNode} {addr : GlobalAddress}
      (haddr : (exec i .allocLeaf m).1 = some addr) :
      Image (.link leaf synLeaf) (Function.update m.node a (leaf.link addr).bumpNodeVersions)
  | link {leaf synLeaf : LeafNode} {addr : GlobalAddress}
      (haddr : (exec i .allocLeaf m).1 = some addr) :
      Image (.link leaf synLeaf)
        (Function.update (Function.update m.node a (leaf.link addr).bumpNodeVersions) addr
          synLeaf.bumpNodeVersions)

@[simp]
theorem states_read {α : Type} (b : GlobalAddress) (f : LeafNode → ProgM α)
    : (Prog.op (.read b) f : ProgM α).states (exec i) m
        =
      m :: (f (m.node b)).states (exec i) m := rfl

@[simp]
theorem states_write {α : Type} (b : GlobalAddress) (n : LeafNode) (f : Unit → ProgM α)
    : (Prog.op (.write b n) f : ProgM α).states (exec i) m
        =
      m :: (f ()).states (exec i) (m.setNode b n) := rfl

@[simp]
theorem states_writeLock {α : Type} (b : GlobalAddress) (w : BitVec 64) (f : Unit → ProgM α)
    : (Prog.op (.writeLock b w) f : ProgM α).states (exec i) m
        =
      m :: (f ()).states (exec i) (m.setLock b w) := rfl

@[simp]
theorem states_ret {α : Type} (b : α) : (Prog.ret b : ProgM α).states (exec i) m = [m] := rfl

theorem image_iff {plan : Plan} (w w' : BitVec 64) {f : GlobalAddress → LeafNode}
    : Plan.Image i m a plan f
        ↔
      ∃ x ∈ (writePlan a (m.ptr a) w plan).states (exec i) (m.setLock a w'), x.node = f := by
  cases plan with
  | existing =>
    simp only [writePlan, unlockNode, Prog.call, states_writeLock, states_ret,
      List.exists_mem_cons_iff, List.not_mem_nil, false_and, exists_false, or_false]
    constructor
    . rintro ⟨⟩
      exact .inl rfl
    . rintro (rfl | rfl)
      all_goals exact .old
  | writeLeaf leaf =>
    simp only [writePlan, writeNodesAndUnlock, unlockNode, Prog.call, Prog.op_bind, Prog.ret_bind,
      states_write, states_writeLock, states_ret, List.exists_mem_cons_iff, List.not_mem_nil,
      false_and, exists_false, or_false]
    constructor
    . rintro (_ | _)
      . exact .inl rfl
      . exact .inr (.inl rfl)
    . rintro (rfl | rfl | rfl)
      . exact .old
      all_goals exact .leaf
  | writeSyn synLeaf o =>
    simp only [writePlan, writeNodesAndUnlock, unlockNode, Prog.call, Prog.op_bind, Prog.ret_bind,
      states_write, states_writeLock, states_ret, List.exists_mem_cons_iff, List.not_mem_nil,
      false_and, exists_false, or_false]
    constructor
    . rintro (_ | _)
      . exact .inl rfl
      . exact .inr (.inl rfl)
    . rintro (rfl | rfl | rfl)
      . exact .old
      all_goals exact .syn
  | writeBoth leaf synLeaf o =>
    simp only [writePlan, writeNodesAndUnlock, unlockNode, Prog.call, Prog.op_bind, Prog.ret_bind,
      states_write, states_writeLock, states_ret, List.exists_mem_cons_iff, List.not_mem_nil,
      false_and, exists_false, or_false]
    constructor
    . rintro (_ | _)
      . exact .inl rfl
      . exact .inr (.inl rfl)
      . exact .inr (.inr (.inl rfl))
    . rintro (rfl | rfl | rfl | rfl)
      . exact .old
      . exact .bothLeaf
      all_goals exact .both
  | link leaf synLeaf =>
    simp only [writePlan, Prog.call_bind, Prog.states, exec_alloc_setLock]
    cases haddr : (exec i .allocLeaf m).1 with
    | none =>
      simp only [Prog.check_none, Prog.fail_bind, Prog.states, List.exists_mem_cons_iff,
        List.not_mem_nil, false_and, exists_false, or_false]
      constructor
      . rintro (_ | _ | _ | _ | _ | haddr' | haddr')
        . exact .inl rfl
        all_goals
          rw [haddr] at haddr'
          cases haddr'
      . rintro (rfl | rfl)
        all_goals exact .old
    | some addr =>
      simp only [Prog.check_some, Prog.ret_bind, writeNodesAndUnlock, unlockNode, Prog.call,
        Prog.op_bind, states_write, states_writeLock, states_ret, List.exists_mem_cons_iff,
        List.not_mem_nil, false_and, exists_false, or_false]
      constructor
      . rintro (_ | _ | _ | _ | _ | haddr' | haddr')
        . exact .inl rfl
        . obtain rfl := Option.some.inj (haddr.symm.trans haddr')
          exact .inr (.inr (.inl rfl))
        . obtain rfl := Option.some.inj (haddr.symm.trans haddr')
          exact .inr (.inr (.inr (.inl rfl)))
      . rintro (rfl | rfl | rfl | rfl | rfl)
        . exact .old
        . exact .old
        . exact .linkLeaf haddr
        all_goals exact .link haddr

theorem acquire_states (hfree : m.Unlocked a) (attempts : Nat)
    : (lockNode.acquire a (attempts + 1)).states (exec i) m = [m, m.setLock a (~~~0)] := by
  simp only [lockNode.acquire, Prog.call_bind, Prog.states]
  rw [exec_lock_of_unlocked hfree]
  exact congrArg (fun p : ProgM (BitVec 64) => m :: p.states (exec i) _) (if_pos hfree)

theorem fetchSyn_readOnly (leaf : LeafNode) : (fetchSyn leaf).ReadOnly (exec (ι := ι) i) := by
  unfold fetchSyn
  split
  . trivial
  . exact ⟨fun _ => rfl, fun _ => trivial⟩

theorem mem_states_insertLocked (hfree : m.Unlocked a)
    : x ∈ (insertLocked k v a).states (exec i) m
        ↔
      x = m ∨ x ∈ (writePlan a (m.ptr a) (m.lock a)
        (insertLocally k v (m.group a).leaf (m.group a).syn)).states (exec i)
        (m.setLock a (~~~0)) := by
  have hlock : (lockNode a).states (exec i) m = [m, m.setLock a (~~~0)] := acquire_states hfree 10000001
  have hwrite := Prog.mem_states_self (exec i) (writePlan a (m.ptr a) (m.lock a)
    (insertLocally k v (m.group a).leaf (m.group a).syn)) (m.setLock a (~~~0))
  unfold insertLocked
  rw [Prog.mem_states_bind_eq (exec i) (lockNode_run hfree), hlock]
  simp only [fetchNode, Prog.call_bind, states_read, List.mem_cons, List.not_mem_nil, or_false]
  rw [Prog.mem_states_bind_eq (exec i) (fetchSyn_run (m := m.setLock a (~~~0)) a), Prog.mem_states_bind]
  constructor
  . rintro ((rfl | rfl) | rfl | hx | hx | ⟨_, _, hrun, hx⟩)
    . exact .inl rfl
    . exact .inr hwrite
    . exact .inr hwrite
    . rw [(fetchSyn_readOnly _).eq_of_mem_states hx]
      exact .inr hwrite
    . exact .inr hx
    . rw [List.mem_singleton.mp hx]
      exact .inr (Prog.mem_states_of_run (exec i) hrun)
  . rintro (rfl | hx)
    . exact .inl (.inl rfl)
    . exact .inr (.inr (.inr (.inl hx)))

theorem mem_states_insert (h : m.Inv) (hr : Routed cache k a)
    {f : GlobalAddress → LeafNode}
    : (∃ x ∈ (insert cache k v).states (exec i) m, x.node = f)
        ↔
      Plan.Image i m a (insertLocally k v (m.group a).leaf (m.group a).syn) f := by
  have hfree := h.unlocked a hr.isLeaf
  rw [image_iff (m.lock a) (~~~0)]
  obtain ⟨l, r, insertIdx, leafAddrs, hc, hl, hidx⟩ := hr
  have hinsert : ∀ y, y ∈ (insert cache k v).states (exec i) m
      ↔ y = m ∨ y ∈ (insertLocked k v a).states (exec i) m := by
    intro y
    simp only [insert, hc, hl, hidx, Prog.check_some, Prog.ret_bind]
    rw [Prog.mem_states_bind_eq (exec i) (fetchNodes_run _)]
    constructor
    . rintro (hy | hy)
      . exact .inl ((fetchNodes_readOnly _).eq_of_mem_states hy)
      . exact .inr hy
    . rintro (rfl | hy)
      . exact .inl (Prog.mem_states_self _ _ _)
      . exact .inr hy
  simp only [hinsert, mem_states_insertLocked hfree]
  constructor
  . rintro ⟨y, rfl | rfl | hy, rfl⟩
    . exact ⟨_, Prog.mem_states_self (exec i) _ _, rfl⟩
    . exact ⟨_, Prog.mem_states_self (exec i) _ _, rfl⟩
    . exact ⟨y, hy, rfl⟩
  . rintro ⟨y, hy, rfl⟩
    exact ⟨y, .inr (.inr hy), rfl⟩

theorem states_insert_of_not_routed (hr : ∀ b, ¬ Routed cache k b)
    (hx : x ∈ (insert cache k v).states (exec i) m)
    : x = m := by
  unfold insert at hx
  cases hc : cache.searchFromCacheForInsert k with
  | none => simpa [hc, Prog.states] using hx
  | some res =>
    obtain ⟨l, r, insertIdx⟩ := res
    simp only [hc, Prog.check_some, Prog.ret_bind] at hx
    cases hl : leafAddresses l r with
    | none => simpa [hl, Prog.states] using hx
    | some leafAddrs =>
      simp only [hl, Prog.check_some, Prog.ret_bind] at hx
      rw [Prog.mem_states_bind_eq (exec i) (fetchNodes_run _)] at hx
      rcases hx with hx | hx
      . exact (fetchNodes_readOnly _).eq_of_mem_states hx
      . cases ha : getLeafAddress insertIdx with
        | none => simpa [ha, Prog.states] using hx
        | some a => exact absurd ⟨l, r, insertIdx, leafAddrs, hc, hl, ha⟩ (hr a)

theorem Mem.Shape.fresh (h : m.Shape) {addr : GlobalAddress}
    (haddr : (exec i .allocLeaf m).1 = some addr)
    : addr ≠ GlobalAddress.null ∧ ¬ IsLeaf addr ∧ (∀ b, IsLeaf b → m.ptr b ≠ addr)
        ∧ m.node addr = LeafNode.zero := by
  obtain ⟨hfresh, hunused⟩ := (h.alloc i).2.2 addr haddr
  exact ⟨hfresh.ne_null, hfresh.not_isLeaf, hfresh.unused, h.clean hunused⟩

theorem Plan.Image.other {plan : Plan} {f : GlobalAddress → LeafNode} (h : Plan.Image i m a plan f)
    (hshape : m.Shape) (ha : IsLeaf a) (hfits : plan.Fits (m.group a).leaf (m.group a).syn)
    {c : GlobalAddress} (hc : IsLeaf c) (hne : c ≠ a)
    : f c = m.node c ∧ (m.ptr c ≠ GlobalAddress.null → f (m.ptr c) = m.node (m.ptr c)) := by
  have hleaf : m.ptr c ≠ GlobalAddress.null → m.ptr c ≠ a := fun hnull => hshape.ptr_ne hc hnull ha
  have hsyn : m.ptr a ≠ GlobalAddress.null → c ≠ m.ptr a :=
    fun hnull heq => hshape.ptr_ne ha hnull hc heq.symm
  have hinj : m.ptr c ≠ GlobalAddress.null → m.ptr c ≠ m.ptr a := hshape.inj hc ha hne
  cases h with
  | old => exact ⟨rfl, fun _ => rfl⟩
  | leaf =>
    exact ⟨Function.update_of_ne hne _ _, fun hnull => Function.update_of_ne (hleaf hnull) _ _⟩
  | syn =>
    have hptr := Mem.group_syn_ne_none hfits
    exact ⟨Function.update_of_ne (hsyn hptr) _ _,
      fun hnull => Function.update_of_ne (hinj hnull) _ _⟩
  | bothLeaf =>
    exact ⟨Function.update_of_ne hne _ _, fun hnull => Function.update_of_ne (hleaf hnull) _ _⟩
  | both =>
    have hptr := Mem.group_syn_ne_none hfits.2
    constructor
    . rw [Function.update_of_ne (hsyn hptr), Function.update_of_ne hne]
    . intro hnull
      rw [Function.update_of_ne (hinj hnull), Function.update_of_ne (hleaf hnull)]
  | linkLeaf haddr =>
    exact ⟨Function.update_of_ne hne _ _, fun hnull => Function.update_of_ne (hleaf hnull) _ _⟩
  | @link _ _ addr haddr =>
    obtain ⟨-, hnot, hunused, -⟩ := hshape.fresh haddr
    have hcaddr : c ≠ addr := fun heq => hnot (heq ▸ hc)
    constructor
    . rw [Function.update_of_ne hcaddr, Function.update_of_ne hne]
    . intro hnull
      rw [Function.update_of_ne (hunused c hc), Function.update_of_ne (hleaf hnull)]

theorem Plan.Image.has_leaf {plan : Plan} {f : GlobalAddress → LeafNode} {kS : Key} {w : Value}
    (h : Plan.Image i m a plan f) (hinv : m.Inv) (ha : IsLeaf a) (hk : k ≠ kkeyNull)
    (hcase : InsertCase (m.group a) k v plan) (hkS : kS ≠ kkeyNull)
    (hhas : (m.node a).records.Has kS w)
    (hne : ¬ ((m.group a).Exposed k kS ∧ ¬ m.OutOfMemory i a))
    : ∃ w, (f a).records.Has kS w := by
  have hg := hinv.group a ha
  have habsent := fun hp w' => hcase.not_has (w := w') hg hk hp
  have hptr : (m.group a).syn ≠ none → a ≠ m.ptr a :=
    fun hsyn heq => hinv.shape.ptr_ne ha (Mem.group_syn_ne_none hsyn) ha heq.symm
  have hfresh : ∀ {addr}, (exec i .allocLeaf m).1 = some addr →
      a ≠ addr := by
    rintro addr haddr rfl
    exact (hinv.shape.fresh haddr).2.1 ha
  -- what is left of a full leaf after `k` has been shifted in
  have hshift : ∀ {j}, plan ≠ .existing → (m.node a).records.Sorted leafSpanSize →
      j < leafSpanSize → (m.node a).records.Splits leafSpanSize j k → ¬ m.OutOfMemory i a →
      ((m.node a).records.shiftInsert j (leafSpanSize - 1) k v).Has kS w := by
    intro j hp hn hlt hi hmem
    refine (hn.has_shiftInsert_full hlt hkS).mpr (.inr ⟨hhas, ?_⟩)
    rintro rfl
    exact hne ⟨⟨habsent hp, hn, .inl ⟨hi.above _ (by omega) (by decide), rfl⟩⟩, hmem⟩
  cases hcase with
  | existing h' =>
    cases h
    exact ⟨w, hhas⟩
  | leaf hn hlt hsyn hi =>
    cases h with
    | old => exact ⟨w, hhas⟩
    | leaf =>
      rw [Function.update_self]
      exact ⟨w, LeafNode.has_bumpNodeVersions.mpr
        ((hi.has_shiftInsert_room hn hlt hkS).mpr (.inr hhas))⟩
  | newSyn hn hsyn hi =>
    cases h with
    | old => exact ⟨w, hhas⟩
    | linkLeaf haddr =>
      rw [Function.update_self]
      exact ⟨w, LeafNode.has_bumpNodeVersions.mpr hhas⟩
    | link haddr =>
      rw [Function.update_of_ne (hfresh haddr), Function.update_self]
      exact ⟨w, LeafNode.has_bumpNodeVersions.mpr hhas⟩
  | overflowNew hn hsyn hlt hi =>
    have hmem : ∀ {addr}, (exec i .allocLeaf m).1 = some addr →
        ¬ m.OutOfMemory i a := by
      intro addr haddr hoom
      rw [hoom.2] at haddr
      cases haddr
    cases h with
    | old => exact ⟨w, hhas⟩
    | linkLeaf haddr =>
      rw [Function.update_self]
      exact ⟨w, LeafNode.has_bumpNodeVersions.mpr (hshift (by simp) hn hlt hi (hmem haddr))⟩
    | link haddr =>
      rw [Function.update_of_ne (hfresh haddr), Function.update_self]
      exact ⟨w, LeafNode.has_bumpNodeVersions.mpr (hshift (by simp) hn hlt hi (hmem haddr))⟩
  | syn hn hsyn hi hs =>
    cases h with
    | old => exact ⟨w, hhas⟩
    | syn =>
      rw [Function.update_of_ne (hptr (by simp [hsyn]))]
      exact ⟨w, hhas⟩
  | overflow hn hsyn hlt hi hs =>
    have hmem : ¬ m.OutOfMemory i a := by
      intro hoom
      rw [hoom.1] at hsyn
      cases hsyn
    cases h with
    | old => exact ⟨w, hhas⟩
    | bothLeaf =>
      rw [Function.update_self]
      exact ⟨w, LeafNode.has_bumpNodeVersions.mpr (hshift (by simp) hn hlt hi hmem)⟩
    | both =>
      rw [Function.update_of_ne (hptr (by simp [hsyn])), Function.update_self]
      exact ⟨w, LeafNode.has_bumpNodeVersions.mpr (hshift (by simp) hn hlt hi hmem)⟩

theorem Plan.Image.has_syn {plan : Plan} {f : GlobalAddress → LeafNode} {kS : Key} {w : Value}
    {s : LeafNode} (h : Plan.Image i m a plan f) (hinv : m.Inv) (ha : IsLeaf a) (hk : k ≠ kkeyNull)
    (hcase : InsertCase (m.group a) k v plan) (hkS : kS ≠ kkeyNull)
    (hsyn : (m.group a).syn = some s) (hhas : s.records.Has kS w)
    (hne : ¬ ((m.group a).Exposed k kS ∧ ¬ m.OutOfMemory i a))
    : (f a).metadata.synonymPtr = m.ptr a ∧ ∃ w, (f (m.ptr a)).records.Has kS w := by
  have hg := hinv.group a ha
  have hnull : m.ptr a ≠ GlobalAddress.null := Mem.group_syn_ne_none (by simp [hsyn])
  have hptr : m.ptr a ≠ a := hinv.shape.ptr_ne ha hnull ha
  have hnode : s = m.node (m.ptr a) := by
    rw [Mem.group, if_neg hnull] at hsyn
    exact (Option.some.inj hsyn).symm
  have hmem : ¬ m.OutOfMemory i a := by
    intro hoom
    rw [hoom.1] at hsyn
    cases hsyn
  have habsent := fun hp w' => hcase.not_has (w := w') hg hk hp
  have hnone : (m.group a).syn ≠ none := by simp [hsyn]
  cases hcase with
  | existing h' =>
    cases h
    exact ⟨rfl, w, hnode ▸ hhas⟩
  | leaf hn hlt hsyn' hi => exact absurd hsyn' hnone
  | newSyn hn hsyn' hi => exact absurd hsyn' hnone
  | overflowNew hn hsyn' hlt hi => exact absurd hsyn' hnone
  | @syn s₁ s' o hn hsyn' hi hs =>
    obtain rfl := Option.some.inj (hsyn.symm.trans hsyn')
    cases h with
    | old => exact ⟨rfl, w, hnode ▸ hhas⟩
    | syn =>
      rw [Function.update_of_ne hptr.symm, Function.update_self]
      refine ⟨rfl, w, LeafNode.has_bumpNodeVersions.mpr (hs.has_of_ne_last hkS hhas ?_)⟩
      rintro ⟨hfull, hlt, heq⟩
      exact hne ⟨⟨habsent (by simp), hn, .inr ⟨s, hsyn, hfull, hlt, heq⟩⟩, hmem⟩
  | @overflow s₁ s' j o hn hsyn' hlt hi hs =>
    obtain rfl := Option.some.inj (hsyn.symm.trans hsyn')
    have hs' : s'.records.Has kS w := by
      refine hs.has_of_ne_last hkS hhas ?_
      rintro ⟨hfull, hlt', heq⟩
      exact hne ⟨⟨habsent (by simp), hn, .inr ⟨s, hsyn, hfull,
        (InsertCase.lt_last hlt hi).trans hlt', heq⟩⟩, hmem⟩
    cases h with
    | old => exact ⟨rfl, w, hnode ▸ hhas⟩
    | bothLeaf =>
      rw [Function.update_self, Function.update_of_ne hptr]
      exact ⟨rfl, w, hnode ▸ hhas⟩
    | both =>
      rw [Function.update_of_ne hptr.symm, Function.update_self, Function.update_self]
      exact ⟨rfl, w, LeafNode.has_bumpNodeVersions.mpr hs'⟩

/-- The leaf WRITE that overflows a key comes before the WRITE that adds it to the synonym leaf. -/
theorem exists_image_of_overflow {plan : Plan} (hinv : m.Inv) (ha : IsLeaf a)
    (hcase : InsertCase (m.group a) k v plan) (habsent : ∀ w, ¬ (m.group a).Has k w)
    (hfull : (m.node a).records.Sorted leafSpanSize)
    (hlt : k < ((m.node a).records.get (leafSpanSize - 1)).key) (hmem : ¬ m.OutOfMemory i a)
    : ∃ f, Plan.Image i m a plan f
        ∧ (∀ w, ¬ (f a).records.Has ((m.node a).records.get (leafSpanSize - 1)).key w)
        ∧ ∀ w, ¬ (f (f a).metadata.synonymPtr).records.Has
            ((m.node a).records.get (leafSpanSize - 1)).key w := by
  have hlive := hfull.live (leafSpanSize - 1) (by decide)
  have hg := hinv.group a ha
  have hshift : ∀ {j}, j < leafSpanSize → ∀ w,
      ¬ ((m.node a).records.shiftInsert j (leafSpanSize - 1) k v).Has
        ((m.node a).records.get (leafSpanSize - 1)).key w := by
    intro j hj w
    rw [hfull.has_shiftInsert_full hj hlive]
    rintro (⟨heq, -⟩ | ⟨-, hne⟩)
    . exact absurd heq hlt.ne'
    . exact hne rfl
  cases hcase with
  | existing h => exact absurd h (habsent _)
  | leaf hn hlt' hsyn hi =>
    have := hn.unique hfull
    omega
  | newSyn hn hsyn hi => exact absurd (hi.below (leafSpanSize - 1) (by decide)) hlt.not_gt
  | syn hn hsyn hi hs => exact absurd (hi.below (leafSpanSize - 1) (by decide)) hlt.not_gt
  | overflowNew hn hsyn hj hi =>
    cases haddr : (exec i .allocLeaf m).1 with
    | none => exact absurd ⟨hsyn, haddr⟩ hmem
    | some addr =>
      obtain ⟨-, hnot, -, hzero⟩ := hinv.shape.fresh haddr
      have hne : addr ≠ a := fun heq => hnot (heq ▸ ha)
      refine ⟨_, .linkLeaf haddr, fun w => ?_, fun w => ?_⟩
      . rw [Function.update_self, LeafNode.has_bumpNodeVersions]
        exact hshift hj w
      . rw [Function.update_self]
        -- the new synonym leaf has not been written yet
        have hptr : ∀ n : LeafNode, (n.link addr).bumpNodeVersions.metadata.synonymPtr = addr :=
          fun _ => rfl
        rw [hptr, Function.update_of_ne hne, hzero]
        rintro ⟨t, -, hkey, -⟩
        exact hlive (hkey.symm.trans (by simp [LeafEntry.null]))
  | @overflow s s' j o hn hsyn hj hi hs =>
    have hnull : m.ptr a ≠ GlobalAddress.null := Mem.group_syn_ne_none (by simp [hsyn])
    have hnode : s = m.node (m.ptr a) := by
      rw [Mem.group, if_neg hnull] at hsyn
      exact (Option.some.inj hsyn).symm
    refine ⟨_, .bothLeaf, fun w => ?_, fun w => ?_⟩
    . rw [Function.update_self, LeafNode.has_bumpNodeVersions]
      exact hshift hj w
    . rw [Function.update_self]
      have hptr : ∀ r : Records,
          ({ (m.group a).leaf with records := r } : LeafNode).bumpNodeVersions.metadata.synonymPtr
            = m.ptr a := fun _ => rfl
      rw [hptr, Function.update_of_ne (hinv.shape.ptr_ne ha hnull ha), ← hnode]
      rintro ⟨t, -, hkey, -⟩
      have := hg.lt s hsyn (leafSpanSize - 1) t (by decide) (by rw [hkey]; exact hlive)
      rw [hkey] at this
      exact absurd this (lt_irrefl _)

omit [DecidableEq ι] in
theorem Mem.group_has {b : GlobalAddress} {w : Value} (h : (x.group b).Has k w)
    : (x.node b).records.Has k w
        ∨ (x.ptr b ≠ GlobalAddress.null ∧ (x.node (x.ptr b)).records.Has k w) := by
  rcases h with h | ⟨s, hs, h⟩
  . exact .inl h
  . right
    unfold Mem.group at hs
    split at hs
    . cases hs
    . next hnull =>
      obtain rfl := Option.some.inj hs
      exact ⟨hnull, h⟩

omit [DecidableEq ι] in
theorem not_has_of_other {b : GlobalAddress} (h : x.node b = m.node b)
    (h' : m.ptr b ≠ GlobalAddress.null → x.node (m.ptr b) = m.node (m.ptr b))
    (habsent : ∀ w, ¬ (m.group b).Has k w) (w : Value)
    : ¬ (x.group b).Has k w := by
  intro hhas
  have hptr : x.ptr b = m.ptr b := by
    unfold Mem.ptr
    rw [h]
  rcases Mem.group_has hhas with hleaf | ⟨hnull, hsyn⟩
  . rw [h] at hleaf
    exact habsent w (.inl hleaf)
  . rw [hptr] at hnull hsyn
    rw [h' hnull] at hsyn
    exact habsent w (.inr ⟨_, if_neg hnull, hsyn⟩)

end Images

section Main

variable {m : Mem Bool} {cache : Cache} {k kS : Key} {v w : Value} {a : GlobalAddress}

theorem visible_of_not_exposed (h : Reachable cache m) (hk : k ≠ kkeyNull) (hkS : kS ≠ kkeyNull)
    (ha : IsLeaf a) (hhas : (m.group a).Has kS w)
    (hne : ¬ (Routed cache k a ∧ (m.group a).Exposed k kS ∧ ¬ m.OutOfMemory false a))
    : Visible ((insert cache k v).states (exec false) m) a kS := by
  have hinv := h.inv
  -- the nodes of the group keep what they have
  have hstay : (∀ x ∈ (insert cache k v).states (exec false) m, x.node a = m.node a
        ∧ (m.ptr a ≠ GlobalAddress.null → x.node (m.ptr a) = m.node (m.ptr a))) →
      Visible ((insert cache k v).states (exec false) m) a kS := by
    intro hsame
    rcases Mem.group_has hhas with hleaf | ⟨hnull, hsyn⟩
    . left
      intro x hx
      rw [(hsame x hx).1]
      exact ⟨w, hleaf⟩
    . right
      refine ⟨m.ptr a, hnull, fun x hx => ?_⟩
      obtain ⟨hleaf, hsame⟩ := hsame x hx
      rw [hsame hnull]
      refine ⟨?_, w, hsyn⟩
      unfold Mem.ptr
      rw [hleaf]
  by_cases hr : ∃ b, Routed cache k b
  . obtain ⟨b, hr⟩ := hr
    by_cases hba : b = a
    . subst hba
      have hcase := insertLocally_cases (hinv.group b ha) hk v
      have himage := fun x hx => (mem_states_insert (i := false) (v := v) hinv hr).mp
        ⟨x, hx, rfl⟩
      have hne' : ¬ ((m.group b).Exposed k kS ∧ ¬ m.OutOfMemory false b) := fun hx => hne ⟨hr, hx⟩
      rcases hhas with hleaf | ⟨s, hsyn, hs⟩
      . left
        intro x hx
        exact (himage x hx).has_leaf hinv ha hk hcase hkS hleaf hne'
      . right
        refine ⟨m.ptr b, Mem.group_syn_ne_none (by simp [hsyn]), fun x hx => ?_⟩
        exact (himage x hx).has_syn hinv ha hk hcase hkS hsyn hs hne'
    . apply hstay
      intro x hx
      have himage := (mem_states_insert (i := false) (v := v) hinv hr).mp ⟨x, hx, rfl⟩
      exact himage.other hinv.shape hr.isLeaf (insertLocally_fits _ _ _ _) ha (fun e => hba e.symm)
  . apply hstay
    intro x hx
    rw [states_insert_of_not_routed (fun b hb => hr ⟨b, hb⟩) hx]
    exact ⟨rfl, fun _ => rfl⟩

theorem exists_state_of_exposed (h : Reachable cache m) (hk : k ≠ kkeyNull) (hkS : kS ≠ kkeyNull)
    (hhas : (m.group a).Has kS w) (hr : Routed cache k a) (hexp : (m.group a).Exposed k kS)
    (hmem : ¬ m.OutOfMemory false a)
    : ∃ x ∈ (insert cache k v).states (exec false) m, ∀ b, IsLeaf b → ∀ w, ¬ (x.group b).Has kS w := by
  have hinv := h.inv
  have ha := hr.isLeaf
  have hg := hinv.group a ha
  have hother : ∀ b, IsLeaf b → b ≠ a → ∀ w', ¬ (m.group b).Has kS w' := by
    intro b hb hne w' hw'
    exact hne ((h.routed hb hkS hw').unique (h.routed ha hkS hhas))
  obtain ⟨habsent, hfull, hlast⟩ := hexp
  have hcase := insertLocally_cases hg hk v
  rcases hlast with ⟨hlt, rfl⟩ | ⟨s, hsyn, hs, hlt, rfl⟩
  . -- between the two WRITEs
    obtain ⟨f, himage, hleaf, hnode⟩ :=
      exists_image_of_overflow hinv ha hcase habsent hfull hlt hmem
    obtain ⟨x, hx, rfl⟩ := (mem_states_insert (i := false) (v := v) hinv hr).mpr himage
    refine ⟨x, hx, fun b hb => ?_⟩
    by_cases hba : b = a
    . subst hba
      intro w' hw'
      rcases Mem.group_has hw' with hw' | ⟨-, hw'⟩
      . exact hleaf w' hw'
      . exact hnode w' hw'
    . obtain ⟨hb', hptr⟩ := himage.other hinv.shape ha (insertLocally_fits _ _ _ _) hb hba
      exact not_has_of_other hb' hptr (hother b hb hba)
  . -- after the insert
    have hp : insertLocally k v (m.group a).leaf (m.group a).syn ≠ .existing := by
      intro hex
      obtain ⟨w', hw'⟩ := (hg.insertLocally_eq_existing hk).mp hex
      exact habsent w' hw'
    rcases insert_run (i := false) hinv hr v with ⟨hoom, -⟩ | ⟨m', addr, hrun, -, hstep⟩
    . exact absurd hoom hmem
    . refine ⟨m', Prog.mem_states_of_run (exec false) hrun, fun b hb w' => ?_⟩
      rw [hstep.group b hb]
      split
      . exact hcase.drops_last hp hg hsyn hs hlt
      . next hba => exact hother b hb hba w'

theorem body_insert_states {x : Mem Bool}
    : x ∈ ((Call.insert k v).body cache).states (exec false) m
        ↔
      x ∈ (insert cache k v).states (exec false) m := by
  unfold Call.body
  rw [Prog.mem_states_bind]
  constructor
  . rintro (hx | ⟨_, _, hrun, hx⟩)
    . exact hx
    . rw [List.mem_singleton.mp hx]
      exact Prog.mem_states_of_run (exec false) hrun
  . exact .inl

theorem body_search_readOnly (cache : Cache) (kS : Key)
    : ((Call.search kS).body cache).ReadOnly (exec (ι := Bool) true) :=
  (search_readOnly cache kS).bind (fun _ => trivial)

theorem search_misses_of_exposed (h : Reachable cache m) (hk : k ≠ kkeyNull) (hkS : kS ≠ kkeyNull)
    (hhas : (m.group a).Has kS w) (hr : Routed cache k a) (hexp : (m.group a).Exposed k kS)
    (hmem : ¬ m.OutOfMemory false a) (v : Value)
    : ∃ S : System Bool Call Answer Op Op.Res (Mem Bool),
        System.Steps exec (fun _ => Call.body cache)
          (System.writerReader m (.insert k v) (.search kS)) S
        ∧ (S.clients true).answers = [.found none] := by
  obtain ⟨l, r, leafAddrs, hrange, hleaves, -⟩ := (h.routed hr.isLeaf hkS hhas).range
  obtain ⟨x, hx, habsent⟩ := exists_state_of_exposed (v := v) h hk hkS hhas hr hexp hmem
  have hisLeaf : ∀ b ∈ leafAddrs, IsLeaf b := by
    intro b hb
    obtain ⟨leafIdx, -, -, hidx⟩ := (mem_leafAddresses hleaves b).mp hb
    exact ⟨leafIdx, hidx⟩
  obtain ⟨t, ht⟩ := search_miss (i := true) hrange hleaves (body_insert_states.mpr hx)
    (fun b hb => habsent b (hisLeaf b hb))
  have hread : ((Call.search kS).body cache).ReadsAt (exec true)
      (((Call.insert k v).body cache).states (exec false) m) 0 (.found none) t :=
    Prog.readsAt_bind.mpr ⟨none, t, ht, rfl, rfl⟩
  exact (System.observe_iff (fun _ => Call.body cache) (body_search_readOnly cache kS)).mpr ⟨t, hread⟩

theorem search_finds_of_not_exposed (h : Reachable cache m) (hk : k ≠ kkeyNull)
    (hkS : kS ≠ kkeyNull) (ha : IsLeaf a) (hhas : (m.group a).Has kS w)
    (hne : ¬ (Routed cache k a ∧ (m.group a).Exposed k kS ∧ ¬ m.OutOfMemory false a))
    {S : System Bool Call Answer Op Op.Res (Mem Bool)} {ans : Answer}
    (hsteps : System.Steps exec (fun _ => Call.body cache)
      (System.writerReader m (.insert k v) (.search kS)) S)
    (hans : (S.clients true).answers = [ans])
    : ∃ w', ans = .found (some w') := by
  obtain ⟨l, r, leafAddrs, hrange, hleaves, hmem⟩ := (h.routed ha hkS hhas).range
  obtain ⟨t, ht⟩ := (System.observe_iff (fun _ => Call.body cache)
    (body_search_readOnly cache kS)).mp ⟨S, hsteps, hans⟩
  obtain ⟨res, u, hres, rfl, -⟩ := Prog.readsAt_bind.mp ht
  have hv : Visible (((Call.insert k v).body cache).states (exec false) m) a kS := by
    simpa only [Visible, body_insert_states] using visible_of_not_exposed (v := v) h hk hkS ha hhas hne
  obtain ⟨w', rfl⟩ := search_of_visible hrange hleaves hmem hv hres
  exact ⟨w', rfl⟩

/--
A search of a stored key beside an insert finds it in all interleavings, unless the insert moves or
drops this very key: it is the last one of a full leaf that the insert overflows, or the last one of a
full synonym leaf that the insert overwrites.
-/
theorem search_beside_insert_iff (h : Reachable cache m) (hk : k ≠ kkeyNull) (hkS : kS ≠ kkeyNull)
    (ha : IsLeaf a) (hhas : (m.group a).Has kS w)
    : (∀ (S : System Bool Call Answer Op Op.Res (Mem Bool)) (ans : Answer),
        System.Steps exec (fun _ => Call.body cache)
          (System.writerReader m (.insert k v) (.search kS)) S →
        (S.clients true).answers = [ans] → ∃ w', ans = .found (some w'))
        ↔
      ¬ (Routed cache k a ∧ (m.group a).Exposed k kS ∧ ¬ m.OutOfMemory false a) := by
  constructor
  . rintro hall ⟨hr, hexp, hmem⟩
    obtain ⟨S, hsteps, hans⟩ := search_misses_of_exposed h hk hkS hhas hr hexp hmem v
    obtain ⟨w', hw'⟩ := hall S _ hsteps hans
    cases hw'
  . intro hne S ans hsteps hans
    exact search_finds_of_not_exposed h hk hkS ha hhas hne hsteps hans

set_option maxRecDepth 10000 in
theorem search_beside_insert_iff_sample
    : ∃ (C : RolexCache) (m : Mem Bool), RolexCache.new sampleKeys = some C
        ∧ insertAll false C.toCache (samplePairs 1000002 2) Mem.init = some m
        ∧ ∀ (S : System Bool Call Answer Op Op.Res (Mem Bool)) (ans : Answer),
            System.Steps exec (fun _ => Call.body C.toCache)
              (System.writerReader m (.insert (int2key 1000001) 7) (.search (int2key 1000003))) S →
            (S.clients true).answers = [ans] → ∃ w, ans = .found (some w) := by
  have hrun : ((RolexCache.new sampleKeys).bind (fun C =>
      (insertAll false C.toCache (samplePairs 1000002 2) Mem.init).map (fun m : Mem Bool =>
        let leaf := m.node (GlobalAddress.of 0 8389520)
        ((leaf.records.get 1).key, (leaf.records.get 15).key))))
      = some (int2key 1000003, kkeyNull) := by
    decide +kernel
  obtain ⟨C, hC, hrun⟩ := Option.bind_eq_some_iff.mp hrun
  obtain ⟨m, hm, hkeys⟩ := Option.map_eq_some_iff.mp hrun
  simp only [Prod.mk.injEq] at hkeys
  obtain ⟨hkey, hnull⟩ := hkeys
  have hreach : Reachable C.toCache m := Reachable.init.insertAll (by decide) hm
  have hhas : (m.group (GlobalAddress.of 0 8389520)).Has (int2key 1000003) _ :=
    .inl (hkey ▸ Records.has_of_get (by decide))
  refine ⟨C, m, hC, hm, ?_⟩
  refine (search_beside_insert_iff hreach (by decide) (by decide) ⟨3, by decide⟩ hhas).mpr ?_
  rintro ⟨-, ⟨-, hfull, -⟩, -⟩
  exact hfull.live 15 (by decide) hnull

set_option maxRecDepth 10000 in
-- the leaf is full, its last key is in neither node between the two WRITEs of the insert
theorem overflowed_key_missed
    : ∃ (C : RolexCache) (m m' : Mem Bool) (S : System Bool Call Answer Op Op.Res (Mem Bool)),
        RolexCache.new sampleKeys = some C
        ∧ insertAll false C.toCache (samplePairs 1000002 16) Mem.init = some m
        ∧ (search C.toCache (int2key 1000017)).run (exec true) m = some (some 7, m')
        ∧ System.Steps exec (fun _ => Call.body C.toCache)
            (System.writerReader m (.insert (int2key 1000001) 7) (.search (int2key 1000017))) S
        ∧ (S.clients true).answers = [.found none] := by
  have hrun : ((RolexCache.new sampleKeys).bind (fun C =>
      (insertAll false C.toCache (samplePairs 1000002 16) Mem.init).bind (fun m : Mem Bool =>
        ((search C.toCache (int2key 1000017)).run (exec true) m).map (fun r =>
          let leaf := m.node (GlobalAddress.of 0 8389520)
          decide (r.1 = some 7 ∧ C.searchFromCacheForInsert (int2key 1000001) = some (3, 3, 3)
            ∧ leaf.find (int2key 1000001) = none ∧ leaf.metadata.synonymPtr = GlobalAddress.null
            ∧ (leaf.records.get 15).key = int2key 1000017
            ∧ (exec false .allocLeaf m).1 ≠ none)))))
      = some true := by
    decide +kernel
  obtain ⟨C, hC, hrun⟩ := Option.bind_eq_some_iff.mp hrun
  obtain ⟨m, hm, hrun⟩ := Option.bind_eq_some_iff.mp hrun
  obtain ⟨⟨res, m'⟩, hm', hfacts⟩ := Option.map_eq_some_iff.mp hrun
  obtain ⟨rfl, hroute, hfind, hptr, hlast, halloc⟩ := of_decide_eq_true hfacts
  have hreach : Reachable C.toCache m := Reachable.init.insertAll (by decide) hm
  have hr : Routed C.toCache (int2key 1000001) (GlobalAddress.of 0 8389520) :=
    ⟨3, 3, 3, [GlobalAddress.of 0 8389520], hroute, by decide, by decide⟩
  have hsyn : (m.group (GlobalAddress.of 0 8389520)).syn = none := if_pos hptr
  obtain ⟨n, hn⟩ := (hreach.inv.group _ hr.isLeaf).leaf
  have hfull : n = leafSpanSize := by
    have := hn.le
    have := hn.le_of_live (t := 15) (by rw [Mem.group, hlast]; decide)
    unfold leafSpanSize at *
    omega
  subst hfull
  have hexp : (m.group (GlobalAddress.of 0 8389520)).Exposed (int2key 1000001) (int2key 1000017) := by
    refine ⟨?_, hn, .inl ⟨?_, hlast.symm⟩⟩
    . rintro w (hw | ⟨s, hs, -⟩)
      . exact LeafNode.find_eq_none.mp hfind w hw
      . rw [hsyn] at hs
        cases hs
    . have : ((m.group (GlobalAddress.of 0 8389520)).leaf.records.get (leafSpanSize - 1)).key
          = int2key 1000017 := hlast
      rw [this]
      decide
  have hmem : ¬ m.OutOfMemory false (GlobalAddress.of 0 8389520) := by
    rintro ⟨-, hnone⟩
    exact halloc hnone
  have hhas : (m.group (GlobalAddress.of 0 8389520)).Has (int2key 1000017) _ :=
    .inl (hlast ▸ Records.has_of_get (by decide))
  obtain ⟨S, hsteps, hans⟩ :=
    search_misses_of_exposed hreach (by decide) (by decide) hhas hr hexp hmem 7
  exact ⟨C, m, m', S, hC, hm, hm', hsteps, hans⟩

end Main

end Rolex

import Rolex.Hopscotch.Run
import Rolex.Hopscotch.Search
import Rolex.Index.Sequential

/-!
This module contains the states of the hopscotch index that `insert` and `update` lead to when they run one
after the other, and what holds in all of them: the groups of the leaves keep the hopscotch invariant, and
their locks are free.
-/

namespace Rolex

namespace Hop

variable {ι : Type} [DecidableEq ι] {i : ι} {b : Build} {hash : Key → Fin leafSpanSize} {rounds : Nat}
  {cache : Cache} {m m' : Mem ι} {a : GlobalAddress} {g g' : HopGroup} {k : Key} {v : Value}

section Search

/-- The addresses of a leaf or of its synonym leaf, and of the leaf. -/
def OfLeaf (b : Build) (m : Mem ι) (nodeAddr leafAddr : GlobalAddress) : Prop :=
  b.IsLeaf leafAddr
    ∧ (nodeAddr = leafAddr ∨ (m.ptr leafAddr ≠ GlobalAddress.null ∧ nodeAddr = m.ptr leafAddr))

/-- Every entry of `syn_leaf_addrs` is a leaf with its synonym leaf. -/
def SynLeafAddrs.Ok (b : Build) (m : Mem ι) (syn : SynLeafAddrs) : Prop :=
  ∀ p ∈ syn, b.IsLeaf p.1 ∧ m.ptr p.1 ≠ GlobalAddress.null ∧ p.2 = m.ptr p.1

omit [DecidableEq ι] in
theorem cachedLeafAddrs_ok {syn : SynLeafAddrs} (h : SynLeafAddrs.Ok b m syn) {leafAddrs : List GlobalAddress}
    : ∀ p ∈ cachedLeafAddrs syn leafAddrs, OfLeaf b m p.1 p.2 := by
  intro p hp
  obtain ⟨leafAddr, -, hp⟩ := List.mem_filterMap.mp hp
  obtain ⟨synAddr, hlookup, rfl⟩ := Option.map_eq_some_iff.mp hp
  obtain ⟨l₁, l₂, rfl, -⟩ := List.lookup_eq_some_iff.mp hlookup
  have hok := h (leafAddr, synAddr) (List.mem_append_right _ List.mem_cons_self)
  exact ⟨hok.1, .inr hok.2⟩

omit [DecidableEq ι] in
theorem appendLeafAddrs_ok {leaves : List (GlobalAddress × HopNode)} (syn : SynLeafAddrs)
    (h : ∀ p ∈ leaves, b.IsLeaf p.1 ∧ p.2.metadata = (m.node p.1).metadata)
    : SynLeafAddrs.Ok b m ((appendLeafAddrs syn leaves).map Prod.swap) := by
  induction leaves generalizing syn with
  | nil => exact fun p hp => absurd hp (List.not_mem_nil)
  | cons p leaves ih =>
    obtain ⟨leafAddr, leaf⟩ := p
    have hrest := fun q hq => h q (List.mem_cons_of_mem _ hq)
    obtain ⟨hleaf, hmeta⟩ := h _ List.mem_cons_self
    have hptr : leaf.metadata.synonymPtr = m.ptr leafAddr := congrArg LeafMetadata.synonymPtr hmeta
    unfold appendLeafAddrs
    split
    . next hcond =>
      rw [hptr] at hcond ⊢
      exact List.forall_mem_cons.mpr ⟨⟨hleaf, hcond.1, rfl⟩, ih _ hrest⟩
    . exact ih _ hrest

omit [DecidableEq ι] in
theorem mem_of_searchLeaves {leaves : List (GlobalAddress × GlobalAddress × HopNode)} {v : Value}
    {leafAddr lockedLeafAddr : GlobalAddress}
    (h : searchLeaves hash k leaves = some (some (v, leafAddr, lockedLeafAddr)))
    : ∃ leaf, (leafAddr, lockedLeafAddr, leaf) ∈ leaves := by
  induction leaves with
  | nil => cases h
  | cons p leaves ih =>
    obtain ⟨leafAddr', lockedLeafAddr', leaf⟩ := p
    unfold searchLeaves at h
    split at h
    . cases h
      exact ⟨leaf, List.mem_cons_self⟩
    . cases h
    . obtain ⟨leaf, hmem⟩ := ih h
      exact ⟨leaf, List.mem_cons_of_mem _ hmem⟩

theorem eq_of_mem_zip_map {α β : Type} {f : α → β} {l : List α} {x : List β} {p : α × β}
    (h : p ∈ l.zip (l.map f ++ x))
    : p.1 ∈ l ∧ p.2 = f p.1 := by
  induction l with
  | nil => cases h
  | cons a l ih =>
    rcases List.mem_cons.mp h with rfl | h
    . exact ⟨List.mem_cons_self, rfl⟩
    . exact ⟨List.mem_cons_of_mem _ (ih h).1, (ih h).2⟩

theorem searchRound_run {leafAddrs : List GlobalAddress} (hleaves : ∀ a ∈ leafAddrs, b.IsLeaf a)
    {syn syn' : SynLeafAddrs} (hsyn : SynLeafAddrs.Ok b m syn)
    {res : Option (Option (Value × GlobalAddress × GlobalAddress))}
    (h : (searchRound b hash rounds k leafAddrs syn).run (exec i) m = some ((res, syn'), m'))
    : m' = m ∧ SynLeafAddrs.Ok b m syn'
        ∧ ∀ v leafAddr lockedLeafAddr, res = some (some (v, leafAddr, lockedLeafAddr)) →
            OfLeaf b m leafAddr lockedLeafAddr := by
  unfold searchRound at h
  obtain ⟨leaves, m₁, hfetch, hrest⟩ := (Prog.run_bind_eq_some (exec i)).mp h
  obtain ⟨rfl, hleaves', hok⟩ := hopscotchFetchNodes_run hfetch
  obtain ⟨appendLeaves, m₂, hfetch', hret⟩ := (Prog.run_bind_eq_some (exec i)).mp hrest
  obtain ⟨rfl, -, -⟩ := hopscotchFetchNodes_run hfetch'
  have hmeta : ∀ p ∈ leafAddrs.zip leaves, b.IsLeaf p.1 ∧ p.2.metadata = (m₂.node p.1).metadata := by
    intro p hp
    rw [hleaves', List.map_append, List.map_append, List.map_map, List.map_map] at hp
    obtain ⟨hmem, heq⟩ := eq_of_mem_zip_map hp
    refine ⟨hleaves _ hmem, ?_⟩
    rw [heq]
    apply metadata_leaf rfl
    apply hok (p.1, neighborSize)
    exact List.mem_map.mpr ⟨(p.1, p.1), List.mem_append_left _ (List.mem_map.mpr ⟨_, hmem, rfl⟩), rfl⟩
  have happend := appendLeafAddrs_ok syn hmeta
  cases hret
  refine ⟨rfl, List.forall_mem_append.mpr ⟨happend, hsyn⟩, fun v leafAddr lockedLeafAddr hres => ?_⟩
  obtain ⟨leaf, hleaf⟩ := mem_of_searchLeaves hres
  obtain ⟨⟨⟨nodeAddr, lockAddr⟩, n⟩, hmem, heq⟩ := List.mem_map.mp hleaf
  cases heq
  rcases List.mem_append.mp hmem with hfirst | hsecond
  . rcases List.mem_append.mp (List.of_mem_zip hfirst).1 with hleafAddrs | hcached
    . obtain ⟨leafAddr, hleafAddr, heq⟩ := List.mem_map.mp hleafAddrs
      cases heq
      exact ⟨hleaves _ hleafAddr, .inl rfl⟩
    . exact cachedLeafAddrs_ok hsyn _ hcached
  . have hmem' := happend _ (List.mem_map_of_mem (f := Prod.swap) (List.of_mem_zip hsecond).1)
    exact ⟨hmem'.1, .inr hmem'.2⟩

theorem searchAux_reRead_run {leafAddrs : List GlobalAddress} (hleaves : ∀ a ∈ leafAddrs, b.IsLeaf a)
    {syn : SynLeafAddrs} (hsyn : SynLeafAddrs.Ok b m syn) {n : Nat}
    {res : Option (Value × GlobalAddress × GlobalAddress)}
    (h : (searchAux.reRead b hash rounds k leafAddrs syn n).run (exec i) m = some (res, m'))
    : m' = m ∧ ∀ v leafAddr lockedLeafAddr, res = some (v, leafAddr, lockedLeafAddr) →
        OfLeaf b m leafAddr lockedLeafAddr := by
  induction n generalizing syn with
  | zero => cases h
  | succ n ih =>
    unfold searchAux.reRead at h
    obtain ⟨⟨res', syn'⟩, m₁, hround, hrest⟩ := (Prog.run_bind_eq_some (exec i)).mp h
    obtain ⟨rfl, hsyn', hfound⟩ := searchRound_run hleaves hsyn hround
    cases res' with
    | none => exact ih hsyn' hrest
    | some found =>
      cases hrest
      exact ⟨rfl, fun v leafAddr lockedLeafAddr heq => hfound v _ _ (congrArg some heq)⟩

theorem searchAux_run {res : Option (Value × GlobalAddress × GlobalAddress)}
    (h : (searchAux b hash rounds cache k).run (exec i) m = some (res, m'))
    : m' = m ∧ ∀ v leafAddr lockedLeafAddr, res = some (v, leafAddr, lockedLeafAddr) →
        OfLeaf b m leafAddr lockedLeafAddr := by
  unfold searchAux at h
  obtain ⟨⟨l, r⟩, m₁, hcache, hrest⟩ := (Prog.run_bind_eq_some (exec i)).mp h
  obtain ⟨-, rfl⟩ := (Prog.run_check_eq_some (exec i)).mp hcache
  obtain ⟨leafAddrs, m₂, hcheck, hreRead⟩ := (Prog.run_bind_eq_some (exec i)).mp hrest
  obtain ⟨haddrs, rfl⟩ := (Prog.run_check_eq_some (exec i)).mp hcheck
  apply searchAux_reRead_run (fun a => Build.isLeaf_of_mem haddrs) _ hreRead
  exact fun p hp => absurd hp List.not_mem_nil

end Search

section Update

/-- What an update makes of the group of the leaf it locks. -/
inductive Updates (k : Key) (v : Value) (g : HopGroup) : HopGroup → Prop
  | leaf {p : Fin leafSpanSize} (hp : (g.leaf.records.get p).key = k)
      : Updates k v g { g with leaf := { g.leaf with records := g.leaf.records.updateEntry p v } }
  | syn {n : HopNode} {p : Fin leafSpanSize} (hsyn : g.syn = some n) (hp : (n.records.get p).key = k)
      : Updates k v g { g with syn := some { n with records := n.records.updateEntry p v } }

omit [DecidableEq ι] in
theorem findSlot_eq_some {r s : HopRecords} (hs : AgreeOn (hash k).val ((hash k).val + neighborSize - 1) r s)
    {p : Fin leafSpanSize} (h : findSlot hash s k = some p)
    : (r.get p).key = k ∧ s.get p = r.get p := by
  obtain ⟨j, hj, rfl⟩ := Option.map_eq_some_iff.mp h
  have hkey : (s.getEntry ((hash k).val + j)).key = k := by
    simpa using List.find?_some hj
  have hlt := List.mem_range.mp (List.mem_of_find?_eq_some hj)
  have heq := hs ((hash k).val + j) (by omega) (by omega)
  rw [← heq] at hkey
  exact ⟨hkey, heq.symm⟩

omit [DecidableEq ι] in
theorem segmentWrite_updateEntry {r s : HopRecords} {p : Fin leafSpanSize} (hkey : (r.get p).key = k)
    (heq : s.get p = r.get p) (v : Value)
    : segmentWrite r (s.setEntry p.val ((s.get p).update k v)) p.val p.val [p.val] = r.updateEntry p v := by
  have hin : ∀ q : Fin leafSpanSize, InSegment p.val p.val q.val ↔ q = p := by
    intro q
    unfold InSegment
    rw [if_pos (Nat.le_refl _), Fin.ext_iff]
    omega
  apply HopRecords.ext_get
  intro q
  unfold segmentWrite
  rw [HopRecords.get_ofFn, HopRecords.get_updateEntry]
  simp only [hin]
  split
  . next hq =>
    rw [hq, HopRecords.get_setEntry, slot_val, if_pos rfl, heq, ← hkey]
    simp [HopEntry.update]
  . rfl

theorem entryWriteAndUnlock_run {r : HopRecords} {p : Fin leafSpanSize} {nodeAddr lockedLeafAddr : GlobalAddress}
    {lock : BitVec 64}
    : (entryWriteAndUnlock r p.val nodeAddr lockedLeafAddr lock).run (exec i) m
        = some ((), (m.setNode nodeAddr { m.node nodeAddr with
            records := segmentWrite (m.node nodeAddr).records r p.val p.val [p.val] }).setLock
              lockedLeafAddr lock) := by
  unfold entryWriteAndUnlock
  split
  . next h =>
    rw [h.2]
    rfl
  . rfl

theorem readAnother_run {leafAddr : GlobalAddress} {w : BitVec 64} {n : Nat} (hshape : m.Shape b)
    (haddr : OfLeaf b m leafAddr a)
    (h : (updateLocked.readAnother b hash rounds k v a (m.lock a) leafAddr n).run (exec i) (m.setLock a w)
      = some ((), m'))
    : ∃ g', Updates k v (m.group a) g' ∧ GroupStep b m a g' m' := by
  induction n generalizing leafAddr with
  | zero => cases h
  | succ n ih =>
    unfold updateLocked.readAnother at h
    obtain ⟨leaf, m₁, hfetch, hrest⟩ := (Prog.run_bind_eq_some (exec i)).mp h
    obtain ⟨rfl, hleaf⟩ := hopscotchFetchNode_fetched (hash k).isLt (by decide) hfetch
    rw [Mem.node_setLock] at hleaf
    split at hrest
    . next p hp =>
      obtain ⟨hkey, heq⟩ := findSlot_eq_some hleaf.agree hp
      rw [entryWriteAndUnlock_run, Mem.node_setLock, segmentWrite_updateEntry hkey heq] at hrest
      cases hrest
      rcases haddr with ⟨ha, rfl | ⟨hptr, rfl⟩⟩
      . exact ⟨_, .leaf hkey, groupStep_leaf hshape ha rfl⟩
      . exact ⟨_, .syn (Mem.group_syn_of_ptr_ne hptr) hkey, groupStep_syn hshape ha hptr⟩
    . split at hrest
      . next hcond =>
        obtain ⟨rfl, hptr⟩ := hcond
        have hsyn : leaf.metadata.synonymPtr = m.ptr leafAddr := congrArg LeafMetadata.synonymPtr hleaf.metadata
        rw [hsyn] at hptr hrest
        exact ih ⟨haddr.1, .inr ⟨hptr, rfl⟩⟩ hrest
      . cases hrest

theorem update_cases (hshape : m.Shape b) (hfree : ∀ a, b.IsLeaf a → VALock.Unlocked (m.lock a))
    (h : (update b hash rounds cache k v).run (exec i) m = some ((), m'))
    : m' = m ∨ ∃ a g', b.IsLeaf a ∧ Updates k v (m.group a) g' ∧ GroupStep b m a g' m' := by
  unfold update at h
  obtain ⟨res, m₁, hsearch, hrest⟩ := (Prog.run_bind_eq_some (exec i)).mp h
  obtain ⟨rfl, haddr⟩ := searchAux_run hsearch
  cases res with
  | none =>
    cases hrest
    exact .inl rfl
  | some found =>
    obtain ⟨v', leafAddr, lockLeafAddr⟩ := found
    have hleaf := haddr v' _ _ rfl
    dsimp only at hrest
    unfold updateLocked at hrest
    rw [Prog.run_bind_eq (exec i) (lockNode_run (hfree _ hleaf.1))] at hrest
    obtain ⟨g', hg', hstep⟩ := readAnother_run hshape hleaf hrest
    exact .inr ⟨lockLeafAddr, g', hleaf.1, hg', hstep⟩

end Update

section Insert

/-- `cache` leads an insert of `k` to the leaf at `a`. -/
def Routed (b : Build) (cache : Cache) (k : Key) (a : GlobalAddress) : Prop :=
  ∃ l r insertIdx, cache.searchFromCacheForInsert k = some (l, r, insertIdx)
    ∧ b.getLeafAddress insertIdx = some a

theorem Routed.isLeaf (h : Routed b cache k a) : b.IsLeaf a := by
  obtain ⟨_, _, insertIdx, -, ha⟩ := h
  exact ⟨insertIdx, ha⟩

theorem Routed.unique {c : GlobalAddress} (ha : Routed b cache k a) (hc : Routed b cache k c) : a = c := by
  obtain ⟨_, _, _, hcache, ha⟩ := ha
  obtain ⟨_, _, _, hcache', hc⟩ := hc
  rw [hcache, Option.some.injEq, Prod.mk.injEq, Prod.mk.injEq] at hcache'
  obtain ⟨rfl, rfl, rfl⟩ := hcache'
  exact Option.some.inj (ha.symm.trans hc)

theorem insert_cases {res : Except Assertion Unit} (hshape : m.Shape b)
    (hsound : ∀ a, b.IsLeaf a → Sound hash (m.group a)) (hk : k ≠ kkeyNull)
    (h : (insert b hash rounds cache k v).run (exec i) m = some (res, m'))
    : SplitFails res ∨ (res = .ok () ∧ ∃ a g', Routed b cache k a ∧ Inserts b hash k v (m.group a) g'
        ∧ GroupStep b m a g' m') := by
  unfold insert at h
  obtain ⟨⟨l, r, insertIdx⟩, m₁, hcheck, h₁⟩ := (Prog.run_bind_eq_some (exec i)).mp h
  obtain ⟨hcache, rfl⟩ := (Prog.run_check_eq_some (exec i)).mp hcheck
  obtain ⟨leafAddrs, m₂, hcheck, h₂⟩ := (Prog.run_bind_eq_some (exec i)).mp h₁
  obtain ⟨-, rfl⟩ := (Prog.run_check_eq_some (exec i)).mp hcheck
  obtain ⟨leaves, m₃, hfetch, h₃⟩ := (Prog.run_bind_eq_some (exec i)).mp h₂
  obtain ⟨rfl, -, -⟩ := hopscotchFetchNodes_run hfetch
  obtain ⟨a, m₄, hcheck, h₄⟩ := (Prog.run_bind_eq_some (exec i)).mp h₃
  obtain ⟨ha, rfl⟩ := (Prog.run_check_eq_some (exec i)).mp hcheck
  have hr : Routed b cache k a := ⟨l, r, insertIdx, hcache, ha⟩
  rcases insertLocked_run hshape hr.isLeaf (hsound a hr.isLeaf) hk h₄ with hfails | ⟨hok, g', hg', hstep⟩
  . exact .inl hfails
  . exact .inr ⟨hok, a, g', hr, hg', hstep⟩

end Insert

section Sound

theorem unlocked_segmentLock {r : HopRecords} {lIdx rIdx : Nat} {lock lock' : BitVec 64} {needUnlock : Bool}
    (hfree : VALock.Unlocked lock) (h : segmentLock b r lIdx rIdx lock needUnlock = .ok lock')
    : VALock.Unlocked lock' := by
  unfold segmentLock at h
  split at h
  . exact hfree.updateVacancy h
  . cases h
    exact hfree

theorem updateVacancy_of_splitLock (hval : b.vacancyAwareLock = true) {r r' : HopRecords}
    {lock lock' : BitVec 64} (h : splitLock b r r' lock = .ok lock')
    : ∃ lock₁, VALock.updateVacancy lock 0 (leafSpanSize - 1) (emptyIdxes r 0 (leafSpanSize - 1)) false
          = .ok lock₁
        ∧ VALock.updateVacancy lock₁ 0 (leafSpanSize - 1) (emptyIdxes r' 0 (leafSpanSize - 1)) true
          = .ok lock' := by
  unfold splitLock at h
  rw [if_pos hval] at h
  cases h₁ : VALock.updateVacancy lock 0 (leafSpanSize - 1) (emptyIdxes r 0 (leafSpanSize - 1)) false with
  | error x =>
    rw [h₁] at h
    cases h
  | ok lock₁ =>
    rw [h₁] at h
    exact ⟨lock₁, rfl, h⟩

theorem unlocked_splitLock {r r' : HopRecords} {lock lock' : BitVec 64} (hfree : VALock.Unlocked lock)
    (h : splitLock b r r' lock = .ok lock')
    : VALock.Unlocked lock' := by
  by_cases hval : b.vacancyAwareLock = true
  . obtain ⟨lock₁, h₁, h₂⟩ := updateVacancy_of_splitLock hval h
    exact (hfree.updateVacancy h₁).updateVacancy h₂
  . unfold splitLock at h
    rw [if_neg hval] at h
    cases h
    exact hfree

theorem bumpNodeVersions_inv {n : HopNode} (h : n.records.Inv hash) : n.bumpNodeVersions.records.Inv hash := by
  apply h.congr
  . intro p
    rw [HopNode.get_bumpNodeVersions]
  . intro p
    rw [HopNode.get_bumpNodeVersions]

theorem Inserts.sound (h : Inserts b hash k v g g') (hsound : Sound hash g) (hk : k ≠ kkeyNull)
    : Sound hash g' := by
  cases h with
  | existing _ => exact hsound
  | leaf _ _ hh hlock =>
    exact ⟨(hh.inv hk).bumpEntries _, hsound.syn, unlocked_segmentLock hsound.unlocked hlock⟩
  | split _ _ _ _ hsplit hlock =>
    have hinto := (splitInto_of_ok hsound.leaf hk hsplit).1
    refine ⟨bumpNodeVersions_inv hinto.invLeaf, ?_, unlocked_splitLock hsound.unlocked hlock⟩
    intro n hn
    cases hn
    exact bumpNodeVersions_inv hinto.invSyn
  | syn _ _ _ _ hh hlock =>
    refine ⟨hsound.leaf, ?_, unlocked_segmentLock hsound.unlocked hlock⟩
    intro n hn
    cases hn
    exact (hh.inv hk).bumpEntries _
  | full _ _ _ _ => exact hsound

theorem updateEntry_key (r : HopRecords) (p : Fin leafSpanSize) (v : Value) (q : Fin leafSpanSize)
    : ((r.updateEntry p v).get q).key = (r.get q).key := by
  rw [HopRecords.get_updateEntry]
  split
  . next hq =>
    rw [hq]
    rfl
  . rfl

theorem updateEntry_inv {r : HopRecords} (h : r.Inv hash) (p : Fin leafSpanSize) (v : Value)
    : (r.updateEntry p v).Inv hash := by
  apply h.congr (updateEntry_key r p v)
  intro q
  rw [HopRecords.get_updateEntry]
  split
  . next hq =>
    rw [hq]
    rfl
  . rfl

theorem Updates.sound (h : Updates k v g g') (hsound : Sound hash g) : Sound hash g' := by
  cases h with
  | leaf _ => exact ⟨updateEntry_inv hsound.leaf _ _, hsound.syn, hsound.unlocked⟩
  | syn hsyn _ =>
    refine ⟨hsound.leaf, ?_, hsound.unlocked⟩
    intro n hn
    cases hn
    exact updateEntry_inv (hsound.syn _ hsyn) _ _

end Sound

/-- The states that inserts and updates lead to, one after the other. -/
inductive Reachable (b : Build) (hash : Key → Fin leafSpanSize) (cache : Cache) (id : ι → Nat) : Mem ι → Prop
  | init : Reachable b hash cache id (Mem.init b id)
  | insert {i : ι} {rounds : Nat} {m m' : Mem ι} {k : Key} {v : Value} (h : Reachable b hash cache id m)
      (hk : k ≠ kkeyNull) (hrun : (insert b hash rounds cache k v).run (exec i) m = some (.ok (), m'))
      : Reachable b hash cache id m'
  | update {i : ι} {rounds : Nat} {m m' : Mem ι} {k : Key} {v : Value} (h : Reachable b hash cache id m)
      (hrun : (update b hash rounds cache k v).run (exec i) m = some ((), m')) : Reachable b hash cache id m'

variable {id : ι → Nat}

/-- What holds in all reachable states. -/
structure Mem.Inv (b : Build) (hash : Key → Fin leafSpanSize) (m : Mem ι) : Prop where
  shape : m.Shape b
  sound : ∀ a, b.IsLeaf a → Sound hash (m.group a)

omit [DecidableEq ι] in
theorem Mem.Inv.step (h : m.Inv b hash) (hstep : GroupStep b m a g m') (hg : Sound hash g)
    : m'.Inv b hash := by
  refine ⟨hstep.shape, fun c hc => ?_⟩
  rw [hstep.group c hc]
  split
  . exact hg
  . exact h.sound c hc

theorem sound_init (hash : Key → Fin leafSpanSize) : Sound hash ⟨HopNode.zero, none, 0⟩ where
  leaf := HopRecords.zero_inv hash
  syn n hn := by cases hn
  unlocked := BitVec.getLsbD_zero

theorem Reachable.inv (h : Reachable b hash cache id m) : m.Inv b hash := by
  induction h with
  | init => exact ⟨Mem.init_shape b id, fun _ _ => sound_init hash⟩
  | insert h hk hrun ih =>
    rcases insert_cases ih.shape ih.sound hk hrun with ⟨x, hx, -⟩ | ⟨-, a, g', hr, hg', hstep⟩
    . cases hx
    . exact ih.step hstep (hg'.sound (ih.sound a hr.isLeaf) hk)
  | update h hrun ih =>
    rcases update_cases ih.shape (fun a ha => (ih.sound a ha).unlocked) hrun with rfl | ⟨a, g', ha, hg', hstep⟩
    . exact ih
    . exact ih.step hstep (hg'.sound (ih.sound a ha))

theorem Reachable.group {P : HopGroup → Prop} (h : Reachable b hash cache id m)
    (hinit : P ⟨HopNode.zero, none, 0⟩)
    (hins : ∀ k v g g', k ≠ kkeyNull → Sound hash g → P g → Inserts b hash k v g g' → P g')
    (hupd : ∀ k v g g', P g → Updates k v g g' → P g') (ha : b.IsLeaf a)
    : P (m.group a) := by
  induction h generalizing a with
  | init => exact hinit
  | insert h hk hrun ih =>
    rcases insert_cases h.inv.shape h.inv.sound hk hrun with ⟨x, hx, -⟩ | ⟨-, c, g', hr, hg', hstep⟩
    . cases hx
    . rw [hstep.group a ha]
      split
      . exact hins _ _ _ _ hk (h.inv.sound c hr.isLeaf) (ih hr.isLeaf) hg'
      . exact ih ha
  | update h hrun ih =>
    rcases update_cases h.inv.shape (fun a ha => (h.inv.sound a ha).unlocked) hrun with
      rfl | ⟨c, g', hc, hg', hstep⟩
    . exact ih ha
    . rw [hstep.group a ha]
      split
      . exact hupd _ _ _ _ (ih hc) hg'
      . exact ih ha

section Runs

variable (b : Build) (hash : Key → Fin leafSpanSize) (cache : Cache)

def insertAll (i : ι) : List (Key × Value) → Mem ι → Option (Mem ι)
  | [], m => some m
  | (k, v) :: kvs, m =>
    match (insert b hash 1 cache k v).run (exec i) m with
    | some (.ok (), m) => insertAll i kvs m
    | _ => none

end Runs

theorem Reachable.insertAll {kvs : List (Key × Value)} (h : Reachable b hash cache id m)
    (hkvs : ∀ kv ∈ kvs, kv.1 ≠ kkeyNull) (hrun : insertAll b hash cache i kvs m = some m')
    : Reachable b hash cache id m' := by
  induction kvs generalizing m with
  | nil => exact Option.some.inj hrun ▸ h
  | cons kv kvs ih =>
    obtain ⟨k, v⟩ := kv
    unfold Hop.insertAll at hrun
    split at hrun
    . next m₁ hfirst =>
      apply ih (h.insert (hkvs (k, v) List.mem_cons_self) hfirst) _ hrun
      exact fun kv hkv => hkvs kv (List.mem_cons_of_mem _ hkv)
    . cases hrun

/-- The leaf that the sample keys from 1000001 on lead to. -/
def sampleLeaf : GlobalAddress := GlobalAddress.of 0 8389616

theorem sampleLeaf_eq (vacancyAwareLock : Bool)
    : Build.getLeafAddress ⟨vacancyAwareLock, false⟩ 3 = some sampleLeaf := by
  cases vacancyAwareLock with
  | false => decide
  | true => decide

theorem sampleLeaf_isLeaf (vacancyAwareLock : Bool) : Build.IsLeaf ⟨vacancyAwareLock, false⟩ sampleLeaf :=
  ⟨3, sampleLeaf_eq vacancyAwareLock⟩

theorem exists_run {P : RolexCache → Mem Unit → Bool} {b : Build} {kvs : List (Key × Value)}
    (hkvs : ∀ kv ∈ kvs, kv.1 ≠ kkeyNull)
    (h : ((RolexCache.new sampleKeys).bind (fun C => (insertAll b getHashedLeafEntryIndex C.toCache () kvs
      (Mem.init b (fun _ => 0))).map (P C))) = some true)
    : ∃ (C : RolexCache) (m : Mem Unit), RolexCache.new sampleKeys = some C
        ∧ insertAll b getHashedLeafEntryIndex C.toCache () kvs (Mem.init b (fun _ => 0)) = some m
        ∧ Reachable b getHashedLeafEntryIndex C.toCache (fun _ => 0) m ∧ P C m = true := by
  obtain ⟨C, hC, hrun⟩ := Option.bind_eq_some_iff.mp h
  obtain ⟨m, hm, hP⟩ := Option.map_eq_some_iff.mp hrun
  exact ⟨C, m, hC, hm, Reachable.init.insertAll hkvs hm, hP⟩

/--
When `hopscotch_insert_and_unlock` has returned false, whichever window of the leaf was fetched, the split
goes through and divides the records just for a splittable leaf. A leaf that stores no key twice is one.
-/
theorem hopscotch_split_after_failed_insert_iff {leaf : HopNode} {fetched : HopRecords} {entryNum : Nat}
    (hinv : leaf.records.Inv hash) (hk : k ≠ kkeyNull) (hnum : 1 ≤ entryNum)
    (hfetched : AgreeOn (hash k).val ((hash k).val + entryNum - 1) leaf.records fetched)
    (hfail : hopscotchInsert hash fetched k v entryNum = .ok none) (synonymAddr : GlobalAddress)
    : ((criticalKeys hash leaf.records (hash k).val ≠ []
          ∧ ∃ leaf' syn, hopscotchSplit hash leaf k v synonymAddr = .ok (leaf', syn)
              ∧ SplitInto hash leaf.records k v leaf'.records syn.records)
        ↔ Splittable hash leaf.records k)
      ∧ (leaf.records.Distinct → ¬ leaf.records.Stores k → Splittable hash leaf.records k) := by
  have hhome : (leaf.records.get (hash k)).key ≠ kkeyNull := by
    have hne := home_ne_null_of_fail hnum hfail
    have heq := hfetched (hash k).val (by omega) (by omega)
    rw [HopRecords.getEntry_val, HopRecords.getEntry_val] at heq
    rw [heq]
    exact hne
  have hcrit := criticalKeys_ne_nil hhome
  refine ⟨?_, splittable_of_distinct hinv hcrit hk⟩
  rw [← hopscotchSplit_ok_iff hinv hcrit v synonymAddr, and_iff_right hcrit]
  constructor
  . rintro ⟨leaf', syn, hok, -⟩
    exact ⟨leaf', syn, hok⟩
  . rintro ⟨leaf', syn, hok⟩
    exact ⟨leaf', syn, hok, (splitInto_of_ok hinv hk hok).1⟩

/-- A leaf whose eight records have all hashed to slot 0. -/
def oneHomeLeaf : HopNode where
  metadata := ⟨⟨0, 0⟩, GlobalAddress.null⟩
  records := Vector.ofFn fun p =>
    if p.val < neighborSize then
      ⟨⟨0, 0⟩, if p = 0 then BitVec.allOnes neighborSize else 0, 0, int2key (p.val + 1), 7⟩
    else
      HopEntry.null

set_option maxRecDepth 10000 in
theorem hopscotch_split_of_oneHomeLeaf
    : hopscotchInsert (fun _ => 0) oneHomeLeaf.records (int2key 9) 5 leafSpanSize = .ok none
        ∧ criticalKeys (fun _ => 0) oneHomeLeaf.records 0 ≠ []
        ∧ ∃ leaf' syn, hopscotchSplit (fun _ => 0) oneHomeLeaf (int2key 9) 5 sampleLeaf = .ok (leaf', syn)
            ∧ SplitInto (fun _ => 0) oneHomeLeaf.records (int2key 9) 5 leaf'.records syn.records
            ∧ leaf'.records.Distinct ∧ syn.records.Distinct := by
  have hinv : oneHomeLeaf.records.Inv fun _ => 0 := ⟨by decide +kernel, by decide +kernel⟩
  have hfail : hopscotchInsert (fun _ => 0) oneHomeLeaf.records (int2key 9) 5 leafSpanSize
      = .ok none := by
    decide +kernel
  have hdist : oneHomeLeaf.records.Distinct := by decide +kernel
  have hfresh : ¬ oneHomeLeaf.records.Stores (int2key 9) := by decide +kernel
  obtain ⟨hiff, hsplittable⟩ := hopscotch_split_after_failed_insert_iff hinv (by decide +kernel) (by decide)
    (fun _ _ _ => rfl) hfail sampleLeaf
  obtain ⟨hcrit, leaf', syn, hok, hinto⟩ := hiff.mpr (hsplittable hdist hfresh)
  exact ⟨hfail, hcrit, leaf', syn, hok, hinto, hinto.distinct hdist hfresh⟩

/-- Seven copies of one key and a second key, all of home 15. -/
def sameHomePairs : List (Key × Value) :=
  ([1000006, 1000052] ++ List.replicate 6 1000006).map fun n => (int2key n, 7)

set_option maxRecDepth 10000 in
/--
The existing-key test looks at no slot when the window is the whole ring, and so six inserts store 1000006
again. The split for 1000087 then moves all eight records to the synonym leaf, where the hop fails.
-/
theorem split_after_failed_insert_asserts
    : ∃ (C : RolexCache) (m m' : Mem Unit) (a : GlobalAddress), RolexCache.new sampleKeys = some C
        ∧ Build.getLeafAddress ⟨true, true⟩ 3 = some a
        ∧ Reachable ⟨true, true⟩ getHashedLeafEntryIndex C.toCache (fun _ => 0) m
        ∧ (m.node a).records.Inv getHashedLeafEntryIndex ∧ ¬ (m.node a).records.Stores (int2key 1000087)
        ∧ hopscotchInsert getHashedLeafEntryIndex (m.node a).records (int2key 1000087) 7 leafSpanSize = .ok none
        ∧ hopscotchSplit getHashedLeafEntryIndex (m.node a) (int2key 1000087) 7 sampleLeaf = .error .hopFails
        ∧ (insert ⟨true, true⟩ getHashedLeafEntryIndex 1 C.toCache (int2key 1000087) 7).run (exec ()) m
            = some (.error .hopFails, m') := by
  have ha : Build.getLeafAddress ⟨true, true⟩ 3 = some (GlobalAddress.of 0 8389640) := by decide
  have hrun : ((RolexCache.new sampleKeys).bind (fun C => (insertAll ⟨true, true⟩ getHashedLeafEntryIndex
      C.toCache () sameHomePairs (Mem.init ⟨true, true⟩ (fun _ => 0))).map (fun m : Mem Unit =>
        decide (¬ (m.node (GlobalAddress.of 0 8389640)).records.Stores (int2key 1000087)
          ∧ hopscotchInsert getHashedLeafEntryIndex (m.node (GlobalAddress.of 0 8389640)).records
              (int2key 1000087) 7 leafSpanSize = .ok none
          ∧ hopscotchSplit getHashedLeafEntryIndex (m.node (GlobalAddress.of 0 8389640)) (int2key 1000087) 7
              sampleLeaf = .error .hopFails
          ∧ ((insert ⟨true, true⟩ getHashedLeafEntryIndex 1 C.toCache (int2key 1000087) 7).run (exec ())
              m).map Prod.fst = some (.error .hopFails))))) = some true := by
    decide +kernel
  obtain ⟨C, m, hC, -, hreach, hP⟩ := exists_run (by decide) hrun
  obtain ⟨hfresh, hfail, hsplit, hins⟩ := of_decide_eq_true hP
  obtain ⟨⟨res, m'⟩, hins, rfl⟩ := Option.map_eq_some_iff.mp hins
  exact ⟨C, m, m', _, hC, ha, hreach, (hreach.inv.sound _ ⟨3, ha⟩).leaf, hfresh, hfail, hsplit, hins⟩

end Hop

end Rolex

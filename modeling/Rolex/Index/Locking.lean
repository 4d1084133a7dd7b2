import Rolex.Index.LockTrace
import Rolex.Index.Sequential

/-!
This module contains the calls of the index as they run in any interleaving of the operations of any
number of clients: the clients lock a leaf one at a time, only the one that holds the lock writes the
leaf or its synonym leaf, and together they do what the calls do one after another.
-/

namespace Rolex

section Sat

variable {ι : Type} [DecidableEq ι] {m₀ : Mem ι} {w : IndexWorld ι} {i : ι} {c : Call}
variable {a : GlobalAddress} {v : BitVec 64} {g cur : Group}

/-- The pointers that client `i` has seen are still the pointers of the leaves. -/
def Knows (l : List (GlobalAddress × LeafNode)) (w : IndexWorld ι) : Prop :=
  ∀ p ∈ l, IsLeaf p.1 → p.2.metadata.synonymPtr ≠ GlobalAddress.null →
    w.mem.ptr p.1 = p.2.metadata.synonymPtr

omit [DecidableEq ι] in
theorem Knows.nil : Knows [] w := by
  intro p hp
  cases hp

omit [DecidableEq ι] in
theorem Knows.of_ptr_eq {l : List (GlobalAddress × LeafNode)} {w' : IndexWorld ι} (h : Knows l w)
    (hptr : w'.mem.ptr = w.mem.ptr)
    : Knows l w' := by
  unfold Knows
  rw [hptr]
  exact h

theorem Knows.rely {l : List (GlobalAddress × LeafNode)} {w' : IndexWorld ι} (h : Knows l w)
    (hr : Rely m₀ i w w')
    : Knows l w' := by
  intro p hp hleaf hnull
  have heq := h p hp hleaf hnull
  rw [hr.ptr hleaf (by rwa [heq]), heq]

omit [DecidableEq ι] in
theorem Knows.node {l : List (GlobalAddress × LeafNode)} (h : Knows l w) (b : GlobalAddress)
    : Knows (l ++ [(b, w.mem.node b)]) w := by
  intro p hp
  rcases List.mem_append.mp hp with hp | hp
  . exact h p hp
  . obtain rfl := List.mem_singleton.mp hp
    exact fun _ _ => rfl

theorem fetchNodes_sat {l : List (GlobalAddress × LeafNode)} (addrs : List GlobalAddress)
    (h : Sound m₀ w) (hk : Knows l w)
    : (fetchNodes addrs).Sat exec i c (Rely m₀ i) (Guarantee m₀ i)
        (fun leaves w' => Sound m₀ w' ∧ Knows (l ++ addrs.zip leaves) w') w := by
  induction addrs generalizing w l with
  | nil =>
    intro w' hr
    simpa using ⟨hr.sound h, hk.rely hr⟩
  | cons b addrs ih =>
    intro w' hr
    obtain ⟨hg, hs⟩ := (hr.sound h).perform_read (i := i) (c := c) b
    refine ⟨hg, ?_⟩
    have hk' : Knows (l ++ [(b, w'.mem.node b)]) (w'.perform exec i c (.read b)) :=
      (hk.rely hr).node b
    apply Prog.Sat.bind (Rely.refl m₀ i) (ih hs hk')
    intro leaves w₁ hw₁ w₂ hr₂
    refine ⟨hr₂.sound hw₁.1, ?_⟩
    have heq : l ++ (b :: addrs).zip (w'.mem.node b :: leaves)
        = l ++ [(b, w'.mem.node b)] ++ addrs.zip leaves := by
      simp
    exact heq ▸ hw₁.2.rely hr₂

/-- `lock_node` returns as the holder of the lock, with the group as the last holder left it. -/
theorem acquire_sat (ha : IsLeaf a) {l : List (GlobalAddress × LeafNode)} (attempts : Nat)
    (h : Sound m₀ w) (hk : Knows l w)
    : (lockNode.acquire a attempts).Sat exec i c (Rely m₀ i) (Guarantee m₀ i)
        (fun v w' => Knows l w' ∧ ∃ g, Holding m₀ i a v g g w') w := by
  induction attempts generalizing w with
  | zero => trivial
  | succ attempts ih =>
    simp only [lockNode.acquire, Prog.call_bind, Prog.pure_eq]
    intro w' hr
    have hs := hr.sound h
    have hk' := hk.rely hr
    by_cases hfree : w'.mem.Unlocked a
    . have hexec := exec_lock_of_unlocked (i := i) hfree
      obtain ⟨hg, hh⟩ := hs.perform_acquire (i := i) (c := c)
        (o := .casMask a 0 (~~~0) lockBit (~~~0)) ha hfree (by rw [hexec])
        (by rw [hexec]; exact if_pos hfree) (by simp) (by simp)
      have hbit : 0 &&& lockBit = w'.mem.lock a &&& lockBit := hfree
      refine ⟨hg, ?_⟩
      rw [hexec]
      dsimp only
      rw [if_pos hbit]
      intro w₁ hr₁
      refine ⟨Knows.rely (hk'.of_ptr_eq ?_) hr₁, _, hh.rely ha hr₁⟩
      rw [World.perform, hexec]
      rfl
    . have hexec := exec_lock_of_locked (i := i) hfree
      obtain ⟨hg, hs'⟩ := hs.perform_same (i := i) (c := c)
        (o := .casMask a 0 (~~~0) lockBit (~~~0)) (by simp) (by simp)
        (by rw [hexec]; exact if_neg hfree) (by rw [hexec])
      have hbit : ¬ 0 &&& lockBit = w'.mem.lock a &&& lockBit := hfree
      refine ⟨hg, ?_⟩
      rw [hexec]
      dsimp only
      rw [if_neg hbit]
      apply ih hs' (hk'.of_ptr_eq _)
      rw [World.perform, hexec]

theorem lockNode_sat (ha : IsLeaf a) {l : List (GlobalAddress × LeafNode)} (h : Sound m₀ w)
    (hk : Knows l w)
    : (lockNode a).Sat exec i c (Rely m₀ i) (Guarantee m₀ i)
        (fun v w' => Knows l w' ∧ ∃ g, Holding m₀ i a v g g w') w :=
  acquire_sat ha 10000002 h hk

theorem unlockNode_sat (h : Holding m₀ i a v g cur w) (ha : IsLeaf a)
    (hserial : ∀ {cs}, Serial (m₀.group a) cs g → Serial (m₀.group a) (cs ++ [c]) cur)
    : (unlockNode a v).Sat exec i c (Rely m₀ i) (Guarantee m₀ i) (fun _ w' => Sound m₀ w') w := by
  intro w' hr
  have h' := h.rely ha hr
  obtain ⟨hg, hs⟩ := h'.perform_release ha (hserial h'.serial)
  exact ⟨hg, fun _ hr' => hr'.sound hs⟩

theorem writeLeaf_sat {rest : Unit → ProgM Unit} {n : LeafNode}
    {Q : Unit → IndexWorld ι → Prop} (h : Holding m₀ i a v g cur w) (ha : IsLeaf a)
    (hn : n.metadata.synonymPtr = cur.leaf.metadata.synonymPtr)
    (hrest : ∀ w', Holding m₀ i a v g { cur with leaf := n } w' →
      (rest ()).Sat exec i c (Rely m₀ i) (Guarantee m₀ i) Q w')
    : (Prog.op (.write a n) rest : ProgM Unit).Sat exec i c (Rely m₀ i) (Guarantee m₀ i) Q w := by
  intro w' hr
  obtain ⟨hg, hh⟩ := (h.rely ha hr).perform_writeLeaf (c := c) ha hn
  exact ⟨hg, hrest _ hh⟩

theorem writeSyn_sat {rest : Unit → ProgM Unit} {n : LeafNode} {d : GlobalAddress}
    {Q : Unit → IndexWorld ι → Prop} (h : Holding m₀ i a v g cur w) (ha : IsLeaf a)
    (hd : cur.leaf.metadata.synonymPtr = d) (hnull : d ≠ GlobalAddress.null)
    (hrest : ∀ w', Holding m₀ i a v g { cur with syn := some n } w' →
      (rest ()).Sat exec i c (Rely m₀ i) (Guarantee m₀ i) Q w')
    : (Prog.op (.write d n) rest : ProgM Unit).Sat exec i c (Rely m₀ i) (Guarantee m₀ i) Q w := by
  subst hd
  intro w' hr
  obtain ⟨hg, hh⟩ := (h.rely ha hr).perform_writeSyn (c := c) (n := n) ha hnull
  exact ⟨hg, hrest _ hh⟩

theorem link_sat {rest : Unit → ProgM Unit} {n s : LeafNode} {d : GlobalAddress}
    {Q : Unit → IndexWorld ι → Prop} (h : Holding m₀ i a v g cur w) (ha : IsLeaf a)
    (hnull : cur.leaf.metadata.synonymPtr = GlobalAddress.null)
    (hn : n.metadata.synonymPtr = d) (hmine : Mine i d w)
    (hrest : ∀ w', Holding m₀ i a v g ⟨n, some s⟩ w' →
      (rest ()).Sat exec i c (Rely m₀ i) (Guarantee m₀ i) Q w')
    : (Prog.op (.write a n) (fun _ => .op (.write d s) rest) : ProgM Unit).Sat exec i c (Rely m₀ i)
        (Guarantee m₀ i) Q w := by
  subst hn
  intro w' hr
  have hmine' := hr.mine hmine
  have h' := h.rely ha hr
  obtain ⟨hg, t, hh⟩ := h'.perform_link (c := c) ha hnull hmine'
  exact ⟨hg, writeSyn_sat hh ha rfl (hmine'.fresh h'.sound).ne_null hrest⟩

theorem Holding.syn_eq (h : Holding m₀ i a v g cur w)
    : cur.syn
        =
      if cur.leaf.metadata.synonymPtr = GlobalAddress.null then
        none
      else
        some (w.mem.node cur.leaf.metadata.synonymPtr) := by
  rw [← h.ptr_eq, ← h.cur]
  rfl

theorem Holding.ptr_ne_null (h : Holding m₀ i a v g cur w) (hsyn : cur.syn ≠ none)
    : cur.leaf.metadata.synonymPtr ≠ GlobalAddress.null := by
  intro hnull
  apply hsyn
  rw [h.syn_eq, if_pos hnull]

theorem Holding.ptr_eq_null (h : Holding m₀ i a v g cur w) (hsyn : cur.syn = none)
    : cur.leaf.metadata.synonymPtr = GlobalAddress.null := by
  by_contra hnull
  rw [h.syn_eq, if_neg hnull] at hsyn
  cases hsyn

/-- Step 4 of an insert: the lock is released with the group as the insert alone would leave it. -/
theorem writePlan_sat (k : Key) (val : Value) (h : Holding m₀ i a v g g w) (ha : IsLeaf a)
    : (writePlan a g.leaf.metadata.synonymPtr v (insertLocally k val g.leaf g.syn)).Sat exec i
        (.insert k val) (Rely m₀ i) (Guarantee m₀ i) (fun _ w' => Sound m₀ w') w := by
  have hfits := insertLocally_fits k val g.leaf g.syn
  have hserial : ∀ {addr cs}, addr ≠ GlobalAddress.null → Serial (m₀.group a) cs g →
      Serial (m₀.group a) (cs ++ [.insert k val])
        ((insertLocally k val g.leaf g.syn).apply addr g) :=
    fun haddr hs => hs.insert haddr
  have hone : GlobalAddress.max ≠ GlobalAddress.null := by decide
  generalize insertLocally k val g.leaf g.syn = plan at hfits hserial
  cases plan with
  | existing => exact unlockNode_sat h ha (hserial hone)
  | writeLeaf leaf =>
    apply writeLeaf_sat h ha
    . rw [LeafNode.bumpNodeVersions_synonymPtr, hfits]
    . intro w₁ h₁
      exact unlockNode_sat h₁ ha (hserial hone)
  | writeSyn synLeaf o =>
    apply writeSyn_sat h ha rfl (h.ptr_ne_null hfits)
    intro w₁ h₁
    exact unlockNode_sat h₁ ha (hserial hone)
  | writeBoth leaf synLeaf o =>
    have hmeta : leaf.bumpNodeVersions.metadata.synonymPtr = g.leaf.metadata.synonymPtr := by
      rw [LeafNode.bumpNodeVersions_synonymPtr, hfits.1]
    apply writeLeaf_sat h ha hmeta
    intro w₁ h₁
    apply writeSyn_sat h₁ ha hmeta (h.ptr_ne_null hfits.2)
    intro w₂ h₂
    exact unlockNode_sat h₂ ha (hserial hone)
  | link leaf synLeaf =>
    intro w₁ hr
    have h₁ := h.rely ha hr
    obtain ⟨hg, hs, hmine⟩ := h₁.sound.perform_alloc (i := i) (c := .insert k val)
    refine ⟨hg, ?_⟩
    have h₂ := h₁.spared hs (by intro l hl; cases hl)
    have hgroup : (exec i .allocLeaf w₁.mem).2.group a = g := h₁.cur
    rw [hgroup] at h₂
    generalize (exec i .allocLeaf w₁.mem).1 = res at hmine
    cases res with
    | none => trivial
    | some addr =>
      apply link_sat h₂ ha (h.ptr_eq_null hfits.2) rfl (hmine addr rfl)
      intro w₃ h₃
      exact unlockNode_sat h₃ ha (hserial ((hmine addr rfl).fresh hs).ne_null)

theorem fetchSyn_sat (h : Holding m₀ i a v g g w) (ha : IsLeaf a)
    : (fetchSyn g.leaf).Sat exec i c (Rely m₀ i) (Guarantee m₀ i)
        (fun synLeaf w' => synLeaf = g.syn ∧ Holding m₀ i a v g g w') w := by
  unfold fetchSyn
  split
  . next hnull =>
    intro w' hr
    have h' := h.rely ha hr
    refine ⟨?_, h'⟩
    rw [h'.syn_eq, if_pos hnull]
  . next hnull =>
    intro w' hr
    have h' := h.rely ha hr
    obtain ⟨hg, h₁⟩ := h'.perform_read (c := c) g.leaf.metadata.synonymPtr
    refine ⟨hg, fun w₂ hr₂ => ⟨?_, h₁.rely ha hr₂⟩⟩
    rw [h'.syn_eq, if_neg hnull]
    rfl

theorem insertLocked_sat (k : Key) (val : Value) (h : Sound m₀ w) (ha : IsLeaf a)
    : (insertLocked k val a).Sat exec i (.insert k val) (Rely m₀ i) (Guarantee m₀ i)
        (fun _ w' => Sound m₀ w') w := by
  apply Prog.Sat.bind (Rely.refl m₀ i) (lockNode_sat ha h Knows.nil)
  rintro v w₁ ⟨-, g, h₁⟩ w₂ hr₂
  have h₂ := h₁.rely ha hr₂
  obtain ⟨hg, h₃⟩ := h₂.perform_read (c := .insert k val) a
  refine ⟨hg, ?_⟩
  have hleaf : (exec i (.read a) w₂.mem).1 = g.leaf := h₂.node_eq
  rw [hleaf]
  apply Prog.Sat.bind (Rely.refl m₀ i) (fetchSyn_sat h₃ ha)
  rintro _ w₄ ⟨rfl, h₄⟩
  apply Prog.Sat.bind (Rely.refl m₀ i) (writePlan_sat k val h₄ ha)
  intro _ w₅ hs w₆ hr₆
  exact hr₆.sound hs

theorem insert_sat (cache : Cache) (k : Key) (val : Value) (h : Sound m₀ w)
    : (insert cache k val).Sat exec i (.insert k val) (Rely m₀ i) (Guarantee m₀ i)
        (fun _ w' => Sound m₀ w') w := by
  unfold insert
  cases cache.searchFromCacheForInsert k with
  | none => trivial
  | some res =>
    obtain ⟨l, r, insertIdx⟩ := res
    simp only [Prog.check_some, Prog.ret_bind]
    cases leafAddresses l r with
    | none => trivial
    | some leafAddrs =>
      simp only [Prog.check_some, Prog.ret_bind]
      apply Prog.Sat.bind (Rely.refl m₀ i) (fetchNodes_sat leafAddrs h Knows.nil)
      rintro _ w₁ ⟨hs, -⟩
      cases ha : getLeafAddress insertIdx with
      | none => trivial
      | some a => exact insertLocked_sat k val hs ⟨insertIdx, ha⟩

/-- What `_search` has found out for an update: the leaf to lock, and the node to look at first. -/
def Located (leafAddr a : GlobalAddress) (w : IndexWorld ι) : Prop :=
  IsLeaf a ∧ (leafAddr = a ∨ (leafAddr ≠ GlobalAddress.null ∧ w.mem.ptr a = leafAddr))

theorem searchAux_sat (cache : Cache) (k : Key) (h : Sound m₀ w)
    : (searchAux cache k).Sat exec i c (Rely m₀ i) (Guarantee m₀ i)
        (fun res w' => Sound m₀ w'
          ∧ ∀ val leafAddr a, res = some (val, leafAddr, a) → Located leafAddr a w') w := by
  unfold searchAux
  cases cache.searchFromCache k with
  | none => trivial
  | some res =>
    obtain ⟨l, r⟩ := res
    simp only [Prog.check_some, Prog.ret_bind]
    cases hl : leafAddresses l r with
    | none => trivial
    | some leafAddrs =>
      simp only [Prog.check_some, Prog.ret_bind]
      apply Prog.Sat.bind (Rely.refl m₀ i) (fetchNodes_sat leafAddrs h Knows.nil)
      rintro leaves w₁ ⟨hs₁, hk₁⟩
      apply Prog.Sat.bind (Rely.refl m₀ i) (fetchNodes_sat _ hs₁ hk₁)
      rintro synLeaves w₂ ⟨hs₂, hk₂⟩ w₃ hr₃
      refine ⟨hr₃.sound hs₂, ?_⟩
      intro val leafAddr a hfind
      have hleaf : ∀ {b leaf}, (b, leaf) ∈ leafAddrs.zip leaves → IsLeaf b := by
        intro b leaf hmem
        obtain ⟨leafIdx, -, -, hidx⟩ := (mem_leafAddresses hl b).mp (List.of_mem_zip hmem).1
        exact ⟨leafIdx, hidx⟩
      obtain ⟨leaf, hmem, -⟩ := mem_of_findKey hfind
      rcases List.mem_append.mp hmem with hmem | hmem
      . obtain ⟨p, hp, heq⟩ := List.mem_map.mp hmem
        simp only [Prod.mk.injEq] at heq
        obtain ⟨rfl, rfl, rfl⟩ := heq
        exact ⟨hleaf hp, .inl rfl⟩
      . obtain ⟨p, hp, heq⟩ := List.mem_map.mp hmem
        simp only [Prod.mk.injEq] at heq
        obtain ⟨rfl, rfl, rfl⟩ := heq
        obtain ⟨hnull, leaf', hmem', hptr⟩ := mem_appendLeafAddrs.mp (List.of_mem_zip hp).1
        have hknown := hk₂.rely hr₃ (p.1.2, leaf')
          (List.mem_append_left _ (List.mem_append_right _ hmem')) (hleaf hmem') (by rwa [hptr])
        exact ⟨hleaf hmem', .inr ⟨hnull, hknown.trans hptr⟩⟩

theorem search_sat (cache : Cache) (k : Key) (h : Sound m₀ w)
    : (search cache k).Sat exec i c (Rely m₀ i) (Guarantee m₀ i) (fun _ w' => Sound m₀ w') w := by
  apply Prog.Sat.bind (Rely.refl m₀ i) (searchAux_sat cache k h)
  rintro _ w₁ ⟨hs, -⟩ w₂ hr
  exact hr.sound hs

theorem readAnother_syn_sat (k : Key) (val : Value) (rounds : Nat) (h : Holding m₀ i a v g g w)
    (ha : IsLeaf a) {d : GlobalAddress} (hd : g.leaf.metadata.synonymPtr = d)
    (hnull : d ≠ GlobalAddress.null)
    : (updateLocked.readAnother k val a v d (rounds + 1)).Sat exec i (.update k val) (Rely m₀ i)
        (Guarantee m₀ i) (fun _ w' => Sound m₀ w') w := by
  simp only [updateLocked.readAnother, fetchNode, Prog.call_bind]
  intro w₁ hr₁
  have h₁ := h.rely ha hr₁
  obtain ⟨hg, h₂⟩ := h₁.perform_read (c := .update k val) d
  refine ⟨hg, ?_⟩
  have hsyn : g.syn = some (w₁.mem.node d) := by
    rw [h₁.syn_eq, hd, if_neg hnull]
  have hread : (exec i (.read d) w₁.mem).1 = w₁.mem.node d := rfl
  rw [hread]
  dsimp only
  cases hup : updateLocally k val (w₁.mem.node d) with
  | some n =>
    apply writeSyn_sat h₂ ha hd hnull
    intro w₃ h₃
    exact unlockNode_sat h₃ ha (fun hs => hs.update (.syn hsyn hup))
  | none =>
    have hne : d ≠ a := by
      have := h₁.sound.shape.ptr_ne ha (by rwa [h₁.ptr_eq, hd]) ha
      rwa [h₁.ptr_eq, hd] at this
    simp only [hne, false_and, if_false]
    trivial

theorem readAnother_leaf_sat (k : Key) (val : Value) (h : Holding m₀ i a v g g w) (ha : IsLeaf a)
    : (updateLocked.readAnother k val a v a 2).Sat exec i (.update k val) (Rely m₀ i)
        (Guarantee m₀ i) (fun _ w' => Sound m₀ w') w := by
  rw [updateLocked.readAnother]
  simp only [fetchNode, Prog.call_bind]
  intro w₁ hr₁
  have h₁ := h.rely ha hr₁
  obtain ⟨hg, h₂⟩ := h₁.perform_read (c := .update k val) a
  refine ⟨hg, ?_⟩
  have hread : (exec i (.read a) w₁.mem).1 = g.leaf := h₁.node_eq
  rw [hread]
  dsimp only
  cases hup : updateLocally k val g.leaf with
  | some n =>
    apply writeLeaf_sat h₂ ha
    . rw [LeafNode.bumpNodeVersions_synonymPtr, updateLocally_metadata hup]
    . intro w₃ h₃
      exact unlockNode_sat h₃ ha (fun hs => hs.update (.leaf hup))
  | none =>
    dsimp only
    split
    . next hnext => exact readAnother_syn_sat k val 0 h₂ ha rfl hnext.2
    . trivial

theorem updateLocked_sat (k : Key) (val : Value) {leafAddr : GlobalAddress} (h : Sound m₀ w)
    (hloc : Located leafAddr a w)
    : (updateLocked k val leafAddr a).Sat exec i (.update k val) (Rely m₀ i) (Guarantee m₀ i)
        (fun _ w' => Sound m₀ w') w := by
  have ha := hloc.1
  have hk : Knows [(a, w.mem.node a)] w := Knows.nil.node a
  apply Prog.Sat.bind (Rely.refl m₀ i) (lockNode_sat ha h hk)
  rintro v w₁ ⟨hk₁, g, h₁⟩
  rcases hloc.2 with rfl | ⟨hnull, hptr⟩
  . exact readAnother_leaf_sat k val h₁ ha
  . have hptr₁ : w₁.mem.ptr a = leafAddr := by
      rw [← hptr]
      exact hk₁ _ (List.mem_singleton.mpr rfl) ha (fun e => hnull (hptr.symm.trans e))
    exact readAnother_syn_sat k val 1 h₁ ha (h₁.ptr_eq.symm.trans hptr₁) hnull

theorem update_sat (cache : Cache) (k : Key) (val : Value) (h : Sound m₀ w)
    : (update cache k val).Sat exec i (.update k val) (Rely m₀ i) (Guarantee m₀ i)
        (fun _ w' => Sound m₀ w') w := by
  apply Prog.Sat.bind (Rely.refl m₀ i) (searchAux_sat cache k h)
  rintro res w₁ ⟨hs, hloc⟩
  cases res with
  | none => exact fun w₂ hr => hr.sound hs
  | some res => exact updateLocked_sat k val hs (hloc _ _ _ rfl)

theorem body_sat (cache : Cache) (c : Call) (h : Sound m₀ w)
    : (c.body cache).Sat exec i c (Rely m₀ i) (Guarantee m₀ i) (fun _ w' => Sound m₀ w') w := by
  cases c with
  | insert k val =>
    apply Prog.Sat.bind (Rely.refl m₀ i) (insert_sat cache k val h)
    exact fun _ _ hs _ hr => hr.sound hs
  | update k val =>
    apply Prog.Sat.bind (Rely.refl m₀ i) (update_sat cache k val h)
    exact fun _ _ hs _ hr => hr.sound hs
  | search k =>
    apply Prog.Sat.bind (Rely.refl m₀ i) (search_sat cache k h)
    exact fun _ _ hs _ hr => hr.sound hs

variable (m₀) in
theorem index_relyGuarantee (cache : Cache)
    : RelyGuarantee exec (fun _ => Call.body cache) (Rely m₀) (Guarantee m₀) (fun _ => Sound m₀)
        (fun _ _ => True) where
  refl := Rely.refl m₀
  trans := fun _ _ _ _ => Rely.trans
  compat := fun hij hg => hg.2 _ (fun e => hij e.symm)
  stable := fun hs hr => hr.sound hs
  sat := fun hs _ => body_sat cache _ hs

theorem sound_init (hshape : m₀.Shape) (hfree : ∀ a, IsLeaf a → m₀.Unlocked a)
    : Sound m₀ ⟨m₀, []⟩ where
  mem := rfl
  shape := hshape
  leaf := by
    intro a ha
    refine ⟨disciplined_nil a m₀, ?_, ?_, fun _ => ⟨hfree a ha, .nil⟩⟩
    . intro i j v v' hi
      cases hi
    . intro i v hi
      cases hi
  alloc := by
    rintro i addr ⟨c, hmem⟩
    cases hmem
  owner := by
    rintro i j addr ⟨c, hmem⟩
    cases hmem

theorem sound_of_steps {cache : Cache} {calls : ι → List Call}
    {S : System ι Call Answer Op Op.Res (Mem ι)} (hshape : m₀.Shape)
    (hfree : ∀ a, IsLeaf a → m₀.Unlocked a)
    (hsteps : System.Steps exec (fun _ => Call.body cache) (System.init m₀ calls) S)
    : Sound m₀ S.world := by
  have hinit := sound_init hshape hfree
  apply ((index_relyGuarantee m₀ cache).steps (fun hg => hg.1) ?_ hinit hsteps).2
  apply clientOk_init
  . exact fun _ => hinit
  . exact fun _ _ _ => trivial

end Sat

section Path

variable {a : GlobalAddress} {v : BitVec 64} {k : Key} {val : Value}

def lockOps (l : List ((o : Op) × o.Res)) : List LockOp := l.filterMap (fun e => lockOp e.1 e.2)

@[simp]
theorem lockOps_append (l₁ l₂ : List ((o : Op) × o.Res))
    : lockOps (l₁ ++ l₂) = lockOps l₁ ++ lockOps l₂ := List.filterMap_append

@[simp]
theorem lockOps_nil : lockOps [] = [] := rfl

@[simp]
theorem lockOps_read (b : GlobalAddress) (r : LeafNode) (l : List ((o : Op) × o.Res))
    : lockOps (⟨.read b, r⟩ :: l) = lockOps l := rfl

@[simp]
theorem lockOps_write (b : GlobalAddress) (n : LeafNode) (r : Unit) (l : List ((o : Op) × o.Res))
    : lockOps (⟨.write b n, r⟩ :: l) = lockOps l := rfl

@[simp]
theorem lockOps_alloc (size : Nat) (r : Option GlobalAddress) (l : List ((o : Op) × o.Res))
    : lockOps (⟨.alloc size, r⟩ :: l) = lockOps l := rfl

theorem lockOps_casMask (b : GlobalAddress) (equal val compareMask swapMask old : BitVec 64)
    (l : List ((o : Op) × o.Res))
    : lockOps (⟨.casMask b equal val compareMask swapMask, old⟩ :: l)
        =
      if equal &&& compareMask = old &&& compareMask then
        .acquired b old :: lockOps l
      else
        lockOps l := by
  simp only [lockOps, lockOp, List.filterMap_cons]
  split
  . next h =>
    split at h
    . cases h
    . next hne => rw [if_neg hne]
  . next h =>
    split at h
    . next heq =>
      obtain rfl := Option.some.inj h
      rw [if_pos heq]
    . cases h

theorem acquire_path {attempts : Nat} {l : List ((o : Op) × o.Res)}
    (h : (lockNode.acquire a attempts).Path l v)
    : lockOps l = [.acquired a v] := by
  induction attempts generalizing l with
  | zero => exact h.elim
  | succ attempts ih =>
    simp only [lockNode.acquire, Prog.call_bind, Prog.pure_eq] at h
    obtain ⟨old, l', rfl, h⟩ := h
    dsimp only at h
    by_cases hbit : 0 &&& lockBit = old &&& lockBit
    . rw [if_pos hbit] at h
      obtain ⟨rfl, rfl⟩ := h
      rw [lockOps_casMask, if_pos hbit]
      rfl
    . rw [if_neg hbit] at h
      rw [lockOps_casMask, if_neg hbit]
      exact ih h

theorem fetchNodes_path {addrs : List GlobalAddress} {l : List ((o : Op) × o.Res)}
    {leaves : List LeafNode} (h : (fetchNodes addrs).Path l leaves)
    : lockOps l = [] := by
  induction addrs generalizing l leaves with
  | nil =>
    obtain ⟨rfl, -⟩ := h
    rfl
  | cons b addrs ih =>
    simp only [fetchNodes, fetchNode, Prog.call_bind] at h
    obtain ⟨leaf, l', rfl, h⟩ := h
    obtain ⟨leaves', l₁, l₂, h₁, ⟨rfl, -⟩, rfl⟩ := Prog.path_bind.mp h
    simpa using ih h₁

theorem fetchSyn_path {leaf : LeafNode} {l : List ((o : Op) × o.Res)} {synLeaf : Option LeafNode}
    (h : (fetchSyn leaf).Path l synLeaf)
    : lockOps l = [] := by
  unfold fetchSyn at h
  split at h
  . obtain ⟨rfl, -⟩ := h
    rfl
  . obtain ⟨s, l', rfl, rfl, -⟩ := h
    rfl

theorem writeNodesAndUnlock_path {leaves : List (GlobalAddress × LeafNode)}
    {l : List ((o : Op) × o.Res)} (h : (writeNodesAndUnlock leaves a v).Path l ())
    : lockOps l = [.released a v] := by
  induction leaves generalizing l with
  | nil =>
    obtain ⟨_, _, rfl, rfl, -⟩ := h
    rfl
  | cons e leaves ih =>
    obtain ⟨_, l', rfl, h⟩ := h
    rw [lockOps_write]
    exact ih h

theorem writePlan_path {synLeafAddr : GlobalAddress} {plan : Plan} {l : List ((o : Op) × o.Res)}
    (h : (writePlan a synLeafAddr v plan).Path l ())
    : lockOps l = [.released a v] := by
  cases plan with
  | existing =>
    have h' : (writeNodesAndUnlock [] a v).Path l () := h
    exact writeNodesAndUnlock_path h'
  | writeLeaf leaf => exact writeNodesAndUnlock_path h
  | writeSyn synLeaf o => exact writeNodesAndUnlock_path h
  | writeBoth leaf synLeaf o => exact writeNodesAndUnlock_path h
  | link leaf synLeaf =>
    obtain ⟨res, l', rfl, h⟩ := h
    cases res with
    | none => exact h.elim
    | some addr =>
      rw [lockOps_alloc]
      exact writeNodesAndUnlock_path h

theorem insert_path {cache : Cache} {l : List ((o : Op) × o.Res)} {overrun : List Nat}
    (h : (insert cache k val).Path l overrun)
    : ∃ a w, Routed cache k a ∧ lockOps l = [.acquired a w, .released a w] := by
  unfold insert at h
  cases hc : cache.searchFromCacheForInsert k with
  | none =>
    rw [hc] at h
    exact h.elim
  | some res =>
    obtain ⟨lo, hi, insertIdx⟩ := res
    simp only [hc, Prog.check_some, Prog.ret_bind] at h
    cases hl : leafAddresses lo hi with
    | none =>
      rw [hl] at h
      exact h.elim
    | some leafAddrs =>
      simp only [hl, Prog.check_some, Prog.ret_bind] at h
      obtain ⟨_, l₁, l₂, h₁, h₂, rfl⟩ := Prog.path_bind.mp h
      cases ha : getLeafAddress insertIdx with
      | none =>
        rw [ha] at h₂
        exact h₂.elim
      | some a =>
        rw [ha] at h₂
        simp only [Prog.check_some, Prog.ret_bind, insertLocked, fetchNode, Prog.call_bind] at h₂
        obtain ⟨w, l₃, l₄, h₃, ⟨leaf, l₅, rfl, h₅⟩, rfl⟩ := Prog.path_bind.mp h₂
        obtain ⟨synLeaf, l₆, l₇, h₆, h₇, rfl⟩ := Prog.path_bind.mp h₅
        obtain ⟨_, l₈, l₉, h₈, ⟨rfl, -⟩, rfl⟩ := Prog.path_bind.mp h₇
        refine ⟨a, w, ⟨lo, hi, insertIdx, leafAddrs, hc, hl, ha⟩, ?_⟩
        simp [fetchNodes_path h₁, acquire_path h₃, fetchSyn_path h₆, writePlan_path h₈]

theorem readAnother_path {leafAddr : GlobalAddress} {rounds : Nat} {l : List ((o : Op) × o.Res)}
    (h : (updateLocked.readAnother k val a v leafAddr rounds).Path l ())
    : lockOps l = [.released a v] := by
  induction rounds generalizing leafAddr l with
  | zero => exact h.elim
  | succ rounds ih =>
    simp only [updateLocked.readAnother, fetchNode, Prog.call_bind] at h
    obtain ⟨leaf, l', rfl, h⟩ := h
    rw [lockOps_read]
    dsimp only at h
    split at h
    . exact writeNodesAndUnlock_path h
    . split at h
      . exact ih h
      . exact h.elim

theorem searchAux_path {cache : Cache} {l : List ((o : Op) × o.Res)}
    {res : Option (Value × GlobalAddress × GlobalAddress)} (h : (searchAux cache k).Path l res)
    : lockOps l = [] := by
  unfold searchAux at h
  cases hc : cache.searchFromCache k with
  | none =>
    rw [hc] at h
    exact h.elim
  | some range =>
    obtain ⟨lo, hi⟩ := range
    simp only [hc, Prog.check_some, Prog.ret_bind] at h
    cases hl : leafAddresses lo hi with
    | none =>
      rw [hl] at h
      exact h.elim
    | some leafAddrs =>
      simp only [hl, Prog.check_some, Prog.ret_bind] at h
      obtain ⟨_, l₁, l₂, h₁, h₂, rfl⟩ := Prog.path_bind.mp h
      obtain ⟨_, l₃, l₄, h₃, ⟨rfl, -⟩, rfl⟩ := Prog.path_bind.mp h₂
      simp [fetchNodes_path h₁, fetchNodes_path h₃]

theorem update_path {cache : Cache} {l : List ((o : Op) × o.Res)}
    (h : (update cache k val).Path l ())
    : lockOps l = [] ∨ ∃ a w, lockOps l = [.acquired a w, .released a w] := by
  obtain ⟨res, l₁, l₂, h₁, h₂, rfl⟩ := Prog.path_bind.mp h
  rw [lockOps_append, searchAux_path h₁]
  cases res with
  | none =>
    obtain ⟨rfl, -⟩ := h₂
    exact .inl rfl
  | some res =>
    obtain ⟨_, leafAddr, a⟩ := res
    obtain ⟨w, l₃, l₄, h₃, h₄, rfl⟩ := Prog.path_bind.mp h₂
    refine .inr ⟨a, w, ?_⟩
    rw [lockOps_append, acquire_path h₃, readAnother_path h₄]
    rfl

end Path

section System

variable {ι : Type} [DecidableEq ι] {m₀ : Mem ι} {cache : Cache} {calls : ι → List Call}
variable {S : System ι Call Answer Op Op.Res (Mem ι)} {a : GlobalAddress}

/--
Any clients with any calls, in any interleaving. Two clients are never both between the successful CAS
on the lock of a leaf and the WRITE that releases it; every operation respects the lock; what is in
memory is what the operations left there; and while no client holds the lock, the leaf and its synonym
leaf are what the calls that have released it make of them one after another.
-/
theorem lock_discipline (hshape : m₀.Shape) (hfree : ∀ a, IsLeaf a → m₀.Unlocked a)
    (hsteps : System.Steps exec (fun _ => Call.body cache) (System.init m₀ calls) S) (ha : IsLeaf a)
    : (∀ i j, held a i S.world.trace ≠ none → held a j S.world.trace ≠ none → i = j)
        ∧ (∀ before e after, S.world.trace = before ++ e :: after →
            Lawful a before (replay m₀ before) e)
        ∧ S.world.mem = replay m₀ S.world.trace
        ∧ ((∀ i, held a i S.world.trace = none) →
            Serial (m₀.group a) (commits a S.world.trace) (S.world.mem.group a))
        ∧ (∀ k v l o, (insert cache k v).Path l o →
            ∃ b w, Routed cache k b ∧ lockOps l = [.acquired b w, .released b w])
        ∧ (∀ k v l, (update cache k v).Path l () →
            lockOps l = [] ∨ ∃ b w, lockOps l = [.acquired b w, .released b w]) := by
  have hsound := sound_of_steps hshape hfree hsteps
  have hleaf := hsound.leaf ha
  refine ⟨?_, hleaf.law, hsound.mem, fun hnone => (hleaf.free hnone).2,
    fun k v l o h => insert_path h, fun k v l h => update_path h⟩
  intro i j hi hj
  obtain ⟨v, hv⟩ := Option.ne_none_iff_exists'.mp hi
  obtain ⟨v', hv'⟩ := Option.ne_none_iff_exists'.mp hj
  exact hleaf.excl hv hv'

set_option maxRecDepth 10000 in
-- the second client fails to lock the leaf while the first one is working on it
theorem lock_discipline_sample
    : ∃ (C : RolexCache) (S : System Bool Call Answer Op Op.Res (Mem Bool)) (a : GlobalAddress),
        RolexCache.new sampleKeys = some C ∧ IsLeaf a
        ∧ System.Steps exec (fun _ => Call.body C.toCache) (System.init Mem.init (fun b =>
            if b then [.insert (int2key 1000002) 7] else [.insert (int2key 1000001) 7])) S
        ∧ (commits a S.world.trace).length = 2
        ∧ Serial ((Mem.init : Mem Bool).group a) (commits a S.world.trace) (S.world.mem.group a) := by
  have ha : IsLeaf (GlobalAddress.of 0 8389520) := ⟨3, by decide⟩
  have hrun : ((RolexCache.new sampleKeys).bind (fun C =>
      (System.schedule exec (fun _ => Call.body C.toCache)
        [false, false, false, true, true, true, false, false, false, true, true, true, true, true]
        (System.init Mem.init (fun b =>
          if b then [.insert (int2key 1000002) 7] else [.insert (int2key 1000001) 7]))).map
        (fun S : System Bool Call Answer Op Op.Res (Mem Bool) =>
          decide (held (GlobalAddress.of 0 8389520) false S.world.trace = none
            ∧ held (GlobalAddress.of 0 8389520) true S.world.trace = none
            ∧ (commits (GlobalAddress.of 0 8389520) S.world.trace).length = 2)))) = some true := by
    decide +kernel
  obtain ⟨C, hC, hrun⟩ := Option.bind_eq_some_iff.mp hrun
  obtain ⟨S, hS, hfacts⟩ := Option.map_eq_some_iff.mp hrun
  obtain ⟨hfalse, htrue, hlen⟩ := of_decide_eq_true hfacts
  have hsteps := System.steps_of_schedule hS
  refine ⟨C, S, _, hC, ha, hsteps, hlen, ?_⟩
  apply (lock_discipline Mem.init_shape Mem.init_inv.unlocked hsteps ha).2.2.2.1
  intro b
  cases b with
  | false => exact hfalse
  | true => exact htrue

end System

end Rolex

import Rolex.Hopscotch.Sampled
import Rolex.Speculative.HopUpdate

/-!
This module contains a search beside an insert of another client, in the `HOPSCOTCH_LEAF_NODE` builds: the
stages through which an insert takes the leaf of its key, and that a search for a key of this leaf never
returns without it.
-/

namespace Rolex

namespace Hop

variable {ι : Type} [DecidableEq ι] {i : ι} {b : Build} {hash : Key → Fin leafSpanSize}
  {rounds hashIdx entryNum : Nat} {cache : Cache} {m s : Mem ι} {a c addr : GlobalAddress}
  {n₀ leaf' syn' : HopNode} {k k' : Key} {v : Value} {α β : Type}

section Stages

def Still (n₀ : HopNode) (a : GlobalAddress) (_ : Nat) (x : Mem ι) : Prop := x.node a = n₀

/-- The records of the leaf are replaced by `r'` in one or two WRITEs. -/
def Hopping (n₀ : HopNode) (a : GlobalAddress) (r' : HopRecords) (lIdx rIdx : Nat) (n : Nat) (x : Mem ι)
    : Prop :=
  x.node a = { n₀ with records := halfway n₀.records r' lIdx rIdx n }

/-- The leaf is replaced in one WRITE, after its synonym leaf has been written. -/
def Splitting (n₀ : HopNode) (a : GlobalAddress) (leaf' : HopNode) (addr : GlobalAddress) (syn' : HopNode)
    (n : Nat) (x : Mem ι) : Prop :=
  (n = 0 → x.node a = n₀) ∧ (1 ≤ n → x.node a = leaf' ∧ x.node addr = syn')

omit [DecidableEq ι]

theorem hopping_zero {r' : HopRecords} {lIdx rIdx : Nat} (hs : s.node a = n₀)
    : Hopping n₀ a r' lIdx rIdx 0 s := by
  unfold Hopping
  rw [halfway_zero, hs]

theorem splitting_zero (hs : s.node a = n₀) : Splitting n₀ a leaf' addr syn' 0 s :=
  ⟨fun _ => hs, fun h => absurd h (by decide)⟩

end Stages

section Visible

omit [DecidableEq ι]

theorem scanNode_fetched {n : HopNode} (hinv : n.records.Inv hash) (hstores : n.records.Stores k')
    : scanNode hash ((segmentsOf b (hash k').val neighborSize n n).leaf b (hash k').val neighborSize).records k'
        ≠ .absent := by
  have hagree := agreeOn_leaf b n (hash k').isLt (show neighborSize ≤ leafSpanSize by decide)
  rcases scanNode_of_agree hinv hstores.1 hagree with ⟨p, w, hfound, -⟩ | ⟨-, hnot⟩
  . rw [hfound]
    simp
  . exact absurd hstores hnot

theorem visible_still (hinv : n₀.records.Inv hash) (hstores : n₀.records.Stores k')
    : Visible (Still (ι := ι) n₀ a) b hash a k' (fun _ _ => True) where
  mono _ _ := trivial
  ptr _ _ := trivial
  seen := by
    rintro n n' leaf ⟨nl, nr, ⟨u₁, u₂, s₁, s₂, -, -, -, h₁, h₂, rfl, rfl⟩, -, -, rfl⟩
    rw [h₁, h₂]
    exact .inl (scanNode_fetched hinv hstores)

theorem visible_hopping {e : Int} {l : List Nat} {r' : HopRecords}
    (hh : Hops hash n₀.records k v e l r') (hinv : n₀.records.Inv hash) (hk : k ≠ kkeyNull)
    (hstores : n₀.records.Stores k')
    : Visible (Hopping (ι := ι) n₀ a (r'.bumpEntries l) (hash k).val (slot e).val) b hash a k'
        (fun _ _ => True) where
  mono _ _ := trivial
  ptr _ _ := trivial
  seen := by
    rintro n n' leaf ⟨nl, nr, ⟨u₁, u₂, s₁, s₂, -, hle, -, h₁, h₂, rfl, rfl⟩, -, -, rfl⟩
    rw [h₁, h₂]
    left
    apply hh.scanNode_halfway hinv hk hle hstores
    intro i hi hi'
    exact getEntry_leaf b _ _ (hash k').isLt (show neighborSize ≤ leafSpanSize by decide) hi hi'

/-- The first READ of a fetch that passes the check has seen the node version that the second one has. -/
theorem nodeVersion_of_consistent {nl nr : HopNode} (hidx : hashIdx < leafSpanSize) (hnum : 1 ≤ entryNum)
    (hreads : readsL b hashIdx entryNum = true)
    (h : (segmentsOf b hashIdx entryNum nl nr).consistent b hashIdx entryNum = true)
    : nl.metadata.hVersion.nodeVersion = (nr.records.get ⟨hashIdx, hidx⟩).hVersion.nodeVersion := by
  unfold Segments.consistent at h
  rw [List.all_eq_true] at h
  have hsize : 1 ≤ segmentSizeR hashIdx entryNum := by
    unfold segmentSizeR
    omega
  have hl : nl.metadata.hVersion.nodeVersion
      ∈ (segmentsOf b hashIdx entryNum nl nr).nodeVersions b hashIdx entryNum := by
    unfold Segments.nodeVersions segmentsOf
    simp [hreads, HopNode.part]
  have hr : (nr.records.get ⟨hashIdx, hidx⟩).hVersion.nodeVersion
      ∈ (segmentsOf b hashIdx entryNum nl nr).nodeVersions b hashIdx entryNum := by
    have hslot : slot (hashIdx : Nat) = ⟨hashIdx, hidx⟩ := slot_val ⟨hashIdx, hidx⟩
    unfold Segments.nodeVersions segmentsOf
    apply List.mem_append_right
    rw [List.mem_map]
    refine ⟨hashIdx, List.mem_range'_1.mpr ⟨Nat.le_refl _, by omega⟩, ?_⟩
    unfold HopRecords.getEntry
    rw [hslot, HopNode.get_part, if_pos ⟨Nat.le_refl _, Nat.lt_add_of_pos_right hsize⟩]
  have heq := h _ hl
  rw [List.all_eq_true] at heq
  exact of_decide_eq_true (heq _ hr)

/-- A fetch that passes the check although the versions differ has made one READ only. -/
theorem segmentsOf_of_versions_ne {nl nr : HopNode} (hidx : hashIdx < leafSpanSize) (hnum : 1 ≤ entryNum)
    (hne : nl.metadata.hVersion.nodeVersion ≠ (nr.records.get ⟨hashIdx, hidx⟩).hVersion.nodeVersion)
    (h : (segmentsOf b hashIdx entryNum nl nr).consistent b hashIdx entryNum = true)
    : segmentsOf b hashIdx entryNum nl nr = segmentsOf b hashIdx entryNum nr nr := by
  have hreads : ¬ readsL b hashIdx entryNum = true :=
    fun hreads => hne (nodeVersion_of_consistent hidx hnum hreads h)
  unfold segmentsOf
  rw [if_neg hreads, if_neg hreads]

theorem split_nodeVersion (hinv : n₀.records.Inv hash) (huniform : n₀.Uniform)
    (hsplit : hopscotchSplit hash n₀ k v addr = .ok (leaf', syn')) (p : Fin leafSpanSize)
    : (leaf'.bumpNodeVersions.records.get p).hVersion.nodeVersion = n₀.metadata.hVersion.nodeVersion + 1 := by
  have hversion : (leaf'.records.get 0).hVersion = (n₀.records.get 0).hVersion := by
    obtain ⟨sk, r₁, r₂, e, l, hm, ⟨-, r', hh, heq⟩ | ⟨-, r', hh, heq⟩⟩ := hops_of_split_ok hinv hsplit
    . cases heq
      exact (hh.chain.versions 0).1.trans (hm.versions 0)
    . cases heq
      exact hm.versions 0
  rw [HopNode.get_bumpNodeVersions, ← huniform 0, ← hversion]

/-- A fetch beside a split sees the old leaf or the new one: the check refuses a mixture of both. -/
theorem fetched_splitting {n n' : Nat} {leaf : HopNode} (hinv : n₀.records.Inv hash)
    (huniform : n₀.Uniform) (hsplit : hopscotchSplit hash n₀ k v addr = .ok (leaf', syn'))
    (h : FetchedApart (Splitting (ι := ι) n₀ a leaf'.bumpNodeVersions addr syn'.bumpNodeVersions) b
      (hash k').val n n' (a, neighborSize) leaf)
    : ∃ node, (node = n₀ ∨ (node = leaf'.bumpNodeVersions ∧ 1 ≤ n'))
        ∧ leaf = (segmentsOf b (hash k').val neighborSize node node).leaf b (hash k').val neighborSize
        ∧ leaf.metadata = node.metadata := by
  obtain ⟨nl, nr, ⟨u₁, u₂, s₁, s₂, -, hle, hle', h₁, h₂, rfl, rfl⟩, hcons, hok, rfl⟩ := h
  dsimp only at hcons hok
  obtain ⟨node, hnode, heq⟩ : ∃ node, (node = n₀ ∨ (node = leaf'.bumpNodeVersions ∧ 1 ≤ n'))
      ∧ segmentsOf b (hash k').val neighborSize (s₁.node a) (s₂.node a)
        = segmentsOf b (hash k').val neighborSize node node := by
    by_cases hu₁ : u₁ = 0
    . by_cases hu₂ : u₂ = 0
      . exact ⟨n₀, .inl rfl, by rw [h₁.1 hu₁, h₂.1 hu₂]⟩
      . have hnew := (h₂.2 (by omega)).1
        refine ⟨_, .inr ⟨rfl, by omega⟩, ?_⟩
        rw [← hnew]
        apply segmentsOf_of_versions_ne (hash k').isLt (by decide) _ hcons
        rw [h₁.1 hu₁, hnew, split_nodeVersion hinv huniform hsplit]
        intro heq
        bv_omega
    . refine ⟨_, .inr ⟨rfl, by omega⟩, ?_⟩
      rw [(h₁.2 (by omega)).1, (h₂.2 (by omega)).1]
  rw [heq] at hok
  rw [heq]
  exact ⟨node, hnode, rfl, metadata_leaf rfl hok⟩

theorem visible_splitting (hinv : n₀.records.Inv hash) (huniform : n₀.Uniform) (hk : k ≠ kkeyNull)
    (hnull : n₀.metadata.synonymPtr = GlobalAddress.null) (haddr : addr ≠ GlobalAddress.null)
    (hsplit : hopscotchSplit hash n₀ k v addr = .ok (leaf', syn')) (hstores : n₀.records.Stores k')
    : Visible (Splitting (ι := ι) n₀ a leaf'.bumpNodeVersions addr syn'.bumpNodeVersions) b hash a k'
        (fun n c => c = addr ∧ 1 ≤ n) where
  mono := by
    rintro n n' c hle ⟨rfl, hn⟩
    exact ⟨rfl, hn.trans hle⟩
  ptr := by
    intro n n' leaf hfetched hptr
    obtain ⟨node, hnode, -, hmeta⟩ := fetched_splitting hinv huniform hsplit hfetched
    rw [hmeta] at hptr ⊢
    rcases hnode with rfl | ⟨rfl, hn'⟩
    . exact absurd hnull hptr
    . exact ⟨(splitInto_of_ok hinv hk hsplit).2, hn'⟩
  seen := by
    intro n n' leaf hfetched
    obtain ⟨node, hnode, rfl, hmeta⟩ := fetched_splitting hinv huniform hsplit hfetched
    obtain ⟨hinto, hptr⟩ := splitInto_of_ok hinv hk hsplit
    rcases hnode with rfl | ⟨rfl, -⟩
    . exact .inl (scanNode_fetched hinv hstores)
    . obtain ⟨w, hw⟩ := HopRecords.stores_iff.mp hstores
      rcases (hinto.has_iff hk k' w).mpr (.inl hw) with hw | hw
      . left
        apply scanNode_fetched (bumpNodeVersions_inv hinto.invLeaf)
        exact HopRecords.stores_iff.mpr ⟨w, bumpNodeVersions_has_iff.mpr hw⟩
      . right
        refine ⟨?_, ?_⟩
        . rw [hmeta]
          change leaf'.metadata.synonymPtr ≠ _
          rw [hptr]
          exact haddr
        . rintro u c u₁ u₂ synLeaf ⟨rfl, hu⟩ hle
            ⟨nl, nr, ⟨v₁, v₂, s₁, s₂, hv₁, hv₂, -, h₁, h₂, rfl, rfl⟩, -, -, rfl⟩
          dsimp only
          rw [(h₁.2 (by omega)).2, (h₂.2 (by omega)).2]
          apply scanNode_fetched (bumpNodeVersions_inv hinto.invSyn)
          exact HopRecords.stores_iff.mpr ⟨w, bumpNodeVersions_has_iff.mpr hw⟩

end Visible

section ReadOnly

theorem readAll_readOnly (leafAddrs : List (GlobalAddress × Nat))
    : (readAll b hashIdx leafAddrs).ReadOnly (exec (ι := ι) i) := by
  induction leafAddrs with
  | nil => trivial
  | cons p leafAddrs ih =>
    have hsegments : (readSegments b hashIdx p.2 p.1).ReadOnly (exec (ι := ι) i) := by
      unfold readSegments
      dsimp only
      split
      . exact ⟨fun _ => rfl, fun _ => ⟨fun _ => rfl, fun _ => trivial⟩⟩
      . exact ⟨fun _ => rfl, fun _ => trivial⟩
    exact hsegments.bind (fun _ => ih.bind (fun _ => trivial))

theorem hopscotchFetchNodes_readOnly {needMetadata : Bool} (leafAddrs : List (GlobalAddress × Nat))
    (rounds : Nat)
    : (hopscotchFetchNodes b hashIdx needMetadata leafAddrs rounds).ReadOnly (exec (ι := ι) i) := by
  induction rounds with
  | zero => trivial
  | succ rounds ih =>
    apply (readAll_readOnly leafAddrs).bind
    intro segments
    apply Prog.ReadOnly.bind
    . rcases decodeAll_cases b hashIdx needMetadata segments with heq | heq | ⟨heq, -⟩
      . rw [heq]
        trivial
      . rw [heq]
        trivial
      . rw [heq]
        trivial
    . intro res
      cases res with
      | none => exact ih
      | some leaves => trivial

theorem check_readOnly (o : Option α) : (Prog.check o : ProgM α).ReadOnly (exec (ι := ι) i) := by
  cases o with
  | none => trivial
  | some x => trivial

theorem hopscotchFetchNode_readOnly {needMetadata : Bool} (leafAddr : GlobalAddress) (entryNum rounds : Nat)
    : (hopscotchFetchNode b hashIdx needMetadata leafAddr entryNum rounds).ReadOnly (exec (ι := ι) i) :=
  (hopscotchFetchNodes_readOnly _ _).bind (fun _ => check_readOnly _)

theorem reRead_readOnly (nodeAddr : GlobalAddress)
    : (reRead b rounds nodeAddr hashIdx entryNum).ReadOnly (exec (ι := ι) i) := by
  unfold reRead
  split
  . exact hopscotchFetchNode_readOnly _ _ _
  . induction rounds with
    | zero => trivial
    | succ rounds ih =>
      refine ⟨fun _ => rfl, fun leaf => ?_⟩
      dsimp only [Prog.bind]
      split
      . trivial
      . exact ih

theorem reReadSyn_readOnly (leaf : HopNode)
    : (reReadSyn b rounds leaf hashIdx entryNum).ReadOnly (exec (ι := ι) i) := by
  unfold reReadSyn
  split
  . trivial
  . exact (reRead_readOnly _).bind (fun _ => trivial)

theorem readRest_readOnly (leaf : HopNode) (nodeAddr : GlobalAddress)
    : (readRest b rounds leaf nodeAddr hashIdx entryNum).ReadOnly (exec (ι := ι) i) := by
  unfold readRest
  split
  . exact (hopscotchFetchNode_readOnly _ _ _).bind (fun _ => trivial)
  . trivial

theorem search_readOnly (b : Build) (hash : Key → Fin leafSpanSize) (rounds : Nat) (cache : Cache) (k : Key)
    : (search b hash rounds cache k).ReadOnly (exec (ι := ι) i) := by
  have hround : ∀ leafAddrs syn, (searchRound b hash rounds k leafAddrs syn).ReadOnly (exec (ι := ι) i) :=
    fun leafAddrs syn => (hopscotchFetchNodes_readOnly _ _).bind (fun _ =>
      (hopscotchFetchNodes_readOnly _ _).bind (fun _ => trivial))
  have hreRead : ∀ fuel leafAddrs syn,
      (searchAux.reRead b hash rounds k leafAddrs syn fuel).ReadOnly (exec (ι := ι) i) := by
    intro fuel leafAddrs
    induction fuel with
    | zero => exact fun _ => trivial
    | succ fuel ih =>
      intro syn
      apply (hround leafAddrs syn).bind
      rintro ⟨res, syn'⟩
      cases res with
      | none => exact ih syn'
      | some found => trivial
  unfold search searchAux
  refine Prog.ReadOnly.bind ?_ (fun _ => trivial)
  apply (check_readOnly _).bind
  intro range
  exact (check_readOnly _).bind (fun leafAddrs => hreRead _ _ _)

end ReadOnly

section Keeps

theorem lockNode_keeps (nodeAddr : GlobalAddress)
    : (lockNode nodeAddr).Keeps (exec (ι := ι) i) (fun x => (x.node, x.dsm)) := by
  unfold lockNode
  generalize 10000002 = attempts
  induction attempts with
  | zero => trivial
  | succ attempts ih =>
    refine ⟨fun s => ?_, fun old => ?_⟩
    . simp only [exec]
      split
      . rfl
      . rfl
    . dsimp only [Prog.bind]
      split
      . trivial
      . exact ih

theorem node_writeSegment {r : HopRecords} {lIdx rIdx : Nat} {hoppedIdxes : List Nat}
    (lockWord : Option (BitVec 64))
    : (exec i (.writeSegment c r lIdx rIdx hoppedIdxes lockWord) s).2.node a
        =
      if a = c then
        { s.node c with records := segmentWrite (s.node c).records r lIdx rIdx hoppedIdxes }
      else
        s.node a := by
  cases lockWord with
  | none => exact Mem.node_setNode s c a _
  | some w => exact Mem.node_setNode s c a _

theorem segmentWriteAndUnlock_keeps (hne : a ≠ c) (r : HopRecords) (lIdx rIdx : Nat) (hoppedIdxes : List Nat)
    (lock : BitVec 64) (needUnlock : Bool)
    : (segmentWriteAndUnlock r lIdx rIdx hoppedIdxes c lock needUnlock).Keeps (exec (ι := ι) i)
        (fun x => x.node a) := by
  have hwrite : ∀ lIdx rIdx lockWord (s : Mem ι),
      (exec i (.writeSegment c r lIdx rIdx hoppedIdxes lockWord) s).2.node a = s.node a := by
    intro lIdx rIdx lockWord s
    rw [node_writeSegment, if_neg hne]
  unfold segmentWriteAndUnlock
  dsimp only
  split
  . split
    . exact ⟨hwrite _ _ _, fun _ => ⟨fun _ => rfl, fun _ => trivial⟩⟩
    . exact ⟨hwrite _ _ _, fun _ => trivial⟩
  . exact ⟨hwrite _ _ _, fun _ => ⟨hwrite _ _ _, fun _ => trivial⟩⟩

theorem hopscotchInsertAndUnlock_keeps (hne : a ≠ c) (leaf : HopNode) (k : Key) (v : Value)
    (lock : BitVec 64) (entryNum : Nat) (isLockedLeaf : Bool)
    : (hopscotchInsertAndUnlock b hash leaf k v c lock entryNum isLockedLeaf).Keeps (exec (ι := ι) i)
        (fun x => x.node a) := by
  unfold hopscotchInsertAndUnlock
  cases hopscotchInsert hash leaf.records k v entryNum with
  | error x => trivial
  | ok hopped =>
    cases hopped with
    | none => trivial
    | some hopped =>
      rw [Prog.attempt_ok]
      dsimp only
      cases segmentLock b hopped.records (hash k).val (slot hopped.emptyIdx).val lock isLockedLeaf with
      | error x => trivial
      | ok lock => exact (segmentWriteAndUnlock_keeps hne _ _ _ _ _ _).bind (fun _ => trivial)

end Keeps

section Course

/-- What an insert of `(k, v)` does to the leaf at `a`, which is `n₀` at first, in a run from `s` on. -/
inductive Course (i : ι) (hash : Key → Fin leafSpanSize) (n₀ : HopNode) (a : GlobalAddress) (k : Key)
    (v : Value) (p : ProgM α) (s : Mem ι) : Prop
  | still (h : p.Ascends (exec i) (Still n₀ a) 0 s)
  | hopping {e : Int} {l : List Nat} {r' : HopRecords} (hh : Hops hash n₀.records k v e l r')
      (h : p.Ascends (exec i) (Hopping n₀ a (r'.bumpEntries l) (hash k).val (slot e).val) 0 s)
  | splitting {addr : GlobalAddress} {leaf' syn' : HopNode} (haddr : addr ≠ GlobalAddress.null)
      (hnull : n₀.metadata.synonymPtr = GlobalAddress.null)
      (hsplit : hopscotchSplit hash n₀ k v addr = .ok (leaf', syn'))
      (h : p.Ascends (exec i) (Splitting n₀ a leaf'.bumpNodeVersions addr syn'.bumpNodeVersions) 0 s)

theorem course_of_keeps {p : ProgM α} (hs : s.node a = n₀) (hp : p.Keeps (exec i) (fun x => x.node a))
    : Course i hash n₀ a k v p s := by
  apply Course.still
  apply Prog.ascends_of_states
  intro x hx
  exact (hp.eq_of_mem_states hx).trans hs

theorem Course.bind {p : ProgM α} {f : α → ProgM β} (hs : s.node a = n₀)
    (hp : p.Keeps (exec i) (fun x => x.node a))
    (hf : ∀ y s', p.run (exec i) s = some (y, s') → s'.node a = n₀ → Course i hash n₀ a k v (f y) s')
    : Course i hash n₀ a k v (p >>= f) s := by
  have hstates : ∀ x ∈ p.states (exec i) s, x.node a = n₀ :=
    fun x hx => (hp.eq_of_mem_states hx).trans hs
  cases hrun : p.run (exec i) s with
  | none =>
    apply Course.still
    apply Prog.Ascends.bind hstates
    intro y s' h
    rw [hrun] at h
    cases h
  | some ys =>
    obtain ⟨y, s'⟩ := ys
    have honly : ∀ {P : Nat → Mem ι → Prop}, (∀ x, x.node a = n₀ → P 0 x) →
        (f y).Ascends (exec i) P 0 s' → (p >>= f).Ascends (exec i) P 0 s := by
      intro P hP hy
      apply Prog.Ascends.bind (fun x hx => hP x (hstates x hx))
      intro z t h
      rw [hrun] at h
      cases h
      exact hy
    cases hf y s' hrun ((hp.eq_of_run hrun).trans hs) with
    | still h => exact .still (honly (fun x hx => hx) h)
    | hopping hh h => exact .hopping hh (honly (fun x hx => hopping_zero hx) h)
    | splitting haddr hnull hsplit h =>
      exact .splitting haddr hnull hsplit (honly (fun x hx => splitting_zero hx) h)

theorem segmentWriteAndUnlock_ascends {e : Int} {l : List Nat} {r' t : HopRecords} (hs : s.node a = n₀)
    (hh : Hops hash n₀.records k v e l r') (hagree : AgreeOn (hash k).val e r' t) (lock : BitVec 64)
    : (segmentWriteAndUnlock t (hash k).val (slot e).val l a lock true).Ascends (exec i)
        (Hopping n₀ a (r'.bumpEntries l) (hash k).val (slot e).val) 0 s := by
  have hstart : Hopping n₀ a (r'.bumpEntries l) (hash k).val (slot e).val 0 s := hopping_zero hs
  have hall := hh.segmentWrite_eq hagree
  have hend : ∀ {x : Mem ι}, x.node a = { n₀ with records := r'.bumpEntries l } →
      Hopping n₀ a (r'.bumpEntries l) (hash k).val (slot e).val 2 x := by
    intro x hx
    unfold Hopping
    rw [halfway_two]
    exact hx
  unfold segmentWriteAndUnlock
  dsimp only
  by_cases hle : (hash k).val ≤ (slot e).val
  . have hwrite : ∀ lockWord, Hopping n₀ a (r'.bumpEntries l) (hash k).val (slot e).val 2
        (exec i (.writeSegment a t (hash k).val (slot e).val l lockWord) s).2 := by
      intro lockWord
      apply hend
      rw [node_writeSegment, if_pos rfl, hs, hall]
    rw [if_pos hle]
    split
    . exact ⟨hstart, 2, Nat.zero_le 2, hwrite _, 2, Nat.le_refl 2, hwrite none⟩
    . exact ⟨hstart, 2, Nat.zero_le 2, hwrite _⟩
  . have hlt : (slot e).val < (hash k).val := by omega
    have hfirst : segmentWrite n₀.records t 0 (slot e).val l
        = halfway n₀.records (r'.bumpEntries l) (hash k).val (slot e).val 1 := by
      apply segmentWrite_first hlt
      intro p hp
      have hin : InSegment (hash k).val (slot e).val p := by
        unfold InSegment
        rw [if_neg hle]
        exact .inl hp
      obtain ⟨j, hj, hje, rfl⟩ := (inSegment_iff hh.state.lo hh.state.hi).mp hin
      exact hagree j hj hje
    have hnode : (exec i (.writeSegment a t 0 (slot e).val l none) s).2.node a
        = { n₀ with records := segmentWrite n₀.records t 0 (slot e).val l } := by
      rw [node_writeSegment, if_pos rfl, hs]
    rw [if_neg hle]
    refine ⟨hstart, 1, Nat.zero_le 1, ?_, 2, by decide, ?_⟩
    . rw [hfirst] at hnode
      exact hnode
    . apply hend
      rw [node_writeSegment, if_pos rfl, hnode]
      dsimp only
      rw [segmentWrite_wrapped _ _ hlt (hash k).isLt, hall]

theorem hopscotchSplitAndUnlock_course (hshape : s.Shape b) (ha : b.IsLeaf a) (hs : s.node a = n₀)
    (hnull : n₀.metadata.synonymPtr = GlobalAddress.null) (lock : BitVec 64)
    : Course i hash n₀ a k v (hopscotchSplitAndUnlock b hash n₀ k v a lock) s := by
  have hnode : (a.nodeID.toNat : Int) < memoryNodeNum := by
    rw [ha.nodeID_eq]
    decide
  unfold hopscotchSplitAndUnlock
  rw [Prog.call_bind]
  cases hdsm : s.dsm.allocSync i b.leafBuild.allocationLeafSize cachelineAlignBit a.nodeID.toNat with
  | none =>
    apply Course.still
    refine ⟨hs, 0, Nat.le_refl 0, ?_⟩
    simp only [exec, hdsm, Prog.check_none, Prog.fail_bind]
    exact hs
  | some p =>
    obtain ⟨addr, dsm⟩ := p
    have hfresh := (hshape.alloc hnode hdsm).2
    have hne : a ≠ addr := by
      rintro rfl
      exact hfresh.not_isLeaf ha
    cases hsplit : hopscotchSplit hash n₀ k v addr with
    | error x =>
      apply Course.still
      refine ⟨hs, 0, Nat.le_refl 0, ?_⟩
      simp only [exec, hdsm, Prog.check_some, Prog.ret_bind, hsplit, Prog.attempt_error]
      exact hs
    | ok nodes =>
      obtain ⟨leaf', syn'⟩ := nodes
      obtain ⟨lock', hlock⟩ := splitLock_ok b leaf'.records syn'.records lock
      apply Course.splitting hfresh.ne_null hnull hsplit
      refine ⟨splitting_zero hs, 0, Nat.le_refl 0, ?_⟩
      simp only [exec, hdsm, Prog.check_some, Prog.ret_bind, hsplit, Prog.attempt_ok, Prog.call_bind]
      refine ⟨splitting_zero hs, 0, Nat.le_refl 0, ?_⟩
      simp only [hlock, Prog.attempt_ok]
      refine ⟨splitting_zero ?_, 1, by decide, ?_⟩
      . simp only [exec, Mem.setLock?]
        rw [Mem.node_setNode, if_neg hne]
        exact hs
      . refine ⟨fun h => absurd h (by decide), fun _ => ?_⟩
        simp only [exec, Mem.setLock?, Mem.node_setLock]
        rw [Mem.node_setNode, if_pos rfl, Mem.node_setNode, if_neg hne.symm, Mem.node_setNode, if_pos rfl]
        exact ⟨rfl, rfl⟩

omit [DecidableEq ι] in
theorem Mem.Shape.congr (h : m.Shape b) (hnode : s.node = m.node) (hdsm : s.dsm = m.dsm) : s.Shape b := by
  have hptr : ∀ c, s.ptr c = m.ptr c := fun c => by rw [Mem.ptr, hnode, Mem.ptr]
  constructor
  . rw [hdsm]
    exact h.dsm
  . intro c hc
    rw [hptr, hdsm]
    exact h.used hc
  . intro c d hc hd
    rw [hptr, hptr]
    exact h.inj hc hd

theorem insertIntoSyn_course {leaf : HopNode} {synLeaf : Option HopNode} {lock : BitVec 64}
    {readSynonymEntryNum : Nat} (hshape : s.Shape b) (ha : b.IsLeaf a) (hnum : entryNum ≤ leafSpanSize)
    (hval : b.vacancyAwareLock = false → entryNum = leafSpanSize)
    (hleaf : Fetched (hash k).val entryNum (s.node a) leaf)
    (hsynLeaf : synLeaf = none ↔ s.ptr a = GlobalAddress.null)
    : Course i hash (s.node a) a k v
        (insertIntoSyn b hash rounds leaf synLeaf k v a lock entryNum readSynonymEntryNum) s := by
  cases synLeaf with
  | none =>
    apply Course.bind rfl ((readRest_readOnly leaf a).keeps _)
    intro leaf' s' hrun _
    obtain ⟨rfl, rfl⟩ := readRest_run hnum hval hleaf hrun
    exact hopscotchSplitAndUnlock_course hshape ha rfl (hsynLeaf.mp rfl) lock
  | some synLeaf =>
    have hptr : leaf.metadata.synonymPtr = s.ptr a := congrArg LeafMetadata.synonymPtr hleaf.metadata
    have hne : a ≠ leaf.metadata.synonymPtr := by
      rw [hptr]
      apply Ne.symm
      apply hshape.ptr_ne ha _ ha
      exact fun hnull => Option.some_ne_none _ (hsynLeaf.mpr hnull)
    apply course_of_keeps rfl
    apply (hopscotchInsertAndUnlock_keeps hne _ _ _ _ _ _).bind
    intro res
    cases res with
    | error x => trivial
    | ok lock' => exact ⟨fun _ => rfl, fun _ => trivial⟩

theorem insertLocked_course (hshape : m.Shape b) (ha : b.IsLeaf a) (hinv : (m.node a).records.Inv hash)
    : Course i hash (m.node a) a k v (insertLocked b hash rounds k v a) m := by
  unfold insertLocked
  have hlockNode := lockNode_keeps (ι := ι) (i := i) a
  apply Course.bind rfl (hlockNode.comp (fun x => x.1 a))
  intro lock s hlock hs
  obtain ⟨hnode, hdsm⟩ : s.node = m.node ∧ s.dsm = m.dsm := Prod.mk.inj (hlockNode.eq_of_run hlock)
  have hnum := @getReadEntryNum_bounds b (hash k).val lock
  rw [← hs] at hinv ⊢
  replace hshape := hshape.congr hnode hdsm
  dsimp only
  apply Course.bind rfl ((reRead_readOnly a).keeps _)
  intro leaf s₁ hread _
  obtain ⟨rfl, hleaf⟩ := reRead_run (hash k).isLt (hnum false).2 hread
  apply Course.bind rfl ((reReadSyn_readOnly leaf).keeps _)
  intro synLeaf s₂ hreadSyn _
  obtain ⟨rfl, hsynLeaf⟩ := reReadSyn_run (a := a) hleaf.metadata (hash k).isLt (hnum true).2 hreadSyn
  split
  . apply course_of_keeps rfl
    exact ⟨fun _ => rfl, fun _ => trivial⟩
  . rcases hopscotchInsert_window (v := v) hinv hleaf.agree with
      ⟨-, hnone⟩ | ⟨e, l, r', t, -, hsome, hh, he, hagree⟩
    . have hfails : hopscotchInsertAndUnlock b hash leaf k v a lock (getReadEntryNum b (hash k).val lock false)
          true = .ret (.ok none) := by
        unfold hopscotchInsertAndUnlock
        rw [hnone]
        rfl
      rw [hfails, Prog.ret_bind, Prog.attempt_ok]
      apply insertIntoSyn_course hshape ha (hnum false).2 (fun hv => getReadEntryNum_of_false hv _ _ _) hleaf
      rcases hsynLeaf with ⟨hnull, rfl⟩ | ⟨hptr, n, rfl, -⟩
      . exact iff_of_true rfl hnull
      . exact iff_of_false (Option.some_ne_none n) hptr
    . obtain ⟨lock', hlock'⟩ := segmentLock_ok b t (hash k).isLt (slot e).isLt lock true
      have hwrites : hopscotchInsertAndUnlock b hash leaf k v a lock
          (getReadEntryNum b (hash k).val lock false) true
            = (segmentWriteAndUnlock t (hash k).val (slot e).val l a lock' true >>= fun _ =>
                .ret (.ok (some lock'))) := by
        unfold hopscotchInsertAndUnlock
        rw [hsome, Prog.attempt_ok]
        dsimp only
        rw [hlock']
        rfl
      rw [hwrites, Prog.bind_assoc]
      have hascends := segmentWriteAndUnlock_ascends (i := i) (a := a) rfl hh
        (fun j hj hje => hagree j hj (by omega)) lock'
      exact .hopping hh (hascends.bind_ret (fun _ => (.ok () : Except Assertion Unit)))

theorem insert_course (hshape : m.Shape b) (hr : Routed b cache k a) (hinv : (m.node a).records.Inv hash)
    (v : Value)
    : Course i hash (m.node a) a k v (insert b hash rounds cache k v) m := by
  have ha := hr.isLeaf
  obtain ⟨l, r, insertIdx, hcache, haddr⟩ := hr
  unfold insert
  simp only [hcache, haddr, Prog.check_some, Prog.ret_bind]
  apply Course.bind rfl ((check_readOnly _).keeps _)
  intro leafAddrs s hcheck _
  obtain ⟨-, rfl⟩ := (Prog.run_check_eq_some (exec i)).mp hcheck
  apply Course.bind rfl ((hopscotchFetchNodes_readOnly _ _).keeps _)
  intro leaves s₁ hfetch _
  obtain ⟨rfl, -, -⟩ := hopscotchFetchNodes_run hfetch
  exact insertLocked_course hshape ha hinv

end Course

section Main

inductive Answer where
  | inserted (res : Except Assertion Unit)
  | updated
  | found (res : Option Value)

def body (b : Build) (hash : Key → Fin leafSpanSize) (rounds : Nat) (cache : Cache) : Call → ProgM Answer
  | .insert k v => do
    let res ← insert b hash rounds cache k v
    return .inserted res
  | .update k v => do
    update b hash rounds cache k v
    return .updated
  | .search k => do
    let res ← search b hash rounds cache k
    return .found res

theorem Course.search {p : ProgM α} (h : Course i hash n₀ a k v p s) (hinv : n₀.records.Inv hash)
    (huniform : n₀.Uniform) (hk : k ≠ kkeyNull) (hstores : n₀.records.Stores k')
    : ∃ P R, p.Ascends (exec i) P 0 s ∧ Visible P b hash a k' R := by
  cases h with
  | still h => exact ⟨_, _, h, visible_still hinv hstores⟩
  | hopping hh h => exact ⟨_, _, h, visible_hopping hh hinv hk hstores⟩
  | splitting haddr hnull hsplit h =>
    exact ⟨_, _, h, visible_splitting hinv huniform hk hnull haddr hsplit hstores⟩

theorem Reachable.uniform {id : ι → Nat} (h : Reachable b hash cache id m) (ha : b.IsLeaf a)
    : (m.group a).Uniform := by
  apply h.group _ _ _ ha
  . refine ⟨(@HopNode.wellFormed_zero hash).nodeVersion, ?_⟩
    intro n hn
    cases hn
  . exact fun _ _ _ _ _ _ hg hins => hins.uniform hg
  . exact fun _ _ _ _ hg hupd => hupd.uniform hg

/--
A search for a key of a leaf, beside an insert into this leaf: however the READs of the one and the WRITEs
of the other are interleaved, a search that returns has found the key.
-/
theorem hop_search_beside_insert (rounds : Nat) {m : Mem Bool} (hshape : m.Shape b)
    (hr : Routed b cache k a) (hinv : (m.node a).records.Inv hash) (huniform : (m.node a).Uniform)
    (hk : k ≠ kkeyNull) (hlooks : LooksAt b cache k' a) (hstores : (m.node a).records.Stores k')
    {S : System Bool Call Answer Op Op.Res (Mem Bool)} {ans : Answer}
    (hsteps : System.Steps exec (fun _ => body b hash rounds cache)
      (System.writerReader m (.insert k v) (.search k')) S)
    (hans : (S.clients true).answers = [ans])
    : ∃ w, ans = .found (some w) := by
  have hro : (body b hash rounds cache (.search k')).ReadOnly (exec (ι := Bool) true) :=
    (search_readOnly b hash rounds cache k').bind (fun _ => trivial)
  have hcourse : Course false hash (m.node a) a k v (insert b hash rounds cache k v) m :=
    insert_course hshape hr hinv v
  obtain ⟨P, R, hw, hv⟩ := hcourse.search (b := b) hinv huniform hk hstores
  obtain ⟨n, n', h⟩ := System.samples_of_steps (fun _ => body b hash rounds cache) hro
    (hw.bind_ret Answer.inserted) hsteps hans
  obtain ⟨res, u, hres, rfl, -⟩ := Prog.samples_bind.mp h
  cases res with
  | none => exact absurd rfl (hv.search hlooks hres)
  | some w => exact ⟨w, rfl⟩

/-- A sample: the key 1000001 has its home at slot 9, all others have theirs at slot 8. -/
def wrapHash (k : Key) : Fin leafSpanSize := if k = int2key 1000001 then 9 else 8

/-- They fill the slots from 8 to the end of the ring. -/
def wrapPairs : List (Key × Value) := [2, 1, 3, 4, 5, 6, 7, 8].map (fun i => (int2key (1000000 + i), 7))

/-- The search reads slot 0, then the insert runs, then the search goes on. -/
def wrapSchedule : List Bool := [true, true] ++ List.replicate 8 false ++ List.replicate 4 true

set_option maxRecDepth 10000 in
/-- The key hops from slot 9 to slot 0 between the READs of the two; the search reads again and finds it. -/
theorem hop_search_beside_insert_wrapped
    : ∃ (C : RolexCache) (m : Mem Bool) (S : System Bool Call Answer Op Op.Res (Mem Bool)) (ans : Answer),
        RolexCache.new sampleKeys = some C
        ∧ insertAll ⟨false, false⟩ wrapHash C.toCache false wrapPairs (Mem.init ⟨false, false⟩ (fun _ => 0))
          = some m
        ∧ System.schedule exec (fun _ => body ⟨false, false⟩ wrapHash 2 C.toCache) wrapSchedule
            (System.writerReader m (.insert (int2key 1000009) 7) (.search (int2key 1000001))) = some S
        ∧ (S.clients true).answers = [ans] ∧ ∃ w, ans = .found (some w) := by
  have hrun : ((RolexCache.new sampleKeys).bind (fun C =>
      (insertAll ⟨false, false⟩ wrapHash C.toCache false wrapPairs
        (Mem.init ⟨false, false⟩ (fun _ => 0))).bind (fun m =>
          (System.schedule exec (fun _ => body ⟨false, false⟩ wrapHash 2 C.toCache) wrapSchedule
            (System.writerReader m (.insert (int2key 1000009) 7) (.search (int2key 1000001)))).map (fun S =>
              decide ((S.clients true).answers.length = 1
                ∧ C.toCache.searchFromCacheForInsert (int2key 1000009) = some (3, 3, 3)
                ∧ C.toCache.searchFromCache (int2key 1000001) = some (3, 3)
                ∧ (m.node sampleLeaf).records.Stores (int2key 1000001)))))) = some true := by
    decide +kernel
  obtain ⟨C, hC, hrun⟩ := Option.bind_eq_some_iff.mp hrun
  obtain ⟨m, hm, hrun⟩ := Option.bind_eq_some_iff.mp hrun
  obtain ⟨S, hS, hfacts⟩ := Option.map_eq_some_iff.mp hrun
  obtain ⟨hlength, hcache, hrange, hstores⟩ := of_decide_eq_true hfacts
  obtain ⟨ans, hans⟩ := List.length_eq_one_iff.mp hlength
  have hreach : Reachable ⟨false, false⟩ wrapHash C.toCache (fun _ => 0) m :=
    Reachable.init.insertAll (by decide) hm
  have ha := sampleLeaf_isLeaf false
  have hr : Routed ⟨false, false⟩ C.toCache (int2key 1000009) sampleLeaf :=
    ⟨3, 3, 3, hcache, sampleLeaf_eq false⟩
  have hlooks : LooksAt ⟨false, false⟩ C.toCache (int2key 1000001) sampleLeaf :=
    ⟨3, 3, [sampleLeaf], hrange, by decide, List.mem_singleton.mpr rfl⟩
  refine ⟨C, m, S, ans, hC, hm, hS, hans, ?_⟩
  exact hop_search_beside_insert 2 hreach.inv.shape hr (hreach.inv.sound _ ha).leaf (hreach.uniform ha).leaf
    (by decide) hlooks hstores (System.steps_of_schedule hS) hans

end Main

end Hop

end Rolex

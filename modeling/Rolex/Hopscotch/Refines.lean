import Rolex.Speculative.HopUpdate

/-!
This module contains the calls of the hopscotch builds, one after another, as those of a finite map: what
the leaves and their synonym leaves store, and what a search finds in them.
-/

namespace Rolex

namespace Hop

variable {ι : Type} {b : Build} {hash : Key → Fin leafSpanSize} {cache : Cache} {m m' : Mem ι}
  {a : GlobalAddress} {k : Key} {v : Value} {f : Key → Option Value}

section Has

theorem has_iff_ofLeaf (ha : b.IsLeaf a)
    : (m.group a).Has k v ↔ ∃ c, OfLeaf b m c a ∧ (m.node c).records.Has k v := by
  constructor
  . intro h
    cases h with
    | inl h => exact ⟨a, ⟨ha, .inl rfl⟩, h⟩
    | inr h =>
      obtain ⟨n, hsyn, h⟩ := h
      by_cases hptr : m.ptr a = GlobalAddress.null
      . rw [Mem.group_syn_of_ptr_eq hptr] at hsyn
        cases hsyn
      . rw [Mem.group_syn_of_ptr_ne hptr] at hsyn
        cases hsyn
        exact ⟨m.ptr a, ⟨ha, .inr ⟨hptr, rfl⟩⟩, h⟩
  . intro h
    obtain ⟨c, ⟨-, hc⟩, h⟩ := h
    cases hc with
    | inl hc => exact .inl (hc ▸ h)
    | inr hc => exact .inr ⟨_, Mem.group_syn_of_ptr_ne hc.1, hc.2 ▸ h⟩

theorem SetsValue.has_iff (h : SetsValue b m k v m') (ha : b.IsLeaf a) {k' : Key} {v' : Value}
    : (m'.group a).Has k' v'
        ↔ (k' = k ∧ v' = v ∧ ∃ w, (m.group a).Has k w) ∨ (k' ≠ k ∧ (m.group a).Has k' v') := by
  have hof : ∀ c, OfLeaf b m' c a ↔ OfLeaf b m c a := by
    intro c
    unfold OfLeaf
    rw [h.ptr a ha]
  have hkv : ∀ c, OfLeaf b m c a → ∀ p, (m'.node c).records.kv p
      = if ((m.node c).records.get p).key = k then (k, v) else (m.node c).records.kv p := by
    intro c hc p
    have hcontent := h.content a c hc p
    split
    . next hkey =>
      rw [if_pos hkey] at hcontent
      exact congrArg (fun x => (x.1, x.2.1)) hcontent
    . next hkey =>
      rw [if_neg hkey] at hcontent
      exact congrArg (fun x => (x.1, x.2.1)) hcontent
  simp only [has_iff_ofLeaf ha, hof]
  constructor
  . intro h
    obtain ⟨c, hc, hk', p, hp⟩ := h
    rw [hkv c hc p] at hp
    split at hp
    . next hkey =>
      cases hp
      exact .inl ⟨rfl, rfl, _, c, hc, hk', p, congrArg (·, _) hkey⟩
    . next hkey =>
      refine .inr ⟨?_, c, hc, hk', p, hp⟩
      intro heq
      exact hkey ((congrArg Prod.fst hp).trans heq)
  . intro h
    cases h with
    | inl h =>
      obtain ⟨rfl, rfl, w, c, hc, hk', p, hp⟩ := h
      refine ⟨c, hc, hk', p, ?_⟩
      rw [hkv c hc p]
      exact if_pos (congrArg Prod.fst hp)
    | inr h =>
      obtain ⟨hne, c, hc, hk', p, hp⟩ := h
      refine ⟨c, hc, hk', p, ?_⟩
      rw [hkv c hc p, if_neg, hp]
      intro hkey
      exact hne ((congrArg Prod.fst hp).symm.trans hkey)

end Has

structure Holds (b : Build) (hash : Key → Fin leafSpanSize) (cache : Cache) (m : Mem ι) (f : Key → Option Value)
    : Prop where
  settled : Settled b hash cache m
  agree : ∀ k a, Reaches b cache k a → ∀ v, (m.group a).Has k v ↔ f k = some v

theorem Holds.init {id : ι → Nat} : Holds b hash cache (Mem.init b id) (fun _ => none) where
  settled := Settled.init
  agree := by
    intro k a _ v
    refine iff_of_false ?_ (fun h => by cases h)
    intro h
    rcases h with ⟨hk, p, hp⟩ | ⟨n, hn, -⟩
    . apply hk
      exact (congrArg Prod.fst hp).symm.trans (congrArg HopEntry.key (HopRecords.get_zero p))
    . cases hn

theorem Holds.has_of_ofLeaf (h : Holds b hash cache m f) {a' c : GlobalAddress}
    (hc : OfLeaf b m c a') (hhas : (m.node c).records.Has k v)
    : f k = some v := by
  have hgroup : (m.group a').Has k v := (has_iff_ofLeaf hc.1).mpr ⟨c, hc, hhas⟩
  have hr' := h.settled.reaches a' k hc.1 (HopGroup.stores_iff.mpr ⟨v, hgroup⟩)
  exact (h.agree k a' hr' v).mp hgroup

variable [DecidableEq ι] {i : ι} {rounds : Nat}

section Calls

theorem Holds.run_search (h : Holds b hash cache m f) (hk : k ≠ kkeyNull) (hr : Reaches b cache k a)
    : (search b hash (rounds + 1) cache k).run (exec i) m = some (f k, m) := by
  obtain ⟨hrouted, l, r, leafAddrs, hrange, hleaves, hmem⟩ := id hr
  unfold search
  rcases @searchAux_finds ι _ i b hash rounds cache m k leafAddrs l r h.settled.inv h.settled.node_uniform hk
    hrange hleaves with ⟨hrun, hnone⟩ | ⟨v, c, a', hrun, hc, hhas⟩
  . rw [Prog.run_bind_eq (exec i) hrun]
    cases hf : f k with
    | none => rfl
    | some v =>
      obtain ⟨c, hc, hhas⟩ := (has_iff_ofLeaf hr.1.isLeaf).mp ((h.agree k a hr v).mpr hf)
      exact absurd (HopRecords.stores_iff.mpr ⟨v, hhas⟩) (hnone a hmem c hc)
  . rw [Prog.run_bind_eq (exec i) hrun, h.has_of_ofLeaf hc hhas]
    rfl

/-- An insert that finds the key stored sees it or leaves it, and any other one is taken by a node. -/
def Fits (b : Build) (hash : Key → Fin leafSpanSize) (k : Key) (g : HopGroup) : Prop :=
  if g.Stores k then Seen b hash k g ∨ ¬ g.Takes b hash k else g.Takes b hash k

theorem Holds.of_insert (h : Holds b hash cache m f) (hk : k ≠ kkeyNull) (hr : Reaches b cache k a)
    (hfits : Fits b hash k (m.group a))
    (hrun : (insert b hash rounds cache k v).run (exec i) m = some (.ok (), m'))
    : Holds b hash cache m' (insertMap f k v) := by
  have hinv := h.settled.inv
  have hstored : (m.group a).Stores k ↔ f k ≠ none := by
    rw [HopGroup.stores_iff, Option.ne_none_iff_exists']
    simp only [h.agree k a hr]
  have hchecked : ∀ c, Routed b cache k c → Checked b hash k (m.group c) := by
    intro c hc hold
    obtain rfl := hr.1.unique hc
    rwa [Fits, if_pos hold] at hfits
  refine ⟨h.settled.insert hk hchecked hrun, ?_⟩
  rcases insert_cases hinv.shape hinv.sound hk hrun with ⟨x, hx, -⟩ | ⟨-, a', g', hr', hg', hstep⟩
  . cases hx
  obtain rfl := hr.1.unique hr'
  intro k' c hr₂ v'
  rw [hstep.group c hr₂.1.isLeaf]
  unfold insertMap
  rcases hg'.has (hinv.sound a hr.1.isLeaf) hk with ⟨rfl, hcond⟩ | ⟨hnew, htakes, hhas⟩
  . -- nothing has changed, so the key was stored
    have hold : (m.group a).Stores k := by
      apply Classical.byContradiction
      intro hnot
      rw [Fits, if_neg hnot] at hfits
      cases hcond with
      | inl hseen => exact hnot (hseen.stores hk)
      | inr hfull => exact hfull hfits
    rw [if_neg (hstored.mp hold), ite_eq_right_iff.mpr (fun hc => by rw [hc])]
    exact h.agree k' c hr₂ v'
  . have hnot : ¬ (m.group a).Stores k := by
      intro hold
      rw [Fits, if_pos hold] at hfits
      exact hfits.elim hnew (fun hfull => hfull htakes)
    have hf : f k = none := by
      apply Classical.byContradiction
      exact fun hne => hnot (hstored.mpr hne)
    rw [if_pos hf, Function.update_apply]
    by_cases hkk : k' = k
    . subst hkk
      obtain rfl := hr.1.unique hr₂.1
      rw [if_pos rfl, if_pos rfl, hhas, h.agree k' a hr, hf]
      simp [eq_comm]
    . rw [if_neg hkk, ← h.agree k' c hr₂]
      split
      . next hc =>
        rw [hhas, hc]
        simp [hkk]
      . rfl

theorem Holds.run_update (h : Holds b hash cache m f) (hk : k ≠ kkeyNull) (hr : Reaches b cache k a) (v : Value)
    : ∃ m', (update b hash (rounds + 1) cache k v).run (exec i) m = some ((), m')
        ∧ Holds b hash cache m' (updateMap f k v) := by
  have hm := h.settled
  obtain ⟨hrouted, l, r, leafAddrs, hrange, hleaves, hmem⟩ := id hr
  unfold update
  rcases @searchAux_finds ι _ i b hash rounds cache m k leafAddrs l r hm.inv hm.node_uniform hk hrange hleaves
    with ⟨hrun, hnone⟩ | ⟨w, c, a', hrun, hc, hhas⟩
  . rw [Prog.run_bind_eq (exec i) hrun]
    refine ⟨m, rfl, ?_⟩
    have hf : f k = none := by
      rw [Option.eq_none_iff_forall_ne_some]
      intro w hw
      obtain ⟨c, hc, hhas⟩ := (has_iff_ofLeaf hrouted.isLeaf).mp ((h.agree k a hr w).mpr hw)
      exact hnone a hmem c hc (HopRecords.stores_iff.mpr ⟨w, hhas⟩)
    rwa [updateMap, if_pos hf]
  . have hf := h.has_of_ofLeaf hc hhas
    obtain ⟨-, p, hp⟩ := hhas
    have hs : StoredAt b m k a' c p := ⟨hc, congrArg Prod.fst hp⟩
    rw [Prog.run_bind_eq (exec i) hrun]
    refine ⟨updated m c p v, ?_, ?_⟩
    . dsimp only
      unfold updateLocked
      rw [Prog.run_bind_eq (exec i) (lockNode_run (hm.inv.sound a' hc.1).unlocked)]
      exact Spec.readAnother_run hm hk hs v _
    . obtain ⟨g', hg', hstep⟩ := hs.updates hm.inv.shape v
      refine ⟨hm.update hc.1 hg' hstep, fun k' c' hr' v' => ?_⟩
      have hset := (hs.setsValue_iff hm hk).mpr (rfl : v = v)
      rw [hset.has_iff hr'.1.isLeaf, updateMap, if_neg (by simp [hf]), Function.update_apply]
      simp only [h.agree k' c' hr']
      by_cases hkk : k' = k
      . subst hkk
        simp [h.agree k' c' hr', hf, eq_comm]
      . simp [hkk]

end Calls

/--
The memories that calls of any clients, one after another, lead to from zeroed memory, with the finite map
that the calls describe.
-/
inductive Run (b : Build) (hash : Key → Fin leafSpanSize) (cache : Cache) (id : ι → Nat)
    : Mem ι → (Key → Option Value) → Prop
  | init : Run b hash cache id (Mem.init b id) (fun _ => none)
  | insert {i : ι} {rounds : Nat} {m m' : Mem ι} {f : Key → Option Value} {k : Key} {v : Value}
      {a : GlobalAddress} (h : Run b hash cache id m f) (hk : k ≠ kkeyNull) (hr : Reaches b cache k a)
      (hfits : Fits b hash k (m.group a))
      (hrun : (insert b hash rounds cache k v).run (exec i) m = some (.ok (), m'))
      : Run b hash cache id m' (insertMap f k v)
  | update {i : ι} {rounds : Nat} {m m' : Mem ι} {f : Key → Option Value} {k : Key} {v : Value}
      {a : GlobalAddress} (h : Run b hash cache id m f) (hk : k ≠ kkeyNull) (hr : Reaches b cache k a)
      (hrun : (update b hash (rounds + 1) cache k v).run (exec i) m = some ((), m'))
      : Run b hash cache id m' (updateMap f k v)

theorem Run.holds {id : ι → Nat} (h : Run b hash cache id m f) : Holds b hash cache m f := by
  induction h with
  | init => exact Holds.init
  | insert h hk hr hfits hrun ih => exact ih.of_insert hk hr hfits hrun
  | update h hk hr hrun ih =>
    obtain ⟨m₁, hrun', hholds⟩ := ih.run_update hk hr _
    rw [hrun'] at hrun
    cases hrun
    exact hholds

/--
In all builds with hopscotch leaves: after any calls of which no insert stores a key twice or drops it, a
search answers as the finite map does and an update returns and does to the memory what it does to the map.
-/
theorem hop_run_refines_map {id : ι → Nat} (h : Run b hash cache id m f) (hk : k ≠ kkeyNull)
    (hr : Reaches b cache k a) (i : ι) (rounds : Nat)
    : (search b hash (rounds + 1) cache k).run (exec i) m = some (f k, m)
        ∧ ∀ v, ∃ m', (update b hash (rounds + 1) cache k v).run (exec i) m = some ((), m')
            ∧ Run b hash cache id m' (updateMap f k v) := by
  refine ⟨h.holds.run_search hk hr, fun v => ?_⟩
  obtain ⟨m', hrun, -⟩ := h.holds.run_update (i := i) hk hr v
  exact ⟨m', hrun, h.update hk hr hrun⟩

-- the second insert of the key leaves its value, an update changes it
theorem hop_run_refines_map_again
    : ∃ (C : RolexCache) (m m' m'' : Mem Unit), RolexCache.new sampleKeys = some C
        ∧ (insert ⟨false, false⟩ getHashedLeafEntryIndex 1 C.toCache (int2key 1000001) 7).run (exec ())
            (Mem.init ⟨false, false⟩ (fun _ => 0)) = some (.ok (), m)
        ∧ (insert ⟨false, false⟩ getHashedLeafEntryIndex 1 C.toCache (int2key 1000001) 9).run (exec ()) m
            = some (.ok (), m')
        ∧ (search ⟨false, false⟩ getHashedLeafEntryIndex 1 C.toCache (int2key 1000001)).run (exec ()) m'
            = some (some 7, m')
        ∧ (update ⟨false, false⟩ getHashedLeafEntryIndex 1 C.toCache (int2key 1000001) 8).run (exec ()) m'
            = some ((), m'')
        ∧ (search ⟨false, false⟩ getHashedLeafEntryIndex 1 C.toCache (int2key 1000001)).run (exec ()) m''
            = some (some 8, m'') := by
  obtain ⟨C, m, m', hC, hm, hm', hrouted, hhome⟩ := exists_insert_again
  have hk : int2key 1000001 ≠ kkeyNull := by decide
  have hr := reaches_of_insert_run hrouted hm
  have hone := Run.init.insert hk hr (by
    rw [Fits, if_neg]
    . exact .inr (fun n hn => by cases hn)
    . exact not_stores_init _) hm
  have htwo := hone.insert hk hr (by
    rw [Fits, if_pos (.inl ⟨hk, _, hhome⟩)]
    exact .inl (seen_of_home hhome)) hm'
  obtain ⟨hsearch, hupdate⟩ := hop_run_refines_map htwo hk hr () 0
  obtain ⟨m'', hm'', hthree⟩ := hupdate 8
  refine ⟨C, m, m', m'', hC, hm, hm', ?_, hm'', ?_⟩
  . simpa [insertMap] using hsearch
  . simpa [insertMap, updateMap] using (hop_run_refines_map hthree hk hr () 0).1

end Hop

end Rolex

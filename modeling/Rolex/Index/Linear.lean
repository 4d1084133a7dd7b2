import Rolex.Index.Locking

/-!
This module contains the calls of any number of clients at once as those of a finite map: the calls that
have released the lock of a leaf, in the order in which they released it, are what a search finds in it.
-/

namespace Rolex

def Call.key : Call → Key
  | .insert k _ => k
  | .update k _ => k
  | .search k => k

/-- What a call does to a finite map. -/
def Call.toMap (f : Key → Option Value) : Call → Key → Option Value
  | .insert k v => insertMap f k v
  | .update k v => updateMap f k v
  | .search _ => f

def mapOf (cs : List Call) : Key → Option Value := cs.foldl Call.toMap (fun _ => none)

theorem mapOf_append (cs : List Call) (c : Call) : mapOf (cs ++ [c]) = c.toMap (mapOf cs) := by
  unfold mapOf
  rw [List.foldl_append]
  rfl

def Call.insertedKey : Call → Option Key
  | .insert k _ => some k
  | .update _ _ => none
  | .search _ => none

def insertedKeys (cs : List Call) : Finset Key := (cs.filterMap Call.insertedKey).toFinset

theorem mem_insertedKeys {cs : List Call} {k : Key}
    : k ∈ insertedKeys cs ↔ ∃ v, Call.insert k v ∈ cs := by
  unfold insertedKeys
  rw [List.mem_toFinset, List.mem_filterMap]
  constructor
  . intro h
    obtain ⟨c, hc, hk⟩ := h
    cases c with
    | insert k' v =>
      cases hk
      exact ⟨v, hc⟩
    | update k' v => cases hk
    | search k' => cases hk
  . exact fun h => ⟨_, h.choose_spec, rfl⟩

section Serial

variable {g g' : Group} {k : Key} {v : Value} {cs : List Call}

def Records.keys (r : Records) : Finset Key := (Finset.range leafSpanSize).image (fun t => (r.get t).key)

theorem Records.Sorted.of_mem_keys {r : Records} (h : r.Sorted leafSpanSize) (hk : k ∈ r.keys)
    : k ≠ kkeyNull ∧ ∃ v, r.Has k v := by
  obtain ⟨t, ht, rfl⟩ := Finset.mem_image.mp hk
  rw [Finset.mem_range] at ht
  exact ⟨h.live t ht, _, Records.has_of_get ht⟩

theorem Records.Sorted.card_keys {r : Records} (h : r.Sorted leafSpanSize) : r.keys.card = leafSpanSize := by
  unfold Records.keys
  rw [Finset.card_image_of_injOn, Finset.card_range]
  intro t ht u hu heq
  exact h.key_injective (Finset.mem_range.mp ht) (Finset.mem_range.mp hu) heq

theorem Group.Inv.card_of_not_room (h : g.Inv) (hroom : ¬ g.Room) {K : Finset Key}
    (hK : ∀ k v, k ≠ kkeyNull → g.Has k v → k ∈ K)
    (hk : k ∈ K) (habsent : ∀ w, ¬ g.Has k w)
    : 2 * leafSpanSize < K.card := by
  obtain ⟨s, hsyn, hs⟩ := h.full_of_not_room hroom
  have hleaf := h.full s hsyn
  have hdisj : Disjoint g.leaf.records.keys s.records.keys := by
    rw [Finset.disjoint_left]
    intro x hA hB
    obtain ⟨t, ht, rfl⟩ := Finset.mem_image.mp hA
    obtain ⟨u, hu, heq⟩ := Finset.mem_image.mp hB
    have hlt := h.lt s hsyn t u (Finset.mem_range.mp ht) (hs.live u (Finset.mem_range.mp hu))
    rw [heq] at hlt
    exact lt_irrefl _ hlt
  have hsub : g.leaf.records.keys ∪ s.records.keys ⊆ K.erase k := by
    intro x hx
    obtain ⟨hnull, w, hw⟩ : x ≠ kkeyNull ∧ ∃ w, g.Has x w := by
      cases Finset.mem_union.mp hx with
      | inl hx => exact (hleaf.of_mem_keys hx).imp_right (fun h => ⟨_, .inl h.choose_spec⟩)
      | inr hx => exact (hs.of_mem_keys hx).imp_right (fun h => ⟨_, .inr ⟨s, hsyn, h.choose_spec⟩⟩)
    exact Finset.mem_erase_of_ne_of_mem (fun hxk => habsent w (hxk ▸ hw)) (hK x w hnull hw)
  have hcard := Finset.card_le_card hsub
  have hpos := Finset.card_pos.mpr ⟨k, hk⟩
  rw [Finset.card_union_of_disjoint hdisj, hleaf.card_keys, hs.card_keys, Finset.card_erase_of_mem hk] at hcard
  omega

theorem Group.Updates.eq_update (h : g.Updates k v g') (hinv : g.Inv) (hk : k ≠ kkeyNull)
    : g' = g.update k v := by
  unfold Group.update
  cases h with
  | leaf h => rw [h]
  | @syn s n hs h =>
    have hnone : updateLocally k v g.leaf = none := by
      rw [updateLocally_eq_none]
      intro t ht heq
      obtain ⟨u, -, hu, -⟩ := updateLocally_some h
      have hlt := hinv.lt s hs t u ht (by rwa [hu])
      rw [heq, hu] at hlt
      exact lt_irrefl _ hlt
    simp only [hnone, hs, Option.bind_some, h]

/-- The group holds the map of the calls as long as they insert no more keys than it has records. -/
structure Group.Follows (g : Group) (cs : List Call) : Prop where
  inv : g.Inv
  inserted : ∀ k v, k ≠ kkeyNull → g.Has k v → k ∈ insertedKeys cs
  agree : (insertedKeys cs).card ≤ 2 * leafSpanSize →
    ∀ k v, k ≠ kkeyNull → (g.Has k v ↔ mapOf cs k = some v)

theorem Group.Follows.insert (h : g.Follows cs) (hk : k ≠ kkeyNull) {addr : GlobalAddress}
    (haddr : addr ≠ GlobalAddress.null) (v : Value)
    : (g.insert addr k v).Follows (cs ++ [.insert k v]) where
  inv := h.inv.insert hk haddr
  inserted := by
    intro k' v' hk' hhas
    rw [mem_insertedKeys]
    rcases (insertLocally_cases h.inv hk v).has_of_has_apply hk' hhas with ⟨rfl, -⟩ | hold
    . exact ⟨v, by simp⟩
    . obtain ⟨w, hw⟩ := mem_insertedKeys.mp (h.inserted k' v' hk' hold)
      exact ⟨w, List.mem_append_left _ hw⟩
  agree := by
    intro hcard k' v' hk'
    have hsub : insertedKeys cs ⊆ insertedKeys (cs ++ [.insert k v]) := by
      intro x hx
      obtain ⟨w, hw⟩ := mem_insertedKeys.mp hx
      exact mem_insertedKeys.mpr ⟨w, List.mem_append_left _ hw⟩
    have hagree := h.agree (Nat.le_trans (Finset.card_le_card hsub) hcard)
    rw [mapOf_append, Call.toMap, insertMap]
    split
    . next hf =>
      have habsent : ∀ w, ¬ g.Has k w := by
        intro w
        rw [hagree k w hk, hf]
        simp
      have hroom : g.Room := by
        apply Classical.byContradiction
        intro hroom
        have hlt := h.inv.card_of_not_room hroom (fun x w hx hw => hsub (h.inserted x w hx hw))
          (mem_insertedKeys.mpr ⟨v, by simp⟩) habsent
        omega
      rw [h.inv.has_insert hk hroom habsent hk', hagree k' v' hk', Function.update_apply]
      split
      . next hkk => simp [hkk, hf, eq_comm]
      . next hkk => simp [hkk]
    . next hf =>
      obtain ⟨w, hw⟩ := Option.ne_none_iff_exists'.mp hf
      rw [h.inv.insert_of_has hk ((hagree k w hk).mpr hw)]
      exact hagree k' v' hk'

theorem Group.Follows.update (h : g.Follows cs) (hk : k ≠ kkeyNull) (v : Value)
    : (g.update k v).Follows (cs ++ [.update k v]) := by
  have hkeys : insertedKeys (cs ++ [.update k v]) = insertedKeys cs := by
    unfold insertedKeys
    rw [List.filterMap_append]
    exact congrArg List.toFinset (List.append_nil _)
  refine ⟨h.inv.update, ?_, ?_⟩
  . intro k' v' hk' hhas
    rw [hkeys]
    rcases (h.inv.has_update hk).mp hhas with ⟨rfl, -, w, hw⟩ | ⟨-, hold⟩
    . exact h.inserted k' w hk' hw
    . exact h.inserted k' v' hk' hold
  . intro hcard k' v' hk'
    rw [hkeys] at hcard
    rw [h.inv.has_update hk, mapOf_append, Call.toMap, updateMap]
    simp only [h.agree hcard k _ hk, h.agree hcard k' _ hk']
    split
    . next hf =>
      by_cases hkk : k' = k
      . simp [hkk, hf]
      . simp [hkk]
    . next hf =>
      obtain ⟨w, hw⟩ := Option.ne_none_iff_exists'.mp hf
      by_cases hkk : k' = k
      . simp [hkk, hw, eq_comm]
      . simp [hkk]

theorem Serial.follows {g₀ : Group} (h : Serial g₀ cs g) (h₀ : g₀.Follows [])
    (hkeys : ∀ c ∈ cs, c.key ≠ kkeyNull)
    : g.Follows cs := by
  induction h with
  | nil => exact h₀
  | insert _ haddr ih =>
    have hk := hkeys _ (List.mem_append_right _ (List.mem_singleton_self _))
    exact (ih (fun c hc => hkeys c (List.mem_append_left _ hc))).insert hk haddr _
  | update _ hup ih =>
    have hcs := ih (fun c hc => hkeys c (List.mem_append_left _ hc))
    have hk := hkeys _ (List.mem_append_right _ (List.mem_singleton_self _))
    rw [hup.eq_update hcs.inv hk]
    exact hcs.update hk _

end Serial

section Aim

variable {a : GlobalAddress} {w : BitVec 64}

/-- An insert releases no other lock than that of the leaf its key is routed to. -/
def Aims (cache : Cache) (c : Call) (o : Op) : Prop :=
  ∀ k v a w, c = .insert k v → o = .writeLock a w → Routed cache k a

theorem Aims.of_ne {cache : Cache} {c : Call} {o : Op} (h : ∀ a w, o ≠ .writeLock a w) : Aims cache c o :=
  fun _ _ a w _ ho => absurd ho (h a w)

theorem only_of_forall {α : Type} {c : Call} {cache : Cache} (hc : ∀ k v, c ≠ .insert k v) (p : ProgM α)
    : p.Only (Aims cache c) := by
  induction p with
  | ret a => trivial
  | fail => trivial
  | op o k ih => exact ⟨fun k v _ _ h => absurd h (hc k v), ih⟩

variable {P : Op → Prop}

theorem fetchNodes_only (hread : ∀ b, P (.read b)) (addrs : List GlobalAddress)
    : (fetchNodes addrs).Only P := by
  induction addrs with
  | nil => trivial
  | cons b addrs ih => exact ⟨hread b, fun r => ih.bind (fun _ => trivial)⟩

theorem acquire_only (hcas : ∀ e v c s, P (.casMask a e v c s)) (attempts : Nat)
    : (lockNode.acquire a attempts).Only P := by
  induction attempts with
  | zero => trivial
  | succ attempts ih =>
    simp only [lockNode.acquire, Prog.call_bind]
    refine ⟨hcas _ _ _ _, fun r => ?_⟩
    dsimp only
    split
    . trivial
    . exact ih

theorem writeNodesAndUnlock_only (hwrite : ∀ b n, P (.write b n)) (hlock : P (.writeLock a w))
    (leaves : List (GlobalAddress × LeafNode))
    : (writeNodesAndUnlock leaves a w).Only P := by
  induction leaves with
  | nil => exact ⟨hlock, fun _ => trivial⟩
  | cons p leaves ih => exact ⟨hwrite _ _, fun _ => ih⟩

theorem fetchSyn_only (hread : ∀ b, P (.read b)) (leaf : LeafNode)
    : (fetchSyn leaf).Only P := by
  unfold fetchSyn
  split
  . trivial
  . exact ⟨hread _, fun _ => trivial⟩

theorem writePlan_only {d : GlobalAddress} (hwrite : ∀ b n, P (.write b n)) (halloc : ∀ size, P (.alloc size))
    (hlock : P (.writeLock a w)) (plan : Plan)
    : (writePlan a d w plan).Only P := by
  have hunlock := writeNodesAndUnlock_only hwrite hlock
  cases plan with
  | existing => exact hunlock []
  | writeLeaf leaf => exact hunlock _
  | writeSyn synLeaf overrun => exact hunlock _
  | writeBoth leaf synLeaf overrun => exact hunlock _
  | link leaf synLeaf =>
    refine ⟨halloc _, fun res => ?_⟩
    cases res with
    | none => trivial
    | some synAddr => exact hunlock _

theorem insert_only (cache : Cache) (k : Key) (v : Value)
    : (insert cache k v).Only (Aims cache (.insert k v)) := by
  have hread : ∀ b, Aims cache (.insert k v) (.read b) := fun _ => .of_ne (by simp)
  unfold insert
  cases hc : cache.searchFromCacheForInsert k with
  | none => trivial
  | some res =>
    obtain ⟨l, r, insertIdx⟩ := res
    simp only [Prog.check_some, Prog.ret_bind]
    cases hl : leafAddresses l r with
    | none => trivial
    | some leafAddrs =>
      apply (fetchNodes_only hread leafAddrs).bind
      intro _
      cases ha : getLeafAddress insertIdx with
      | none => trivial
      | some a =>
        have hlock : ∀ w, Aims cache (.insert k v) (.writeLock a w) := by
          intro w k' v' a' w' hcall hop
          cases hcall
          cases hop
          exact ⟨l, r, insertIdx, leafAddrs, hc, hl, ha⟩
        simp only [Prog.check_some, Prog.ret_bind, insertLocked, fetchNode, Prog.call_bind]
        apply (acquire_only (fun _ _ _ _ => .of_ne (by simp)) _).bind
        intro w
        refine ⟨hread _, fun leaf => (fetchSyn_only hread leaf).bind (fun synLeaf => ?_)⟩
        have hplan := writePlan_only (d := leaf.metadata.synonymPtr) (fun _ _ => Aims.of_ne (by simp))
          (fun _ => .of_ne (by simp)) (hlock w) (insertLocally k v leaf synLeaf)
        exact hplan.bind (fun _ => trivial)

theorem body_only (cache : Cache) (c : Call) : (c.body cache).Only (Aims cache c) := by
  cases c with
  | insert k v => exact (insert_only cache k v).bind (fun _ => trivial)
  | update k v => exact only_of_forall (fun _ _ h => by cases h) _
  | search k => exact only_of_forall (fun _ _ h => by cases h) _

end Aim

section System

variable {ι : Type} [DecidableEq ι] {cache : Cache} {calls : ι → List Call}
variable {S : System ι Call Answer Op Op.Res (Mem ι)} {a : GlobalAddress}

omit [DecidableEq ι] in
theorem mem_commits {trace : List (IndexEvent ι)} {c : Call} (h : c ∈ commits a trace)
    : ∃ e ∈ trace, e.call = c ∧ ∃ w, e.op = .writeLock a w := by
  obtain ⟨⟨i, c', o, r⟩, he, hc⟩ := List.mem_filterMap.mp h
  refine ⟨_, he, ?_⟩
  cases o with
  | writeLock b w =>
    simp only [commitOf, lockOp, Option.ite_none_right_eq_some, Option.some.injEq] at hc
    obtain ⟨rfl, rfl⟩ := hc
    exact ⟨rfl, w, rfl⟩
  | casMask b e v cm sm => grind [commitOf, lockOp]
  | read b => cases hc
  | write b n => cases hc
  | alloc size => cases hc

omit [DecidableEq ι] in
theorem Mem.init_follows (ha : IsLeaf a) : ((Mem.init : Mem ι).group a).Follows [] := by
  have habsent : ∀ k v, k ≠ kkeyNull → ¬ ((Mem.init : Mem ι).group a).Has k v := by
    rintro k v hk (⟨t, -, hkey, -⟩ | ⟨s, hs, -⟩)
    . exact hk (hkey.symm.trans (by simp [Mem.group, Mem.init, LeafEntry.null]))
    . cases hs
  refine ⟨Mem.init_inv.group a ha, fun k v hk h => absurd h (habsent k v hk), fun _ k v hk => ?_⟩
  exact iff_of_false (habsent k v hk) (fun h => by cases h)

/--
Any clients with any calls, in any interleaving from zeroed memory: an insert only unlocks the leaf that its
key is routed to. Once no lock is held, a search for a key answers as the map of the calls that have locked
its leaf, in the order in which they released it, if these insert no more different keys than the leaf and
its synonym leaf have records.
-/
theorem concurrent_calls_refine_map (hkeys : ∀ i, ∀ c ∈ calls i, c.key ≠ kkeyNull)
    (hsteps : System.Steps exec (fun _ => Call.body cache) (System.init Mem.init calls) S)
    : (∀ e ∈ S.world.trace, ∀ k v b w, e.call = .insert k v → e.op = .writeLock b w → Routed cache k b)
        ∧ ((∀ b, IsLeaf b → ∀ i, held b i S.world.trace = none) →
            ∀ k a i, k ≠ kkeyNull → Routed cache k a →
              (insertedKeys (commits a S.world.trace)).card ≤ 2 * leafSpanSize →
              (search cache k).run (exec i) S.world.mem
                = some (mapOf (commits a S.world.trace) k, S.world.mem)) := by
  have hsound := sound_of_steps Mem.init_shape Mem.init_inv.unlocked hsteps
  have hevent := System.trace_only (fun _ c => c.key ≠ kkeyNull) (fun _ => body_only cache) hkeys hsteps
  refine ⟨fun e he => (hevent e he).2, ?_⟩
  intro hfree k a i hk hr hfew
  have hfollows : ∀ b, IsLeaf b → (S.world.mem.group b).Follows (commits b S.world.trace) := by
    intro b hb
    apply ((hsound.leaf hb).free (hfree b hb)).2.follows (Mem.init_follows hb)
    intro c hc
    obtain ⟨e, he, rfl, -⟩ := mem_commits hc
    exact (hevent e he).1
  have hinv : S.world.mem.Inv :=
    ⟨hsound.shape, fun b hb => (hfollows b hb).inv, fun b hb => ((hsound.leaf hb).free (hfree b hb)).1⟩
  -- a key is found in no other leaf, as no insert has brought it there
  have honly : ∀ b, IsLeaf b → b ≠ a → ∀ w, ¬ (S.world.mem.group b).Has k w := by
    intro b hb hne w hw
    obtain ⟨v, hv⟩ := mem_insertedKeys.mp ((hfollows b hb).inserted k w hk hw)
    obtain ⟨e, he, hcall, x, hop⟩ := mem_commits hv
    exact hne (((hevent e he).2 k v b x hcall hop).unique hr)
  obtain ⟨res, hrun, hres⟩ := search_run (i := i) hinv hk hr honly
  have heq : res = mapOf (commits a S.world.trace) k := by
    apply Option.ext
    intro v
    rw [hres, (hfollows a hr.isLeaf).agree hfew k v hk]
  rw [hrun, heq]

theorem held_eq_none {trace : List (IndexEvent ι)} {i : ι} (h : ∀ e ∈ trace, Spares a e)
    : held a i trace = none := by
  induction trace using List.reverseRecOn with
  | nil => rfl
  | append_singleton trace e ih =>
    rw [(h e (by simp)).held_append]
    exact ih (fun e he => h e (List.mem_append_left _ he))

set_option maxRecDepth 10000 in
-- the second client fails to lock the leaf while the first one inserts, and then finds the key there
theorem concurrent_calls_refine_map_sample
    : ∃ (C : RolexCache) (S : System Bool Call Answer Op Op.Res (Mem Bool)),
        RolexCache.new sampleKeys = some C
        ∧ System.Steps exec (fun _ => Call.body C.toCache) (System.init Mem.init (fun b =>
            if b then [.insert (int2key 1000001) 8] else [.insert (int2key 1000001) 7])) S
        ∧ (∀ e ∈ S.world.trace, ∀ k v b w, e.call = .insert k v → e.op = .writeLock b w → Routed C.toCache k b)
        ∧ (search C.toCache (int2key 1000001)).run (exec true) S.world.mem = some (some 7, S.world.mem) := by
  let a := GlobalAddress.of 0 8389520
  have hrun : ((RolexCache.new sampleKeys).bind (fun C =>
      (System.schedule exec (fun _ => Call.body C.toCache)
        [false, false, false, true, true, true, false, false, false, true, true, true]
        (System.init Mem.init (fun b =>
          if b then [.insert (int2key 1000001) 8] else [.insert (int2key 1000001) 7]))).map
        (fun S : System Bool Call Answer Op Op.Res (Mem Bool) =>
          decide (held a false S.world.trace = none ∧ held a true S.world.trace = none
            ∧ (∀ l ∈ S.world.trace.filterMap (fun e : IndexEvent Bool => lockOp e.op e.res), l.addr = a)
            ∧ (commits a S.world.trace).length = 2
            ∧ mapOf (commits a S.world.trace) (int2key 1000001) = some 7
            ∧ (C.toCache.searchFromCacheForInsert (int2key 1000001)).bind (fun x =>
                (leafAddresses x.1 x.2.1).bind (fun _ => getLeafAddress x.2.2)) = some a)))) = some true := by
    decide +kernel
  obtain ⟨C, hC, hrun⟩ := Option.bind_eq_some_iff.mp hrun
  obtain ⟨S, hS, hfacts⟩ := Option.map_eq_some_iff.mp hrun
  obtain ⟨hfalse, htrue, hspare, hlen, hmap, hroute⟩ := of_decide_eq_true hfacts
  obtain ⟨⟨l, r, insertIdx⟩, hc, hroute⟩ := Option.bind_eq_some_iff.mp hroute
  obtain ⟨leafAddrs, hl, ha⟩ := Option.bind_eq_some_iff.mp hroute
  have hr : Routed C.toCache (int2key 1000001) a := ⟨l, r, insertIdx, leafAddrs, hc, hl, ha⟩
  have hsteps := System.steps_of_schedule hS
  have hkeys : ∀ b : Bool, ∀ c ∈ (if b then [.insert (int2key 1000001) 8] else [.insert (int2key 1000001) 7]
      : List Call), c.key ≠ kkeyNull := by
    decide +kernel
  obtain ⟨haims, hsearch⟩ := concurrent_calls_refine_map hkeys hsteps
  refine ⟨C, S, hC, hsteps, haims, ?_⟩
  rw [← hmap]
  refine hsearch ?_ _ a true (by decide) hr ?_
  . intro b _ i
    by_cases hb : b = a
    . subst hb
      cases i with
      | false => exact hfalse
      | true => exact htrue
    . apply held_eq_none
      intro e he l hl heq
      exact hb (heq.symm.trans (hspare l (List.mem_filterMap.mpr ⟨e, he, hl⟩)))
  . have hle := (List.toFinset_card_le _).trans
      (List.length_filterMap_le Call.insertedKey (commits a S.world.trace))
    exact hle.trans (hlen.le.trans (by decide))

end System

end Rolex

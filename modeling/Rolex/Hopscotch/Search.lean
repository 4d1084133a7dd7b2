import Rolex.Hopscotch.Split

/-!
This module contains what the search in a fetched node finds, and the nodes that inserts, splits and
updates lead to.
-/

namespace Rolex

variable {hash : Key → Fin leafSpanSize} {r s : HopRecords} {k k' : Key} {v : Value}

/-- The record `d` slots behind `q` has its home at `q`. -/
def HomeAt (hash : Key → Fin leafSpanSize) (s : HopRecords) (q : Fin leafSpanSize) (d : Nat) : Prop :=
  (s.getEntry (q.val + d)).key ≠ kkeyNull ∧ hash (s.getEntry (q.val + d)).key = q

instance (q : Fin leafSpanSize) (d : Nat) : Decidable (HomeAt hash s q d) := by
  unfold HomeAt
  infer_instance

/-- The bitmap of slot `q` says which records of the neighborhood have their home there. -/
def BitsAt (hash : Key → Fin leafSpanSize) (s : HopRecords) (q : Fin leafSpanSize) : Prop :=
  ∀ d, d < neighborSize → (s.get q).hopBit d = decide (HomeAt hash s q d)

theorem HopRecords.Inv.bitsAt (hinv : r.Inv hash) (q : Fin leafSpanSize) : BitsAt hash r q := by
  intro d hd
  rw [Bool.eq_iff_iff, decide_eq_true_iff]
  exact hinv.bits q d hd

theorem AgreeOn.homeAt {q : Fin leafSpanSize} {d : Nat}
    (hrs : AgreeOn q.val (q.val + neighborSize - 1) r s) (hd : d < neighborSize)
    : HomeAt hash r q d ↔ HomeAt hash s q d := by
  unfold HomeAt
  rw [hrs (q.val + d) (by omega) (by omega)]

theorem AgreeOn.bitsAt {q : Fin leafSpanSize}
    (hrs : AgreeOn q.val (q.val + neighborSize - 1) r s) (h : BitsAt hash r q)
    : BitsAt hash s q := by
  have h8 := neighborSize_eq
  intro d hd
  have hq := hrs q.val (by omega) (by omega)
  rw [HopRecords.getEntry_val, HopRecords.getEntry_val] at hq
  rw [← hq, h d hd]
  exact decide_eq_decide.mpr (hrs.homeAt hd)

theorem hopBitmap_eq_iff {b : BitVec neighborSize} {e : HopEntry}
    : b = e.hopBitmap
      ↔ ∀ d, d < neighborSize → b.getLsbD (neighborSize - d - 1) = e.hopBit d := by
  constructor
  . rintro rfl d -
    rfl
  . intro h
    apply BitVec.eq_of_getLsbD_eq
    intro i hi
    have hd := h (neighborSize - i - 1) (by omega)
    have hi' : neighborSize - (neighborSize - i - 1) - 1 = i := by omega
    unfold HopEntry.hopBit at hd
    rw [hi'] at hd
    exact hd

theorem getLsbD_or_twoPow {b : BitVec neighborSize} {j d : Nat} (hj : j < neighborSize)
    (hd : d < neighborSize)
    : (b ||| BitVec.twoPow neighborSize (neighborSize - j - 1)).getLsbD (neighborSize - d - 1)
      = (b.getLsbD (neighborSize - d - 1) || decide (d = j)) := by
  have hlt : neighborSize - j - 1 < neighborSize := by omega
  have hiff : neighborSize - j - 1 = neighborSize - d - 1 ↔ d = j := by omega
  rw [BitVec.getLsbD_or, BitVec.getLsbD_twoPow]
  simp only [hlt, hiff, decide_true, Bool.true_and]

/-- What the scan of a node tells about the slots from `first` on. -/
def Scanned (hash : Key → Fin leafSpanSize) (s : HopRecords) (k : Key) (first : Nat)
    : ScanResult → Prop
  | .found p v => ∃ d, d < neighborSize ∧ p = slot ((hash k).val + d) ∧ s.kv p = (k, v)
  | .reRead => ¬ BitsAt hash s (hash k)
  | .absent => BitsAt hash s (hash k) ∧ ∀ d, first ≤ d → d < neighborSize →
      (s.getEntry ((hash k).val + d)).key ≠ k

theorem Scanned.step {first : Nat} {res : ScanResult} (h : Scanned hash s k (first + 1) res)
    (hne : (s.getEntry ((hash k).val + first)).key ≠ k)
    : Scanned hash s k first res := by
  cases res with
  | found p v => exact h
  | reRead => exact h
  | absent =>
    refine ⟨h.1, ?_⟩
    intro d hd hd'
    by_cases heq : d = first
    . rw [heq]
      exact hne
    . exact h.2 d (by omega) hd'

theorem scanNode.go_spec (hk : k ≠ kkeyNull) {n : Nat} (hn : n ≤ neighborSize)
    {hopBitmap : BitVec neighborSize}
    (hbits : ∀ d, d < neighborSize → hopBitmap.getLsbD (neighborSize - d - 1)
      = decide (d < neighborSize - n ∧ HomeAt hash s (hash k) d))
    : Scanned hash s k (neighborSize - n) (scanNode.go hash s k n hopBitmap) := by
  induction n generalizing hopBitmap with
  | zero =>
    have hiff : hopBitmap = (s.get (hash k)).hopBitmap ↔ BitsAt hash s (hash k) := by
      rw [hopBitmap_eq_iff]
      apply forall_congr'
      intro d
      apply imp_congr_right
      intro hd
      rw [hbits d hd, eq_comm]
      simp only [Nat.sub_zero, hd, true_and]
    unfold scanNode.go
    by_cases h : hopBitmap = (s.get (hash k)).hopBitmap
    . rw [if_neg (not_not.mpr h)]
      exact ⟨hiff.mp h, fun d hd hd' => by omega⟩
    . rw [if_pos h]
      exact fun hb => h (hiff.mpr hb)
  | succ n ih =>
    have hfirst : neighborSize - n = neighborSize - (n + 1) + 1 := by omega
    unfold scanNode.go
    dsimp only
    split
    . next hhome =>
      split
      . next hkey => exact ⟨neighborSize - (n + 1), by omega, rfl, Prod.ext hkey rfl⟩
      . next hkey =>
        apply Scanned.step _ hkey
        rw [← hfirst]
        apply ih (by omega)
        intro d hd
        rw [getLsbD_or_twoPow (by omega) hd, hbits d hd, Bool.eq_iff_iff]
        simp only [Bool.or_eq_true, decide_eq_true_iff]
        constructor
        . rintro (h | rfl)
          . exact ⟨by omega, h.2⟩
          . exact ⟨by omega, hhome⟩
        . rintro ⟨hlt, h⟩
          by_cases heq : d = neighborSize - (n + 1)
          . exact .inr heq
          . exact .inl ⟨by omega, h⟩
    . next hhome =>
      have hkey : (s.getEntry ((hash k).val + (neighborSize - (n + 1) : Nat))).key ≠ k := by
        intro hkey
        rw [hkey] at hhome
        exact hhome ⟨hk, rfl⟩
      apply Scanned.step _ hkey
      rw [← hfirst]
      apply ih (by omega)
      intro d hd
      rw [hbits d hd, decide_eq_decide]
      constructor
      . rintro ⟨hlt, h⟩
        exact ⟨by omega, h⟩
      . rintro ⟨hlt, h⟩
        refine ⟨?_, h⟩
        by_contra hge
        have heq : d = neighborSize - (n + 1) := by omega
        rw [heq] at h
        exact hhome h

theorem scanNode_spec (hk : k ≠ kkeyNull) : Scanned hash s k 0 (scanNode hash s k) := by
  have hspec : Scanned hash s k (neighborSize - neighborSize) (scanNode.go hash s k neighborSize 0) := by
    apply scanNode.go_spec hk (le_refl neighborSize)
    simp
  rw [Nat.sub_self] at hspec
  exact hspec

theorem HopRecords.Inv.exists_offset (hinv : r.Inv hash) {p : Fin leafSpanSize} (hp : (r.get p).key ≠ kkeyNull)
    : ∃ d : Nat, d < neighborSize ∧ slot ((hash (r.get p).key).val + d) = p := by
  have h16 : (leafSpanSize : Int) = 16 := rfl
  have hnear := hinv.near p hp
  obtain ⟨d, hd⟩ : ∃ d : Nat, (d : Int) = ((p.val : Int) - (hash (r.get p).key).val) % leafSpanSize :=
    ⟨_, Int.toNat_of_nonneg (Int.emod_nonneg _ (by decide))⟩
  refine ⟨d, by omega, ?_⟩
  rw [h16] at hd
  rw [← slot_val p, slot_eq_slot_iff, slot_val p]
  omega

theorem scanNode_of_agree (hinv : r.Inv hash) (hk : k ≠ kkeyNull)
    (hrs : AgreeOn (hash k).val ((hash k).val + neighborSize - 1) r s)
    : (∃ p v, scanNode hash s k = .found p v ∧ r.kv p = (k, v))
        ∨ (scanNode hash s k = .absent ∧ ¬ r.Stores k) := by
  have h8 := neighborSize_eq
  have hspec : Scanned hash s k 0 (scanNode hash s k) := scanNode_spec hk
  cases h : scanNode hash s k with
  | found p v =>
    rw [h] at hspec
    obtain ⟨d, hd, rfl, hkv⟩ := hspec
    have heq : r.get (slot ((hash k).val + d)) = s.get (slot ((hash k).val + d)) :=
      hrs ((hash k).val + d) (by omega) (by omega)
    refine .inl ⟨_, v, rfl, ?_⟩
    unfold HopRecords.kv at hkv ⊢
    rw [heq]
    exact hkv
  | reRead =>
    rw [h] at hspec
    exact absurd (hrs.bitsAt (hinv.bitsAt (hash k))) hspec
  | absent =>
    rw [h] at hspec
    refine .inr ⟨rfl, ?_⟩
    rintro ⟨-, p, rfl⟩
    obtain ⟨d, hd, hslot⟩ := hinv.exists_offset hk
    have heq := hrs ((hash (r.get p).key).val + d) (by omega) (by omega)
    apply hspec.2 d (Nat.zero_le _) hd
    rw [← heq]
    unfold HopRecords.getEntry
    rw [hslot]

/-- The entry that `update` writes. -/
def HopRecords.updateEntry (r : HopRecords) (p : Fin leafSpanSize) (v : Value) : HopRecords :=
  r.set p ({ r.get p with value := v }.bumpEntryVersion 1) p.isLt

/--
The nodes that inserts of keys that are not stored and updates lead to. An insert sees a window of the
node, and what it has not fetched may hold anything.
-/
inductive HopReachable (hash : Key → Fin leafSpanSize) : HopNode → Prop
  | zero : HopReachable hash HopNode.zero
  | insert {n : HopNode} {k : Key} {v : Value} {entryNum : Nat} {fetched : HopRecords} {res : Hopped}
      (reach : HopReachable hash n) (key : k ≠ kkeyNull) (fresh : ¬ n.records.Stores k)
      (fetch : AgreeOn (hash k).val ((hash k).val + entryNum - 1) n.records fetched)
      (ok : hopscotchInsert hash fetched k v entryNum = .ok (some res))
      : HopReachable hash { n with
          records := segmentWrite n.records res.records (hash k).val (slot res.emptyIdx).val
            res.hoppedIdxes }
  | insertLocally {n : HopNode} {k : Key} {v : Value} {r' : HopRecords}
      (reach : HopReachable hash n) (key : k ≠ kkeyNull) (fresh : ¬ n.records.Stores k)
      (ok : hopscotchInsertLocally hash n.records k v = .ok r')
      : HopReachable hash { n with records := r' }
  | splitLeaf {n leaf syn : HopNode} {k : Key} {v : Value} {synonymAddr : GlobalAddress}
      (reach : HopReachable hash n) (key : k ≠ kkeyNull) (fresh : ¬ n.records.Stores k)
      (ok : hopscotchSplit hash n k v synonymAddr = .ok (leaf, syn))
      : HopReachable hash leaf.bumpNodeVersions
  | splitSyn {n leaf syn : HopNode} {k : Key} {v : Value} {synonymAddr : GlobalAddress}
      (reach : HopReachable hash n) (key : k ≠ kkeyNull) (fresh : ¬ n.records.Stores k)
      (ok : hopscotchSplit hash n k v synonymAddr = .ok (leaf, syn))
      : HopReachable hash syn.bumpNodeVersions
  | update {n : HopNode} {p : Fin leafSpanSize} (v : Value) (reach : HopReachable hash n)
      : HopReachable hash { n with records := n.records.updateEntry p v }
  | encode {n : HopNode} (reach : HopReachable hash n) : HopReachable hash n.bumpNodeVersions

/-- The hopscotch invariant, no key twice, and one node version throughout the node. -/
structure HopNode.WellFormed (hash : Key → Fin leafSpanSize) (n : HopNode) : Prop where
  inv : n.records.Inv hash
  distinct : n.records.Distinct
  nodeVersion : ∀ p, (n.records.get p).hVersion.nodeVersion = n.metadata.hVersion.nodeVersion

namespace HopRecords

theorem Distinct.congr (hdist : r.Distinct) (hkey : ∀ p, (s.get p).key = (r.get p).key)
    : s.Distinct := by
  intro p q hp heq
  rw [hkey] at hp
  rw [hkey, hkey] at heq
  exact hdist p q hp heq

theorem get_updateEntry (r : HopRecords) (p : Fin leafSpanSize) (v : Value) (q : Fin leafSpanSize)
    : (r.updateEntry p v).get q
      = if q = p then { r.get p with value := v }.bumpEntryVersion 1 else r.get q := by
  change (Vector.set r p.val _ p.isLt)[q.val] = if q = p then _ else r[q.val]
  rw [Vector.getElem_set]
  simp only [Fin.ext_iff, eq_comm]

end HopRecords

namespace HopNode

theorem get_bumpNodeVersions (n : HopNode) (p : Fin leafSpanSize)
    : n.bumpNodeVersions.records.get p
      = { n.records.get p with hVersion := { (n.records.get p).hVersion with
          nodeVersion := (n.records.get 0).hVersion.nodeVersion + 1 } } := by
  change (Vector.map _ n.records)[p.val] = _
  rw [Vector.getElem_map]
  rfl

theorem wellFormed_bumpNodeVersions {n : HopNode} (hinv : n.records.Inv hash)
    (hdist : n.records.Distinct)
    : n.bumpNodeVersions.WellFormed hash where
  inv := by
    apply hinv.congr
    . intro p
      rw [get_bumpNodeVersions]
    . intro p
      rw [get_bumpNodeVersions]
  distinct := by
    apply hdist.congr
    intro p
    rw [get_bumpNodeVersions]
  nodeVersion := by
    intro p
    rw [get_bumpNodeVersions]
    rfl

theorem wellFormed_zero : zero.WellFormed hash where
  inv := HopRecords.zero_inv hash
  distinct := by
    intro p q hp
    exact absurd (congrArg HopEntry.key (HopRecords.get_zero p)) hp
  nodeVersion := by
    intro p
    exact congrArg (fun e => e.hVersion.nodeVersion) (HopRecords.get_zero p)

namespace WellFormed

variable {n : HopNode}

theorem hops (h : n.WellFormed hash) (hk : k ≠ kkeyNull) (hfresh : ¬ n.records.Stores k)
    {e : Int} {l l' : List Nat} {r' : HopRecords} (hh : Hops hash n.records k v e l r')
    : { n with records := r'.bumpEntries l' : HopNode }.WellFormed hash where
  inv := (hh.inv hk).bumpEntries l'
  distinct := by
    apply (hh.distinct h.distinct hfresh hk).congr
    intro p
    rw [HopRecords.get_bumpEntries]
    rfl
  nodeVersion := by
    intro p
    change ((r'.bumpEntries l').get p).hVersion.nodeVersion = _
    rw [HopRecords.get_bumpEntries]
    change (r'.get p).hVersion.nodeVersion = _
    rw [(hh.chain.versions p).1]
    exact h.nodeVersion p

theorem updateEntry (h : n.WellFormed hash) (p : Fin leafSpanSize) (v : Value)
    : { n with records := n.records.updateEntry p v : HopNode }.WellFormed hash := by
  have hget := n.records.get_updateEntry p v
  have hkey : ∀ q, ((n.records.updateEntry p v).get q).key = (n.records.get q).key := by
    intro q
    rw [hget]
    split
    . next h => rw [h]; rfl
    . rfl
  refine ⟨h.inv.congr hkey ?_, h.distinct.congr hkey, ?_⟩
  . intro q
    rw [hget]
    split
    . next h => rw [h]; rfl
    . rfl
  . intro q
    change ((n.records.updateEntry p v).get q).hVersion.nodeVersion = _
    rw [← h.nodeVersion q, hget]
    split
    . next h => rw [h]; rfl
    . rfl

end WellFormed

end HopNode

theorem HopRecords.bumpEntries_nil (r : HopRecords) : r.bumpEntries [] = r := by
  apply HopRecords.ext_get
  intro p
  rw [HopRecords.get_bumpEntries]
  unfold HopEntry.bumpEntryVersion
  simp

theorem HopReachable.wellFormed {n : HopNode} (h : HopReachable hash n) : n.WellFormed hash := by
  induction h with
  | zero => exact HopNode.wellFormed_zero
  | @insert n k v entryNum fetched res _ key fresh fetch ok ih =>
    rcases hopscotchInsert_spec ih.inv fetch with hnone | ⟨e, l, r', s', heq, hh, he, hagree⟩
    . rw [hnone] at ok
      cases ok
    . rw [heq] at ok
      cases ok
      rw [hh.segmentWrite_eq (fun i hi hie => hagree i hi (by omega))]
      exact ih.hops key fresh hh
  | @insertLocally n k v r' _ key fresh ok ih =>
    obtain ⟨e, l, hh⟩ := hops_of_insertLocally ih.inv ok
    rw [← r'.bumpEntries_nil]
    exact ih.hops key fresh hh
  | splitLeaf _ key fresh ok ih =>
    have hsplit := (splitInto_of_ok ih.inv key ok).1
    exact HopNode.wellFormed_bumpNodeVersions hsplit.invLeaf (hsplit.distinct ih.distinct fresh).1
  | splitSyn _ key fresh ok ih =>
    have hsplit := (splitInto_of_ok ih.inv key ok).1
    exact HopNode.wellFormed_bumpNodeVersions hsplit.invSyn (hsplit.distinct ih.distinct fresh).2
  | update v _ ih => exact ih.updateEntry _ v
  | encode _ ih => exact HopNode.wellFormed_bumpNodeVersions ih.inv ih.distinct

theorem searchNodes_of_agree {nodes : List (HopRecords × HopRecords)} (hk : k ≠ kkeyNull)
    (hnodes : ∀ x ∈ nodes, x.1.Inv hash
      ∧ AgreeOn (hash k).val ((hash k).val + neighborSize - 1) x.1 x.2)
    : (∃ p v, searchNodes hash k (nodes.map Prod.snd) = .found p v ∧ ∃ x ∈ nodes, x.1.kv p = (k, v))
        ∨ (searchNodes hash k (nodes.map Prod.snd) = .absent ∧ ∀ x ∈ nodes, ¬ x.1.Stores k) := by
  induction nodes with
  | nil => exact .inr ⟨rfl, by simp⟩
  | cons x nodes ih =>
    obtain ⟨hinv, hagree⟩ := hnodes x List.mem_cons_self
    rw [List.map_cons]
    unfold searchNodes
    rcases scanNode_of_agree hinv hk hagree with ⟨p, v, heq, hkv⟩ | ⟨heq, hnot⟩
    . rw [heq]
      exact .inl ⟨p, v, rfl, x, List.mem_cons_self, hkv⟩
    . rw [heq]
      rcases ih fun y hy => hnodes y (List.mem_cons_of_mem x hy) with
        ⟨p, v, heq', y, hy, hkv⟩ | ⟨heq', hall⟩
      . exact .inl ⟨p, v, heq', y, List.mem_cons_of_mem x hy, hkv⟩
      . exact .inr ⟨heq', List.forall_mem_cons.mpr ⟨hnot, hall⟩⟩

/--
Reachable nodes have the hopscotch invariant; no further operation on them fails an assertion on hop
bits; and the search in any fetched nodes that are reachable finds the key if one of them stores it,
and never reads again.
-/
theorem hop_reachable_nodes {n : HopNode} (h : HopReachable hash n)
    : (∀ p, (n.records.get p).key ≠ kkeyNull →
        ((p.val : Int) - (hash (n.records.get p).key).val) % leafSpanSize < neighborSize)
      ∧ (∀ (q : Fin leafSpanSize) (d : Nat), d < neighborSize →
          ((n.records.get q).hopBitmap.getLsbD (neighborSize - d - 1) = true
            ↔ (n.records.get (slot (q.val + d))).key ≠ kkeyNull
                ∧ hash (n.records.get (slot (q.val + d))).key = q))
      ∧ (∀ (k : Key) (v : Value) (fetched : HopRecords) (entryNum : Nat) (synonymAddr : GlobalAddress)
            (x : Assertion), k ≠ kkeyNull →
          AgreeOn (hash k).val ((hash k).val + entryNum - 1) n.records fetched →
          (hopscotchInsert hash fetched k v entryNum = .error x
            ∨ hopscotchInsertLocally hash n.records k v = .error x
            ∨ hopscotchSplit hash n k v synonymAddr = .error x) →
          x ≠ .setHopBit ∧ x ≠ .unsetHopBit)
      ∧ (∀ (k : Key) (nodes : List (HopNode × HopRecords)), k ≠ kkeyNull →
          (∀ x ∈ nodes, HopReachable hash x.1
            ∧ AgreeOn (hash k).val ((hash k).val + neighborSize - 1) x.1.records x.2) →
          searchNodes hash k (nodes.map Prod.snd) ≠ .reRead
            ∧ ((∃ x ∈ nodes, x.1.records.Stores k) →
                ∃ p v, searchNodes hash k (nodes.map Prod.snd) = .found p v
                  ∧ ∃ x ∈ nodes, x.1.records.Has k v)) := by
  have hwf := h.wellFormed
  refine ⟨hwf.inv.near, hwf.inv.bits, ?_, ?_⟩
  . intro k v fetched entryNum synonymAddr x hk hfetch herr
    rcases herr with herr | herr | herr
    . rcases hopscotchInsert_spec hwf.inv hfetch with hnone | ⟨e, l, r', s', hsome, -⟩
      . rw [hnone] at herr
        cases herr
      . rw [hsome] at herr
        cases herr
    . rcases error_of_insertLocally hwf.inv herr with rfl | rfl
      . decide
      . decide
    . rcases error_of_split hwf.inv herr with rfl | rfl | rfl
      . decide
      . decide
      . decide
  . intro k nodes hk hnodes
    have hmap : nodes.map Prod.snd
        = (nodes.map fun x => (x.1.records, x.2)).map Prod.snd := by
      rw [List.map_map]
      rfl
    have hagree : ∀ x ∈ nodes.map fun x => (x.1.records, x.2), x.1.Inv hash
        ∧ AgreeOn (hash k).val ((hash k).val + neighborSize - 1) x.1 x.2 := by
      intro x hx
      obtain ⟨y, hy, rfl⟩ := List.mem_map.mp hx
      exact ⟨(hnodes y hy).1.wellFormed.inv, (hnodes y hy).2⟩
    rw [hmap]
    rcases searchNodes_of_agree hk hagree with ⟨p, v, heq, x, hx, hkv⟩ | ⟨heq, hall⟩
    . rw [heq]
      obtain ⟨y, hy, rfl⟩ := List.mem_map.mp hx
      refine ⟨?_, fun _ => ⟨p, v, rfl, y, hy, hk, p, hkv⟩⟩
      intro hre
      cases hre
    . rw [heq]
      refine ⟨by decide, ?_⟩
      rintro ⟨x, hx, hstores⟩
      exact absurd hstores (hall _ (List.mem_map_of_mem hx))

/-- Inserts of keys that are not stored. -/
def hopscotchInsertAll (hash : Key → Fin leafSpanSize) : List (Key × Value) → HopRecords → Option HopRecords
  | [], r => some r
  | (k, v) :: pairs, r =>
    if k ≠ kkeyNull ∧ ¬ r.Stores k then
      (hopscotchInsertLocally hash r k v).toOption.bind (hopscotchInsertAll hash pairs)
    else
      none

theorem HopReachable.insertAll {n : HopNode} {pairs : List (Key × Value)} (h : HopReachable hash n)
    (hrun : hopscotchInsertAll hash pairs n.records = some r)
    : HopReachable hash { n with records := r } := by
  induction pairs generalizing n with
  | nil =>
    cases hrun
    exact h
  | cons kv pairs ih =>
    rw [hopscotchInsertAll] at hrun
    split at hrun
    . next hkv =>
      obtain ⟨r', hok, hrun⟩ := Option.bind_eq_some_iff.mp hrun
      cases hins : hopscotchInsertLocally hash n.records kv.1 kv.2 with
      | error x =>
        rw [hins] at hok
        cases hok
      | ok r'' =>
        rw [hins] at hok
        cases hok
        exact ih (n := { n with records := r' }) (h.insertLocally hkv.1 hkv.2 hins) hrun
    . cases hrun

/-- The home of a key is its last hexadecimal digit. -/
def lastDigit (k : Key) : Fin leafSpanSize := slot (key2int k)

set_option maxRecDepth 10000 in
-- the last insert finds no empty slot near its home 0, and the record of home 2 hops to slot 9
theorem hop_reachable_nodes_hopped
    : ∃ n, HopReachable lastDigit n ∧ n.records.kv 2 = (int2key 32, 9) ∧ n.records.kv 9 = (int2key 18, 7)
        ∧ (((9 : Fin leafSpanSize).val : Int) - (lastDigit (n.records.get 9).key).val) % leafSpanSize < neighborSize
        ∧ (n.records.get 2).hopBitmap.getLsbD 0 = true
        ∧ ∃ p v, searchNodes lastDigit (int2key 18) [n.records] = .found p v ∧ n.records.Has (int2key 18) v := by
  have hrun : (hopscotchInsertAll lastDigit
      ((List.range 9).map (fun i => (int2key (16 + i), 7)) ++ [(int2key 32, 9)]) HopRecords.zero).map
        (fun r => decide (r.kv 2 = (int2key 32, 9) ∧ r.kv 9 = (int2key 18, 7))) = some true := by
    decide +kernel
  obtain ⟨r, hr, hP⟩ := Option.map_eq_some_iff.mp hrun
  obtain ⟨h₂, h₉⟩ := of_decide_eq_true hP
  have hreach : HopReachable lastDigit { HopNode.zero with records := r } := HopReachable.zero.insertAll hr
  have hkey : (r.get 9).key = int2key 18 := congrArg Prod.fst h₉
  have hne : int2key 18 ≠ kkeyNull := by decide
  obtain ⟨hnear, hbits, -, hsearch⟩ := hop_reachable_nodes hreach
  refine ⟨_, hreach, h₂, h₉, hnear 9 ?_, (hbits 2 7 (by decide)).mpr ⟨?_, ?_⟩, ?_⟩
  . exact fun h => hne (hkey.symm.trans h)
  . exact fun h => hne (hkey.symm.trans h)
  . exact (congrArg lastDigit hkey).trans (by decide)
  . obtain ⟨-, hfound⟩ := hsearch (int2key 18) [(_, r)] hne (by
      intro x hx
      rw [List.mem_singleton.mp hx]
      exact ⟨hreach, fun _ _ _ => rfl⟩)
    obtain ⟨p, v, heq, x, hx, hhas⟩ := hfound ⟨_, List.mem_cons_self, hne, 9, hkey⟩
    rw [List.mem_singleton.mp hx] at hhas
    exact ⟨p, v, heq, hhas⟩

end Rolex

import Rolex.Lib.Prog
import Rolex.Common
import Mathlib.Data.List.Sort

/-!
This module contains the speculative reads of the `SPECULATIVE_READ` builds: the cache of record indices
(`IdxCache.h`), and `speculative_read` with its use in `_search` over any way to read one record.
-/

namespace Rolex

def GlobalAddress.toUint64 (a : GlobalAddress) : BitVec 64 := a.offset ++ a.nodeID

def key2fp (k : Key) : BitVec 16 :=
  BitVec.ofNat 16 (k.bytes[keyLen - 1].toNat <<< 8 + k.bytes[keyLen - 2].toNat)

def hashTableSize : Nat := 1000000

def getHashedCacheTableIndex (leafAddr : GlobalAddress) (kvIdx : Nat) : Nat :=
  (leafAddr.toUint64 + BitVec.ofNat 64 kvIdx).toNat % hashTableSize

structure IdxCacheEntry where
  leafAddr : GlobalAddress
  kvIdx : BitVec 16
  footprint : BitVec 16
  cacheEntryFreq : BitVec 32

/-- The part of `IdxCache` that a search in it reads; a bucket is the list of its entries. -/
structure IdxCache where
  isDisabled : Bool
  hashTable : Nat → List IdxCacheEntry

namespace IdxCache

variable (idxCache : IdxCache) (leafAddr : GlobalAddress) (k : Key)

def searchForCandidate (idx : Nat) : List (Nat × Int) :=
  (idxCache.hashTable (getHashedCacheTableIndex leafAddr idx)).filterMap fun e =>
    if e.leafAddr = leafAddr ∧ e.kvIdx.toNat = idx ∧ e.footprint = key2fp k then
      some (idx, e.cacheEntryFreq.toInt)
    else
      none

/-- The indices that `search_idx_from_cache` looks up. -/
def scanned (lIdx rIdx : Nat) : List Nat :=
  if rIdx < lIdx then
    List.range (rIdx + 1) ++ List.range' lIdx (leafSpanSize - lIdx)
  else
    List.range' lIdx (rIdx + 1 - lIdx)

/-- `search_idx_from_cache`; equal counts are taken in the order in which they have been found. -/
def searchIdxFromCache (lIdx rIdx : Nat) : Option Nat :=
  if idxCache.isDisabled then
    none
  else
    let candidates := (scanned lIdx rIdx).flatMap (idxCache.searchForCandidate leafAddr k)
    (candidates.insertionSort (fun a b => b.2 ≤ a.2)).head?.map Prod.fst

theorem mem_scanned_of_search {lIdx rIdx idx : Nat}
    (h : idxCache.searchIdxFromCache leafAddr k lIdx rIdx = some idx)
    : idx ∈ scanned lIdx rIdx := by
  unfold searchIdxFromCache at h
  split at h
  . cases h
  . obtain ⟨c, hc, rfl⟩ := Option.map_eq_some_iff.mp h
    have hmem := (List.mem_insertionSort _).mp (List.mem_of_head? hc)
    obtain ⟨i, hi, hmem⟩ := List.mem_flatMap.mp hmem
    obtain ⟨e, -, he⟩ := List.mem_filterMap.mp hmem
    split at he
    . cases he
      exact hi
    . cases he

end IdxCache

/-- `coro_syn_leaf_addrs` of a coroutine, by the address of the leaf. -/
abbrev SynLeafMap := List (GlobalAddress × GlobalAddress)

/-- The arguments `range` of the two probes of a node. -/
structure ProbeRanges where
  leaf : Nat × Nat
  syn : Nat × Nat

/--
What an update finds on its compute node: the synonym leaves it knows, what the cache, which all threads
share, holds at each of its probes, and what has been in the leaf buffers that they use.
-/
structure Locals (Node : Type) where
  syn : SynLeafMap
  searched : GlobalAddress → IdxCache × IdxCache
  locked : IdxCache × IdxCache
  searchBuffer : Node
  leafBuffers : Node × Node

section Probe

variable {Op : Type} {Res : Op → Type} {Node : Type}

/-- How one record of a node is read into a leaf buffer, and what it then holds. -/
structure EntryReader (Op : Type) (Res : Op → Type) (Node : Type) where
  leafEntryRead : GlobalAddress → Nat → Node → Prog Op Res Node
  key : Node → Nat → Key
  value : Node → Nat → Value

variable (R : EntryReader Op Res Node) (k : Key)

section Read

variable (syn : SynLeafMap) (leafBuffer : Node)

/--
`speculative_read`: the index of the record and the leaf buffer, `none` when it returns false. It looks
at `records[speculative_idx]` also for a record of the synonym leaf, which is behind the array.
-/
def speculativeRead (idxCache : IdxCache) (leafAddr : GlobalAddress) (range : Nat × Nat)
    : Prog Op Res (Option (Nat × Node)) :=
  match idxCache.searchIdxFromCache leafAddr k range.1 range.2 with
  | none => return none
  | some speculativeIdx =>
    if leafSpanSize ≤ speculativeIdx then
      match syn.lookup leafAddr with
      | none => return none
      | some synLeafAddr => do
        let _ ← R.leafEntryRead synLeafAddr (speculativeIdx - leafSpanSize) leafBuffer
        .fail
    else do
      let leaf ← R.leafEntryRead leafAddr speculativeIdx leafBuffer
      if R.key leaf speculativeIdx = k then
        return some (speculativeIdx, leaf)
      else
        return none

/-- The speculative reads of `_search` in the predicted leaves: the leaf that has the key. -/
def speculativeSearch (ranges : ProbeRanges) (idxCaches : GlobalAddress → IdxCache × IdxCache)
    : List GlobalAddress → Prog Op Res (Option GlobalAddress)
  | [] => return none
  | leafAddr :: rest => do
    let res ← speculativeRead R k syn leafBuffer (idxCaches leafAddr).1 leafAddr ranges.leaf
    match res with
    | some _ => return some leafAddr
    | none =>
      let res ← speculativeRead R k syn leafBuffer (idxCaches leafAddr).2 leafAddr ranges.syn
      match res with
      | some _ => return some leafAddr
      | none => speculativeSearch ranges idxCaches rest

end Read

/--
Steps 2 to 4 of `update` behind the lock: `write` is what `update_entry` leads to, `readAnother` the path
without a hit. The second probe is called with `v` and assigns the value of the record to it.
-/
def speculativeUpdate (L : Locals Node) (ranges : ProbeRanges) (v : Value) (leafAddr : GlobalAddress)
    (write : Nat → Node → Value → Prog Op Res Unit) (readAnother : Prog Op Res Unit) : Prog Op Res Unit := do
  let res ← speculativeRead R k L.syn L.leafBuffers.1 L.locked.1 leafAddr ranges.leaf
  match res with
  | some (kvIdx, leaf) => write kvIdx leaf v
  | none =>
    let res ← speculativeRead R k L.syn L.leafBuffers.2 L.locked.2 leafAddr ranges.syn
    match res with
    | some (kvIdx, leaf) => write kvIdx leaf (R.value leaf kvIdx)
    | none => readAnother

end Probe

namespace IdxCache

variable (idxCache : IdxCache) (syn : SynLeafMap) (leafAddr : GlobalAddress) (k : Key) (range : Nat × Nat)

/-- The probe chooses a record of a synonym leaf whose address is known. -/
def Overruns : Prop :=
  ∃ idx, idxCache.searchIdxFromCache leafAddr k range.1 range.2 = some idx ∧ leafSpanSize ≤ idx
    ∧ syn.lookup leafAddr ≠ none

/-- The probe chooses a record of the leaf. -/
def Chooses (idx : Nat) : Prop :=
  idxCache.searchIdxFromCache leafAddr k range.1 range.2 = some idx ∧ idx < leafSpanSize

end IdxCache

/-- No probe of `_search` in the leaves reads behind the array, up to the first that has the key. -/
def SearchDefined (keyAt : GlobalAddress → Nat → Key) (syn : SynLeafMap) (k : Key) (ranges : ProbeRanges)
    (idxCaches : GlobalAddress → IdxCache × IdxCache) : List GlobalAddress → Prop
  | [] => True
  | leafAddr :: rest =>
    ¬ (idxCaches leafAddr).1.Overruns syn leafAddr k ranges.leaf
      ∧ ((∃ idx, (idxCaches leafAddr).1.Chooses leafAddr k ranges.leaf idx ∧ keyAt leafAddr idx = k)
        ∨ (¬ (idxCaches leafAddr).2.Overruns syn leafAddr k ranges.syn
          ∧ ((∃ idx, (idxCaches leafAddr).2.Chooses leafAddr k ranges.syn idx ∧ keyAt leafAddr idx = k)
            ∨ SearchDefined keyAt syn k ranges idxCaches rest)))

section Run

variable {Op : Type} {Res : Op → Type} {Node σ : Type} {exec : (o : Op) → σ → Res o × σ} {s : σ}
  {R : EntryReader Op Res Node} {keyAt : GlobalAddress → Nat → Key} {buffered : GlobalAddress → Nat → Node}
  {leafBuffer : Node} {nodes : GlobalAddress → Prop}

/-- In the state `s` records of the nodes are read without a change, into the buffer `buffered`. -/
structure ReadsEntries (exec : (o : Op) → σ → Res o × σ) (s : σ) (R : EntryReader Op Res Node)
    (leafBuffer : Node) (keyAt : GlobalAddress → Nat → Key) (buffered : GlobalAddress → Nat → Node)
    (nodes : GlobalAddress → Prop) : Prop where
  run : ∀ a idx, nodes a → idx < leafSpanSize →
    (R.leafEntryRead a idx leafBuffer).run exec s = some (buffered a idx, s)
  key : ∀ a idx, nodes a → idx < leafSpanSize → R.key (buffered a idx) idx = keyAt a idx

theorem speculativeRead_cases (h : ReadsEntries exec s R leafBuffer keyAt buffered nodes) (syn : SynLeafMap)
    (k : Key) (idxCache : IdxCache) {leafAddr : GlobalAddress} (haddr : nodes leafAddr) (range : Nat × Nat)
    : (idxCache.Overruns syn leafAddr k range
          ∧ (speculativeRead R k syn leafBuffer idxCache leafAddr range).run exec s = none)
        ∨ (¬ idxCache.Overruns syn leafAddr k range
          ∧ ∃ idx, idxCache.Chooses leafAddr k range idx ∧ keyAt leafAddr idx = k
            ∧ (speculativeRead R k syn leafBuffer idxCache leafAddr range).run exec s
              = some (some (idx, buffered leafAddr idx), s))
        ∨ (¬ idxCache.Overruns syn leafAddr k range
          ∧ (∀ idx, idxCache.Chooses leafAddr k range idx → keyAt leafAddr idx ≠ k)
          ∧ (speculativeRead R k syn leafBuffer idxCache leafAddr range).run exec s = some (none, s)) := by
  unfold speculativeRead IdxCache.Overruns IdxCache.Chooses
  cases hidx : idxCache.searchIdxFromCache leafAddr k range.1 range.2 with
  | none => exact .inr (.inr ⟨by simp, by simp, rfl⟩)
  | some idx =>
    by_cases hle : leafSpanSize ≤ idx
    . dsimp only
      rw [if_pos hle]
      cases hsyn : syn.lookup leafAddr with
      | none =>
        refine .inr (.inr ⟨by simp, ?_, rfl⟩)
        rintro idx' ⟨heq, hlt⟩
        cases heq
        omega
      | some synLeafAddr =>
        refine .inl ⟨⟨idx, rfl, hle, by simp⟩, ?_⟩
        dsimp only
        rw [Prog.run_bind]
        cases (R.leafEntryRead synLeafAddr (idx - leafSpanSize) leafBuffer).run exec s with
        | none => rfl
        | some x => rfl
    . have hlt : idx < leafSpanSize := by omega
      have hnot : ¬ ∃ idx', some idx = some idx' ∧ leafSpanSize ≤ idx' ∧ syn.lookup leafAddr ≠ none := by
        rintro ⟨idx', heq, hle', -⟩
        cases heq
        exact hle hle'
      dsimp only
      rw [if_neg hle, Prog.run_bind_eq exec (h.run leafAddr idx haddr hlt), h.key leafAddr idx haddr hlt]
      by_cases hkey : keyAt leafAddr idx = k
      . rw [if_pos hkey]
        exact .inr (.inl ⟨hnot, idx, ⟨rfl, hlt⟩, hkey, rfl⟩)
      . rw [if_neg hkey]
        refine .inr (.inr ⟨hnot, ?_, rfl⟩)
        rintro idx' ⟨heq, -⟩
        cases heq
        exact hkey

theorem speculativeSearch_cases (h : ReadsEntries exec s R leafBuffer keyAt buffered nodes) (syn : SynLeafMap)
    (k : Key) (ranges : ProbeRanges) (idxCaches : GlobalAddress → IdxCache × IdxCache)
    {leafAddrs : List GlobalAddress} (haddrs : ∀ a ∈ leafAddrs, nodes a)
    : (¬ SearchDefined keyAt syn k ranges idxCaches leafAddrs
          ∧ (speculativeSearch R k syn leafBuffer ranges idxCaches leafAddrs).run exec s = none)
        ∨ (SearchDefined keyAt syn k ranges idxCaches leafAddrs
          ∧ ((speculativeSearch R k syn leafBuffer ranges idxCaches leafAddrs).run exec s = some (none, s)
            ∨ ∃ a ∈ leafAddrs, (∃ idx, idx < leafSpanSize ∧ keyAt a idx = k)
              ∧ (speculativeSearch R k syn leafBuffer ranges idxCaches leafAddrs).run exec s
                = some (some a, s))) := by
  induction leafAddrs with
  | nil => exact .inr ⟨trivial, .inl rfl⟩
  | cons a leafAddrs ih =>
    obtain ⟨ha, haddrs⟩ := List.forall_mem_cons.mp haddrs
    unfold SearchDefined speculativeSearch
    rcases speculativeRead_cases h syn k (idxCaches a).1 ha ranges.leaf with
      ⟨hover, hrun⟩ | ⟨hover, idx, hidx, hkey, hrun⟩ | ⟨hover, hmiss, hrun⟩
    . refine .inl ⟨fun hdef => hdef.1 hover, ?_⟩
      rw [Prog.run_bind, hrun]
      rfl
    . rw [Prog.run_bind_eq exec hrun]
      exact .inr ⟨⟨hover, .inl ⟨idx, hidx, hkey⟩⟩, .inr ⟨a, List.mem_cons_self, ⟨idx, hidx.2, hkey⟩, rfl⟩⟩
    . rw [Prog.run_bind_eq exec hrun]
      have hmiss' : ¬ ∃ idx, (idxCaches a).1.Chooses a k ranges.leaf idx ∧ keyAt a idx = k :=
        fun ⟨idx, hidx, hkey⟩ => hmiss idx hidx hkey
      rcases speculativeRead_cases h syn k (idxCaches a).2 ha ranges.syn with
        ⟨hover₂, hrun₂⟩ | ⟨hover₂, idx, hidx, hkey, hrun₂⟩ | ⟨hover₂, hmiss₂, hrun₂⟩
      . refine .inl ⟨fun hdef => (hdef.2.resolve_left hmiss').1 hover₂, ?_⟩
        dsimp only
        rw [Prog.run_bind, hrun₂]
        rfl
      . dsimp only
        rw [Prog.run_bind_eq exec hrun₂]
        exact .inr ⟨⟨hover, .inr ⟨hover₂, .inl ⟨idx, hidx, hkey⟩⟩⟩,
          .inr ⟨a, List.mem_cons_self, ⟨idx, hidx.2, hkey⟩, rfl⟩⟩
      . have hmiss₂' : ¬ ∃ idx, (idxCaches a).2.Chooses a k ranges.syn idx ∧ keyAt a idx = k :=
          fun ⟨idx, hidx, hkey⟩ => hmiss₂ idx hidx hkey
        dsimp only
        rw [Prog.run_bind_eq exec hrun₂]
        rcases ih haddrs with ⟨hdef, hrest⟩ | ⟨hdef, hrest | ⟨c, hc, hkey, hrest⟩⟩
        . exact .inl ⟨fun hall => hdef ((hall.2.resolve_left hmiss').2.resolve_left hmiss₂'), hrest⟩
        . exact .inr ⟨⟨hover, .inr ⟨hover₂, .inr hdef⟩⟩, .inl hrest⟩
        . exact .inr ⟨⟨hover, .inr ⟨hover₂, .inr hdef⟩⟩, .inr ⟨c, List.mem_cons_of_mem _ hc, hkey, hrest⟩⟩

/-- What the part behind the lock comes to for a key that the node has in the record `idx` only. -/
theorem speculativeUpdate_cases {L : Locals Node} {buffered₁ buffered₂ : GlobalAddress → Nat → Node}
    (h₁ : ReadsEntries exec s R L.leafBuffers.1 keyAt buffered₁ nodes)
    (h₂ : ReadsEntries exec s R L.leafBuffers.2 keyAt buffered₂ nodes) {leafAddr : GlobalAddress}
    (haddr : nodes leafAddr) {k : Key} {idx : Nat} (hidx : ∀ t, t < leafSpanSize → (keyAt leafAddr t = k ↔ t = idx))
    (ranges : ProbeRanges) (v : Value) (write : Nat → Node → Value → Prog Op Res Unit) (readAnother : Prog Op Res Unit)
    : let run := (speculativeUpdate R k L ranges v leafAddr write readAnother).run exec s
      (L.locked.1.Overruns L.syn leafAddr k ranges.leaf ∧ run = none)
        ∨ (¬ L.locked.1.Overruns L.syn leafAddr k ranges.leaf
          ∧ L.locked.1.Chooses leafAddr k ranges.leaf idx
          ∧ run = (write idx (buffered₁ leafAddr idx) v).run exec s)
        ∨ (¬ L.locked.1.Overruns L.syn leafAddr k ranges.leaf
          ∧ ¬ L.locked.1.Chooses leafAddr k ranges.leaf idx
          ∧ ((L.locked.2.Overruns L.syn leafAddr k ranges.syn ∧ run = none)
            ∨ (¬ L.locked.2.Overruns L.syn leafAddr k ranges.syn
              ∧ L.locked.2.Chooses leafAddr k ranges.syn idx
              ∧ run = (write idx (buffered₂ leafAddr idx) (R.value (buffered₂ leafAddr idx) idx)).run exec s)
            ∨ (¬ L.locked.2.Overruns L.syn leafAddr k ranges.syn
              ∧ ¬ L.locked.2.Chooses leafAddr k ranges.syn idx ∧ run = readAnother.run exec s))) := by
  intro run
  unfold run speculativeUpdate
  rcases speculativeRead_cases h₁ L.syn k L.locked.1 haddr ranges.leaf with
    ⟨hover, hrun⟩ | ⟨hover, t, ht, hkey, hrun⟩ | ⟨hover, hmiss, hrun⟩
  . refine .inl ⟨hover, ?_⟩
    rw [Prog.run_bind, hrun]
    rfl
  . obtain rfl := (hidx t ht.2).mp hkey
    rw [Prog.run_bind_eq exec hrun]
    exact .inr (.inl ⟨hover, ht, rfl⟩)
  . rw [Prog.run_bind_eq exec hrun]
    have hmiss' : ¬ L.locked.1.Chooses leafAddr k ranges.leaf idx :=
      fun hc => hmiss idx hc ((hidx idx hc.2).mpr rfl)
    refine .inr (.inr ⟨hover, hmiss', ?_⟩)
    dsimp only
    rcases speculativeRead_cases h₂ L.syn k L.locked.2 haddr ranges.syn with
      ⟨hover₂, hrun₂⟩ | ⟨hover₂, t, ht, hkey, hrun₂⟩ | ⟨hover₂, hmiss₂, hrun₂⟩
    . refine .inl ⟨hover₂, ?_⟩
      rw [Prog.run_bind, hrun₂]
      rfl
    . obtain rfl := (hidx t ht.2).mp hkey
      rw [Prog.run_bind_eq exec hrun₂]
      exact .inr (.inl ⟨hover₂, ht, rfl⟩)
    . rw [Prog.run_bind_eq exec hrun₂]
      exact .inr (.inr ⟨hover₂, fun hc => hmiss₂ idx hc ((hidx idx hc.2).mpr rfl), rfl⟩)

end Run

end Rolex

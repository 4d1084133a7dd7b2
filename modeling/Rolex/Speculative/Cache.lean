import Rolex.Speculative.Probe
import Mathlib.Data.List.FinRange

/-!
This module contains the whole `IdxCache` of the `SPECULATIVE_READ` builds: entries are objects that are
created, cached in a hash table, replaced or evicted, and handed to a collector that deletes them later.
It says exactly which calls hand over the right object.
-/

namespace Rolex

namespace IdxCache

def hashBucketSize : Nat := 16
def kHotspotBufSize : Nat := 50

def bucketSize : Nat :=
  max hashBucketSize (roundUp (kHotspotBufSize * (1024 * 1024) / 8 / hashTableSize) 3)

/-- `20 * MAX_APP_THREAD * MAX_CORO_NUM`. -/
def safelyFreeEpoch : Nat := 20 * 65 * 8

def sizeofIdxCacheEntry : Int := 16

def intMax : Int := 2 ^ 31 - 1

/--
`IdxCache` with the objects that `add_to_cache` has created: a pointer is `none` for null or the number of
an object. `free_size` never leaves the range of its type, as there are only so many slots.
-/
structure State where
  isDisabled : Bool
  freeSize : Int
  delayCnt : BitVec 64
  hashTable : Fin hashTableSize → Fin bucketSize → Option Nat
  cacheEntryGc : List (Option Nat)
  /-- The pointers that the collector has taken from its queue and deleted. -/
  deleted : List (Option Nat)
  entries : List IdxCacheEntry

/-- One call of `add_to_cache` with the random numbers that its evictions draw. -/
structure Call where
  leafAddr : GlobalAddress
  kvIdx : Int
  k : Key
  draws : List (Fin hashTableSize × List (Fin hashTableSize))

/-- What the second loop of `add_to_cache` ends with. -/
inductive Slot where
  | empty (i : Fin bucketSize)
  | lfu (minIdx : Option (Fin bucketSize))

namespace State

def new (cacheSize : Int) : State where
  isDisabled := cacheSize == 0
  freeSize := 1024 * 1024 * cacheSize
  delayCnt := 0
  hashTable := fun _ _ => none
  cacheEntryGc := []
  deleted := []
  entries := []

/-- Everything that `safely_delete` has pushed, in this order. -/
def pushed (c : State) : List (Option Nat) := c.deleted ++ c.cacheEntryGc

/-- A deleted object has no content. -/
def deref (c : State) (p : Nat) : Option IdxCacheEntry :=
  if some p ∈ c.deleted then none else c.entries[p]?

def setSlot (c : State) (htIdx : Fin hashTableSize) (i : Fin bucketSize) (e : Option Nat) : State :=
  { c with hashTable := fun t j => if t = htIdx ∧ j = i then e else c.hashTable t j }

/-- The loop of `safely_delete` over the queue; an object cannot be deleted twice. -/
def collect (deleted : List (Option Nat)) : List (Option Nat) → Option (List (Option Nat) × List (Option Nat))
  | [] => some (deleted, [])
  | next :: gc =>
    if (next :: gc).length > safelyFreeEpoch then
      if next.isSome ∧ next ∈ deleted then
        none
      else
        collect (deleted ++ [next]) gc
    else
      some (deleted, next :: gc)

def safelyDelete (c : State) (cacheEntry : Option Nat) : Option State := do
  let (deleted, gc) ← collect c.deleted (c.cacheEntryGc ++ [cacheEntry])
  return { c with deleted := deleted, cacheEntryGc := gc }

/-- The lambda `find_lfu_idx`. -/
def findLfuIdx (c : State) (bucket : Fin bucketSize → Option Nat)
    : List (Fin bucketSize) → Option (Fin bucketSize) → Int → Option (Option (Fin bucketSize) × Int)
  | [], minIdx, minFreq => some (minIdx, minFreq)
  | i :: is, minIdx, minFreq =>
    match bucket i with
    | none => c.findLfuIdx bucket is minIdx minFreq
    | some p => do
      let e ← c.deref p
      if e.cacheEntryFreq.toInt < minFreq then
        c.findLfuIdx bucket is (some i) e.cacheEntryFreq.toInt
      else
        c.findLfuIdx bucket is minIdx minFreq

/--
`evict_one` with its random numbers: the first bucket and the draws for the second one, which are repeated
until the buckets differ.
-/
def evictOne (c : State) (draw : Fin hashTableSize × List (Fin hashTableSize)) : Option State := do
  let htIdx₁ := draw.1
  let htIdx₂ ← draw.2.find? (· ≠ htIdx₁)
  let (minIdx₁, minFreq₁) ← c.findLfuIdx (c.hashTable htIdx₁) (List.finRange bucketSize) none intMax
  let (minIdx₂, minFreq₂) ← c.findLfuIdx (c.hashTable htIdx₂) (List.finRange bucketSize) none intMax
  if minIdx₁ = none ∧ minIdx₂ = none then
    return c
  let (htIdx, minIdx) := if minFreq₁ < minFreq₂ then (htIdx₁, minIdx₁) else (htIdx₂, minIdx₂)
  let i ← minIdx
  match c.hashTable htIdx i with
  | none => return c
  | some _ =>
    let c := c.setSlot htIdx i none
    -- `entry` is a reference to the slot, so this is what the slot holds after the swap
    let c ← c.safelyDelete (c.hashTable htIdx i)
    return { c with freeSize := c.freeSize + sizeofIdxCacheEntry }

/-- The loop of `evict`; it does not return if the random numbers end before there is space. -/
def evictLoop (c : State) : List (Fin hashTableSize × List (Fin hashTableSize)) → Option State
  | [] => none
  | draw :: draws => do
    let c ← c.evictOne draw
    if c.freeSize < 0 then c.evictLoop draws else return c

def evict (c : State) (draws : List (Fin hashTableSize × List (Fin hashTableSize))) : Option State :=
  evictLoop { c with delayCnt := 10 } draws

/-- The first loop of `add_to_cache`. -/
def findEntry (c : State) (leafAddr : GlobalAddress) (kvIdx : Int) (bucket : Fin bucketSize → Option Nat)
    : List (Fin bucketSize) → Option (Option Nat)
  | [] => some none
  | i :: is =>
    match bucket i with
    | none => c.findEntry leafAddr kvIdx bucket is
    | some p => do
      let e ← c.deref p
      if e.leafAddr = leafAddr ∧ (e.kvIdx.toNat : Int) = kvIdx then
        return some p
      else
        c.findEntry leafAddr kvIdx bucket is

/-- The second loop of `add_to_cache`, up to the first empty slot. -/
def findSlot (c : State) (bucket : Fin bucketSize → Option Nat)
    : List (Fin bucketSize) → Option (Fin bucketSize) → Int → Option Slot
  | [], minIdx, _ => some (.lfu minIdx)
  | i :: is, minIdx, minFreq =>
    match bucket i with
    | none => some (.empty i)
    | some p => do
      let e ← c.deref p
      if e.cacheEntryFreq.toInt < minFreq then
        c.findSlot bucket is (some i) e.cacheEntryFreq.toInt
      else
        c.findSlot bucket is minIdx minFreq

/-- The changes of an entry that is found. -/
def touch (c : State) (p : Nat) (k : Key) : State :=
  { c with
    entries := c.entries.modify p fun e =>
      if e.footprint ≠ key2fp k then
        { e with footprint := key2fp k, cacheEntryFreq := 1 }
      else
        { e with cacheEntryFreq := e.cacheEntryFreq + 1 } }

def htIdx (leafAddr : GlobalAddress) (kvIdx : Int) : Fin hashTableSize :=
  ⟨getHashedCacheTableIndex leafAddr (BitVec.ofInt 64 kvIdx).toNat, Nat.mod_lt _ (by decide)⟩

/-- `new IdxCacheEntry(leaf_addr, kv_idx, k)`; the pointer to it is the number of entries so far. -/
def allocEntry (c : State) (call : Call) : State :=
  { c with
    entries := c.entries ++
      [{ leafAddr := call.leafAddr
         kvIdx := BitVec.ofInt 16 call.kvIdx
         footprint := key2fp call.k
         cacheEntryFreq := 1 }] }

/-- A new entry at a slot of the table: the two ways in which a miss ends. -/
def insertNew (c : State) (call : Call) : Option State := do
  let t := htIdx call.leafAddr call.kvIdx
  let newEntry := c.entries.length
  let c := c.allocEntry call
  match ← c.findSlot (c.hashTable t) (List.finRange bucketSize) none intMax with
  | .empty i =>
    let v := c.freeSize
    let c := { c.setSlot t i (some newEntry) with freeSize := v - sizeofIdxCacheEntry }
    if v < 0 then c.evict call.draws else return c
  | .lfu minIdx =>
    let i ← minIdx
    let c := c.setSlot t i (some newEntry)
    -- `e` is a reference to the slot
    c.safelyDelete (c.hashTable t i)

/--
`add_to_cache`: its answer and the cache behind it. There are no other threads, so no compare and swap
fails.
-/
def addToCache (c : State) (call : Call) : Option (Bool × State) :=
  if c.isDisabled then
    some (false, c)
  else do
    let t := htIdx call.leafAddr call.kvIdx
    match ← c.findEntry call.leafAddr call.kvIdx (c.hashTable t) (List.finRange bucketSize) with
    | some p => return (true, c.touch p call.k)
    | none =>
      let delay := c.delayCnt
      let c := { c with delayCnt := delay - 1 }
      if 0 < delay.toInt then
        return (false, c)
      else
        let c ← c.insertNew call
        return (true, c)

def run : List Call → State → Option (List State)
  | [], c => some [c]
  | call :: calls, c => do
    let (_, c') ← c.addToCache call
    let cs ← run calls c'
    return c :: cs

/-- The collector has been given exactly the objects that have left the table, each of them once. -/
structure Sound (c : State) : Prop where
  ne_null : none ∉ c.pushed
  not_referenced : ∀ p, some p ∈ c.pushed → ∀ t i, c.hashTable t i ≠ some p
  pushed_once : ∀ p < c.entries.length, (∀ t i, c.hashTable t i ≠ some p) → c.pushed.count (some p) = 1

/-- The table has an entry for a record. -/
def Cached (c : State) (leafAddr : GlobalAddress) (kvIdx : Int) : Prop :=
  ∃ i p e, c.hashTable (htIdx leafAddr kvIdx) i = some p ∧ c.entries[p]? = some e
    ∧ e.leafAddr = leafAddr ∧ (e.kvIdx.toNat : Int) = kvIdx

/-- The condition on a call: it neither replaces nor evicts. -/
def Fits (c : State) (call : Call) : Prop :=
  c.isDisabled
    ∨ c.Cached call.leafAddr call.kvIdx
    ∨ 0 < c.delayCnt.toInt
    ∨ 0 ≤ c.freeSize ∧ ∃ i, c.hashTable (htIdx call.leafAddr call.kvIdx) i = none

def AllFit : List Call → State → Prop
  | [], _ => True
  | call :: calls, c => c.Fits call ∧ ∀ b c', c.addToCache call = some (b, c') → AllFit calls c'

/-- Nothing has left the table yet. -/
structure Unspoilt (c : State) : Prop where
  gc : c.cacheEntryGc = []
  deleted : c.deleted = []
  bounded : ∀ t i p, c.hashTable t i = some p → p < c.entries.length
  referenced : ∀ p < c.entries.length, ∃ t i, c.hashTable t i = some p

theorem Unspoilt.new (cacheSize : Int) : (new cacheSize).Unspoilt where
  gc := rfl
  deleted := rfl
  bounded := fun _ _ _ h => by cases h
  referenced := fun p h => by cases h

theorem Unspoilt.sound {c : State} (h : c.Unspoilt) : c.Sound := by
  have hnone : c.pushed = [] := by rw [pushed, h.deleted, h.gc, List.append_nil]
  constructor
  . simp [hnone]
  . simp [hnone]
  . intro p hp hnot
    rcases h.referenced p hp with ⟨t, i, hpos⟩
    exact absurd hpos (hnot t i)

theorem Unspoilt.deref {c : State} (h : c.Unspoilt) {t : Fin hashTableSize} {i : Fin bucketSize} {p : Nat}
    (hp : c.hashTable t i = some p)
    : ∃ e, c.deref p = some e ∧ c.entries[p]? = some e := by
  have hlt := h.bounded t i p hp
  have hentry : c.entries[p]? = some c.entries[p] := List.getElem?_eq_getElem hlt
  exact ⟨c.entries[p], by rw [State.deref, h.deleted, if_neg (by simp), hentry], hentry⟩

section Collector

theorem collect_eq {deleted gc deleted' gc' : List (Option Nat)} (h : collect deleted gc = some (deleted', gc'))
    : deleted' ++ gc' = deleted ++ gc := by
  fun_induction collect deleted gc with
  | case1 deleted =>
    cases h
    rfl
  | case2 deleted next gc hlen hdel => cases h
  | case3 deleted next gc hlen hdel ih => rw [ih h, List.append_assoc, List.singleton_append]
  | case4 deleted next gc hlen =>
    cases h
    rfl

theorem safelyDelete_spec {c c' : State} {p : Option Nat} (h : c.safelyDelete p = some c')
    : c'.pushed = c.pushed ++ [p] ∧ c'.hashTable = c.hashTable ∧ c'.freeSize = c.freeSize := by
  obtain ⟨⟨deleted, gc⟩, hcollect, h⟩ := Option.bind_eq_some_iff.mp h
  cases h
  refine ⟨?_, rfl, rfl⟩
  rw [pushed, pushed, collect_eq hcollect, List.append_assoc]

@[simp]
theorem setSlot_self (c : State) (t : Fin hashTableSize) (i : Fin bucketSize) (e : Option Nat)
    : (c.setSlot t i e).hashTable t i = e := by
  simp [setSlot]

theorem evictOne_cases {c c' : State} {draw : Fin hashTableSize × List (Fin hashTableSize)}
    (h : c.evictOne draw = some c')
    : c' = c ∨ c'.pushed = c.pushed ++ [none] := by
  obtain ⟨htIdx₂, -, h⟩ := Option.bind_eq_some_iff.mp h
  obtain ⟨⟨minIdx₁, minFreq₁⟩, -, h⟩ := Option.bind_eq_some_iff.mp h
  obtain ⟨⟨minIdx₂, minFreq₂⟩, -, h⟩ := Option.bind_eq_some_iff.mp h
  dsimp only at h
  split at h
  . exact .inl (Option.some.inj h).symm
  . obtain ⟨i, -, h⟩ := Option.bind_eq_some_iff.mp h
    split at h
    . exact .inl (Option.some.inj h).symm
    . obtain ⟨c₁, hdelete, h⟩ := Option.bind_eq_some_iff.mp h
      cases h
      rw [setSlot_self] at hdelete
      exact .inr (safelyDelete_spec hdelete).1

theorem mem_pushed_evictOne {c c' : State} {draw : Fin hashTableSize × List (Fin hashTableSize)}
    (h : c.evictOne draw = some c') (hnull : none ∈ c.pushed)
    : none ∈ c'.pushed := by
  rcases evictOne_cases h with rfl | h
  . exact hnull
  . simp [h]

theorem mem_pushed_evictLoop {c c' : State} {draws : List (Fin hashTableSize × List (Fin hashTableSize))}
    (h : c.evictLoop draws = some c') (hneg : c.freeSize < 0 ∨ none ∈ c.pushed)
    : none ∈ c'.pushed := by
  induction draws generalizing c with
  | nil => cases h
  | cons draw draws ih =>
    obtain ⟨c₁, hone, h⟩ := Option.bind_eq_some_iff.mp h
    split at h
    . next hneg₁ => exact ih h (.inl hneg₁)
    . next hpos =>
      cases h
      rcases hneg with hneg | hnull
      . rcases evictOne_cases hone with rfl | hone
        . exact absurd hneg hpos
        . simp [hone]
      . exact mem_pushed_evictOne hone hnull

end Collector

section Scan

variable {c : State} {t : Fin hashTableSize}

theorem findEntry_spec (h : c.Unspoilt) (leafAddr : GlobalAddress) (kvIdx : Int) (is : List (Fin bucketSize))
    : (∃ p, c.findEntry leafAddr kvIdx (c.hashTable t) is = some (some p)
          ∧ ∃ i ∈ is, ∃ e, c.hashTable t i = some p ∧ c.entries[p]? = some e
            ∧ e.leafAddr = leafAddr ∧ (e.kvIdx.toNat : Int) = kvIdx)
        ∨ c.findEntry leafAddr kvIdx (c.hashTable t) is = some none
          ∧ ∀ i ∈ is, ∀ p e, c.hashTable t i = some p → c.entries[p]? = some e
            → ¬ (e.leafAddr = leafAddr ∧ (e.kvIdx.toNat : Int) = kvIdx) := by
  induction is with
  | nil => exact .inr ⟨rfl, by simp⟩
  | cons i is ih =>
    cases hslot : c.hashTable t i with
    | none =>
      simp only [findEntry, hslot]
      rcases ih with ⟨p, hfind, j, hj, hp⟩ | ⟨hfind, hnot⟩
      . exact .inl ⟨p, hfind, j, List.mem_cons_of_mem _ hj, hp⟩
      . refine .inr ⟨hfind, ?_⟩
        intro j hj p e hp
        rcases List.mem_cons.mp hj with rfl | hj
        . cases hslot.symm.trans hp
        . exact hnot j hj p e hp
    | some q =>
      obtain ⟨e, hderef, hentry⟩ := h.deref hslot
      simp only [findEntry, hslot, hderef, Option.bind_eq_bind, Option.bind_some]
      split
      . next hhit => exact .inl ⟨q, rfl, i, List.mem_cons_self, e, hslot, hentry, hhit⟩
      . next hmiss =>
        rcases ih with ⟨p, hfind, j, hj, hp⟩ | ⟨hfind, hnot⟩
        . exact .inl ⟨p, hfind, j, List.mem_cons_of_mem _ hj, hp⟩
        . refine .inr ⟨hfind, ?_⟩
          intro j hj p e' hp hentry'
          rcases List.mem_cons.mp hj with rfl | hj
          . cases hslot.symm.trans hp
            cases hentry.symm.trans hentry'
            exact hmiss
          . exact hnot j hj p e' hp hentry'

theorem findSlot_empty {bucket : Fin bucketSize → Option Nat} {is : List (Fin bucketSize)}
    {minIdx : Option (Fin bucketSize)} {minFreq : Int} {i : Fin bucketSize}
    (h : c.findSlot bucket is minIdx minFreq = some (.empty i))
    : bucket i = none := by
  induction is generalizing minIdx minFreq with
  | nil => cases h
  | cons j is ih =>
    rw [findSlot] at h
    split at h
    . next hslot =>
      cases h
      exact hslot
    . obtain ⟨e, -, h⟩ := Option.bind_eq_some_iff.mp h
      split at h
      . exact ih h
      . exact ih h

theorem findSlot_of_empty {bucket : Fin bucketSize → Option Nat} {is : List (Fin bucketSize)}
    {minIdx : Option (Fin bucketSize)} {minFreq : Int} {i : Fin bucketSize}
    (hderef : ∀ j p, bucket j = some p → ∃ e, c.deref p = some e)
    (hi : i ∈ is) (hempty : bucket i = none)
    : ∃ j, c.findSlot bucket is minIdx minFreq = some (.empty j) := by
  induction is generalizing minIdx minFreq with
  | nil => cases hi
  | cons j is ih =>
    cases hslot : bucket j with
    | none => exact ⟨j, by rw [findSlot, hslot]⟩
    | some p =>
      have hmem : i ∈ is := by
        rcases List.mem_cons.mp hi with rfl | hmem
        . cases hempty.symm.trans hslot
        . exact hmem
      obtain ⟨e, he⟩ := hderef j p hslot
      simp only [findSlot, hslot, he, Option.bind_eq_bind, Option.bind_some]
      split
      . exact ih hmem
      . exact ih hmem

end Scan

theorem cached_iff_findEntry {c : State} (h : c.Unspoilt) (leafAddr : GlobalAddress) (kvIdx : Int)
    : (c.Cached leafAddr kvIdx
          ∧ ∃ p, c.findEntry leafAddr kvIdx (c.hashTable (htIdx leafAddr kvIdx)) (List.finRange bucketSize)
            = some (some p))
        ∨ ¬ c.Cached leafAddr kvIdx
          ∧ c.findEntry leafAddr kvIdx (c.hashTable (htIdx leafAddr kvIdx)) (List.finRange bucketSize)
            = some none := by
  rcases findEntry_spec h leafAddr kvIdx (List.finRange bucketSize) with ⟨p, hfind, i, -, e, hp⟩ | ⟨hfind, hnot⟩
  . exact .inl ⟨⟨i, p, e, hp⟩, p, hfind⟩
  . refine .inr ⟨?_, hfind⟩
    rintro ⟨i, p, e, hp, he, heq⟩
    exact hnot i (List.mem_finRange i) p e hp he heq

section Insert

variable {c c' : State} {call : Call}

theorem Unspoilt.touch (h : c.Unspoilt) (p : Nat) (k : Key) : (c.touch p k).Unspoilt where
  gc := h.gc
  deleted := h.deleted
  bounded := fun t i q hq => by
    rw [State.touch, List.length_modify]
    exact h.bounded t i q hq
  referenced := fun q hq => by
    rw [State.touch, List.length_modify] at hq
    exact h.referenced q hq

theorem Unspoilt.fill (h : c.Unspoilt) {t : Fin hashTableSize} {i : Fin bucketSize}
    (hempty : c.hashTable t i = none) (call : Call) (freeSize : Int)
    : { (c.allocEntry call).setSlot t i (some c.entries.length) with freeSize := freeSize }.Unspoilt where
  gc := h.gc
  deleted := h.deleted
  bounded := fun t' i' p hp => by
    simp only [setSlot, allocEntry, List.length_append, List.length_singleton] at hp ⊢
    split at hp
    . cases hp
      exact Nat.lt_succ_self _
    . exact Nat.lt_succ_of_lt (h.bounded t' i' p hp)
  referenced := fun p hp => by
    simp only [setSlot, allocEntry, List.length_append, List.length_singleton] at hp ⊢
    rcases Nat.lt_succ_iff_lt_or_eq.mp hp with hlt | rfl
    . rcases h.referenced p hlt with ⟨t', i', hslot⟩
      refine ⟨t', i', ?_⟩
      rw [if_neg]
      . exact hslot
      . rintro ⟨rfl, rfl⟩
        cases hempty.symm.trans hslot
    . exact ⟨t, i, if_pos ⟨rfl, rfl⟩⟩

theorem insertNew_of_room (h : c.Unspoilt) (hfree : 0 ≤ c.freeSize)
    (hroom : ∃ i, c.hashTable (htIdx call.leafAddr call.kvIdx) i = none)
    : ∃ c', c.insertNew call = some c' ∧ c'.Unspoilt := by
  rcases hroom with ⟨i, hempty⟩
  have hderef : ∀ j p, c.hashTable (htIdx call.leafAddr call.kvIdx) j = some p
      → ∃ e, (c.allocEntry call).deref p = some e := by
    intro j p hp
    have hlt : p < c.entries.length := h.bounded _ j p hp
    refine ⟨c.entries[p], ?_⟩
    simp [State.deref, allocEntry, h.deleted, List.getElem?_append_left hlt]
  rcases @findSlot_of_empty (c.allocEntry call) _ (List.finRange bucketSize) none intMax i hderef
    (List.mem_finRange i) hempty with ⟨j, hslot⟩
  refine ⟨_, ?_, h.fill (findSlot_empty hslot) call (c.freeSize - sizeofIdxCacheEntry)⟩
  have hnonneg : ¬ (c.allocEntry call).freeSize < 0 := Int.not_lt.mpr hfree
  unfold insertNew
  dsimp only
  rw [show (c.allocEntry call).hashTable = c.hashTable from rfl, hslot, Option.bind_eq_bind, Option.bind_some]
  dsimp only
  rw [if_neg hnonneg]
  rfl

/-- Without an empty slot, or without space, the collector is given the wrong pointer. -/
theorem insertNew_not_sound (hins : c.insertNew call = some c')
    (hno : ¬ (0 ≤ c.freeSize ∧ ∃ i, c.hashTable (htIdx call.leafAddr call.kvIdx) i = none))
    : ¬ c'.Sound := by
  intro hsound
  obtain ⟨slot, hslot, hins⟩ := Option.bind_eq_some_iff.mp hins
  cases slot with
  | empty i =>
    have hempty : c.hashTable (htIdx call.leafAddr call.kvIdx) i = none := findSlot_empty hslot
    have hneg : c.freeSize < 0 := by
      by_contra hnonneg
      exact hno ⟨Int.not_lt.mp hnonneg, i, hempty⟩
    dsimp only at hins
    rw [if_pos (show (c.allocEntry call).freeSize < 0 from hneg)] at hins
    refine hsound.ne_null (mem_pushed_evictLoop hins (.inl ?_))
    simp only [sizeofIdxCacheEntry, allocEntry]
    omega
  | lfu minIdx =>
    obtain ⟨i, -, hins⟩ := Option.bind_eq_some_iff.mp hins
    obtain ⟨hpushed, htable, -⟩ := safelyDelete_spec hins
    rw [setSlot_self] at hpushed
    refine hsound.not_referenced c.entries.length ?_ (htIdx call.leafAddr call.kvIdx) i ?_
    . rw [hpushed]
      exact List.mem_append_right _ List.mem_cons_self
    . rw [htable, setSlot_self]

end Insert

section Run

variable {c c' : State} {call : Call}

/-- The state in which a call that has not found its record goes on. -/
def countDown (c : State) : State := { c with delayCnt := c.delayCnt - 1 }

theorem Unspoilt.countDown (h : c.Unspoilt) : c.countDown.Unspoilt := ⟨h.gc, h.deleted, h.bounded, h.referenced⟩

theorem addToCache_cases (h : c.Unspoilt) (call : Call)
    : (c.isDisabled ∧ c.addToCache call = some (false, c))
        ∨ (c.Cached call.leafAddr call.kvIdx ∧ ∃ p, c.addToCache call = some (true, c.touch p call.k))
        ∨ (0 < c.delayCnt.toInt ∧ c.addToCache call = some (false, c.countDown))
        ∨ (¬ c.isDisabled ∧ ¬ c.Cached call.leafAddr call.kvIdx ∧ ¬ 0 < c.delayCnt.toInt
          ∧ c.addToCache call = (c.countDown.insertNew call).map (true, ·)) := by
  unfold addToCache
  by_cases hdis : c.isDisabled
  . exact .inl ⟨hdis, if_pos hdis⟩
  . rw [if_neg hdis]
    dsimp only
    rcases cached_iff_findEntry h call.leafAddr call.kvIdx with ⟨hcached, p, hfind⟩ | ⟨hmiss, hfind⟩
    . rw [hfind]
      exact .inr (.inl ⟨hcached, p, rfl⟩)
    . rw [hfind, Option.bind_eq_bind, Option.bind_some]
      dsimp only
      by_cases hdelay : 0 < c.delayCnt.toInt
      . rw [if_pos hdelay]
        exact .inr (.inr (.inl ⟨hdelay, rfl⟩))
      . rw [if_neg hdelay]
        exact .inr (.inr (.inr ⟨hdis, hmiss, hdelay, Option.map_eq_bind.symm⟩))

theorem addToCache_of_fits (h : c.Unspoilt) (hfits : c.Fits call)
    : ∃ b c', c.addToCache call = some (b, c') ∧ c'.Unspoilt := by
  rcases addToCache_cases h call with ⟨-, hadd⟩ | ⟨-, p, hadd⟩ | ⟨-, hadd⟩ | ⟨hdis, hmiss, hdelay, hadd⟩
  . exact ⟨_, _, hadd, h⟩
  . exact ⟨_, _, hadd, h.touch p call.k⟩
  . exact ⟨_, _, hadd, h.countDown⟩
  . have hroom : 0 ≤ c.freeSize ∧ ∃ i, c.hashTable (htIdx call.leafAddr call.kvIdx) i = none := by
      simpa [Fits, hdis, hmiss, hdelay] using hfits
    rcases insertNew_of_room h.countDown hroom.1 hroom.2 with ⟨c', hins, hc'⟩
    rw [hins] at hadd
    exact ⟨_, _, hadd, hc'⟩

theorem fits_of_sound (h : c.Unspoilt) {b : Bool} (hadd : c.addToCache call = some (b, c')) (hsound : c'.Sound)
    : c.Fits call := by
  rcases addToCache_cases h call with ⟨hdis, -⟩ | ⟨hcached, -⟩ | ⟨hdelay, -⟩ | ⟨-, -, -, hins⟩
  . exact .inl hdis
  . exact .inr (.inl hcached)
  . exact .inr (.inr (.inl hdelay))
  . rw [hadd] at hins
    obtain ⟨c₁, hins, heq⟩ := Option.map_eq_some_iff.mp hins.symm
    cases heq
    by_contra hno
    exact insertNew_not_sound hins (fun hroom => hno (.inr (.inr (.inr hroom)))) hsound

theorem mem_run_self {calls : List Call} {cs : List State} (h : run calls c = some cs) : c ∈ cs := by
  cases calls with
  | nil =>
    cases h
    exact List.mem_singleton_self c
  | cons call calls =>
    obtain ⟨⟨b, c'⟩, -, h⟩ := Option.bind_eq_some_iff.mp h
    obtain ⟨rest, -, h⟩ := Option.bind_eq_some_iff.mp h
    cases h
    exact List.mem_cons_self

theorem run_sound_iff (h : c.Unspoilt) (calls : List Call)
    : (∃ cs, run calls c = some cs ∧ ∀ c' ∈ cs, c'.Sound) ↔ AllFit calls c := by
  induction calls generalizing c with
  | nil => exact ⟨fun _ => trivial, fun _ => ⟨[c], rfl, by simpa using h.sound⟩⟩
  | cons call calls ih =>
    constructor
    . rintro ⟨cs, hrun, hall⟩
      obtain ⟨⟨b, c'⟩, hadd, hrun⟩ := Option.bind_eq_some_iff.mp hrun
      obtain ⟨rest, hrest, hrun⟩ := Option.bind_eq_some_iff.mp hrun
      cases hrun
      have hsound : ∀ d ∈ rest, d.Sound := fun d hd => hall d (List.mem_cons_of_mem _ hd)
      have hfits : c.Fits call := fits_of_sound h hadd (hsound c' (mem_run_self hrest))
      refine ⟨hfits, ?_⟩
      intro b₁ c₁ hadd₁
      cases hadd.symm.trans hadd₁
      obtain ⟨b₂, c₂, hadd₂, hc₂⟩ := addToCache_of_fits h hfits
      cases hadd.symm.trans hadd₂
      exact (ih hc₂).mp ⟨rest, hrest, hsound⟩
    . rintro ⟨hfits, hnext⟩
      obtain ⟨b, c', hadd, hc'⟩ := addToCache_of_fits h hfits
      rcases (ih hc').mpr (hnext b c' hadd) with ⟨rest, hrest, hsound⟩
      refine ⟨c :: rest, ?_, ?_⟩
      . rw [run, hadd]
        simp [hrest]
      . intro d hd
        rcases List.mem_cons.mp hd with rfl | hd
        . exact h.sound
        . exact hsound d hd

end Run

/--
All calls return and in every cache between them the collector has been given exactly the entries that have
left the table, each once, exactly if every call finds its record cached, is delayed or has an empty slot
and space. An entry that is replaced is never handed over, the new one is; for an evicted one it is null.
-/
theorem collected_once_iff (cacheSize : Int) (calls : List Call)
    : (∃ cs, run calls (new cacheSize) = some cs ∧ ∀ c ∈ cs, c.Sound) ↔ AllFit calls (new cacheSize) :=
  run_sound_iff (Unspoilt.new cacheSize) calls

/-- The first record of 17 leaves whose records go to one bucket. -/
def oneBucketCalls : List Call :=
  (List.range 17).map fun i => ⟨⟨0, BitVec.ofNat 48 (1000000 * i)⟩, 0, ⟨Vector.replicate 8 1⟩, []⟩

-- the 17th entry replaces the first one and is itself in the queue of the collector
theorem cached_entry_collected
    : ∃ cs c, run oneBucketCalls (new 50) = some cs ∧ c ∈ cs.getLast? ∧ c.cacheEntryGc = [some 16]
        ∧ c.hashTable (htIdx ⟨0, 0⟩ 0) ⟨0, by decide⟩ = some 16 :=
  ⟨_, _, rfl, rfl, rfl, rfl⟩

end State

end IdxCache

end Rolex

import Rolex.Version.Write

/-!
This module contains the ring of leaf buffers of `RdmaBuffer` and the two functions that take many
buffers at once: `fetch_nodes`, and `range_query` with its fetch of the leaves and its fetch of the
synonym leaves.
-/

namespace Rolex

def kLeafBufferCnt : Nat := 512

/-- The leaf buffers of an `RdmaBuffer` with their contents. -/
structure RdmaBuffer where
  leafBufferCur : Nat
  leafBuffer : Nat → Buffer

/-- The buffers `fetch_nodes` takes for one leaf, the intermediate one with `METADATA_REPLICATION` only. -/
structure LeafBuffers where
  raw : Nat
  leaf : Nat
  intermediate : Nat

namespace RdmaBuffer

variable (repl : Bool) (E : Type) [EntryType E] (mem : NodeMemory)

def getLeafBuffer (rb : RdmaBuffer) : Nat × RdmaBuffer :=
  let cur := (rb.leafBufferCur + 1) % kLeafBufferCnt
  (cur, { rb with leafBufferCur := cur })

def put (rb : RdmaBuffer) (b : Nat) (buf : Buffer) : RdmaBuffer :=
  { rb with leafBuffer := Function.update rb.leafBuffer b buf }

/-- `(LeafNode *)leaf_buffer` -/
def node (rb : RdmaBuffer) (b : Nat) : Node E := .ofBytes (rb.leafBuffer b)

/-- The body of the first loop of `fetch_nodes`. -/
def getLeafBuffers (rb : RdmaBuffer) : LeafBuffers × RdmaBuffer :=
  let (raw, rb) := rb.getLeafBuffer
  let (leaf, rb) := rb.getLeafBuffer
  let rb := rb.put leaf fun _ => 0
  if repl then
    let (intermediate, rb) := rb.getLeafBuffer
    (⟨raw, leaf, intermediate⟩, rb.put intermediate fun _ => 0)
  else
    (⟨raw, leaf, leaf⟩, rb)

def getBuffers : Nat → RdmaBuffer → List LeafBuffers × RdmaBuffer
  | 0, rb => ([], rb)
  | n + 1, rb =>
    let (b, rb) := rb.getLeafBuffers repl
    let (bs, rb) := getBuffers n rb
    (b :: bs, rb)

/-- The raw buffers are cleared while the batch is made. -/
def clearRaw (rb : RdmaBuffer) : List LeafBuffers → RdmaBuffer
  | [] => rb
  | b :: bs => clearRaw (rb.put b.raw fun _ => 0) bs

def readBatches (rb : RdmaBuffer) : List (GlobalAddress × LeafBuffers) → RdmaBuffer
  | [] => rb
  | (leafAddr, b) :: rs =>
    readBatches
      (rb.put b.raw (memcpy (rb.leafBuffer b.raw) 0 (mem leafAddr) 0 (Node.transLeafSize repl E))) rs

/-- The consistency check of one leaf: `false` to fetch again, `none` when an assertion fails. -/
def decodeLeaf (rb : RdmaBuffer) (b : LeafBuffers) : Option (Bool × RdmaBuffer) :=
  if repl then
    match LeafVersionManager.decodeNodeVersions (EntryType.size E) (rb.leafBuffer b.raw)
      (rb.leafBuffer b.intermediate) with
    | none => some (false, rb)
    | some scatteredLeaf => do
      let rb := rb.put b.intermediate scatteredLeaf
      let leaf ← MetadataManager.decodeNodeMetadata (EntryType.size E) (rb.leafBuffer b.intermediate)
        (rb.leafBuffer b.leaf)
      return (true, rb.put b.leaf leaf)
  else
    match VersionManager.decodeNodeVersions (nodeLayout (EntryType.size E) size_pos) (rb.leafBuffer b.raw)
      (rb.leafBuffer b.leaf) with
    | none => some (false, rb)
    | some leaf => some (true, rb.put b.leaf leaf)

def decodeLeaves (rb : RdmaBuffer) : List LeafBuffers → Option (Bool × RdmaBuffer)
  | [] => some (true, rb)
  | b :: bs => do
    let (ok, rb) ← rb.decodeLeaf repl E b
    if ok then
      decodeLeaves rb bs
    else
      return (false, rb)

/-- The part of `fetch_nodes` from `re_fetch` on. -/
def fetchNodes.reFetch (leaves : List (GlobalAddress × LeafBuffers)) : Nat → RdmaBuffer → Option RdmaBuffer
  | 0, _ => none
  | attempts + 1, rb => do
    let rb := (rb.clearRaw (leaves.map Prod.snd)).readBatches repl E mem leaves
    let (ok, rb) ← rb.decodeLeaves repl E (leaves.map Prod.snd)
    if ok then
      return rb
    else
      reFetch leaves attempts rb

/-- `RolexIndex::fetch_nodes`, `none` when it does not return within `attempts` fetches. -/
def fetchNodes (leafAddrs : List GlobalAddress) (attempts : Nat) (rb : RdmaBuffer)
    : Option (List LeafBuffers × RdmaBuffer) := do
  let (bs, rb) := getBuffers repl leafAddrs.length rb
  let rb ← fetchNodes.reFetch repl E mem (leafAddrs.zip bs) attempts rb
  return (bs, rb)

end RdmaBuffer

/-- The synonym leaves that are not in `syn_leaf_addrs`, from the leaves with their `synonym_ptr`. -/
def missingSynonyms (synLeafAddrs : GlobalAddress → Option GlobalAddress)
    : List (GlobalAddress × GlobalAddress) → List GlobalAddress
  | [] => []
  | (leafAddr, synonymPtr) :: leaves =>
    if synonymPtr ≠ GlobalAddress.null ∧ synLeafAddrs leafAddr = none then
      synonymPtr :: missingSynonyms (Function.update synLeafAddrs leafAddr (some synonymPtr)) leaves
    else
      missingSynonyms synLeafAddrs leaves

/-- Steps 1 and 2 of `RolexIndex::range_query` for the leaves at `predicted`. -/
def fetchRange (repl : Bool) (E : Type) [EntryType E] (mem : NodeMemory)
    (synLeafAddrs : GlobalAddress → Option GlobalAddress) (predicted : List GlobalAddress) (attempts : Nat)
    (rb : RdmaBuffer) : Option (List GlobalAddress × List LeafBuffers × RdmaBuffer) := do
  let leafAddrs := predicted ++ predicted.filterMap synLeafAddrs
  let (leaves, rb) ← rb.fetchNodes repl E mem leafAddrs attempts
  let appendLeafAddrs := missingSynonyms synLeafAddrs
    (predicted.zip (leaves.map fun b => (rb.node E b.leaf).metadata.synonymPtr))
  if appendLeafAddrs.isEmpty then
    return (leafAddrs, leaves, rb)
  else
    let (appendLeaves, rb) ← rb.fetchNodes repl E mem appendLeafAddrs attempts
    return (leafAddrs ++ appendLeafAddrs, leaves ++ appendLeaves, rb)

def bufferAt (repl : Bool) (cur i : Nat) : LeafBuffers :=
  match repl with
  | false => ⟨(cur + 2 * i + 1) % 512, (cur + 2 * i + 2) % 512, (cur + 2 * i + 2) % 512⟩
  | true => ⟨(cur + 3 * i + 1) % 512, (cur + 3 * i + 2) % 512, (cur + 3 * i + 3) % 512⟩

def perLeaf (repl : Bool) : Nat := if repl then 3 else 2

/-- How many leaves can be fetched before a buffer with a leaf is taken again. -/
def leafCapacity (repl : Bool) : Nat := if repl then 171 else 256

def LeafBuffers.Has (b : LeafBuffers) (x : Nat) : Prop := x = b.raw ∨ x = b.leaf ∨ x = b.intermediate

namespace RdmaBuffer

variable {repl : Bool} {rb : RdmaBuffer} {cur i j n : Nat}

theorem put_self (rb : RdmaBuffer) (b : Nat) (buf : Buffer) : (rb.put b buf).leafBuffer b = buf :=
  Function.update_self _ _ _

theorem put_of_ne {x b : Nat} (h : x ≠ b) (buf : Buffer)
    : (rb.put b buf).leafBuffer x = rb.leafBuffer x := Function.update_of_ne h _ _

theorem bufferAt_congr {cur' i' : Nat} (h : (cur + perLeaf repl * i) % 512 = (cur' + perLeaf repl * i') % 512)
    : bufferAt repl cur i = bufferAt repl cur' i' := by
  cases repl with
  | false =>
    have h' : (cur + 2 * i) % 512 = (cur' + 2 * i') % 512 := h
    simp only [bufferAt, LeafBuffers.mk.injEq]
    omega
  | true =>
    have h' : (cur + 3 * i) % 512 = (cur' + 3 * i') % 512 := h
    simp only [bufferAt, LeafBuffers.mk.injEq]
    omega

theorem getLeafBuffers_spec (repl : Bool) (rb : RdmaBuffer)
    : (rb.getLeafBuffers repl).1 = bufferAt repl rb.leafBufferCur 0
        ∧ (rb.getLeafBuffers repl).2.leafBufferCur % 512 = (rb.leafBufferCur + perLeaf repl) % 512
        ∧ ∀ x, ¬(bufferAt repl rb.leafBufferCur 0).Has x →
          (rb.getLeafBuffers repl).2.leafBuffer x = rb.leafBuffer x := by
  have hcnt : kLeafBufferCnt = 512 := rfl
  cases repl with
  | false =>
    have heq : (rb.getLeafBuffers false).1 = bufferAt false rb.leafBufferCur 0 := by
      show LeafBuffers.mk ((_ + 1) % 512) (((_ + 1) % 512 + 1) % 512) (((_ + 1) % 512 + 1) % 512) = ⟨_, _, _⟩
      rw [LeafBuffers.mk.injEq]
      omega
    refine ⟨heq, ?_, ?_⟩
    . simp only [getLeafBuffers, getLeafBuffer, put, hcnt, perLeaf, Bool.false_eq_true, if_false]
      omega
    . rw [← heq]
      intro x hx
      exact put_of_ne (fun h => hx (.inr (.inl h))) _
  | true =>
    have heq : (rb.getLeafBuffers true).1 = bufferAt true rb.leafBufferCur 0 := by
      show LeafBuffers.mk ((_ + 1) % 512) (((_ + 1) % 512 + 1) % 512) ((((_ + 1) % 512 + 1) % 512 + 1) % 512)
        = ⟨_, _, _⟩
      rw [LeafBuffers.mk.injEq]
      omega
    refine ⟨heq, ?_, ?_⟩
    . simp only [getLeafBuffers, getLeafBuffer, put, hcnt, perLeaf, if_true]
      omega
    . rw [← heq]
      intro x hx
      refine (put_of_ne (fun h => hx (.inr (.inr h))) _).trans ?_
      exact put_of_ne (fun h => hx (.inr (.inl h))) _

theorem getBuffers_spec (repl : Bool) (n : Nat) (rb : RdmaBuffer)
    : (getBuffers repl n rb).1 = (List.range n).map (bufferAt repl rb.leafBufferCur)
        ∧ (getBuffers repl n rb).2.leafBufferCur % 512 = (rb.leafBufferCur + perLeaf repl * n) % 512
        ∧ ∀ x, (∀ i, i < n → ¬(bufferAt repl rb.leafBufferCur i).Has x) →
          (getBuffers repl n rb).2.leafBuffer x = rb.leafBuffer x := by
  induction n generalizing rb with
  | zero => exact ⟨rfl, rfl, fun _ _ => rfl⟩
  | succ n ih =>
    obtain ⟨hbuf, hcur, hframe⟩ := getLeafBuffers_spec repl rb
    obtain ⟨ihbuf, ihcur, ihframe⟩ := ih (rb.getLeafBuffers repl).2
    have hshift : ∀ i, bufferAt repl (rb.getLeafBuffers repl).2.leafBufferCur i
        = bufferAt repl rb.leafBufferCur (i + 1) := by
      intro i
      apply bufferAt_congr
      rw [Nat.mul_succ]
      omega
    refine ⟨?_, ?_, ?_⟩
    . show (rb.getLeafBuffers repl).1 :: (getBuffers repl n (rb.getLeafBuffers repl).2).1 = _
      rw [hbuf, ihbuf, List.range_succ_eq_map, List.map_cons, List.map_map]
      congr 1
      apply List.map_congr_left
      intro i _
      exact hshift i
    . show (getBuffers repl n (rb.getLeafBuffers repl).2).2.leafBufferCur % 512 = _
      rw [ihcur, Nat.mul_succ]
      omega
    . intro x hx
      show (getBuffers repl n (rb.getLeafBuffers repl).2).2.leafBuffer x = _
      rw [ihframe, hframe x (hx 0 (by omega))]
      intro i hi
      rw [hshift]
      exact hx (i + 1) (by omega)

end RdmaBuffer

/-- The buffers of `c`, which are taken after those of `b`, do not get in the way of those of `b`. -/
structure LeafBuffers.Apart (b c : LeafBuffers) : Prop where
  raw : b.raw ≠ c.raw
  leaf : b.leaf ≠ c.leaf
  raw_leaf : b.raw ≠ c.leaf
  leaf_raw : b.leaf ≠ c.raw
  intermediate_raw : b.intermediate ≠ c.raw
  leaf_intermediate : b.leaf ≠ c.intermediate

theorem apart_bufferAt {repl : Bool} {cur i j : Nat} (hlt : i < j) (hj : j < i + leafCapacity repl)
    : (bufferAt repl cur i).Apart (bufferAt repl cur j) := by
  cases repl with
  | false =>
    have hj' : j < i + 256 := hj
    constructor <;> simp only [bufferAt] <;> omega
  | true =>
    have hj' : j < i + 171 := hj
    constructor <;> simp only [bufferAt] <;> omega

def inUse (bs : List LeafBuffers) : List Nat := bs.flatMap fun b => [b.raw, b.leaf]

theorem nodup_inUse_iff (repl : Bool) (cur n : Nat)
    : (inUse ((List.range n).map (bufferAt repl cur))).Nodup ↔ n ≤ leafCapacity repl := by
  unfold inUse
  rw [List.flatMap_map, List.nodup_flatMap]
  constructor
  . rintro ⟨-, hdis⟩
    by_contra hgt
    have hpair := List.pairwise_iff_getElem.mp hdis 0 (leafCapacity repl) (by simp; omega) (by simp; omega)
      (by cases repl <;> decide)
    simp only [List.getElem_range] at hpair
    cases repl with
    | false =>
      have hmem : (cur + 1) % 512 ∈ [(bufferAt false cur 256).raw, (bufferAt false cur 256).leaf] := by
        simp only [bufferAt, List.mem_cons]
        omega
      exact hpair List.mem_cons_self hmem
    | true =>
      have hmem : (cur + 2) % 512 ∈ [(bufferAt true cur 171).raw, (bufferAt true cur 171).leaf] := by
        simp only [bufferAt, List.mem_cons]
        omega
      exact hpair (List.mem_cons_of_mem _ List.mem_cons_self) hmem
  . intro hle
    constructor
    . intro i _
      cases repl with
      | false =>
        simp only [bufferAt, List.nodup_cons, List.mem_cons, List.not_mem_nil, List.nodup_nil, or_false,
          not_false_eq_true, and_true]
        omega
      | true =>
        simp only [bufferAt, List.nodup_cons, List.mem_cons, List.not_mem_nil, List.nodup_nil, or_false,
          not_false_eq_true, and_true]
        omega
    . rw [List.pairwise_iff_getElem]
      intro i j hi hj hlt
      simp only [List.getElem_range, List.length_range] at hi hj ⊢
      have hapart : (bufferAt repl cur i).Apart (bufferAt repl cur j) := apart_bufferAt hlt (by omega)
      obtain ⟨h1, h2, h3, h4, -, -⟩ := hapart
      intro x hx hx'
      simp only [List.mem_cons, List.not_mem_nil, or_false] at hx hx'
      rcases hx with rfl | rfl <;> rcases hx' with h | h <;> contradiction

section Contents

variable {repl : Bool} {E : Type} [EntryType E] {mem : NodeMemory}

/-- The image is one of the node. -/
def Node.IsImage (repl : Bool) (img : Buffer) (n : Node E) : Prop :=
  ∃ buf metas, IsEncoded repl n img buf metas

theorem Node.IsImage.congr {img img' : Buffer} {n : Node E} (h : n.IsImage repl img)
    (heq : ∀ y, y < transLeafSize repl E → img' y = img y)
    : n.IsImage repl img' := by
  obtain ⟨buf, metas, himage, h2, h3, h4, h5⟩ := h
  refine ⟨buf, metas, ?_, h2, h3, h4, h5⟩
  intro y hy
  rw [heq y (by rwa [transLeafSize_eq]), himage y hy]

namespace RdmaBuffer

variable {rb : RdmaBuffer} {b : LeafBuffers} {n : Node E}

theorem decodeLeaf_spec (himage : n.IsImage repl (rb.leafBuffer b.raw))
    (hne : repl = true → b.leaf ≠ b.intermediate)
    : ∃ rb', rb.decodeLeaf repl E b = some (true, rb')
        ∧ rb'.node E b.leaf = n
        ∧ rb'.leafBufferCur = rb.leafBufferCur
        ∧ ∀ x, x ≠ b.leaf → x ≠ b.intermediate → rb'.leafBuffer x = rb.leafBuffer x := by
  have hdecode : Node.decode repl (rb.leafBuffer b.raw) (rb.leafBuffer b.intermediate) (rb.leafBuffer b.leaf)
      = some n := Node.decode_eq_some.mpr himage
  cases repl with
  | false =>
    simp only [Node.decode, Bool.false_eq_true, if_false, Option.bind_eq_bind, Option.bind_eq_some_iff,
      Option.pure_def, Option.some.injEq] at hdecode
    obtain ⟨leaf, hleaf, rfl⟩ := hdecode
    refine ⟨rb.put b.leaf leaf, ?_, ?_, rfl, fun x hx _ => put_of_ne hx leaf⟩
    . unfold decodeLeaf
      rw [if_neg Bool.false_ne_true, hleaf]
    . rw [node, put_self]
  | true =>
    simp only [Node.decode, if_true, Option.bind_eq_bind, Option.bind_eq_some_iff, Option.pure_def,
      Option.some.injEq] at hdecode
    obtain ⟨scatteredLeaf, hscattered, leaf, hleaf, rfl⟩ := hdecode
    refine ⟨(rb.put b.intermediate scatteredLeaf).put b.leaf leaf, ?_, ?_, rfl, ?_⟩
    . unfold decodeLeaf
      rw [if_pos rfl, hscattered]
      dsimp only
      rw [put_self, put_of_ne (hne rfl), hleaf]
      rfl
    . rw [node, put_self]
    . intro x hx hx'
      rw [put_of_ne hx, put_of_ne hx']

theorem decodeLeaves_spec {node : GlobalAddress → Node E} {leaves : List (GlobalAddress × LeafBuffers)}
    (hapart : leaves.Pairwise fun p q => p.2.Apart q.2)
    (hne : ∀ p ∈ leaves, repl = true → p.2.leaf ≠ p.2.intermediate)
    (himage : ∀ p ∈ leaves, (node p.1).IsImage repl (rb.leafBuffer p.2.raw))
    : ∃ rb', rb.decodeLeaves repl E (leaves.map Prod.snd) = some (true, rb')
        ∧ (∀ p ∈ leaves, rb'.node E p.2.leaf = node p.1)
        ∧ rb'.leafBufferCur = rb.leafBufferCur
        ∧ ∀ x, (∀ p ∈ leaves, x ≠ p.2.leaf ∧ x ≠ p.2.intermediate) → rb'.leafBuffer x = rb.leafBuffer x := by
  induction leaves generalizing rb with
  | nil => exact ⟨rb, rfl, nofun, rfl, fun _ _ => rfl⟩
  | cons p leaves ih =>
    obtain ⟨hp, hleaves⟩ := List.pairwise_cons.mp hapart
    obtain ⟨rb', hdec, hnode, hcur, hframe⟩ :=
      decodeLeaf_spec (himage p List.mem_cons_self) (hne p List.mem_cons_self)
    have himage' : ∀ q ∈ leaves, (node q.1).IsImage repl (rb'.leafBuffer q.2.raw) := by
      intro q hq
      have hpq := hp q hq
      rw [hframe _ hpq.leaf_raw.symm hpq.intermediate_raw.symm]
      exact himage q (List.mem_cons_of_mem _ hq)
    obtain ⟨rb'', hdec', hnode', hcur', hframe'⟩ :=
      ih hleaves (fun q hq => hne q (List.mem_cons_of_mem _ hq)) himage'
    refine ⟨rb'', ?_, ?_, hcur'.trans hcur, ?_⟩
    . rw [List.map_cons, decodeLeaves, hdec]
      exact hdec'
    . intro q hq
      rcases List.mem_cons.mp hq with rfl | hq
      . rw [RdmaBuffer.node, hframe' _ fun r hr => ⟨(hp r hr).leaf, (hp r hr).leaf_intermediate⟩]
        exact hnode
      . exact hnode' q hq
    . intro x hx
      rw [hframe' x fun q hq => hx q (List.mem_cons_of_mem _ hq)]
      exact hframe x (hx p List.mem_cons_self).1 (hx p List.mem_cons_self).2

theorem clearRaw_spec (rb : RdmaBuffer) (bs : List LeafBuffers)
    : (rb.clearRaw bs).leafBufferCur = rb.leafBufferCur
        ∧ ∀ x, (∀ b ∈ bs, x ≠ b.raw) → (rb.clearRaw bs).leafBuffer x = rb.leafBuffer x := by
  induction bs generalizing rb with
  | nil => exact ⟨rfl, fun _ _ => rfl⟩
  | cons b bs ih =>
    obtain ⟨hcur, hframe⟩ := ih (rb.put b.raw fun _ => 0)
    refine ⟨hcur, ?_⟩
    intro x hx
    rw [clearRaw, hframe x fun c hc => hx c (List.mem_cons_of_mem _ hc)]
    exact put_of_ne (hx b List.mem_cons_self) _

theorem readBatches_frame (repl : Bool) (E : Type) [EntryType E] (mem : NodeMemory) (rb : RdmaBuffer)
    (leaves : List (GlobalAddress × LeafBuffers))
    : (rb.readBatches repl E mem leaves).leafBufferCur = rb.leafBufferCur
        ∧ ∀ x, (∀ p ∈ leaves, x ≠ p.2.raw) → (rb.readBatches repl E mem leaves).leafBuffer x = rb.leafBuffer x := by
  induction leaves generalizing rb with
  | nil => exact ⟨rfl, fun _ _ => rfl⟩
  | cons p leaves ih =>
    obtain ⟨hcur, hframe⟩ := ih (rb.put p.2.raw _)
    refine ⟨hcur, ?_⟩
    intro x hx
    rw [readBatches, hframe x fun q hq => hx q (List.mem_cons_of_mem _ hq)]
    exact put_of_ne (hx p List.mem_cons_self) _

theorem readBatches_image {node : GlobalAddress → Node E} {leaves : List (GlobalAddress × LeafBuffers)}
    (hapart : leaves.Pairwise fun p q => p.2.raw ≠ q.2.raw)
    (himage : ∀ p ∈ leaves, (node p.1).IsImage repl (mem p.1)) (rb : RdmaBuffer)
    : ∀ p ∈ leaves, (node p.1).IsImage repl ((rb.readBatches repl E mem leaves).leafBuffer p.2.raw) := by
  induction leaves generalizing rb with
  | nil => nofun
  | cons p leaves ih =>
    obtain ⟨hp, hleaves⟩ := List.pairwise_cons.mp hapart
    intro q hq
    rcases List.mem_cons.mp hq with rfl | hq
    . rw [readBatches, (readBatches_frame repl E mem _ leaves).2 _ hp, put_self]
      apply (himage q List.mem_cons_self).congr
      intro y hy
      rw [memcpy, if_pos ⟨Nat.zero_le y, by omega⟩]
      congr 1
      omega
    . exact ih hleaves (fun q hq => himage q (List.mem_cons_of_mem _ hq)) _ q hq

theorem reFetch_spec {node : GlobalAddress → Node E} {leaves : List (GlobalAddress × LeafBuffers)}
    {attempts : Nat} (hattempts : 0 < attempts) (hapart : leaves.Pairwise fun p q => p.2.Apart q.2)
    (hne : ∀ p ∈ leaves, repl = true → p.2.leaf ≠ p.2.intermediate)
    (himage : ∀ p ∈ leaves, (node p.1).IsImage repl (mem p.1)) (rb : RdmaBuffer)
    : ∃ rb', fetchNodes.reFetch repl E mem leaves attempts rb = some rb'
        ∧ (∀ p ∈ leaves, rb'.node E p.2.leaf = node p.1)
        ∧ rb'.leafBufferCur = rb.leafBufferCur
        ∧ ∀ x, (∀ p ∈ leaves, ¬p.2.Has x) → rb'.leafBuffer x = rb.leafBuffer x := by
  obtain ⟨attempts, rfl⟩ := Nat.exists_eq_succ_of_ne_zero hattempts.ne'
  have hraw : leaves.Pairwise fun p q => p.2.raw ≠ q.2.raw := hapart.imp fun h => h.raw
  obtain ⟨hcur, hframe⟩ := clearRaw_spec rb (leaves.map Prod.snd)
  obtain ⟨hcur', hframe'⟩ := readBatches_frame repl E mem (rb.clearRaw (leaves.map Prod.snd)) leaves
  obtain ⟨rb', hdec, hnode, hcur'', hframe''⟩ := decodeLeaves_spec hapart hne
    (readBatches_image hraw himage (rb.clearRaw (leaves.map Prod.snd)))
  refine ⟨rb', ?_, hnode, hcur''.trans (hcur'.trans hcur), ?_⟩
  . rw [fetchNodes.reFetch]
    dsimp only
    rw [hdec]
    rfl
  . intro x hx
    have hx1 : ∀ p ∈ leaves, x ≠ p.2.raw := fun p hp h => hx p hp (.inl h)
    have hx2 : ∀ p ∈ leaves, x ≠ p.2.leaf ∧ x ≠ p.2.intermediate :=
      fun p hp => ⟨fun h => hx p hp (.inr (.inl h)), fun h => hx p hp (.inr (.inr h))⟩
    have hx3 : ∀ b ∈ leaves.map Prod.snd, x ≠ b.raw := by
      intro b hb
      obtain ⟨p, hp, rfl⟩ := List.mem_map.mp hb
      exact hx1 p hp
    rw [hframe'' x hx2, hframe' x hx1, hframe x hx3]

end RdmaBuffer

variable {leafAddrs : List GlobalAddress} {cur : Nat}

theorem mem_zip_buffers {p : GlobalAddress × LeafBuffers}
    (hp : p ∈ leafAddrs.zip ((List.range leafAddrs.length).map (bufferAt repl cur)))
    : ∃ i, ∃ h : i < leafAddrs.length, p = (leafAddrs[i], bufferAt repl cur i) := by
  obtain ⟨i, hi, rfl⟩ := List.mem_iff_getElem.mp hp
  have hlt : i < leafAddrs.length := by
    rw [List.length_zip] at hi
    omega
  refine ⟨i, hlt, ?_⟩
  rw [List.getElem_zip, List.getElem_map, List.getElem_range]

theorem zip_buffers_mem {i : Nat} (h : i < leafAddrs.length)
    : (leafAddrs[i], bufferAt repl cur i)
        ∈ leafAddrs.zip ((List.range leafAddrs.length).map (bufferAt repl cur)) := by
  rw [List.mem_iff_getElem]
  refine ⟨i, by simpa using h, ?_⟩
  rw [List.getElem_zip, List.getElem_map, List.getElem_range]

/-- A fetch of not too many leaves brings each of them, and leaves the other buffers alone. -/
theorem RdmaBuffer.fetchNodes_spec {node : GlobalAddress → Node E} {attempts : Nat}
    (hattempts : 0 < attempts) (himage : ∀ a ∈ leafAddrs, (node a).IsImage repl (mem a))
    (hle : leafAddrs.length ≤ leafCapacity repl) (rb : RdmaBuffer)
    : ∃ rb', rb.fetchNodes repl E mem leafAddrs attempts
          = some ((List.range leafAddrs.length).map (bufferAt repl rb.leafBufferCur), rb')
        ∧ (∀ i, ∀ h : i < leafAddrs.length,
          rb'.node E (bufferAt repl rb.leafBufferCur i).leaf = node leafAddrs[i])
        ∧ rb'.leafBufferCur % 512 = (rb.leafBufferCur + perLeaf repl * leafAddrs.length) % 512
        ∧ ∀ x, (∀ i, i < leafAddrs.length → ¬(bufferAt repl rb.leafBufferCur i).Has x) →
          rb'.leafBuffer x = rb.leafBuffer x := by
  obtain ⟨hbufs, hcur, hframe⟩ := getBuffers_spec repl leafAddrs.length rb
  have hapart : (leafAddrs.zip ((List.range leafAddrs.length).map (bufferAt repl rb.leafBufferCur))).Pairwise
      fun p q => p.2.Apart q.2 := by
    rw [List.pairwise_iff_getElem]
    intro i j hi hj hlt
    rw [List.getElem_zip, List.getElem_zip, List.getElem_map, List.getElem_map, List.getElem_range,
      List.getElem_range]
    rw [List.length_zip] at hj
    exact apart_bufferAt hlt (by omega)
  have hne : ∀ p ∈ leafAddrs.zip ((List.range leafAddrs.length).map (bufferAt repl rb.leafBufferCur)),
      repl = true → p.2.leaf ≠ p.2.intermediate := by
    rintro p hp rfl
    obtain ⟨i, -, rfl⟩ := mem_zip_buffers hp
    simp only [bufferAt]
    omega
  have himage' : ∀ p ∈ leafAddrs.zip ((List.range leafAddrs.length).map (bufferAt repl rb.leafBufferCur)),
      (node p.1).IsImage repl (mem p.1) := by
    intro p hp
    exact himage p.1 (List.of_mem_zip hp).1
  obtain ⟨rb', hfetch, hnode, hcur', hframe'⟩ :=
    reFetch_spec hattempts hapart hne himage' (getBuffers repl leafAddrs.length rb).2
  refine ⟨rb', ?_, ?_, ?_, ?_⟩
  . rw [fetchNodes]
    dsimp only
    rw [hbufs, hfetch]
    rfl
  . intro i h
    exact hnode _ (zip_buffers_mem h)
  . rw [hcur', hcur]
  . intro x hx
    rw [hframe' x, hframe x hx]
    intro p hp
    obtain ⟨i, hi, rfl⟩ := mem_zip_buffers hp
    exact hx i hi

section Range

variable {node : GlobalAddress → Node E} {rb rb' : RdmaBuffer} {bs : List LeafBuffers} {attempts n : Nat}

theorem RdmaBuffer.buffers_of_fetchNodes (h : rb.fetchNodes repl E mem leafAddrs attempts = some (bs, rb'))
    : bs = (List.range leafAddrs.length).map (bufferAt repl rb.leafBufferCur) := by
  unfold fetchNodes at h
  simp only [Option.bind_eq_bind, Option.bind_eq_some_iff, Option.pure_def, Option.some.injEq,
    Prod.mk.injEq] at h
  obtain ⟨_, -, rfl, -⟩ := h
  exact (getBuffers_spec repl leafAddrs.length rb).1

theorem range_buffers_append {cur cur' n n' : Nat} (h : cur' % 512 = (cur + perLeaf repl * n) % 512)
    : (List.range n).map (bufferAt repl cur) ++ (List.range n').map (bufferAt repl cur')
        = (List.range (n + n')).map (bufferAt repl cur) := by
  rw [List.range_add, List.map_append, List.map_map]
  congr 1
  apply List.map_congr_left
  intro i _
  apply RdmaBuffer.bufferAt_congr
  rw [Nat.mul_add]
  omega

omit [EntryType E] in
theorem map_buffers_eq_iff {f : LeafBuffers → Node E}
    : ((List.range leafAddrs.length).map (bufferAt repl cur)).map f = leafAddrs.map node
        ↔ ∀ i, ∀ h : i < leafAddrs.length, f (bufferAt repl cur i) = node leafAddrs[i] := by
  constructor
  . intro heq i h
    have := List.getElem_of_eq heq (by simpa using h)
    simpa using this
  . intro h
    apply List.ext_getElem
    . simp
    . intro i h1 h2
      simp only [List.getElem_map, List.getElem_range]
      exact h i (by simpa using h2)

theorem zip_map_append (f : GlobalAddress → GlobalAddress) (leafAddrs rest : List GlobalAddress)
    : leafAddrs.zip (leafAddrs.map f ++ rest) = leafAddrs.map fun a => (a, f a) := by
  induction leafAddrs with
  | nil => rfl
  | cons a leafAddrs ih => simp [ih]

omit [EntryType E] in
theorem missingSynonyms_fetched {predicted rest : List GlobalAddress}
    (syn : GlobalAddress → Option GlobalAddress) {f : LeafBuffers → Node E}
    (h : bs.map f = (predicted ++ rest).map node)
    : missingSynonyms syn (predicted.zip (bs.map fun b => (f b).metadata.synonymPtr))
        = missingSynonyms syn (predicted.map fun a => (a, (node a).metadata.synonymPtr)) := by
  have hptr : bs.map (fun b => (f b).metadata.synonymPtr)
      = (predicted ++ rest).map fun a => (node a).metadata.synonymPtr := by
    have := congrArg (List.map fun n : Node E => n.metadata.synonymPtr) h
    rwa [List.map_map, List.map_map] at this
  rw [hptr, List.map_append, zip_map_append]

/-- The leaves of a range query with their synonym leaves. -/
def rangeAddrs (syn : GlobalAddress → Option GlobalAddress) (node : GlobalAddress → Node E)
    (predicted : List GlobalAddress) : List GlobalAddress :=
  predicted ++ predicted.filterMap syn
    ++ missingSynonyms syn (predicted.map fun a => (a, (node a).metadata.synonymPtr))

variable {predicted : List GlobalAddress} {syn : GlobalAddress → Option GlobalAddress}

theorem fetchRange_spec (hattempts : 0 < attempts)
    (himage : ∀ a ∈ rangeAddrs syn node predicted, (node a).IsImage repl (mem a))
    (hle : (rangeAddrs syn node predicted).length ≤ leafCapacity repl) (rb : RdmaBuffer)
    : ∃ rb', fetchRange repl E mem syn predicted attempts rb
          = some (rangeAddrs syn node predicted,
              (List.range (rangeAddrs syn node predicted).length).map (bufferAt repl rb.leafBufferCur), rb')
        ∧ ((List.range (rangeAddrs syn node predicted).length).map (bufferAt repl rb.leafBufferCur)).map
            (fun b => rb'.node E b.leaf) = (rangeAddrs syn node predicted).map node := by
  generalize hfirst : predicted ++ predicted.filterMap syn = first at *
  generalize hsecond : missingSynonyms syn (predicted.map fun a => (a, (node a).metadata.synonymPtr))
    = second at *
  have haddrs : rangeAddrs syn node predicted = first ++ second := by
    rw [rangeAddrs, hfirst, hsecond]
  rw [haddrs] at himage hle ⊢
  rw [List.length_append] at hle
  obtain ⟨rb1, hfetch1, hnode1, hcur1, -⟩ := RdmaBuffer.fetchNodes_spec hattempts
    (fun a ha => himage a (List.mem_append_left _ ha)) (by omega) rb
  have hmap1 : ((List.range first.length).map (bufferAt repl rb.leafBufferCur)).map
      (fun b => rb1.node E b.leaf) = first.map node := map_buffers_eq_iff.mpr hnode1
  have hmissing := missingSynonyms_fetched syn (by rw [hmap1, ← hfirst])
  rw [hsecond] at hmissing
  unfold fetchRange
  dsimp only
  rw [hfirst, hfetch1, Option.bind_eq_bind, Option.bind_some]
  dsimp only
  rw [hmissing]
  cases hempty : second with
  | nil =>
    rw [List.append_nil]
    exact ⟨rb1, rfl, hmap1⟩
  | cons a second' =>
    rw [← hempty, if_neg (by rw [hempty]; exact Bool.false_ne_true)]
    obtain ⟨rb2, hfetch2, hnode2, -, hframe2⟩ := RdmaBuffer.fetchNodes_spec hattempts
      (fun a ha => himage a (List.mem_append_right _ ha)) (by omega) rb1
    rw [hfetch2]
    refine ⟨rb2, ?_, ?_⟩
    . rw [Option.bind_some, List.length_append, ← range_buffers_append hcur1]
      rfl
    . rw [List.length_append, ← range_buffers_append hcur1, List.map_append, List.map_append]
      congr 1
      . apply map_buffers_eq_iff.mpr
        intro i hi
        rw [← hnode1 i hi, RdmaBuffer.node, RdmaBuffer.node, hframe2]
        -- the buffers of the second fetch follow on those of the first one
        intro j hj
        have hshift : bufferAt repl rb1.leafBufferCur j = bufferAt repl rb.leafBufferCur (first.length + j) := by
          apply RdmaBuffer.bufferAt_congr
          rw [Nat.mul_add]
          omega
        have hapart : (bufferAt repl rb.leafBufferCur i).Apart (bufferAt repl rb.leafBufferCur (first.length + j)) :=
          apart_bufferAt (by omega) (by omega)
        rw [hshift]
        rintro (h | h | h)
        . exact hapart.leaf_raw h
        . exact hapart.leaf h
        . exact hapart.leaf_intermediate h
      . exact map_buffers_eq_iff.mpr hnode2

theorem RdmaBuffer.attempts_pos_of_fetchNodes
    (h : rb.fetchNodes repl E mem leafAddrs attempts = some (bs, rb'))
    : 0 < attempts := by
  cases attempts with
  | zero => cases h
  | succ attempts => exact attempts.succ_pos

theorem length_le_of_fetchRange
    (himage : ∀ a ∈ rangeAddrs syn node predicted, (node a).IsImage repl (mem a))
    (hfetch : fetchRange repl E mem syn predicted attempts rb = some (leafAddrs, bs, rb'))
    (hnodup : (inUse bs).Nodup)
    : (rangeAddrs syn node predicted).length ≤ leafCapacity repl := by
  unfold fetchRange at hfetch
  simp only [Option.bind_eq_bind, Option.bind_eq_some_iff] at hfetch
  obtain ⟨⟨bs1, rb1⟩, hfetch1, hrest⟩ := hfetch
  have hsub : (inUse bs1).Nodup := by
    split at hrest
    . cases hrest
      exact hnodup
    . obtain ⟨⟨bs2, rb2⟩, -, heq⟩ := Option.bind_eq_some_iff.mp hrest
      cases heq
      rw [inUse, List.flatMap_append] at hnodup
      exact hnodup.of_append_left
  obtain rfl := RdmaBuffer.buffers_of_fetchNodes hfetch1
  rw [nodup_inUse_iff] at hsub
  -- the first fetch is intact, so that the second one is for the synonym leaves
  obtain ⟨_, hspec, hnode1, hcur1, -⟩ := RdmaBuffer.fetchNodes_spec
    (RdmaBuffer.attempts_pos_of_fetchNodes hfetch1) (fun a ha => himage a (List.mem_append_left _ ha)) hsub rb
  rw [hfetch1] at hspec
  cases hspec
  have hmap1 : ((List.range (predicted ++ predicted.filterMap syn).length).map
      (bufferAt repl rb.leafBufferCur)).map (fun b => rb1.node E b.leaf)
      = (predicted ++ predicted.filterMap syn).map node := map_buffers_eq_iff.mpr hnode1
  rw [missingSynonyms_fetched syn hmap1] at hrest
  rw [rangeAddrs, List.length_append]
  split at hrest
  . next hempty =>
    rw [List.isEmpty_iff.mp hempty]
    exact hsub
  . obtain ⟨⟨bs2, rb2⟩, hfetch2, heq⟩ := Option.bind_eq_some_iff.mp hrest
    cases heq
    rwa [RdmaBuffer.buffers_of_fetchNodes hfetch2, range_buffers_append hcur1, nodup_inUse_iff] at hnodup

/--
A fetch, and the two fetches of a range query, give the leaves in buffers of their own exactly if
they are not more than the ring has place for.
-/
theorem leaf_buffers_intact_iff (repl : Bool) (E : Type) [EntryType E] (mem : NodeMemory)
    (node : GlobalAddress → Node E) (rb : RdmaBuffer)
    : (∀ leafAddrs : List GlobalAddress, (∀ a ∈ leafAddrs, (node a).IsImage repl (mem a)) →
        ((∃ attempts bs rb', rb.fetchNodes repl E mem leafAddrs attempts = some (bs, rb')
            ∧ (inUse bs).Nodup
            ∧ bs.map (fun b => rb'.node E b.leaf) = leafAddrs.map node)
          ↔ leafAddrs.length ≤ leafCapacity repl))
      ∧ (∀ (syn : GlobalAddress → Option GlobalAddress) (predicted : List GlobalAddress),
        (∀ a ∈ rangeAddrs syn node predicted, (node a).IsImage repl (mem a)) →
        ((∃ attempts leafAddrs bs rb', fetchRange repl E mem syn predicted attempts rb = some (leafAddrs, bs, rb')
            ∧ (inUse bs).Nodup
            ∧ bs.map (fun b => rb'.node E b.leaf) = leafAddrs.map node)
          ↔ (rangeAddrs syn node predicted).length ≤ leafCapacity repl)) := by
  constructor
  . intro leafAddrs himage
    constructor
    . rintro ⟨attempts, bs, rb', hfetch, hnodup, -⟩
      rwa [RdmaBuffer.buffers_of_fetchNodes hfetch, nodup_inUse_iff] at hnodup
    . intro hle
      obtain ⟨rb', hfetch, hnode, -⟩ := RdmaBuffer.fetchNodes_spec Nat.one_pos himage hle rb
      refine ⟨1, _, rb', hfetch, (nodup_inUse_iff repl _ _).mpr hle, ?_⟩
      exact map_buffers_eq_iff.mpr hnode
  . intro syn predicted himage
    constructor
    . rintro ⟨attempts, leafAddrs, bs, rb', hfetch, hnodup, -⟩
      exact length_le_of_fetchRange himage hfetch hnodup
    . intro hle
      obtain ⟨rb', hfetch, hmap⟩ := fetchRange_spec Nat.one_pos himage hle rb
      exact ⟨1, _, _, rb', hfetch, (nodup_inUse_iff repl _ _).mpr hle, hmap⟩

/-- Three leaves: the first one has the third one as its synonym leaf. -/
def threeLeaves (a : GlobalAddress) : Node LeafEntry :=
  .sampleNode (16 + a.offset.toNat) (if a = .of 0 0 then .of 0 2 else GlobalAddress.null)

/-- A range query of two leaves, where the synonym leaf is not cached. -/
theorem leaf_buffers_intact_iff_uncached
    : rangeAddrs (fun _ => none) (fun a => (threeLeaves a).bumpNodeVersions true) [.of 0 0, .of 0 1]
          = [.of 0 0, .of 0 1, .of 0 2]
        ∧ ∃ attempts leafAddrs bs rb', fetchRange true LeafEntry
            (fun a => (threeLeaves a).encode true (fun _ => 0) fun _ => 0) (fun _ => none) [.of 0 0, .of 0 1] attempts
            ⟨511, fun _ _ => 0⟩ = some (leafAddrs, bs, rb')
          ∧ (inUse bs).Nodup
          ∧ bs.map (fun b => rb'.node LeafEntry b.leaf)
            = leafAddrs.map fun a => (threeLeaves a).bumpNodeVersions true := by
  have haddrs : rangeAddrs (fun _ => none) (fun a => (threeLeaves a).bumpNodeVersions true) [.of 0 0, .of 0 1]
      = [.of 0 0, .of 0 1, .of 0 2] := by
    decide +kernel
  have h := (leaf_buffers_intact_iff true LeafEntry (fun a => (threeLeaves a).encode true (fun _ => 0) fun _ => 0)
    (fun a => (threeLeaves a).bumpNodeVersions true) ⟨511, fun _ _ => 0⟩).2 (fun _ => none) [.of 0 0, .of 0 1]
  refine ⟨haddrs, (h ?_).mpr ?_⟩
  . intro a _
    obtain ⟨buf, hbuf⟩ := (threeLeaves a).isEncoded_encode true (fun _ => 0) fun _ => 0
    exact ⟨buf, _, hbuf⟩
  . rw [haddrs]
    decide

end Range

section Wrap

variable {node : GlobalAddress → Node E} {rb : RdmaBuffer}

theorem RdmaBuffer.exists_image_readBatches {leaves : List (GlobalAddress × LeafBuffers)}
    (himage : ∀ p ∈ leaves, (node p.1).IsImage repl (mem p.1)) (rb : RdmaBuffer)
    : ∀ p ∈ leaves, ∃ n : Node E, n.IsImage repl ((rb.readBatches repl E mem leaves).leafBuffer p.2.raw) := by
  induction leaves generalizing rb with
  | nil => nofun
  | cons p leaves ih =>
    have ih' := ih (fun q hq => himage q (List.mem_cons_of_mem _ hq))
      (rb.put p.2.raw (memcpy (rb.leafBuffer p.2.raw) 0 (mem p.1) 0 (Node.transLeafSize repl E)))
    intro q hq
    rcases List.mem_cons.mp hq with rfl | hq
    . by_cases hagain : ∃ r ∈ leaves, q.2.raw = r.2.raw
      . obtain ⟨r, hr, heq⟩ := hagain
        have hr' := ih' r hr
        rw [← heq] at hr'
        exact hr'
      . have hframe := (readBatches_frame repl E mem (rb.put q.2.raw (memcpy (rb.leafBuffer q.2.raw) 0 (mem q.1) 0
          (Node.transLeafSize repl E))) leaves).2 q.2.raw fun r hr heq => hagain ⟨r, hr, heq⟩
        refine ⟨node q.1, ?_⟩
        rw [readBatches, hframe, put_self]
        apply (himage q List.mem_cons_self).congr
        intro y hy
        rw [memcpy, if_pos ⟨Nat.zero_le y, by omega⟩]
        congr 1
        omega
    . exact ih' q hq

theorem RdmaBuffer.exists_decodeLeaves {bs : List LeafBuffers}
    (hraw : ∀ b ∈ bs, ∀ c ∈ bs, c.raw ≠ b.leaf ∧ c.raw ≠ b.intermediate)
    (himage : ∀ b ∈ bs, ∃ n : Node E, n.IsImage false (rb.leafBuffer b.raw))
    : ∃ rb', rb.decodeLeaves false E bs = some (true, rb') := by
  induction bs generalizing rb with
  | nil => exact ⟨rb, rfl⟩
  | cons b bs ih =>
    obtain ⟨n, hn⟩ := himage b List.mem_cons_self
    obtain ⟨rb', hdec, -, -, hframe⟩ := decodeLeaf_spec hn nofun
    have himage' : ∀ c ∈ bs, ∃ n : Node E, n.IsImage false (rb'.leafBuffer c.raw) := by
      intro c hc
      obtain ⟨hleaf, hintermediate⟩ := hraw b List.mem_cons_self c (List.mem_cons_of_mem _ hc)
      rw [hframe _ hleaf hintermediate]
      exact himage c (List.mem_cons_of_mem _ hc)
    obtain ⟨rb'', hdec'⟩ := ih
      (fun c hc d hd => hraw c (List.mem_cons_of_mem _ hc) d (List.mem_cons_of_mem _ hd)) himage'
    refine ⟨rb'', ?_⟩
    rw [decodeLeaves, hdec]
    exact hdec'

theorem RdmaBuffer.exists_fetchNodes (himage : ∀ a ∈ leafAddrs, (node a).IsImage false (mem a)) (rb : RdmaBuffer)
    : ∃ rb', rb.fetchNodes false E mem leafAddrs 1
        = some ((List.range leafAddrs.length).map (bufferAt false rb.leafBufferCur), rb') := by
  obtain ⟨hbufs, -, -⟩ := getBuffers_spec false leafAddrs.length rb
  generalize hleaves : leafAddrs.zip ((List.range leafAddrs.length).map (bufferAt false rb.leafBufferCur)) = leaves
  have himage' : ∀ p ∈ leaves, (node p.1).IsImage false (mem p.1) := by
    intro p hp
    rw [← hleaves] at hp
    exact himage p.1 (List.of_mem_zip hp).1
  have hread := exists_image_readBatches himage'
    ((getBuffers false leafAddrs.length rb).2.clearRaw (leaves.map Prod.snd))
  have hdone : ∃ rb', decodeLeaves false E (((getBuffers false leafAddrs.length rb).2.clearRaw
      (leaves.map Prod.snd)).readBatches false E mem leaves) (leaves.map Prod.snd) = some (true, rb') := by
    apply exists_decodeLeaves
    . intro b hb c hc
      obtain ⟨p, hp, rfl⟩ := List.mem_map.mp hb
      obtain ⟨q, hq, rfl⟩ := List.mem_map.mp hc
      rw [← hleaves] at hp hq
      obtain ⟨i, -, rfl⟩ := mem_zip_buffers hp
      obtain ⟨j, -, rfl⟩ := mem_zip_buffers hq
      simp only [bufferAt]
      omega
    . intro b hb
      obtain ⟨p, hp, rfl⟩ := List.mem_map.mp hb
      exact hread p hp
  obtain ⟨rb', hdec⟩ := hdone
  refine ⟨rb', ?_⟩
  rw [fetchNodes]
  dsimp only
  rw [hbufs, hleaves, fetchNodes.reFetch]
  dsimp only
  rw [hdec]
  rfl

/-- Of 257 leaves the last one is read into the buffers of the first one. -/
theorem wrapped_buffers_mix_leaves
    : ∃ (mem : NodeMemory) (node : GlobalAddress → Node LeafEntry) (leafAddrs : List GlobalAddress)
        (bs : List LeafBuffers) (rb : RdmaBuffer),
        leafAddrs.length = 257
          ∧ (∀ a ∈ leafAddrs, (node a).IsImage false (mem a))
          ∧ RdmaBuffer.fetchNodes false LeafEntry mem leafAddrs 1 ⟨0, fun _ _ => 0⟩ = some (bs, rb)
          ∧ ¬(inUse bs).Nodup
          ∧ bs.map (fun b => rb.node LeafEntry b.leaf) ≠ leafAddrs.map node := by
  generalize hother : Node.sampleNode 1 GlobalAddress.max = other
  generalize hmem : (fun a : GlobalAddress =>
    (if a = .of 0 0 then other else .sampleNode 1 GlobalAddress.null).encode false (fun _ => 0) fun _ => 0) = mem
  generalize hnode : (fun a : GlobalAddress =>
    (if a = .of 0 0 then other else .sampleNode 1 GlobalAddress.null).bumpNodeVersions false) = node
  generalize haddrs : (List.range 257).map (fun i => GlobalAddress.of 0 i) = leafAddrs
  have hlen : leafAddrs.length = 257 := by
    rw [← haddrs, List.length_map, List.length_range]
  have himage : ∀ a ∈ leafAddrs, (node a).IsImage false (mem a) := by
    intro a _
    rw [← hnode, ← hmem]
    obtain ⟨buf, hbuf⟩ := Node.isEncoded_encode (if a = .of 0 0 then other else .sampleNode 1 GlobalAddress.null) false
      (fun _ => 0) fun _ => 0
    exact ⟨buf, _, hbuf⟩
  obtain ⟨rb, hfetch⟩ := RdmaBuffer.exists_fetchNodes himage ⟨0, fun _ _ => 0⟩
  refine ⟨mem, node, leafAddrs, _, rb, hlen, himage, hfetch, ?_, ?_⟩
  . rw [nodup_inUse_iff, hlen]
    decide
  . intro heq
    have hall := map_buffers_eq_iff.mp heq
    have hfirst := hall 0 (by omega)
    have hlast := hall 256 (by omega)
    have hsame : node leafAddrs[0] = node leafAddrs[256] := hfirst.symm.trans hlast
    have hptr := congrArg (fun n => n.metadata.synonymPtr) hsame
    subst haddrs hnode hother
    simp only [List.getElem_map, List.getElem_range] at hptr
    exact absurd hptr (by decide)

end Wrap

end Contents

end Rolex

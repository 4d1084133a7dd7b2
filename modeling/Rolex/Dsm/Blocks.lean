import Rolex.Dsm.Cluster

/-!
This module contains what the allocators of a directory and of a thread do: which bytes they own, and
which of them they give away.
-/

namespace Rolex

open Owner

theorem roundUp_bounds {x y k : Nat} (hk : k = cachelineAlignBit ∨ k = packedAddrAlignBit)
    (hy : y % 256 = 0) (h : x ≤ y)
    : x ≤ roundUp x k ∧ roundUp x k ≤ y := by
  rcases hk with rfl | rfl
  . simp only [roundUp, cachelineAlignBit]
    omega
  . simp only [roundUp, packedAddrAlignBit]
    omega

/-- The block lies in one of the chunks that memory node `nodeID` has handed out. -/
structure InChunk (chunks : DirId → List GlobalAddress) (nodeID : Nat) (blk : Block) : Prop where
  pos : 1 ≤ blk.2
  chunk : ∃ d chunk, d.Valid ∧ d.nodeID = nodeID ∧ chunk ∈ chunks d ∧ blk.1.nodeID = chunk.nodeID
    ∧ chunk.offset.toNat ≤ blk.1.offset.toNat
    ∧ blk.1.offset.toNat + blk.2 ≤ chunk.offset.toNat + kChunkSize

theorem InChunk.mono {chunks chunks' : DirId → List GlobalAddress} {nodeID : Nat} {blk : Block}
    (h : InChunk chunks nodeID blk) (hle : ∀ d, chunks d ⊆ chunks' d)
    : InChunk chunks' nodeID blk := by
  obtain ⟨hpos, d, chunk, hd, hnode, hmem, hrest⟩ := h
  exact ⟨hpos, d, chunk, hd, hnode, hle d hmem, hrest⟩

structure DirInv (b : LeafBuild) (d : DirId) (g : GlobalAllocator) (chunks : List GlobalAddress) : Prop where
  start : g.start = b.chunk d 0
  len : g.bitmapLen = b.perDirectoryDsmSize / kChunkSize
  pos : 1 ≤ g.bitmapTail
  le : g.bitmapTail ≤ g.bitmapLen
  clear : ∀ c, g.bitmapTail ≤ c → g.bitmap c = false
  handed : ∀ a ∈ chunks, ∃ c, 1 ≤ c ∧ c < g.bitmapTail ∧ a = b.chunk d c
  nodup : chunks.Nodup

theorem DirInv.eq_of_mem {b : LeafBuild} {d d' : DirId} {g g' : GlobalAllocator}
    {chunks chunks' : List GlobalAddress} {x : BitVec 16 × Nat}
    (h : DirInv b d g chunks) (hd : d.Valid) (h' : DirInv b d' g' chunks') (hd' : d'.Valid)
    (hx : x.1 = g.start.nodeID ∧ g.start.offset.toNat + g.bitmapTail * kChunkSize ≤ x.2
      ∧ x.2 < g.start.offset.toNat + g.bitmapLen * kChunkSize)
    (hx' : x.1 = g'.start.nodeID ∧ g'.start.offset.toNat + g'.bitmapTail * kChunkSize ≤ x.2
      ∧ x.2 < g'.start.offset.toNat + g'.bitmapLen * kChunkSize)
    : d = d' := by
  obtain ⟨hnode, hlo, hhi⟩ := hx
  obtain ⟨hnode', hlo', hhi'⟩ := hx'
  rw [h.start, LeafBuild.toNat_chunk hd (Nat.zero_le _), ← LeafBuild.chunkOffset_eq] at hlo hhi
  rw [h'.start, LeafBuild.toNat_chunk hd' (Nat.zero_le _), ← LeafBuild.chunkOffset_eq] at hlo' hhi'
  have hnodes : d.nodeID = d'.nodeID := by
    rw [← LeafBuild.toNat_nodeID (b := b) (c := 0) hd, ← LeafBuild.toNat_nodeID (b := b) (c := 0) hd',
      ← h.start, ← h'.start, ← hnode, hnode']
  have hend := LeafBuild.chunkOffset_le (b := b) (d := d) h.len.le
  have hend' := LeafBuild.chunkOffset_le (b := b) (d := d') h'.len.le
  have hdirs : d.dirID = d'.dirID := by
    rcases Nat.lt_trichotomy d.dirID d'.dirID with hlt | heq | hgt
    . have hmul := Nat.mul_le_mul_left b.perDirectoryDsmSize (show d.dirID + 1 ≤ d'.dirID from hlt)
      unfold LeafBuild.chunkOffset at *
      omega
    . exact heq
    . have hmul := Nat.mul_le_mul_left b.perDirectoryDsmSize (show d'.dirID + 1 ≤ d.dirID from hgt)
      unfold LeafBuild.chunkOffset at *
      omega
  rcases d with ⟨n, i⟩
  rcases d' with ⟨n', i'⟩
  simp only at hnodes hdirs
  rw [hnodes, hdirs]

theorem LeafBuild.directory_inv (b : LeafBuild) (d : DirId) : DirInv b d (b.directory d) [] where
  start := by
    unfold directory GlobalAllocator.new LeafBuild.chunk LeafBuild.chunkOffset
    rw [Nat.zero_mul, Nat.add_zero]
  len := rfl
  pos := Nat.le_refl _
  le := by
    change 1 ≤ b.perDirectoryDsmSize / kChunkSize
    rcases b with ⟨_ | _, _ | _⟩ <;> decide
  clear := by
    intro c hc
    have hc' : 1 ≤ c := hc
    simp only [directory, GlobalAllocator.new, decide_eq_false_iff_not]
    omega
  handed := by simp
  nodup := List.nodup_nil

structure ChunkInv (chunk : GlobalAddress) : Prop where
  aligned : chunk.offset.toNat % 256 = 0
  pos : 0 < chunk.offset.toNat
  bound : chunk.offset.toNat + kChunkSize < 2 ^ 48

theorem DirInv.chunkInv {b : LeafBuild} {d : DirId} {g : GlobalAllocator} {chunks : List GlobalAddress}
    (h : DirInv b d g chunks) (hd : d.Valid) {chunk : GlobalAddress} (hchunk : chunk ∈ chunks)
    : ChunkInv chunk := by
  obtain ⟨c, hc1, hct, rfl⟩ := h.handed chunk hchunk
  have hle := h.le
  rw [h.len] at hle
  have hoff := LeafBuild.toNat_chunk (b := b) hd (show c ≤ _ by omega)
  have hdsm := LeafBuild.chunkOffset_le_dsmSize (b := b) hd (show c + 1 ≤ _ by omega)
  have hsyn := b.synRegionOffset_spec.2.1
  have hlt : dsmSize < 2 ^ 48 := by decide
  rw [LeafBuild.chunkOffset_succ] at hdsm
  refine ⟨?_, ?_, ?_⟩
  . rw [hoff]
    exact LeafBuild.chunkOffset_aligned hd
  . rw [hoff, LeafBuild.chunkOffset]
    omega
  . rw [hoff]
    omega

theorem DirInv.allocChunck {b : LeafBuild} {d : DirId} {g g' : GlobalAllocator}
    {chunks : List GlobalAddress} {chunk : GlobalAddress}
    (h : DirInv b d g chunks) (hd : d.Valid) (hres : g.allocChunck = some (chunk, g'))
    : chunk = b.chunk d g.bitmapTail ∧ g'.start = g.start ∧ g'.bitmapLen = g.bitmapLen
        ∧ g'.bitmapTail = g.bitmapTail + 1 ∧ g.bitmapTail < g.bitmapLen
        ∧ DirInv b d g' (chunk :: chunks) := by
  have hlen := h.len
  unfold GlobalAllocator.allocChunck at hres
  split at hres
  . cases hres
  . next htail =>
    rw [if_pos (h.clear _ (Nat.le_refl _))] at hres
    simp only [Option.some.injEq, Prod.mk.injEq] at hres
    obtain ⟨hchunk, rfl⟩ := hres
    have hoff : (b.chunk d 0).offset.toNat = b.chunkOffset d 0 := LeafBuild.toNat_chunk hd (Nat.zero_le _)
    have heq : chunk = b.chunk d g.bitmapTail := by
      rw [← hchunk, h.start, hoff, ← LeafBuild.chunkOffset_eq]
      rfl
    have hlt : g.bitmapTail < g.bitmapLen := by omega
    refine ⟨heq, rfl, rfl, rfl, hlt, h.start, h.len, Nat.le_add_left _ _, hlt, ?_, ?_, ?_⟩
    . intro c hc
      dsimp only at hc ⊢
      rw [Function.update_of_ne (by omega)]
      exact h.clear c (by omega)
    . intro a ha
      rcases List.mem_cons.mp ha with rfl | ha
      . exact ⟨g.bitmapTail, h.pos, Nat.lt_succ_self _, heq⟩
      . obtain ⟨c, hc1, hct, rfl⟩ := h.handed a ha
        exact ⟨c, hc1, Nat.lt_succ_of_lt hct, rfl⟩
    . apply List.nodup_cons.mpr
      refine ⟨?_, h.nodup⟩
      intro hmem
      obtain ⟨c, -, hct, hc⟩ := h.handed chunk hmem
      have hpos : 0 < kChunkSize := by decide
      have h1 := LeafBuild.toNat_chunk (b := b) hd (show c ≤ _ by omega)
      have h2 := LeafBuild.toNat_chunk (b := b) hd (show g.bitmapTail ≤ _ by omega)
      have h3 : b.chunkOffset d c + kChunkSize ≤ b.chunkOffset d g.bitmapTail :=
        LeafBuild.chunkOffset_add_le (by omega) (.inr ⟨rfl, hct⟩)
      rw [← hc, heq, h2] at h1
      omega

namespace LocalAllocator

/-- What an allocator owns: freed blocks, and the rest of its chunk. -/
inductive Part where
  | freed (blk : Block)
  | rest

def bytes (a : LocalAllocator) : Part → Set (BitVec 16 × Nat)
  | .freed blk => {x | blk ∈ a.freeList ∧ x ∈ region blk.1 blk.2}
  | .rest => {x | a.head ≠ GlobalAddress.null ∧ x.1 = a.cur.nodeID ∧ a.cur.offset.toNat ≤ x.2
      ∧ x.2 < a.head.offset.toNat + kChunkSize}

structure Inv (chunks : DirId → List GlobalAddress) (d : DirId) (a : LocalAllocator) : Prop where
  head : a.head ≠ GlobalAddress.null → d.Valid ∧ a.head ∈ chunks d ∧ a.cur.nodeID = a.head.nodeID
    ∧ a.head.offset.toNat ≤ a.cur.offset.toNat
    ∧ a.cur.offset.toNat ≤ a.head.offset.toNat + kChunkSize
  nodup : a.freeList.Nodup
  freed : ∀ blk ∈ a.freeList, InChunk chunks d.nodeID blk

/-- What `malloc` leaves behind and, unless it needs a chunk, what it gives away. -/
structure MallocSpec (chunks : DirId → List GlobalAddress) (d : DirId) (a : LocalAllocator) (size : Nat)
    (addr : GlobalAddress) (needChunk : Bool) (a' : LocalAllocator) : Prop where
  inv : Inv chunks d a'
  le : ∀ o, a'.bytes o ⊆ a.bytes o
  gives : needChunk = false → InChunk chunks d.nodeID (addr, size)
    ∧ ∃ o, region addr size ⊆ a.bytes o ∧ Disjoint (a'.bytes o) (region addr size)

variable {chunks : DirId → List GlobalAddress} {d : DirId} {a : LocalAllocator} {size alignBit : Nat}

def roundCur (a : LocalAllocator) (alignBit : Nat) : LocalAllocator :=
  { a with cur := { a.cur with offset := BitVec.ofNat 48 (roundUp a.cur.offset.toNat alignBit) } }

theorem malloc_eq (hsize : size ≤ kChunkSize)
    (halign : alignBit = cachelineAlignBit ∨ alignBit = packedAddrAlignBit)
    : a.malloc size alignBit
        = if a.head = GlobalAddress.null
              ∨ (a.roundCur alignBit).cur.offset.toNat + size > a.head.offset.toNat + kChunkSize then
            match a.freeList.find? (fun e => e.2 ≥ size) with
            | some e => (e.1, false, { a.roundCur alignBit with freeList := a.freeList.erase e })
            | none => ((a.roundCur alignBit).cur, true, a.roundCur alignBit)
          else
            ((a.roundCur alignBit).cur, false, { a.roundCur alignBit with
              cur := { a.cur with
                offset := BitVec.ofNat 48 ((a.roundCur alignBit).cur.offset.toNat + size) } }) := by
  have hne : alignBit ≠ 0 := by
    rcases halign with rfl | rfl <;> decide
  have hsum : ((a.roundCur alignBit).cur.offset.toNat + size) % 2 ^ 64
      = (a.roundCur alignBit).cur.offset.toNat + size := by
    have hlt := (a.roundCur alignBit).cur.offset.isLt
    have hchunk : kChunkSize = 16777216 := rfl
    exact Nat.mod_eq_of_lt (by omega)
  unfold malloc
  rw [if_pos hne]
  change (if a.head = GlobalAddress.null ∨ ((a.roundCur alignBit).cur.offset.toNat + size) % 2 ^ 64
    > a.head.offset.toNat + kChunkSize then _ else _) = _
  rw [hsum]
  rfl

theorem roundCur_toNat (h : a.Inv chunks d) (hchunk : ∀ chunk ∈ chunks d, ChunkInv chunk)
    (halign : alignBit = cachelineAlignBit ∨ alignBit = packedAddrAlignBit)
    (hne : a.head ≠ GlobalAddress.null)
    : a.cur.offset.toNat ≤ (a.roundCur alignBit).cur.offset.toNat
        ∧ (a.roundCur alignBit).cur.offset.toNat ≤ a.head.offset.toNat + kChunkSize := by
  obtain ⟨-, hmem, -, -, hhi⟩ := h.head hne
  obtain ⟨haligned, -, hbound⟩ := hchunk _ hmem
  have hchunkSize : kChunkSize = 16777216 := rfl
  have hround := roundUp_bounds halign (show (a.head.offset.toNat + kChunkSize) % 256 = 0 by omega) hhi
  have hoff : (a.roundCur alignBit).cur.offset.toNat = roundUp a.cur.offset.toNat alignBit := by
    simp only [roundCur, BitVec.toNat_ofNat]
    apply Nat.mod_eq_of_lt
    omega
  rw [hoff]
  exact hround

theorem roundCur_inv (h : a.Inv chunks d) (hchunk : ∀ chunk ∈ chunks d, ChunkInv chunk)
    (halign : alignBit = cachelineAlignBit ∨ alignBit = packedAddrAlignBit)
    : (a.roundCur alignBit).Inv chunks d ∧ ∀ o, (a.roundCur alignBit).bytes o ⊆ a.bytes o := by
  refine ⟨⟨?_, h.nodup, h.freed⟩, ?_⟩
  . intro hne
    obtain ⟨hd, hmem, hnode, hlo, -⟩ := h.head hne
    obtain ⟨hle, hhi⟩ := roundCur_toNat h hchunk halign hne
    exact ⟨hd, hmem, hnode, hlo.trans hle, hhi⟩
  . intro o
    cases o with
    | freed blk => exact fun x hx => hx
    | rest =>
      rintro x ⟨hne, hnode, hlo, hhi⟩
      have := (roundCur_toNat h hchunk halign hne).1
      exact ⟨hne, hnode, by omega, hhi⟩

theorem malloc_spec (h : a.Inv chunks d) (hchunk : ∀ chunk ∈ chunks d, ChunkInv chunk) (hpos : 1 ≤ size)
    (hsize : size ≤ kChunkSize)
    (halign : alignBit = cachelineAlignBit ∨ alignBit = packedAddrAlignBit)
    {addr : GlobalAddress} {needChunk : Bool} {a' : LocalAllocator}
    (hres : a.malloc size alignBit = (addr, needChunk, a'))
    : MallocSpec chunks d a size addr needChunk a' := by
  obtain ⟨hinv, hle⟩ := roundCur_inv h hchunk halign
  rw [malloc_eq hsize halign] at hres
  split at hres
  . split at hres
    . next e hfind =>
      -- the first block of the free list that is large enough
      have hmem := List.mem_of_find?_eq_some hfind
      have hfit : size ≤ e.2 := by simpa using List.find?_some hfind
      simp only [Prod.mk.injEq] at hres
      obtain ⟨rfl, rfl, rfl⟩ := hres
      have hsub : ∀ blk ∈ a.freeList.erase e, blk ∈ a.freeList := fun blk => List.mem_of_mem_erase
      refine ⟨⟨hinv.head, h.nodup.erase e, fun blk hblk => h.freed blk (hsub blk hblk)⟩, ?_, ?_⟩
      . intro o
        cases o with
        | freed blk => exact fun x hx => ⟨hsub blk hx.1, hx.2⟩
        | rest => exact hle .rest
      . intro _
        obtain ⟨-, d', chunk, hd', hnode, hin, hid, hlo, hhi⟩ := h.freed e hmem
        refine ⟨⟨hpos, d', chunk, hd', hnode, hin, hid, hlo, by dsimp only; omega⟩, .freed e, ?_, ?_⟩
        . intro x hx
          exact ⟨hmem, region_subset rfl (Nat.le_refl _) (by omega) hx⟩
        . apply Set.disjoint_left.mpr
          rintro x ⟨hin, -⟩ -
          exact absurd hin h.nodup.not_mem_erase
    . simp only [Prod.mk.injEq] at hres
      obtain ⟨-, rfl, rfl⟩ := hres
      exact ⟨hinv, hle, fun hfalse => absurd hfalse (by decide)⟩
  . next hfit =>
    -- the next bytes of the chunk
    rw [not_or, not_lt] at hfit
    obtain ⟨hne, hfit⟩ := hfit
    simp only [Prod.mk.injEq] at hres
    obtain ⟨rfl, rfl, rfl⟩ := hres
    obtain ⟨hd, hmem, hnode, hlo, -⟩ := h.head hne
    have hcur := (roundCur_toNat h hchunk halign hne).1
    have hbound := (hchunk _ hmem).bound
    have hoff : (BitVec.ofNat 48 ((a.roundCur alignBit).cur.offset.toNat + size)).toNat
        = (a.roundCur alignBit).cur.offset.toNat + size := by
      rw [BitVec.toNat_ofNat]
      apply Nat.mod_eq_of_lt
      omega
    refine ⟨⟨fun _ => ⟨hd, hmem, hnode, ?_, ?_⟩, h.nodup, h.freed⟩, ?_, fun _ => ⟨⟨hpos, d, a.head, hd,
      rfl, hmem, hnode, ?_, ?_⟩, .rest, ?_, ?_⟩⟩
    . dsimp only
      rw [hoff]
      exact hlo.trans (by omega)
    . dsimp only
      rw [hoff]
      exact hfit
    . intro o
      cases o with
      | freed blk => exact fun x hx => hx
      | rest =>
        rintro x ⟨-, hx, hx1, hx2⟩
        dsimp only at hx1
        rw [hoff] at hx1
        exact ⟨hne, hx, by omega, hx2⟩
    . exact hlo.trans hcur
    . exact hfit
    . rintro x ⟨hx, hx1, hx2⟩
      exact ⟨hne, hx, hcur.trans hx1, by omega⟩
    . apply Set.disjoint_left.mpr
      rintro x ⟨-, -, hx1, -⟩ ⟨-, -, hx2⟩
      dsimp only at hx1
      rw [hoff] at hx1
      omega

theorem needChunk_setChunck {chunk : GlobalAddress} (hchunk : ChunkInv chunk) (hsize : size ≤ kChunkSize)
    (halign : alignBit = cachelineAlignBit ∨ alignBit = packedAddrAlignBit)
    : ((a.setChunck chunk).malloc size alignBit).2.1 = false := by
  have hne : chunk ≠ GlobalAddress.null := by
    rintro rfl
    exact absurd hchunk.pos (by decide)
  have hround := roundUp_bounds halign hchunk.aligned (Nat.le_refl chunk.offset.toNat)
  have hbound := hchunk.bound
  have hoff : ((a.setChunck chunk).roundCur alignBit).cur.offset.toNat = chunk.offset.toNat := by
    simp only [roundCur, setChunck, BitVec.toNat_ofNat]
    rw [Nat.mod_eq_of_lt (by omega)]
    omega
  rw [malloc_eq hsize halign, if_neg]
  rw [hoff]
  simp only [setChunck, hne, false_or]
  omega

theorem Inv.mono {chunks' : DirId → List GlobalAddress} (h : a.Inv chunks d)
    (hle : ∀ d, chunks d ⊆ chunks' d)
    : a.Inv chunks' d where
  head := by
    intro hne
    obtain ⟨hd, hmem, hrest⟩ := h.head hne
    exact ⟨hd, hle d hmem, hrest⟩
  nodup := h.nodup
  freed := fun blk hblk => (h.freed blk hblk).mono hle

end LocalAllocator

/-- The arguments of an `alloc` that is under way, and the chunk it was given. -/
def AllocCall.Legal (chunks : DirId → List GlobalAddress) (d : DirId) : AllocCall → Prop
  | .idle => True
  | .waiting size alignBit =>
    1 ≤ size ∧ size ≤ kChunkSize ∧ (alignBit = cachelineAlignBit ∨ alignBit = packedAddrAlignBit)
  | .answered size alignBit chunk =>
    1 ≤ size ∧ size ≤ kChunkSize ∧ (alignBit = cachelineAlignBit ∨ alignBit = packedAddrAlignBit)
      ∧ chunk ∈ chunks d

namespace Thread

inductive Part where
  | allocator (d : DirId) (o : LocalAllocator.Part)
  | answer

def bytes (th : Thread) : Part → Set (BitVec 16 × Nat)
  | .allocator d o => (th.localAllocators d).bytes o
  | .answer => {x | ∃ size alignBit chunk, th.call = .answered size alignBit chunk
      ∧ x ∈ region chunk kChunkSize}

structure Inv (chunks : DirId → List GlobalAddress) (th : Thread) : Prop where
  target : th.target.Valid
  allocator : ∀ d, (th.localAllocators d).Inv chunks d
  call : th.call.Legal chunks th.target

variable {chunks chunks' : DirId → List GlobalAddress} {th : Thread}

theorem Inv.mono (h : th.Inv chunks) (hle : ∀ d, chunks d ⊆ chunks' d) : th.Inv chunks' where
  target := h.target
  allocator := fun d => (h.allocator d).mono hle
  call := by
    have hcall := h.call
    cases hth : th.call with
    | idle => trivial
    | waiting size alignBit => rwa [hth] at hcall
    | answered size alignBit chunk =>
      rw [hth] at hcall
      exact ⟨hcall.1, hcall.2.1, hcall.2.2.1, hle _ hcall.2.2.2⟩

theorem Inv.setAllocator (h : th.Inv chunks) {d : DirId} {a : LocalAllocator} (ha : a.Inv chunks d)
    : ∀ d', ((th.setAllocator d a).localAllocators d').Inv chunks d' := by
  intro d'
  by_cases hd : d' = d
  . subst hd
    simpa [Thread.setAllocator] using ha
  . simpa [Thread.setAllocator, hd] using h.allocator d'

theorem bytes_setAllocator {d : DirId} {a : LocalAllocator}
    (hle : ∀ o, a.bytes o ⊆ (th.localAllocators d).bytes o) (d' : DirId) (o : LocalAllocator.Part)
    : ((th.setAllocator d a).localAllocators d').bytes o ⊆ (th.localAllocators d').bytes o := by
  by_cases hd : d' = d
  . subst hd
    simpa [Thread.setAllocator] using hle o
  . simp [Thread.setAllocator, hd]

theorem nextTarget_valid (h : th.Inv chunks) {targetNode : Int} (hnode : targetNode < memoryNodeNum)
    : (th.nextTarget targetNode).Valid := by
  have hnum : memoryNodeNum = 1 := rfl
  have hdir : nrDirectory = 1 := rfl
  obtain ⟨hn, hd⟩ := h.target
  unfold nextTarget
  split
  . refine ⟨?_, by dsimp only; omega⟩
    dsimp only
    split
    . exact Nat.mod_lt _ (by omega)
    . omega
  . exact ⟨hn, by dsimp only; omega⟩

end Thread

end Rolex

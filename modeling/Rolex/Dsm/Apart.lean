import Rolex.Dsm.Blocks

/-!
This module contains the invariant of all allocators: every byte that the directories manage has at most
one owner, a directory, a thread or a block in use.
-/

namespace Rolex

open Owner

namespace Cluster

variable {ι : Type} [DecidableEq ι]

inductive Part (ι : Type) where
  | live (blk : Block)
  | thread (t : ι) (o : Thread.Part)
  | directory (d : DirId)

def bytes (s : Cluster ι) : Part ι → Set (BitVec 16 × Nat)
  | .live blk => {x | blk ∈ s.live ∧ x ∈ region blk.1 blk.2}
  | .thread t o => (s.thread t).bytes o
  | .directory d => {x | d.Valid ∧ x.1 = (s.chunckAlloc d).start.nodeID
      ∧ (s.chunckAlloc d).start.offset.toNat + (s.chunckAlloc d).bitmapTail * kChunkSize ≤ x.2
      ∧ x.2 < (s.chunckAlloc d).start.offset.toNat + (s.chunckAlloc d).bitmapLen * kChunkSize}

structure Inv (b : LeafBuild) (s : Cluster ι) : Prop where
  apart : Apart s.bytes
  directory : ∀ d, d.Valid → DirInv b d (s.chunckAlloc d) (s.chunks d)
  thread : ∀ t, (s.thread t).Inv s.chunks
  returned : ∀ d blk, (d, blk) ∈ s.returned → InChunk s.chunks d.nodeID blk
  live : ∀ blk ∈ s.live, ∃ d, (d, blk) ∈ s.returned
  nodup : s.live.Nodup

variable {b : LeafBuild} {s : Cluster ι} {t : ι} {d : DirId}

theorem start_mem_region {blk : Block} (h : 1 ≤ blk.2)
    : (blk.1.nodeID, blk.1.offset.toNat) ∈ region blk.1 blk.2 :=
  ⟨rfl, Nat.le_refl _, by dsimp only; omega⟩

theorem Inv.give (h : s.Inv b) (hd : d.Valid) {size : Nat} {addr : GlobalAddress} {a : LocalAllocator}
    (hspec : ((s.thread t).localAllocators d).MallocSpec s.chunks d size addr false a)
    : (s.give t d a (addr, size)).Inv b := by
  obtain ⟨hin, o, hsub, hdisj⟩ := hspec.gives rfl
  have hfresh : (addr, size) ∉ s.live := by
    intro hmem
    have hx := start_mem_region hin.pos
    have hapart := h.apart (.live (addr, size)) (.thread t (.allocator d o)) (by simp)
    exact Set.disjoint_left.mp hapart ⟨hmem, hx⟩ (hsub hx)
  refine ⟨?_, h.directory, ?_, ?_, ?_, ?_⟩
  . apply h.apart.move (a := .thread t (.allocator d o)) (b := .live (addr, size)) hsub
    . simpa [bytes, Thread.bytes, Cluster.give, Cluster.setThread, Thread.setAllocator] using hdisj
    . rintro x ⟨-, hx⟩
      exact .inr hx
    . intro o' hne
      cases o' with
      | live blk =>
        rintro x ⟨hmem, hx⟩
        refine ⟨?_, hx⟩
        rcases List.mem_cons.mp hmem with rfl | hmem
        . exact absurd rfl hne
        . exact hmem
      | thread t' o' =>
        by_cases ht : t' = t
        . subst ht
          cases o' with
          | allocator d' o' =>
            have := Thread.bytes_setAllocator hspec.le d' o'
            simpa [bytes, Thread.bytes, Cluster.give, Cluster.setThread] using this
          | answer =>
            rintro x ⟨_, _, _, hcall, -⟩
            simp [Cluster.give, Cluster.setThread] at hcall
        . intro x hx
          simpa [bytes, Cluster.give, Cluster.setThread, ht] using hx
      | directory d' => exact fun x hx => hx
  . intro t'
    by_cases ht : t' = t
    . subst ht
      simp only [Cluster.give, Cluster.setThread, Function.update_self]
      exact ⟨hd, (h.thread t').setAllocator hspec.inv, trivial⟩
    . simpa [Cluster.give, Cluster.setThread, ht] using h.thread t'
  . intro d' blk hmem
    rcases List.mem_cons.mp hmem with heq | hmem
    . cases heq
      exact hin
    . exact h.returned d' blk hmem
  . intro blk hmem
    rcases List.mem_cons.mp hmem with rfl | hmem
    . exact ⟨d, List.mem_cons_self⟩
    . obtain ⟨d', hd'⟩ := h.live blk hmem
      exact ⟨d', List.mem_cons_of_mem _ hd'⟩
  . exact List.nodup_cons.mpr ⟨hfresh, h.nodup⟩

theorem Inv.setThread (h : s.Inv b) {th : Thread} (hth : th.Inv s.chunks)
    (hle : ∀ o, th.bytes o ⊆ (s.thread t).bytes o)
    : (s.setThread t th).Inv b := by
  refine ⟨?_, h.directory, ?_, h.returned, h.live, h.nodup⟩
  . apply h.apart.mono
    intro o
    cases o with
    | live blk => exact fun x hx => hx
    | thread t' o' =>
      by_cases ht : t' = t
      . subst ht
        simpa [bytes, Cluster.setThread] using hle o'
      . intro x hx
        simpa [bytes, Cluster.setThread, ht] using hx
    | directory d' => exact fun x hx => hx
  . intro t'
    by_cases ht : t' = t
    . subst ht
      simpa [Cluster.setThread] using hth
    . simpa [Cluster.setThread, ht] using h.thread t'

omit [DecidableEq ι] in
theorem Inv.chunkInv (h : s.Inv b) (hd : d.Valid) : ∀ chunk ∈ s.chunks d, ChunkInv chunk :=
  fun _ hchunk => (h.directory d hd).chunkInv hd hchunk

theorem Inv.alloc (h : s.Inv b) {size alignBit : Nat} {targetNode : Int} {s' : Cluster ι}
    (hpos : 1 ≤ size) (hsize : size ≤ kChunkSize)
    (halign : alignBit = cachelineAlignBit ∨ alignBit = packedAddrAlignBit)
    (hnode : targetNode < memoryNodeNum) (hs' : s.alloc t size alignBit targetNode = some s')
    : s'.Inv b := by
  have hd := Thread.nextTarget_valid (h.thread t) hnode
  unfold Cluster.alloc at hs'
  cases hcall : (s.thread t).call with
  | idle =>
    simp only [hcall] at hs'
    generalize (s.thread t).nextTarget targetNode = d at hd hs'
    generalize hm : ((s.thread t).localAllocators d).malloc size alignBit = res at hs'
    obtain ⟨addr, needChunk, a⟩ := res
    have hspec := LocalAllocator.malloc_spec ((h.thread t).allocator d) (h.chunkInv hd) hpos hsize halign hm
    cases needChunk with
    | true =>
      obtain rfl := Option.some.inj hs'
      apply h.setThread
      . exact ⟨hd, (h.thread t).setAllocator hspec.inv, hpos, hsize, halign⟩
      . intro o
        cases o with
        | allocator d' o' => exact Thread.bytes_setAllocator hspec.le d' o'
        | answer =>
          rintro x ⟨_, _, _, hanswer, -⟩
          cases hanswer
    | false =>
      obtain rfl := Option.some.inj hs'
      exact h.give hd hspec
  | waiting size' alignBit' => simp [hcall] at hs'
  | answered size' alignBit' chunk => simp [hcall] at hs'

theorem Inv.processMessage (h : s.Inv b) {s' : Cluster ι} (hs' : s.processMessage t = some s')
    : s'.Inv b := by
  have hth := h.thread t
  have hlegal := hth.call
  unfold Cluster.processMessage at hs'
  cases hcall : (s.thread t).call with
  | idle => simp [hcall] at hs'
  | answered size' alignBit' chunk => simp [hcall] at hs'
  | waiting size alignBit =>
    rw [hcall] at hlegal
    simp only [hcall] at hs'
    have hd := hth.target
    generalize hdef : (s.thread t).target = d at hd hs'
    split at hs'
    . cases hs'
    . next chunk g hg =>
      have hdir := h.directory d hd
      obtain ⟨heq, hstart, hlen, htail, hlt, hdir'⟩ := hdir.allocChunck hd hg
      have hle : ∀ d', s.chunks d' ⊆ (Function.update s.chunks d (chunk :: s.chunks d)) d' := by
        intro d'
        by_cases hd' : d' = d
        . subst hd'
          rw [Function.update_self]
          exact List.subset_cons_self _ _
        . rw [Function.update_of_ne hd']
          exact fun _ hx => hx
      -- the bytes of the chunk are the first of what the directory still has
      have hoff : chunk.offset.toNat
          = (s.chunckAlloc d).start.offset.toNat + (s.chunckAlloc d).bitmapTail * kChunkSize := by
        have hle' := hdir.len ▸ hlt.le
        rw [heq, hdir.start, LeafBuild.toNat_chunk hd hle', LeafBuild.toNat_chunk hd (Nat.zero_le _),
          LeafBuild.chunkOffset_eq]
      have hnode : chunk.nodeID = (s.chunckAlloc d).start.nodeID := by
        rw [heq, hdir.start, LeafBuild.chunk_nodeID, LeafBuild.chunk_nodeID]
      have hmul := Nat.mul_le_mul_right kChunkSize (show (s.chunckAlloc d).bitmapTail + 1 ≤ _ from hlt)
      rw [Nat.succ_mul] at hmul
      obtain rfl := Option.some.inj hs'
      refine ⟨?_, ?_, ?_, ?_, h.live, h.nodup⟩
      . apply h.apart.move (a := .directory d) (b := .thread t .answer) (I := region chunk kChunkSize)
        . rintro x ⟨hx, hx1, hx2⟩
          exact ⟨hd, hx.trans hnode, by omega, by omega⟩
        . apply Set.disjoint_left.mpr
          rintro x ⟨-, -, hx1, -⟩ ⟨-, -, hx2⟩
          simp only [Function.update_self, hstart, htail, Nat.succ_mul] at hx1
          omega
        . rintro x ⟨_, _, chunk', hanswer, hx⟩
          simp only [Cluster.setThread, Function.update_self, AllocCall.answered.injEq] at hanswer
          obtain ⟨-, -, rfl⟩ := hanswer
          exact .inr hx
        . intro o hne
          cases o with
          | live blk => exact fun x hx => hx
          | thread t' o' =>
            by_cases ht : t' = t
            . subst ht
              cases o' with
              | allocator d' o' =>
                intro x hx
                simpa [bytes, Thread.bytes, Cluster.setThread] using hx
              | answer => exact absurd rfl hne
            . intro x hx
              simpa [bytes, Cluster.setThread, ht] using hx
          | directory d' =>
            by_cases hd' : d' = d
            . subst hd'
              rintro x ⟨hv, hx, hx1, hx2⟩
              simp only [Function.update_self, hstart, htail, hlen, Nat.succ_mul] at hx hx1 hx2
              exact ⟨hv, hx, by omega, hx2⟩
            . intro x hx
              simpa [bytes, hd'] using hx
      . intro d' hv
        by_cases hd' : d' = d
        . subst hd'
          simpa only [Function.update_self] using hdir'
        . simpa only [Function.update_of_ne hd', Cluster.setThread] using h.directory d' hv
      . intro t'
        by_cases ht : t' = t
        . subst ht
          have := hth.mono hle
          simp only [Cluster.setThread, Function.update_self]
          refine ⟨hd, this.allocator, hlegal.1, hlegal.2.1, hlegal.2.2, ?_⟩
          rw [Function.update_self]
          exact List.mem_cons_self
        . simpa only [Cluster.setThread, Function.update_of_ne ht] using (h.thread t').mono hle
      . intro d' blk hmem
        exact (h.returned d' blk hmem).mono hle

theorem Inv.setChunck (h : s.Inv b) {size alignBit : Nat} {chunk : GlobalAddress}
    (hcall : (s.thread t).call = .answered size alignBit chunk)
    : (s.setThread t { (s.thread t).setAllocator (s.thread t).target
        (((s.thread t).localAllocators (s.thread t).target).setChunck chunk) with call := .idle }).Inv b := by
  have hth := h.thread t
  have hlegal := hth.call
  rw [hcall] at hlegal
  have hd := hth.target
  generalize (s.thread t).target = d at hd hlegal
  have hmem := hlegal.2.2.2
  have ha : (((s.thread t).localAllocators d).setChunck chunk).Inv s.chunks d := by
    refine ⟨fun _ => ⟨hd, hmem, rfl, Nat.le_refl _, Nat.le_add_right _ _⟩, ?_, ?_⟩
    . exact (hth.allocator d).nodup
    . exact (hth.allocator d).freed
  refine ⟨?_, h.directory, ?_, h.returned, h.live, h.nodup⟩
  . apply h.apart.move (a := .thread t .answer) (b := .thread t (.allocator d .rest))
      (I := region chunk kChunkSize)
    . intro x hx
      exact ⟨size, alignBit, chunk, hcall, hx⟩
    . apply Set.disjoint_left.mpr
      rintro x ⟨_, _, _, hanswer, -⟩
      simp [Cluster.setThread] at hanswer
    . intro x hx
      simp only [bytes, Cluster.setThread, Function.update_self, Thread.bytes, Thread.setAllocator] at hx
      exact .inr ⟨hx.2.1, hx.2.2.1, hx.2.2.2⟩
    . intro o hne
      cases o with
      | live blk => exact fun x hx => hx
      | thread t' o' =>
        by_cases ht : t' = t
        . subst ht
          cases o' with
          | allocator d' o' =>
            by_cases hd' : d' = d
            . subst hd'
              cases o' with
              | freed blk =>
                intro x hx
                simp only [bytes, Cluster.setThread, Function.update_self, Thread.bytes,
                  Thread.setAllocator] at hx
                exact hx
              | rest => exact absurd rfl hne
            . intro x hx
              simpa [bytes, Cluster.setThread, Thread.bytes, Thread.setAllocator, hd'] using hx
          | answer =>
            rintro x ⟨_, _, _, hanswer, -⟩
            simp [Cluster.setThread] at hanswer
        . intro x hx
          simpa [bytes, Cluster.setThread, ht] using hx
      | directory d' => exact fun x hx => hx
  . intro t'
    by_cases ht : t' = t
    . subst ht
      simp only [Cluster.setThread, Function.update_self]
      exact ⟨hth.target, hth.setAllocator ha, trivial⟩
    . simpa [Cluster.setThread, ht] using h.thread t'

theorem Inv.retry (h : s.Inv b) {s' : Cluster ι} (hs' : s.retry t = some s') : s'.Inv b := by
  have hth := h.thread t
  have hlegal := hth.call
  unfold Cluster.retry at hs'
  cases hcall : (s.thread t).call with
  | idle => simp [hcall] at hs'
  | waiting size alignBit => simp [hcall] at hs'
  | answered size alignBit chunk =>
    rw [hcall] at hlegal
    obtain ⟨hpos, hsize, halign, hmem⟩ := hlegal
    have hset := h.setChunck hcall
    simp only [hcall] at hs'
    have hd := hth.target
    generalize (s.thread t).target = d at hd hs' hset hmem
    have hneed := LocalAllocator.needChunk_setChunck (a := (s.thread t).localAllocators d)
      (h.chunkInv hd chunk hmem) hsize halign
    generalize hm : (((s.thread t).localAllocators d).setChunck chunk).malloc size alignBit = res
      at hs' hneed
    obtain ⟨addr, needChunk, a⟩ := res
    obtain rfl : needChunk = false := hneed
    obtain rfl := Option.some.inj hs'
    generalize hs₁ : s.setThread t { (s.thread t).setAllocator d
      (((s.thread t).localAllocators d).setChunck chunk) with call := .idle } = s₁ at hset
    have halloc : (s₁.thread t).localAllocators d
        = ((s.thread t).localAllocators d).setChunck chunk := by
      rw [← hs₁]
      simp [Cluster.setThread, Thread.setAllocator]
    have hchunks : s₁.chunks = s.chunks := by rw [← hs₁, Cluster.setThread]
    have hgive : s₁.give t d a (addr, size) = s.give t d a (addr, size) := by
      rw [← hs₁]
      simp [Cluster.give, Cluster.setThread, Thread.setAllocator]
    rw [← hgive]
    apply hset.give hd
    rw [← halloc] at hm
    exact LocalAllocator.malloc_spec ((hset.thread t).allocator d) (hset.chunkInv hd) hpos hsize halign hm

omit [DecidableEq ι] in
theorem Inv.nodeID_of_inChunk (h : s.Inv b) {nodeID : Nat} {blk : Block}
    (hin : InChunk s.chunks nodeID blk)
    : blk.1.nodeID.toNat = nodeID ∧ nodeID < memoryNodeNum := by
  obtain ⟨-, d, chunk, hd, rfl, hmem, hnode, -⟩ := hin
  obtain ⟨c, -, -, rfl⟩ := (h.directory d hd).handed chunk hmem
  rw [hnode]
  exact ⟨LeafBuild.toNat_nodeID hd, hd.node⟩

theorem Inv.free (h : s.Inv b) {blk : Block} {s' : Cluster ι} (hlive : blk ∈ s.live)
    (hs' : s.free t blk = some s')
    : s'.Inv b := by
  have hth := h.thread t
  unfold Cluster.free at hs'
  cases hcall : (s.thread t).call with
  | waiting size alignBit => simp [hcall] at hs'
  | answered size alignBit chunk => simp [hcall] at hs'
  | idle =>
    simp only [hcall] at hs'
    obtain ⟨d₀, hret⟩ := h.live blk hlive
    have hin := h.returned d₀ blk hret
    obtain ⟨hnode, hlt⟩ := h.nodeID_of_inChunk hin
    generalize hd : (⟨blk.1.nodeID.toNat, 0⟩ : DirId) = d at hs'
    have hdnode : d.nodeID = d₀.nodeID := by rw [← hd, hnode]
    have hx := start_mem_region hin.pos
    have hfresh : blk ∉ ((s.thread t).localAllocators d).freeList := by
      intro hmem
      have hapart := h.apart (.live blk) (.thread t (.allocator d (.freed blk))) (by simp)
      exact Set.disjoint_left.mp hapart ⟨hlive, hx⟩ ⟨hmem, hx⟩
    have ha : (((s.thread t).localAllocators d).free blk.1 blk.2).Inv s.chunks d := by
      refine ⟨(hth.allocator d).head, ?_, ?_⟩
      . apply List.Nodup.append (hth.allocator d).nodup (List.nodup_singleton _)
        simpa using hfresh
      . intro other hmem
        rcases List.mem_append.mp hmem with hmem | hmem
        . exact (hth.allocator d).freed other hmem
        . obtain rfl : other = blk := by simpa using hmem
          rw [hdnode]
          exact hin
    obtain rfl := Option.some.inj hs'
    refine ⟨?_, h.directory, ?_, h.returned, ?_, h.nodup.filter _⟩
    . apply h.apart.move (a := .live blk) (b := .thread t (.allocator d (.freed blk)))
        (I := region blk.1 blk.2)
      . exact fun x hx => ⟨hlive, hx⟩
      . apply Set.disjoint_left.mpr
        rintro x ⟨hmem, -⟩
        simp at hmem
      . intro x hx
        simp only [bytes, Cluster.setThread, Function.update_self, Thread.bytes, Thread.setAllocator] at hx
        exact .inr hx.2
      . intro o hne
        cases o with
        | live other =>
          rintro x ⟨hmem, hx⟩
          exact ⟨(List.mem_filter.mp hmem).1, hx⟩
        | thread t' o' =>
          by_cases ht : t' = t
          . subst ht
            cases o' with
            | allocator d' o' =>
              by_cases hd' : d' = d
              . subst hd'
                cases o' with
                | freed other =>
                  intro x hx
                  simp only [bytes, Cluster.setThread, Function.update_self, Thread.bytes,
                    Thread.setAllocator] at hx
                  obtain ⟨hmem, hx⟩ := hx
                  refine ⟨?_, hx⟩
                  rcases List.mem_append.mp hmem with hmem | hmem
                  . exact hmem
                  . obtain rfl : other = blk := by simpa using hmem
                    exact absurd rfl hne
                | rest =>
                  intro x hx
                  simp only [bytes, Cluster.setThread, Function.update_self, Thread.bytes,
                    Thread.setAllocator] at hx
                  exact hx
              . intro x hx
                simpa [bytes, Cluster.setThread, Thread.bytes, Thread.setAllocator, hd'] using hx
            | answer =>
              intro x hx
              simpa [bytes, Cluster.setThread, Thread.bytes, Thread.setAllocator] using hx
          . intro x hx
            simpa [bytes, Cluster.setThread, ht] using hx
        | directory d' => exact fun x hx => hx
    . intro t'
      by_cases ht : t' = t
      . subst ht
        simp only [Cluster.setThread, Function.update_self]
        exact ⟨hth.target, hth.setAllocator ha, hth.call⟩
      . simpa [Cluster.setThread, ht] using h.thread t'
    . intro other hmem
      exact h.live other (List.mem_filter.mp hmem).1

omit [DecidableEq ι] in
theorem init_inv (id : ι → Nat) : (init b id).Inv b := by
  have hthread : ∀ t o, ((init b id).thread t).bytes o = ∅ := by
    intro t o
    apply Set.eq_empty_of_forall_notMem
    intro x hx
    cases o with
    | allocator d o =>
      cases o with
      | freed blk => exact absurd hx.1 (by simp [init, Thread.init, LocalAllocator.empty])
      | rest => exact hx.1 rfl
    | answer =>
      obtain ⟨_, _, _, hcall, -⟩ := hx
      cases hcall
  have hlive : ∀ blk, (init b id).bytes (.live blk) = ∅ := by
    intro blk
    apply Set.eq_empty_of_forall_notMem
    exact fun x hx => absurd hx.1 (by simp [init])
  refine ⟨?_, fun d _ => b.directory_inv d, ?_, ?_, ?_, ?_⟩
  . intro o o' hne
    cases o with
    | live blk => simp [hlive]
    | thread t o => simp [bytes, hthread]
    | directory d =>
      cases o' with
      | live blk => simp [hlive]
      | thread t o' => simp [bytes, hthread]
      | directory d' =>
        apply Set.disjoint_left.mpr
        rintro x ⟨hd, hx⟩ ⟨hd', hx'⟩
        have heq := (b.directory_inv d).eq_of_mem hd (b.directory_inv d') hd' hx hx'
        exact hne (by rw [heq])
  . intro t
    refine ⟨⟨Nat.mod_lt _ (by decide), Nat.mod_lt _ (by decide)⟩, ?_, trivial⟩
    intro d
    exact ⟨fun hne => absurd rfl hne, List.nodup_nil, by simp [init, Thread.init, LocalAllocator.empty]⟩
  . simp [init]
  . simp [init]
  . exact List.nodup_nil

theorem Inv.step (h : s.Inv b) {s' : Cluster ι} (hs : Step s s') : s'.Inv b := by
  cases hs with
  | alloc t size alignBit targetNode hpos hsize halign hnode hs =>
    exact h.alloc hpos hsize halign hnode hs
  | processMessage t hs => exact h.processMessage hs
  | retry t hs => exact h.retry hs
  | free t blk hlive hs => exact h.free hlive hs

theorem Reachable.inv {id : ι → Nat} (h : Reachable b id s) : s.Inv b := by
  induction h with
  | init => exact init_inv id
  | step _ hs ih => exact ih.step hs

omit [DecidableEq ι] in
theorem Inv.chunk_bounds (h : s.Inv b) (hd : d.Valid) {chunk : GlobalAddress} (hmem : chunk ∈ s.chunks d)
    : chunk.nodeID = BitVec.ofNat 16 d.nodeID ∧ b.synRegionOffset ≤ chunk.offset.toNat
        ∧ chunk.offset.toNat + kChunkSize ≤ dsmSize := by
  obtain ⟨c, -, hct, rfl⟩ := (h.directory d hd).handed chunk hmem
  have hle := (h.directory d hd).le
  rw [(h.directory d hd).len] at hle
  have hdsm := LeafBuild.chunkOffset_le_dsmSize (b := b) hd (show c + 1 ≤ _ by omega)
  rw [LeafBuild.chunkOffset_succ] at hdsm
  rw [LeafBuild.toNat_chunk hd (by omega)]
  refine ⟨rfl, ?_, hdsm⟩
  unfold LeafBuild.chunkOffset
  omega

omit [DecidableEq ι] in
theorem Inv.disjoint_chunks (h : s.Inv b) {d' : DirId} (hd : d.Valid) (hd' : d'.Valid)
    {chunk chunk' : GlobalAddress} (hmem : chunk ∈ s.chunks d) (hmem' : chunk' ∈ s.chunks d')
    (hne : d = d' → chunk ≠ chunk')
    : Disjoint (region chunk kChunkSize) (region chunk' kChunkSize) := by
  obtain ⟨c, -, hct, rfl⟩ := (h.directory d hd).handed chunk hmem
  obtain ⟨c', -, hct', rfl⟩ := (h.directory d' hd').handed chunk' hmem'
  have hle := (h.directory d hd).le
  have hle' := (h.directory d' hd').le
  rw [(h.directory d hd).len] at hle
  rw [(h.directory d' hd').len] at hle'
  apply LeafBuild.disjoint_chunk hd hd' (by omega) (by omega)
  rintro rfl rfl
  exact hne rfl rfl

omit [DecidableEq ι] in
theorem Inv.synRegionOffset_le (h : s.Inv b) {blk : Block} (hmem : (d, blk) ∈ s.returned)
    : b.synRegionOffset ≤ blk.1.offset.toNat := by
  obtain ⟨-, d', chunk, hd', -, hchunk, -, hlo, -⟩ := h.returned d blk hmem
  have := (h.chunk_bounds hd' hchunk).2.1
  omega

omit [DecidableEq ι] in
theorem Inv.synRegionOffset_le_of_live (h : s.Inv b) {blk : Block} (hmem : blk ∈ s.live)
    : b.synRegionOffset ≤ blk.1.offset.toNat := by
  obtain ⟨d, hd⟩ := h.live _ hmem
  exact h.synRegionOffset_le hd

omit [DecidableEq ι] in
theorem Inv.pos_of_live (h : s.Inv b) {blk : Block} (hmem : blk ∈ s.live) : 1 ≤ blk.2 := by
  obtain ⟨d, hd⟩ := h.live _ hmem
  exact (h.returned d blk hd).pos

omit [DecidableEq ι] in
theorem Inv.live_pairwise (h : s.Inv b)
    : s.live.Pairwise (fun x y => Disjoint (region x.1 x.2) (region y.1 y.2)) := by
  apply h.nodup.imp_of_mem
  intro x y hx hy hne
  apply (h.apart (.live x) (.live y) (by simpa using hne)).mono
  . exact fun p hp => ⟨hx, hp⟩
  . exact fun p hp => ⟨hy, hp⟩

section Sync

variable {s' : Cluster ι} {size alignBit : Nat} {targetNode : Int} {addr : GlobalAddress}

theorem live_of_alloc (hs' : s.alloc t size alignBit targetNode = some s')
    : ((s'.thread t).call = .idle ∧ ∃ addr, s'.live = (addr, size) :: s.live)
        ∨ ((s'.thread t).call = .waiting size alignBit ∧ s'.live = s.live) := by
  unfold alloc at hs'
  cases hcall : (s.thread t).call with
  | idle =>
    simp only [hcall] at hs'
    split at hs'
    . obtain rfl := Option.some.inj hs'
      exact .inr ⟨by simp [setThread], rfl⟩
    . obtain rfl := Option.some.inj hs'
      exact .inl ⟨by simp [give, setThread], _, rfl⟩
  | waiting size' alignBit' => simp [hcall] at hs'
  | answered size' alignBit' chunk => simp [hcall] at hs'

theorem live_of_processMessage (hcall : (s.thread t).call = .waiting size alignBit)
    (hs' : s.processMessage t = some s')
    : (∃ chunk, (s'.thread t).call = .answered size alignBit chunk) ∧ s'.live = s.live := by
  unfold processMessage at hs'
  simp only [hcall] at hs'
  split at hs'
  . cases hs'
  . obtain rfl := Option.some.inj hs'
    exact ⟨⟨_, by simp [setThread]; rfl⟩, rfl⟩

theorem live_of_retry {chunk : GlobalAddress} (hcall : (s.thread t).call = .answered size alignBit chunk)
    (hs' : s.retry t = some s')
    : ∃ addr, s'.live = (addr, size) :: s.live := by
  unfold retry at hs'
  simp only [hcall] at hs'
  obtain rfl := Option.some.inj hs'
  exact ⟨_, rfl⟩

theorem allocSync_spec (h : s.Inv b) (hpos : 1 ≤ size) (hsize : size ≤ kChunkSize)
    (halign : alignBit = cachelineAlignBit ∨ alignBit = packedAddrAlignBit)
    (hnode : targetNode < memoryNodeNum)
    (hs' : s.allocSync t size alignBit targetNode = some (addr, s'))
    : s'.Inv b ∧ s'.live = (addr, size) :: s.live := by
  unfold allocSync at hs'
  obtain ⟨s₁, halloc, hs'⟩ := Option.bind_eq_some_iff.mp hs'
  have hinv := h.alloc hpos hsize halign hnode halloc
  rcases live_of_alloc halloc with ⟨hcall, addr', hlive⟩ | ⟨hcall, hlive⟩
  . simp only [hcall] at hs'
    change s₁.live.head?.bind _ = _ at hs'
    rw [hlive] at hs'
    cases hs'
    exact ⟨hinv, hlive⟩
  . simp only [hcall] at hs'
    obtain ⟨s₂, hmsg, hs'⟩ := Option.bind_eq_some_iff.mp hs'
    obtain ⟨s₃, hretry, hs'⟩ := Option.bind_eq_some_iff.mp hs'
    obtain ⟨⟨chunk, hcall₂⟩, hlive₂⟩ := live_of_processMessage hcall hmsg
    obtain ⟨addr', hlive₃⟩ := live_of_retry hcall₂ hretry
    rw [hlive₃] at hs'
    cases hs'
    refine ⟨(hinv.processMessage hmsg).retry hretry, ?_⟩
    rw [hlive₃, hlive₂, hlive]

omit [DecidableEq ι] in
theorem ne_of_live_cons (h : s.Inv b) {live : List Block} (hlive : s.live = (addr, size) :: live)
    (hpos : 1 ≤ size) {blk : Block} (hblk : blk ∈ live) (hblk' : 1 ≤ blk.2)
    : blk.1 ≠ addr := by
  rintro rfl
  have hpair := h.live_pairwise
  rw [hlive, List.pairwise_cons] at hpair
  apply Set.disjoint_left.mp (hpair.1 blk hblk)
  . exact @start_mem_region (blk.1, size) hpos
  . exact start_mem_region hblk'

end Sync

/-- In every run blocks, chunks, leaves and lock words stay apart. -/
theorem reachable_apart (b : LeafBuild) (id : ι → Nat) (s : Cluster ι) (h : Reachable b id s)
    : (∀ d blk, (d, blk) ∈ s.returned → ∃ d' chunk, d'.Valid ∧ d'.nodeID = d.nodeID ∧ chunk ∈ s.chunks d'
          ∧ region blk.1 blk.2 ⊆ region chunk kChunkSize)
        ∧ (∀ d, d.Valid → (s.chunks d).Nodup ∧ ∀ chunk ∈ s.chunks d,
            chunk.nodeID = BitVec.ofNat 16 d.nodeID ∧ b.synRegionOffset ≤ chunk.offset.toNat
              ∧ chunk.offset.toNat + kChunkSize ≤ dsmSize)
        ∧ (∀ d d' chunk chunk', d.Valid → d'.Valid → chunk ∈ s.chunks d → chunk' ∈ s.chunks d' →
            (d = d' → chunk ≠ chunk') → Disjoint (region chunk kChunkSize) (region chunk' kChunkSize))
        ∧ (∀ blk ∈ s.live, ∃ d, (d, blk) ∈ s.returned)
        ∧ s.live.Pairwise (fun x y => Disjoint (region x.1 x.2) (region y.1 y.2))
        ∧ (∀ leafIdx addr, b.NoWrap leafIdx → b.getLeafAddress (BitVec.ofNat 64 leafIdx) = some addr →
            (∀ d blk, (d, blk) ∈ s.returned →
              Disjoint (region blk.1 blk.2) (region addr b.allocationLeafSize))
            ∧ (b.lockAddress addr).offset.toNat % 8 = 0
            ∧ addr.offset.toNat + b.transLeafSize ≤ (b.lockAddress addr).offset.toNat
            ∧ region (b.lockAddress addr) 8 ⊆ region addr b.allocationLeafSize)
        ∧ (∀ leafIdx leafIdx' addr addr', b.NoWrap leafIdx → b.NoWrap leafIdx' → leafIdx ≠ leafIdx' →
            b.getLeafAddress (BitVec.ofNat 64 leafIdx) = some addr →
            b.getLeafAddress (BitVec.ofNat 64 leafIdx') = some addr' →
            Disjoint (region addr b.allocationLeafSize) (region addr' b.allocationLeafSize)) := by
  have hinv := h.inv
  refine ⟨?_, ?_, ?_, hinv.live, hinv.live_pairwise, ?_, ?_⟩
  . intro d blk hmem
    obtain ⟨-, d', chunk, hd', hnode, hchunk, hid, hlo, hhi⟩ := hinv.returned d blk hmem
    exact ⟨d', chunk, hd', hnode, hchunk, region_subset hid hlo hhi⟩
  . intro d hd
    exact ⟨(hinv.directory d hd).nodup, fun chunk hchunk => hinv.chunk_bounds hd hchunk⟩
  . intro d d' chunk chunk' hd hd' hmem hmem' hne
    exact hinv.disjoint_chunks hd hd' hmem hmem' hne
  . intro leafIdx addr hidx haddr
    refine ⟨?_, LeafBuild.lockAddress_spec hidx haddr⟩
    intro d blk hmem
    apply Disjoint.symm
    apply disjoint_region
    have h1 := hinv.synRegionOffset_le hmem
    have h2 := (LeafBuild.offset_of_getLeafAddress hidx haddr).2
    omega
  . intro leafIdx leafIdx' addr addr' hidx hidx' hne haddr haddr'
    rcases Nat.lt_or_gt_of_ne hne with hlt | hgt
    . exact LeafBuild.disjoint_leaf hidx hidx' hlt haddr haddr'
    . exact (LeafBuild.disjoint_leaf hidx' hidx hgt haddr' haddr).symm

-- the first thread frees its block and gets it again
theorem reachable_apart_realloc
    : ∃ (s : Cluster (Fin 2)) (x y : Block), Reachable ⟨false, false⟩ (fun t => t.val) s
        ∧ s.returned.map Prod.snd = [x, y, x] ∧ s.live = [x, y]
        ∧ Disjoint (region x.1 x.2) (region y.1 y.2) := by
  have hrun : (((init ⟨false, false⟩ (fun t : Fin 2 => t.val)).alloc 0 kChunkSize 6 (-1)).bind (fun s =>
      (s.processMessage 0).bind (fun s => (s.retry 0).bind (fun s => (s.alloc 1 301 6 (-1)).bind (fun s =>
      (s.processMessage 1).bind (fun s => (s.retry 1).bind (fun s =>
      (if (.of 0 22825165824, kChunkSize) ∈ s.live then s.free 0 (.of 0 22825165824, kChunkSize) else none).bind
      (fun s =>
      (s.alloc 0 kChunkSize 6 (-1)).map (fun s => (s.returned.map Prod.snd, s.live))))))))))
      = some ([(.of 0 22825165824, kChunkSize), (.of 0 22841943040, 301), (.of 0 22825165824, kChunkSize)],
          [(.of 0 22825165824, kChunkSize), (.of 0 22841943040, 301)]) := by
    decide +kernel
  have hinit : Reachable ⟨false, false⟩ (fun t : Fin 2 => t.val) _ := .init
  obtain ⟨s₁, h₁, hrun⟩ := Option.bind_eq_some_iff.mp hrun
  obtain ⟨s₂, h₂, hrun⟩ := Option.bind_eq_some_iff.mp hrun
  obtain ⟨s₃, h₃, hrun⟩ := Option.bind_eq_some_iff.mp hrun
  obtain ⟨s₄, h₄, hrun⟩ := Option.bind_eq_some_iff.mp hrun
  obtain ⟨s₅, h₅, hrun⟩ := Option.bind_eq_some_iff.mp hrun
  obtain ⟨s₆, h₆, hrun⟩ := Option.bind_eq_some_iff.mp hrun
  obtain ⟨s₇, h₇, hrun⟩ := Option.bind_eq_some_iff.mp hrun
  obtain ⟨s, h, hs⟩ := Option.map_eq_some_iff.mp hrun
  obtain ⟨hreturned, hlive⟩ := Prod.mk.inj hs
  have hfirst := Reachable.step (.step (.step hinit
    (.alloc 0 kChunkSize 6 (-1) (by decide) (by decide) (.inl rfl) (by decide) h₁)) (.processMessage 0 h₂))
    (.retry 0 h₃)
  have hsecond := Reachable.step (.step (.step hfirst
    (.alloc 1 301 6 (-1) (by decide) (by decide) (.inl rfl) (by decide) h₄)) (.processMessage 1 h₅)) (.retry 1 h₆)
  split at h₇
  . next hmem =>
    have hagain := Reachable.step (.step hsecond (.free 0 _ hmem h₇))
      (.alloc 0 kChunkSize 6 (-1) (by decide) (by decide) (.inl rfl) (by decide) h)
    have hpair := (reachable_apart _ _ s hagain).2.2.2.2.1
    rw [hlive] at hpair
    exact ⟨s, _, _, hagain, hreturned, hlive, (List.pairwise_cons.mp hpair).1 _ List.mem_cons_self⟩
  . cases h₇

end Cluster

/-- The index wraps around in `uint64_t`: leaf 2^60 has the address of leaf 0, and is accepted. -/
theorem wrapped_leaf_overlaps
    : ∃ addr, LeafBuild.getLeafAddress ⟨false, false⟩ 0 = some addr
        ∧ LeafBuild.getLeafAddress ⟨false, false⟩ (BitVec.ofNat 64 (2 ^ 60)) = some addr
        ∧ (0 : BitVec 64) ≠ BitVec.ofNat 64 (2 ^ 60)
        ∧ ¬ Disjoint (region addr (LeafBuild.allocationLeafSize ⟨false, false⟩))
              (region addr (LeafBuild.allocationLeafSize ⟨false, false⟩)) := by
  have hzero : LeafBuild.getLeafAddress ⟨false, false⟩ 0
      = some (GlobalAddress.of 0 kLeafRegionStartOffset) := by
    decide +kernel
  have hwrap : LeafBuild.getLeafAddress ⟨false, false⟩ (BitVec.ofNat 64 (2 ^ 60))
      = some (GlobalAddress.of 0 kLeafRegionStartOffset) := by
    decide +kernel
  refine ⟨_, hzero, hwrap, by decide, ?_⟩
  have hmem : ((0 : BitVec 16), kLeafRegionStartOffset)
      ∈ region (GlobalAddress.of 0 kLeafRegionStartOffset)
          (LeafBuild.allocationLeafSize ⟨false, false⟩) := by
    refine ⟨rfl, ?_, ?_⟩ <;> decide +kernel
  intro hdisj
  exact Set.disjoint_left.mp hdisj hmem hmem

end Rolex

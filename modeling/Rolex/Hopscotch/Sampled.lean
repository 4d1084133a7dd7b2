import Rolex.Hopscotch.Halfway
import Rolex.Hopscotch.Reach
import Rolex.Index.Visibility
import Rolex.Lib.Stages

/-!
This module contains a search of the `HOPSCOTCH_LEAF_NODE` builds while another client takes the memory
through stages. Every node that it fetches is read at two times; what it has to see of a leaf and of its
synonym leaf, so that it can not return without the key, is all that is asked of the stages.
-/

namespace Rolex

namespace Hop

variable {ι : Type} [DecidableEq ι] {i : ι} {P : Nat → Mem ι → Prop} {b : Build}
  {hash : Key → Fin leafSpanSize} {rounds hashIdx entryNum n n' : Nat} {a : GlobalAddress} {k : Key}

section Fetch

omit [DecidableEq ι] in
/-- The first READ of the node at `a` sees `nl`, the second one `nr`. -/
structure SeenApart (P : Nat → Mem ι → Prop) (n n' : Nat) (a : GlobalAddress) (nl nr : HopNode) : Prop where
  exists_stages : ∃ u₁ u₂ s₁ s₂, n ≤ u₁ ∧ u₁ ≤ u₂ ∧ u₂ ≤ n' ∧ P u₁ s₁ ∧ P u₂ s₂
    ∧ s₁.node a = nl ∧ s₂.node a = nr

omit [DecidableEq ι] in
theorem SeenApart.mono {nl nr : HopNode} {u u' : Nat} (h : SeenApart P n n' a nl nr) (hu : u ≤ n)
    (hu' : n' ≤ u')
    : SeenApart P u u' a nl nr := by
  obtain ⟨u₁, u₂, s₁, s₂, h₁, h₂, h₃, h₄⟩ := h
  exact ⟨u₁, u₂, s₁, s₂, hu.trans h₁, h₂, h₃.trans hu', h₄⟩

theorem readSegments_samples {segments : Segments}
    (h : (readSegments b hashIdx entryNum a).Samples (exec i) P n segments n')
    : ∃ nl nr, SeenApart P n n' a nl nr ∧ segments = segmentsOf b hashIdx entryNum nl nr := by
  unfold readSegments at h
  by_cases hreads : readsL b hashIdx entryNum = true
  . rw [if_pos hreads] at h
    simp only [Prog.call_bind, Prog.samples_op, Prog.pure_eq, Prog.samples_ret] at h
    obtain ⟨u₁, s₁, hu₁, hs₁, u₂, s₂, hu₂, hs₂, rfl, rfl⟩ := h
    refine ⟨_, _, ⟨u₁, _, s₁, s₂, hu₁, hu₂, Nat.le_refl _, hs₁, hs₂, rfl, rfl⟩, ?_⟩
    unfold segmentsOf
    rw [if_pos hreads]
    rfl
  . rw [if_neg hreads] at h
    simp only [Prog.pure_eq, Prog.ret_bind, Prog.call_bind, Prog.samples_op, Prog.samples_ret] at h
    obtain ⟨u, s, hu, hs, rfl, rfl⟩ := h
    -- there is only one READ
    refine ⟨_, _, ⟨_, _, s, s, hu, Nat.le_refl _, Nat.le_refl _, hs, hs, rfl, rfl⟩, ?_⟩
    unfold segmentsOf
    rw [if_neg hreads]
    rfl

theorem readAll_samples {leafAddrs : List (GlobalAddress × Nat)} {segments : List (Nat × Segments)}
    (h : (readAll b hashIdx leafAddrs).Samples (exec i) P n segments n')
    : List.Forall₂ (fun p q => q.1 = p.2
        ∧ ∃ nl nr, SeenApart P n n' p.1 nl nr ∧ q.2 = segmentsOf b hashIdx p.2 nl nr) leafAddrs segments := by
  induction leafAddrs generalizing n segments with
  | nil =>
    obtain ⟨rfl, -⟩ := h
    exact .nil
  | cons p leafAddrs ih =>
    obtain ⟨a, entryNum⟩ := p
    unfold readAll at h
    obtain ⟨s, u, hs, h⟩ := Prog.samples_bind.mp h
    obtain ⟨rest, u', hrest, rfl, rfl⟩ := Prog.samples_bind.mp h
    obtain ⟨nl, nr, hseen, rfl⟩ := readSegments_samples hs
    refine .cons ⟨rfl, nl, nr, hseen.mono (Nat.le_refl n) hrest.le, rfl⟩ ?_
    apply (ih hrest).imp
    rintro p q ⟨hq, nl, nr, hseen, heq⟩
    exact ⟨hq, nl, nr, hseen.mono hs.le (Nat.le_refl _), heq⟩

/-- What a fetch that starts at stage `n` and ends at stage `n'` has in the leaf buffer. -/
structure FetchedApart (P : Nat → Mem ι → Prop) (b : Build) (hashIdx : Nat) (n n' : Nat)
    (p : GlobalAddress × Nat) (leaf : HopNode) : Prop where
  exists_seen : ∃ nl nr, SeenApart P n n' p.1 nl nr
    ∧ (segmentsOf b hashIdx p.2 nl nr).consistent b hashIdx p.2 = true
    ∧ (segmentsOf b hashIdx p.2 nl nr).metadataOk b hashIdx p.2 true = true
    ∧ leaf = (segmentsOf b hashIdx p.2 nl nr).leaf b hashIdx p.2

omit [DecidableEq ι] in
theorem FetchedApart.mono {p : GlobalAddress × Nat} {leaf : HopNode} {u u' : Nat}
    (h : FetchedApart P b hashIdx n n' p leaf) (hu : u ≤ n) (hu' : n' ≤ u')
    : FetchedApart P b hashIdx u u' p leaf := by
  obtain ⟨nl, nr, hseen, h⟩ := h
  exact ⟨nl, nr, hseen.mono hu hu', h⟩

theorem hopscotchFetchNodes_samples {leafAddrs : List (GlobalAddress × Nat)} {leaves : List HopNode}
    (h : (hopscotchFetchNodes b hashIdx true leafAddrs rounds).Samples (exec i) P n leaves n')
    : List.Forall₂ (FetchedApart P b hashIdx n n') leafAddrs leaves := by
  induction rounds generalizing n with
  | zero => exact h.elim
  | succ rounds ih =>
    unfold hopscotchFetchNodes at h
    obtain ⟨segments, u, hread, h₁⟩ := Prog.samples_bind.mp h
    obtain ⟨res, u', hdec, h₂⟩ := Prog.samples_bind.mp h₁
    have hle := hread.le
    rcases decodeAll_cases b hashIdx true segments with heq | heq | ⟨heq, hall⟩
    . rw [heq] at hdec
      exact hdec.elim
    . rw [heq] at hdec
      obtain ⟨rfl, rfl⟩ := hdec
      apply (ih h₂).imp
      intro p leaf hleaf
      exact hleaf.mono hle (Nat.le_refl _)
    . rw [heq] at hdec
      obtain ⟨rfl, rfl⟩ := hdec
      obtain ⟨rfl, rfl⟩ := h₂
      have hread' := (List.forall₂_and_left _ _).mpr ⟨hall, (readAll_samples hread).flip⟩
      rw [List.forall₂_map_right_iff]
      apply hread'.flip.imp
      rintro p ⟨num, segments⟩ ⟨⟨hcons, hok⟩, rfl, nl, nr, hseen, rfl⟩
      exact ⟨nl, nr, hseen, hcons, hok, rfl⟩

end Fetch

section Search

omit [DecidableEq ι] in
theorem searchLeaves_ne_absent {leaves : List (GlobalAddress × GlobalAddress × HopNode)}
    {c d : GlobalAddress} {leaf : HopNode} (hscan : scanNode hash leaf.records k ≠ .absent)
    (hp : (c, d, leaf) ∈ leaves)
    : searchLeaves hash k leaves ≠ some none := by
  induction leaves with
  | nil => cases hp
  | cons q leaves ih =>
    obtain ⟨leafAddr, lockedLeafAddr, leaf'⟩ := q
    unfold searchLeaves
    split
    . simp
    . simp
    . next habsent =>
      rcases List.mem_cons.mp hp with heq | hp
      . cases heq
        exact absurd habsent hscan
      . exact ih hp

omit [DecidableEq ι] in
theorem exists_of_mem_appendLeafAddrs {syn : SynLeafAddrs} {leaves : List (GlobalAddress × HopNode)}
    {c : GlobalAddress} (hc : (c, a) ∈ appendLeafAddrs syn leaves)
    : ∃ leaf, (a, leaf) ∈ leaves ∧ leaf.metadata.synonymPtr = c ∧ c ≠ GlobalAddress.null := by
  induction leaves generalizing syn with
  | nil => cases hc
  | cons q leaves ih =>
    obtain ⟨d, leaf⟩ := q
    unfold appendLeafAddrs at hc
    split at hc
    . next hcond =>
      rcases List.mem_cons.mp hc with heq | hc
      . cases heq
        exact ⟨leaf, List.mem_cons_self, rfl, hcond.1⟩
      . obtain ⟨leaf', hmem, h⟩ := ih hc
        exact ⟨leaf', List.mem_cons_of_mem _ hmem, h⟩
    . obtain ⟨leaf', hmem, h⟩ := ih hc
      exact ⟨leaf', List.mem_cons_of_mem _ hmem, h⟩

omit [DecidableEq ι] in
theorem exists_mem_appendLeafAddrs {syn : SynLeafAddrs} {leaves : List (GlobalAddress × HopNode)}
    {leaf : HopNode} (hmem : (a, leaf) ∈ leaves) (hptr : leaf.metadata.synonymPtr ≠ GlobalAddress.null)
    (hsyn : syn.lookup a = none)
    : ∃ c, (c, a) ∈ appendLeafAddrs syn leaves := by
  induction leaves generalizing syn with
  | nil => cases hmem
  | cons q leaves ih =>
    obtain ⟨d, leaf'⟩ := q
    unfold appendLeafAddrs
    split
    . next hcond =>
      by_cases had : a = d
      . rw [had]
        exact ⟨_, List.mem_cons_self⟩
      . have hlookup : ((d, leaf'.metadata.synonymPtr) :: syn).lookup a = none := by
          rw [List.lookup_cons, beq_eq_false_iff_ne.mpr had]
          exact hsyn
        have hne : (a, leaf) ≠ (d, leaf') := fun heq => had (congrArg Prod.fst heq)
        obtain ⟨c, hc⟩ := ih ((List.mem_cons.mp hmem).resolve_left hne) hlookup
        exact ⟨c, List.mem_cons_of_mem _ hc⟩
    . next hcond =>
      rcases List.mem_cons.mp hmem with heq | hmem
      . cases heq
        exact absurd ⟨hptr, hsyn⟩ hcond
      . exact ih hmem hsyn

theorem zip_of_forall₂_append {α β γ : Type} {R : β → γ → Prop} {f : α → β} {l : List α} {l' : List β}
    {ys : List γ} (h : List.Forall₂ R (l.map f ++ l') ys)
    : (∀ x y, (x, y) ∈ l.zip ys → R (f x) y ∧ (f x, y) ∈ (l.map f ++ l').zip ys)
        ∧ ∀ x ∈ l, ∃ y, (x, y) ∈ l.zip ys := by
  induction l generalizing ys with
  | nil => exact ⟨fun x y hxy => absurd hxy List.not_mem_nil, fun x hx => absurd hx List.not_mem_nil⟩
  | cons z l ih =>
    cases h with
    | @cons _ y _ ys hzy htail =>
      obtain ⟨hzip, hex⟩ := ih htail
      constructor
      . intro x y' hxy
        rcases List.mem_cons.mp hxy with heq | hxy
        . cases heq
          exact ⟨hzy, List.mem_cons_self⟩
        . exact ⟨(hzip x y' hxy).1, List.mem_cons_of_mem _ (hzip x y' hxy).2⟩
      . intro x hx
        rcases List.mem_cons.mp hx with rfl | hx
        . exact ⟨y, List.mem_cons_self⟩
        . obtain ⟨y', hy'⟩ := hex x hx
          exact ⟨y', List.mem_cons_of_mem _ hy'⟩

/--
The key can not be missed. `R n` are the synonym pointers that a search may have read from the leaf by
stage `n`; a leaf without the key has such a pointer, and each of them leads to a node with the key.
-/
structure Visible (P : Nat → Mem ι → Prop) (b : Build) (hash : Key → Fin leafSpanSize) (a : GlobalAddress)
    (k : Key) (R : Nat → GlobalAddress → Prop) : Prop where
  mono : ∀ {n n' c}, n ≤ n' → R n c → R n' c
  ptr : ∀ {n n' leaf}, FetchedApart P b (hash k).val n n' (a, neighborSize) leaf →
    leaf.metadata.synonymPtr ≠ GlobalAddress.null → R n' leaf.metadata.synonymPtr
  seen : ∀ {n n' leaf}, FetchedApart P b (hash k).val n n' (a, neighborSize) leaf →
    scanNode hash leaf.records k ≠ .absent
      ∨ (leaf.metadata.synonymPtr ≠ GlobalAddress.null
        ∧ ∀ {u c u₁ u₂ synLeaf}, R u c → u ≤ u₁ →
            FetchedApart P b (hash k).val u₁ u₂ (c, neighborSize) synLeaf →
            scanNode hash synLeaf.records k ≠ .absent)

variable {R : Nat → GlobalAddress → Prop} {leafAddrs : List GlobalAddress} {syn syn' : SynLeafAddrs}

theorem Visible.searchRound (hv : Visible P b hash a k R) (ha : a ∈ leafAddrs)
    (hsyn : ∀ c, (a, c) ∈ syn → R n c) {res : Option (Option (Value × GlobalAddress × GlobalAddress))}
    (h : (searchRound b hash rounds k leafAddrs syn).Samples (exec i) P n (res, syn') n')
    : res ≠ some none ∧ ∀ c, (a, c) ∈ syn' → R n' c := by
  unfold Hop.searchRound at h
  obtain ⟨leaves, u, hfetch, h₁⟩ := Prog.samples_bind.mp h
  obtain ⟨appendLeaves, u', hfetch', h₂⟩ := Prog.samples_bind.mp h₁
  obtain ⟨heq, rfl⟩ := h₂
  cases heq
  have hle := hfetch.le
  have hle' := hfetch'.le
  replace hfetch := List.forall₂_map_left_iff.mp (hopscotchFetchNodes_samples hfetch)
  replace hfetch' := List.forall₂_map_left_iff.mp (hopscotchFetchNodes_samples hfetch')
  obtain ⟨hzip, hex⟩ := zip_of_forall₂_append hfetch
  constructor
  . obtain ⟨leaf, hleaf⟩ := hex a ha
    obtain ⟨hfetched, hmem⟩ := hzip a leaf hleaf
    rcases hv.seen hfetched with hscan | ⟨hptr, hcover⟩
    . apply searchLeaves_ne_absent hscan
      exact List.mem_map.mpr ⟨_, List.mem_append_left _ hmem, rfl⟩
    . cases hlookup : syn.lookup a with
      | none =>
        obtain ⟨c, hc⟩ := exists_mem_appendLeafAddrs hleaf hptr hlookup
        obtain ⟨leaf', hleaf', hptr', hne⟩ := exists_of_mem_appendLeafAddrs hc
        have hR : R u c := by
          rw [← hptr'] at hne
          rw [← hptr']
          exact hv.ptr (hzip a leaf' hleaf').1 hne
        obtain ⟨synLeaf, hsynLeaf, hfetched'⟩ := exists_mem_zip hfetch' hc
        apply searchLeaves_ne_absent (hcover hR (Nat.le_refl u) hfetched')
        exact List.mem_map.mpr ⟨_, List.mem_append_right _ hsynLeaf, rfl⟩
      | some c =>
        obtain ⟨l₁, l₂, rfl, -⟩ := List.lookup_eq_some_iff.mp hlookup
        have hR := hsyn c (List.mem_append_right _ List.mem_cons_self)
        have hcached : (c, a) ∈ cachedLeafAddrs (l₁ ++ (a, c) :: l₂) leafAddrs :=
          List.mem_filterMap.mpr ⟨a, ha, by rw [hlookup]; rfl⟩
        obtain ⟨synLeaf, hsynLeaf, hfetched'⟩ := exists_mem_zip hfetch (List.mem_append_right _ hcached)
        apply searchLeaves_ne_absent (hcover hR (Nat.le_refl n) hfetched')
        exact List.mem_map.mpr ⟨_, List.mem_append_left _ hsynLeaf, rfl⟩
  . intro c hc
    rcases List.mem_append.mp hc with hc | hc
    . have hc' : (c, a) ∈ appendLeafAddrs syn (leafAddrs.zip leaves) := by
        obtain ⟨p, hp, heq⟩ := List.mem_map.mp hc
        cases heq
        exact hp
      obtain ⟨leaf, hleaf, rfl, hne⟩ := exists_of_mem_appendLeafAddrs hc'
      exact hv.mono hle' (hv.ptr (hzip a leaf hleaf).1 hne)
    . exact hv.mono (hle.trans hle') (hsyn c hc)

theorem Visible.reRead (hv : Visible P b hash a k R) (ha : a ∈ leafAddrs)
    (hsyn : ∀ c, (a, c) ∈ syn → R n c) {fuel : Nat} {res : Option (Value × GlobalAddress × GlobalAddress)}
    (h : (searchAux.reRead b hash rounds k leafAddrs syn fuel).Samples (exec i) P n res n')
    : res ≠ none := by
  induction fuel generalizing syn n with
  | zero => exact h.elim
  | succ fuel ih =>
    unfold searchAux.reRead at h
    obtain ⟨⟨found, syn'⟩, u, hround, h₁⟩ := Prog.samples_bind.mp h
    obtain ⟨hne, hsyn'⟩ := hv.searchRound ha hsyn hround
    cases found with
    | none => exact ih hsyn' h₁
    | some found =>
      obtain ⟨rfl, -⟩ := h₁
      rintro rfl
      exact hne rfl

/-- A search for `k` looks at the leaf at `a`. -/
def LooksAt (b : Build) (cache : Cache) (k : Key) (a : GlobalAddress) : Prop :=
  ∃ l r leafAddrs, cache.searchFromCache k = some (l, r) ∧ b.leafAddresses l r = some leafAddrs
    ∧ a ∈ leafAddrs

theorem Visible.search {cache : Cache} (hv : Visible P b hash a k R) (hlooks : LooksAt b cache k a)
    {res : Option Value} (h : (search b hash rounds cache k).Samples (exec i) P n res n')
    : res ≠ none := by
  obtain ⟨l, r, leafAddrs, hrange, hleaves, ha⟩ := hlooks
  unfold Hop.search searchAux at h
  simp only [hrange, hleaves, Prog.check_some, Prog.ret_bind] at h
  obtain ⟨found, u, hfound, rfl, -⟩ := Prog.samples_bind.mp h
  have hne := hv.reRead ha (fun c hc => absurd hc List.not_mem_nil) hfound
  simpa using hne

end Search

end Hop

end Rolex

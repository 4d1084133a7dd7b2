import Rolex.Lib.Hull

/-!
This module contains the two extreme lines that pass between two families of points, one of which they
must not run below and the other of which they must not run above, and how they change when points are
added on the right. The rule is stated for one of the two lines, the other one is its mirror image.
-/

namespace Hull

variable {K : Type} [Field K] [LinearOrder K] [IsStrictOrderedRing K]

/--
The chain `act` stands for all points of `near`: it consists of some of them, and a line with a slope
between those of `O` and `M` is on side `s` of all of them if it is so of the points of the chain.
-/
structure Side (s : Int) (O M : Line K) (act near : List Point) (h : Point) : Prop where
  head : ∃ tl, act = h :: tl
  chain : Chain s act
  sub : ∀ p ∈ act, p ∈ near
  dom : ∀ f : Line K, (s : K) * O.slope ≤ s * f.slope → (s : K) * f.slope ≤ s * M.slope →
    (∀ p ∈ act, f.On s p) → ∀ p ∈ near, f.On s p

/--
The lines `O` and `M` pass on side `s` of `near` and on the other side of `far`. `M` is held by `hN` and
`rF`, `O` by `hF` and `rN`, so that no line in between is steeper than `M` or flatter than `O`.
-/
structure Wedge (s : Int) (O M : Line K) (actN near : List Point) (hN rN : Point)
    (actF far : List Point) (hF rF : Point) : Prop where
  nearSide : Side s O M actN near hN
  farSide : Side (-s) M O actF far hF
  mN : M.eval hN.x = hN.y
  mF : M.eval rF.x = rF.y
  oF : O.eval hF.x = hF.y
  oN : O.eval rN.x = rN.y
  memF : rF ∈ far
  memN : rN ∈ near
  ltM : hN.x < rF.x
  ltO : hF.x < rN.x
  slopes : (s : K) * O.slope ≤ s * M.slope
  onNear : ∀ p ∈ near, O.On s p ∧ M.On s p
  onFar : ∀ p ∈ far, O.On (-s) p ∧ M.On (-s) p

theorem Wedge.symm {s : Int} {O M : Line K} {actN near actF far : List Point} {hN rN hF rF : Point}
    (w : Wedge s O M actN near hN rN actF far hF rF)
    : Wedge (-s) M O actF far hF rF actN near hN rN where
  nearSide := w.farSide
  farSide := by
    rw [neg_neg]
    exact w.nearSide
  mN := w.oF
  mF := w.oN
  oF := w.mN
  oN := w.mF
  memF := w.memN
  memN := w.memF
  ltM := w.ltO
  ltO := w.ltM
  slopes := by
    have := w.slopes
    push_cast
    linarith
  onNear := fun p hp => ⟨(w.onFar p hp).2, (w.onFar p hp).1⟩
  onFar := fun p hp => by
    rw [neg_neg]
    exact ⟨(w.onNear p hp).2, (w.onNear p hp).1⟩

theorem Line.on_neg_iff {s : Int} {f : Line K} {p : Point}
    : f.On (-s) p ↔ (s : K) * f.eval p.x ≤ s * p.y := by
  unfold Line.On
  push_cast
  constructor
  . intro h
    linarith
  . intro h
    linarith

section

variable {s : Int} {O M : Line K} {actN near actF far : List Point} {hN rN hF rF q : Point}

/-- A far point that `M` leaves room for needs no place in the chain. -/
theorem Wedge.keep (w : Wedge s O M actN near hN rN actF far hF rF)
    (hfar : ∀ p ∈ far, p.x < q.x) (hO : 0 ≤ (s : K) * (q.y - O.eval q.x))
    (hM : (s : K) * (M.eval q.x - q.y) ≤ 0)
    : Wedge s O M actN near hN rN actF (q :: far) hF rF where
  nearSide := w.nearSide
  farSide := by
    refine ⟨w.farSide.head, w.farSide.chain, fun p hp => List.mem_cons_of_mem _
      (w.farSide.sub p hp), ?_⟩
    intro f h1 h2 hact p hp
    have hold := w.farSide.dom f h1 h2 hact
    rcases List.mem_cons.mp hp with rfl | hp
    . -- `M` is steeper than `f` and already above it at `rF`
      have hr := hold rF w.memF
      rw [Line.on_neg_iff] at hr ⊢
      have hMr : M.On s rF := by
        unfold Line.On
        rw [w.mF]
        simp
      have hrx : (rF.x : K) ≤ p.x := by
        have := hfar rF w.memF
        exact_mod_cast this.le
      push_cast at h1 h2
      have := hMr.right (g := f) (by linarith) (by linarith) hrx
      linarith
    . exact hold p hp
  mN := w.mN
  mF := w.mF
  oF := w.oF
  oN := w.oN
  memF := List.mem_cons_of_mem _ w.memF
  memN := w.memN
  ltM := w.ltM
  ltO := w.ltO
  slopes := w.slopes
  onNear := w.onNear
  onFar := by
    intro p hp
    rcases List.mem_cons.mp hp with rfl | hp
    . rw [Line.on_neg_iff, Line.on_neg_iff]
      exact ⟨by linarith, by linarith⟩
    . exact w.onFar p hp

theorem Wedge.slope_bounds {h' : Point} (w : Wedge s O M actN near hN rN actF far hF rF)
    (hh' : h'.x < q.x) (hnear : h' ∈ near) (hhN : hN.x < q.x)
    (hbest : (s : K) * slopeTo K q h' ≤ s * slopeTo K q hN)
    (hO : 0 ≤ (s : K) * (q.y - O.eval q.x)) (hM : 0 < (s : K) * (M.eval q.x - q.y))
    : (s : K) * O.slope ≤ s * slopeTo K q h' ∧ (s : K) * slopeTo K q h' ≤ s * M.slope := by
  have hmul := slopeTo_mul (K := K) (sub_ne_zero_of_lt hh')
  have hmulN := slopeTo_mul (K := K) (sub_ne_zero_of_lt hhN)
  have hpos : (0 : K) < q.x - h'.x := by
    have : (h'.x : K) < q.x := by exact_mod_cast hh'
    linarith
  have hposN : (0 : K) < q.x - hN.x := by
    have : (hN.x : K) < q.x := by exact_mod_cast hhN
    linarith
  constructor
  . have hon : 0 ≤ (s : K) * (O.eval h'.x - h'.y) := (w.onNear h' hnear).1
    have hid : (s * slopeTo K q h' - s * O.slope) * (q.x - h'.x)
        = s * (q.y - O.eval q.x) + s * (O.eval h'.x - h'.y) := by
      rw [O.eval_eq h'.x q.x]
      linear_combination (s : K) * hmul
    have : 0 ≤ (s * slopeTo K q h' - s * O.slope) * (q.x - h'.x) := by
      rw [hid]
      linarith
    have := nonneg_of_mul_nonneg_left this hpos
    linarith
  . refine le_trans hbest ?_
    have hid : (s * M.slope - s * slopeTo K q hN) * (q.x - hN.x) = s * (M.eval q.x - q.y) := by
      rw [M.eval_eq hN.x q.x, w.mN]
      linear_combination (-(s : K)) * hmulN
    rw [← hid] at hM
    have := (mul_pos_iff_of_pos_right hposN).mp hM
    linarith

/-- A far point that cuts `M` off: `M` swings around its chain until it passes through the point. -/
theorem Wedge.swing {tl : List Point} (w : Wedge s O M (hN :: tl) near hN rN actF far hF rF)
    (hnear : ∀ p ∈ near, p.x < q.x ∨ (p.x = q.x ∧ 0 < s * (q.y - p.y)))
    (hfar : ∀ p ∈ far, p.x < q.x) (hO : 0 ≤ (s : K) * (q.y - O.eval q.x))
    (hM : 0 < (s : K) * (M.eval q.x - q.y))
    : ∃ M' : Line K, ∃ h' rest, scan s q hN tl = h' :: rest
        ∧ Wedge s O M' (h' :: rest) near h' rN (push (-s) actF q) (q :: far) hF q := by
  have hhN : hN.x < q.x := lt_trans w.ltM (hfar rF w.memF)
  have hsub := w.nearSide.sub
  obtain ⟨pre, h', rest, hscan, hsplit, hh', hbest, hon⟩ :=
    scan_spec (K := K) w.nearSide.chain hhN (fun p hp => hnear p (hsub p (by simp [hp])))
  have hmem' : h' ∈ hN :: tl := by
    rw [hsplit]
    simp
  obtain ⟨hOs, hsM⟩ := w.slope_bounds hh' (hsub h' hmem') hhN hbest hO hM
  refine ⟨Line.through q (slopeTo K q h'), h', rest, hscan, ?_⟩
  generalize hM' : Line.through q (slopeTo K q h') = M' at hon
  have hslope : M'.slope = slopeTo K q h' := by rw [← hM', Line.slope_through]
  rw [← hslope] at hOs hsM
  have hM'q : M'.eval q.x = q.y := by
    rw [← hM', Line.eval_through]
    ring
  have hM'h : M'.eval h'.x = h'.y := by
    rw [← hM', Line.eval_through]
    have := slopeTo_mul (K := K) (sub_ne_zero_of_lt hh')
    linear_combination -this
  have hzero : (s : K) * (M'.eval h'.x - h'.y) ≤ 0 := by
    rw [hM'h]
    simp
  have honNear : ∀ p ∈ near, M'.On s p := w.nearSide.dom M' hOs hsM hon
  have honFar : ∀ p ∈ far, M'.On (-s) p := by
    intro p hp
    obtain ⟨hOp, hMp⟩ := w.onFar p hp
    obtain ⟨hOh, hMh⟩ := w.onNear h' (hsub h' hmem')
    rw [Line.on_neg_iff] at *
    -- left of `h'` it is below `O`, right of it below `M`
    rcases le_total (p.x : K) h'.x with hx | hx
    . have := hOh.left hzero hOs hx
      linarith
    . have := hMh.right hzero hsM hx
      linarith
  obtain ⟨tlF, hactF⟩ := w.farSide.head
  obtain ⟨tl', hpush, hchain', hnew, hq, hpdom⟩ :=
    push_spec (K := K) (p := q) (hactF ▸ w.farSide.chain)
      (fun b hb => hfar b (w.farSide.sub b (hactF ▸ hb)))
  have hchainN : Chain s (pre ++ h' :: rest) := by
    rw [← hsplit]
    exact w.nearSide.chain
  refine
    { nearSide := ⟨⟨rest, rfl⟩, hchainN.of_append, ?_, ?_⟩
      farSide := ?_
      mN := hM'h
      mF := hM'q
      oF := w.oF
      oN := w.oN
      memF := List.mem_cons_self
      memN := w.memN
      ltM := hh'
      ltO := w.ltO
      slopes := hOs
      onNear := fun p hp => ⟨(w.onNear p hp).1, honNear p hp⟩
      onFar := ?_ }
  . intro p hp
    apply hsub
    rw [hsplit]
    exact List.mem_append_right _ hp
  . -- a line that is no steeper than `M'` needs no point before `h'`
    intro f h1 h2 hact
    apply w.nearSide.dom f h1 (le_trans h2 hsM)
    intro p hp
    rw [hsplit] at hp
    rcases List.mem_append.mp hp with hpre | hrest
    . have hlt : p.x < h'.x := (List.pairwise_append.mp hchainN.lt).2.2 p hpre h' (by simp)
      have hx : (p.x : K) ≤ h'.x := by exact_mod_cast hlt.le
      have hfh : f.On s h' := hact h' (by simp)
      have hle := hfh.left hzero h2 hx
      have hMp : 0 ≤ (s : K) * (M'.eval p.x - p.y) :=
        honNear p (hsub p (hsplit ▸ List.mem_append_left _ hpre))
      unfold Line.On
      linarith
    . exact hact p hrest
  . rw [hactF, hpush]
    refine ⟨⟨tl', rfl⟩, hchain', ?_, ?_⟩
    . intro p hp
      rcases hnew p hp with rfl | hp
      . exact List.mem_cons_self
      . exact List.mem_cons_of_mem _ (w.farSide.sub p (hactF ▸ hp))
    . intro f h1 h2 hact p hp
      rcases List.mem_cons.mp hp with rfl | hp
      . exact hact p hq
      . refine w.farSide.dom f ?_ h2 ?_ p hp
        . push_cast at h1 ⊢
          linarith
        . rw [hactF]
          exact hpdom f hact
  . intro p hp
    rcases List.mem_cons.mp hp with rfl | hp
    . rw [Line.on_neg_iff, Line.on_neg_iff, hM'q]
      exact ⟨by linarith, le_refl _⟩
    . exact ⟨(w.onFar p hp).1, honFar p hp⟩

end

end Hull

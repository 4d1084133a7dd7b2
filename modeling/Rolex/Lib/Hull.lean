import Mathlib.Algebra.Order.Field.Basic
import Mathlib.Data.Int.Cast.Lemmas
import Mathlib.Algebra.Order.Ring.Cast
import Mathlib.Tactic.FieldSimp
import Mathlib.Tactic.Linarith
import Mathlib.Tactic.LinearCombination
import Mathlib.Tactic.Ring

/-!
This module contains chains of points that turn one way only, and the lines that stay on one side of
them. The side is a number `s`: a line is on side `1` of a point that it does not run below, and on side
`-1` of a point that it does not run above.
-/

namespace Hull

structure Point where
  x : Int
  y : Int
  deriving DecidableEq

/-- Twice the signed area of the triangle. -/
def cross (o a b : Point) : Int := (a.x - o.x) * (b.y - o.y) - (a.y - o.y) * (b.x - o.x)

/--
Drop points off the front until the slope from `q` gets worse: the rest of the chain from the point
whose slope to `q` is the least (`s = 1`) or the greatest (`s = -1`).
-/
def scan (s : Int) (q : Point) (h : Point) : List Point → List Point
  | [] => [h]
  | h' :: rest =>
    if 0 < s * ((h'.y - q.y) * (h.x - q.x) - (h'.x - q.x) * (h.y - q.y)) then
      h :: h' :: rest
    else
      scan s q h' rest

/-- Remove points, last one first, that a line over their neighbours does not need. -/
def pop (s : Int) (p : Point) : List Point → List Point
  | b :: a :: rest => if 0 ≤ s * cross a b p then pop s p (a :: rest) else b :: a :: rest
  | l => l

def push (s : Int) (l : List Point) (p : Point) : List Point := (pop s p l.reverse).reverse ++ [p]

structure Line (K : Type) where
  slope : K
  icept : K

section

variable {K : Type} [Field K] [LinearOrder K] [IsStrictOrderedRing K]

def Line.eval (f : Line K) (x : K) : K := f.slope * x + f.icept

/-- The line through a point with a given slope. -/
def Line.through (p : Point) (slope : K) : Line K := ⟨slope, p.y - slope * p.x⟩

omit [LinearOrder K] [IsStrictOrderedRing K] in
@[simp]
theorem Line.slope_through (p : Point) (slope : K) : (Line.through p slope).slope = slope := rfl

omit [LinearOrder K] [IsStrictOrderedRing K] in
theorem Line.eval_through (p : Point) (slope : K) (x : K)
    : (Line.through p slope).eval x = p.y + slope * (x - p.x) := by
  simp only [eval, through]
  ring

omit [LinearOrder K] [IsStrictOrderedRing K] in
theorem Line.eval_eq (f : Line K) (x x' : K) : f.eval x' = f.eval x + f.slope * (x' - x) := by
  simp only [eval]
  ring

/-- `f` is on side `s` of `p`. -/
def Line.On (s : Int) (f : Line K) (p : Point) : Prop := 0 ≤ (s : K) * (f.eval p.x - p.y)

def slopeTo (K : Type) [Field K] (q p : Point) : K := (q.y - p.y) / (q.x - p.x)

omit [LinearOrder K] [IsStrictOrderedRing K] in
theorem slopeTo_mul {q p : Point} (h : ((q.x : K) - p.x) ≠ 0)
    : slopeTo K q p * (q.x - p.x) = q.y - p.y := by
  unfold slopeTo
  field_simp

theorem sub_ne_zero_of_lt {q p : Point} (h : p.x < q.x) : ((q.x : K) - p.x) ≠ 0 := by
  have : (p.x : K) < q.x := by exact_mod_cast h
  exact ne_of_gt (sub_pos.mpr this)

/-- A line on side `s` of the ends of a triangle is so of the corner that turns away. -/
theorem Line.On.of_cross {s : Int} {f : Line K} {a b p : Point} (hab : a.x < b.x) (hbp : b.x < p.x)
    (hcross : 0 ≤ s * cross a b p) (ha : f.On s a) (hp : f.On s p)
    : f.On s b := by
  have hab' : (a.x : K) < b.x := by exact_mod_cast hab
  have hbp' : (b.x : K) < p.x := by exact_mod_cast hbp
  have hcross' : (0 : K) ≤ s * ((b.x - a.x) * (p.y - a.y) - (b.y - a.y) * (p.x - a.x)) := by
    exact_mod_cast hcross
  unfold Line.On at *
  have hid : ((p.x : K) - a.x) * (s * (f.eval b.x - b.y))
      = (p.x - b.x) * (s * (f.eval a.x - a.y)) + (b.x - a.x) * (s * (f.eval p.x - p.y))
        + s * ((b.x - a.x) * (p.y - a.y) - (b.y - a.y) * (p.x - a.x)) := by
    simp only [Line.eval]
    ring
  have h1 : 0 ≤ ((p.x : K) - b.x) * (s * (f.eval a.x - a.y)) :=
    mul_nonneg (by linarith) ha
  have h2 : 0 ≤ ((b.x : K) - a.x) * (s * (f.eval p.x - p.y)) :=
    mul_nonneg (by linarith) hp
  have h3 : 0 ≤ ((p.x : K) - a.x) * (s * (f.eval b.x - b.y)) := by
    rw [hid]
    linarith
  exact nonneg_of_mul_nonneg_right h3 (by linarith)

theorem Line.On.right {s : Int} {f g : Line K} {p : Point} {x : K} (hf : f.On s p)
    (hg : (s : K) * (g.eval p.x - p.y) ≤ 0) (hslope : (s : K) * g.slope ≤ s * f.slope)
    (hx : (p.x : K) ≤ x)
    : (s : K) * g.eval x ≤ s * f.eval x := by
  unfold On at hf
  have h := mul_le_mul_of_nonneg_right hslope (sub_nonneg.mpr hx)
  rw [f.eval_eq p.x x, g.eval_eq p.x x]
  linarith

theorem Line.On.left {s : Int} {f g : Line K} {p : Point} {x : K} (hf : f.On s p)
    (hg : (s : K) * (g.eval p.x - p.y) ≤ 0) (hslope : (s : K) * f.slope ≤ s * g.slope)
    (hx : x ≤ (p.x : K))
    : (s : K) * g.eval x ≤ s * f.eval x := by
  unfold On at hf
  have h := mul_le_mul_of_nonneg_right hslope (sub_nonneg.mpr hx)
  rw [f.eval_eq p.x x, g.eval_eq p.x x]
  linarith

/-- The line through `q` with the slope of `h` is on side `s` of a point whose slope is no better. -/
theorem on_through_iff {s : Int} {q h p : Point} (hp : p.x < q.x)
    : (Line.through q (slopeTo K q h)).On s p
        ↔
      (s : K) * slopeTo K q h ≤ s * slopeTo K q p := by
  have hpos : (0 : K) < q.x - p.x := by
    have : (p.x : K) < q.x := by exact_mod_cast hp
    linarith
  have hmul := slopeTo_mul (K := K) (sub_ne_zero_of_lt hp)
  have hid : (s : K) * ((Line.through q (slopeTo K q h)).eval p.x - p.y)
      = (s * slopeTo K q p - s * slopeTo K q h) * (q.x - p.x) := by
    rw [Line.eval_through]
    linear_combination (-(s : K)) * hmul
  unfold Line.On
  rw [hid]
  constructor
  . intro h0
    have := nonneg_of_mul_nonneg_left h0 hpos
    linarith
  . intro h0
    exact mul_nonneg (by linarith) hpos.le

theorem slopeTo_lt_iff {s : Int} {q h h' : Point} (hh : h.x < q.x) (hh' : h'.x < q.x)
    : 0 < s * ((h'.y - q.y) * (h.x - q.x) - (h'.x - q.x) * (h.y - q.y))
        ↔
      (s : K) * slopeTo K q h < s * slopeTo K q h' := by
  have hpos : (0 : K) < q.x - h.x := by
    have : (h.x : K) < q.x := by exact_mod_cast hh
    linarith
  have hpos' : (0 : K) < q.x - h'.x := by
    have : (h'.x : K) < q.x := by exact_mod_cast hh'
    linarith
  have hmul := slopeTo_mul (K := K) (sub_ne_zero_of_lt hh)
  have hmul' := slopeTo_mul (K := K) (sub_ne_zero_of_lt hh')
  have hid : ((s * ((h'.y - q.y) * (h.x - q.x) - (h'.x - q.x) * (h.y - q.y)) : Int) : K)
      = (s * slopeTo K q h' - s * slopeTo K q h) * ((q.x - h.x) * (q.x - h'.x)) := by
    push_cast
    linear_combination (s : K) * (q.x - h'.x) * hmul - (s : K) * (q.x - h.x) * hmul'
  rw [← Int.cast_pos (R := K), hid]
  have hprod := mul_pos hpos hpos'
  constructor
  . intro h0
    have := (mul_pos_iff_of_pos_right hprod).mp h0
    linarith
  . intro h0
    exact mul_pos (by linarith) hprod

end

/-- A chain from left to right whose corners all turn away from side `s`. -/
structure Chain (s : Int) (l : List Point) : Prop where
  lt : l.Pairwise (fun a b => a.x < b.x)
  turn : ∀ l₁ a b c l₂, l = l₁ ++ a :: b :: c :: l₂ → s * cross a b c < 0

theorem Chain.of_cons {s : Int} {a : Point} {l : List Point} (h : Chain s (a :: l)) : Chain s l where
  lt := h.lt.of_cons
  turn := by
    rintro l a b c l' rfl
    exact h.turn (_ :: l) a b c l' rfl

theorem Chain.of_append {s : Int} {l₁ l₂ : List Point} (h : Chain s (l₁ ++ l₂)) : Chain s l₂ where
  lt := (List.pairwise_append.mp h.lt).2.1
  turn := by
    rintro l a b c l' rfl
    exact h.turn (l₁ ++ l) a b c l' (by simp)

section

variable {K : Type} [Field K] [LinearOrder K] [IsStrictOrderedRing K]

theorem Chain.on_of_leaving {s : Int} {f : Line K} {a b : Point} {rest : List Point}
    (h : Chain s (a :: b :: rest)) (ha : f.On s a)
    (hleave : 0 < (s : K) * (f.slope * (b.x - a.x) - (b.y - a.y)))
    : ∀ p ∈ b :: rest, f.On s p := by
  induction rest generalizing a b with
  | nil =>
    intro p hp
    rw [List.mem_singleton] at hp
    subst hp
    unfold Line.On at *
    rw [f.eval_eq a.x p.x]
    linarith
  | cons c rest ih =>
    have hb : f.On s b := by
      unfold Line.On at *
      rw [f.eval_eq a.x b.x]
      linarith
    have hab : (a.x : K) < b.x := by
      have := (List.pairwise_cons.mp h.lt).1 b (by simp)
      exact_mod_cast this
    have hbc : (b.x : K) < c.x := by
      have := (List.pairwise_cons.mp (List.pairwise_cons.mp h.lt).2).1 c (by simp)
      exact_mod_cast this
    have hturn : (s : K) * ((b.x - a.x) * (c.y - a.y) - (b.y - a.y) * (c.x - a.x)) < 0 := by
      have := h.turn [] a b c rest rfl
      exact_mod_cast this
    have hleave' : 0 < (s : K) * (f.slope * (c.x - b.x) - (c.y - b.y)) := by
      have h1 : 0 < ((c.x : K) - b.x) * (s * (f.slope * (b.x - a.x) - (b.y - a.y))) :=
        mul_pos (by linarith) hleave
      have hid : ((b.x : K) - a.x) * (s * (f.slope * (c.x - b.x) - (c.y - b.y)))
          = (c.x - b.x) * (s * (f.slope * (b.x - a.x) - (b.y - a.y)))
            - s * ((b.x - a.x) * (c.y - a.y) - (b.y - a.y) * (c.x - a.x)) := by
        ring
      have h2 : 0 < ((b.x : K) - a.x) * (s * (f.slope * (c.x - b.x) - (c.y - b.y))) := by
        rw [hid]
        linarith
      exact (mul_pos_iff_of_pos_left (by linarith)).mp h2
    intro p hp
    rcases List.mem_cons.mp hp with rfl | hp
    . exact hb
    . exact ih h.of_cons hb hleave' p hp

/--
What `scan` returns: an end of the chain, from a point whose slope to `q` is the best of all. A point
straight above or below `q` is never chosen.
-/
theorem scan_spec {s : Int} {q h : Point} {tl : List Point} (hchain : Chain s (h :: tl))
    (hh : h.x < q.x)
    (htl : ∀ p ∈ tl, p.x < q.x ∨ (p.x = q.x ∧ 0 < s * (q.y - p.y)))
    : ∃ pre h' rest, scan s q h tl = h' :: rest ∧ h :: tl = pre ++ h' :: rest ∧ h'.x < q.x
        ∧ (s : K) * slopeTo K q h' ≤ s * slopeTo K q h
        ∧ ∀ p ∈ h :: tl, (Line.through q (slopeTo K q h')).On s p := by
  induction tl generalizing h with
  | nil =>
    refine ⟨[], h, [], rfl, rfl, hh, le_refl _, ?_⟩
    intro p hp
    rw [List.mem_singleton] at hp
    subst hp
    exact (on_through_iff hh).mpr (le_refl _)
  | cons h₁ rest ih =>
    unfold scan
    split
    . next hbreak =>
      -- the slope gets worse: all later points are left behind
      refine ⟨[], h, h₁ :: rest, rfl, rfl, hh, le_refl _, ?_⟩
      have hon : (Line.through q (slopeTo K q h)).On s h := (on_through_iff hh).mpr (le_refl _)
      have hmul := slopeTo_mul (K := K) (sub_ne_zero_of_lt hh)
      have hpos : (0 : K) < q.x - h.x := by
        have : (h.x : K) < q.x := by exact_mod_cast hh
        linarith
      have hleave : 0 < (s : K) * ((Line.through q (slopeTo K q h)).slope * (h₁.x - h.x)
          - (h₁.y - h.y)) := by
        have hbreak' : (0 : K)
            < s * ((h₁.y - q.y) * (h.x - q.x) - (h₁.x - q.x) * (h.y - q.y)) := by
          exact_mod_cast hbreak
        have hid : ((q.x : K) - h.x) * (s * (slopeTo K q h * (h₁.x - h.x) - (h₁.y - h.y)))
            = s * ((h₁.y - q.y) * (h.x - q.x) - (h₁.x - q.x) * (h.y - q.y)) := by
          linear_combination ((s : K) * (h₁.x - h.x)) * hmul
        rw [← hid] at hbreak'
        exact (mul_pos_iff_of_pos_left hpos).mp hbreak'
      intro p hp
      rcases List.mem_cons.mp hp with rfl | hp
      . exact hon
      . exact hchain.on_of_leaving hon hleave p hp
    . next hgo =>
      have hh₁ : h₁.x < q.x := by
        rcases htl h₁ (by simp) with hlt | ⟨heq, hside⟩
        . exact hlt
        . exfalso
          apply hgo
          have hid : s * ((h₁.y - q.y) * (h.x - q.x) - (h₁.x - q.x) * (h.y - q.y))
              = (s * (q.y - h₁.y)) * (q.x - h.x) := by
            rw [heq]
            ring
          rw [hid]
          exact mul_pos hside (by omega)
      obtain ⟨pre, h', rest', hscan, hsplit, hh', hslope, hon⟩ :=
        ih hchain.of_cons hh₁ (fun p hp => htl p (by simp [hp]))
      have hbetter : (s : K) * slopeTo K q h₁ ≤ s * slopeTo K q h := by
        apply le_of_not_gt
        intro hlt
        exact hgo ((slopeTo_lt_iff hh hh₁).mpr hlt)
      refine ⟨h :: pre, h', rest', hscan, by simp [hsplit], hh', le_trans hslope hbetter, ?_⟩
      intro p hp
      rcases List.mem_cons.mp hp with rfl | hp
      . exact (on_through_iff hh).mpr (le_trans hslope hbetter)
      . exact hon p hp

theorem pop_spec {s : Int} {p : Point} {l : List Point}
    (hlt : l.Pairwise (fun a b => b.x < a.x)) (hp : ∀ b ∈ l, b.x < p.x)
    : ∃ gone, l = gone ++ pop s p l
        ∧ (l ≠ [] → pop s p l ≠ [])
        ∧ (∀ a b rest, pop s p l = b :: a :: rest → s * cross a b p < 0)
        ∧ ∀ f : Line K, f.On s p → (∀ b ∈ pop s p l, f.On s b) → ∀ b ∈ l, f.On s b := by
  induction l with
  | nil => exact ⟨[], rfl, fun h => h, by simp [pop], fun _ _ h => h⟩
  | cons b l ih =>
    cases l with
    | nil => exact ⟨[], rfl, fun _ => by simp [pop], by simp [pop], fun _ _ h => h⟩
    | cons a rest =>
      unfold pop
      split
      . next hcross =>
        obtain ⟨hb, hlt'⟩ := List.pairwise_cons.mp hlt
        obtain ⟨gone, hgone, hne, hturn, hon⟩ := ih hlt' (fun c hc => hp c (by simp [hc]))
        refine ⟨b :: gone, ?_, fun _ => hne (by simp), hturn, ?_⟩
        . rw [List.cons_append, ← hgone]
        . intro f hfp hf c hc
          have hall := hon f hfp hf
          rcases List.mem_cons.mp hc with rfl | hc
          . exact Line.On.of_cross (hb a (by simp)) (hp c (by simp)) hcross (hall a (by simp)) hfp
          . exact hall c hc
      . next hcross =>
        refine ⟨[], rfl, fun _ => by simp, ?_, fun _ _ h => h⟩
        intro a' b' rest' heq
        simp only [List.cons.injEq] at heq
        obtain ⟨rfl, rfl, rfl⟩ := heq
        omega

theorem push_spec {s : Int} {p h : Point} {tl : List Point} (hchain : Chain s (h :: tl))
    (hp : ∀ b ∈ h :: tl, b.x < p.x)
    : ∃ tl', push s (h :: tl) p = h :: tl' ∧ Chain s (h :: tl')
        ∧ (∀ b ∈ h :: tl', b = p ∨ b ∈ h :: tl)
        ∧ p ∈ h :: tl'
        ∧ ∀ f : Line K, (∀ b ∈ h :: tl', f.On s b) → ∀ b ∈ h :: tl, f.On s b := by
  have hlt : (h :: tl).reverse.Pairwise (fun a b => b.x < a.x) := by
    rw [List.pairwise_reverse]
    exact hchain.lt
  obtain ⟨gone, hgone, hne, hturn, hon⟩ :=
    pop_spec (K := K) (s := s) (p := p) hlt (fun b hb => hp b (List.mem_reverse.mp hb))
  -- what remains is a front part of the chain, so it begins with `h`
  have hfront : h :: tl = (pop s p (h :: tl).reverse).reverse ++ gone.reverse := by
    have := congrArg List.reverse hgone
    rwa [List.reverse_reverse, List.reverse_append] at this
  have hne' : (pop s p (h :: tl).reverse).reverse ≠ [] := by
    simpa using hne (by simp)
  unfold push
  generalize hres : (pop s p (h :: tl).reverse).reverse = front at hfront hne'
  have hpop : pop s p (h :: tl).reverse = front.reverse := by
    rw [← hres, List.reverse_reverse]
  rw [hpop] at hturn hon
  cases front with
  | nil => exact absurd rfl hne'
  | cons h' front =>
    rw [List.cons_append, List.cons.injEq] at hfront
    obtain ⟨rfl, htl⟩ := hfront
    have hsub : ∀ b ∈ h :: front, b ∈ h :: tl := by
      intro b hb
      rw [htl]
      rcases List.mem_cons.mp hb with rfl | hb
      . simp
      . simp [hb]
    have hsplit : h :: tl = (h :: front) ++ gone.reverse := by rw [htl, List.cons_append]
    refine ⟨front ++ [p], rfl, ⟨?_, ?_⟩, ?_, by simp, ?_⟩
    . rw [← List.cons_append, List.pairwise_append]
      refine ⟨?_, by simp, ?_⟩
      . have := hchain.lt
        rw [hsplit] at this
        exact (List.pairwise_append.mp this).1
      . intro b hb c hc
        rw [List.mem_singleton] at hc
        subst hc
        exact hp b (hsub b hb)
    . intro l₁ a b c l₂ heq
      rw [← List.cons_append] at heq
      rcases List.eq_nil_or_concat l₂ with rfl | ⟨l₂', d, rfl⟩
      . -- the corner at the new point
        have heq' : (h :: front) ++ [p] = (l₁ ++ [a, b]) ++ [c] := by simpa using heq
        obtain ⟨hfr, hpc⟩ := List.append_inj' heq' rfl
        simp only [List.cons.injEq, and_true] at hpc
        subst hpc
        apply hturn a b l₁.reverse
        rw [hfr]
        simp
      . have heq' : (h :: front) ++ [p] = (l₁ ++ a :: b :: c :: l₂') ++ [d] := by
          simpa using heq
        obtain ⟨hfr, -⟩ := List.append_inj' heq' rfl
        apply hchain.turn l₁ a b c (l₂' ++ gone.reverse)
        rw [hsplit, hfr]
        simp
    . intro b hb
      rw [← List.cons_append, List.mem_append, List.mem_singleton] at hb
      rcases hb with hb | rfl
      . exact .inr (hsub b hb)
      . exact .inl rfl
    . intro f hf b hb
      have hfp : f.On s p := hf p (by simp)
      apply hon f hfp
      . intro c hc
        apply hf c
        rw [List.mem_reverse] at hc
        rw [← List.cons_append, List.mem_append]
        exact .inl hc
      . rwa [List.mem_reverse]

end

end Hull

import Rolex.Model.PlrLemmas

/-!
This module contains what a sequence of calls to `add_point` decides: a point is added as long as one
line serves all points so far, and the rectangle holds the lines of least and of greatest slope.
-/

namespace Rolex

open Hull

namespace Plr

section Extreme

variable {f g : Line Rat} {a b x : Rat}

theorem slope_le_of_le (hab : a < b) (ha : f.eval a ≤ g.eval a) (hb : g.eval b ≤ f.eval b)
    : g.slope ≤ f.slope := by
  have hf := f.eval_eq a b
  have hg := g.eval_eq a b
  have : g.slope * (b - a) ≤ f.slope * (b - a) := by linarith
  exact le_of_mul_le_mul_right this (by linarith)

theorem eval_le_of_le (hab : a < b) (ha : f.eval a ≤ g.eval a) (hb : g.eval b ≤ f.eval b)
    (hx : b ≤ x)
    : g.eval x ≤ f.eval x := by
  have hslope := slope_le_of_le hab ha hb
  rw [f.eval_eq b x, g.eval_eq b x]
  have := mul_le_mul_of_nonneg_right hslope (show 0 ≤ x - b by linarith)
  linarith

variable {pts : List Point} {o : Plr} {flat steep : Line Rat}

theorem Inv.flattest (h : Inv pts o flat steep) (hf : Serves o.epsilon pts f)
    : flat.slope ≤ f.slope ∧ ∀ x : Rat, o.rectangle.p2.x ≤ x → flat.eval x ≤ f.eval x := by
  obtain ⟨tl, hupper⟩ := h.wedge.farSide.head
  obtain ⟨a, ha, hp0⟩ := List.mem_map.mp (h.wedge.farSide.sub o.rectangle.p0 (by simp [hupper]))
  obtain ⟨b, hb, hp2⟩ := List.mem_map.mp h.wedge.memN
  have hlt : (o.rectangle.p0.x : Rat) < o.rectangle.p2.x := by exact_mod_cast h.flat.lt
  have hfa : f.eval o.rectangle.p0.x ≤ flat.eval o.rectangle.p0.x := by
    rw [h.flat.left, ← hp0]
    exact (hf a ha).2
  have hfb : flat.eval o.rectangle.p2.x ≤ f.eval o.rectangle.p2.x := by
    rw [h.flat.right, ← hp2]
    exact (hf b hb).1
  exact ⟨slope_le_of_le hlt hfa hfb, fun x hx => eval_le_of_le hlt hfa hfb hx⟩

theorem Inv.steepest (h : Inv pts o flat steep) (hf : Serves o.epsilon pts f)
    : f.slope ≤ steep.slope ∧ ∀ x : Rat, o.rectangle.p3.x ≤ x → f.eval x ≤ steep.eval x := by
  obtain ⟨tl, hlower⟩ := h.wedge.nearSide.head
  obtain ⟨a, ha, hp1⟩ := List.mem_map.mp (h.wedge.nearSide.sub o.rectangle.p1 (by simp [hlower]))
  obtain ⟨b, hb, hp3⟩ := List.mem_map.mp h.wedge.memF
  have hlt : (o.rectangle.p1.x : Rat) < o.rectangle.p3.x := by exact_mod_cast h.steep.lt
  have hfa : steep.eval o.rectangle.p1.x ≤ f.eval o.rectangle.p1.x := by
    rw [h.steep.left, ← hp1]
    exact (hf a ha).1
  have hfb : f.eval o.rectangle.p3.x ≤ steep.eval o.rectangle.p3.x := by
    rw [h.steep.right, ← hp3]
    exact (hf b hb).2
  exact ⟨slope_le_of_le hlt hfa hfb, fun x hx => eval_le_of_le hlt hfa hfb hx⟩

theorem Inv.not_serves {x y : Int} {o' : Plr} (h : Inv pts o flat steep) (hx : o.lastX < x)
    (ho' : o.addPoint x y = some (false, o')) (f : Line Rat)
    : ¬Serves o.epsilon (⟨x, y⟩ :: pts) f := by
  intro hf
  have hpts : Serves o.epsilon pts f := fun p hp => hf p (List.mem_cons_of_mem _ hp)
  obtain ⟨hbelow, habove⟩ := hf ⟨x, y⟩ List.mem_cons_self
  obtain ⟨b, hb, hp2⟩ := List.mem_map.mp h.wedge.memN
  obtain ⟨c, hc, hp3⟩ := List.mem_map.mp h.wedge.memF
  have hflat : (o.rectangle.p2.x : Rat) ≤ x := by
    rw [← hp2]
    exact_mod_cast (h.last b hb).trans hx.le
  have hsteep : (o.rectangle.p3.x : Rat) ≤ x := by
    rw [← hp3]
    exact_mod_cast (h.last c hc).trans hx.le
  have htwo := h.two
  obtain ⟨n, hn⟩ : ∃ n, o.pointsInHull = n + 2 := ⟨o.pointsInHull - 2, by omega⟩
  unfold addPoint at ho'
  rw [if_neg (by omega)] at ho'
  simp only [hn] at ho'
  split at ho'
  . next hout =>
    rw [Bool.or_eq_true, h.flat.slope_lt_iff h.flat.right, h.steep.slope_gt_iff h.steep.right] at hout
    rcases hout with hout | hout
    . have := (h.flattest hpts).2 x hflat
      exact absurd (hout.trans_le this) (not_lt.mpr habove)
    . have := (h.steepest hpts).2 x hsteep
      exact absurd (this.trans_lt hout) (not_lt.mpr hbelow)
  . simp only [Option.bind_eq_bind, Option.bind_eq_some_iff, Option.some.injEq, Prod.mk.injEq,
      Bool.true_eq_false, false_and, and_false, exists_false] at ho'

end Extreme

/-- The state in which the points `pts` have been added, the last one first. -/
inductive Fitted (epsilon : Int) : List Point → Plr → Prop where
  | none : Fitted epsilon [] (new epsilon)
  | one {o : Plr} {p : Point} (lower : o.lower = [below epsilon p.x p.y])
      (upper : o.upper = [above epsilon p.x p.y]) (p0 : o.rectangle.p0 = above epsilon p.x p.y)
      (p1 : o.rectangle.p1 = below epsilon p.x p.y) (heps : o.epsilon = epsilon)
      (lastX : o.lastX = p.x) (num : o.pointsInHull = 1) : Fitted epsilon [p] o
  | more {o : Plr} {p q : Point} {pts : List Point} {flat steep : Line Rat}
      (inv : Inv (p :: q :: pts) o flat steep) (heps : o.epsilon = epsilon) (lastX : o.lastX = p.x)
      : Fitted epsilon (p :: q :: pts) o

section Run

variable {epsilon : Int} {pts : List Point} {p : Point} {o : Plr}

theorem Fitted.addPoint (h : Fitted epsilon pts o) (heps : 0 ≤ epsilon) (heps' : epsilon ≤ maxY)
    (hpos : ∀ q ∈ p :: pts, 0 ≤ q.y ∧ q.y ≤ maxY) (hx : ∀ q ∈ pts, q.x < p.x)
    : ∃ added o', o.addPoint p.x p.y = some (added, o')
        ∧ ((added = true ∧ Fitted epsilon (p :: pts) o')
            ∨ (added = false ∧ o'.getSegment = o.getSegment
                ∧ ∀ f, ¬Serves epsilon (p :: pts) f)) := by
  cases h with
  | none => exact ⟨true, _, rfl, .inl ⟨rfl, .one rfl rfl rfl rfl rfl rfl rfl⟩⟩
  | @one _ a lower upper p0 p1 heps'' lastX num =>
    have hlt : a.x < p.x := hx a (by simp)
    obtain ⟨flat, steep, hinv⟩ := inv_two heps heps' hlt (hpos a (by simp)) (hpos p (by simp)) _ rfl
    refine ⟨true, _, ?_, .inl ⟨rfl, .more hinv rfl rfl⟩⟩
    rcases o with ⟨e, lo, up, last, n, ⟨q0, q1, q2, q3⟩⟩
    simp only at lower upper p0 p1 heps'' lastX num
    subst lower upper p0 p1 heps'' lastX num
    rw [Plr.addPoint, if_neg (by simpa using hlt)]
    rfl
  | @more _ a b rest flat steep inv heps'' lastX =>
    subst heps''
    have hlt : o.lastX < p.x := by
      rw [lastX]
      exact hx a (by simp)
    obtain ⟨added, o', ho', hcase⟩ := addPoint_spec heps heps' inv
      (fun q hq => hpos q (List.mem_cons_of_mem _ hq)) hlt (hpos p (by simp))
    refine ⟨added, o', ho', ?_⟩
    rcases hcase with ⟨rfl, hrect, hnum⟩ | ⟨rfl, heps', hlast', flat', steep', hinv'⟩
    . have := inv.two
      refine .inr ⟨rfl, ?_, inv.not_serves hlt ho'⟩
      rw [getSegment, getSegment, if_neg (by omega), if_neg (by omega), hrect]
    . exact .inl ⟨rfl, .more hinv' heps' hlast'⟩

theorem Fitted.line (h : Fitted epsilon (p :: pts) o) (heps : 0 ≤ epsilon) (heps' : epsilon ≤ maxY)
    (hpos : 0 ≤ p.y ∧ p.y ≤ maxY)
    : ∃ f : Line Rat, o.getSegment.getSlopeIntercept = (f.slope, f.icept)
        ∧ Serves epsilon (p :: pts) f ∧ (Segment (p :: pts) → 0 ≤ f.slope) := by
  cases h with
  | one lower upper p0 p1 heps'' lastX num =>
    have hle := below_le_above heps hpos heps' p.x
    refine ⟨⟨0, (((above epsilon p.x p.y).y + (below epsilon p.x p.y).y) / 2 : Int)⟩, ?_, ?_,
      fun _ => le_refl _⟩
    . rw [getSegment, if_pos num, p0, p1, Rectangle.getSlopeIntercept, Rectangle.onePoint,
        if_pos (by simp)]
    . intro q hq
      obtain rfl : q = p := by simpa using hq
      simp only [Line.eval, zero_mul, zero_add, Int.cast_le]
      omega
  | @more _ _ b rest flat steep inv heps'' lastX =>
    have htwo := inv.two
    subst heps''
    rw [getSegment, if_neg (by omega)]
    obtain ⟨f, hf, hserves, hslope⟩ := inv.line
    exact ⟨f, hf, hserves, hslope⟩

def addPoints (o : Plr) : List Point → Option Plr
  | [] => some o
  | p :: pts =>
    match o.addPoint p.x p.y with
    | some (true, o') => o'.addPoints pts
    | _ => none

theorem Fitted.addPoints {o' : Plr} (h : Fitted epsilon pts o) (heps : 0 ≤ epsilon)
    (heps' : epsilon ≤ maxY) (rest : List Point)
    (hpos : ∀ q ∈ pts.reverse ++ rest, 0 ≤ q.y ∧ q.y ≤ maxY)
    (hx : (pts.reverse ++ rest).Pairwise (fun a b => a.x < b.x)) (ho' : o.addPoints rest = some o')
    : Fitted epsilon (rest.reverse ++ pts) o' := by
  induction rest generalizing pts o with
  | nil =>
    cases ho'
    exact h
  | cons p rest ih =>
    have hbefore : ∀ q ∈ pts, q.x < p.x := by
      intro q hq
      exact (List.pairwise_append.mp hx).2.2 q (List.mem_reverse.mpr hq) p (by simp)
    obtain ⟨added, o₁, ho₁, hcase⟩ := h.addPoint heps heps' (p := p)
      (fun q hq => hpos q (by simpa [or_assoc, or_left_comm] using Or.inl hq)) hbefore
    have hsplit : pts.reverse ++ p :: rest = (p :: pts).reverse ++ rest := by simp
    rw [hsplit] at hpos hx
    unfold Plr.addPoints at ho'
    rw [ho₁] at ho'
    rcases hcase with ⟨rfl, hfit⟩ | ⟨rfl, -, -⟩
    . simpa using ih hfit hpos hx ho'
    . cases ho'

end Run

/-- A line within the tolerance of all points. -/
def Fits (epsilon : Int) (pts : List Point) (f : Line Rat) : Prop :=
  ∀ p ∈ pts, max 0 ((p.y : Rat) - epsilon) ≤ f.eval p.x ∧ f.eval p.x ≤ p.y + epsilon

/-- Where the sums are those of the integers, the bounds of `add_point` are the tolerance. -/
theorem serves_iff_fits {epsilon : Int} {pts : List Point} {f : Line Rat}
    (hexact : ∀ p ∈ pts, 0 ≤ p.y ∧ p.y + epsilon ≤ maxY)
    : Serves epsilon pts f ↔ Fits epsilon pts f := by
  have hbelow : ∀ p : Point, ((below epsilon p.x p.y).y : Rat) = max 0 ((p.y : Rat) - epsilon) := by
    intro p
    have : (below epsilon p.x p.y).y = max 0 (p.y - epsilon) := by
      unfold below
      dsimp only
      split <;> omega
    rw [this]
    push_cast
    rfl
  have habove : ∀ p ∈ pts, ((above epsilon p.x p.y).y : Rat) = p.y + epsilon := by
    intro p hp
    have := (hexact p hp).2
    have : (above epsilon p.x p.y).y = p.y + epsilon := by
      unfold above
      dsimp only
      split <;> omega
    rw [this]
    push_cast
    rfl
  constructor
  . intro h p hp
    rw [← hbelow, ← habove p hp]
    exact h p hp
  . intro h p hp
    rw [hbelow, habove p hp]
    exact h p hp

/-- `add_point` decides whether one line fits all points, and knows the extreme lines that do. -/
theorem addPoint_optimal (epsilon : Int) (heps : 0 ≤ epsilon) (pts : List Point) (next : Point)
    (hx : (pts ++ [next]).Pairwise (fun a b => a.x < b.x))
    (hexact : ∀ p ∈ pts ++ [next], 0 ≤ p.y ∧ p.y + epsilon ≤ maxY)
    (o : Plr) (ho : (new epsilon).addPoints pts = some o)
    : (∃ added o', o.addPoint next.x next.y = some (added, o')
          ∧ (added = true ↔ ∃ f, Fits epsilon (pts ++ [next]) f))
        ∧ (pts ≠ [] → ∃ f : Line Rat, o.getSegment.getSlopeIntercept = (f.slope, f.icept)
            ∧ Fits epsilon pts f)
        ∧ (2 ≤ pts.length → ∃ flat steep, Passes flat o.rectangle.p0 o.rectangle.p2
            ∧ Passes steep o.rectangle.p1 o.rectangle.p3
            ∧ Fits epsilon pts flat ∧ Fits epsilon pts steep
            ∧ ∀ f, Fits epsilon pts f → flat.slope ≤ f.slope ∧ f.slope ≤ steep.slope) := by
  have heps' : epsilon ≤ maxY := by
    have := hexact next (by simp)
    omega
  have hpos : ∀ p ∈ pts ++ [next], 0 ≤ p.y ∧ p.y ≤ maxY := by
    intro p hp
    have := hexact p hp
    omega
  have hfit := Fitted.none.addPoints heps heps' pts
    (fun p hp => hpos p (List.mem_append_left _ hp)) (List.pairwise_append.mp hx).1 ho
  rw [List.append_nil] at hfit
  have hserves : ∀ f, Serves epsilon pts.reverse f ↔ Fits epsilon pts f := by
    intro f
    rw [← serves_iff_fits (fun p hp => hexact p (List.mem_append_left _ hp))]
    simp only [Serves, List.mem_reverse]
  have hserves' : ∀ f, Serves epsilon (next :: pts.reverse) f ↔ Fits epsilon (pts ++ [next]) f := by
    intro f
    rw [← serves_iff_fits hexact]
    simp only [Serves, List.mem_cons, List.mem_reverse, List.mem_append, List.not_mem_nil, or_false]
    simp only [or_comm]
  refine ⟨?_, ?_, ?_⟩
  . have hbefore : ∀ q ∈ pts.reverse, q.x < next.x := by
      intro q hq
      exact (List.pairwise_append.mp hx).2.2 q (List.mem_reverse.mp hq) next (by simp)
    obtain ⟨added, o', ho', hcase⟩ := hfit.addPoint heps heps' (p := next)
      (fun q hq => hpos q (by simpa [or_comm] using hq)) hbefore
    refine ⟨added, o', ho', ?_⟩
    rcases hcase with ⟨rfl, hfit'⟩ | ⟨rfl, -, hnot⟩
    . obtain ⟨f, -, hf, -⟩ := hfit'.line heps heps' (hpos next (by simp))
      exact ⟨fun _ => ⟨f, (hserves' f).mp hf⟩, fun _ => rfl⟩
    . refine ⟨fun h => absurd h Bool.false_ne_true, ?_⟩
      rintro ⟨f, hf⟩
      exact absurd ((hserves' f).mpr hf) (hnot f)
  . intro hne
    obtain ⟨p, rest, hrev⟩ := List.exists_cons_of_ne_nil (List.reverse_ne_nil_iff.mpr hne)
    rw [hrev] at hfit
    obtain ⟨f, hf, hs, -⟩ := hfit.line heps heps' (hpos p (by
      have : p ∈ pts.reverse := by simp [hrev]
      simpa using Or.inl (List.mem_reverse.mp this)))
    exact ⟨f, hf, (hserves f).mp (hrev ▸ hs)⟩
  . intro htwo
    generalize hrev : pts.reverse = rev at hfit hserves
    have hlen : 2 ≤ rev.length := by rw [← hrev, List.length_reverse]; exact htwo
    cases hfit with
    | none => simp at hlen
    | one => simp at hlen
    | more inv heps'' lastX =>
      subst heps''
      refine ⟨_, _, inv.flat, inv.steep, (hserves _).mp inv.serves.1, (hserves _).mp inv.serves.2, ?_⟩
      intro f hf
      have hf := (hserves f).mpr hf
      exact ⟨(inv.flattest hf).1, (inv.steepest hf).1⟩

-- no line fits the third point too
theorem addPoint_optimal_three
    : ∃ o, (new 1).addPoints [⟨1, 0⟩, ⟨2, 1⟩] = some o
        ∧ (∃ o', o.addPoint 3 9 = some (false, o') ∧ ¬ ∃ f, Fits 1 ([⟨1, 0⟩, ⟨2, 1⟩] ++ [⟨3, 9⟩]) f)
        ∧ (∃ f : Line Rat, o.getSegment.getSlopeIntercept = (f.slope, f.icept) ∧ Fits 1 [⟨1, 0⟩, ⟨2, 1⟩] f)
        ∧ ∃ flat steep, Passes flat o.rectangle.p0 o.rectangle.p2 ∧ Passes steep o.rectangle.p1 o.rectangle.p3
            ∧ Fits 1 [⟨1, 0⟩, ⟨2, 1⟩] flat ∧ Fits 1 [⟨1, 0⟩, ⟨2, 1⟩] steep
            ∧ ∀ f, Fits 1 [⟨1, 0⟩, ⟨2, 1⟩] f → flat.slope ≤ f.slope ∧ f.slope ≤ steep.slope := by
  obtain ⟨o, ho, o', ho'⟩ : ∃ o, (new 1).addPoints [⟨1, 0⟩, ⟨2, 1⟩] = some o
      ∧ ∃ o', o.addPoint 3 9 = some (false, o') :=
    ⟨_, rfl, _, rfl⟩
  obtain ⟨⟨added, o'', ho'', hiff⟩, hline, hextreme⟩ :=
    addPoint_optimal 1 (by decide) [⟨1, 0⟩, ⟨2, 1⟩] ⟨3, 9⟩ (by decide) (by decide) o ho
  cases ho'.symm.trans ho''
  exact ⟨o, ho, ⟨o', ho', fun h => Bool.false_ne_true (hiff.mpr h)⟩, hline (by simp), hextreme (by decide)⟩

end Plr

end Rolex

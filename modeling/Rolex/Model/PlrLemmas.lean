import Rolex.Model.Plr
import Rolex.Lib.Wedge

/-!
This module contains the correctness of `add_point`: its rectangle holds the flattest and the steepest
line that serve all points of a segment, so that the line of the segment serves them too, and does not
fall.
-/

namespace Rolex

open Hull

/-- A line through `a` and `b`. -/
structure Passes (f : Line Rat) (a b : Point) : Prop where
  lt : a.x < b.x
  left : f.eval a.x = a.y
  right : f.eval b.x = b.y

namespace Passes

variable {f : Line Rat} {a b : Point}

theorem slope_mul (h : Passes f a b) : f.slope * (b.x - a.x) = b.y - a.y := by
  have := f.eval_eq a.x b.x
  rw [h.left, h.right] at this
  linarith

theorem pos (h : Passes f a b) : (0 : Rat) < b.x - a.x := by
  have : (a.x : Rat) < b.x := by exact_mod_cast h.lt
  linarith

theorem slope_eq (h : Passes f a b) : (slope b a).toRat = f.slope := by
  have hne : ((b.x : Rat) - a.x) ≠ 0 := ne_of_gt h.pos
  unfold Slope.toRat slope
  push_cast
  rw [← h.slope_mul]
  field_simp

theorem cross_eq (h : Passes f a b) {c : Point} (hc : f.eval c.x = c.y) (q : Point)
    : ((q.x : Rat) - c.x) * (b.y - a.y) - (q.y - c.y) * (b.x - a.x)
        =
      (f.eval q.x - q.y) * (b.x - a.x) := by
  rw [f.eval_eq c.x q.x, hc]
  linear_combination (-((q.x : Rat) - c.x)) * h.slope_mul

theorem slope_lt_iff (h : Passes f a b) {c : Point} (hc : f.eval c.x = c.y) (q : Point)
    : (slope q c).lt (slope b a) = true ↔ (q.y : Rat) < f.eval q.x := by
  have hpos := h.pos
  have hid := h.cross_eq hc q
  have hcast : (slope q c).lt (slope b a) = true
      ↔ ((q.y : Rat) - c.y) * (b.x - a.x) < (q.x - c.x) * (b.y - a.y) := by
    have : (slope q c).lt (slope b a) = true
        ↔ (q.y - c.y) * (b.x - a.x) < (q.x - c.x) * (b.y - a.y) := decide_eq_true_iff
    rw [this, ← Int.cast_lt (R := Rat)]
    push_cast
    rfl
  rw [hcast]
  constructor
  . intro hlt
    have : 0 < (f.eval q.x - q.y) * (b.x - a.x) := by
      rw [← hid]
      linarith
    have := (mul_pos_iff_of_pos_right hpos).mp this
    linarith
  . intro hlt
    have : 0 < (f.eval q.x - q.y) * (b.x - a.x) := mul_pos (by linarith) hpos
    rw [← hid] at this
    linarith

theorem slope_gt_iff (h : Passes f a b) {c : Point} (hc : f.eval c.x = c.y) (q : Point)
    : (slope q c).gt (slope b a) = true ↔ f.eval q.x < (q.y : Rat) := by
  have hpos := h.pos
  have hid := h.cross_eq hc q
  have hcast : (slope q c).gt (slope b a) = true
      ↔ ((q.x : Rat) - c.x) * (b.y - a.y) < (q.y - c.y) * (b.x - a.x) := by
    have : (slope q c).gt (slope b a) = true
        ↔ (q.x - c.x) * (b.y - a.y) < (q.y - c.y) * (b.x - a.x) := decide_eq_true_iff
    rw [this, ← Int.cast_lt (R := Rat)]
    push_cast
    rfl
  rw [hcast]
  constructor
  . intro hlt
    have : 0 < (q.y - f.eval q.x) * ((b.x : Rat) - a.x) := by linarith
    have := (mul_pos_iff_of_pos_right hpos).mp this
    linarith
  . intro hlt
    have : 0 < (q.y - f.eval q.x) * ((b.x : Rat) - a.x) := mul_pos (by linarith) hpos
    linarith

theorem exists_of_lt (h : a.x < b.x) : ∃ f : Line Rat, Passes f a b := by
  have hmul := slopeTo_mul (K := Rat) (sub_ne_zero_of_lt h)
  refine ⟨Line.through b (slopeTo Rat b a), h, ?_, ?_⟩
  . rw [Line.eval_through]
    linear_combination -hmul
  . rw [Line.eval_through]
    ring

end Passes

namespace Plr

theorem below_le_above {epsilon y : Int} (heps : 0 ≤ epsilon) (hy : 0 ≤ y ∧ y ≤ maxY)
    (heps' : epsilon ≤ maxY) (x : Int)
    : (below epsilon x y).y ≤ (above epsilon x y).y := by
  unfold below above
  dsimp only
  split
  . split <;> omega
  . split <;> omega

theorem below_eq_above_iff {epsilon y : Int} (heps : 0 ≤ epsilon) (hy : 0 ≤ y ∧ y ≤ maxY)
    (heps' : epsilon ≤ maxY) (x : Int)
    : (below epsilon x y).y = (above epsilon x y).y ↔ epsilon = 0 := by
  unfold below above
  dsimp only
  split
  . split <;> unfold maxY at * <;> omega
  . split <;> omega

theorem above_mono {epsilon y y' : Int} (h : y ≤ y') (x x' : Int)
    : (above epsilon x y).y ≤ (above epsilon x' y').y := by
  unfold above
  dsimp only
  split
  . split <;> omega
  . split <;> omega

theorem below_mono {epsilon y y' : Int} (h : y ≤ y') (x x' : Int)
    : (below epsilon x y).y ≤ (below epsilon x' y').y := by
  unfold below
  dsimp only
  split
  . split <;> omega
  . split <;> omega

/-- The points of a segment: the positions are those of a vector and grow with the keys. -/
structure Segment (pts : List Point) : Prop where
  mono : ∀ p ∈ pts, ∀ q ∈ pts, p.x < q.x → p.y ≤ q.y
  pos : ∀ p ∈ pts, 0 ≤ p.y ∧ p.y ≤ maxY

/-- A line that serves all points. -/
def Serves (epsilon : Int) (pts : List Point) (f : Line Rat) : Prop :=
  ∀ p ∈ pts, ((below epsilon p.x p.y).y : Rat) ≤ f.eval p.x
    ∧ f.eval p.x ≤ ((above epsilon p.x p.y).y : Rat)

def lowers (epsilon : Int) (pts : List Point) : List Point :=
  pts.map (fun p => below epsilon p.x p.y)

def uppers (epsilon : Int) (pts : List Point) : List Point :=
  pts.map (fun p => above epsilon p.x p.y)

/-- The state of a segment of at least two points, between its flattest and its steepest line. -/
structure Inv (pts : List Point) (o : Plr) (flat steep : Line Rat) : Prop where
  wedge : Wedge 1 flat steep o.lower (lowers o.epsilon pts) o.rectangle.p1 o.rectangle.p2
    o.upper (uppers o.epsilon pts) o.rectangle.p0 o.rectangle.p3
  last : ∀ p ∈ pts, p.x ≤ o.lastX
  two : 2 ≤ o.pointsInHull

theorem Inv.flat {pts : List Point} {o : Plr} {flat steep : Line Rat} (h : Inv pts o flat steep)
    : Passes flat o.rectangle.p0 o.rectangle.p2 := ⟨h.wedge.ltO, h.wedge.oF, h.wedge.oN⟩

theorem Inv.steep {pts : List Point} {o : Plr} {flat steep : Line Rat} (h : Inv pts o flat steep)
    : Passes steep o.rectangle.p1 o.rectangle.p3 := ⟨h.wedge.ltM, h.wedge.mN, h.wedge.mF⟩

theorem on_one_iff {f : Line Rat} {p : Point} : f.On 1 p ↔ (p.y : Rat) ≤ f.eval p.x := by
  unfold Line.On
  push_cast
  constructor
  . intro h
    linarith
  . intro h
    linarith

theorem on_neg_one_iff {f : Line Rat} {p : Point} : f.On (-1) p ↔ f.eval p.x ≤ (p.y : Rat) := by
  unfold Line.On
  push_cast
  constructor
  . intro h
    linarith
  . intro h
    linarith

theorem Inv.serves {pts : List Point} {o : Plr} {flat steep : Line Rat} (h : Inv pts o flat steep)
    : Serves o.epsilon pts flat ∧ Serves o.epsilon pts steep := by
  have hlow := fun p hp => h.wedge.onNear (below o.epsilon p.x p.y) (List.mem_map.mpr ⟨p, hp, rfl⟩)
  have hup := fun p hp => h.wedge.onFar (above o.epsilon p.x p.y) (List.mem_map.mpr ⟨p, hp, rfl⟩)
  constructor
  . intro p hp
    exact ⟨on_one_iff.mp (hlow p hp).1, on_neg_one_iff.mp (hup p hp).1⟩
  . intro p hp
    exact ⟨on_one_iff.mp (hlow p hp).2, on_neg_one_iff.mp (hup p hp).2⟩

theorem inv_two {epsilon : Int} (heps : 0 ≤ epsilon) (heps' : epsilon ≤ maxY) {a b : Point}
    (hab : a.x < b.x) (ha : 0 ≤ a.y ∧ a.y ≤ maxY) (hb : 0 ≤ b.y ∧ b.y ≤ maxY) (o : Plr)
    (ho : o = ⟨epsilon, [below epsilon a.x a.y, below epsilon b.x b.y],
      [above epsilon a.x a.y, above epsilon b.x b.y], b.x, 2,
      ⟨above epsilon a.x a.y, below epsilon a.x a.y, below epsilon b.x b.y, above epsilon b.x b.y⟩⟩)
    : ∃ flat steep, Inv [b, a] o flat steep := by
  subst ho
  have hla : ((below epsilon a.x a.y).y : Rat) ≤ (above epsilon a.x a.y).y := by
    exact_mod_cast below_le_above heps ha heps' a.x
  have hlb : ((below epsilon b.x b.y).y : Rat) ≤ (above epsilon b.x b.y).y := by
    exact_mod_cast below_le_above heps hb heps' b.x
  obtain ⟨flat, hflat⟩ := Passes.exists_of_lt
    (show (above epsilon a.x a.y).x < (below epsilon b.x b.y).x from hab)
  obtain ⟨steep, hsteep⟩ := Passes.exists_of_lt
    (show (below epsilon a.x a.y).x < (above epsilon b.x b.y).x from hab)
  have hslopes : flat.slope ≤ steep.slope := by
    have h1 := hflat.slope_mul
    have h2 := hsteep.slope_mul
    have hpos : (0 : Rat) < b.x - a.x := hflat.pos
    have : (flat.slope - steep.slope) * (b.x - a.x) ≤ 0 := by
      have hx1 : ((below epsilon b.x b.y).x : Rat) = b.x := rfl
      have hx2 : ((above epsilon a.x a.y).x : Rat) = a.x := rfl
      have hx3 : ((above epsilon b.x b.y).x : Rat) = b.x := rfl
      have hx4 : ((below epsilon a.x a.y).x : Rat) = a.x := rfl
      rw [hx1, hx2] at h1
      rw [hx3, hx4] at h2
      linarith
    by_contra hlt
    have := mul_pos (show 0 < flat.slope - steep.slope by linarith) hpos
    linarith
  have hside : ∀ {s : Int} {O M : Line Rat} {p q : Point}, p.x < q.x →
      Hull.Side s O M [p, q] [q, p] p := by
    intro s O M p q hpq
    refine ⟨⟨[q], rfl⟩, ⟨by simpa using hpq, ?_⟩, by simp [or_comm], ?_⟩
    . intro l₁ c d e l₂ heq
      have := congrArg List.length heq
      simp at this
      omega
    . intro f _ _ hact r hr
      apply hact
      simpa [or_comm] using hr
  -- each line meets its corners and lies between the bounds at the others
  have hfa := hflat.left
  have hfb := hflat.right
  have hsa := hsteep.left
  have hsb := hsteep.right
  refine ⟨flat, steep, ⟨⟨hside hab, hside hab, hsa, hsb, hfa, hfb, by simp [uppers],
    by simp [lowers], hab, hab, by simpa using hslopes, ?_, ?_⟩, ?_, Nat.le_refl _⟩⟩
  . intro p hp
    simp only [lowers, List.map_cons, List.map_nil, List.mem_cons, List.not_mem_nil, or_false] at hp
    rcases hp with rfl | rfl
    . exact ⟨on_one_iff.mpr hfb.ge, on_one_iff.mpr (hlb.trans hsb.ge)⟩
    . exact ⟨on_one_iff.mpr (hla.trans hfa.ge), on_one_iff.mpr hsa.ge⟩
  . intro p hp
    simp only [uppers, List.map_cons, List.map_nil, List.mem_cons, List.not_mem_nil, or_false] at hp
    rcases hp with rfl | rfl
    . exact ⟨on_neg_one_iff.mpr (hfb.le.trans hlb), on_neg_one_iff.mpr hsb.le⟩
    . exact ⟨on_neg_one_iff.mpr hfa.le, on_neg_one_iff.mpr (hsa.le.trans hla)⟩
  . intro p hp
    simp only [List.mem_cons, List.not_mem_nil, or_false] at hp
    rcases hp with rfl | rfl
    . exact le_refl _
    . exact hab.le

section Step

variable {pts : List Point} {o : Plr} {flat steep : Line Rat} {x y : Int}

theorem turnSteepest_spec {near far : List Point} {q : Point}
    (w : Wedge 1 flat steep o.lower near o.rectangle.p1 o.rectangle.p2
      o.upper far o.rectangle.p0 o.rectangle.p3)
    (hnear : ∀ p ∈ near, p.x < q.x) (hfar : ∀ p ∈ far, p.x < q.x)
    (hflat : flat.eval q.x ≤ (q.y : Rat))
    : ∃ o' steep', o.turnSteepest q = some o'
        ∧ o'.epsilon = o.epsilon ∧ o'.lastX = o.lastX
        ∧ o'.rectangle.p0 = o.rectangle.p0 ∧ o'.rectangle.p2 = o.rectangle.p2
        ∧ Wedge 1 flat steep' o'.lower near o'.rectangle.p1 o'.rectangle.p2
            o'.upper (q :: far) o'.rectangle.p0 o'.rectangle.p3
        ∧ (steep' = steep ∨ steep'.eval q.x = q.y) := by
  have hpass : Passes steep o.rectangle.p1 o.rectangle.p3 := ⟨w.ltM, w.mN, w.mF⟩
  have htest := hpass.slope_lt_iff hpass.left q
  have hO : (0 : Rat) ≤ ((1 : Int) : Rat) * (q.y - flat.eval q.x) := by
    push_cast
    linarith
  unfold turnSteepest
  dsimp only
  split
  . next hlt =>
    have hM : (0 : Rat) < ((1 : Int) : Rat) * (steep.eval q.x - q.y) := by
      have := htest.mp hlt
      push_cast
      linarith
    obtain ⟨tl, hlower⟩ := w.nearSide.head
    have w' := w
    rw [hlower] at w'
    obtain ⟨steep', h', rest, hscan, w''⟩ := w'.swing (fun p hp => .inl (hnear p hp)) hfar hO hM
    rw [hlower]
    dsimp only
    rw [hscan]
    exact ⟨_, steep', rfl, rfl, rfl, rfl, rfl, w'', .inr w''.mF⟩
  . next hge =>
    have hM : ((1 : Int) : Rat) * (steep.eval q.x - q.y) ≤ 0 := by
      have := not_lt.mp (fun hlt => hge (htest.mpr hlt))
      push_cast
      linarith
    exact ⟨o, steep, rfl, rfl, rfl, rfl, rfl, w.keep hfar hO hM, .inl rfl⟩

theorem turnFlattest_spec {near far : List Point} {q : Point}
    (w : Wedge 1 flat steep o.lower near o.rectangle.p1 o.rectangle.p2
      o.upper far o.rectangle.p0 o.rectangle.p3)
    (hnear : ∀ p ∈ near, p.x < q.x)
    (hfar : ∀ p ∈ far, p.x < q.x ∨ (p.x = q.x ∧ (flat.eval q.x < q.y → q.y < p.y)))
    (hsteep : (q.y : Rat) ≤ steep.eval q.x)
    : ∃ o' flat', o.turnFlattest (slope o.rectangle.p2 o.rectangle.p0) q = some o'
        ∧ o'.epsilon = o.epsilon ∧ o'.lastX = o.lastX
        ∧ Wedge 1 flat' steep o'.lower (q :: near) o'.rectangle.p1 o'.rectangle.p2
            o'.upper far o'.rectangle.p0 o'.rectangle.p3 := by
  have hpass : Passes flat o.rectangle.p0 o.rectangle.p2 := ⟨w.ltO, w.oF, w.oN⟩
  have htest := hpass.slope_gt_iff hpass.left q
  have hO : (0 : Rat) ≤ ((-1 : Int) : Rat) * (q.y - steep.eval q.x) := by
    push_cast
    linarith
  unfold turnFlattest
  dsimp only
  split
  . next hgt =>
    have hlt := htest.mp hgt
    have hM : (0 : Rat) < ((-1 : Int) : Rat) * (flat.eval q.x - q.y) := by
      push_cast
      linarith
    obtain ⟨tl, hupper⟩ := w.farSide.head
    have w' := w.symm
    rw [hupper] at w'
    obtain ⟨flat', h', rest, hscan, w''⟩ := w'.swing
      (fun p hp => (hfar p hp).imp id (fun h => ⟨h.1, by have := h.2 hlt; omega⟩)) hnear hO hM
    rw [hupper]
    dsimp only
    rw [hscan]
    exact ⟨_, flat', rfl, rfl, rfl, w''.symm⟩
  . next hle =>
    have hM : ((-1 : Int) : Rat) * (flat.eval q.x - q.y) ≤ 0 := by
      have := not_lt.mp (fun hgt => hle (htest.mpr hgt))
      push_cast
      linarith
    exact ⟨o, flat, rfl, rfl, rfl, (w.symm.keep hnear hO hM).symm⟩

theorem Inv.eval_eq_of_epsilon_eq_zero (h : Inv pts o flat steep)
    (hpos : ∀ p ∈ pts, 0 ≤ p.y ∧ p.y ≤ maxY) (hzero : o.epsilon = 0) (x : Rat)
    : flat.eval x = steep.eval x := by
  obtain ⟨hflat, hsteep⟩ := h.serves
  obtain ⟨a, ha, hp0⟩ := List.mem_map.mp (h.wedge.farSide.sub o.rectangle.p0 (by
    obtain ⟨tl, hupper⟩ := h.wedge.farSide.head
    rw [hupper]
    simp))
  obtain ⟨b, hb, hp2⟩ := List.mem_map.mp h.wedge.memN
  have hab : (a.x : Rat) < b.x := by
    have := h.wedge.ltO
    rw [← hp0, ← hp2] at this
    exact_mod_cast this
  have hmeet : ∀ p ∈ pts, flat.eval p.x = steep.eval p.x := by
    intro p hp
    have heq := (below_eq_above_iff hzero.ge (hpos p hp) (by unfold maxY; omega) p.x).mpr hzero
    have heq' : ((below o.epsilon p.x p.y).y : Rat) = (above o.epsilon p.x p.y).y := by
      exact_mod_cast heq
    have hf := hflat p hp
    have hs := hsteep p hp
    linarith
  have hslope : flat.slope = steep.slope := by
    have hf := flat.eval_eq a.x b.x
    have hs := steep.eval_eq a.x b.x
    rw [hmeet a ha, hmeet b hb, hs] at hf
    apply mul_right_cancel₀ (sub_ne_zero_of_ne hab.ne')
    linarith
  rw [flat.eval_eq a.x, steep.eval_eq a.x, hmeet a ha, hslope]

theorem addPoint_spec (heps : 0 ≤ o.epsilon) (heps' : o.epsilon ≤ maxY) (h : Inv pts o flat steep)
    (hpos : ∀ p ∈ pts, 0 ≤ p.y ∧ p.y ≤ maxY) (hx : o.lastX < x) (hy : 0 ≤ y ∧ y ≤ maxY)
    : ∃ ok o', o.addPoint x y = some (ok, o')
        ∧ ((ok = false ∧ o'.rectangle = o.rectangle ∧ o'.pointsInHull = 0)
            ∨ (ok = true ∧ o'.epsilon = o.epsilon ∧ o'.lastX = x
                ∧ ∃ flat' steep', Inv (⟨x, y⟩ :: pts) o' flat' steep')) := by
  have hle := below_le_above heps hy heps' x
  have hle' : ((below o.epsilon x y).y : Rat) ≤ (above o.epsilon x y).y := by exact_mod_cast hle
  have hlast : ∀ p ∈ pts, p.x < x := fun p hp => lt_of_le_of_lt (h.last p hp) hx
  unfold addPoint
  rw [if_neg (by omega)]
  have htwo := h.two
  obtain ⟨n, hn⟩ : ∃ n, o.pointsInHull = n + 2 := ⟨o.pointsInHull - 2, by omega⟩
  simp only [hn]
  split
  . exact ⟨_, _, rfl, .inl ⟨rfl, rfl, rfl⟩⟩
  . next hin =>
    simp only [Bool.or_eq_true, not_or, Bool.not_eq_true] at hin
    have hflat : flat.eval x ≤ (above o.epsilon x y).y := by
      have := h.flat.slope_lt_iff h.flat.right (above o.epsilon x y)
      rw [hin.1] at this
      exact not_lt.mp (fun hlt => absurd (this.mpr hlt) (by simp))
    have hsteep : ((below o.epsilon x y).y : Rat) ≤ steep.eval x := by
      have := h.steep.slope_gt_iff h.steep.right (below o.epsilon x y)
      rw [hin.2] at this
      exact not_lt.mp (fun hlt => absurd (this.mpr hlt) (by simp))
    -- only with a tolerance the two bounds differ, and only then a line turns
    have hstrict : flat.eval x < (below o.epsilon x y).y →
        (below o.epsilon x y).y < (above o.epsilon x y).y := by
      intro hbelow
      apply lt_of_le_of_ne hle
      intro heq
      have hzero := (below_eq_above_iff heps hy heps' x).mp heq
      have := h.eval_eq_of_epsilon_eq_zero hpos hzero x
      linarith
    obtain ⟨o₁, steep₁, h₁, heps₁, hlast₁, hp0, hp2, w₁, hsteep₁⟩ :=
      turnSteepest_spec (o := { o with lastX := x }) (q := above o.epsilon x y) h.wedge
        (fun p hp => by
          obtain ⟨r, hr, rfl⟩ := List.mem_map.mp hp
          exact hlast r hr)
        (fun p hp => by
          obtain ⟨r, hr, rfl⟩ := List.mem_map.mp hp
          exact hlast r hr)
        hflat
    obtain ⟨o₂, flat₂, h₂, heps₂, hlast₂, w₂⟩ :=
      turnFlattest_spec (q := below o.epsilon x y) w₁
        (fun p hp => by
          obtain ⟨r, hr, rfl⟩ := List.mem_map.mp hp
          exact hlast r hr)
        (fun p hp => by
          rcases List.mem_cons.mp hp with rfl | hp
          . exact .inr ⟨rfl, hstrict⟩
          . obtain ⟨r, hr, rfl⟩ := List.mem_map.mp hp
            exact .inl (hlast r hr))
        (by
          rcases hsteep₁ with rfl | heq
          . exact hsteep
          . exact hle'.trans heq.ge)
    rw [hp0, hp2] at h₂
    simp only [hn] at h₁ h₂
    refine ⟨true, { o₂ with pointsInHull := n + 2 + 1 }, ?_, .inr ⟨rfl, ?_, ?_, flat₂, steep₁, ?_⟩⟩
    . simp only [h₁, Option.bind_eq_bind, Option.bind_some, h₂]
    . exact heps₂.trans heps₁
    . exact hlast₂.trans hlast₁
    . have heps₂' : o₂.epsilon = o.epsilon := heps₂.trans heps₁
      refine ⟨?_, ?_, by dsimp only; omega⟩
      . dsimp only
        rw [heps₂']
        exact w₂
      . intro p hp
        dsimp only
        rw [hlast₂, hlast₁]
        rcases List.mem_cons.mp hp with rfl | hp
        . exact le_refl _
        . exact (hlast p hp).le

end Step

def mid (f g : Line Rat) : Line Rat := ⟨(f.slope + g.slope) / 2, (f.icept + g.icept) / 2⟩

theorem eval_mid (f g : Line Rat) (x : Rat) : (mid f g).eval x = (f.eval x + g.eval x) / 2 := by
  simp only [mid, Line.eval]
  ring

theorem getSlopeIntercept_eq {r : Rectangle} {flat steep : Line Rat} (hflat : Passes flat r.p0 r.p2)
    (hsteep : Passes steep r.p1 r.p3)
    : ∃ f : Line Rat, r.getSlopeIntercept = (f.slope, f.icept)
        ∧ f.slope = (flat.slope + steep.slope) / 2
        ∧ ((f = flat ∧ flat.slope = steep.slope) ∨ f = mid flat steep) := by
  have hone : r.onePoint = false := by
    simp only [Rectangle.onePoint, decide_eq_false_iff_not, not_and]
    intro heq
    have := hflat.lt
    rw [heq] at this
    exact absurd this (lt_irrefl _)
  have hrange : r.getSlopeRange = (flat.slope, steep.slope) := by
    rw [Rectangle.getSlopeRange, hone, hflat.slope_eq, hsteep.slope_eq]
    rfl
  have hm1 := hflat.slope_mul
  have hm2 := hsteep.slope_mul
  have hp1 := hflat.pos
  have hp2 := hsteep.pos
  have heq : (slope r.p2 r.p0).eq (slope r.p3 r.p1) = true ↔ flat.slope = steep.slope := by
    have : (slope r.p2 r.p0).eq (slope r.p3 r.p1) = true
        ↔ (r.p2.y - r.p0.y) * (r.p3.x - r.p1.x) = (r.p2.x - r.p0.x) * (r.p3.y - r.p1.y) :=
      decide_eq_true_iff
    rw [this, ← Int.cast_inj (α := Rat)]
    push_cast
    rw [← hm1, ← hm2]
    have hne : ((r.p2.x : Rat) - r.p0.x) * (r.p3.x - r.p1.x) ≠ 0 :=
      mul_ne_zero (ne_of_gt hp1) (ne_of_gt hp2)
    constructor
    . intro h
      apply mul_right_cancel₀ hne
      linear_combination h
    . intro h
      rw [h]
      ring
  unfold Rectangle.getSlopeIntercept
  rw [hone]
  simp only [Bool.false_eq_true, if_false, hrange]
  refine ⟨⟨(flat.slope + steep.slope) / 2, _⟩, rfl, rfl, ?_⟩
  unfold Rectangle.getIntersection
  simp only [hone, Bool.false_or]
  split
  . next hs =>
    -- parallel lines: the intersection is a corner of the flattest
    have hslope := heq.mp hs
    left
    refine ⟨?_, hslope⟩
    have hl := hflat.left
    rcases flat with ⟨s1, i1⟩
    simp only [Line.eval] at hl hslope ⊢
    rw [← hslope]
    congr 1
    . ring
    . linear_combination -hl
  . next hs =>
    right
    have hne : flat.slope ≠ steep.slope := fun h => hs (heq.mpr h)
    have hl1 := hflat.left
    have hl2 := hsteep.left
    unfold mid
    congr 1
    simp only [slope]
    push_cast
    have ha : ((r.p2.x : Rat) - r.p0.x) * (r.p3.y - r.p1.y) - (r.p2.y - r.p0.y) * (r.p3.x - r.p1.x)
        ≠ 0 := by
      rw [← hm1, ← hm2]
      intro h0
      apply hne
      have hprod : ((r.p2.x : Rat) - r.p0.x) * (r.p3.x - r.p1.x) ≠ 0 :=
        mul_ne_zero (ne_of_gt hp1) (ne_of_gt hp2)
      apply mul_right_cancel₀ hprod
      linear_combination -h0
    generalize hb : (((r.p1.x : Rat) - r.p0.x) * (r.p3.y - r.p1.y)
      - (r.p1.y - r.p0.y) * (r.p3.x - r.p1.x))
      / ((r.p2.x - r.p0.x) * (r.p3.y - r.p1.y) - (r.p2.y - r.p0.y) * (r.p3.x - r.p1.x)) = b
    have hb' : b * ((r.p2.x - r.p0.x) * (r.p3.y - r.p1.y) - (r.p2.y - r.p0.y) * (r.p3.x - r.p1.x))
        = (r.p1.x - r.p0.x) * (r.p3.y - r.p1.y) - (r.p1.y - r.p0.y) * (r.p3.x - r.p1.x) := by
      rw [← hb]
      exact div_mul_cancel₀ _ ha
    -- the point lies on both lines
    have h1 : flat.eval (r.p0.x + b * (r.p2.x - r.p0.x)) = r.p0.y + b * (r.p2.y - r.p0.y) := by
      rw [flat.eval_eq r.p0.x, hl1, ← hm1]
      ring
    have h2 : steep.eval (r.p0.x + b * (r.p2.x - r.p0.x)) = r.p0.y + b * (r.p2.y - r.p0.y) := by
      rw [steep.eval_eq r.p1.x, hl2]
      apply mul_right_cancel₀ (ne_of_gt hp2)
      linear_combination hb' + (r.p0.x + b * (r.p2.x - r.p0.x) - r.p1.x) * hm2
    simp only [Line.eval] at h1 h2
    linear_combination (-(1 / 2 : Rat)) * h1 - (1 / 2 : Rat) * h2

theorem Inv.line {pts : List Point} {o : Plr} {flat steep : Line Rat} (h : Inv pts o flat steep)
    : ∃ f : Line Rat, o.rectangle.getSlopeIntercept = (f.slope, f.icept)
        ∧ Serves o.epsilon pts f ∧ (Segment pts → 0 ≤ f.slope) := by
  obtain ⟨f, hf, hslope, hcase⟩ := getSlopeIntercept_eq h.flat h.steep
  obtain ⟨hflat, hsteep⟩ := h.serves
  refine ⟨f, hf, ?_, ?_⟩
  . intro p hp
    obtain ⟨h1, h2⟩ := hflat p hp
    obtain ⟨h3, h4⟩ := hsteep p hp
    rcases hcase with ⟨rfl, -⟩ | rfl
    . exact ⟨h1, h2⟩
    . rw [eval_mid]
      exact ⟨by linarith, by linarith⟩
  . intro hseg
    -- the steepest line rises from below `a` to above `b`, the flattest falls by no more
    obtain ⟨a, ha, hp1⟩ := List.mem_map.mp (h.wedge.nearSide.sub o.rectangle.p1 (by
      obtain ⟨tl, hlower⟩ := h.wedge.nearSide.head
      rw [hlower]
      simp))
    obtain ⟨b, hb, hp3⟩ := List.mem_map.mp h.wedge.memF
    have hab : a.x < b.x := by
      have := h.wedge.ltM
      rw [← hp1, ← hp3] at this
      exact this
    have hy := hseg.mono a ha b hb hab
    have hsm := h.steep.slope_mul
    rw [← hp1, ← hp3] at hsm
    have h1 := (hflat a ha).2
    have h2 := (hflat b hb).1
    have h3 : ((above o.epsilon a.x a.y).y : Rat) ≤ (above o.epsilon b.x b.y).y := by
      exact_mod_cast above_mono hy a.x b.x
    have h4 : ((below o.epsilon a.x a.y).y : Rat) ≤ (below o.epsilon b.x b.y).y := by
      exact_mod_cast below_mono hy a.x b.x
    have hpos : (0 : Rat) < b.x - a.x := by
      have : (a.x : Rat) < b.x := by exact_mod_cast hab
      linarith
    have hfm := flat.eval_eq a.x b.x
    have hxa : ((below o.epsilon a.x a.y).x : Rat) = a.x := rfl
    have hxb : ((above o.epsilon b.x b.y).x : Rat) = b.x := rfl
    rw [hxa, hxb] at hsm
    have hsum : 0 ≤ (flat.slope + steep.slope) * (b.x - a.x) := by
      linarith
    have := nonneg_of_mul_nonneg_left hsum hpos
    rw [hslope]
    linarith

end Plr

end Rolex

import Rolex.Lib.Hull
import Mathlib.Data.Rat.Defs
import Mathlib.Algebra.Order.Ring.Rat

/-!
This module contains the piecewise linear regression of `plr.hpp`: `PLR::add_point`, which extends a
segment by a point as long as one line can serve all of its points, and the line that
`CanonicalSegment` chooses. Coordinates are unbounded, slopes and intercepts exact.
-/

namespace Rolex

open Hull

structure Slope where
  dx : Int
  dy : Int
  deriving DecidableEq

/-- `Point::operator-`. -/
def slope (a p : Point) : Slope := ⟨a.x - p.x, a.y - p.y⟩

namespace Slope

def lt (a p : Slope) : Bool := a.dy * p.dx < a.dx * p.dy
def gt (a p : Slope) : Bool := a.dy * p.dx > a.dx * p.dy
def eq (a p : Slope) : Bool := a.dy * p.dx = a.dx * p.dy

/-- `explicit operator long double`. -/
def toRat (a : Slope) : Rat := a.dy / a.dx

end Slope

structure Rectangle where
  p0 : Point
  p1 : Point
  p2 : Point
  p3 : Point
  deriving DecidableEq

/--
`PLR`. The vectors `lower` and `upper` are kept from `lower_start` and `upper_start` on, what comes
before is never read again.
-/
structure Plr where
  epsilon : Int
  lower : List Point
  upper : List Point
  lastX : Int
  pointsInHull : Nat
  rectangle : Rectangle
  deriving DecidableEq

namespace Plr

def new (epsilon : Int) : Plr := ⟨epsilon, [], [], 0, 0, ⟨⟨0, 0⟩, ⟨0, 0⟩, ⟨0, 0⟩, ⟨0, 0⟩⟩⟩

/-- `std::numeric_limits<size_t>::max()`. -/
def maxY : Int := 2 ^ 64 - 1

/-- The point `p1` of `add_point`: what a line may not exceed. -/
def above (epsilon x y : Int) : Point := ⟨x, if y ≥ maxY - epsilon then maxY else y + epsilon⟩

/-- The point `p2` of `add_point`: what a line has to reach. -/
def below (epsilon x y : Int) : Point := ⟨x, if y ≤ 0 + epsilon then 0 else y - epsilon⟩

/-- The first half of the update: `p1` cuts off the steepest line. -/
def turnSteepest (o : Plr) (p1 : Point) : Option Plr :=
  let r := o.rectangle
  if (slope p1 r.p1).lt (slope r.p3 r.p1) then
    match o.lower with
    | [] => none
    | h :: tl =>
      -- find extreme slope, then hull update
      match scan 1 p1 h tl with
      | [] => none
      | h' :: rest =>
        some { o with
          rectangle := { r with p1 := h', p3 := p1 }
          lower := h' :: rest
          upper := push (-1) o.upper p1 }
  else
    some o

/-- The second half: `p2` cuts off the flattest line, whose slope was `slope1` before the update. -/
def turnFlattest (o : Plr) (slope1 : Slope) (p2 : Point) : Option Plr :=
  let r := o.rectangle
  if (slope p2 r.p0).gt slope1 then
    match o.upper with
    | [] => none
    | h :: tl =>
      match scan (-1) p2 h tl with
      | [] => none
      | h' :: rest =>
        some { o with
          rectangle := { r with p0 := h', p2 := p2 }
          upper := h' :: rest
          lower := push 1 o.lower p2 }
  else
    some o

/--
`PLR::add_point`: whether the point could be added, and the state afterwards. `none` if the points do
not increase by `x`, when an exception is thrown.
-/
def addPoint (o : Plr) (x y : Int) : Option (Bool × Plr) :=
  if o.pointsInHull > 0 ∧ x ≤ o.lastX then
    none
  else
    let o := { o with lastX := x }
    let p1 := above o.epsilon x y
    let p2 := below o.epsilon x y
    let r := o.rectangle
    match o.pointsInHull with
    | 0 =>
      some (true, { o with
        rectangle := { r with p0 := p1, p1 := p2 }
        upper := [p1]
        lower := [p2]
        pointsInHull := 1 })
    | 1 =>
      some (true, { o with
        rectangle := { r with p2 := p2, p3 := p1 }
        upper := o.upper ++ [p1]
        lower := o.lower ++ [p2]
        pointsInHull := 2 })
    | n =>
      let slope1 := slope r.p2 r.p0
      let slope2 := slope r.p3 r.p1
      if (slope p1 r.p2).lt slope1 || (slope p2 r.p3).gt slope2 then
        some (false, { o with pointsInHull := 0 })
      else do
        let o ← o.turnSteepest p1
        let o ← o.turnFlattest slope1 p2
        some (true, { o with pointsInHull := n + 1 })

def getSegment (o : Plr) : Rectangle :=
  if o.pointsInHull = 1 then
    ⟨o.rectangle.p0, o.rectangle.p1, o.rectangle.p0, o.rectangle.p1⟩
  else
    o.rectangle

end Plr

namespace Rectangle

def onePoint (r : Rectangle) : Bool := r.p0 = r.p2 ∧ r.p1 = r.p3

def getIntersection (r : Rectangle) : Rat × Rat :=
  let slope1 := slope r.p2 r.p0
  let slope2 := slope r.p3 r.p1
  if r.onePoint || slope1.eq slope2 then
    (r.p0.x, r.p0.y)
  else
    let p0p1 := slope r.p1 r.p0
    let a := slope1.dx * slope2.dy - slope1.dy * slope2.dx
    let b : Rat := (p0p1.dx * slope2.dy - p0p1.dy * slope2.dx : Int) / a
    (r.p0.x + b * slope1.dx, r.p0.y + b * slope1.dy)

def getSlopeRange (r : Rectangle) : Rat × Rat :=
  if r.onePoint then (0, 1) else ((slope r.p2 r.p0).toRat, (slope r.p3 r.p1).toRat)

def getSlopeIntercept (r : Rectangle) : Rat × Rat :=
  if r.onePoint then
    (0, ((r.p0.y + r.p1.y) / 2 : Int))
  else
    let (iX, iY) := r.getIntersection
    let (minSlope, maxSlope) := r.getSlopeRange
    let slope := (minSlope + maxSlope) / 2
    (slope, iY - iX * slope)

end Rectangle

end Rolex

import Rolex.LeafAllocator
import Rolex.LinearModel

/-! `PLR` of `plr.hpp` for 64-bit unsigned `X` and `Y`. Differences of coordinates and their
products are exact; `long double` results are rounded by `extended`. -/

namespace Rolex

structure Slope where
  dx : ℤ
  dy : ℤ
  deriving DecidableEq

namespace Slope

def lt (s p : Slope) : Bool := decide (s.dy * p.dx < s.dx * p.dy)

def gt (s p : Slope) : Bool := decide (s.dy * p.dx > s.dx * p.dy)

def eq (s p : Slope) : Bool := decide (s.dy * p.dx = s.dx * p.dy)

variable {F : Type}

def toLongDouble (fmt : DoubleFormat F) (s : Slope) : ℚ :=
  fmt.extended (fmt.extended s.dy / fmt.extended s.dx)

end Slope

structure Point where
  x : ℕ
  y : ℕ
  deriving DecidableEq

def Point.sub (p q : Point) : Slope := ⟨(p.x : ℤ) - q.x, (p.y : ℤ) - q.y⟩

def cross (O A B : Point) : ℤ :=
  (A.sub O).dx * (B.sub O).dy - (A.sub O).dy * (B.sub O).dx

structure Rectangle where
  r0 : Point
  r1 : Point
  r2 : Point
  r3 : Point
  deriving DecidableEq

structure PLR where
  epsilon : ℕ
  lower : List Point
  upper : List Point
  firstX : ℕ
  lastX : ℕ
  lowerStart : ℕ
  upperStart : ℕ
  pointsInHull : ℕ
  rectangle : Rectangle
  deriving DecidableEq

structure CanonicalSegment where
  rectangle : Rectangle
  first : ℕ
  deriving DecidableEq

namespace PLR

def origin : Point := ⟨0, 0⟩

def construct (epsilon : ℕ) : PLR :=
  ⟨epsilon, [], [], 0, 0, 0, 0, 0, ⟨origin, origin, origin, origin⟩⟩

def maxY : ℕ := 2 ^ 64 - 1

/-- "Find extreme slope": the index of the last of the points from `i` on that is looked at
without the loop being left. -/
def findExtreme (beyond : Slope → Slope → Bool) (p : Point) : List Point → Slope → ℕ → ℕ
  | [], _, i => i
  | q :: rest, best, i =>
    if beyond (q.sub p) best then i else findExtreme beyond p rest (q.sub p) (i + 1)

def hullEnd (bad : Point → Point → Bool) (pts : List Point) (start : ℕ) : ℕ → ℕ
  | 0 => 0
  | e + 1 =>
    if e + 1 ≥ start + 2 ∧ bad (pts.getD (e - 1) origin) (pts.getD e origin) = true then
      hullEnd bad pts start e
    else e + 1

/-- The block of `if (p1 - rectangle[1] < slope2)`. -/
def addUpper (s : PLR) (p1 : Point) : PLR :=
  let minI := findExtreme Slope.gt p1 (s.lower.drop (s.lowerStart + 1))
    ((s.lower.getD s.lowerStart origin).sub p1) s.lowerStart
  let e := hullEnd (fun a b => decide (cross a b p1 ≤ 0)) s.upper s.upperStart s.upper.length
  { s with
    rectangle := { s.rectangle with r1 := s.lower.getD minI origin, r3 := p1 }
    lowerStart := minI
    upper := s.upper.take e ++ [p1] }

/-- The block of `if (p2 - rectangle[0] > slope1)`. -/
def addLower (s : PLR) (p2 : Point) : PLR :=
  let maxI := findExtreme Slope.lt p2 (s.upper.drop (s.upperStart + 1))
    ((s.upper.getD s.upperStart origin).sub p2) s.upperStart
  let e := hullEnd (fun a b => decide (cross a b p2 ≥ 0)) s.lower s.lowerStart s.lower.length
  { s with
    rectangle := { s.rectangle with r0 := s.upper.getD maxI origin, r2 := p2 }
    upperStart := maxI
    lower := s.lower.take e ++ [p2] }

def addFirst (s : PLR) (p1 p2 : Point) : PLR :=
  { s with
    firstX := p1.x
    rectangle := { s.rectangle with r0 := p1, r1 := p2 }
    upper := [p1]
    lower := [p2]
    upperStart := 0
    lowerStart := 0
    pointsInHull := s.pointsInHull + 1 }

def addSecond (s : PLR) (p1 p2 : Point) : PLR :=
  { s with
    rectangle := { s.rectangle with r2 := p2, r3 := p1 }
    upper := s.upper ++ [p1]
    lower := s.lower ++ [p2]
    pointsInHull := s.pointsInHull + 1 }

def addLater (s : PLR) (p1 p2 : Point) : Bool × PLR :=
  let slope1 := s.rectangle.r2.sub s.rectangle.r0
  let slope2 := s.rectangle.r3.sub s.rectangle.r1
  if ((p1.sub s.rectangle.r2).lt slope1 || (p2.sub s.rectangle.r3).gt slope2) = true then
    (false, { s with pointsInHull := 0 })
  else
    let s := if (p1.sub s.rectangle.r1).lt slope2 = true then s.addUpper p1 else s
    let s := if (p2.sub s.rectangle.r0).gt slope1 = true then s.addLower p2 else s
    (true, { s with pointsInHull := s.pointsInHull + 1 })

def addPoint (s : PLR) (x y : ℕ) : Except Fault (Bool × PLR) :=
  if s.pointsInHull > 0 ∧ x ≤ s.lastX then .error .pointsNotIncreasing
  else
    let s := { s with lastX := x }
    let p1 : Point := ⟨x, if y ≥ maxY - s.epsilon then maxY else y + s.epsilon⟩
    let p2 : Point := ⟨x, if y ≤ s.epsilon then 0 else y - s.epsilon⟩
    .ok (if s.pointsInHull = 0 then (true, s.addFirst p1 p2)
      else if s.pointsInHull = 1 then (true, s.addSecond p1 p2)
      else s.addLater p1 p2)

def getSegment (s : PLR) : CanonicalSegment :=
  if s.pointsInHull = 1 then
    ⟨⟨s.rectangle.r0, s.rectangle.r1, s.rectangle.r0, s.rectangle.r1⟩, s.firstX⟩
  else ⟨s.rectangle, s.firstX⟩

end PLR

namespace CanonicalSegment

variable {F : Type} (fmt : DoubleFormat F) (c : CanonicalSegment)

def onePoint : Bool := decide (c.rectangle.r0 = c.rectangle.r2 ∧ c.rectangle.r1 = c.rectangle.r3)

def getIntersection : ℚ × ℚ :=
  let p0 := c.rectangle.r0
  let p1 := c.rectangle.r1
  let slope1 := c.rectangle.r2.sub p0
  let slope2 := c.rectangle.r3.sub p1
  if (c.onePoint || slope1.eq slope2) = true then (fmt.extended p0.x, fmt.extended p0.y)
  else
    let p0p1 := p1.sub p0
    let a := slope1.dx * slope2.dy - slope1.dy * slope2.dx
    let b := fmt.extended
      (fmt.extended ((p0p1.dx * slope2.dy - p0p1.dy * slope2.dx : ℤ) : ℚ) / fmt.extended a)
    (fmt.extended (fmt.extended p0.x + fmt.extended (b * fmt.extended slope1.dx)),
      fmt.extended (fmt.extended p0.y + fmt.extended (b * fmt.extended slope1.dy)))

def getSlopeRange : ℚ × ℚ :=
  if c.onePoint = true then (0, 1)
  else ((c.rectangle.r2.sub c.rectangle.r0).toLongDouble fmt,
    (c.rectangle.r3.sub c.rectangle.r1).toLongDouble fmt)

def getSlopeIntercept : ℚ × ℚ :=
  if c.onePoint = true then
    (0, fmt.extended (((c.rectangle.r0.y + c.rectangle.r1.y) % 2 ^ 64 / 2 : ℕ) : ℚ))
  else
    let i := c.getIntersection fmt
    let range := c.getSlopeRange fmt
    let slope := fmt.extended (fmt.extended (range.1 + range.2) / 2)
    (slope, fmt.extended (i.2 - fmt.extended (i.1 * slope)))

end CanonicalSegment
end Rolex

import MeteredTree.Curve.Point

/-! Multiples of a point. The coordinates of a point are kept as fractions
x / z² and y / z³ while doubling and adding, so that a multiple takes a single
inversion at the end. -/

namespace MeteredTree.Curve

/-- A point in fractional coordinates; it is at infinity if `z` is zero. -/
structure Jacobian where
  x : Field
  y : Field
  z : Field
  deriving DecidableEq

namespace Jacobian

def infinity : Jacobian := ⟨.one, .one, .zero⟩

def ofAffine (x y : Field) : Jacobian := ⟨x, y, .one⟩

def toPoint (p : Jacobian) : Point :=
  if p.z = Field.zero then .infinity
  else
    let i := p.z.inverse
    let i₂ := i * i
    .affine (p.x * i₂) (p.y * (i₂ * i))

def double (p : Jacobian) : Jacobian :=
  let a := p.x * p.x
  let b := p.y * p.y
  let c := b * b
  let d := .ofNat 2 * ((p.x + b) * (p.x + b) - a - c)
  let e := .ofNat 3 * a
  let x := e * e - .ofNat 2 * d
  ⟨x, e * (d - x) - .ofNat 8 * c, .ofNat 2 * (p.y * p.z)⟩

/-- Adds a point that is given by its plain coordinates. -/
def addAffine (p : Jacobian) (x y : Field) : Jacobian :=
  if p.z = Field.zero then ofAffine x y
  else
    let zz := p.z * p.z
    let h := x * zz - p.x
    let r := y * (p.z * zz) - p.y
    if h = Field.zero then
      if r = Field.zero then p.double else infinity
    else
      let hh := h * h
      let hhh := h * hh
      let v := p.x * hh
      let x' := r * r - hhh - .ofNat 2 * v
      ⟨x', r * (v - x') - p.y * hhh, p.z * h⟩

/-- The sum of `n` copies of a point, by doubling. -/
def multiple (n : Nat) (x y : Field) : Jacobian :=
  if n = 0 then infinity
  else
    let twice := (multiple (n / 2) x y).double
    if n % 2 = 1 then twice.addAffine x y else twice
termination_by n
decreasing_by omega

end Jacobian

def Point.scale (n : Nat) : Point → Point
  | .infinity => .infinity
  | .affine x y => (Jacobian.multiple n x y).toPoint

end MeteredTree.Curve

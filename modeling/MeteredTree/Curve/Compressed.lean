import MeteredTree.Curve.Group
import MeteredTree.Curve.Jacobian

/-! The compressed form of a point: 48 bytes, the top three bits of which are
flags (compressed, infinity, larger y) and the rest the x coordinate. -/

namespace MeteredTree.Curve

open PointGroup (compressedLength)

namespace Point

/-- The flags stand above this power of two. -/
def flagUnit : Nat := Nat.pow 2 381

def compress : Point → Bytes
  | .infinity => Bytes.ofNat compressedLength (6 * flagUnit)
  | .affine x y =>
    Bytes.ofNat compressedLength ((if y.isLarger then 5 else 4) * flagUnit + x.val)

theorem length_compress (p : Point) : (compress p).length = compressedLength := by
  cases p with
  | infinity => exact Bytes.length_ofNat _ _
  | affine x y => exact Bytes.length_ofNat _ _

/-- The point with the given x coordinate whose y coordinate is the larger or
the smaller one. -/
def lift? (larger : Bool) (x : Nat) : Option Point :=
  if h : x < modulus then
    let x : Field := ⟨x, h⟩
    match (x * x * x + .ofNat 4 : Field).sqrt? with
    | none => none
    | some y => some (.affine x (if y.isLarger = larger then y else -y))
  else none

def inSubgroup (p : Point) : Bool :=
  p.scale order = .infinity

/-- Reads a point of the subgroup. Where y is zero, either flag gives the one
point that there is, and the subgroup leaves it out. -/
def decode? (bytes : Bytes) : Option Point :=
  let n := Bytes.toNat bytes
  let x := n % flagUnit
  match n / flagUnit with
  | 4 => (lift? false x).filter inSubgroup
  | 5 => (lift? true x).filter inSubgroup
  | 6 => if x = 0 then some .infinity else none
  | _ => none

end Point

/-- The subgroup of prime order with its compressed form. -/
def group : PointGroup where
  Point := Point
  identity := .infinity
  generator := .generator
  order := Point.order
  add := Point.add
  scale := Point.scale
  compress := Point.compress
  decode? := Point.decode?

def Point.decompress (bytes : Bytes) : Except PointError Point :=
  group.decompress bytes

end MeteredTree.Curve

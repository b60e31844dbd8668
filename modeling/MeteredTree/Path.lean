import MeteredTree.Cost.Prices
import MeteredTree.Error

/-! Paths into an environment. A path atom is a row of bits, taken from the
lowest bit of the last byte upward: 0 goes to the first and 1 to the rest, and
the highest bit that is set ends the path. -/

namespace MeteredTree.Path

/-- The lowest `n` bits of a byte, lowest first; true goes to the rest. -/
def lowBits : Nat → Nat → List Bool
  | 0, _ => []
  | n + 1, b => (b % 2 == 1) :: lowBits n (b / 2)

/-- The legs in one of the lower bytes of a path: all its bits. -/
def byteLegs (b : UInt8) : List Bool :=
  lowBits 8 b.toNat

/-- The legs in the highest byte of a path that is not zero: the bits below
its highest one. -/
def topLegs (b : UInt8) : List Bool :=
  lowBits b.toNat.log2 b.toNat

def leadingZeros (path : Bytes) : Nat :=
  (path.takeWhile (· == 0)).length

/-- The legs of a path in the order they are taken. -/
def legs (path : Bytes) : List Bool :=
  match path.dropWhile (· == 0) with
  | [] => []
  | top :: low => low.reverse.flatMap byteLegs ++ topLegs top

/-- Goes along the legs, each of which adds to the cost. -/
def follow : List Bool → Node → Cost → Response
  | [], node, cost => .ok ⟨cost, node⟩
  | toRest :: legs, .pair first rest, cost =>
    follow legs (if toRest then rest else first) (cost + Price.pathLeg)
  | _ :: _, .atom bytes, _ => fault .pathIntoAtom (.atom bytes)

/-- Looks up a path in an environment. A path without a set bit is the whole
environment. -/
def lookup (path : Bytes) (env : Node) : Response :=
  follow (legs path) env
    (Price.path + Price.pathLeg + UInt64.ofNat (leadingZeros path) * Price.pathZeroByte)

end MeteredTree.Path

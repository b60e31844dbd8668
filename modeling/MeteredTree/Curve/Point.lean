import MeteredTree.Curve.Field

/-! The points of the curve y² = x³ + 4 and their addition by chords and
tangents. -/

namespace MeteredTree.Curve

inductive Point
  | infinity
  | affine (x y : Field)
  deriving DecidableEq

namespace Point

/-- The third point on the line of the given slope through two points,
reflected. -/
def reflected (slope x₁ y₁ x₂ : Field) : Point :=
  let x := slope * slope - x₁ - x₂
  .affine x (slope * (x₁ - x) - y₁)

def add : Point → Point → Point
  | .infinity, q => q
  | p, .infinity => p
  | .affine x₁ y₁, .affine x₂ y₂ =>
    if x₁ = x₂ then
      if y₁ + y₂ = Field.zero then .infinity
      else reflected (.ofNat 3 * (x₁ * x₁) * (.ofNat 2 * y₁ : Field).inverse) x₁ y₁ x₂
    else reflected ((y₂ - y₁) * (x₂ - x₁).inverse) x₁ y₁ x₂

/-- The order of the subgroup that is used. -/
def order : Nat :=
  0x73eda753299d7d483339d80809a1d80553bda402fffe5bfeffffffff00000001

def generator : Point :=
  .affine
    (.ofNat 0x17f1d3a73197d7942695638c4fa9ac0fc3688c4f9774b905a14e3a3f171bac586c55e83ff97a1aeffb3af00adb22c6bb)
    (.ofNat 0x08b3f481e3aaa0f1a09e30ed741d8ae4fcf5e095d5d00af600db18cb2c04b3edd03cc744a2888ae40caa232946c5e7e1)

end Point

end MeteredTree.Curve

/-! The prime field under the curve. -/

namespace MeteredTree.Curve

/-- The characteristic; it leaves 3 on division by 4. -/
def modulus : Nat :=
  0x1a0111ea397fe69a4b1ba7b6434bacd764774b84f38512bf6730d2a0f6b0f6241eabfffeb153ffffb9feffffffffaaab

abbrev Field := Fin modulus

namespace Field

def ofNat (n : Nat) : Field :=
  ⟨n % modulus, Nat.mod_lt n (by decide)⟩

def zero : Field := ofNat 0

def one : Field := ofNat 1

def power (b : Field) (e : Nat) : Field :=
  if e = 0 then one
  else
    let h := power (b * b) (e / 2)
    if e % 2 = 1 then b * h else h
termination_by e
decreasing_by omega

/-- The inverse of a nonzero element, by the exponent of the unit group. -/
def inverse (a : Field) : Field :=
  a.power (modulus - 2)

def sqrt? (a : Field) : Option Field :=
  let y := a.power ((modulus + 1) / 4)
  if y * y = a then some y else none

/-- Whether an element is the larger of itself and its negative. -/
def isLarger (y : Field) : Bool :=
  modulus - y.val < y.val

end Field

end MeteredTree.Curve

import MeteredTree.Operator.Arguments

/-! Operators on integers of any size. Division rounds toward negative
infinity. -/

namespace MeteredTree.Operator

def sum (xs : List Operand) : Int :=
  xs.foldl (fun total x => total + x.value) 0

/-- The first operand less all the others. -/
def difference : List Operand → Int
  | [] => 0
  | x :: xs => xs.foldl (fun total x => total - x.value) x.value

def add (args : Node) : Response := do
  let xs ← Arguments.operands (.primitive .add) args
  return .newInteger (Price.arithmetic.ofOperands xs) (sum xs)

def subtract (args : Node) : Response := do
  let xs ← Arguments.operands (.primitive .subtract) args
  return .newInteger (Price.arithmetic.ofOperands xs) (difference xs)

/-- Multiplies `v`, of `width` bytes, by the operands in turn. A step is
priced by the bytes of the product so far and of the next operand. -/
def productFrom (v : Int) (width : Nat) (cost : Cost) : List Operand → Int × Cost
  | [] => (v, cost)
  | x :: xs =>
    productFrom (v * x.value) (Integer.limbs (v * x.value))
      (Cost.satAdd cost (Price.multiplication (UInt64.ofNat width) (UInt64.ofNat x.width))) xs

def product : List Operand → Int × Cost
  | [] => (1, Price.multiply)
  | x :: xs => productFrom x.value x.width Price.multiply xs

def multiply (args : Node) : Response := do
  let xs ← Arguments.operands (.primitive .multiply) args
  let (v, cost) := product xs
  return .newInteger cost v

def divide (args : Node) : Response := do
  let (a, b) ← Arguments.twoOperands (.primitive .divide) args
  if b.value = 0 then
    .error (.divisionByZero .quotient (.atom (Integer.toBytes a.value)))
  else
    return .newInteger (Price.divide.plain 0 (a.width + b.width)) (a.value.fdiv b.value)

def divmod (args : Node) : Response := do
  let (a, b) ← Arguments.twoOperands (.primitive .divmod) args
  if b.value = 0 then
    .error (.divisionByZero .quotientRemainder (.atom (Integer.toBytes a.value)))
  else
    let q := Integer.toBytes (a.value.fdiv b.value)
    let r := Integer.toBytes (a.value.fmod b.value)
    return ⟨Price.divmod.plain 0 (a.width + b.width) + Price.allocation q.length +
      Price.allocation r.length, .pair (.atom q) (.atom r)⟩

def greater (args : Node) : Response := do
  let (a, b) ← Arguments.twoOperands (.primitive .greater) args
  return ⟨Price.greater.plain 0 (a.width + b.width), .ofBool (b.value < a.value)⟩

end MeteredTree.Operator

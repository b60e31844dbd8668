import MeteredTree.Operator.Arguments

/-! Operators that no table defines. Such an operator gives nil, but it is
charged: the top two bits of its last byte choose the shape of the cost, and
the bytes before it, as a number plus one, multiply it. -/

namespace MeteredTree.Operator

/-- The shape of the cost of an unknown operator. -/
inductive Shape
  | constant
  | sum
  | product
  | concat
  deriving DecidableEq

def Shape.ofByte (b : UInt8) : Shape :=
  if b < 0x40 then .constant
  else if b < 0x80 then .sum
  else if b < 0xc0 then .product
  else .concat

/-- The cost of multiplying on by byte strings of the given lengths, where
the length of a product is taken to be the sum of the lengths. -/
def productCost (width : Cost) (cost : Cost) : List Operand → Cost
  | [] => cost
  | x :: xs =>
    productCost (Cost.satAdd width (UInt64.ofNat x.width))
      (Cost.satAdd cost (Price.multiplication width (UInt64.ofNat x.width))) xs

def Shape.cost (args : Node) : Shape → Except EvalError Cost
  | .constant => .ok Price.unknown
  | .sum => return Price.arithmetic.ofOperands (← Arguments.operands .unknown args)
  | .product => do
    match ← Arguments.operands .unknown args with
    | [] => return Price.multiply
    | x :: xs => return productCost (UInt64.ofNat x.width) Price.multiply xs
  | .concat => return Price.concat.ofAtoms (← Arguments.atoms .unknown args)

/-- An operator atom has at most so many bytes. -/
def maxOperatorLength : Nat := 5

/-- Unknown operators cost less than this. -/
def unknownCeiling : Cost := 0x100000000

def unknown (op args : Node) : Response :=
  match op with
  | .pair _ _ => fault .operatorIsPair op
  | .atom [] => .error (.reserved .reserved op)
  | .atom (0xff :: 0xff :: _) => .error (.reserved .reserved op)
  | .atom (b :: bytes) => do
    if maxOperatorLength < bytes.length + 1 then
      .error (.reserved .tooLong op)
    else
      let multiplier := UInt64.ofNat (Bytes.toNat (b :: bytes).dropLast) + 1
      let cost ← (Shape.ofByte (bytes.getLastD b)).cost args
      let cost := Cost.satMul cost multiplier
      if cost < unknownCeiling then return ⟨cost, .nil⟩ else fault .invalidOperator op

def unimplemented (op _args : Node) : Response :=
  fault .unimplementedOperator op

end MeteredTree.Operator

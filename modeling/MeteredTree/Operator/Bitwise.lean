import MeteredTree.Operator.Arguments

/-! Shifts and bitwise operators. They act on the infinite two's-complement
form of their arguments, except that the logical shift reads the shifted
argument as an unsigned number. -/

namespace MeteredTree.Operator

/-- Shifts go at most so far. -/
def maxShift : Int := 65535

/-- The two arguments of a shift: what is shifted and how far. -/
def shiftArguments (p : Primitive) (args : Node) : Except EvalError (Operand × Int) := do
  let (a, b) ← Arguments.twoOperands (.primitive p) args
  if 4 < b.width then
    fault (.wideSmallInteger (.primitive p)) (args.items.getD 1 args)
  else if -maxShift ≤ b.value ∧ b.value ≤ maxShift then
    .ok (a, b.value)
  else
    fault .shiftTooLarge (.atom (Integer.toBytes b.value))

/-- The result of a shift, priced by the bytes that went in and came out. -/
def shifted (t : Tariff) (width : Nat) (v : Int) : Reduction :=
  .newInteger (t.plain 0 (width + Integer.limbs v)) v

def ash (args : Node) : Response := do
  let (a, amount) ← shiftArguments .ash args
  return shifted Price.arithmeticShift a.width (Integer.shift a.value amount)

def lsh (args : Node) : Response := do
  let (a, amount) ← shiftArguments .lsh args
  return shifted Price.logicalShift a.width (Integer.shift a.unsigned amount)

def combine (p : Primitive) (f : Int → Int → Int) (start : Int) (args : Node) : Response := do
  let xs ← Arguments.operands (.primitive p) args
  return .newInteger (Price.logic.ofOperands xs) (xs.foldl (fun total x => f total x.value) start)

def logand (args : Node) : Response := combine .logand Integer.and (-1) args

def logior (args : Node) : Response := combine .logior Integer.or 0 args

def logxor (args : Node) : Response := combine .logxor Integer.xor 0 args

def lognot (args : Node) : Response := do
  let a ← Arguments.oneOperand (.primitive .lognot) args
  return .newInteger (Price.lognot.plain 0 a.width) (Integer.not a.value)

end MeteredTree.Operator

import MeteredTree.Cost
import MeteredTree.Curve.Group
import MeteredTree.Operator.Primitive
import MeteredTree.Wire.Encode

/-! What can go wrong in an evaluation. A fault names its cause and carries
the node it is about; the wording is settled in one place. -/

namespace MeteredTree

/-- Who looks at arguments: a primitive, or the rule for unknown operators. -/
inductive Subject
  | primitive (p : Primitive)
  | unknown
  deriving DecidableEq

def Subject.name : Subject → String
  | .primitive p => p.keyword
  | .unknown => "unknown op"

inductive Fault
  /-- The wrong number of arguments where it is fixed. -/
  | argumentCount (subject : Subject) (expected : Nat)
  /-- A pair where any atom would do. -/
  | onList (subject : Subject)
  /-- A pair where an integer belongs. -/
  | notInteger (subject : Subject)
  /-- A pair where a small integer belongs. -/
  | notSmallInteger (subject : Subject)
  /-- More bytes than a small integer has. -/
  | wideSmallInteger (subject : Subject)
  | firstOfAtom
  | restOfAtom
  | pathIntoAtom
  | raised
  | shiftTooLarge
  | substrCount
  | substrIndices
  | softforkCount
  | softforkCost
  | point (cause : PointError)
  | notPoint (argument : Node) (cause : PointError)
  | invalidOperator
  | unimplementedOperator
  | operatorForm
  | applyCount
  | operatorIsPair
  | expectedProgram
  | valueUnderflow
  deriving DecidableEq

def Fault.message : Fault → String
  | .argumentCount subject expected =>
    subject.name ++ " takes exactly " ++ toString expected ++
      (if expected = 1 then " argument" else " arguments")
  | .onList subject => subject.name ++ " on list"
  | .notInteger subject => subject.name ++ " requires int args"
  | .notSmallInteger subject => subject.name ++ " requires int32 args"
  | .wideSmallInteger subject => subject.name ++ " requires int32 args (with no leading zeros)"
  | .firstOfAtom => "first of non-cons"
  | .restOfAtom => "rest of non-cons"
  | .pathIntoAtom => "path into atom"
  | .raised => "clvm raise"
  | .shiftTooLarge => "shift too large"
  | .substrCount => "substr takes exactly 2 or 3 arguments"
  | .substrIndices => "invalid indices for substr"
  | .softforkCount => "softfork takes at least 1 argument"
  | .softforkCost => "cost must be > 0"
  | .point cause => cause.message
  | .notPoint argument cause =>
    "point_add expects blob, got " ++ argument.describe ++ ": " ++ cause.message
  | .invalidOperator => "invalid operator"
  | .unimplementedOperator => "unimplemented operator"
  | .operatorForm => "in ((X)...) syntax X must be lone atom"
  | .applyCount => "apply requires exactly 2 parameters"
  | .operatorIsPair => "internal error: operator is a pair"
  | .expectedProgram => "internal error: expected (program . env)"
  | .valueUnderflow => "internal error: value stack underflow"

inductive Reservation
  | reserved
  | tooLong
  deriving DecidableEq

def Reservation.message : Reservation → String
  | .reserved => "reserved operator"
  | .tooLong => "invalid operator"

/-- Which division met a zero divisor. -/
inductive Division
  | quotient
  | quotientRemainder
  deriving DecidableEq

def Division.message : Division → String
  | .quotient => "div with 0"
  | .quotientRemainder => "divmod with 0"

inductive EvalError
  | fault (cause : Fault) (node : Node)
  | reserved (cause : Reservation) (operator : Node)
  | divisionByZero (division : Division) (dividend : Node)
  | costExceeded (limit : Cost)
  deriving DecidableEq

namespace EvalError

/-- The reason, without the node. -/
def message : EvalError → String
  | .fault cause _ => cause.message
  | .reserved cause _ => cause.message
  | .divisionByZero division _ => division.message
  | .costExceeded _ => "cost exceeded"

def node? : EvalError → Option Node
  | .fault _ node => some node
  | .reserved _ operator => some operator
  | .divisionByZero _ dividend => some dividend
  | .costExceeded _ => none

def describe : EvalError → String
  | .costExceeded limit => s!"cost exceeded (max cost {limit})"
  | .fault cause node => cause.message ++ ": " ++ node.describe
  | .reserved cause operator => cause.message ++ ": " ++ operator.describe
  | .divisionByZero division dividend => division.message ++ ": " ++ dividend.describe

end EvalError

/-- What an evaluation comes to: its cost and its value. -/
structure Reduction where
  cost : Cost
  value : Node
  deriving DecidableEq

abbrev Response := Except EvalError Reduction

def fault {α : Type} (cause : Fault) (node : Node) : Except EvalError α :=
  .error (.fault cause node)

namespace Node

def first : Node → Except EvalError Node
  | .pair first _ => .ok first
  | .atom bytes => fault .firstOfAtom (.atom bytes)

def rest : Node → Except EvalError Node
  | .pair _ rest => .ok rest
  | .atom bytes => fault .restOfAtom (.atom bytes)

end Node

end MeteredTree

import MeteredTree.Cost.Prices
import MeteredTree.Error
import MeteredTree.Integer

/-! How operators look at their arguments and make their results. -/

namespace MeteredTree

/-- An integer argument: its value and the number of bytes it was given in. -/
structure Operand where
  value : Int
  width : Nat
  deriving DecidableEq

def Operand.ofBytes (bytes : Bytes) : Operand :=
  ⟨Integer.ofBytes bytes, bytes.length⟩

/-- The unsigned value of the same bytes. -/
def Operand.unsigned (a : Operand) : Int :=
  if a.value < 0 then a.value + Bytes.capacity a.width else a.value

namespace Arguments

def atom (subject : Subject) : Node → Except EvalError Bytes
  | .atom bytes => .ok bytes
  | .pair first rest => fault (.onList subject) (.pair first rest)

def operand (subject : Subject) : Node → Except EvalError Operand
  | .atom bytes => .ok (.ofBytes bytes)
  | .pair first rest => fault (.notInteger subject) (.pair first rest)

/-- An integer of at most four bytes. -/
def smallInteger (subject : Subject) : Node → Except EvalError Int
  | .atom bytes =>
    if bytes.length ≤ 4 then .ok (Integer.ofFewBytes bytes).toInt
    else fault (.wideSmallInteger subject) (.atom bytes)
  | .pair first rest => fault (.notSmallInteger subject) (.pair first rest)

/-- All arguments as atoms; the first one that is a pair is at fault. -/
def atoms (subject : Subject) (args : Node) : Except EvalError (List Bytes) :=
  args.items.mapM (atom subject)

/-- All arguments as integers; the first one that is a pair is at fault. -/
def operands (subject : Subject) (args : Node) : Except EvalError (List Operand) :=
  args.items.mapM (operand subject)

/-- Exactly one integer. The kind of the arguments is checked before their
number. -/
def oneOperand (subject : Subject) (args : Node) : Except EvalError Operand := do
  match ← operands subject args with
  | [a] => .ok a
  | _ => fault (.argumentCount subject 1) args

/-- Exactly two integers. The kind of the arguments is checked before their
number. -/
def twoOperands (subject : Subject) (args : Node) : Except EvalError (Operand × Operand) := do
  match ← operands subject args with
  | [a, b] => .ok (a, b)
  | _ => fault (.argumentCount subject 2) args

/-- Exactly two atoms. The number of the arguments is checked before their
kind. -/
def twoAtoms (subject : Subject) (args : Node) : Except EvalError (Bytes × Bytes) :=
  match args.items with
  | [a, b] => do
    let a ← atom subject a
    let b ← atom subject b
    .ok (a, b)
  | _ => fault (.argumentCount subject 2) args

def one (subject : Subject) (args : Node) : Except EvalError Node :=
  match args.items with
  | [a] => .ok a
  | _ => fault (.argumentCount subject 1) args

end Arguments

namespace Reduction

/-- A new atom, with the surcharge for its bytes. -/
def newAtom (cost : Cost) (bytes : Bytes) : Reduction :=
  ⟨Cost.satAdd cost (Price.allocation bytes.length), .atom bytes⟩

/-- A new integer, with the surcharge for its bytes. -/
def newInteger (cost : Cost) (v : Int) : Reduction :=
  newAtom cost (Integer.toBytes v)

end Reduction

/-- The price of a variadic operator on integers. -/
def Tariff.ofOperands (t : Tariff) (xs : List Operand) : Cost :=
  t.saturating (UInt64.ofNat xs.length) (UInt64.ofNat (xs.foldl (fun n x => n + x.width) 0))

/-- The price of a variadic operator on byte strings. -/
def Tariff.ofAtoms (t : Tariff) (xs : List Bytes) : Cost :=
  t.saturating (UInt64.ofNat xs.length) (UInt64.ofNat (xs.foldl (fun n x => n + x.length) 0))

end MeteredTree

import MeteredTree.Operator.Arguments

/-! Operators on trees and truth values: choice, pairs, equality of atoms,
raising, and the operator that only charges what it declares. -/

namespace MeteredTree.Operator

def choose (args : Node) : Response :=
  match args.items with
  | [condition, yes, no] => .ok ⟨Price.choose, if condition.isNil then no else yes⟩
  | _ => fault (.argumentCount (.primitive .choose) 3) args

def cons (args : Node) : Response :=
  match args.items with
  | [first, rest] => .ok ⟨Price.cons, .pair first rest⟩
  | _ => fault (.argumentCount (.primitive .cons) 2) args

def first (args : Node) : Response := do
  let list ← Arguments.one (.primitive .first) args
  return ⟨Price.first, ← list.first⟩

def rest (args : Node) : Response := do
  let list ← Arguments.one (.primitive .rest) args
  return ⟨Price.rest, ← list.rest⟩

def isPair (args : Node) : Response := do
  let a ← Arguments.one (.primitive .isPair) args
  return ⟨Price.isPair, .ofBool a.isPair⟩

/-- Always fails: about a lone atom if that is the argument, and else about
all the arguments. -/
def raise (args : Node) : Response :=
  match args.items with
  | [.atom bytes] => fault .raised (.atom bytes)
  | _ => fault .raised args

def equal (args : Node) : Response := do
  let (a, b) ← Arguments.twoAtoms (.primitive .equal) args
  return ⟨Price.equal.plain 0 (a.length + b.length), .ofBool (a == b)⟩

def not (args : Node) : Response := do
  let a ← Arguments.one (.primitive .not) args
  return ⟨Price.boolean.base, .ofBool a.isNil⟩

def any (args : Node) : Response :=
  .ok ⟨Price.boolean.plain args.items.length 0, .ofBool (args.items.any fun a => !a.isNil)⟩

def all (args : Node) : Response :=
  .ok ⟨Price.boolean.plain args.items.length 0, .ofBool (args.items.all fun a => !a.isNil)⟩

/-- Charges the cost that the first argument declares and does nothing else.
A declared cost past the largest one counts as the largest. -/
def softfork (args : Node) : Response :=
  match args.items with
  | [] => fault .softforkCount args
  | declared :: _ => do
    let cost ← Arguments.operand (.primitive .softfork) declared
    if cost.value < 1 then fault .softforkCost args
    else return ⟨Cost.clamp cost.value.toNat, .nil⟩

end MeteredTree.Operator

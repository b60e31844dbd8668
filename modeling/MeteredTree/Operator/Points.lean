import MeteredTree.Operator.Arguments

/-! Operators on points in compressed form. They need a point group and fail
if none is loaded. -/

namespace MeteredTree.Operator

/-- No group is loaded; the fault is about no node in particular. -/
def notLoaded : Response :=
  fault (.point .notLoaded) .nil

/-- Adds the arguments to `total`, each of them a point in compressed form. -/
def sumPoints (g : PointGroup) (args : Node) : g.Point → List Node → Except EvalError g.Point
  | total, [] => .ok total
  | total, a :: rest => do
    let bytes ← Arguments.atom (.primitive .pointAdd) a
    match g.decompress bytes with
    | .ok p => sumPoints g args (g.add total p) rest
    | .error e => fault (.notPoint a e) args

/-- The sum of points. That a group is loaded is checked first. -/
def pointAdd (group : Option PointGroup) (args : Node) : Response :=
  match group with
  | none => notLoaded
  | some g => do
    let total ← sumPoints g args g.identity args.items
    return .newAtom (Price.pointAdd.plain args.items.length 0) (g.compress total)

/-- The multiple of the generator by an integer, which is reduced by the order of
the group and handed over as bytes. The argument is checked before the group. -/
def publicKey (group : Option PointGroup) (args : Node) : Response := do
  let a ← Arguments.oneOperand (.primitive .publicKey) args
  match group with
  | none => notLoaded
  | some g =>
    return .newAtom (Price.publicKey.plain 0 a.width)
      (g.compress (g.ofScalar (Integer.magnitude (a.value.emod g.order))))

end MeteredTree.Operator

import MeteredTree.Error

/-! The meter of an evaluation. It adds up what is charged; with a limit, the
first charge that takes the total past it stops the meter for good. -/

namespace MeteredTree

inductive Meter
  | unbounded (used : Cost)
  | bounded (limit used : Cost)
  /-- The limit was passed; `total` is the sum that passed it. -/
  | overrun (limit total : Cost)
  deriving DecidableEq

namespace Meter

def new : Option Cost → Meter
  | none => .unbounded 0
  | some limit => .bounded limit 0

def limit : Meter → Option Cost
  | .unbounded _ => none
  | .bounded limit _ => some limit
  | .overrun limit _ => some limit

/-- All that was charged, or the failure that stopped the meter. -/
def used : Meter → Except EvalError Cost
  | .unbounded used => .ok used
  | .bounded _ used => .ok used
  | .overrun limit _ => .error (.costExceeded limit)

/-- What may still be charged. -/
def remaining : Meter → Option Cost
  | .unbounded _ => none
  | .bounded limit used => some (limit - used)
  | .overrun _ _ => some 0

/-- Charges a cost. A limit is inclusive, and a stopped meter stays stopped. -/
def record : Meter → Cost → Meter
  | .unbounded used, cost => .unbounded (Cost.satAdd used cost)
  | .bounded limit used, cost =>
    let total := Cost.satAdd used cost
    if limit < total then .overrun limit total else .bounded limit total
  | .overrun limit total, _ => .overrun limit total

def check (m : Meter) : Except EvalError Unit :=
  m.used.map fun _ => ()

end Meter

end MeteredTree

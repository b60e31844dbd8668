import MeteredTree.Curve.Compressed
import MeteredTree.Machine.Run
import MeteredTree.Wire.Decode

/-! Running programs under a configuration: with or without a cost limit, and
with unknown operators ignored or rejected. -/

namespace MeteredTree

structure Config where
  /-- The cost limit; without one, costs are only counted. -/
  maxCost : Option Cost := none
  /-- Whether unknown operators are rejected. -/
  strict : Bool := false
  deriving DecidableEq

namespace Config

/-- The block limit of the main network. -/
def mainnet : Config := { maxCost := some Price.block }

def table (c : Config) (group : Option PointGroup) : OperatorTable :=
  if c.strict then .strict group else .standard group

def run (c : Config) (group : Option PointGroup) (program env : Node) : Option Response :=
  (c.table group).run program env c.maxCost

end Config

/-- Why a run from wire forms has no result. -/
inductive RunError
  | wire (cause : WireError)
  | eval (cause : EvalError)
  deriving DecidableEq

namespace RunError

/-- What the underlying failure says of itself. -/
def cause : RunError → String
  | .wire e => e.message
  | .eval e => e.describe

def message : RunError → String
  | .wire e => "cannot decode input: " ++ e.message
  | .eval e => e.describe

end RunError

/-- The program and the environment in wire form; the program is read first. -/
def decodeInputs (program env : Bytes) : Except RunError (Node × Node) :=
  match Node.decode program, Node.decode env with
  | .error e, _ => .error (.wire e)
  | .ok _, .error e => .error (.wire e)
  | .ok program, .ok env => .ok (program, env)

def Config.runEncoded (c : Config) (group : Option PointGroup) (program env : Bytes) :
    Option (Except RunError Reduction) :=
  match decodeInputs program env with
  | .error e => some (.error e)
  | .ok (program, env) => (c.run group program env).map fun r => r.mapError .eval

end MeteredTree

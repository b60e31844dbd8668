import MeteredTree.Meter
import MeteredTree.Operator.Table
import MeteredTree.Path

/-! The evaluator. It works on two stacks, one of pending operations and one
of values, so the depth of a program only lengthens the stacks. A step takes
one operation, carries it out, and then charges its cost. A step that fails
keeps what it has already done to the stacks. -/

namespace MeteredTree

inductive Operation
  /-- Take a list of arguments and an operator, run the operator. -/
  | apply
  /-- Take a value and a list, give the list with the value in front. -/
  | cons
  /-- Take a program paired with its environment, evaluate it. -/
  | eval
  | swap
  deriving DecidableEq

/-- What can be observed of an evaluation. -/
inductive Event
  /-- A program is about to be evaluated. -/
  | enter (program env : Node)
  /-- A program has come to a value. -/
  | leave (result : Node)
  /-- An operator ran. -/
  | apply (operator args : Node) (cost : Cost)
  deriving DecidableEq

/-- What an operation does: the stacks after it, the events in their order,
and its cost or the error. The topmost elements come first. -/
structure Effect where
  pending : List Operation
  values : List Node
  events : List Event
  outcome : Except EvalError Cost

namespace Effect

/-- Fails on a stack of values that is too short. -/
def underflow (pending : List Operation) : Effect :=
  ⟨pending, [], [], fault .valueUnderflow .nil⟩

def path (pending : List Operation) (values : List Node) (path : Bytes) (env : Node) : Effect :=
  let enter := Event.enter (.atom path) env
  match Path.lookup path env with
  | .ok r => ⟨pending, r.value :: values, [enter, .leave r.value], .ok r.cost⟩
  | .error e => ⟨pending, values, [enter], .error e⟩

/-- Enters a program given in the place of an operator: it runs with the
operands, unevaluated, as its environment. -/
def form (pending : List Operation) (values : List Node) (program env : Node)
    (inner tail operands : Node) : Effect :=
  let enter := Event.enter program env
  if tail.isNil then
    ⟨.eval :: pending, .pair inner operands :: values, [enter], .ok Price.apply⟩
  else
    ⟨pending, values, [enter], fault .operatorForm program⟩

/-- Schedules the operands of an operator. Each operand waits as a program
with its environment; taken from the last to the first, its value is put in
front of the list of arguments. The operands must end in nil. -/
def operands (pending : List Operation) (values : List Node) (program env : Node)
    (operator operands : Node) : Effect :=
  let items := operands.items
  let pending := items.foldl (fun ops _ => .swap :: .eval :: .cons :: ops) (.apply :: pending)
  let values := items.foldl (fun vs item => .pair item env :: vs) (operator :: values)
  let events := [Event.enter program env]
  if operands.terminator.isEmpty then
    ⟨pending, .nil :: values, events, .ok Price.operands⟩
  else
    ⟨pending, values, events, fault .firstOfAtom (.atom operands.terminator)⟩

def eval (table : OperatorTable) (pending : List Operation) (values : List Node)
    (program env : Node) : Effect :=
  match program with
  | .atom bytes => path pending values bytes env
  | .pair (.pair inner tail) args => form pending values program env inner tail args
  | .pair (.atom op) args =>
    if op = [table.quote] then
      ⟨pending, args :: values, [.enter program env, .leave args], .ok Price.quote⟩
    else
      operands pending values program env (.atom op) args

/-- Runs an operator on its arguments. The operator that applies takes a
program and an environment and enters the program. -/
def apply (table : OperatorTable) (pending : List Operation) (values : List Node)
    (operator args : Node) : Effect :=
  match operator with
  | .pair _ _ => ⟨pending, values, [], fault .operatorIsPair operator⟩
  | .atom op =>
    if op = [table.apply] then
      match args.items with
      | [program, env] => ⟨.eval :: pending, .pair program env :: values, [], .ok Price.apply⟩
      | _ => ⟨pending, values, [], fault .applyCount args⟩
    else
      match table.eval operator args with
      | .ok r =>
        ⟨pending, r.value :: values, [.apply operator args r.cost, .leave r.value], .ok r.cost⟩
      | .error e => ⟨pending, values, [], .error e⟩

end Effect

/-- Carries out an operation on the stacks below it. -/
def Operation.perform (table : OperatorTable) (pending : List Operation) :
    Operation → List Node → Effect
  | .cons, first :: rest :: values => ⟨pending, .pair first rest :: values, [], .ok 0⟩
  | .swap, upper :: lower :: values => ⟨pending, lower :: upper :: values, [], .ok 0⟩
  | .eval, .pair program env :: values => .eval table pending values program env
  | .eval, .atom bytes :: values => ⟨pending, values, [], fault .expectedProgram (.atom bytes)⟩
  | .apply, args :: operator :: values => .apply table pending values operator args
  | _, _ => .underflow pending

structure Machine where
  table : OperatorTable
  pending : List Operation
  values : List Node
  meter : Meter

/-- A machine after a step, with the events of the step and how it went. -/
structure Step where
  machine : Machine
  events : List Event
  outcome : Except EvalError Unit

namespace Machine

def new (table : OperatorTable) (program env : Node) (limit : Option Cost) : Machine :=
  ⟨table, [.eval], [.pair program env], .new limit⟩

def isFinished (m : Machine) : Bool :=
  m.pending.isEmpty

/-- Carries out one pending operation and charges its cost. A finished
machine stays as it is. -/
def step (m : Machine) : Step :=
  match m.pending with
  | [] => ⟨m, [], .ok ()⟩
  | op :: pending =>
    let effect := op.perform m.table pending m.values
    let m := { m with pending := effect.pending, values := effect.values }
    match effect.outcome with
    | .ok cost =>
      let meter := m.meter.record cost
      ⟨{ m with meter := meter }, effect.events, meter.check⟩
    | .error e => ⟨m, effect.events, .error e⟩

/-- What a finished machine has come to. -/
def result (m : Machine) : Response :=
  match m.meter.used, m.values with
  | .error e, _ => .error e
  | .ok _, [] => fault .valueUnderflow .nil
  | .ok cost, value :: _ => .ok ⟨cost, value⟩

end Machine

end MeteredTree

import MeteredTree.Machine

/-! Whole evaluations. A run takes steps until the machine has finished or a
step fails; the number of steps is bounded beforehand, and a run that needs
more gives nothing. -/

namespace MeteredTree

/-- How a run ended: the machine at its end, what was made of the events, and
the response. -/
structure Ending (σ : Type) where
  machine : Machine
  observed : σ
  response : Response

namespace Machine

/-- Takes at most `steps` steps and feeds every event to an observer. -/
def observe {σ : Type} (watch : σ → Event → σ) (steps : Nat) (seen : σ) (m : Machine) :
    Option (Ending σ) :=
  if m.isFinished then some ⟨m, seen, m.result⟩
  else match steps with
    | 0 => none
    | steps + 1 =>
      let s := m.step
      let seen := s.events.foldl watch seen
      match s.outcome with
      | .ok () => observe watch steps seen s.machine
      | .error e => some ⟨s.machine, seen, .error e⟩

def runFor (steps : Nat) (m : Machine) : Option Response :=
  (observe (fun _ _ => ()) steps () m).map Ending.response

/-- Enough steps for any run. Under a limit, what is charged bounds how many
steps there can be; without one no number is enough for every program, and
this one is out of reach in practice. -/
def ampleSteps : Option Cost → Nat
  | some limit => 4 * limit.toNat + 2
  | none => 0x4000000000000000

def run (m : Machine) : Option Response :=
  m.runFor (ampleSteps m.meter.limit)

/-- Runs a machine to its end and gives the events in their order beside the
response. -/
def trace (m : Machine) : Option (List Event × Response) :=
  (observe (fun seen e => e :: seen) (ampleSteps m.meter.limit) [] m).map fun ending =>
    (ending.observed.reverse, ending.response)

end Machine

def OperatorTable.run (table : OperatorTable) (program env : Node) (limit : Option Cost) :
    Option Response :=
  (Machine.new table program env limit).run

end MeteredTree

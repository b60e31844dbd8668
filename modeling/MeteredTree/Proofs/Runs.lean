import Mathlib.Logic.Relation
import MeteredTree.Machine.Run
import MeteredTree.Proofs.Charges
import MeteredTree.Proofs.Operations

/-! Steps as a relation between machines. A run returns what the last machine
on a path of successful steps gives, if that machine has finished or its step
fails. -/

namespace MeteredTree.Machine

/-- A step that succeeds. -/
def StepsTo (m m' : Machine) : Prop :=
  m.step.outcome = .ok () ∧ m.step.machine = m'

abbrev Reachable := Relation.ReflTransGen StepsTo

/-- A run that may take as many steps as it needs ends with this response. -/
def Returns (m : Machine) (response : Response) : Prop :=
  ∃ steps, m.runFor steps = some response

theorem step_of_perform_ok {table : OperatorTable} {op : Operation} {pending : List Operation}
    {values : List Node} {meter : Meter} {cost : Cost}
    (h : (op.perform table pending values).outcome = .ok cost) :
    step ⟨table, op :: pending, values, meter⟩ =
      ⟨⟨table, (op.perform table pending values).pending,
          (op.perform table pending values).values, meter.record cost⟩,
        (op.perform table pending values).events, (meter.record cost).check⟩ := by
  simp only [step, h]

theorem step_of_perform_error {table : OperatorTable} {op : Operation}
    {pending : List Operation} {values : List Node} {meter : Meter} {e : EvalError}
    (h : (op.perform table pending values).outcome = .error e) :
    step ⟨table, op :: pending, values, meter⟩ =
      ⟨⟨table, (op.perform table pending values).pending,
          (op.perform table pending values).values, meter⟩,
        (op.perform table pending values).events, .error e⟩ := by
  simp only [step, h]

/-- A step takes one branch of the operation on top, and charges its cost if
there is one. -/
theorem step_branch {m : Machine} {op : Operation} {pending : List Operation}
    (hp : m.pending = op :: pending) :
    ∃ effect, op.Branch m.table pending m.values effect ∧
      ((∃ cost, effect.outcome = .ok cost ∧
          m.step = ⟨⟨m.table, effect.pending, effect.values, m.meter.record cost⟩, effect.events,
            (m.meter.record cost).check⟩) ∨
        ∃ e, effect.outcome = .error e ∧
          m.step = ⟨⟨m.table, effect.pending, effect.values, m.meter⟩, effect.events, .error e⟩) := by
  obtain ⟨table, _, values, meter⟩ := m
  obtain rfl := hp
  refine ⟨_, Operation.perform_branch table pending op values, ?_⟩
  cases ho : (op.perform table pending values).outcome with
  | ok cost => exact .inl ⟨cost, rfl, step_of_perform_ok ho⟩
  | error e => exact .inr ⟨e, rfl, step_of_perform_error ho⟩

theorem step_finished {m : Machine} (h : m.pending = []) : m.step = ⟨m, [], .ok ()⟩ := by
  simp only [step, h]

theorem stepsTo_self {m : Machine} (h : m.pending = []) : m.StepsTo m := by
  rw [StepsTo, step_finished h]
  exact ⟨rfl, rfl⟩

theorem pending_ne_nil_of_error {m : Machine} {e : EvalError} (h : m.step.outcome = .error e) :
    m.pending ≠ [] := by
  intro hp
  simp [step, hp] at h

theorem runFor_finished {m : Machine} (h : m.pending = []) (steps : Nat) :
    m.runFor steps = some m.result := by
  cases steps <;> simp [runFor, observe, isFinished, h]

theorem runFor_zero {m : Machine} (h : m.pending ≠ []) : m.runFor 0 = none := by
  simp [runFor, observe, isFinished, h]

theorem runFor_succ {m m' : Machine} (h : m.pending ≠ []) (hs : m.StepsTo m') (steps : Nat) :
    m.runFor (steps + 1) = m'.runFor steps := by
  obtain ⟨ho, rfl⟩ := hs
  simp [runFor, observe, isFinished, h, ho]

theorem runFor_error {m : Machine} {e : EvalError} (h : m.step.outcome = .error e)
    (steps : Nat) : m.runFor (steps + 1) = some (.error e) := by
  have hp := pending_ne_nil_of_error h
  simp [runFor, observe, isFinished, hp, h]

/-- A run goes on for ever where what holds of a machine lets it take a step and
holds again after it. -/
theorem runFor_eq_none {P : Machine → Prop}
    (hP : ∀ m, P m → m.pending ≠ [] ∧ m.step.outcome = .ok () ∧ P m.step.machine) {m : Machine}
    (h : P m) (steps : Nat) : m.runFor steps = none := by
  induction steps generalizing m with
  | zero => exact runFor_zero (hP m h).1
  | succ steps ih =>
    obtain ⟨hp, ho, hstep⟩ := hP m h
    rw [runFor_succ hp ⟨ho, rfl⟩]
    exact ih hstep

theorem returns_finished {m : Machine} (h : m.pending = []) : m.Returns m.result :=
  ⟨0, runFor_finished h 0⟩

theorem returns_error {m : Machine} {e : EvalError} (h : m.step.outcome = .error e) :
    m.Returns (.error e) :=
  ⟨1, runFor_error h 0⟩

theorem StepsTo.returns {m m' : Machine} {response : Response} (hs : m.StepsTo m')
    (h : m'.Returns response) : m.Returns response := by
  obtain ⟨steps, h⟩ := h
  by_cases hp : m.pending = []
  · obtain ⟨_, rfl⟩ := hs
    have hm : m.step.machine = m := (stepsTo_self hp).2
    exact ⟨steps, hm ▸ h⟩
  · exact ⟨steps + 1, (runFor_succ hp hs steps).trans h⟩

theorem step_cases (m : Machine) :
    m.StepsTo m.step.machine ∨ ∃ e, m.step.outcome = .error e := by
  cases h : m.step.outcome with
  | ok u => exact .inl ⟨h, rfl⟩
  | error e => exact .inr ⟨e, rfl⟩

/-- The end of a run, read off the steps that lead to it. -/
theorem returns_iff {m : Machine} {response : Response} :
    m.Returns response ↔ ∃ s, m.Reachable s ∧
      (s.pending = [] ∧ s.result = response ∨
        ∃ e, s.step.outcome = .error e ∧ response = .error e) := by
  constructor
  · rintro ⟨steps, h⟩
    induction steps generalizing m with
    | zero =>
      by_cases hp : m.pending = []
      · rw [runFor_finished hp] at h
        exact ⟨m, .refl, .inl ⟨hp, Option.some.inj h⟩⟩
      · simp [runFor_zero hp] at h
    | succ steps ih =>
      by_cases hp : m.pending = []
      · rw [runFor_finished hp] at h
        exact ⟨m, .refl, .inl ⟨hp, Option.some.inj h⟩⟩
      · rcases m.step_cases with hs | ⟨e, he⟩
        · rw [runFor_succ hp hs] at h
          obtain ⟨s, hr, hend⟩ := ih h
          exact ⟨s, .head hs hr, hend⟩
        · rw [runFor_error he] at h
          exact ⟨m, .refl, .inr ⟨e, he, (Option.some.inj h).symm⟩⟩
  · rintro ⟨s, hr, hend⟩
    induction hr using Relation.ReflTransGen.head_induction_on with
    | refl =>
      rcases hend with ⟨hp, rfl⟩ | ⟨e, he, rfl⟩
      · exact returns_finished hp
      · exact returns_error he
    | head hs _ ih => exact hs.returns ih

end MeteredTree.Machine

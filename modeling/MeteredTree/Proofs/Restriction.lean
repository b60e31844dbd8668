import MeteredTree.Config
import MeteredTree.Proofs.StackTyping

/-! A table that restricts another. Where the two differ, the restricted one
fails; so two runs that start from the same stacks go in step, until the
restricted one fails in a way of its own. -/

namespace MeteredTree

/-- The two tables quote and apply alike, and an operator either gives the same
or fails in the first of them with one of the `own` errors. -/
structure OperatorTable.Restricts (own : Bytes → EvalError → Prop) (t t' : OperatorTable) :
    Prop where
  quote : t.quote = t'.quote
  apply : t.apply = t'.apply
  eval : ∀ op args, t.eval (.atom op) args = t'.eval (.atom op) args ∨
    ∃ e, own op e ∧ t.eval (.atom op) args = .error e

variable {own : Bytes → EvalError → Prop} {t t' : OperatorTable}

theorem Operation.perform_restricts (h : t.Restricts own t') (op : Operation)
    (pending : List Operation) (values : List Node) :
    op.perform t pending values = op.perform t' pending values ∨
      ∃ args bytes below e, op = .apply ∧ values = args :: .atom bytes :: below ∧
        bytes ≠ [t'.apply] ∧ own bytes e ∧ (op.perform t pending values).outcome = .error e := by
  match op, values with
  | .cons, [] | .cons, [_] | .cons, _ :: _ :: _ => exact .inl rfl
  | .swap, [] | .swap, [_] | .swap, _ :: _ :: _ => exact .inl rfl
  | .eval, [] | .eval, .atom _ :: _ => exact .inl rfl
  | .eval, .pair program env :: values =>
    left
    simp only [perform, Effect.eval, h.quote]
  | .apply, [] | .apply, [_] => exact .inl rfl
  | .apply, args :: .pair first rest :: values => exact .inl rfl
  | .apply, args :: .atom bytes :: values =>
    by_cases hop : bytes = [t'.apply]
    · left
      simp only [perform, Effect.apply, h.apply, hop, if_true]
    · rcases h.eval bytes args with heq | ⟨e, he, herror⟩
      · left
        simp only [perform, Effect.apply, h.apply, hop, if_false, heq]
      · refine .inr ⟨args, bytes, values, e, rfl, rfl, hop, he, ?_⟩
        simp only [perform, Effect.apply, h.apply, hop, if_false, herror]

namespace Machine

def withTable (m : Machine) (table : OperatorTable) : Machine :=
  { m with table := table }

/-- The next step runs this operator on its arguments. -/
def Calls (m : Machine) (op : Bytes) : Prop :=
  op ≠ [m.table.apply] ∧ ∃ pending args values,
    m.pending = .apply :: pending ∧ m.values = args :: .atom op :: values

theorem step_restricts {m : Machine} (h : t.Restricts own m.table) :
    (m.withTable t).step = ⟨m.step.machine.withTable t, m.step.events, m.step.outcome⟩ ∨
      ∃ op e, m.Calls op ∧ own op e ∧ (m.withTable t).step.outcome = .error e := by
  obtain ⟨table, pending, values, meter⟩ := m
  cases pending with
  | nil => exact .inl rfl
  | cons op pending =>
    rcases Operation.perform_restricts h op pending values with heq |
      ⟨args, bytes, below, e, rfl, rfl, hop, he, herror⟩
    · left
      cases ho : (op.perform table pending values).outcome with
      | ok cost =>
        rw [step_of_perform_ok ho]
        change step ⟨t, op :: pending, values, meter⟩ = _
        rw [step_of_perform_ok (heq ▸ ho), heq]
        rfl
      | error e =>
        rw [step_of_perform_error ho]
        change step ⟨t, op :: pending, values, meter⟩ = _
        rw [step_of_perform_error (heq ▸ ho), heq]
        rfl
    · refine .inr ⟨bytes, e, ⟨hop, pending, args, below, rfl, rfl⟩, he, ?_⟩
      change (step ⟨t, .apply :: pending, _, meter⟩).outcome = _
      rw [step_of_perform_error herror]

/-- For every number of steps the two runs come to the same, or the restricted
one has failed where the other was about to run an operator. -/
theorem runFor_restricts {m : Machine} (h : t.Restricts own m.table) (steps : Nat) :
    (m.withTable t).runFor steps = m.runFor steps ∨
      ∃ s op e, m.Reachable s ∧ s.Calls op ∧ own op e ∧
        (m.withTable t).runFor steps = some (.error e) := by
  induction steps generalizing m with
  | zero =>
    left
    by_cases hp : m.pending = []
    · rw [runFor_finished hp, runFor_finished (m := m.withTable t) hp]
      rfl
    · rw [runFor_zero hp, runFor_zero (m := m.withTable t) hp]
  | succ steps ih =>
    by_cases hp : m.pending = []
    · left
      rw [runFor_finished hp, runFor_finished (m := m.withTable t) hp]
      rfl
    · have hp' : (m.withTable t).pending ≠ [] := hp
      rcases step_restricts h with heq | ⟨op, e, hcalls, he, herror⟩
      · rcases m.step_cases with hs | ⟨e, he⟩
        · have hs' : (m.withTable t).StepsTo (m.step.machine.withTable t) := by
            rw [StepsTo, heq]
            exact ⟨hs.1, rfl⟩
          rw [runFor_succ hp hs, runFor_succ hp' hs']
          rw [← m.step_table] at h
          rcases ih h with hsame | ⟨s, op, e, hr, hcalls, he, hrun⟩
          · exact .inl hsame
          · exact .inr ⟨s, op, e, .head hs hr, hcalls, he, hrun⟩
        · have he' : (m.withTable t).step.outcome = .error e := by rw [heq, he]
          left
          rw [runFor_error he, runFor_error he']
      · exact .inr ⟨m, op, e, .refl, hcalls, he, runFor_error herror steps⟩

/-- The run comes to an operator that the restricted table rejects, with this
response. -/
def Rejects (own : Bytes → EvalError → Prop) (m : Machine) (response : Response) : Prop :=
  ∃ s op e, m.Reachable s ∧ s.Calls op ∧ own op e ∧ response = .error e

theorem Returns.of_restricts {m : Machine} {response : Response} (h : t.Restricts own m.table)
    (hr : (m.withTable t).Returns response) : m.Returns response ∨ m.Rejects own response := by
  obtain ⟨steps, hrun⟩ := hr
  rcases runFor_restricts h steps with hsame | ⟨s, op, e, hs, hcalls, he, hrun'⟩
  · exact .inl ⟨steps, hsame.symm.trans hrun⟩
  · obtain rfl := Option.some.inj (hrun'.symm.trans hrun)
    exact .inr ⟨s, op, e, hs, hcalls, he, rfl⟩

theorem Returns.restricts {m : Machine} {response : Response} (h : t.Restricts own m.table)
    (hr : m.Returns response) :
    (m.withTable t).Returns response ∨
      ∃ response', m.Rejects own response' ∧ (m.withTable t).Returns response' := by
  obtain ⟨steps, hrun⟩ := hr
  rcases runFor_restricts h steps with hsame | ⟨s, op, e, hs, hcalls, he, hrun'⟩
  · exact .inl ⟨steps, hsame.trans hrun⟩
  · exact .inr ⟨.error e, ⟨s, op, e, hs, hcalls, he, rfl⟩, steps, hrun'⟩

end Machine

namespace OperatorTable

/-- Rejected as an operator that the standard table has no entry for. -/
def Unimplemented (group : Option PointGroup) (op : Bytes) (e : EvalError) : Prop :=
  (standard group).get? op = none ∧ e.message = "unimplemented operator" ∧
    e = .fault .unimplementedOperator (.atom op)

theorem strict_restricts_standard (group : Option PointGroup) :
    (strict group).Restricts (Unimplemented group) (standard group) where
  quote := rfl
  apply := rfl
  eval op args := by
    have hget : (strict group).get? op = (standard group).get? op := by
      match op with
      | [] | [_] | _ :: _ :: _ => rfl
    cases hf : (standard group).get? op with
    | some f =>
      left
      simp only [OperatorTable.eval, hget, hf]
    | none =>
      refine .inr ⟨.fault .unimplementedOperator (.atom op), ⟨hf, rfl, rfl⟩, ?_⟩
      simp only [OperatorTable.eval, hget, hf]
      rfl

end OperatorTable

/-- Rejecting unknown operators changes no response except for a rejection,
which is about an operator without an entry that the run comes to. -/
theorem strict_only_rejects (group : Option PointGroup) (program env : Node)
    (maxCost : Option Cost) :
    let lenient : Config := { maxCost := maxCost, strict := false }
    let strict : Config := { maxCost := maxCost, strict := true }
    let start (c : Config) := Machine.new (c.table group) program env c.maxCost
    let Rejection (response : Response) := ∃ s op e, (start lenient).Reachable s ∧ s.Calls op ∧
      OperatorTable.Unimplemented group op e ∧ response = .error e
    (∀ response, (start strict).Returns response →
      (start lenient).Returns response ∨ Rejection response) ∧
    (∀ response, (start lenient).Returns response →
      (start strict).Returns response ∨
        ∃ response', Rejection response' ∧ (start strict).Returns response') ∧
    (∀ r, (start strict).Returns (.ok r) → (start lenient).Returns (.ok r)) ∧
    (strict.run group program env = lenient.run group program env ∨
      ∃ response, Rejection response ∧ strict.run group program env = some response) := by
  intro lenient strict start Rejection
  have hsteps : ∀ steps, (start strict).runFor steps = (start lenient).runFor steps ∨
      ∃ response, Rejection response ∧ (start strict).runFor steps = some response := by
    intro steps
    rcases Machine.runFor_restricts (m := start lenient)
      (OperatorTable.strict_restricts_standard group) steps with hsame |
        ⟨s, op, e, hr, hcalls, he, hrun⟩
    · exact .inl hsame
    · exact .inr ⟨.error e, ⟨s, op, e, hr, hcalls, he, rfl⟩, hrun⟩
  have hstrict : ∀ response, (start strict).Returns response →
      (start lenient).Returns response ∨ Rejection response := by
    rintro response ⟨steps, hrun⟩
    rcases hsteps steps with hsame | ⟨response', hrej, hrun'⟩
    · exact .inl ⟨steps, hsame.symm.trans hrun⟩
    · obtain rfl := Option.some.inj (hrun'.symm.trans hrun)
      exact .inr hrej
  refine ⟨hstrict, ?_, ?_, hsteps _⟩
  · rintro response ⟨steps, hrun⟩
    rcases hsteps steps with hsame | ⟨response', hrej, hrun'⟩
    · exact .inl ⟨steps, hsame.trans hrun⟩
    · exact .inr ⟨response', hrej, steps, hrun'⟩
  · intro r hr
    rcases hstrict _ hr with hok | ⟨s, op, e, _, _, _, he⟩
    · exact hok
    · cases he

end MeteredTree

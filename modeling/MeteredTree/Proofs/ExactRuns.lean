import MeteredTree.Proofs.Balance
import MeteredTree.Proofs.Pricing

/-! Runs with exact costs. A step does to the stacks what it always does, but
it is charged the exact value of its formula. As long as the plain sums and
products of the formulas are words, these are the steps of the machine. -/

namespace MeteredTree

theorem Cost.satAdd_of_lt_max {a : Cost} {n : Nat} (h : satAdd a (clamp n) < max) :
    (satAdd a (clamp n)).toNat = a.toNat + n := by
  have hlt : (satAdd a (clamp n)).toNat < 0xffffffffffffffff := h
  rw [satAdd, toNat_clamp, toNat_clamp] at hlt ⊢
  omega

theorem Meter.used_record {meter : Meter} {cost used : Cost}
    (h : (meter.record cost).used = .ok used) :
    ∃ before, meter.used = .ok before ∧ used = Cost.satAdd before cost := by
  cases meter with
  | unbounded before => exact ⟨before, rfl, (Except.ok.inj h).symm⟩
  | bounded limit before =>
    by_cases hlt : limit < Cost.satAdd before cost
    · rw [record_bounded_of_lt hlt] at h
      cases h
    · rw [record_bounded_of_le (UInt64.not_lt.mp hlt)] at h
      exact ⟨before, rfl, (Except.ok.inj h).symm⟩
  | overrun limit total => cases h

namespace Machine

variable {d : Dialect} {group : Option PointGroup}

/-- The formula for what the next step is charged. -/
def formula (d : Dialect) (group : Option PointGroup) (m : Machine) : Formula :=
  match m.pending with
  | [] => .given 0
  | op :: _ => op.formula d group m.values

theorem formula_of_pending {m : Machine} {op : Operation} {pending : List Operation}
    (h : m.pending = op :: pending) : m.formula d group = op.formula d group m.values := by
  rw [formula, h]

/-- A step with its cost read as an exact integer. -/
def exactStep (d : Dialect) (group : Option PointGroup) (m : Machine) : Step :=
  match m.pending with
  | [] => ⟨m, [], .ok ()⟩
  | op :: pending =>
    let effect := op.perform m.table pending m.values
    let after := { m with pending := effect.pending, values := effect.values }
    match effect.outcome with
    | .ok _ =>
      let meter := m.meter.record (.clamp (m.formula d group).exact)
      ⟨{ after with meter := meter }, effect.events, meter.check⟩
    | .error e => ⟨after, effect.events, .error e⟩

def StepsExactly (d : Dialect) (group : Option PointGroup) (m m' : Machine) : Prop :=
  (m.exactStep d group).outcome = .ok () ∧ (m.exactStep d group).machine = m'

theorem StepsExactly.cases {m m' : Machine} (h : StepsExactly d group m m') :
    (m.pending = [] ∧ m' = m) ∨
      ∃ op pending effect cost, m.pending = op :: pending ∧
        op.Branch m.table pending m.values effect ∧ effect.outcome = .ok cost ∧
        (m.meter.record (.clamp (m.formula d group).exact)).check = .ok () ∧
        m' = ⟨m.table, effect.pending, effect.values,
          m.meter.record (.clamp (m.formula d group).exact)⟩ := by
  obtain ⟨ho, rfl⟩ := h
  rw [exactStep] at ho ⊢
  cases hp : m.pending with
  | nil => exact .inl ⟨rfl, rfl⟩
  | cons op pending =>
    rw [hp] at ho
    have hbranch := Operation.perform_branch m.table pending op m.values
    cases hc : (op.perform m.table pending m.values).outcome with
    | error e =>
      simp only [hc] at ho
      cases ho
    | ok cost =>
      simp only [hc] at ho ⊢
      exact .inr ⟨op, pending, _, cost, rfl, hbranch, hc, ho, rfl⟩

/-- Without an overflow the step of the machine is exact. -/
theorem exactStep_eq_step {m : Machine} (htable : m.table = d.table group)
    (hfits : (m.formula d group).Fits) : m.exactStep d group = m.step := by
  obtain ⟨table, pending, values, meter⟩ := m
  obtain rfl : table = d.table group := htable
  cases pending with
  | nil => rfl
  | cons op pending =>
    have hbranch := Operation.perform_branch (d.table group) pending op values
    cases hc : (op.perform (d.table group) pending values).outcome with
    | error e =>
      rw [step_of_perform_error hc]
      simp only [exactStep, hc]
    | ok cost =>
      have hword : cost = (op.formula d group values).word := hbranch.cost_eq_word hc
      have hexact : cost.toNat = (op.formula d group values).exact := by
        rw [hword]
        exact Formula.toNat_word hfits
      rw [step_of_perform_ok hc]
      simp only [exactStep, formula, hc, ← hexact, Cost.clamp_toNat]

theorem StepsTo.exactly {m m' : Machine} (htable : m.table = d.table group)
    (hfits : (m.formula d group).Fits) (h : m.StepsTo m') : StepsExactly d group m m' := by
  rw [StepsExactly, exactStep_eq_step htable hfits]
  exact h

/-- States that are reached by steps with exact costs. -/
abbrev ReachedExactly (d : Dialect) (group : Option PointGroup) :=
  Relation.ReflTransGen (StepsExactly d group)

theorem ReachedExactly.table_eq {m m' : Machine} (h : ReachedExactly d group m m') :
    m'.table = m.table := by
  induction h with
  | refl => rfl
  | tail _ hs ih =>
    rcases hs.cases with ⟨_, rfl⟩ | ⟨op, pending, effect, cost, _, _, _, _, rfl⟩
    · exact ih
    · exact ih

/-- Under a limit the meter of a state that is reached has not passed it. -/
theorem ReachedExactly.meter_bounded {m m' : Machine} {limit : Cost}
    (h : ReachedExactly d group m m') (hm : m.meter = .bounded limit 0) :
    ∃ used, m'.meter = .bounded limit used ∧ used ≤ limit := by
  induction h with
  | refl => exact ⟨0, hm, UInt64.zero_le⟩
  | tail _ hs ih =>
    rcases hs.cases with ⟨_, rfl⟩ | ⟨op, pending, effect, cost, _, _, _, hcheck, rfl⟩
    · exact ih
    · obtain ⟨before, hbefore, _⟩ := ih
      rw [hbefore] at hcheck ⊢
      rcases UInt64.le_or_lt (Cost.satAdd before (.clamp _)) limit with hle | hlt
      · exact ⟨_, Meter.record_bounded_of_le hle, hle⟩
      · rw [Meter.record_bounded_of_lt hlt] at hcheck
        cases hcheck

/-- Below the largest cost the exact cost of a step is added to what was
charged before. -/
theorem used_record_exact {m : Machine} {used : Cost}
    (h : (m.meter.record (.clamp (m.formula d group).exact)).used = .ok used)
    (hmax : used < Cost.max) :
    ∃ before, m.meter.used = .ok before ∧ before < Cost.max ∧
      used.toNat = before.toNat + (m.formula d group).exact := by
  obtain ⟨before, hbefore, rfl⟩ := Meter.used_record h
  exact ⟨before, hbefore, UInt64.lt_of_le_of_lt (Cost.le_satAdd _ _) hmax,
    Cost.satAdd_of_lt_max hmax⟩

end Machine

end MeteredTree

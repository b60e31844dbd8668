import Mathlib.Control.Monad.Basic
import MeteredTree.Proofs.Balance
import MeteredTree.Proofs.Settling

/-! One run with and without a limit. The two machines go in step and differ
in their meters only, until the sum of the charges passes the limit. -/

namespace MeteredTree.Machine

def withMeter (m : Machine) (meter : Meter) : Machine :=
  { m with meter := meter }

/-- The step that fails comes when `used` has been charged. -/
def FailsAt (m : Machine) (used : Cost) (e : EvalError) : Prop :=
  ∃ s, m.Reachable s ∧ s.meter.used = .ok used ∧ s.step.outcome = .error e

/-- What a step does to the stacks, and what it charges, does not depend on
the meter. -/
theorem step_withMeter (m : Machine) :
    (∀ meter, (m.withMeter meter).step = ⟨m.withMeter meter, [], .ok ()⟩) ∨
    (∃ (next : Machine) (events : List Event) (cost : Cost), ∀ meter, (m.withMeter meter).step =
      ⟨next.withMeter (meter.record cost), events, (meter.record cost).check⟩) ∨
    (∃ (next : Machine) (events : List Event) (e : EvalError), ∀ meter, (m.withMeter meter).step =
      ⟨next.withMeter meter, events, .error e⟩) := by
  obtain ⟨table, pending, values, meter⟩ := m
  cases pending with
  | nil => exact .inl fun _ => rfl
  | cons op pending =>
    let effect := op.perform table pending values
    let next : Machine := ⟨table, effect.pending, effect.values, meter⟩
    cases hp : (op.perform table pending values).outcome with
    | ok cost => exact .inr (.inl ⟨next, effect.events, cost, fun _ => step_of_perform_ok hp⟩)
    | error e => exact .inr (.inr ⟨next, effect.events, e, fun _ => step_of_perform_error hp⟩)

theorem StepsTo.limited {m m' : Machine} {limit used : Cost} (h : m.StepsTo m')
    (hm : m.meter = .unbounded used) (hle : used ≤ limit) :
    ∃ used', m'.meter = .unbounded used' ∧ used ≤ used' ∧
      (used' ≤ limit →
        (m.withMeter (.bounded limit used)).StepsTo (m'.withMeter (.bounded limit used'))) ∧
      (limit < used' →
        (m.withMeter (.bounded limit used)).step.outcome = .error (.costExceeded limit)) := by
  have hself : m.withMeter (.unbounded used) = m := by rw [← hm]; rfl
  obtain ⟨ho, rfl⟩ := h
  rcases m.step_withMeter with hf | ⟨next, events, cost, hc⟩ | ⟨next, events, e, he⟩
  · have hs := hf (.unbounded used)
    rw [hself] at hs
    refine ⟨used, by rw [hs]; exact hm, UInt64.le_refl used, fun _ => ?_, ?_⟩
    · rw [StepsTo, hf, hs]
      exact ⟨rfl, rfl⟩
    · exact fun hlt => absurd hle (UInt64.not_le.mpr hlt)
  · have hs := hc (.unbounded used)
    rw [hself] at hs
    refine ⟨Cost.satAdd used cost, by rw [hs]; rfl, Cost.le_satAdd used cost, ?_, ?_⟩
    · intro hle'
      rw [StepsTo, hc, hs, Meter.record_bounded_of_le hle']
      exact ⟨rfl, rfl⟩
    · intro hlt
      rw [hc, Meter.record_bounded_of_lt hlt]
      rfl
  · have hs := he (.unbounded used)
    rw [hself] at hs
    rw [hs] at ho
    cases ho

theorem step_error_withMeter {m : Machine} {used : Cost} {e : EvalError}
    (hm : m.meter = .unbounded used) (h : m.step.outcome = .error e) (meter : Meter) :
    (m.withMeter meter).step.outcome = .error e := by
  have hself : m.withMeter (.unbounded used) = m := by rw [← hm]; rfl
  rw [← hself] at h
  rcases m.step_withMeter with hf | ⟨next, events, cost, hc⟩ | ⟨next, events, e', he⟩
  · rw [hf] at h
    cases h
  · rw [hc] at h
    cases h
  · rw [he] at h ⊢
    exact h

/-- Up to the limit the two machines reach the same states. Past it, the one
with the limit has failed. -/
theorem Reachable.limited {m s : Machine} {limit used : Cost} (h : m.Reachable s)
    (hm : m.meter = .unbounded used) (hle : used ≤ limit) :
    ∃ used', s.meter = .unbounded used' ∧ used ≤ used' ∧
      (used' ≤ limit →
        (m.withMeter (.bounded limit used)).Reachable (s.withMeter (.bounded limit used'))) ∧
      (limit < used' →
        (m.withMeter (.bounded limit used)).Returns (.error (.costExceeded limit))) := by
  induction h using Relation.ReflTransGen.head_induction_on generalizing used limit with
  | refl =>
    exact ⟨used, hm, UInt64.le_refl used, fun _ => .refl,
      fun hlt => absurd hle (UInt64.not_le.mpr hlt)⟩
  | head hstep hr ih =>
    obtain ⟨middle, hmid, hge, hwithin, hover⟩ := hstep.limited hm hle
    by_cases hlt : limit < middle
    · obtain ⟨used', hs, hge', _⟩ := ih hmid (Cost.le_max middle)
      have hlt' := UInt64.lt_of_lt_of_le hlt hge'
      exact ⟨used', hs, UInt64.le_trans hge hge',
        fun hle' => absurd hle' (UInt64.not_le.mpr hlt'), fun _ => returns_error (hover hlt)⟩
    · have hb := hwithin (UInt64.not_lt.mp hlt)
      obtain ⟨used', hs, hge', hreach, hfail⟩ := ih hmid (UInt64.not_lt.mp hlt)
      exact ⟨used', hs, UInt64.le_trans hge hge', fun h => .head hb (hreach h),
        fun h => hb.returns (hfail h)⟩

theorem result_withMeter {m : Machine} {limit used : Cost} (hm : m.meter = .unbounded used) :
    (m.withMeter (.bounded limit used)).result = m.result := by
  simp only [result, withMeter, hm, Meter.used]

theorem cost_of_result {m : Machine} {used : Cost} {r : Reduction}
    (hm : m.meter = .unbounded used) (h : m.result = .ok r) : r.cost = used := by
  cases hv : m.values with
  | nil => simp [result, hm, hv, Meter.used, fault] at h
  | cons value values =>
    rw [result, hm, hv] at h
    cases h
    rfl

theorem values_ne_nil_of_finished {table : OperatorTable} {program env : Node}
    {limit : Option Cost} {s : Machine} (h : (new table program env limit).Reachable s)
    (hp : s.pending = []) : s.values ≠ [] := by
  intro hv
  have hb := Reachable.balance h
  simp [new, hp, hv] at hb

theorem failsAt_of_returns {table : OperatorTable} {program env : Node} {e : EvalError}
    (h : (new table program env none).Returns (.error e)) :
    ∃ used, (new table program env none).FailsAt used e := by
  obtain ⟨s, hr, hend⟩ := returns_iff.mp h
  obtain ⟨used, hs, _⟩ := Reachable.limited hr rfl (Cost.le_max 0)
  rcases hend with ⟨hp, hres⟩ | ⟨e', he, heq⟩
  · obtain ⟨value, values, hv⟩ := List.exists_cons_of_ne_nil (values_ne_nil_of_finished hr hp)
    rw [result, hs, hv] at hres
    cases hres
  · cases heq
    exact ⟨used, s, hr, by rw [hs]; rfl, he⟩

theorem returns_limited_ok {table : OperatorTable} {program env value : Node} {cost : Cost}
    (h : (new table program env none).Returns (.ok ⟨cost, value⟩)) (limit : Cost) :
    (new table program env (some limit)).Returns
      (if cost ≤ limit then .ok ⟨cost, value⟩ else .error (.costExceeded limit)) := by
  obtain ⟨s, hr, hend⟩ := returns_iff.mp h
  obtain ⟨used, hs, _, hreach, hfail⟩ := Reachable.limited hr rfl UInt64.zero_le
  rcases hend with ⟨hp, hres⟩ | ⟨e, _, he⟩
  · obtain rfl : cost = used := cost_of_result hs hres
    by_cases hle : cost ≤ limit
    · rw [if_pos hle]
      exact returns_iff.mpr ⟨_, hreach hle, .inl ⟨hp, (result_withMeter hs).trans hres⟩⟩
    · rw [if_neg hle]
      exact hfail (UInt64.not_le.mp hle)
  · cases he

theorem FailsAt.returns_limited {table : OperatorTable} {program env : Node} {used : Cost}
    {e : EvalError} (h : (new table program env none).FailsAt used e) (limit : Cost) :
    (new table program env (some limit)).Returns
      (if used ≤ limit then .error e else .error (.costExceeded limit)) := by
  obtain ⟨s, hr, hused, he⟩ := h
  obtain ⟨used', hs, _, hreach, hfail⟩ := Reachable.limited hr rfl UInt64.zero_le
  obtain rfl : used' = used := by simpa [hs, Meter.used] using hused
  by_cases hle : used' ≤ limit
  · rw [if_pos hle]
    exact returns_iff.mpr ⟨_, hreach hle, .inr ⟨e, step_error_withMeter hs he _, rfl⟩⟩
  · rw [if_neg hle]
    exact hfail (UInt64.not_le.mp hle)

/-- A limit decides between the outcome without it and a failure of its own,
by the cost of a result and by what was charged before an error. -/
theorem limit_is_threshold (table : OperatorTable) (program env : Node) (limit : Cost) :
    (∀ cost value, (new table program env none).Returns (.ok ⟨cost, value⟩) →
      ∀ response, (new table program env (some limit)).Returns response ↔
        response = if cost ≤ limit then .ok ⟨cost, value⟩ else .error (.costExceeded limit)) ∧
    (∀ e, (new table program env none).Returns (.error e) →
      ∃ used, (new table program env none).FailsAt used e) ∧
    (∀ used e, (new table program env none).FailsAt used e →
      ∀ response, (new table program env (some limit)).Returns response ↔
        response = if used ≤ limit then .error e else .error (.costExceeded limit)) := by
  refine ⟨?_, fun e h => failsAt_of_returns h, ?_⟩
  · intro cost value h response
    exact (returns_limited_ok h limit).iff_eq
  · intro used e h response
    exact (h.returns_limited limit).iff_eq

theorem limit_is_threshold_add :
    let table := OperatorTable.standard none
    let sum (path : UInt8) : Node := .pair (.atom [16])
      (.pair (.atom [path]) (.pair (.pair (.atom [1]) (.atom [0, 175])) .nil))
    let run (path : UInt8) := new table (sum path) (.atom [25])
    let e := EvalError.fault .pathIntoAtom (.atom [25])
    (run 1 (some 832)).Returns (.error (.costExceeded 832)) ∧
    (∃ used, (run 2 none).FailsAt used e) ∧ (run 2 (some 832)).Returns (.error e) := by
  intro table sum run e
  have hok : (run 1 none).Returns (.ok ⟨833, .atom [0, 200]⟩) := ⟨8, by decide +kernel⟩
  have herror : (run 2 none).Returns (.error e) := ⟨6, by decide +kernel⟩
  have hfails : (run 2 none).FailsAt 21 e :=
    ⟨_, reachable_after 5 (by decide +kernel), by decide +kernel, by decide +kernel⟩
  have h1 := limit_is_threshold table (sum 1) (.atom [25]) 832
  have h2 := limit_is_threshold table (sum 2) (.atom [25]) 832
  exact ⟨(h1.1 _ _ hok _).mpr (by decide), h2.2.1 e herror, (h2.2.2 _ _ hfails _).mpr (by decide)⟩

end MeteredTree.Machine

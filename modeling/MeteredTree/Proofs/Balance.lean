import Mathlib.Logic.Function.Iterate
import MeteredTree.Proofs.Runs

/-! Values against the operations that use them up. Each pending apply or
cons takes one value more than it gives back. Steps that succeed keep the
balance; one that fails leaves a value too few, and the machine never makes
up for it. -/

namespace MeteredTree

/-- How many operations are pending that take two values and give one. -/
def collectors (pending : List Operation) : Nat :=
  pending.count .apply + pending.count .cons

@[simp] theorem collectors_nil : collectors [] = 0 := rfl

@[simp] theorem collectors_apply (pending : List Operation) :
    collectors (.apply :: pending) = collectors pending + 1 := by
  simp [collectors]
  omega

@[simp] theorem collectors_cons (pending : List Operation) :
    collectors (.cons :: pending) = collectors pending + 1 := by
  simp [collectors]
  omega

@[simp] theorem collectors_eval (pending : List Operation) :
    collectors (.eval :: pending) = collectors pending := by
  simp [collectors]

@[simp] theorem collectors_swap (pending : List Operation) :
    collectors (.swap :: pending) = collectors pending := by
  simp [collectors]

theorem collectors_scheduled (items : List Node) (pending : List Operation) :
    collectors (scheduled items pending) = items.length + collectors pending := by
  induction items generalizing pending with
  | nil => simp
  | cons item items ih =>
    simp only [scheduled_cons, ih, collectors_swap, collectors_eval, collectors_cons,
      List.length_cons]
    omega

namespace Operation

variable {table : OperatorTable} {pending : List Operation} {op : Operation}
  {values : List Node} {effect : Effect}

theorem Branch.balance {cost : Cost} (h : Branch table pending op values effect)
    (ho : effect.outcome = .ok cost) :
    effect.values.length + collectors (op :: pending) =
      values.length + collectors effect.pending := by
  cases h with
  | operands hop ht env values =>
    simp only [List.length_cons, length_parked, collectors_scheduled, collectors_eval,
      collectors_apply]
    omega
  | cons | enter | primitive =>
    simp only [List.length_cons, collectors_eval, collectors_apply, collectors_cons]
    omega
  | swap | path | form | quote =>
    simp only [List.length_cons, collectors_eval, collectors_swap]
  | pathError | formError | operandsError | enterError | primitiveError | programAtom
  | operatorPair | underflow => cases ho

theorem Branch.shortage {e : EvalError} (h : Branch table pending op values effect)
    (ho : effect.outcome = .error e) (hle : values.length ≤ collectors (op :: pending) + 1) :
    effect.values.length ≤ collectors effect.pending := by
  cases h with
  | operandsError hop ht env values =>
    simp only [List.length_cons, collectors_eval] at hle
    simp only [List.length_cons, length_parked, collectors_scheduled, collectors_apply]
    omega
  | pathError | formError | enterError | primitiveError | programAtom | operatorPair =>
    simp only [List.length_cons, collectors_eval, collectors_apply] at hle
    simp only
    omega
  | underflow => exact Nat.zero_le _
  | cons | swap | path | form | quote | operands | enter | primitive => cases ho

/-- An operation that puts new ones in its place is charged for it. -/
theorem Branch.charged {cost : Cost} (h : Branch table pending op values effect)
    (ho : effect.outcome = .ok cost) : effect.pending = pending ∨ cost ≠ 0 := by
  cases h with
  | form | operands | enter => exact .inr (by cases ho; decide)
  | operandsError => cases ho
  | _ => exact .inl rfl

end Operation

namespace Machine

/-- The machine after `n` calls of a step, however they went. -/
def after (n : Nat) (m : Machine) : Machine :=
  (fun m => m.step.machine)^[n] m

theorem after_succ (n : Nat) (m : Machine) : m.after (n + 1) = (m.after n).step.machine :=
  Function.iterate_succ_apply' _ n m

theorem reachable_after (n : Nat) {m : Machine} (h : ∀ k < n, (m.after k).step.outcome = .ok ()) :
    m.Reachable (m.after n) := by
  induction n with
  | zero => exact .refl
  | succ n ih =>
    have hs : (m.after n).StepsTo (m.after (n + 1)) :=
      ⟨h n (Nat.lt_succ_self n), (after_succ n m).symm⟩
    exact .tail (ih fun k hk => h k (Nat.lt_succ_of_lt hk)) hs

/-- There are too few values to end with one, or the meter has stopped. -/
def Doomed (m : Machine) : Prop :=
  m.values.length ≤ collectors m.pending ∨ ∃ e, m.meter.used = .error e

theorem step_balance (m : Machine) :
    m.step = ⟨m, [], .ok ()⟩ ∧ m.pending = [] ∨
    (∃ cost, m.step.machine.values.length + collectors m.pending =
        m.values.length + collectors m.step.machine.pending ∧
      (m.step.machine.pending.length < m.pending.length ∨ cost ≠ 0) ∧
      m.step.machine.meter = m.meter.record cost ∧ m.step.outcome = (m.meter.record cost).check) ∨
    (∃ e, (m.values.length ≤ collectors m.pending + 1 →
        m.step.machine.values.length ≤ collectors m.step.machine.pending) ∧
      m.step.machine.meter = m.meter ∧ m.step.outcome = .error e) := by
  cases hp : m.pending with
  | nil => exact .inl ⟨step_finished hp, rfl⟩
  | cons op pending =>
    obtain ⟨effect, hb, ⟨cost, ho, hs⟩ | ⟨e, ho, hs⟩⟩ := step_branch hp
    · have hc : effect.pending.length < (op :: pending).length ∨ cost ≠ 0 :=
        (hb.charged ho).imp_left fun he => by simp [he]
      rw [hs]
      exact .inr (.inl ⟨cost, hb.balance ho, hc, rfl, rfl⟩)
    · rw [hs]
      exact .inr (.inr ⟨e, hb.shortage ho, rfl, rfl⟩)

theorem StepsTo.balance {m m' : Machine} (h : m.StepsTo m') :
    m'.values.length + collectors m.pending = m.values.length + collectors m'.pending := by
  obtain ⟨ho, rfl⟩ := h
  rcases m.step_balance with ⟨hf, _⟩ | ⟨cost, hb, _⟩ | ⟨e, _, _, he⟩
  · rw [hf]
  · exact hb
  · rw [he] at ho
    cases ho

theorem Reachable.balance {m m' : Machine} (h : m.Reachable m') :
    m'.values.length + collectors m.pending = m.values.length + collectors m'.pending := by
  induction h with
  | refl => rfl
  | tail _ hs ih =>
    have hb := hs.balance
    omega

theorem used_record_error {meter : Meter} {e : EvalError} (h : meter.used = .error e)
    (cost : Cost) : meter.record cost = meter := by
  cases meter with
  | overrun limit total => rfl
  | unbounded used => cases h
  | bounded limit used => cases h

theorem length_le_step {m : Machine} (h : m.values.length ≤ collectors m.pending + 1) :
    m.step.machine.values.length ≤ collectors m.step.machine.pending + 1 := by
  rcases m.step_balance with ⟨hf, _⟩ | ⟨cost, hb, _⟩ | ⟨e, hs, _⟩
  · rw [hf]
    exact h
  · omega
  · exact Nat.le_succ_of_le (hs h)

theorem doomed_of_error {m : Machine} {e : EvalError}
    (h : m.values.length ≤ collectors m.pending + 1) (he : m.step.outcome = .error e) :
    m.step.machine.Doomed := by
  rcases m.step_balance with ⟨hf, _⟩ | ⟨cost, _, _, hm, ho⟩ | ⟨e', hs, _⟩
  · rw [hf] at he
    cases he
  · cases hu : (m.meter.record cost).used with
    | ok used => simp [ho, Meter.check, hu, Except.map] at he
    | error e' => exact .inr ⟨e', by rw [hm, hu]⟩
  · exact .inl (hs h)

theorem Doomed.step {m : Machine} (h : m.Doomed) : m.step.machine.Doomed := by
  rcases m.step_balance with ⟨hf, _⟩ | ⟨cost, hb, _, hm, _⟩ | ⟨e, hs, hm, _⟩
  · rw [hf]
    exact h
  · rcases h with hv | ⟨e, he⟩
    · exact .inl (by omega)
    · exact .inr ⟨e, by rw [hm, used_record_error he, he]⟩
  · rcases h with hv | hu
    · exact .inl (hs (Nat.le_succ_of_le hv))
    · exact .inr (hm ▸ hu)

theorem Doomed.reachable {m m' : Machine} (h : m.Doomed) (hr : m.Reachable m') :
    m'.Doomed := by
  induction hr with
  | refl => exact h
  | tail _ hs ih => exact hs.2 ▸ ih.step

theorem Doomed.result {m : Machine} (h : m.Doomed) (hp : m.pending = []) :
    ∃ e, m.result = .error e := by
  rcases h with hv | ⟨e, he⟩
  · have hnil : m.values = [] := by simpa [hp] using hv
    cases hu : m.meter.used with
    | ok used => exact ⟨_, by rw [Machine.result, hu, hnil]; rfl⟩
    | error e => exact ⟨e, by rw [Machine.result, hu]⟩
  · exact ⟨e, by rw [Machine.result, he]⟩

theorem Doomed.not_returns_ok {m : Machine} (h : m.Doomed) (r : Reduction) :
    ¬ m.Returns (.ok r) := by
  intro hr
  obtain ⟨s, hs, hend⟩ := returns_iff.mp hr
  rcases hend with ⟨hp, hres⟩ | ⟨e, _, he⟩
  · obtain ⟨e, he⟩ := (h.reachable hs).result hp
    rw [he] at hres
    cases hres
  · cases he

theorem StepsTo.charged {m m' : Machine} {limit used : Cost} (h : m.StepsTo m')
    (hp : m.pending ≠ []) (hm : m.meter = .bounded limit used) :
    ∃ cost, m'.meter = .bounded limit (Cost.satAdd used cost) ∧ Cost.satAdd used cost ≤ limit ∧
      (m'.pending.length < m.pending.length ∨ cost ≠ 0) := by
  obtain ⟨ho, rfl⟩ := h
  rcases m.step_balance with ⟨_, hf⟩ | ⟨cost, _, hc, hm', ho'⟩ | ⟨e, _, _, he⟩
  · exact absurd hf hp
  · rw [hm] at hm' ho'
    by_cases hlt : limit < Cost.satAdd used cost
    · rw [ho', Meter.record_bounded_of_lt hlt] at ho
      cases ho
    · have hle := UInt64.not_lt.mp hlt
      exact ⟨cost, hm'.trans (Meter.record_bounded_of_le hle), hle, hc⟩
  · rw [he] at ho
    cases ho

theorem exists_returns_bounded {limit : Cost} (hmax : limit < Cost.max) (m : Machine)
    (used : Cost) (hm : m.meter = .bounded limit used) : ∃ response, m.Returns response := by
  by_cases hp : m.pending = []
  · exact ⟨_, returns_finished hp⟩
  · rcases m.step_cases with hs | ⟨e, he⟩
    · obtain ⟨cost, hm', hle, hc⟩ := hs.charged hp hm
      obtain ⟨response, hr⟩ :=
        exists_returns_bounded hmax m.step.machine (Cost.satAdd used cost) hm'
      exact ⟨response, hs.returns hr⟩
    · exact ⟨_, returns_error he⟩
termination_by (limit.toNat - used.toNat, m.pending.length)
decreasing_by
  have hge : used ≤ Cost.satAdd used cost := Cost.le_satAdd used cost
  by_cases hz : cost = 0
  · have hlen := hc.resolve_right (not_not_intro hz)
    have hsub : limit.toNat - (Cost.satAdd used cost).toNat ≤ limit.toNat - used.toNat :=
      Nat.sub_le_sub_left (UInt64.le_iff_toNat_le.mp hge) _
    exact Prod.Lex.right' _ hsub hlen
  · have hlt := Cost.lt_satAdd (UInt64.lt_of_le_of_lt (UInt64.le_trans hge hle) hmax) hz
    have hlt' := UInt64.lt_iff_toNat_lt.mp hlt
    have hle' := UInt64.le_iff_toNat_le.mp hle
    exact Prod.Lex.left _ _ (by omega)

/-- Under a limit below the largest cost every run ends, from any state. -/
theorem exists_returns {m : Machine} {limit : Cost} (hl : m.meter.limit = some limit)
    (hmax : limit < Cost.max) : ∃ response, m.Returns response := by
  cases hm : m.meter with
  | unbounded used => simp [hm, Meter.limit] at hl
  | bounded l used =>
    obtain rfl : l = limit := by simpa [hm, Meter.limit] using hl
    exact exists_returns_bounded hmax m used hm
  | overrun l total =>
    by_cases hp : m.pending = []
    · exact ⟨_, returns_finished hp⟩
    · rcases m.step_balance with ⟨_, hf⟩ | ⟨cost, _, _, _, ho⟩ | ⟨e, _, _, he⟩
      · exact absurd hf hp
      · rw [hm] at ho
        exact ⟨_, returns_error ho⟩
      · exact ⟨_, returns_error he⟩

theorem limit_step (m : Machine) : m.step.machine.meter.limit = m.meter.limit := by
  rcases m.step_balance with ⟨hf, _⟩ | ⟨cost, _, _, hm, _⟩ | ⟨e, _, hm, _⟩
  · rw [hf]
  · rw [hm, Meter.limit_record]
  · rw [hm]

theorem limit_after (n : Nat) (m : Machine) : (m.after n).meter.limit = m.meter.limit := by
  induction n with
  | zero => rfl
  | succ n ih => rw [after_succ, limit_step, ih]

theorem length_le_after {m : Machine} (h : m.values.length ≤ collectors m.pending + 1)
    (n : Nat) : (m.after n).values.length ≤ collectors (m.after n).pending + 1 := by
  induction n with
  | zero => exact h
  | succ n ih =>
    rw [after_succ]
    exact length_le_step ih

theorem doomed_after {m : Machine} (h : m.values.length ≤ collectors m.pending + 1) {k n : Nat}
    (hk : k < n) {e : EvalError} (he : (m.after k).step.outcome = .error e) :
    (m.after n).Doomed := by
  induction hk with
  | refl =>
    rw [after_succ]
    exact doomed_of_error (length_le_after h k) he
  | step _ ih =>
    rw [after_succ]
    exact ih.step

theorem Doomed.returns_error_or_never {m : Machine} (h : m.Doomed) :
    (∃ e, m.Returns (.error e)) ∨ ∀ steps, m.runFor steps = none := by
  by_cases hr : ∃ response, m.Returns response
  · obtain ⟨response, hr⟩ := hr
    cases response with
    | ok r => exact absurd hr (h.not_returns_ok r)
    | error e => exact .inl ⟨e, hr⟩
  · refine .inr fun steps => ?_
    cases hs : m.runFor steps with
    | none => rfl
    | some response => exact absurd ⟨response, steps, hs⟩ hr

/-- The program that runs its environment as a program in that environment. -/
def selfApplication : Node :=
  .ofList [.atom [2], .atom [1], .atom [1]]

/-- The stacks while that program runs itself: it reads its environment twice
and applies it, which is where it started. -/
def selfApplicationStage : Fin 8 → List Operation × List Node
  | 0 => ([.eval], [.pair selfApplication selfApplication])
  | 1 => ([.swap, .eval, .cons, .swap, .eval, .cons, .apply],
      [.nil, .pair (.atom [1]) selfApplication, .pair (.atom [1]) selfApplication, .atom [2]])
  | 2 => ([.eval, .cons, .swap, .eval, .cons, .apply],
      [.pair (.atom [1]) selfApplication, .nil, .pair (.atom [1]) selfApplication, .atom [2]])
  | 3 => ([.cons, .swap, .eval, .cons, .apply],
      [selfApplication, .nil, .pair (.atom [1]) selfApplication, .atom [2]])
  | 4 => ([.swap, .eval, .cons, .apply],
      [.ofList [selfApplication], .pair (.atom [1]) selfApplication, .atom [2]])
  | 5 => ([.eval, .cons, .apply],
      [.pair (.atom [1]) selfApplication, .ofList [selfApplication], .atom [2]])
  | 6 => ([.cons, .apply], [selfApplication, .ofList [selfApplication], .atom [2]])
  | 7 => ([.apply], [.ofList [selfApplication, selfApplication], .atom [2]])

/-- A machine at one of these stages, without a limit, above whatever else there
is on the stacks. -/
def selfApplying (i : Fin 8) (pending : List Operation) (values : List Node) (used : Cost) :
    Machine :=
  ⟨.standard none, (selfApplicationStage i).1 ++ pending, (selfApplicationStage i).2 ++ values,
    .unbounded used⟩

theorem stepsTo_selfApplying (i : Fin 8) (pending : List Operation) (values : List Node)
    (used : Cost) : ∃ used',
      (selfApplying i pending values used).StepsTo (selfApplying (i + 1) pending values used') := by
  match i with
  | 0 | 1 | 2 | 3 | 4 | 5 | 6 | 7 => exact ⟨_, rfl, rfl⟩

theorem runFor_selfApplying (i : Fin 8) (pending : List Operation) (values : List Node)
    (used : Cost) (steps : Nat) : (selfApplying i pending values used).runFor steps = none := by
  refine runFor_eq_none (P := fun m => ∃ i used, m = selfApplying i pending values used) ?_
    ⟨i, used, rfl⟩ steps
  rintro _ ⟨i, used, rfl⟩
  obtain ⟨used', ho, hm⟩ := stepsTo_selfApplying i pending values used
  refine ⟨?_, ho, i + 1, used', hm⟩
  match i with
  | 0 | 1 | 2 | 3 | 4 | 5 | 6 | 7 => exact List.cons_ne_nil _ _

/-- Once a call of a step has failed, no further calls bring a machine back.
Its run never gives a result: it ends in an error or goes on for ever, and the
second cannot be under a limit below the largest cost. -/
theorem no_result_after_error (table : OperatorTable) (program env : Node) (limit : Option Cost)
    {k n : Nat} (hk : k < n) {e : EvalError}
    (he : ((new table program env limit).after k).step.outcome = .error e) :
    let m := (new table program env limit).after n
    (∀ r, ¬ m.Returns (.ok r)) ∧
    ((∃ e', m.Returns (.error e')) ∨ ∀ steps, m.runFor steps = none) ∧
    (∀ l, limit = some l → l < Cost.max → ∃ e', m.Returns (.error e')) := by
  intro m
  have hd : m.Doomed := doomed_after (by simp [new]) hk he
  refine ⟨hd.not_returns_ok, hd.returns_error_or_never, ?_⟩
  rintro l rfl hmax
  have hl : m.meter.limit = some l := limit_after n _
  obtain ⟨response, hr⟩ := exists_returns hl hmax
  cases response with
  | ok r => exact absurd hr (hd.not_returns_ok r)
  | error e' => exact ⟨e', hr⟩

theorem no_result_after_error_path :
    let m := new (.standard none) (.pair (.atom [4]) (.pair (.atom [1]) (.pair (.atom [2]) .nil)))
      .nil (some 1000)
    (m.after 2).step.outcome = .error (.fault .pathIntoAtom .nil) ∧
    (∀ r, ¬ (m.after 5).Returns (.ok r)) ∧ ∃ e, (m.after 5).Returns (.error e) := by
  intro m
  have he : (m.after 2).step.outcome = .error (.fault .pathIntoAtom .nil) := by rfl
  have h := no_result_after_error (.standard none) _ .nil (some 1000) (show 2 < 5 by decide) he
  exact ⟨he, h.1, h.2.2 1000 rfl (by decide)⟩

/-- Without a limit the run need not end: here the step that fails has scheduled
an operand that runs for ever. -/
theorem endless_run_after_error :
    let m := new (.standard none)
      (.pair (.atom [16]) (.pair selfApplication (.pair (.atom [1]) (.atom [5]))))
      selfApplication none
    m.step.outcome = .error (.fault .firstOfAtom (.atom [5])) ∧
    ∀ steps, (m.after 1).runFor steps = none := by
  intro m
  have hswap : (m.after 1).StepsTo
      (selfApplying 0 [.cons, .swap, .eval, .cons, .apply]
        [.pair (.atom [1]) selfApplication, .atom [16]] 0) := ⟨rfl, rfl⟩
  refine ⟨rfl, fun steps => ?_⟩
  cases steps with
  | zero => rfl
  | succ steps =>
    rw [runFor_succ (List.cons_ne_nil _ _) hswap]
    exact runFor_selfApplying _ _ _ _ steps

end Machine

end MeteredTree

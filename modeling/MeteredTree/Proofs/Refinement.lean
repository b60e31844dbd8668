import Mathlib.Control.Monad.Basic
import MeteredTree.Proofs.Evaluation
import MeteredTree.Proofs.Settling

/-! The machine against the rules of evaluation. A program on top of the two
stacks comes to what the rules give it, at the cost they give it, and leaves
what is below on both stacks as it was. -/

namespace MeteredTree

namespace Machine

/-- About to evaluate a program. -/
def entering (table : OperatorTable) (pending : List Operation) (values : List Node)
    (used : Nat) (program env : Node) : Machine :=
  ⟨table, .eval :: pending, .pair program env :: values, .unbounded (Cost.clamp used)⟩

/-- About to evaluate operands and to collect their values. -/
def gathering (table : OperatorTable) (pending : List Operation) (values : List Node)
    (used : Nat) (env : Node) (items : List Node) : Machine :=
  ⟨table, scheduled items pending, .nil :: parked env items values,
    .unbounded (Cost.clamp used)⟩

/-- About to run an operator on its arguments. -/
def applying (table : OperatorTable) (pending : List Operation) (values : List Node)
    (used : Nat) (op : Bytes) (args : Node) : Machine :=
  ⟨table, .apply :: pending, args :: .atom op :: values, .unbounded (Cost.clamp used)⟩

/-- Back at `pending` and `values`, with the value of an outcome on top and
its cost charged. -/
def leaving (table : OperatorTable) (pending : List Operation) (values : List Node)
    (used : Nat) : Outcome → Except EvalError Machine :=
  Except.map fun r => ⟨table, pending, r.2 :: values, .unbounded (Cost.clamp (used + r.1))⟩

variable {table : OperatorTable} {pending : List Operation} {values : List Node} {used : Nat}

theorem leaving_after (cost : Nat) (outcome : Outcome) :
    leaving table pending values used (.after cost outcome) =
      leaving table pending values (used + cost) outcome := by
  cases outcome with
  | ok r => simp only [leaving, Outcome.after, Except.map, Nat.add_assoc]
  | error e => rfl

theorem leaving_onto (cost : Nat) (args : Node) (outcome : Outcome) :
    leaving table pending values used (.onto cost args outcome) =
      leaving table pending values (used + cost) (.onto 0 args outcome) := by
  cases outcome with
  | ok r => simp only [leaving, Outcome.onto, Except.map, Nat.add_assoc, Nat.zero_add]
  | error e => rfl

theorem stepsTo_of_branch {op : Operation} {pending' : List Operation} {values' : List Node}
    {events : List Event} {cost : Cost}
    (h : op.Branch table pending values ⟨pending', values', events, .ok cost⟩) :
    StepsTo ⟨table, op :: pending, values, .unbounded (Cost.clamp used)⟩
      ⟨table, pending', values', .unbounded (Cost.clamp (used + cost.toNat))⟩ := by
  have hp := h.perform_eq
  have ho : (op.perform table pending values).outcome = .ok cost := by rw [hp]
  rw [StepsTo, step_of_perform_ok ho, hp, Meter.record_unbounded_clamp]
  exact ⟨rfl, rfl⟩

theorem error_of_branch {op : Operation} {pending' : List Operation} {values' : List Node}
    {events : List Event} {e : EvalError} {meter : Meter}
    (h : op.Branch table pending values ⟨pending', values', events, .error e⟩) :
    (step ⟨table, op :: pending, values, meter⟩).outcome = .error e := by
  have ho : (op.perform table pending values).outcome = .error e := by rw [h.perform_eq]
  rw [step_of_perform_error ho]

theorem settles_of_branch {op : Operation} {values' : List Node} {events : List Event}
    {cost : Cost} {value : Node}
    (h : op.Branch table pending values ⟨pending, value :: values', events, .ok cost⟩) :
    Settles pending ⟨table, op :: pending, values, .unbounded (Cost.clamp used)⟩
      (leaving table pending values' used (.ok (cost.toNat, value))) :=
  (stepsTo_of_branch h).settles (List.cons_ne_self op pending) (settles_base rfl)

theorem settles_error_of_branch {op : Operation} {pending' : List Operation}
    {values' below : List Node} {events : List Event} {e : EvalError}
    (h : op.Branch table pending values ⟨pending', values', events, .error e⟩) :
    Settles pending ⟨table, op :: pending, values, .unbounded (Cost.clamp used)⟩
      (leaving table pending below used (.error e)) :=
  settles_error (List.cons_ne_self op pending) (error_of_branch h)

theorem settles_path (path : Bytes) (env : Node) :
    (entering table pending values used (.atom path) env).Settles pending
      (leaving table pending values used (.ofResponse (Path.lookup path env))) := by
  cases h : Path.lookup path env with
  | ok r => exact settles_of_branch (.path h values)
  | error e => exact settles_error_of_branch (.pathError h values)

theorem settles_primitive {op : Bytes} (hop : op ≠ [table.apply]) (args : Node) :
    (applying table pending values used op args).Settles pending
      (leaving table pending values used (.ofResponse (table.eval (.atom op) args))) := by
  cases h : table.eval (.atom op) args with
  | ok r => exact settles_of_branch (.primitive hop h values)
  | error e => exact settles_error_of_branch (.primitiveError hop h values)

theorem stepsTo_form {tail : Node} (h : tail.isNil = true) (inner operands env : Node) :
    (entering table pending values used (.pair (.pair inner tail) operands) env).StepsTo
      (entering table pending values (used + Price.apply.toNat) inner operands) :=
  stepsTo_of_branch (.form h inner operands env values)

theorem stepsTo_operands {op : Bytes} {operands : Node} (hop : op ≠ [table.quote])
    (h : operands.terminator = []) (env : Node) :
    (entering table pending values used (.pair (.atom op) operands) env).StepsTo
      (gathering table (.apply :: pending) (.atom op :: values) (used + Price.operands.toNat)
        env operands.items) :=
  stepsTo_of_branch (.operands hop h env values)

theorem stepsTo_enter {args program env : Node} (h : args.items = [program, env]) :
    (applying table pending values used [table.apply] args).StepsTo
      (entering table pending values (used + Price.apply.toNat) program env) :=
  stepsTo_of_branch (.enter h values)

theorem stepsTo_swap (upper lower : Node) :
    StepsTo ⟨table, .swap :: pending, upper :: lower :: values, .unbounded (Cost.clamp used)⟩
      ⟨table, pending, lower :: upper :: values, .unbounded (Cost.clamp used)⟩ :=
  stepsTo_of_branch (.swap upper lower values)

theorem settles_cons (first rest : Node) :
    Settles pending
      ⟨table, .cons :: pending, first :: rest :: values, .unbounded (Cost.clamp used)⟩
      (.ok ⟨table, pending, .pair first rest :: values, .unbounded (Cost.clamp used)⟩) :=
  settles_of_branch (.cons first rest values)

/-- The machine brings a program to an outcome, whatever lies below it. -/
def Realizes (table : OperatorTable) (program env : Node) (outcome : Outcome) : Prop :=
  ∀ pending values used, (entering table pending values used program env).Settles pending
    (leaving table pending values used outcome)

def RealizesAll (table : OperatorTable) (env : Node) (items : List Node) (outcome : Outcome) :
    Prop :=
  ∀ pending values used, (gathering table pending values used env items).Settles pending
    (leaving table pending values used outcome)

def RealizesCall (table : OperatorTable) (op : Bytes) (args : Node) (outcome : Outcome) : Prop :=
  ∀ pending values used, (applying table pending values used op args).Settles pending
    (leaving table pending values used outcome)

theorem Realizes.form {inner tail operands : Node} {outcome : Outcome}
    (ht : tail.isNil = true) (h : Realizes table inner operands outcome) (env : Node) :
    Realizes table (.pair (.pair inner tail) operands) env (.after Price.apply.toNat outcome) := by
  intro pending values used
  rw [leaving_after]
  exact (stepsTo_form ht inner operands env).settles (List.cons_ne_self _ _) (h _ _ _)

theorem Realizes.operandError {op : Bytes} {operands env : Node} {e : EvalError}
    (hop : op ≠ [table.quote]) (ht : operands.terminator = [])
    (h : RealizesAll table env operands.items (.error e)) :
    Realizes table (.pair (.atom op) operands) env (.error e) := by
  intro pending values used
  apply (stepsTo_operands hop ht env).settles (List.cons_ne_self _ _)
  apply Settles.trans (List.suffix_cons _ pending) (suffix_scheduled _ _) (h _ _ _)
  · rintro m' ⟨⟩
  · intro e' he
    exact he

theorem Realizes.call {op : Bytes} {operands env args : Node} {cost : Nat} {outcome : Outcome}
    (hop : op ≠ [table.quote]) (ht : operands.terminator = [])
    (h : RealizesAll table env operands.items (.ok (cost, args)))
    (ha : RealizesCall table op args outcome) :
    Realizes table (.pair (.atom op) operands) env
      (.after (Price.operands.toNat + cost) outcome) := by
  intro pending values used
  rw [leaving_after, ← Nat.add_assoc]
  apply (stepsTo_operands hop ht env).settles (List.cons_ne_self _ _)
  apply Settles.trans (List.suffix_cons _ pending) (suffix_scheduled _ _) (h _ _ _)
  · rintro m' ⟨rfl⟩
    exact ha _ _ _
  · rintro e ⟨⟩

theorem RealizesCall.enter {args program env : Node} {outcome : Outcome}
    (hi : args.items = [program, env]) (h : Realizes table program env outcome) :
    RealizesCall table [table.apply] args (.after Price.apply.toNat outcome) := by
  intro pending values used
  rw [leaving_after]
  exact (stepsTo_enter hi).settles (List.cons_ne_self _ _) (h _ _ _)

theorem RealizesAll.laterError {env item : Node} {items : List Node} {e : EvalError}
    (h : RealizesAll table env items (.error e)) :
    RealizesAll table env (item :: items) (.error e) := by
  intro pending values used
  apply Settles.trans (List.suffix_append [.swap, .eval, .cons] pending)
    (suffix_scheduled items _) (h _ _ _)
  · rintro m' ⟨⟩
  · intro e' he
    exact he

theorem swap_ne (pending : List Operation) : .swap :: .eval :: .cons :: pending ≠ pending := by
  intro he
  have hl := congrArg List.length he
  simp only [List.length_cons] at hl
  omega

/-- Once the later operands have their values, an operand is brought on top
of their list and evaluated over it. -/
theorem settles_operand {env item : Node} {outcome : Outcome} (args : Node)
    (h : Realizes table item env outcome) :
    Settles pending ⟨table, .swap :: .eval :: .cons :: pending, args :: .pair item env :: values,
      .unbounded (Cost.clamp used)⟩ (leaving table pending values used (.onto 0 args outcome)) := by
  have hs : .cons :: pending <:+ Operation.eval :: .cons :: pending := List.suffix_cons _ _
  apply (stepsTo_swap args (.pair item env)).settles (swap_ne pending)
  apply Settles.trans (List.suffix_cons .cons pending) hs (h _ _ _)
  · intro m' hm'
    cases outcome with
    | ok r =>
      cases hm'
      rw [Outcome.onto, Except.map, Nat.zero_add]
      exact settles_cons r.2 args
    | error e => cases hm'
  · intro e he
    cases outcome with
    | ok r => cases he
    | error e' => exact he

theorem RealizesAll.cons {env item args : Node} {items : List Node} {cost : Nat}
    {outcome : Outcome} (h : RealizesAll table env items (.ok (cost, args)))
    (hitem : Realizes table item env outcome) :
    RealizesAll table env (item :: items) (.onto cost args outcome) := by
  intro pending values used
  apply Settles.trans (List.suffix_append [.swap, .eval, .cons] pending)
    (suffix_scheduled items _) (h _ _ _)
  · rintro m' ⟨rfl⟩
    rw [leaving_onto]
    exact settles_operand args hitem
  · rintro e ⟨⟩

mutual

theorem realizes_of_evaluates {program env : Node} {outcome : Outcome} :
    Evaluates table program env outcome → Realizes table program env outcome
  | .path path env => fun _ _ _ => settles_path path env
  | .form ht h env => (realizes_of_evaluates h).form ht env
  | .formError ht inner operands env =>
    fun _ values _ => settles_error_of_branch (.formError ht inner operands env values)
  | .quote operands env => fun _ values _ => settles_of_branch (.quote operands env values)
  | .operandsError hop ht env =>
    fun _ values _ => settles_error_of_branch (.operandsError hop ht env values)
  | .operandError hop ht h => .operandError hop ht (realizesAll_of_evaluatesAll h)
  | .call hop ht h ha =>
    .call hop ht (realizesAll_of_evaluatesAll h) (realizesCall_of_applies ha)

theorem realizesAll_of_evaluatesAll {env : Node} {items : List Node} {outcome : Outcome} :
    EvaluatesAll table env items outcome → RealizesAll table env items outcome
  | .nil _ => fun _ _ _ => settles_base rfl
  | .laterError h _ => (realizesAll_of_evaluatesAll h).laterError
  | .cons h hitem => (realizesAll_of_evaluatesAll h).cons (realizes_of_evaluates hitem)

theorem realizesCall_of_applies {op : Bytes} {args : Node} {outcome : Outcome} :
    Applies table op args outcome → RealizesCall table op args outcome
  | .enter hi h => .enter hi (realizes_of_evaluates h)
  | .enterError hi => fun _ values _ => settles_error_of_branch (.enterError hi values)
  | .primitive hop args => fun _ _ _ => settles_primitive hop args

end

theorem evaluatesAll_of_runTo {env : Node} {items : List Node} {steps : Nat}
    {ending : Except EvalError Machine}
    (ih : ∀ k < steps, ∀ pending values used program env ending,
      (entering table pending values used program env).runTo pending k = some ending →
        ∃ outcome, Evaluates table program env outcome)
    (h : (gathering table pending values used env items).runTo pending steps = some ending) :
    ∃ outcome, EvaluatesAll table env items outcome := by
  induction items generalizing pending values ending with
  | nil => exact ⟨_, .nil env⟩
  | cons item items ihItems =>
    obtain ⟨middle, hmid, hrest⟩ := runTo_split (List.suffix_append [.swap, .eval, .cons] pending)
      (suffix_scheduled items _) h
    obtain ⟨later, hl⟩ := ihItems hmid
    cases later with
    | error e => exact ⟨_, .laterError hl item⟩
    | ok r =>
      obtain ⟨cost, args⟩ := r
      have hm := (realizesAll_of_evaluatesAll hl _ _ _).unique ⟨steps, hmid⟩
      obtain ⟨k, hk, hrun⟩ := hrest _ hm.symm
      obtain ⟨j, hj, hrun⟩ := runTo_of_stepsTo (stepsTo_swap args (.pair item env))
        (swap_ne pending) hrun
      obtain ⟨_, hitem, _⟩ := runTo_split (List.suffix_cons .cons pending)
        (List.suffix_cons Operation.eval _) hrun
      obtain ⟨outcome, ho⟩ := ih j (by omega) _ _ _ _ _ _ hitem
      exact ⟨_, .cons hl ho⟩

theorem applies_of_runTo {op : Bytes} {args : Node} {steps : Nat}
    {ending : Except EvalError Machine}
    (ih : ∀ k < steps, ∀ pending values used program env ending,
      (entering table pending values used program env).runTo pending k = some ending →
        ∃ outcome, Evaluates table program env outcome)
    (h : (applying table pending values used op args).runTo pending steps = some ending) :
    ∃ outcome, Applies table op args outcome := by
  by_cases hop : op = [table.apply]
  · subst hop
    by_cases hi : ∃ program env, args.items = [program, env]
    · obtain ⟨program, env, hi⟩ := hi
      obtain ⟨k, hk, hrun⟩ := runTo_of_stepsTo (stepsTo_enter hi) (List.cons_ne_self _ _) h
      obtain ⟨outcome, ho⟩ := ih k hk _ _ _ _ _ _ hrun
      exact ⟨_, .enter hi ho⟩
    · exact ⟨_, .enterError fun program env he => hi ⟨program, env, he⟩⟩
  · exact ⟨_, .primitive hop args⟩

theorem evaluates_of_runTo {program env : Node} {steps : Nat} {ending : Except EvalError Machine}
    (h : (entering table pending values used program env).runTo pending steps = some ending) :
    ∃ outcome, Evaluates table program env outcome := by
  induction steps using Nat.strongRecOn generalizing pending values used program env ending with
  | ind steps ih =>
    match program with
    | .atom path => exact ⟨_, .path path env⟩
    | .pair (.pair inner tail) operands =>
      cases ht : tail.isNil with
      | true =>
        obtain ⟨k, hk, hrun⟩ := runTo_of_stepsTo (stepsTo_form ht inner operands env)
          (List.cons_ne_self _ _) h
        obtain ⟨outcome, ho⟩ := ih k hk hrun
        exact ⟨_, .form ht ho env⟩
      | false => exact ⟨_, .formError ht inner operands env⟩
    | .pair (.atom op) operands =>
      by_cases hop : op = [table.quote]
      · subst hop
        exact ⟨_, .quote operands env⟩
      by_cases ht : operands.terminator = []
      · obtain ⟨k, hk, hrun⟩ := runTo_of_stepsTo (stepsTo_operands hop ht env)
          (List.cons_ne_self _ _) h
        obtain ⟨middle, hmid, hrest⟩ := runTo_split (List.suffix_cons .apply pending)
          (suffix_scheduled _ _) hrun
        obtain ⟨result, hr⟩ := evaluatesAll_of_runTo
          (fun j hj _ _ _ _ _ _ hrun => ih j (Nat.lt_trans hj hk) hrun) hmid
        cases result with
        | error e => exact ⟨_, .operandError hop ht hr⟩
        | ok r =>
          obtain ⟨cost, args⟩ := r
          have hm := (realizesAll_of_evaluatesAll hr _ _ _).unique ⟨k, hmid⟩
          obtain ⟨j, hj, hrun⟩ := hrest _ hm.symm
          obtain ⟨outcome, ha⟩ := applies_of_runTo
            (fun i hi _ _ _ _ _ _ hrun => ih i (by omega) hrun) hrun
          exact ⟨_, .call hop ht hr ha⟩
      · exact ⟨_, .operandsError hop ht env⟩

theorem settles_iff_leaving {program env : Node} {ending : Except EvalError Machine} :
    (entering table pending values used program env).Settles pending ending ↔
      ∃ outcome, Evaluates table program env outcome ∧
        leaving table pending values used outcome = ending := by
  constructor
  · intro h
    obtain ⟨outcome, ho⟩ := evaluates_of_runTo h.choose_spec
    exact ⟨outcome, ho, (realizes_of_evaluates ho _ _ _).unique h⟩
  · rintro ⟨outcome, ho, rfl⟩
    exact realizes_of_evaluates ho _ _ _

theorem settles_ok_iff {program env : Node} {m' : Machine} :
    (entering table pending values used program env).Settles pending (.ok m') ↔
      ∃ cost value, Evaluates table program env (.ok (cost, value)) ∧
        m' = ⟨table, pending, value :: values, .unbounded (Cost.clamp (used + cost))⟩ := by
  rw [settles_iff_leaving]
  constructor
  · rintro ⟨outcome, ho, he⟩
    cases outcome with
    | ok r => exact ⟨r.1, r.2, ho, (Except.ok.inj he).symm⟩
    | error e => cases he
  · rintro ⟨cost, value, ho, rfl⟩
    exact ⟨_, ho, rfl⟩

theorem settles_error_iff {program env : Node} {e : EvalError} :
    (entering table pending values used program env).Settles pending (.error e) ↔
      Evaluates table program env (.error e) := by
  rw [settles_iff_leaving]
  constructor
  · rintro ⟨outcome, ho, he⟩
    cases outcome with
    | ok r => cases he
    | error e' => exact Except.error.inj he ▸ ho
  · intro ho
    exact ⟨_, ho, rfl⟩

theorem runTo_eq_none_iff {program env : Node} :
    (∀ steps, (entering table pending values used program env).runTo pending steps = none) ↔
      ∀ outcome, ¬ Evaluates table program env outcome := by
  constructor
  · intro h outcome ho
    obtain ⟨steps, hs⟩ := realizes_of_evaluates ho pending values used
    rw [h steps] at hs
    cases hs
  · intro h steps
    cases hs : (entering table pending values used program env).runTo pending steps with
    | none => rfl
    | some ending =>
      obtain ⟨outcome, ho⟩ := evaluates_of_runTo hs
      exact absurd ho (h outcome)

theorem result_leaving (outcome : Outcome) :
    Except.bind (leaving table [] [] 0 outcome) result = outcome.toResponse := by
  cases outcome with
  | ok r => simp [leaving, Outcome.toResponse, Except.map, Except.bind, result, Meter.used]
  | error e => rfl

theorem returns_iff_evaluates {program env : Node} {response : Response} :
    (new table program env none).Returns response ↔
      ∃ outcome, Evaluates table program env outcome ∧ outcome.toResponse = response := by
  have hnew : new table program env none = entering table [] [] 0 program env := rfl
  rw [returns_iff_settles, hnew]
  constructor
  · rintro ⟨ending, hs, rfl⟩
    obtain ⟨outcome, ho, rfl⟩ := settles_iff_leaving.mp hs
    exact ⟨outcome, ho, (result_leaving outcome).symm⟩
  · rintro ⟨outcome, ho, rfl⟩
    exact ⟨_, settles_iff_leaving.mpr ⟨outcome, ho, rfl⟩, result_leaving outcome⟩

/-- Without a limit, a program over any stacks settles there exactly as the
rules say: with its value and its cost, with its error, or never. The rules
give a program one outcome at most. -/
theorem settles_iff_evaluates (table : OperatorTable) (program env : Node)
    (pending : List Operation) (values : List Node) (used : Cost) :
    let m : Machine :=
      ⟨table, .eval :: pending, .pair program env :: values, .unbounded used⟩
    (∀ outcome outcome', Evaluates table program env outcome →
      Evaluates table program env outcome' → outcome = outcome') ∧
    (∀ m', m.Settles pending (.ok m') ↔
      ∃ cost value, Evaluates table program env (.ok (cost, value)) ∧
        m' = ⟨table, pending, value :: values,
          .unbounded (Cost.clamp (used.toNat + cost))⟩) ∧
    (∀ e, m.Settles pending (.error e) ↔ Evaluates table program env (.error e)) ∧
    ((∀ steps, m.runTo pending steps = none) ↔
      ∀ outcome, ¬ Evaluates table program env outcome) ∧
    (∀ response, (new table program env none).Returns response ↔
      ∃ outcome, Evaluates table program env outcome ∧ outcome.toResponse = response) := by
  intro m
  have hm : m = entering table pending values used.toNat program env := by
    simp only [entering, Cost.clamp_toNat, m]
  rw [hm]
  exact ⟨fun _ _ h h' => h.unique h', fun m' => settles_ok_iff, fun e => settles_error_iff,
    runTo_eq_none_iff, fun response => returns_iff_evaluates⟩

theorem settles_iff_evaluates_path :
    let table := OperatorTable.standard none
    let sum : Node := .pair (.atom [16])
      (.pair (.atom [2]) (.pair (.pair (.atom [1]) (.atom [0, 175])) .nil))
    let e := EvalError.fault .pathIntoAtom (.atom [25])
    Evaluates table sum (.atom [25]) (.error e) ∧
    ∀ pending values used, Settles pending
      ⟨table, .eval :: pending, .pair sum (.atom [25]) :: values, .unbounded used⟩ (.error e) := by
  intro table sum e
  have hr : (new table sum (.atom [25]) none).Returns (.error e) := ⟨6, by decide +kernel⟩
  obtain ⟨_, _, _, _, hnew⟩ := settles_iff_evaluates table sum (.atom [25]) [] [] 0
  obtain ⟨outcome, ho, he⟩ := (hnew _).mp hr
  cases outcome with
  | ok r => cases he
  | error e' =>
    obtain rfl : e' = e := Except.error.inj he
    refine ⟨ho, ?_⟩
    intro pending values used
    obtain ⟨_, _, herror, _⟩ := settles_iff_evaluates table sum (.atom [25]) pending values used
    exact (herror _).mpr ho

end Machine

end MeteredTree

import Mathlib.Control.Monad.Basic
import MeteredTree.Proofs.Balance

/-! The values on the stack read through the pending operations. Every value
is a result, a program with its environment, an operator that waits for its
arguments, or a list of arguments that is being put together; and every list
of arguments belongs to a form that was entered before. -/

namespace MeteredTree

@[simp] theorem Node.terminator_ofList (items : List Node) : (Node.ofList items).terminator = [] := by
  induction items with
  | nil => rfl
  | cons item items ih => exact ih

/-- A fault of the evaluator itself, that no program is meant to bring about. -/
def Fault.Internal (cause : Fault) : Prop :=
  cause = .valueUnderflow ∨ cause = .expectedProgram ∨ cause = .operatorIsPair

theorem Path.follow_error {legs : List Bool} {node : Node} {cost : Cost} {e : EvalError}
    (h : follow legs node cost = .error e) : ∃ node', e = .fault .pathIntoAtom node' := by
  induction legs generalizing node cost with
  | nil => cases h
  | cons toRest legs ih =>
    cases node with
    | atom bytes => exact ⟨.atom bytes, (Except.error.inj h).symm⟩
    | pair first rest => exact ih h

theorem Meter.check_ne_fault (meter : Meter) (cause : Fault) (node : Node) :
    meter.check ≠ .error (.fault cause node) := by
  cases meter with
  | unbounded used | bounded limit used => simp
  | overrun limit total => simp

namespace Operation

/-- The values on top are those the operation works on. -/
def Fits : Operation → List Node → Prop
  | .cons, _ :: _ :: _ => True
  | .swap, _ :: _ :: _ => True
  | .eval, .pair _ _ :: _ => True
  | .apply, _ :: .atom _ :: _ => True
  | _, _ => False

theorem Fits.arity_le {op : Operation} {values : List Node} (h : op.Fits values) :
    op.arity ≤ values.length := by
  match op, values with
  | .cons, _ :: _ :: _ | .swap, _ :: _ :: _ | .apply, _ :: _ :: _ => simp [arity]
  | .eval, _ :: _ => simp [arity]

theorem Branch.internal {table : OperatorTable} {pending : List Operation} {op : Operation}
    {values : List Node} {effect : Effect} {cause : Fault} {node : Node}
    (h : Branch table pending op values effect) (hfits : op.Fits values) (hc : cause.Internal)
    (ho : effect.outcome = .error (.fault cause node)) :
    ∃ args bytes below, op = .apply ∧ values = args :: .atom bytes :: below ∧
      table.eval (.atom bytes) args = .error (.fault cause node) := by
  cases h with
  | cons | swap | path | form | quote | operands | enter | primitive => cases ho
  | pathError h =>
    obtain ⟨node', rfl⟩ := Path.follow_error h
    obtain ⟨rfl, rfl⟩ := EvalError.fault.inj (Except.error.inj ho)
    exact absurd hc (by simp [Fault.Internal])
  | formError | operandsError | enterError =>
    obtain ⟨rfl, rfl⟩ := EvalError.fault.inj (Except.error.inj ho)
    exact absurd hc (by simp [Fault.Internal])
  | primitiveError hop h =>
    obtain rfl := Except.error.inj ho
    exact ⟨_, _, _, rfl, rfl, h⟩
  | programAtom | operatorPair => exact hfits.elim
  | underflow h => exact absurd h (Nat.not_lt.mpr hfits.arity_le)

end Operation

/-- What is known of the operators below that wait for their arguments: the
atom, the number of operands, and the stacks under the form. -/
abbrev FormRecord := Bytes → Nat → List Operation → List Node → Prop

/-- The stacks below a value that is still to come. -/
inductive Awaits (form : FormRecord) : List Operation → List Node → Prop
  | result : Awaits form [] []
  | argument {op : Bytes} {count : Nat} {pending : List Operation} {values : List Node}
      (items done : List Node) (env : Node) (hform : form op count pending values)
      (hcount : items.length + 1 + done.length = count) (h : Awaits form pending values) :
    Awaits form (.cons :: scheduled items (.apply :: pending))
      (.ofList done :: parked env items (.atom op :: values))

inductive Typed (form : FormRecord) : List Operation → List Node → Prop
  | entering {pending : List Operation} {values : List Node} (program env : Node)
      (h : Awaits form pending values) :
    Typed form (.eval :: pending) (.pair program env :: values)
  | leaving {pending : List Operation} {values : List Node} (value : Node)
      (h : Awaits form pending values) : Typed form pending (value :: values)
  | gathering {op : Bytes} {count : Nat} {pending : List Operation} {values : List Node}
      (items done : List Node) (env : Node) (hform : form op count pending values)
      (hcount : items.length + done.length = count) (h : Awaits form pending values) :
    Typed form (scheduled items (.apply :: pending))
      (.ofList done :: parked env items (.atom op :: values))

theorem Awaits.mono {form form' : FormRecord} {pending : List Operation} {values : List Node}
    (h : Awaits form pending values)
    (hmono : ∀ op count below under, form op count below under → .apply :: below <:+ pending →
      form' op count below under) : Awaits form' pending values := by
  induction h with
  | result => exact .result
  | @argument op count pending values items done env hform hcount h ih =>
    have hs : .apply :: pending <:+ .cons :: scheduled items (.apply :: pending) :=
      (suffix_scheduled items _).trans (List.suffix_cons _ _)
    refine .argument items done env (hmono _ _ _ _ hform hs) hcount (ih ?_)
    intro op' count' below under hf hb
    exact hmono _ _ _ _ hf (hb.trans ((List.suffix_cons _ _).trans hs))

theorem scheduled_eq_cons {items : List Node} {below pending : List Operation} {op : Operation}
    (h : scheduled items (.apply :: below) = op :: pending) :
    items = [] ∧ op = .apply ∧ below = pending ∨
      ∃ (init : List Node) (last : Node), items = init.concat last ∧ op = .swap := by
  rcases items.eq_nil_or_concat with rfl | ⟨init, last, rfl⟩
  · obtain ⟨rfl, rfl⟩ := List.cons.inj h
    exact .inl ⟨rfl, rfl, rfl⟩
  · rw [scheduled_concat] at h
    exact .inr ⟨init, last, rfl, (List.cons.inj h).1.symm⟩

theorem Typed.fits {form : FormRecord} {op : Operation} {pending : List Operation}
    {values : List Node} (h : Typed form (op :: pending) values) : op.Fits values := by
  generalize hp : op :: pending = pending' at h
  cases h with
  | entering program env h =>
    obtain ⟨rfl, _⟩ := List.cons.inj hp
    trivial
  | leaving value h =>
    cases h with
    | result => cases hp
    | argument =>
      obtain ⟨rfl, _⟩ := List.cons.inj hp
      trivial
  | gathering items done env =>
    rcases scheduled_eq_cons hp.symm with ⟨rfl, rfl, _⟩ | ⟨init, last, rfl, rfl⟩
    · trivial
    · rw [parked_concat]
      trivial

theorem Typed.arguments {form : FormRecord} {pending : List Operation} {values : List Node}
    (h : Typed form (.apply :: pending) values) :
    ∃ op count below done, form op count pending below ∧
      values = .ofList done :: .atom op :: below ∧ done.length = count := by
  generalize hp : Operation.apply :: pending = pending' at h
  cases h with
  | entering => cases hp
  | leaving value h => cases h with
    | result => cases hp
    | argument => cases hp
  | gathering items done env hform hcount h =>
    rcases scheduled_eq_cons hp.symm with ⟨rfl, _, rfl⟩ | ⟨init, last, _, hop⟩
    · exact ⟨_, _, _, done, hform, rfl, by simpa using hcount⟩
    · cases hop

/-- The forms that still wait below `pending` are taken over. -/
def FormRecord.Keeps (form form' : FormRecord) (pending : List Operation) : Prop :=
  ∀ op count below under, form op count below under → .apply :: below <:+ pending →
    form' op count below under

section Branches

variable {form form' : FormRecord} {table : OperatorTable} {op : Operation}
  {pending : List Operation} {values : List Node} {effect : Effect} {cost : Cost}

theorem Awaits.keep {pending' : List Operation} (h : Awaits form pending values)
    (hkeep : form.Keeps form' pending') (hs : pending <:+ pending') :
    Awaits form' pending values :=
  h.mono fun _ _ _ _ hform hsuffix => hkeep _ _ _ _ hform (hsuffix.trans hs)

theorem typed_entering {program env : Node}
    (hb : Operation.Branch table pending .eval (.pair program env :: values) effect)
    (ho : effect.outcome = .ok cost) (hkeep : form.Keeps form' effect.pending)
    (henter : ∀ op operands, program = .pair (.atom op) operands →
      effect.pending = scheduled operands.items (.apply :: pending) →
      form' op operands.items.length pending values)
    (h : Awaits form pending values) : Typed form' effect.pending effect.values := by
  have h' := h.keep hkeep hb.suffix
  cases hb with
  | path | quote => exact .leaving _ h'
  | form => exact .entering _ _ h'
  | operands hop ht =>
    exact .gathering _ [] env (henter _ _ rfl rfl) (Nat.add_zero _) h'
  | pathError | formError | operandsError | underflow => cases ho

theorem typed_leaving {value : Node}
    (hb : Operation.Branch table pending op (value :: values) effect)
    (ho : effect.outcome = .ok cost) (hkeep : form.Keeps form' effect.pending)
    (h : Awaits form (op :: pending) values) : Typed form' effect.pending effect.values := by
  cases h with
  | @argument op count pending values items done env hform hcount h =>
    cases hb with
    | cons =>
      have hover : .apply :: pending <:+ scheduled items (.apply :: pending) :=
        suffix_scheduled items _
      exact .gathering items (value :: done) env (hkeep _ _ _ _ hform hover)
        (by rw [List.length_cons]; omega) (h.keep hkeep ((List.suffix_cons _ _).trans hover))
    | underflow => cases ho

theorem typed_gathering {op' : Bytes} {count : Nat} {below : List Operation}
    {items done : List Node} {env : Node}
    (hp : scheduled items (.apply :: below) = op :: pending)
    (hb : op.Branch table pending (.ofList done :: parked env items (.atom op' :: values)) effect)
    (ho : effect.outcome = .ok cost) (hkeep : form.Keeps form' effect.pending)
    (hform : form op' count below values) (hcount : items.length + done.length = count)
    (h : Awaits form below values) : Typed form' effect.pending effect.values := by
  rcases items.eq_nil_or_concat with rfl | ⟨init, last, rfl⟩
  · obtain ⟨rfl, rfl⟩ := List.cons.inj hp
    rw [parked_nil] at hb
    have h' := h.keep hkeep hb.suffix
    cases hb with
    | enter => exact .entering _ _ h'
    | primitive => exact .leaving _ h'
    | enterError | primitiveError | underflow => cases ho
  · rw [scheduled_concat] at hp
    rw [parked_concat] at hb
    rw [List.length_concat] at hcount
    obtain ⟨rfl, rfl⟩ := List.cons.inj hp
    cases hb with
    | swap =>
      have hover : .apply :: below <:+ .eval :: .cons :: scheduled init (.apply :: below) :=
        (suffix_scheduled init _).trans (List.suffix_append [Operation.eval, .cons] _)
      exact .entering last env (.argument init done env (hkeep _ _ _ _ hform hover) hcount
        (h.keep hkeep ((List.suffix_cons _ _).trans hover)))
    | underflow => cases ho

/-- An operation that succeeds leaves the stacks typed. Only scheduling the
operands of an operator adds a form. -/
theorem Typed.branch (h : Typed form (op :: pending) values)
    (hb : op.Branch table pending values effect) (ho : effect.outcome = .ok cost)
    (hkeep : form.Keeps form' effect.pending)
    (henter : ∀ op' operands env under, op = .eval →
      values = .pair (.pair (.atom op') operands) env :: under →
      effect.pending = scheduled operands.items (.apply :: pending) →
      form' op' operands.items.length pending under) :
    Typed form' effect.pending effect.values := by
  generalize hp : op :: pending = pending' at h
  cases h with
  | entering program env h =>
    obtain ⟨rfl, rfl⟩ := List.cons.inj hp
    refine typed_entering hb ho hkeep (fun op' operands hprogram => ?_) h
    subst hprogram
    exact henter op' operands env _ rfl rfl
  | leaving value h =>
    subst hp
    exact typed_leaving hb ho hkeep h
  | gathering items done env hform hcount h =>
    exact typed_gathering hp.symm hb ho hkeep hform hcount h

end Branches

namespace Machine

/-- A successful step to a machine with `base` still pending. -/
def StepsOver (base : List Operation) (m m' : Machine) : Prop :=
  m.StepsTo m' ∧ base <:+ m'.pending

/-- On the way from `start` to `m` a form was entered over these stacks whose
operator still waits for its arguments. -/
def Scheduled (start m : Machine) : FormRecord := fun op count pending values =>
  ∃ s operands env, start.Reachable s ∧ s.pending = .eval :: pending ∧
    s.values = .pair (.pair (.atom op) operands) env :: values ∧
    operands.items.length = count ∧ Relation.TransGen (StepsOver (.apply :: pending)) s m

theorem Scheduled.step {start m m' : Machine} {op : Bytes} {count : Nat}
    {pending : List Operation} {values : List Node} (h : Scheduled start m op count pending values)
    (hs : m.StepsTo m') (hb : .apply :: pending <:+ m'.pending) :
    Scheduled start m' op count pending values := by
  obtain ⟨s, operands, env, hr, hp, hv, hc, hsteps⟩ := h
  exact ⟨s, operands, env, hr, hp, hv, hc, hsteps.tail ⟨hs, hb⟩⟩

theorem StepsTo.branch {m m' : Machine} {op : Operation} {pending : List Operation}
    (h : m.StepsTo m') (hp : m.pending = op :: pending) :
    ∃ effect cost, op.Branch m.table pending m.values effect ∧ effect.outcome = .ok cost ∧
      m'.pending = effect.pending ∧ m'.values = effect.values := by
  obtain ⟨ho, rfl⟩ := h
  obtain ⟨effect, hb, ⟨cost, hc, hs⟩ | ⟨e, _, hs⟩⟩ := step_branch hp
  · rw [hs]
    exact ⟨effect, cost, hb, hc, rfl, rfl⟩
  · rw [hs] at ho
    cases ho

theorem Typed.step {start m m' : Machine} (hr : start.Reachable m) (hs : m.StepsTo m')
    (h : Typed (Scheduled start m) m.pending m.values) :
    Typed (Scheduled start m') m'.pending m'.values := by
  cases hp : m.pending with
  | nil =>
    obtain rfl : m = m' := (stepsTo_self hp).2.symm.trans hs.2
    exact h
  | cons op pending =>
    obtain ⟨effect, cost, hb, ho, hp', hv'⟩ := hs.branch hp
    rw [hp] at h
    rw [hp', hv']
    refine Typed.branch h hb ho ?_ ?_
    · intro op' count below under hform hbelow
      exact hform.step hs (hp' ▸ hbelow)
    · rintro op' operands env under rfl hv hscheduled
      have hover : .apply :: pending <:+ m'.pending :=
        hp' ▸ hscheduled ▸ suffix_scheduled operands.items _
      exact ⟨m, operands, env, hr, hp, hv, rfl, .single ⟨hs, hover⟩⟩

theorem Reachable.typed {table : OperatorTable} {program env : Node} {limit : Option Cost}
    {m : Machine} (h : (new table program env limit).Reachable m) :
    Typed (Scheduled (new table program env limit) m) m.pending m.values := by
  induction h with
  | refl => exact .entering program env .result
  | tail hr hs ih => exact Typed.step hr hs ih

theorem branch_of_fault {m : Machine} {op : Operation} {pending : List Operation} {cause : Fault}
    {node : Node} (hp : m.pending = op :: pending)
    (h : m.step.outcome = .error (.fault cause node)) :
    ∃ effect, op.Branch m.table pending m.values effect ∧
      effect.outcome = .error (.fault cause node) := by
  obtain ⟨effect, hb, ⟨cost, _, hs⟩ | ⟨e, he, hs⟩⟩ := step_branch hp
  · rw [hs] at h
    exact absurd h (Meter.check_ne_fault _ cause node)
  · rw [hs] at h
    exact ⟨effect, hb, he.trans (congrArg Except.error (Except.error.inj h))⟩

theorem step_table (m : Machine) : m.step.machine.table = m.table := by
  cases hp : m.pending with
  | nil => rw [step_finished hp]
  | cons op pending =>
    obtain ⟨effect, _, ⟨cost, _, hs⟩ | ⟨e, _, hs⟩⟩ := step_branch hp
    · rw [hs]
    · rw [hs]

theorem Reachable.table_eq {m m' : Machine} (h : m.Reachable m') : m'.table = m.table := by
  induction h with
  | refl => rfl
  | tail _ hs ih => rw [← hs.2, step_table, ih]

/-- In every state that successful steps lead to, the values and the pending
operations fit together. The faults that would say otherwise arise from an
operator alone, if its table has it give one. An operator that is about to run
has an argument for each operand of the form that was entered for it. -/
theorem stack_discipline (table : OperatorTable) (program env : Node) (limit : Option Cost)
    {m : Machine} (h : (new table program env limit).Reachable m) :
    m.values.length = 1 + collectors m.pending ∧
    (∀ op pending, m.pending = op :: pending → op.Fits m.values) ∧
    (∀ cause node, cause.Internal → m.step.outcome = .error (.fault cause node) →
      ∃ pending args op values, m.pending = .apply :: pending ∧
        m.values = args :: .atom op :: values ∧
        table.eval (.atom op) args = .error (.fault cause node)) ∧
    (∀ pending, m.pending = .apply :: pending → ∃ s op operands env' args values,
      (new table program env limit).Reachable s ∧ s.pending = .eval :: pending ∧
      s.values = .pair (.pair (.atom op) operands) env' :: values ∧
      Relation.TransGen (StepsOver (.apply :: pending)) s m ∧
      m.values = args :: .atom op :: values ∧ args.terminator = [] ∧
      args.items.length = operands.items.length) ∧
    (m.pending = [] → ∃ value, m.values = [value]) := by
  have hbal : m.values.length = 1 + collectors m.pending := by
    simpa [new] using h.balance
  have hfits : ∀ op pending, m.pending = op :: pending → op.Fits m.values := by
    intro op pending hp
    exact (hp ▸ Reachable.typed h).fits
  refine ⟨hbal, hfits, ?_, ?_, ?_⟩
  · intro cause node hc he
    cases hp : m.pending with
    | nil => exact absurd hp (pending_ne_nil_of_error he)
    | cons op pending =>
      obtain ⟨effect, hb, ho⟩ := branch_of_fault hp he
      obtain ⟨args, bytes, values, rfl, hv, ht⟩ := hb.internal (hfits op pending hp) hc ho
      have htable : m.table = table := Reachable.table_eq h
      exact ⟨pending, args, bytes, values, rfl, hv, htable ▸ ht⟩
  · intro pending hp
    obtain ⟨op, count, values, done, hform, hv, hlen⟩ := (hp ▸ Reachable.typed h).arguments
    obtain ⟨s, operands, env', hr, hsp, hsv, hcount, hsteps⟩ := hform
    refine ⟨s, op, operands, env', .ofList done, values, hr, hsp, hsv, hsteps, hv, ?_, ?_⟩
    · exact Node.terminator_ofList done
    · rw [Node.items_ofList, hlen, hcount]
  · intro hp
    rw [hp] at hbal
    exact List.length_eq_one_iff.mp hbal

theorem stack_discipline_add :
    let start := new (.standard none) (.pair (.atom [16])
      (.pair (.atom [1]) (.pair (.pair (.atom [1]) (.atom [0, 175])) .nil))) (.atom [25]) none
    (start.after 7).pending = [.apply] ∧
    (∃ s op operands env args values, start.Reachable s ∧ s.pending = [.eval] ∧
      s.values = .pair (.pair (.atom op) operands) env :: values ∧
      Relation.TransGen (StepsOver [.apply]) s (start.after 7) ∧
      (start.after 7).values = args :: .atom op :: values ∧ args.terminator = [] ∧
      args.items.length = operands.items.length) ∧
    ∃ value, (start.after 8).values = [value] := by
  intro start
  have hr : ∀ n ≤ 8, start.Reachable (start.after n) := by
    intro n hn
    have hok : ∀ k < 8, (start.after k).step.outcome = .ok () := by decide +kernel
    exact reachable_after n fun k hk => hok k (Nat.lt_of_lt_of_le hk hn)
  have hp : (start.after 7).pending = [.apply] := by decide +kernel
  obtain ⟨_, _, _, hform, _⟩ := stack_discipline _ _ _ none (hr 7 (by decide))
  obtain ⟨_, _, _, _, hend⟩ := stack_discipline _ _ _ none (hr 8 (by decide))
  exact ⟨hp, hform [] hp, hend (by decide +kernel)⟩

end Machine

end MeteredTree

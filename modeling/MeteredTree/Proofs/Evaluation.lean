import MeteredTree.Machine

/-! The evaluation of programs by rules, without stacks. The rules give a
program its exact cost and its value, or the first error on the way to it, and
nothing to a program whose evaluation does not end. -/

namespace MeteredTree

/-- An exact cost and a value, or the error in their place. -/
abbrev Outcome := Except EvalError (Nat × Node)

namespace Outcome

def ofResponse : Response → Outcome :=
  Except.map fun r => (r.cost.toNat, r.value)

/-- The response of a meter that stops at the largest cost. -/
def toResponse : Outcome → Response :=
  Except.map fun r => ⟨Cost.clamp r.1, r.2⟩

/-- The outcome of what begins after `cost` was charged. -/
def after (cost : Nat) : Outcome → Outcome :=
  Except.map fun r => (cost + r.1, r.2)

/-- Puts a value in front of arguments that came at `cost`. -/
def onto (cost : Nat) (args : Node) : Outcome → Outcome :=
  Except.map fun r => (cost + r.1, .pair r.2 args)

end Outcome

mutual

inductive Evaluates (table : OperatorTable) : Node → Node → Outcome → Prop
  | path (path : Bytes) (env : Node) :
    Evaluates table (.atom path) env (.ofResponse (Path.lookup path env))
  | form {inner tail operands : Node} {outcome : Outcome} (ht : tail.isNil = true)
      (h : Evaluates table inner operands outcome) (env : Node) :
    Evaluates table (.pair (.pair inner tail) operands) env (.after Price.apply.toNat outcome)
  | formError {tail : Node} (ht : tail.isNil = false) (inner operands env : Node) :
    Evaluates table (.pair (.pair inner tail) operands) env
      (fault .operatorForm (.pair (.pair inner tail) operands))
  | quote (operands env : Node) :
    Evaluates table (.pair (.atom [table.quote]) operands) env
      (.ok (Price.quote.toNat, operands))
  | operandsError {op : Bytes} {operands : Node} (hop : op ≠ [table.quote])
      (ht : operands.terminator ≠ []) (env : Node) :
    Evaluates table (.pair (.atom op) operands) env
      (fault .firstOfAtom (.atom operands.terminator))
  | operandError {op : Bytes} {operands env : Node} {e : EvalError} (hop : op ≠ [table.quote])
      (ht : operands.terminator = []) (h : EvaluatesAll table env operands.items (.error e)) :
    Evaluates table (.pair (.atom op) operands) env (.error e)
  | call {op : Bytes} {operands env args : Node} {cost : Nat} {outcome : Outcome}
      (hop : op ≠ [table.quote]) (ht : operands.terminator = [])
      (h : EvaluatesAll table env operands.items (.ok (cost, args)))
      (ha : Applies table op args outcome) :
    Evaluates table (.pair (.atom op) operands) env
      (.after (Price.operands.toNat + cost) outcome)

/-- Operands are evaluated from the last to the first. The value is the list of
theirs, in the order of the operands. -/
inductive EvaluatesAll (table : OperatorTable) : Node → List Node → Outcome → Prop
  | nil (env : Node) : EvaluatesAll table env [] (.ok (0, .nil))
  | laterError {env : Node} {items : List Node} {e : EvalError}
      (h : EvaluatesAll table env items (.error e)) (item : Node) :
    EvaluatesAll table env (item :: items) (.error e)
  | cons {env item args : Node} {items : List Node} {cost : Nat} {outcome : Outcome}
      (h : EvaluatesAll table env items (.ok (cost, args)))
      (hitem : Evaluates table item env outcome) :
    EvaluatesAll table env (item :: items) (.onto cost args outcome)

/-- An operator is run on arguments that have been evaluated. -/
inductive Applies (table : OperatorTable) : Bytes → Node → Outcome → Prop
  | enter {args program env : Node} {outcome : Outcome} (hi : args.items = [program, env])
      (h : Evaluates table program env outcome) :
    Applies table [table.apply] args (.after Price.apply.toNat outcome)
  | enterError {args : Node} (hi : ∀ program env, args.items ≠ [program, env]) :
    Applies table [table.apply] args (fault .applyCount args)
  | primitive {op : Bytes} (hop : op ≠ [table.apply]) (args : Node) :
    Applies table op args (.ofResponse (table.eval (.atom op) args))

end

variable {table : OperatorTable}

mutual

theorem Evaluates.unique {program env : Node} {outcome outcome' : Outcome} :
    Evaluates table program env outcome → Evaluates table program env outcome' →
      outcome = outcome'
  | .path _ _, h' => by
    cases h'
    rfl
  | .form ht h _, h' => by
    cases h' with
    | form _ h' => rw [h.unique h']
    | formError ht' => simp [ht] at ht'
  | .formError ht _ _ _, h' => by
    cases h' with
    | form ht' => simp [ht] at ht'
    | formError => rfl
  | .quote _ _, h' => by
    cases h' with
    | quote => rfl
    | operandsError hop | operandError hop | call hop => exact absurd rfl hop
  | .operandsError hop ht _, h' => by
    cases h' with
    | quote => exact absurd rfl hop
    | operandsError => rfl
    | operandError _ ht' | call _ ht' => exact absurd ht' ht
  | .operandError hop ht h, h' => by
    cases h' with
    | quote => exact absurd rfl hop
    | operandsError _ ht' => exact absurd ht ht'
    | operandError _ _ h' => exact h.unique h'
    | call _ _ h' => cases h.unique h'
  | .call hop ht h ha, h' => by
    cases h' with
    | quote => exact absurd rfl hop
    | operandsError _ ht' => exact absurd ht ht'
    | operandError _ _ h' => cases h.unique h'
    | call _ _ h' ha' =>
      cases h.unique h'
      rw [ha.unique ha']

theorem EvaluatesAll.unique {env : Node} {items : List Node} {outcome outcome' : Outcome} :
    EvaluatesAll table env items outcome → EvaluatesAll table env items outcome' →
      outcome = outcome'
  | .nil _, h' => by
    cases h'
    rfl
  | .laterError h _, h' => by
    cases h' with
    | laterError h' => exact h.unique h'
    | cons h' => cases h.unique h'
  | .cons h hitem, h' => by
    cases h' with
    | laterError h' => cases h.unique h'
    | cons h' hitem' =>
      cases h.unique h'
      rw [hitem.unique hitem']

theorem Applies.unique {op : Bytes} {args : Node} {outcome outcome' : Outcome} :
    Applies table op args outcome → Applies table op args outcome' → outcome = outcome'
  | .enter hi h, h' => by
    cases h' with
    | enter hi' h' =>
      cases hi.symm.trans hi'
      rw [h.unique h']
    | enterError hi' => exact absurd hi (hi' _ _)
    | primitive hop => exact absurd rfl hop
  | .enterError hi, h' => by
    cases h' with
    | enter hi' => exact absurd hi' (hi _ _)
    | enterError => rfl
    | primitive hop => exact absurd rfl hop
  | .primitive hop _, h' => by
    cases h' with
    | enter | enterError => exact absurd rfl hop
    | primitive => rfl

end

end MeteredTree

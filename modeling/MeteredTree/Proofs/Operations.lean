import MeteredTree.Machine

/-! The branches of an operation, each with its guard and its effect. What is
proved of an operation is proved branch by branch. -/

namespace MeteredTree

/-- The operations that evaluate and collect operands, before `pending`. -/
def scheduled (items : List Node) (pending : List Operation) : List Operation :=
  items.foldl (fun ops _ => .swap :: .eval :: .cons :: ops) pending

/-- Operands with their environment on top of `values`, the last one first. -/
def parked (env : Node) (items : List Node) (values : List Node) : List Node :=
  items.foldl (fun vs item => .pair item env :: vs) values

@[simp] theorem scheduled_nil (pending : List Operation) : scheduled [] pending = pending := rfl

@[simp] theorem scheduled_cons (item : Node) (items : List Node) (pending : List Operation) :
    scheduled (item :: items) pending = scheduled items (.swap :: .eval :: .cons :: pending) :=
  rfl

theorem scheduled_concat (items : List Node) (last : Node) (pending : List Operation) :
    scheduled (items.concat last) pending =
      .swap :: .eval :: .cons :: scheduled items pending := by
  simp only [scheduled, List.concat_eq_append, List.foldl_append, List.foldl_cons, List.foldl_nil]

@[simp] theorem parked_nil (env : Node) (values : List Node) : parked env [] values = values :=
  rfl

@[simp] theorem parked_cons (env item : Node) (items values : List Node) :
    parked env (item :: items) values = parked env items (.pair item env :: values) := rfl

theorem parked_concat (env : Node) (items : List Node) (last : Node) (values : List Node) :
    parked env (items.concat last) values = .pair last env :: parked env items values := by
  simp only [parked, List.concat_eq_append, List.foldl_append, List.foldl_cons, List.foldl_nil]

theorem length_parked (env : Node) (items values : List Node) :
    (parked env items values).length = items.length + values.length := by
  induction items generalizing values with
  | nil => simp
  | cons item items ih => simp only [parked_cons, ih, List.length_cons]; omega

theorem suffix_scheduled (items : List Node) (pending : List Operation) :
    pending <:+ scheduled items pending := by
  induction items generalizing pending with
  | nil => exact List.suffix_refl _
  | cons item items ih => exact (List.suffix_append [.swap, .eval, .cons] pending).trans (ih _)

namespace Operation

/-- How many values an operation takes. -/
def arity : Operation → Nat
  | .apply => 2
  | .cons => 2
  | .eval => 1
  | .swap => 2

inductive Branch (table : OperatorTable) (pending : List Operation) :
    Operation → List Node → Effect → Prop
  | cons (first rest : Node) (values : List Node) :
    Branch table pending .cons (first :: rest :: values)
      ⟨pending, .pair first rest :: values, [], .ok 0⟩
  | swap (upper lower : Node) (values : List Node) :
    Branch table pending .swap (upper :: lower :: values)
      ⟨pending, lower :: upper :: values, [], .ok 0⟩
  | path {path : Bytes} {env : Node} {r : Reduction} (h : Path.lookup path env = .ok r)
      (values : List Node) :
    Branch table pending .eval (.pair (.atom path) env :: values)
      ⟨pending, r.value :: values, [.enter (.atom path) env, .leave r.value], .ok r.cost⟩
  | pathError {path : Bytes} {env : Node} {e : EvalError} (h : Path.lookup path env = .error e)
      (values : List Node) :
    Branch table pending .eval (.pair (.atom path) env :: values)
      ⟨pending, values, [.enter (.atom path) env], .error e⟩
  | form {tail : Node} (h : tail.isNil = true) (inner operands env : Node) (values : List Node) :
    Branch table pending .eval (.pair (.pair (.pair inner tail) operands) env :: values)
      ⟨.eval :: pending, .pair inner operands :: values,
        [.enter (.pair (.pair inner tail) operands) env], .ok Price.apply⟩
  | formError {tail : Node} (h : tail.isNil = false) (inner operands env : Node)
      (values : List Node) :
    Branch table pending .eval (.pair (.pair (.pair inner tail) operands) env :: values)
      ⟨pending, values, [.enter (.pair (.pair inner tail) operands) env],
        fault .operatorForm (.pair (.pair inner tail) operands)⟩
  | quote (operands env : Node) (values : List Node) :
    Branch table pending .eval (.pair (.pair (.atom [table.quote]) operands) env :: values)
      ⟨pending, operands :: values,
        [.enter (.pair (.atom [table.quote]) operands) env, .leave operands], .ok Price.quote⟩
  | operands {op : Bytes} {operands : Node} (hop : op ≠ [table.quote])
      (h : operands.terminator = []) (env : Node) (values : List Node) :
    Branch table pending .eval (.pair (.pair (.atom op) operands) env :: values)
      ⟨scheduled operands.items (.apply :: pending),
        .nil :: parked env operands.items (.atom op :: values),
        [.enter (.pair (.atom op) operands) env], .ok Price.operands⟩
  | operandsError {op : Bytes} {operands : Node} (hop : op ≠ [table.quote])
      (h : operands.terminator ≠ []) (env : Node) (values : List Node) :
    Branch table pending .eval (.pair (.pair (.atom op) operands) env :: values)
      ⟨scheduled operands.items (.apply :: pending),
        parked env operands.items (.atom op :: values),
        [.enter (.pair (.atom op) operands) env],
        fault .firstOfAtom (.atom operands.terminator)⟩
  | enter {args program env : Node} (h : args.items = [program, env]) (values : List Node) :
    Branch table pending .apply (args :: .atom [table.apply] :: values)
      ⟨.eval :: pending, .pair program env :: values, [], .ok Price.apply⟩
  | enterError {args : Node} (h : ∀ program env, args.items ≠ [program, env])
      (values : List Node) :
    Branch table pending .apply (args :: .atom [table.apply] :: values)
      ⟨pending, values, [], fault .applyCount args⟩
  | primitive {op : Bytes} {args : Node} {r : Reduction} (hop : op ≠ [table.apply])
      (h : table.eval (.atom op) args = .ok r) (values : List Node) :
    Branch table pending .apply (args :: .atom op :: values)
      ⟨pending, r.value :: values, [.apply (.atom op) args r.cost, .leave r.value], .ok r.cost⟩
  | primitiveError {op : Bytes} {args : Node} {e : EvalError} (hop : op ≠ [table.apply])
      (h : table.eval (.atom op) args = .error e) (values : List Node) :
    Branch table pending .apply (args :: .atom op :: values) ⟨pending, values, [], .error e⟩
  | programAtom (bytes : Bytes) (values : List Node) :
    Branch table pending .eval (.atom bytes :: values)
      ⟨pending, values, [], fault .expectedProgram (.atom bytes)⟩
  | operatorPair (args first rest : Node) (values : List Node) :
    Branch table pending .apply (args :: .pair first rest :: values)
      ⟨pending, values, [], fault .operatorIsPair (.pair first rest)⟩
  | underflow {op : Operation} {values : List Node} (h : values.length < op.arity) :
    Branch table pending op values (.underflow pending)

theorem branch_eval (table : OperatorTable) (pending : List Operation) (values : List Node)
    (program env : Node) :
    Branch table pending .eval (.pair program env :: values)
      (.eval table pending values program env) := by
  match program with
  | .atom path =>
    cases h : Path.lookup path env with
    | ok r => simpa only [Effect.eval, Effect.path, h] using Branch.path h values
    | error e => simpa only [Effect.eval, Effect.path, h] using Branch.pathError h values
  | .pair (.pair inner tail) operands =>
    cases h : tail.isNil with
    | true =>
      simpa only [Effect.eval, Effect.form, h, if_true] using
        Branch.form h inner operands env values
    | false =>
      simpa [Effect.eval, Effect.form, h] using Branch.formError h inner operands env values
  | .pair (.atom op) operands =>
    by_cases hop : op = [table.quote]
    · subst hop
      simpa only [Effect.eval, if_true] using Branch.quote operands env values
    · by_cases h : operands.terminator = []
      · simpa [Effect.eval, Effect.operands, hop, h, scheduled, parked] using
          Branch.operands hop h env values
      · simpa [Effect.eval, Effect.operands, hop, h, scheduled, parked] using
          Branch.operandsError hop h env values

theorem branch_apply (table : OperatorTable) (pending : List Operation) (values : List Node)
    (operator args : Node) :
    Branch table pending .apply (args :: operator :: values)
      (.apply table pending values operator args) := by
  match operator with
  | .pair first rest => exact .operatorPair args first rest values
  | .atom op =>
    by_cases hop : op = [table.apply]
    · subst hop
      simp only [Effect.apply, if_true]
      split
      · next program env h => exact .enter h values
      · next h => exact .enterError h values
    · cases h : table.eval (.atom op) args with
      | ok r => simpa only [Effect.apply, hop, if_false, h] using Branch.primitive hop h values
      | error e =>
        simpa only [Effect.apply, hop, if_false, h] using Branch.primitiveError hop h values

theorem perform_branch (table : OperatorTable) (pending : List Operation) (op : Operation)
    (values : List Node) : Branch table pending op values (op.perform table pending values) := by
  match op, values with
  | .cons, first :: rest :: values => exact .cons first rest values
  | .swap, upper :: lower :: values => exact .swap upper lower values
  | .eval, .pair program env :: values => exact branch_eval table pending values program env
  | .eval, .atom bytes :: values => exact .programAtom bytes values
  | .apply, args :: operator :: values => exact branch_apply table pending values operator args
  | .cons, [] => exact .underflow (by simp [arity])
  | .cons, [_] => exact .underflow (by simp [arity])
  | .swap, [] => exact .underflow (by simp [arity])
  | .swap, [_] => exact .underflow (by simp [arity])
  | .eval, [] => exact .underflow (by simp [arity])
  | .apply, [] => exact .underflow (by simp [arity])
  | .apply, [_] => exact .underflow (by simp [arity])

theorem perform_underflow {table : OperatorTable} {pending : List Operation} {op : Operation}
    {values : List Node} (h : values.length < op.arity) :
    op.perform table pending values = .underflow pending := by
  match op, values with
  | .cons, [] | .cons, [_] | .swap, [] | .swap, [_] => rfl
  | .eval, [] | .apply, [] | .apply, [_] => rfl
  | .eval, _ :: _ => simp [arity] at h
  | .cons, _ :: _ :: _ | .swap, _ :: _ :: _ | .apply, _ :: _ :: _ =>
    simp only [arity, List.length_cons] at h
    omega

theorem Branch.perform_eq {table : OperatorTable} {pending : List Operation} {op : Operation}
    {values : List Node} {effect : Effect} (h : Branch table pending op values effect) :
    op.perform table pending values = effect := by
  cases h with
  | cons => rfl
  | swap => rfl
  | path h => simp [perform, Effect.eval, Effect.path, h]
  | pathError h => simp [perform, Effect.eval, Effect.path, h]
  | form h => simp [perform, Effect.eval, Effect.form, h]
  | formError h => simp [perform, Effect.eval, Effect.form, h]
  | quote => simp [perform, Effect.eval]
  | operands hop h =>
    simp [perform, Effect.eval, Effect.operands, hop, h, scheduled, parked]
  | operandsError hop h =>
    simp [perform, Effect.eval, Effect.operands, hop, h, scheduled, parked]
  | enter h => simp [perform, Effect.apply, h]
  | enterError h =>
    simp only [perform, Effect.apply, if_true]
  | primitive hop h => simp [perform, Effect.apply, hop, h]
  | primitiveError hop h => simp [perform, Effect.apply, hop, h]
  | programAtom => rfl
  | operatorPair => rfl
  | underflow h => exact perform_underflow h

theorem Branch.suffix {table : OperatorTable} {pending : List Operation} {op : Operation}
    {values : List Node} {effect : Effect} (h : Branch table pending op values effect) :
    pending <:+ effect.pending := by
  cases h with
  | form => exact List.suffix_cons _ _
  | enter => exact List.suffix_cons _ _
  | operands => exact (List.suffix_cons _ _).trans (suffix_scheduled _ _)
  | operandsError => exact (List.suffix_cons _ _).trans (suffix_scheduled _ _)
  | _ => exact List.suffix_refl _

end Operation

end MeteredTree

import Mathlib.Control.Monad.Basic
import MeteredTree.Proofs.Affordable

/-! Runs within the block limit never overflow. An argument has cost its
evaluation at least one unit, so what was charged bounds the arguments of an
operator, and with the bound on the length of atoms the next formula fits. Then
the next step is exact as well, and the bounds hold after it. -/

namespace MeteredTree

theorem Path.le_exact_formula (path : Bytes) : 44 ≤ (formula path).exact := by
  have hbase : (Formula.price Price.path).exact + (Formula.price Price.pathLeg).exact = 44 := rfl
  have hle := Formula.le_foldl_add ((legs path).map fun _ => Price.pathLeg.toNat)
    (((Formula.price Price.path).add (Formula.price Price.pathLeg)).add
      ((Formula.given (leadingZeros path)).mul (Formula.price Price.pathZeroByte))).exact
  rw [formula, Formula.exact_running]
  simp only [Formula.exact] at hle ⊢
  omega

/-- An evaluation is charged for, so pending evaluations and charges together
never get fewer. -/
theorem Operation.Branch.evals_paid {d : Dialect} {group : Option PointGroup}
    {pending : List Operation} {op : Operation} {values : List Node} {effect : Effect}
    {cost : Cost} (h : Branch (d.table group) pending op values effect)
    (ho : effect.outcome = .ok cost) :
    (op :: pending).count .eval ≤
      effect.pending.count .eval + (op.formula d group values).exact := by
  cases h with
  | cons | swap | primitive =>
    rw [List.count_cons_of_ne (by decide)]
    exact Nat.le_add_right _ _
  | @path path env r h =>
    have hle := Path.le_exact_formula path
    rw [List.count_cons_self]
    change _ ≤ _ + (Path.formula path).exact
    dsimp only
    omega
  | form =>
    rw [List.count_cons_self]
    exact Nat.le_add_right _ _
  | quote =>
    have hprice : Price.quote.toNat = 20 := rfl
    rw [List.count_cons_self, formula, Dialect.quote_table, if_pos rfl, Formula.exact_price, hprice]
    dsimp only
    omega
  | operands hop h =>
    have hprice : Price.operands.toNat = 1 := rfl
    rw [Dialect.quote_table] at hop
    rw [List.count_cons_self, formula, if_neg hop, Formula.exact_price, hprice,
      count_eval_scheduled, List.count_cons_of_ne (by decide)]
    omega
  | enter =>
    rw [List.count_cons_of_ne (by decide), List.count_cons_self]
    omega
  | pathError | formError | operandsError | enterError | primitiveError | programAtom
  | operatorPair | underflow => cases ho

/-- The operands of a form that waits, and the evaluations under it, are no
more than `total`. -/
def FormRecord.paid (total : Nat) : FormRecord := fun _ count pending _ =>
  count + pending.count .eval ≤ total

namespace Machine

variable {d : Dialect} {group : Option PointGroup}

theorem ReachedExactly.typed_paid {program env : Node} {limit : Option Cost} {m : Machine}
    (h : ReachedExactly d group (new (d.table group) program env limit) m) {used : Cost}
    (hused : m.meter.used = .ok used) (hmax : used < Cost.max) :
    Typed (.paid (m.pending.count .eval + used.toNat)) m.pending m.values := by
  induction h generalizing used with
  | refl => exact .entering program env .result
  | @tail m m' hr hs ih =>
    rcases hs.cases with ⟨_, rfl⟩ | ⟨op, pending, effect, cost, hp, hb, ho, _, rfl⟩
    · exact ih hused hmax
    · obtain ⟨before, hbefore, hlt, hsum⟩ := used_record_exact hused hmax
      have htyped := ih hbefore hlt
      rw [ReachedExactly.table_eq hr] at hb
      rw [formula_of_pending hp] at hsum
      rw [hp] at htyped
      have hpaid := Operation.Branch.evals_paid hb ho
      -- forms below keep their counts while the total grows; the operands of a form that is
      -- entered are among the evaluations that are pending after the step
      refine Typed.branch htyped hb ho ?_ ?_
      · intro op' count below under hform _
        have hle : count + below.count .eval ≤
          (op :: pending).count .eval + before.toNat := hform
        change count + below.count .eval ≤ effect.pending.count .eval + used.toNat
        omega
      · intro op' operands env' under _ _ hscheduled
        have hcount := count_eval_scheduled operands.items (.apply :: pending)
        rw [List.count_cons_of_ne (by decide), ← hscheduled] at hcount
        change operands.items.length + pending.count .eval ≤
          effect.pending.count .eval + used.toNat
        omega

/-- An operator that is about to run has no more arguments than were paid
for. -/
theorem ReachedExactly.arguments_le {program env : Node} {limit : Option Cost} {m : Machine}
    (h : ReachedExactly d group (new (d.table group) program env limit) m) {used : Cost}
    (hused : m.meter.used = .ok used) (hmax : used < Cost.max) {pending : List Operation}
    (hp : m.pending = .apply :: pending) :
    ∀ args ∈ m.values.head?, args.items.length ≤ used.toNat := by
  have htyped := h.typed_paid hused hmax
  rw [hp] at htyped
  obtain ⟨op, count, below, done, hform, hvalues, hlen⟩ := htyped.arguments
  have hle : count + pending.count .eval ≤
    (Operation.apply :: pending).count .eval + used.toNat := hform
  rw [List.count_cons_of_ne (by decide)] at hle
  intro args hargs
  rw [hvalues] at hargs
  obtain rfl : Node.ofList done = args := Option.some.inj hargs
  rw [Node.items_ofList]
  omega

section Block

variable {program env : Node} {limit : Cost}

theorem ReachedExactly.fits_formula {m : Machine}
    (h : ReachedExactly d group (new (d.table group) program env (some limit)) m)
    (hgroup : PointGroup.Compact group)
    (hlimit : limit ≤ Price.block) (hprogram : program.longest < 0x40000000)
    (henv : env.longest < 0x40000000) : (m.formula d group).Fits := by
  obtain ⟨used, hmeter, hle⟩ := h.meter_bounded rfl
  have hused : m.meter.used = .ok used := by rw [hmeter]; rfl
  have hblock : used.toNat ≤ 11000000000 := Nat.le_trans hle hlimit
  have hmax : used < Cost.max := Nat.lt_of_le_of_lt hblock (by decide)
  cases hp : m.pending with
  | nil =>
    rw [formula, hp]
    exact Formula.fits_zero
  | cons op pending =>
    rw [formula_of_pending hp]
    refine Operation.fits_formula d hgroup ?_ ?_
    · intro v hv
      have hlongest := h.longest_le hused hmax v hv
      rw [atomBound] at hlongest
      omega
    · rintro rfl args hargs
      exact Nat.le_trans (h.arguments_le hused hmax hp args hargs) hblock

/-- Within the block limit every step of the machine is exact. -/
theorem Reachable.exactly {m : Machine}
    (h : (new (d.table group) program env (some limit)).Reachable m)
    (hgroup : PointGroup.Compact group)
    (hlimit : limit ≤ Price.block) (hprogram : program.longest < 0x40000000)
    (henv : env.longest < 0x40000000) :
    ReachedExactly d group (new (d.table group) program env (some limit)) m := by
  induction h with
  | refl => exact .refl
  | tail _ hs ih =>
    -- the bounds behind `fits_formula` are known for exact runs only, which this one was so far
    exact ih.tail (hs.exactly (ReachedExactly.table_eq ih)
      (ReachedExactly.fits_formula ih hgroup hlimit hprogram henv))

end Block

/-- The bound on atoms for whole runs of the machine itself. -/
theorem run_bounds_atoms {program env : Node} {limit : Cost} {r : Reduction}
    (hgroup : PointGroup.Compact group)
    (hlimit : limit ≤ Price.block) (hprogram : program.longest < 0x40000000)
    (henv : env.longest < 0x40000000)
    (h : (d.table group).run program env (some limit) = some (.ok r)) :
    r.value.longest ≤ atomBound program env r.cost := by
  obtain ⟨m, hr, ⟨_, hresult⟩ | ⟨e, _, herror⟩⟩ := returns_iff.mp ⟨_, h⟩
  · have hexact := Reachable.exactly hr hgroup hlimit hprogram henv
    obtain ⟨hused, hmem⟩ := result_ok hresult
    obtain ⟨used, hmeter, hle⟩ := hexact.meter_bounded rfl
    have hcost : used = r.cost := by
      rw [hmeter] at hused
      exact Except.ok.inj hused
    have hblock : r.cost.toNat ≤ 11000000000 := Nat.le_trans (hcost ▸ hle) hlimit
    exact hexact.longest_le hused (Nat.lt_of_le_of_lt hblock (by decide)) _ hmem
  · cases herror

/-- Within the block limit no plain sum or product of a cost overflows, at any
step of a run, and what a step charges is the exact value of its formula. -/
theorem costs_never_overflow (strict : Bool) (group : Option PointGroup)
    (hgroup : PointGroup.Compact group)
    (program env : Node) (limit : Cost) (hlimit : limit ≤ Price.block)
    (hprogram : ∀ bytes ∈ program.atoms, bytes.length < 0x40000000)
    (henv : ∀ bytes ∈ env.atoms, bytes.length < 0x40000000) {m : Machine}
    (h : (new (if strict then .strict group else .standard group) program env
      (some limit)).Reachable m) :
    (m.formula (.complete strict) group).Fits ∧
    ∀ op pending cost, m.pending = op :: pending →
      (op.perform m.table pending m.values).outcome = .ok cost →
      cost = (m.formula (.complete strict) group).word ∧
      cost.toNat = (m.formula (.complete strict) group).exact := by
  have hlongest : ∀ n : Node, (∀ bytes ∈ n.atoms, bytes.length < 0x40000000) →
      n.longest < 0x40000000 := fun n hn =>
    Nat.lt_succ_of_le (Node.longest_le_iff.mpr fun bytes hb => Nat.le_of_lt_succ (hn bytes hb))
  rw [← Dialect.table_complete] at h
  have hexact := Reachable.exactly h hgroup hlimit (hlongest program hprogram) (hlongest env henv)
  have hfits := ReachedExactly.fits_formula hexact hgroup hlimit (hlongest program hprogram)
    (hlongest env henv)
  refine ⟨hfits, ?_⟩
  intro op pending cost hp ho
  have hbranch := Operation.perform_branch m.table pending op m.values
  rw [Reachable.table_eq h] at hbranch ho
  have hword := hbranch.cost_eq_word ho
  rw [← formula_of_pending hp] at hword
  refine ⟨hword, ?_⟩
  rw [hword]
  exact Formula.toNat_word hfits

theorem costs_never_overflow_add :
    let start := new (.strict (some Curve.group)) (.pair (.atom [16])
      (.pair (.atom [1]) (.pair (.pair (.atom [1]) (.atom [0, 175])) .nil))) (.atom [25])
      (some Price.block)
    let m := start.after 7
    m.pending = [.apply] ∧ (Operation.apply.perform m.table [] m.values).outcome = .ok 768 ∧
      (m.formula (.complete true) (some Curve.group)).Fits ∧
      (768 : Cost).toNat = (m.formula (.complete true) (some Curve.group)).exact := by
  intro start m
  have hr : start.Reachable m := by
    have hok : ∀ k < 7, (start.after k).step.outcome = .ok () := by decide +kernel
    exact reachable_after 7 hok
  have hp : m.pending = [.apply] := by decide +kernel
  have ho : (Operation.apply.perform m.table [] m.values).outcome = .ok 768 := by decide +kernel
  clear_value m
  obtain ⟨hfits, hcost⟩ := costs_never_overflow true _ Curve.compact_group _ _ Price.block
    (by decide) (by decide) (by decide) hr
  exact ⟨hp, ho, hfits, (hcost .apply [] 768 hp ho).2⟩

end Machine

end MeteredTree

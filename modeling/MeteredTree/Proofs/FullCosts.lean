import MeteredTree.Proofs.ExactRuns
import MeteredTree.Proofs.Pace
import MeteredTree.Proofs.Settling

/-! A limit against costs in full. Charges are clamped three times: where a
softfork declares more than a word holds, where an operator's price saturates,
and where the meter adds up. A clamped sum of clamped costs is the clamped sum
of the costs, so a limit below the largest cost is passed exactly when the full
sum passes it. The largest cost as a limit is passed by nothing. -/

namespace MeteredTree

theorem Cost.satAdd_clamp_clamp (a b : Nat) : satAdd (clamp a) (clamp b) = clamp (a + b) := by
  apply UInt64.toNat_inj.mp
  rw [satAdd_clamp, toNat_clamp, toNat_clamp, toNat_clamp]
  omega

theorem Cost.le_of_clamp_le {n : Nat} {limit : Cost} (h : clamp n ≤ limit) (hmax : limit < max) :
    n ≤ limit.toNat := by
  have hle := UInt64.le_iff_toNat_le.mp h
  have hlt : limit.toNat < 0xffffffffffffffff := hmax
  rw [toNat_clamp] at hle
  omega

theorem Cost.lt_clamp {n : Nat} {limit : Cost} (h : limit.toNat < n) (hmax : limit < max) :
    limit < clamp n := by
  have hlt : limit.toNat < 0xffffffffffffffff := hmax
  rw [UInt64.lt_iff_toNat_lt, toNat_clamp]
  omega

namespace Formula

/-- The value with nothing stopped at the largest cost. -/
def full : Formula → Nat
  | given n => n
  | add a b => a.full + b.full
  | mul a b => a.full * b.full
  | satAdd a b => a.full + b.full
  | satMul a b => a.full * b.full
  | quotient a divisor => a.full / divisor

/-- Nothing that was stopped at the largest cost is divided. -/
def Sharp : Formula → Prop
  | given _ => True
  | add a b => a.Sharp ∧ b.Sharp
  | mul a b => a.Sharp ∧ b.Sharp
  | satAdd a b => a.Sharp ∧ b.Sharp
  | satMul a b => a.Sharp ∧ b.Sharp
  | quotient a _ => a.Sharp ∧ a.full ≤ 0xffffffffffffffff

theorem min_mul_min (a b top : Nat) : min (a * min b top) top = min (a * b) top := by
  rcases Nat.eq_zero_or_pos a with rfl | ha
  · rw [Nat.zero_mul, Nat.zero_mul]
  · rw [← Nat.mul_min_mul_left, Nat.min_assoc, Nat.min_eq_right (Nat.le_mul_of_pos_left top ha)]

theorem min_min_mul_min (a b top : Nat) :
    min (min a top * min b top) top = min (a * b) top := by
  rw [min_mul_min, Nat.mul_comm, min_mul_min, Nat.mul_comm]

/-- The exact value is the full one, stopped once. -/
theorem exact_eq_min_full {f : Formula} (hfits : f.Fits) (hsharp : f.Sharp) :
    f.exact = min f.full 0xffffffffffffffff := by
  induction f with
  | given n =>
    change n < _ at hfits
    simp only [exact, full]
    omega
  | add a b iha ihb =>
    obtain ⟨ha, hb, hlt⟩ := hfits
    have hea := iha ha hsharp.1
    have heb := ihb hb hsharp.2
    simp only [exact, full]
    omega
  | mul a b iha ihb =>
    obtain ⟨ha, hb, hlt⟩ := hfits
    have hmin := min_min_mul_min a.full b.full 0xffffffffffffffff
    rw [← iha ha hsharp.1, ← ihb hb hsharp.2] at hmin
    simp only [exact, full]
    omega
  | satAdd a b iha ihb =>
    have hea := iha hfits.1 hsharp.1
    have heb := ihb hfits.2 hsharp.2
    simp only [exact, full]
    omega
  | satMul a b iha ihb =>
    rw [exact, full, iha hfits.1 hsharp.1, ihb hfits.2 hsharp.2]
    exact min_min_mul_min a.full b.full 0xffffffffffffffff
  | quotient a divisor ih =>
    obtain ⟨ha, hle⟩ := hsharp
    have hdiv := Nat.div_le_self a.full divisor
    rw [exact, full, ih hfits.1 ha, Nat.min_eq_left hle]
    omega

end Formula

namespace Operation

theorem Branch.cost_eq_min_full {d : Dialect} {group : Option PointGroup}
    {pending : List Operation} {op : Operation} {values : List Node} {effect : Effect}
    {cost : Cost} (h : Branch (d.table group) pending op values effect)
    (ho : effect.outcome = .ok cost) (hfits : (op.formula d group values).Fits)
    (hsharp : (op.formula d group values).Sharp) :
    cost.toNat = min (op.formula d group values).full 0xffffffffffffffff := by
  rw [h.cost_eq_word ho, Formula.toNat_word hfits, Formula.exact_eq_min_full hfits hsharp]

/-- The cost that a softfork about to run declares, in full. -/
def declared : Operation → List Node → Option Nat
  | .apply, args :: .atom op :: _ =>
    if op = [Primitive.softfork.opcode] then
      match args.items with
      | .atom bytes :: _ => some (Integer.ofBytes bytes).toNat
      | _ => none
    else none
  | _, _ => none

theorem declared_eq_some {op : Operation} {values : List Node} {n : Nat}
    (h : op.declared values = some n) :
    ∃ args below bytes more, op = .apply ∧
      values = args :: .atom [Primitive.softfork.opcode] :: below ∧
      args.items = .atom bytes :: more ∧ n = (Integer.ofBytes bytes).toNat := by
  rw [declared.eq_def] at h
  split at h
  · next args op below =>
    split at h
    · next hop =>
      subst hop
      split at h
      · next bytes more hitems =>
        exact ⟨args, below, bytes, more, rfl, rfl, hitems, (Option.some.inj h).symm⟩
      · cases h
    · cases h
  · cases h

/-- A softfork is charged what it declares, clamped, unless that is nothing. -/
theorem outcome_of_declared {op : Operation} {values : List Node} {n : Nat}
    (h : op.declared values = some n) (group : Option PointGroup) (pending : List Operation) :
    ∃ e, (op.perform (.standard group) pending values).outcome =
      if n = 0 then .error e else .ok (Cost.clamp n) := by
  obtain ⟨args, below, bytes, more, rfl, rfl, hitems, rfl⟩ := declared_eq_some h
  have heval : (OperatorTable.standard group).eval (.atom [Primitive.softfork.opcode]) args =
      if Integer.ofBytes bytes < 1 then fault .softforkCost args
      else .ok ⟨Cost.clamp (Integer.ofBytes bytes).toNat, .nil⟩ := by
    change Operator.softfork args = _
    rw [Operator.softfork, hitems]
    rfl
  have hop : [Primitive.softfork.opcode] ≠ [Opcode.apply] := by decide
  refine ⟨.fault .softforkCost args, ?_⟩
  by_cases hpos : Integer.ofBytes bytes < 1
  · rw [if_pos hpos] at heval
    rw [(Branch.primitiveError hop heval below).perform_eq,
      if_pos (show (Integer.ofBytes bytes).toNat = 0 by omega)]
  · rw [if_neg hpos] at heval
    rw [(Branch.primitive hop heval below).perform_eq,
      if_neg (show (Integer.ofBytes bytes).toNat ≠ 0 by omega)]

end Operation

namespace Machine

def declared (m : Machine) : Option Nat :=
  m.pending.head?.bind (·.declared m.values)

/-- What the next step costs in full: a softfork what it declares, any other
operation what it is charged. -/
def due (m : Machine) : Nat :=
  match m.pending with
  | [] => 0
  | op :: pending =>
    match (op.perform m.table pending m.values).outcome with
    | .ok cost => m.declared.getD cost.toNat
    | .error _ => 0

def total (m : Machine) : Nat → Nat
  | 0 => 0
  | k + 1 => m.total k + (m.after k).due

theorem declared_of_pending {m : Machine} {op : Operation} {pending : List Operation}
    (h : m.pending = op :: pending) : m.declared = op.declared m.values := by
  rw [declared, h]
  rfl

theorem due_of_outcome {m : Machine} {op : Operation} {pending : List Operation} {cost : Cost}
    (hp : m.pending = op :: pending)
    (hc : (op.perform m.table pending m.values).outcome = .ok cost) :
    m.due = m.declared.getD cost.toNat := by
  rw [due]
  simp only [hp, hc]

theorem cost_eq_clamp_due {group : Option PointGroup} {m : Machine} {op : Operation}
    {pending : List Operation} {cost : Cost} (htable : m.table = .standard group)
    (hp : m.pending = op :: pending)
    (hc : (op.perform m.table pending m.values).outcome = .ok cost) :
    cost = Cost.clamp m.due := by
  rw [due_of_outcome hp hc]
  cases hn : m.declared with
  | none => exact (Cost.clamp_toNat cost).symm
  | some n =>
    rw [declared_of_pending hp] at hn
    obtain ⟨e, ho⟩ := Operation.outcome_of_declared hn group pending
    rw [htable, ho] at hc
    split at hc
    · cases hc
    · exact (Except.ok.inj hc).symm

theorem StepsTo.meter_eq {group : Option PointGroup} {m m' : Machine} (h : m.StepsTo m')
    (htable : m.table = .standard group) (hp : m.pending ≠ []) :
    m'.meter = m.meter.record (.clamp m.due) ∧ m'.meter.check = .ok () := by
  obtain ⟨op, pending, hop⟩ := List.exists_cons_of_ne_nil hp
  obtain ⟨ho, rfl⟩ := h
  obtain ⟨effect, hb, ⟨cost, hc, hs⟩ | ⟨e, _, hs⟩⟩ := step_branch hop
  · rw [← hb.perform_eq] at hc
    rw [hs] at ho ⊢
    exact ⟨congrArg m.meter.record (cost_eq_clamp_due htable hop hc), ho⟩
  · rw [hs] at ho
    cases ho

section Limited

variable {group : Option PointGroup} {m : Machine} {limit : Cost} {k : Nat}

/-- Along a run the meter shows the full cost, clamped once, and that is within
the limit. -/
theorem Works.meter_total (h : m.Works k) (htable : m.table = .standard group)
    (hm : m.meter = .bounded limit 0) :
    (m.after k).meter = .bounded limit (.clamp (m.total k)) ∧ Cost.clamp (m.total k) ≤ limit := by
  induction k with
  | zero => exact ⟨hm, UInt64.zero_le⟩
  | succ k ih =>
    obtain ⟨hp, hs⟩ := h.stepsTo (Nat.lt_succ_self k)
    have htable' : (m.after k).table = .standard group :=
      (Reachable.table_eq (h.reachable (Nat.le_succ k))).trans htable
    obtain ⟨hbefore, _⟩ := ih fun j hj => h j (Nat.lt_succ_of_lt hj)
    obtain ⟨hmeter, hcheck⟩ := hs.meter_eq htable' hp
    rw [hmeter, hbefore] at hcheck ⊢
    rw [total, ← Cost.satAdd_clamp_clamp]
    rcases UInt64.le_or_lt (Cost.satAdd (.clamp (m.total k)) (.clamp (m.after k).due)) limit
      with hle | hlt
    · exact ⟨Meter.record_bounded_of_le hle, hle⟩
    · rw [Meter.record_bounded_of_lt hlt] at hcheck
      cases hcheck

theorem Works.total_le (h : m.Works k) (htable : m.table = .standard group)
    (hm : m.meter = .bounded limit 0) (hmax : limit < Cost.max) : m.total k ≤ limit.toNat :=
  Cost.le_of_clamp_le (h.meter_total htable hm).2 hmax

end Limited

theorem Returns.works {m : Machine} {r : Reduction} (h : m.Returns (.ok r)) :
    ∃ k, m.Works k ∧ (m.after k).isFinished = true ∧ (m.after k).result = .ok r := by
  obtain ⟨s, hr, ⟨hp, hres⟩ | ⟨e, _, he⟩⟩ := returns_iff.mp h
  · clear h
    induction hr using Relation.ReflTransGen.head_induction_on with
    | refl =>
      exact ⟨0, fun j hj => absurd hj (Nat.not_lt_zero j), List.isEmpty_iff.mpr hp, hres⟩
    | @head m m' hs _ ih =>
      obtain ⟨k, hw, hf, hk⟩ := ih
      by_cases hp' : m.pending = []
      · obtain rfl : m' = m := hs.2.symm.trans (stepsTo_self hp').2
        exact ⟨k, hw, hf, hk⟩
      · obtain ⟨ho, rfl⟩ := hs
        exact ⟨k + 1, works_succ hp' ⟨ho, rfl⟩ hw, hf, hk⟩
  · cases he

theorem step_of_declared {group : Option PointGroup} {m : Machine} {limit used : Cost} {n : Nat}
    (htable : m.table = .standard group) (hm : m.meter = .bounded limit used)
    (hn : m.declared = some n) (hlt : limit.toNat < n) (hmax : limit < Cost.max) :
    m.step.outcome = .error (.costExceeded limit) := by
  cases hp : m.pending with
  | nil => simp [declared, hp] at hn
  | cons op pending =>
    obtain ⟨table, _, values, meter⟩ := m
    obtain rfl : table = .standard group := htable
    obtain rfl : meter = .bounded limit used := hm
    obtain rfl := hp
    obtain ⟨e, ho⟩ := Operation.outcome_of_declared hn group pending
    rw [if_neg (Nat.ne_zero_of_lt hlt)] at ho
    have hover : limit < Cost.satAdd used (.clamp n) := by
      have hle : (Cost.clamp n).toNat ≤ (Cost.satAdd used (.clamp n)).toNat := by
        rw [Cost.satAdd, Cost.toNat_clamp, Cost.toNat_clamp]
        omega
      exact UInt64.lt_of_lt_of_le (Cost.lt_clamp hlt hmax) (UInt64.le_iff_toNat_le.mpr hle)
    rw [step_of_perform_ok ho, Meter.record_bounded_of_lt hover]
    rfl

theorem Reachable.meter_bounded {m s : Machine} {limit used : Cost} (h : m.Reachable s)
    (hm : m.meter = .bounded limit used) : ∃ used', s.meter = .bounded limit used' := by
  induction h with
  | refl => exact ⟨used, hm⟩
  | @tail s s' _ hs ih =>
    obtain ⟨before, hbefore⟩ := ih
    by_cases hp : s.pending = []
    · obtain rfl : s' = s := hs.2.symm.trans (stepsTo_self hp).2
      exact ⟨before, hbefore⟩
    · obtain ⟨cost, hmeter, _⟩ := hs.charged hp hbefore
      exact ⟨_, hmeter⟩

/-- Below the largest cost nothing is hidden by a price that saturates: a step
that succeeds costs the full value of its formula. -/
theorem Works.due_eq_full {group : Option PointGroup} {m : Machine} {limit : Cost} {k j : Nat}
    (h : m.Works k) (htable : m.table = .standard group) (hm : m.meter = .bounded limit 0)
    (hmax : limit < Cost.max) (hj : j < k) (hn : (m.after j).declared = none)
    (hfits : ((m.after j).formula (.complete false) group).Fits)
    (hsharp : ((m.after j).formula (.complete false) group).Sharp) :
    (m.after j).due = ((m.after j).formula (.complete false) group).full := by
  have hle : m.total (j + 1) ≤ limit.toNat :=
    Works.total_le (fun i hi => h i (Nat.lt_of_lt_of_le hi hj)) htable hm hmax
  have htable' : (m.after j).table = (Dialect.complete false).table group :=
    (Reachable.table_eq (h.reachable (Nat.le_of_lt hj))).trans
      (htable.trans (Dialect.table_complete group false).symm)
  obtain ⟨hp, ho, _⟩ := h.stepsTo hj
  obtain ⟨op, pending, hop⟩ := List.exists_cons_of_ne_nil hp
  obtain ⟨effect, hb, ⟨cost, hc, _⟩ | ⟨e, _, hs⟩⟩ := step_branch hop
  · have hdue : (m.after j).due = cost.toNat := by
      rw [due_of_outcome hop (hb.perform_eq ▸ hc), hn]
      rfl
    rw [htable'] at hb
    rw [formula_of_pending hop] at hfits hsharp ⊢
    have hcost := hb.cost_eq_min_full hc hfits hsharp
    -- the step is part of the total, so it was charged less than the largest cost
    have hlt : limit.toNat < 0xffffffffffffffff := hmax
    rw [total] at hle
    omega
  · rw [hs] at ho
    cases ho

/-- A limit is enforced against costs in full: a run that gives a result has
not cost more, and a softfork that declares more makes the run fail. -/
structure Enforces (m : Machine) (limit : Cost) : Prop where
  result : ∀ r, m.Returns (.ok r) →
    ∃ k, m.Works k ∧ (m.after k).isFinished = true ∧ m.total k ≤ limit.toNat
  softfork : ∀ s n, m.Reachable s → s.declared = some n → limit.toNat < n →
    ∀ response, m.Returns response ↔ response = .error (.costExceeded limit)

theorem enforces_of_lt_max {limit : Cost} (hmax : limit < Cost.max) (group : Option PointGroup)
    (program env : Node) : (new (.standard group) program env (some limit)).Enforces limit where
  result := by
    intro r h
    obtain ⟨k, hw, hf, _⟩ := h.works
    exact ⟨k, hw, hf, hw.total_le rfl rfl hmax⟩
  softfork := by
    intro s n hr hn hlt response
    obtain ⟨used, hmeter⟩ := hr.meter_bounded rfl
    have hfail : s.step.outcome = .error (.costExceeded limit) :=
      step_of_declared (Reachable.table_eq hr) hmeter hn hlt hmax
    exact Returns.iff_eq (returns_iff.mpr ⟨s, hr, .inr ⟨_, hfail, rfl⟩⟩)

/-- A softfork that declares one more than the largest cost. -/
def hugeSoftfork : Node :=
  .pair (.atom [Primitive.softfork.opcode])
    (.pair (.pair (.atom [Opcode.quote]) (.atom [1, 0, 0, 0, 0, 0, 0, 0, 0])) .nil)

theorem hugeSoftfork_passes :
    let m := new (.standard none) hugeSoftfork .nil (some Cost.max)
    m.Returns (.ok ⟨Cost.max, .nil⟩) ∧ m.Works 5 ∧
      (m.after 4).declared = some 0x10000000000000000 := by
  intro m
  exact ⟨⟨5, by decide +kernel⟩, by decide +kernel, by decide +kernel⟩

theorem not_enforces_max :
    ¬ (new (.standard none) hugeSoftfork .nil (some Cost.max)).Enforces Cost.max := by
  intro h
  obtain ⟨hreturns, hw, hdeclared⟩ := hugeSoftfork_passes
  cases (h.softfork _ _ (hw.reachable (by decide)) hdeclared (by decide) _).mp hreturns

/-- A limit is enforced against the costs of all steps in full, whatever the
program, exactly if it is less than the largest cost. Then the meter shows the
full cost of the steps so far, and each of them has cost what its formula comes
to without saturation. -/
theorem limit_enforced_iff_lt_max (limit : Cost) :
    ((∀ group program env, (new (.standard group) program env (some limit)).Enforces limit) ↔
      limit < Cost.max) ∧
    (limit < Cost.max → ∀ group program env k,
      let m := new (.standard group) program env (some limit)
      m.Works k →
        (∀ used, (m.after k).meter.used = .ok used → used.toNat = m.total k) ∧
        ∀ j < k, (m.after j).declared = none →
          ((m.after j).formula (.complete false) group).Fits →
          ((m.after j).formula (.complete false) group).Sharp →
          (m.after j).due = ((m.after j).formula (.complete false) group).full) := by
  refine ⟨⟨fun hall => ?_, fun hmax => enforces_of_lt_max hmax⟩, ?_⟩
  · by_contra hnot
    obtain rfl : limit = Cost.max := UInt64.le_antisymm (Cost.le_max limit) (UInt64.not_lt.mp hnot)
    exact not_enforces_max (hall none hugeSoftfork .nil)
  · intro hmax group program env k m hw
    refine ⟨?_, fun j hj hn hfits hsharp => hw.due_eq_full rfl rfl hmax hj hn hfits hsharp⟩
    intro used hused
    have hle : m.total k ≤ limit.toNat := hw.total_le rfl rfl hmax
    have hlt : limit.toNat < 0xffffffffffffffff := hmax
    rw [(hw.meter_total rfl rfl).1] at hused
    obtain rfl : Cost.clamp (m.total k) = used := Except.ok.inj hused
    rw [Cost.toNat_clamp]
    omega

theorem limit_enforced_iff_lt_max_softfork :
    let limit : Cost := 0xfffffffffffffffe
    let m := new (.standard none) hugeSoftfork .nil (some limit)
    limit < Cost.max ∧ (m.after 4).declared = some 0x10000000000000000 ∧
      m.Returns (.error (.costExceeded limit)) ∧
      m.Works 4 ∧ (21 : Cost).toNat = m.total 4 ∧
      (m.after 2).due = ((m.after 2).formula (.complete false) none).full := by
  intro limit m
  have hmax : limit < Cost.max := by decide
  have hw : m.Works 4 := by decide +kernel
  have hdeclared : (m.after 4).declared = some 0x10000000000000000 := by decide +kernel
  obtain ⟨henforced, hexact⟩ := limit_enforced_iff_lt_max limit
  have hsoftfork := (henforced.mpr hmax none hugeSoftfork .nil).softfork
  obtain ⟨hused, hdue⟩ := hexact hmax none hugeSoftfork .nil 4 hw
  exact ⟨hmax, hdeclared,
    (hsoftfork _ _ (hw.reachable (Nat.le_refl 4)) hdeclared (by decide) _).mpr rfl,
    hw, hused 21 (by decide +kernel),
    hdue 2 (by decide) (by decide +kernel) (by decide +kernel) trivial⟩

/-- The run is done after five steps, and the meter shows the limit where the
steps cost more. -/
theorem limit_unenforced_at_max :
    let m := new (.standard none) hugeSoftfork .nil (some Cost.max)
    m.Returns (.ok ⟨Cost.max, .nil⟩) ∧ m.Works 5 ∧ (m.after 5).isFinished = true ∧
      m.total 5 = 0x10000000000000015 ∧ Cost.max.toNat < m.total 5 ∧ ¬ m.Enforces Cost.max := by
  intro m
  obtain ⟨hreturns, hw, _⟩ := hugeSoftfork_passes
  have htotal : m.total 5 = 0x10000000000000015 := by decide +kernel
  refine ⟨hreturns, hw, by decide +kernel, htotal, ?_, not_enforces_max⟩
  rw [htotal]
  decide

end Machine

end MeteredTree

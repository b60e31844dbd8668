import MeteredTree.Proofs.ExactRuns
import MeteredTree.Proofs.StackTyping

/-! The events of a run against its cost. Entering a program that was given as
a value has no event of its own, but it leaves a program that was entered and
does not come to a value itself; so the events still account for every unit
that is charged. -/

namespace MeteredTree

namespace Event

def isEnter : Event → Bool
  | .enter _ _ => true
  | .leave _ => false
  | .apply _ _ _ => false

def isLeave : Event → Bool
  | .enter _ _ => false
  | .leave _ => true
  | .apply _ _ _ => false

/-- What is charged for an event alone: the cost of an operator that ran, of a
path that was looked up, of a quote, or of scheduling operands. -/
def charge (table : OperatorTable) : Event → Nat
  | .enter (.atom path) env =>
    match Path.lookup path env with
    | .ok r => r.cost.toNat
    | .error _ => 0
  | .enter (.pair (.atom op) _) _ => if op = [table.quote] then 20 else 1
  | .enter (.pair (.pair _ _) _) _ => 0
  | .leave _ => 0
  | .apply _ _ cost => cost.toNat

/-- How many programs were entered. -/
def enters (events : List Event) : Nat := events.countP isEnter

/-- How many programs came to a value. -/
def leaves (events : List Event) : Nat := events.countP isLeave

def charges (table : OperatorTable) : List Event → Nat
  | [] => 0
  | event :: events => event.charge table + charges table events

@[simp] theorem enters_append (events events' : List Event) :
    enters (events ++ events') = enters events + enters events' :=
  List.countP_append

@[simp] theorem leaves_append (events events' : List Event) :
    leaves (events ++ events') = leaves events + leaves events' :=
  List.countP_append

@[simp] theorem charges_append (table : OperatorTable) (events events' : List Event) :
    charges table (events ++ events') = charges table events + charges table events' := by
  induction events with
  | nil => exact (Nat.zero_add _).symm
  | cons event events ih => rw [List.cons_append, charges, charges, ih, Nat.add_assoc]

end Event

open Event

theorem count_apply_scheduled (items : List Node) (pending : List Operation) :
    (scheduled items pending).count .apply = pending.count .apply := by
  induction items generalizing pending with
  | nil => rfl
  | cons item items ih => simp [ih]

namespace Operation

variable {table : OperatorTable} {pending : List Operation} {op : Operation}
  {values : List Node} {effect : Effect} {cost : Cost}

/-- What an operation is charged is the charge of its events, and the price of
entering a program if it does. Each program that is entered waits for an
operator to run, is entered again, or comes to a value. -/
theorem Branch.accounts (h : Branch table pending op values effect)
    (ho : effect.outcome = .ok cost) :
    ∃ entries, cost.toNat = charges table effect.events + 90 * entries ∧
      enters effect.events + (op :: pending).count .apply =
        leaves effect.events + entries + effect.pending.count .apply := by
  have happly : Price.apply.toNat = 90 := rfl
  have hquote : Price.quote.toNat = 20 := rfl
  have hoperands : Price.operands.toNat = 1 := rfl
  cases h with
  | cons | swap =>
    obtain rfl := Except.ok.inj ho
    exact ⟨0, rfl, by simp [enters, leaves]⟩
  | path h =>
    obtain rfl := Except.ok.inj ho
    refine ⟨0, by simp [charges, charge, h], ?_⟩
    simp [enters, leaves, isEnter, isLeave, List.countP_cons]
  | form =>
    obtain rfl := Except.ok.inj ho
    refine ⟨1, by simp [charges, charge, happly], ?_⟩
    simp [enters, leaves, isEnter, isLeave, List.countP_cons]
  | quote =>
    obtain rfl := Except.ok.inj ho
    refine ⟨0, by simp [charges, charge, hquote], ?_⟩
    simp [enters, leaves, isEnter, isLeave, List.countP_cons]
  | operands hop =>
    obtain rfl := Except.ok.inj ho
    refine ⟨0, by simp [charges, charge, hop, hoperands], ?_⟩
    rw [count_apply_scheduled]
    simp [enters, leaves, isEnter, isLeave, List.countP_cons]
    omega
  | enter =>
    obtain rfl := Except.ok.inj ho
    refine ⟨1, by simp [charges, happly], ?_⟩
    simp [enters, leaves]
    omega
  | primitive =>
    obtain rfl := Except.ok.inj ho
    refine ⟨0, by simp [charges, charge], ?_⟩
    simp [enters, leaves, isEnter, isLeave, List.countP_cons]
    omega
  | pathError | formError | operandsError | enterError | primitiveError | programAtom
  | operatorPair | underflow => cases ho

/-- A value comes after its program was entered: in the same operation, or in
an earlier one if an operator has run. -/
theorem Branch.leaves_take (h : Branch table pending op values effect)
    (ho : effect.outcome = .ok cost) (k : Nat) :
    leaves (effect.events.take k) ≤ enters (effect.events.take k) + (op :: pending).count .apply := by
  cases h with
  | cons | swap | enter => simp [leaves]
  | path | form | quote | operands =>
    rcases k with _ | _ | k <;> simp [enters, leaves, isEnter, isLeave, List.countP_cons]
  | primitive =>
    rcases k with _ | _ | k <;> simp [enters, leaves, isEnter, isLeave, List.countP_cons]
  | pathError | formError | operandsError | enterError | primitiveError | programAtom
  | operatorPair | underflow => cases ho

theorem Branch.apply_leave (h : Branch table pending op values effect)
    (ho : effect.outcome = .ok cost) {i : Nat} {operator args : Node} {cost' : Cost}
    (hi : effect.events[i]? = some (.apply operator args cost')) :
    ∃ result, effect.events[i + 1]? = some (.leave result) := by
  cases h with
  | cons | swap | enter => simp at hi
  | path | form | quote | operands =>
    rcases i with _ | _ | i <;> simp at hi
  | primitive =>
    rcases i with _ | _ | i
    · exact ⟨_, rfl⟩
    · simp at hi
    · simp at hi
  | pathError | formError | operandsError | enterError | primitiveError | programAtom
  | operatorPair | underflow => cases ho

theorem Branch.looked_up (h : Branch table pending op values effect)
    (ho : effect.outcome = .ok cost) {path : Bytes} {env : Node}
    (hmem : Event.enter (.atom path) env ∈ effect.events) :
    ∃ r, Path.lookup path env = .ok r := by
  cases h with
  | cons | swap | enter | form | quote | operands | primitive => simp at hmem
  | path h =>
    simp at hmem
    obtain ⟨rfl, rfl⟩ := hmem
    exact ⟨_, h⟩
  | pathError | formError | operandsError | enterError | primitiveError | programAtom
  | operatorPair | underflow => cases ho

/-- An evaluation or an operator with nothing pending after it comes to a
value, and says so. -/
theorem Branch.last_leave (h : Branch table pending op values effect)
    (ho : effect.outcome = .ok cost) (hop : op = .eval ∨ op = .apply)
    (hlast : effect.pending = []) :
    ∃ value below, effect.values = value :: below ∧
      effect.events.getLast? = some (.leave value) := by
  cases h with
  | cons | swap => simp at hop
  | path | quote | primitive => exact ⟨_, _, rfl, rfl⟩
  | form | enter => cases hlast
  | @operands _ operands =>
    have hsuffix := suffix_scheduled operands.items (.apply :: pending)
    rw [show scheduled operands.items (.apply :: pending) = [] from hlast] at hsuffix
    cases List.suffix_nil.mp hsuffix
  | pathError | formError | operandsError | enterError | primitiveError | programAtom
  | operatorPair | underflow => cases ho

end Operation

theorem Meter.used_record_of_check {meter : Meter} {used cost : Cost}
    (h : (meter.record cost).check = .ok ()) (hused : meter.used = .ok used) :
    (meter.record cost).used = .ok (Cost.satAdd used cost) := by
  cases hafter : (meter.record cost).used with
  | error e =>
    rw [check, hafter] at h
    cases h
  | ok after =>
    obtain ⟨before, hbefore, rfl⟩ := used_record hafter
    obtain rfl : before = used := Except.ok.inj (hbefore.symm.trans hused)
    rfl

theorem Typed.bottom {form : FormRecord} {op : Operation} {values : List Node}
    (h : Typed form [op] values) : op = .eval ∨ op = .apply := by
  generalize hp : [op] = pending at h
  cases h with
  | entering => exact .inl (List.cons.inj hp).1
  | leaving value h =>
    cases h with
    | result => cases hp
    | @argument _ _ below _ items =>
      have hsuffix := suffix_scheduled items (.apply :: below)
      rw [← (List.cons.inj hp).2] at hsuffix
      cases List.suffix_nil.mp hsuffix
  | gathering items =>
    rcases scheduled_eq_cons hp.symm with ⟨_, rfl, _⟩ | ⟨init, last, rfl, rfl⟩
    · exact .inr rfl
    · rw [scheduled_concat] at hp
      cases hp

namespace Machine

/-- Successful steps lead from one machine to another and give these events. -/
inductive Emits : Machine → List Event → Machine → Prop
  | refl (m : Machine) : Emits m [] m
  | head {m m' s : Machine} {events : List Event} (hs : m.StepsTo m') (h : Emits m' events s) :
    Emits m (m.step.events ++ events) s

/-- A run that may take as many steps as it needs ends with these events and
this response. -/
def Traces (m : Machine) (events : List Event) (response : Response) : Prop :=
  ∃ steps ending, m.observe (fun seen e => e :: seen) steps [] = some ending ∧
    ending.observed.reverse = events ∧ ending.response = response

theorem traces_of_trace {m : Machine} {events : List Event} {response : Response}
    (h : m.trace = some (events, response)) : m.Traces events response := by
  obtain ⟨ending, hrun, hend⟩ := Option.map_eq_some_iff.mp h
  obtain ⟨hevents, hresponse⟩ := Prod.mk.inj hend
  exact ⟨_, ending, hrun, hevents, hresponse⟩

/-- The events are what a run has watched by the time it has finished. -/
theorem emits_of_observe {m : Machine} {steps : Nat} {seen : List Event}
    {ending : Ending (List Event)} {r : Reduction}
    (h : m.observe (fun seen e => e :: seen) steps seen = some ending)
    (hr : ending.response = .ok r) :
    ∃ events s, m.Emits events s ∧ s.pending = [] ∧ s.result = .ok r ∧
      ending.observed = events.reverse ++ seen := by
  fun_induction observe (fun seen e => e :: seen) steps seen m with
  | case1 steps seen m hp =>
    obtain rfl := Option.some.inj h
    exact ⟨[], m, .refl m, List.isEmpty_iff.mp hp, hr, rfl⟩
  | case2 seen m hp => cases h
  | case3 seen m hp steps s seen' ho ih =>
    obtain ⟨events, last, hemits, hend, hres, hseen⟩ := ih h
    refine ⟨m.step.events ++ events, last, .head ⟨ho, rfl⟩ hemits, hend, hres, ?_⟩
    rw [hseen, List.reverse_append, List.append_assoc]
    simp only [seen', s, List.foldl_flip_cons_eq_append, List.map_id']
  | case4 seen m hp steps s seen' e he =>
    obtain rfl := Option.some.inj h
    cases hr

/-- The events up to now account for what the meter shows, for the programs
that wait, and for the value if the machine has finished. -/
structure Accounted (events : List Event) (m : Machine) : Prop where
  looked_up : ∀ path env, Event.enter (.atom path) env ∈ events → ∃ r, Path.lookup path env = .ok r
  leaves_take : ∀ k, leaves (events.take k) ≤ enters (events.take k)
  apply_leave : ∀ i operator args cost, events[i]? = some (.apply operator args cost) →
    ∃ result, events[i + 1]? = some (.leave result)
  charged : ∃ entries, enters events = leaves events + entries + m.pending.count .apply ∧
    m.meter.used = .ok (Cost.clamp (charges m.table events + 90 * entries))
  last : m.pending = [] → ∃ value below, m.values = value :: below ∧
    events.getLast? = some (.leave value)

theorem accounted_new (table : OperatorTable) (program env : Node) (limit : Option Cost) :
    Accounted [] (new table program env limit) where
  looked_up _ _ hmem := absurd hmem List.not_mem_nil
  leaves_take k := by simp [leaves]
  apply_leave i _ _ _ hi := by simp at hi
  charged := by
    refine ⟨0, rfl, ?_⟩
    cases limit with
    | none => rfl
    | some limit => rfl
  last hp := by cases hp

section Step

variable {m : Machine} {op : Operation} {pending : List Operation} {effect : Effect} {cost : Cost}
  {events : List Event}

theorem Accounted.leaves_take_append (h : Accounted events m) (hp : m.pending = op :: pending)
    (hb : op.Branch m.table pending m.values effect) (hc : effect.outcome = .ok cost) (k : Nat) :
    leaves ((events ++ effect.events).take k) ≤ enters ((events ++ effect.events).take k) := by
  obtain ⟨entries, hcount, _⟩ := h.charged
  have hbefore := h.leaves_take k
  have hnow := hb.leaves_take hc (k - events.length)
  rw [hp] at hcount
  rw [List.take_append, leaves_append, enters_append]
  by_cases hk : k ≤ events.length
  · have hnone : effect.events.take (k - events.length) = [] := by
      rw [Nat.sub_eq_zero_of_le hk, List.take_zero]
    rw [hnone]
    exact Nat.add_le_add_right hbefore _
  · -- all the events before are taken, and an operator that runs was waiting among them
    rw [List.take_of_length_le (by omega)]
    omega

theorem Accounted.apply_leave_append (h : Accounted events m)
    (hb : op.Branch m.table pending m.values effect) (hc : effect.outcome = .ok cost) {i : Nat}
    {operator args : Node} {cost' : Cost}
    (hi : (events ++ effect.events)[i]? = some (.apply operator args cost')) :
    ∃ result, (events ++ effect.events)[i + 1]? = some (.leave result) := by
  by_cases hlt : i < events.length
  · rw [List.getElem?_append_left hlt] at hi
    obtain ⟨result, hnext⟩ := h.apply_leave i operator args cost' hi
    obtain ⟨hlt', _⟩ := List.getElem?_eq_some_iff.mp hnext
    exact ⟨result, by rw [List.getElem?_append_left hlt', hnext]⟩
  · rw [List.getElem?_append_right (Nat.not_lt.mp hlt)] at hi
    obtain ⟨result, hnext⟩ := hb.apply_leave hc hi
    have hsub : i + 1 - events.length = i - events.length + 1 := by omega
    exact ⟨result, by rw [List.getElem?_append_right (by omega), hsub, hnext]⟩

theorem Accounted.charged_append (h : Accounted events m) (hp : m.pending = op :: pending)
    (hb : op.Branch m.table pending m.values effect) (hc : effect.outcome = .ok cost)
    (hcheck : (m.meter.record cost).check = .ok ()) :
    ∃ entries, enters (events ++ effect.events) =
        leaves (events ++ effect.events) + entries + effect.pending.count .apply ∧
      (m.meter.record cost).used =
        .ok (Cost.clamp (charges m.table (events ++ effect.events) + 90 * entries)) := by
  obtain ⟨entries, hcount, hused⟩ := h.charged
  obtain ⟨more, hcost, hbalance⟩ := hb.accounts hc
  rw [hp] at hcount
  refine ⟨entries + more, ?_, ?_⟩
  · rw [enters_append, leaves_append]
    omega
  · rw [Meter.used_record_of_check hcheck hused, Cost.satAdd_clamp, hcost, charges_append]
    congr 2
    omega

theorem last_leave_append {form : FormRecord} (htyped : Typed form (op :: pending) m.values)
    (hb : op.Branch m.table pending m.values effect) (hc : effect.outcome = .ok cost)
    (hlast : effect.pending = []) :
    ∃ value below, effect.values = value :: below ∧
      (events ++ effect.events).getLast? = some (.leave value) := by
  obtain rfl : pending = [] := List.suffix_nil.mp (hlast ▸ hb.suffix)
  obtain ⟨value, below, hvalues, hleave⟩ := hb.last_leave hc htyped.bottom hlast
  exact ⟨value, below, hvalues, by rw [List.getLast?_append, hleave]; rfl⟩

end Step

theorem Accounted.step {m m' : Machine} {form : FormRecord} {events : List Event}
    (h : Accounted events m) (htyped : Typed form m.pending m.values) (hs : m.StepsTo m') :
    Accounted (events ++ m.step.events) m' := by
  cases hp : m.pending with
  | nil =>
    obtain rfl : m = m' := (stepsTo_self hp).2.symm.trans hs.2
    rw [step_finished hp, List.append_nil]
    exact h
  | cons op pending =>
    rw [hp] at htyped
    obtain ⟨ho, rfl⟩ := hs
    obtain ⟨effect, hb, ⟨cost, hc, hstep⟩ | ⟨e, _, hstep⟩⟩ := step_branch hp
    · rw [hstep] at ho ⊢
      refine ⟨?_, h.leaves_take_append hp hb hc, ?_, h.charged_append hp hb hc ho, ?_⟩
      · intro path env hmem
        rcases List.mem_append.mp hmem with hbefore | hnow
        · exact h.looked_up path env hbefore
        · exact hb.looked_up hc hnow
      · intro i operator args cost' hi
        exact h.apply_leave_append hb hc hi
      · exact last_leave_append htyped hb hc
    · rw [hstep] at ho
      cases ho

theorem Emits.accounted {table : OperatorTable} {program env : Node} {limit : Option Cost}
    {m s : Machine} {before events : List Event} (h : m.Emits events s)
    (hr : (new table program env limit).Reachable m) (hm : Accounted before m) :
    Accounted (before ++ events) s := by
  induction h generalizing before with
  | refl m =>
    rw [List.append_nil]
    exact hm
  | head hs _ ih =>
    rw [← List.append_assoc]
    exact ih (hr.tail hs) (hm.step (Reachable.typed hr) hs)

theorem Emits.table_eq {m s : Machine} {events : List Event} (h : m.Emits events s) :
    s.table = m.table := by
  induction h with
  | refl => rfl
  | head hs _ ih => rw [ih, ← hs.2, step_table]

/-- The events of a run that comes to a result account for all of it. The last
one gives the value, values never come before the programs they belong to, and
an operator that ran is followed by its value. The cost is made up of what the
events are charged, and of the price of entering a program for each one that
was entered and did not come to a value. -/
theorem events_account_for_run (table : OperatorTable) (program env : Node) (limit : Option Cost)
    {events : List Event} {r : Reduction}
    (h : (new table program env limit).Traces events (.ok r)) :
    events.getLast? = some (.leave r.value) ∧
    (∀ before, before <+: events → leaves before ≤ enters before) ∧
    (∀ i operator args cost, events[i]? = some (.apply operator args cost) →
      ∃ result, events[i + 1]? = some (.leave result)) ∧
    (∀ path env', .enter (.atom path) env' ∈ events → ∃ r', Path.lookup path env' = .ok r') ∧
    r.cost = Cost.clamp (charges table events + 90 * (enters events - leaves events)) := by
  obtain ⟨steps, ending, hrun, rfl, hresponse⟩ := h
  obtain ⟨events, s, hemits, hend, hresult, hseen⟩ := emits_of_observe hrun hresponse
  rw [List.append_nil] at hseen
  rw [hseen, List.reverse_reverse]
  have haccount := hemits.accounted .refl (accounted_new table program env limit)
  rw [List.nil_append] at haccount
  obtain ⟨entries, hcount, hused⟩ := haccount.charged
  obtain ⟨value, below, hvalues, hlast⟩ := haccount.last hend
  rw [hend, List.count_nil] at hcount
  rw [result, hused, hvalues] at hresult
  obtain rfl := Except.ok.inj hresult
  refine ⟨hlast, ?_, haccount.apply_leave, haccount.looked_up, ?_⟩
  · intro before hprefix
    rw [List.prefix_iff_eq_take.mp hprefix]
    exact haccount.leaves_take _
  · have hentries : entries = enters events - leaves events := by omega
    rw [hemits.table_eq, hentries]
    rfl

theorem events_account_for_run_apply :
    let table := OperatorTable.standard none
    let env : Node := .pair (.atom [10]) (.pair (.atom [20]) .nil)
    let sum : Node := .pair (.atom [16]) (.pair (.atom [2]) (.pair (.atom [5]) .nil))
    let program : Node := .pair (.atom [2]) (.pair (.pair (.atom [1]) sum)
      (.pair (.pair (.atom [1]) env) .nil))
    let start := new table program .nil (some 987)
    let events := (start.trace.map Prod.fst).getD []
    start.Traces events (.ok ⟨987, .atom [30]⟩) ∧ enters events = leaves events + 1 ∧
    events.getLast? = some (.leave (.atom [30])) ∧
    987 = Cost.clamp (charges table events + 90 * (enters events - leaves events)) := by
  intro table env sum program start events
  have htrace : start.trace = some (events, .ok ⟨987, .atom [30]⟩) := by decide +kernel
  have hcount : enters events = leaves events + 1 := by decide +kernel
  obtain ⟨hlast, _, _, _, hcost⟩ :=
    events_account_for_run table program .nil (some 987) (traces_of_trace htrace)
  exact ⟨traces_of_trace htrace, hcount, hlast, hcost⟩

end Machine

end MeteredTree

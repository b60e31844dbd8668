import MeteredTree.Proofs.StackTyping

/-! Steps against charges. Every evaluation is charged, and for one unit it
pays for four steps: itself, the swap and the cons of its operand, and the run
of its operator. So a limit on the cost limits the number of steps. -/

namespace MeteredTree

namespace Path

/-- From this length on the cost of a path, which is a word, can wrap around
to zero. -/
def wrapLength : Nat := 0x7ffffffffffffff

theorem length_lowBits (n b : Nat) : (lowBits n b).length = n := by
  induction n generalizing b with
  | zero => rfl
  | succ n ih => rw [lowBits, List.length_cons, ih]

theorem length_topLegs_lt (b : UInt8) : (topLegs b).length < 8 := by
  rw [topLegs, length_lowBits]
  by_cases hb : b.toNat = 0
  · simp [hb]
  · exact (Nat.log2_lt hb).mpr b.toNat_lt

theorem length_flatMap_byteLegs (bytes : Bytes) :
    (bytes.flatMap byteLegs).length = 8 * bytes.length := by
  induction bytes with
  | nil => rfl
  | cons b bytes ih =>
    rw [List.flatMap_cons, List.length_append, ih, byteLegs, length_lowBits, List.length_cons]
    omega

theorem leadingZeros_add_legs_le (path : Bytes) :
    leadingZeros path + (legs path).length ≤ 8 * path.length := by
  have hsplit := congrArg List.length (List.takeWhile_append_dropWhile (p := (· == 0)) (l := path))
  rw [List.length_append] at hsplit
  rw [leadingZeros, legs]
  split
  · rw [List.length_nil]
    omega
  · next top low hd =>
    have htop := length_topLegs_lt top
    rw [hd, List.length_cons] at hsplit
    rw [List.length_append, length_flatMap_byteLegs, List.length_reverse]
    omega

theorem toNat_follow_cost {legs : List Bool} {node : Node} {cost : Cost} {r : Reduction}
    (h : follow legs node cost = .ok r) :
    r.cost.toNat = (cost.toNat + 4 * legs.length) % 0x10000000000000000 := by
  induction legs generalizing node cost with
  | nil =>
    obtain rfl := Except.ok.inj h
    exact (Nat.mod_eq_of_lt cost.toNat_lt).symm
  | cons toRest legs ih =>
    cases node with
    | atom bytes => cases h
    | pair first rest =>
      have hadd : (cost + Price.pathLeg).toNat = (cost.toNat + 4) % 0x10000000000000000 :=
        UInt64.toNat_add cost Price.pathLeg
      rw [ih h, hadd, List.length_cons]
      omega

/-- A path that is not too long costs what its zero bytes and its legs come
to. -/
theorem toNat_lookup_cost {path : Bytes} {env : Node} {r : Reduction}
    (h : lookup path env = .ok r) (hlen : path.length < wrapLength) :
    r.cost.toNat = 44 + 4 * leadingZeros path + 4 * (legs path).length := by
  have hle := leadingZeros_add_legs_le path
  have hbase : (Price.path + Price.pathLeg +
      UInt64.ofNat (leadingZeros path) * Price.pathZeroByte).toNat =
        44 + 4 * leadingZeros path := by
    have hz : (UInt64.ofNat (leadingZeros path)).toNat = leadingZeros path :=
      UInt64.toNat_ofNat_of_lt' (by simp only [wrapLength, UInt64.size] at *; omega)
    rw [UInt64.toNat_add, UInt64.toNat_mul, hz]
    change (44 + leadingZeros path * 4 % _) % _ = _
    simp only [wrapLength] at hlen
    omega
  rw [toNat_follow_cost h, hbase]
  simp only [wrapLength] at hlen
  omega

/-- An environment in which every path with so many legs leads to nil. -/
def fullTree : Nat → Node
  | 0 => .nil
  | depth + 1 => .pair (fullTree depth) (fullTree depth)

theorem follow_fullTree (legs : List Bool) (cost : Cost) :
    ∃ r, follow legs (fullTree legs.length) cost = .ok r := by
  induction legs generalizing cost with
  | nil => exact ⟨_, rfl⟩
  | cons toRest legs ih =>
    obtain ⟨r, hr⟩ := ih (cost + Price.pathLeg)
    refine ⟨r, ?_⟩
    rw [List.length_cons, fullTree, follow, ite_self, hr]

/-- There is a path of the length where costs wrap around that costs nothing. -/
theorem exists_lookup_free :
    ∃ (path : Bytes) (env : Node) (r : Reduction), path.length = wrapLength ∧
      lookup path env = .ok r ∧ r.cost = 0 := by
  have hfree : ∀ n : Nat, ∃ (env : Node) (r : Reduction),
      lookup (0x20 :: List.replicate n 0) env = .ok r ∧
        r.cost.toNat = (44 + 4 * (8 * n + 5)) % 0x10000000000000000 := by
    intro n
    have hzeros : leadingZeros (0x20 :: List.replicate n 0) = 0 := rfl
    have hlegs : (legs (0x20 :: List.replicate n 0)).length = 8 * n + 5 := by
      change ((List.replicate n (0 : UInt8)).reverse.flatMap byteLegs ++ topLegs 0x20).length = _
      rw [List.length_append, length_flatMap_byteLegs, List.length_reverse, List.length_replicate]
      rfl
    obtain ⟨r, hr⟩ := follow_fullTree (legs (0x20 :: List.replicate n 0))
      (Price.path + Price.pathLeg + UInt64.ofNat 0 * Price.pathZeroByte)
    have hcost := toNat_follow_cost hr
    rw [hlegs] at hcost
    exact ⟨_, r, by rw [lookup, hzeros, hr], hcost⟩
  obtain ⟨env, r, hr, hcost⟩ := hfree (wrapLength - 1)
  refine ⟨_, env, r, ?_, hr, UInt64.toNat_inj.mp ?_⟩
  · rw [List.length_cons, List.length_replicate]
    rfl
  · rw [hcost]
    rfl

end Path

theorem length_scheduled (items : List Node) (pending : List Operation) :
    (scheduled items pending).length = 3 * items.length + pending.length := by
  induction items generalizing pending with
  | nil => simp
  | cons item items ih =>
    simp only [scheduled_cons, ih, List.length_cons]
    omega

theorem count_eval_scheduled (items : List Node) (pending : List Operation) :
    (scheduled items pending).count .eval = items.length + pending.count .eval := by
  induction items generalizing pending with
  | nil => simp
  | cons item items ih =>
    have hcount : (Operation.swap :: .eval :: .cons :: pending).count .eval =
        pending.count .eval + 1 := by
      simp
    rw [scheduled_cons, ih, hcount, List.length_cons]
    omega

theorem Awaits.count_eval_le {form : FormRecord} {pending : List Operation} {values : List Node}
    (h : Awaits form pending values) : 3 * pending.count .eval ≤ pending.length := by
  induction h with
  | result => simp
  | @argument op count pending values items done env hform hcount h ih =>
    have hlen := length_scheduled items (.apply :: pending)
    have heval := count_eval_scheduled items (.apply :: pending)
    rw [List.count_cons_of_ne (by decide), List.length_cons, heval, hlen, List.length_cons,
      List.count_cons_of_ne (by decide)]
    omega

/-- Of the pending evaluations only the one on top has no swap before it. -/
theorem Typed.count_eval_le {form : FormRecord} {pending : List Operation} {values : List Node}
    (h : Typed form pending values) : 3 * pending.count .eval ≤ pending.length + 2 := by
  cases h with
  | entering program env h =>
    have hle := h.count_eval_le
    rw [List.count_cons_self, List.length_cons]
    omega
  | leaving value h =>
    have hle := h.count_eval_le
    omega
  | @gathering op count pending values items done env hform hcount h =>
    have hle := h.count_eval_le
    rw [count_eval_scheduled, length_scheduled, List.count_cons_of_ne (by decide), List.length_cons]
    omega

namespace Operation

/-- The path that an operation is about to look up, if it is. -/
def path? : Operation → List Node → Option Bytes
  | .eval, .pair (.atom path) _ :: _ => some path
  | _, _ => none

theorem Branch.pace {table : OperatorTable} {pending : List Operation} {op : Operation}
    {values : List Node} {effect : Effect} {cost : Cost}
    (h : Branch table pending op values effect) (ho : effect.outcome = .ok cost)
    (hpath : ∀ path ∈ op.path? values, path.length < Path.wrapLength) :
    effect.pending.length + 1 + 3 * (op :: pending).count .eval ≤
      (op :: pending).length + 4 * cost.toNat + 3 * effect.pending.count .eval := by
  cases h with
  | cons | swap | primitive =>
    dsimp only
    rw [List.count_cons_of_ne (by decide), List.length_cons]
    omega
  | @path path env r h values =>
    have hcost := Path.toNat_lookup_cost h (hpath path rfl)
    obtain rfl : r.cost = cost := Except.ok.inj ho
    simp only [List.count_cons_self, List.length_cons]
    omega
  | form | quote =>
    obtain rfl := Except.ok.inj ho
    have hcost : 1 ≤ Price.apply.toNat ∧ 1 ≤ Price.quote.toNat := by decide
    simp only [List.count_cons_self, List.length_cons]
    omega
  | @operands op operands hop ht env values =>
    obtain rfl := Except.ok.inj ho
    -- each operand adds three operations and one evaluation, so they cancel out
    have hcost : Price.operands.toNat = 1 := rfl
    simp only [length_scheduled, count_eval_scheduled, List.count_cons_self, List.length_cons,
      List.count_cons_of_ne (show Operation.apply ≠ .eval by decide)]
    omega
  | enter =>
    obtain rfl := Except.ok.inj ho
    have hcost : 1 ≤ Price.apply.toNat := by decide
    simp only [List.count_cons_self, List.length_cons,
      List.count_cons_of_ne (show Operation.apply ≠ .eval by decide)]
    omega
  | pathError | formError | operandsError | enterError | primitiveError | programAtom
  | operatorPair | underflow => cases ho

end Operation

namespace Machine

/-- The path that the next step looks up, if it does. -/
def path? (m : Machine) : Option Bytes :=
  m.pending.head?.bind (·.path? m.values)

/-- The first `k` steps find something to do, and they all succeed. -/
def Works (m : Machine) (k : Nat) : Prop :=
  ∀ j < k, (m.after j).isFinished = false ∧ (m.after j).step.outcome = .ok ()

instance (m : Machine) (k : Nat) : Decidable (m.Works k) :=
  inferInstanceAs
    (Decidable (∀ j < k, (m.after j).isFinished = false ∧ (m.after j).step.outcome = .ok ()))

theorem Works.reachable {m : Machine} {j k : Nat} (h : m.Works k) (hj : j ≤ k) :
    m.Reachable (m.after j) :=
  reachable_after j fun i hi => (h i (Nat.lt_of_lt_of_le hi hj)).2

theorem Works.stepsTo {m : Machine} {j k : Nat} (h : m.Works k) (hj : j < k) :
    (m.after j).pending ≠ [] ∧ (m.after j).StepsTo (m.after (j + 1)) := by
  obtain ⟨hf, ho⟩ := h j hj
  exact ⟨by simpa [isFinished] using hf, ho, (after_succ j m).symm⟩

theorem works_succ {m m' : Machine} {k : Nat} (hp : m.pending ≠ []) (hs : m.StepsTo m')
    (h : m'.Works k) : m.Works (k + 1) := by
  obtain ⟨ho, rfl⟩ := hs
  intro j hj
  cases j with
  | zero => exact ⟨by simpa [isFinished, after] using hp, ho⟩
  | succ j => exact h j (Nat.lt_of_succ_lt_succ hj)

/-- A run that is cut off has worked all along. -/
theorem works_of_runFor {m : Machine} {k : Nat} (h : m.runFor k = none) : m.Works k := by
  induction k generalizing m with
  | zero =>
    intro j hj
    exact absurd hj (Nat.not_lt_zero j)
  | succ k ih =>
    by_cases hp : m.pending = []
    · simp [runFor_finished hp] at h
    · rcases m.step_cases with hs | ⟨e, he⟩
      · rw [runFor_succ hp hs] at h
        exact works_succ hp hs (ih h)
      · simp [runFor_error he] at h

theorem StepsTo.pace {m m' : Machine} {limit used : Cost} (h : m.StepsTo m')
    (hp : m.pending ≠ []) (hm : m.meter = .bounded limit used) (hmax : limit < Cost.max)
    (hpath : ∀ path ∈ m.path?, path.length < Path.wrapLength) :
    ∃ used', m'.meter = .bounded limit used' ∧ used' ≤ limit ∧
      m'.pending.length + 1 + 3 * m.pending.count .eval + 4 * used.toNat ≤
        m.pending.length + 4 * used'.toNat + 3 * m'.pending.count .eval := by
  obtain ⟨op, pending, hop⟩ := List.exists_cons_of_ne_nil hp
  rw [path?, hop] at hpath
  obtain ⟨ho, rfl⟩ := h
  obtain ⟨effect, hb, ⟨cost, hc, hs⟩ | ⟨e, _, hs⟩⟩ := step_branch hop
  · have hpace := hb.pace hc hpath
    by_cases hlt : limit < Cost.satAdd used cost
    · rw [hs, hm, Meter.record_bounded_of_lt hlt] at ho
      cases ho
    · have hle := UInt64.not_lt.mp hlt
      -- below the largest cost the sum cannot have been clamped
      have hadd : (Cost.satAdd used cost).toNat = used.toNat + cost.toNat := by
        have hlt' : (Cost.satAdd used cost).toNat < 0xffffffffffffffff :=
          UInt64.lt_of_le_of_lt hle hmax
        rw [Cost.satAdd, Cost.toNat_clamp] at hlt' ⊢
        omega
      refine ⟨Cost.satAdd used cost, ?_, hle, ?_⟩
      · rw [hs, hm]
        exact Meter.record_bounded_of_le hle
      · rw [hs, hop, hadd]
        dsimp only
        omega
  · rw [hs] at ho
    cases ho

/-- Every step is paid for by what is charged and by the evaluations that are
still pending. -/
theorem Works.pace {m : Machine} {limit used : Cost} {k : Nat} (h : m.Works k)
    (hm : m.meter = .bounded limit used) (hused : used ≤ limit) (hmax : limit < Cost.max)
    (hpath : ∀ s, m.Reachable s → ∀ path ∈ s.path?, path.length < Path.wrapLength) :
    ∃ used', (m.after k).meter = .bounded limit used' ∧ used' ≤ limit ∧
      (m.after k).pending.length + k + 3 * m.pending.count .eval + 4 * used.toNat ≤
        m.pending.length + 4 * used'.toNat + 3 * (m.after k).pending.count .eval := by
  induction k with
  | zero => exact ⟨used, hm, hused, by simp [after]; omega⟩
  | succ k ih =>
    obtain ⟨hp, hs⟩ := h.stepsTo (Nat.lt_succ_self k)
    have hr : m.Reachable (m.after k) := h.reachable (Nat.le_succ k)
    obtain ⟨used', hm', _, hrun⟩ := ih fun j hj => h j (Nat.lt_succ_of_lt hj)
    obtain ⟨used'', hm'', hle, hstep⟩ := hs.pace hp hm' hmax (hpath _ hr)
    exact ⟨used'', hm'', hle, by omega⟩

theorem Works.le_used {table : OperatorTable} {program env : Node} {limit : Cost} {k : Nat}
    (h : (new table program env (some limit)).Works k) (hmax : limit < Cost.max)
    (hpath : ∀ s, (new table program env (some limit)).Reachable s →
      ∀ path ∈ s.path?, path.length < Path.wrapLength) :
    ∃ used, ((new table program env (some limit)).after k).meter.used = .ok used ∧
      used ≤ limit ∧ k ≤ 4 * used.toNat := by
  obtain ⟨used, hm, hle, hpace⟩ := h.pace rfl UInt64.zero_le hmax hpath
  have hshape := (Reachable.typed (h.reachable (Nat.le_refl k))).count_eval_le
  have hstart : (new table program env (some limit)).pending = [.eval] := rfl
  simp only [hstart, List.count_cons_self, List.count_nil, List.length_singleton] at hpace
  exact ⟨used, by rw [hm]; rfl, hle, by omega⟩

theorem not_works {table : OperatorTable} {program env : Node} {limit : Cost}
    (hmax : limit < Cost.max)
    (hpath : ∀ s, (new table program env (some limit)).Reachable s →
      ∀ path ∈ s.path?, path.length < Path.wrapLength) :
    ¬ (new table program env (some limit)).Works (4 * limit.toNat + 2) := by
  intro h
  obtain ⟨used, _, hle, hk⟩ := h.le_used hmax hpath
  have hle' := UInt64.le_iff_toNat_le.mp hle
  omega

/-- Under a limit below the largest cost every run ends. Unless it looks up a
path so long that its cost can wrap around, it takes at most four steps for
each unit that is charged, and so at most four for each unit of the limit. -/
theorem steps_linear_in_limit (table : OperatorTable) (program env : Node) (limit : Cost)
    (hmax : limit < Cost.max) :
    let m := new table program env (some limit)
    (∃ response, m.Returns response) ∧
    ((∀ s, m.Reachable s → ∀ path ∈ s.path?, path.length < Path.wrapLength) →
      (∀ k used, m.Works k → (m.after k).meter.used = .ok used → k ≤ 4 * used.toNat + 1) ∧
      ((∃ k ≤ 4 * limit.toNat + 2, (m.after k).isFinished = true) ∨
        ∃ k < 4 * limit.toNat + 2, ∃ e, (m.after k).step.outcome = .error e) ∧
      ∃ response, table.run program env (some limit) = some response) := by
  intro m
  refine ⟨exists_returns rfl hmax, fun hpath => ⟨?_, ?_, ?_⟩⟩
  · intro k used hw hused
    obtain ⟨used', hused', _, hk⟩ := hw.le_used hmax hpath
    obtain rfl : used' = used := Except.ok.inj (hused'.symm.trans hused)
    omega
  · by_contra hnot
    obtain ⟨hfin, herr⟩ := not_or.mp hnot
    refine not_works hmax hpath fun j hj => ?_
    refine ⟨?_, ?_⟩
    · exact Bool.eq_false_iff.mpr fun hf => hfin ⟨j, Nat.le_of_lt hj, hf⟩
    · rcases (m.after j).step_cases with hs | ⟨e, he⟩
      · exact hs.1
      · exact absurd ⟨j, hj, e, he⟩ herr
  · cases hrun : table.run program env (some limit) with
    | some response => exact ⟨response, rfl⟩
    | none => exact absurd (works_of_runFor hrun) (not_works hmax hpath)

theorem reachable_iff_after {m s : Machine} :
    m.Reachable s ↔ ∃ k, (∀ j < k, (m.after j).step.outcome = .ok ()) ∧ m.after k = s := by
  constructor
  · intro h
    induction h with
    | refl => exact ⟨0, fun j hj => absurd hj (Nat.not_lt_zero j), rfl⟩
    | tail _ hs ih =>
      obtain ⟨k, hok, rfl⟩ := ih
      refine ⟨k + 1, ?_, (after_succ k m).trans hs.2⟩
      intro j hj
      rcases Nat.lt_succ_iff_lt_or_eq.mp hj with hlt | rfl
      · exact hok j hlt
      · exact hs.1
  · rintro ⟨k, hok, rfl⟩
    exact reachable_after k hok

theorem steps_linear_in_limit_loop :
    let loop : Node := .pair (.atom [2]) (.pair (.atom [1]) (.pair (.atom [1]) .nil))
    let m := new (.standard none) loop loop (some 200)
    (∀ s, m.Reachable s → ∀ path ∈ s.path?, path.length < Path.wrapLength) ∧
    m.Works 10 ∧ (m.after 10).meter.used = .ok 180 ∧ 10 ≤ 4 * (180 : Cost).toNat + 1 ∧
    ((∃ k ≤ 802, (m.after k).isFinished = true) ∨
      ∃ k < 802, ∃ e, (m.after k).step.outcome = .error e) ∧
    ∃ response, OperatorTable.run (.standard none) loop loop (some 200) = some response := by
  intro loop m
  have hwork : m.Works 10 := by
    have hall : ∀ j < 10, (m.after j).isFinished = false ∧ (m.after j).step.outcome = .ok () := by
      decide +kernel
    exact hall
  have hused : (m.after 10).meter.used = .ok 180 := by decide +kernel
  have hfail : (m.after 10).step.outcome = .error (.costExceeded 200) := by decide +kernel
  have hshort : ∀ j ≤ 10, ∀ path ∈ (m.after j).path?, path.length < Path.wrapLength := by
    decide +kernel
  have hpath : ∀ s, m.Reachable s → ∀ path ∈ s.path?, path.length < Path.wrapLength := by
    intro s hs
    obtain ⟨k, hok, rfl⟩ := reachable_iff_after.mp hs
    refine hshort k (Nat.le_of_not_lt fun hk => ?_)
    cases hfail.symm.trans (hok 10 hk)
  obtain ⟨_, h⟩ := steps_linear_in_limit (.standard none) loop loop 200 (by decide)
  obtain ⟨hk, hend, hrun⟩ := h hpath
  exact ⟨hpath, hwork, hused, hk 10 180 hwork hused, hend, hrun⟩

end Machine

end MeteredTree

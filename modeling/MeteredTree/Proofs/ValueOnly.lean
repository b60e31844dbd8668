import MeteredTree.Proofs.Estimates

/-! Operators on integers as functions of values. What such an operator shows
apart from its cost is written down as a function of the values of its
arguments, so it cannot depend on how many bytes they were given in. -/

namespace MeteredTree

/-- A value, or the wording of an error with the dividend where the divisor is
zero. -/
abbrev Answer := Except (String × Option Node) Node

namespace Answer

def integer (v : Int) : Answer := .ok (.atom (Integer.toBytes v))

def refusal (cause : Fault) : Answer := .error (cause.message, none)

def zeroDivisor (division : Division) (dividend : Int) : Answer :=
  .error (division.message, some (.atom (Integer.toBytes dividend)))

def one (p : Primitive) (f : Int → Answer) : List Int → Answer
  | [a] => f a
  | _ => refusal (.argumentCount (.primitive p) 1)

def two (p : Primitive) (f : Int → Int → Answer) : List Int → Answer
  | [a, b] => f a b
  | _ => refusal (.argumentCount (.primitive p) 2)

end Answer

/-- What a response shows apart from its cost. -/
def seen : Response → Answer
  | .ok r => .ok r.value
  | .error (.divisionByZero division dividend) => .error (division.message, some dividend)
  | .error e => .error (e.message, none)

namespace Primitive

/-- The primitives that take any number of integers and are priced by a tariff,
with the value they compute. -/
def linear? : Primitive → Option (Tariff × (List Int → Int))
  | .add => some (Price.arithmetic, fun vs => vs.foldl (· + ·) 0)
  | .subtract => some (Price.arithmetic, fun vs => vs.tail.foldl (· - ·) (vs.headD 0))
  | .logand => some (Price.logic, fun vs => vs.foldl Integer.and (-1))
  | .logior => some (Price.logic, fun vs => vs.foldl Integer.or 0)
  | .logxor => some (Price.logic, fun vs => vs.foldl Integer.xor 0)
  | _ => none

/-- What a primitive on integers answers for the values of its arguments. -/
def answer? (g : PointGroup) (p : Primitive) : Option (List Int → Answer) :=
  match p with
  | .multiply => some fun vs => .integer (vs.foldl (· * ·) 1)
  | .divide => some (.two p fun a b =>
      if b = 0 then .zeroDivisor .quotient a else .integer (a.fdiv b))
  | .divmod => some (.two p fun a b =>
      if b = 0 then .zeroDivisor .quotientRemainder a
      else .ok (.pair (.atom (Integer.toBytes (a.fdiv b))) (.atom (Integer.toBytes (a.fmod b)))))
  | .greater => some (.two p fun a b => .ok (.ofBool (b < a)))
  | .ash => some (.two p fun a amount =>
      if -Operator.maxShift ≤ amount ∧ amount ≤ Operator.maxShift
      then .integer (Integer.shift a amount) else .refusal .shiftTooLarge)
  | .lognot => some (.one p fun a => .integer (Integer.not a))
  | .publicKey => some (.one p fun a =>
      .ok (.atom (g.compress (g.ofScalar (Integer.magnitude (a.emod g.order))))))
  | _ => p.linear?.map fun rule vs => .integer (rule.2 vs)

end Primitive

namespace Operator

variable {args : Node} {xs : List Bytes}

theorem foldl_operands (f : Int → Int → Int) (start : Int) (xs : List Bytes) :
    (xs.map Operand.ofBytes).foldl (fun total x => f total x.value) start =
      (xs.map Integer.ofBytes).foldl f start := by
  rw [List.foldl_map, List.foldl_map]
  rfl

theorem difference_operands (xs : List Bytes) :
    difference (xs.map .ofBytes) =
      (xs.map Integer.ofBytes).tail.foldl (· - ·) ((xs.map Integer.ofBytes).headD 0) := by
  cases xs with
  | nil => rfl
  | cons x xs => exact foldl_operands (· - ·) (Integer.ofBytes x) xs

theorem productFrom_operands (v : Int) (width : Nat) (cost : Cost) (xs : List Bytes) :
    (productFrom v width cost (xs.map .ofBytes)).1 = (xs.map Integer.ofBytes).foldl (· * ·) v := by
  induction xs generalizing v width cost with
  | nil => rfl
  | cons x xs ih => exact ih _ _ _

theorem product_operands (xs : List Bytes) :
    (product (xs.map .ofBytes)).1 = (xs.map Integer.ofBytes).foldl (· * ·) 1 := by
  cases xs with
  | nil => rfl
  | cons x xs =>
    rw [List.map_cons, List.map_cons, List.foldl_cons, Int.one_mul]
    exact productFrom_operands _ _ _ xs

theorem subtract_of_atoms (h : args.items = xs.map .atom) :
    subtract args =
      .ok (.newInteger (Price.arithmetic.ofAtoms xs) (difference (xs.map .ofBytes))) := by
  rw [subtract, Arguments.operands_of_atoms h, ← Tariff.ofOperands_ofBytes]
  rfl

theorem combine_of_atoms (p : Primitive) (f : Int → Int → Int) (start : Int)
    (h : args.items = xs.map .atom) :
    combine p f start args =
      .ok (.newInteger (Price.logic.ofAtoms xs) ((xs.map Integer.ofBytes).foldl f start)) := by
  rw [combine, Arguments.operands_of_atoms h, ← Tariff.ofOperands_ofBytes, ← foldl_operands]
  rfl

end Operator

namespace Primitive

variable {args : Node} {xs : List Bytes}

theorem eval_linear {p : Primitive} {t : Tariff} {f : List Int → Int}
    (hp : p.linear? = some (t, f)) (hargs : args.items = xs.map .atom)
    (group : Option PointGroup) :
    p.eval group args = .ok (.newInteger (t.ofAtoms xs) (f (xs.map Integer.ofBytes))) := by
  cases p with
  | add =>
    obtain ⟨rfl, rfl⟩ := Prod.mk.inj (Option.some.inj hp)
    rw [eval, Operator.add_of_atoms hargs, Operator.sum, Operator.foldl_operands (· + ·)]
  | subtract =>
    obtain ⟨rfl, rfl⟩ := Prod.mk.inj (Option.some.inj hp)
    rw [eval, Operator.subtract_of_atoms hargs, Operator.difference_operands]
  | logand | logior | logxor =>
    obtain ⟨rfl, rfl⟩ := Prod.mk.inj (Option.some.inj hp)
    exact Operator.combine_of_atoms _ _ _ hargs
  | _ => cases hp

/-- The kind of the arguments is no matter, so only their number can be at
fault. -/
theorem seen_oneOperand {p : Primitive} {k : Operand → Response} {f : Int → Answer}
    (hargs : args.items = xs.map .atom)
    (hk : ∀ a, xs = [a] → seen (k (.ofBytes a)) = f (Integer.ofBytes a)) :
    seen (Arguments.oneOperand (.primitive p) args >>= k) =
      Answer.one p f (xs.map Integer.ofBytes) := by
  rw [Arguments.oneOperand, Arguments.operands_of_atoms hargs]
  obtain _ | ⟨a, _ | ⟨b, more⟩⟩ := xs
  · rfl
  · exact hk a rfl
  · rfl

theorem seen_twoOperands {p : Primitive} {k : Operand × Operand → Response}
    {f : Int → Int → Answer} (hargs : args.items = xs.map .atom)
    (hk : ∀ a b, xs = [a, b] →
      seen (k (.ofBytes a, .ofBytes b)) = f (Integer.ofBytes a) (Integer.ofBytes b)) :
    seen (Arguments.twoOperands (.primitive p) args >>= k) =
      Answer.two p f (xs.map Integer.ofBytes) := by
  rw [Arguments.twoOperands, Arguments.operands_of_atoms hargs]
  obtain _ | ⟨a, _ | ⟨b, _ | ⟨c, more⟩⟩⟩ := xs
  · rfl
  · rfl
  · exact hk a b rfl
  · rfl

/-- What a primitive on integers shows is its answer to the values. A shift
must be given in at most four bytes. -/
theorem seen_eval {g : PointGroup} {p : Primitive} {f : List Int → Answer}
    (hp : p.answer? g = some f) (hargs : args.items = xs.map .atom)
    (hshift : p = .ash → ∀ s, xs[1]? = some s → s.length ≤ 4) :
    seen (p.eval (some g) args) = f (xs.map Integer.ofBytes) := by
  cases p with
  | multiply =>
    obtain rfl := Option.some.inj hp
    rw [eval, Operator.multiply_of_atoms hargs, Operator.product_operands]
    rfl
  | divide | divmod =>
    obtain rfl := Option.some.inj hp
    apply seen_twoOperands hargs
    intro a b hxs
    dsimp only [Operand.ofBytes]
    split
    · rfl
    · rfl
  | greater =>
    obtain rfl := Option.some.inj hp
    apply seen_twoOperands hargs
    intro a b hxs
    rfl
  | ash =>
    obtain rfl := Option.some.inj hp
    rw [eval, Operator.ash, Operator.shiftArguments, bind_assoc]
    apply seen_twoOperands hargs
    intro a b hxs
    -- the one place where the bytes of an argument decide more than a cost
    have hwidth : ¬ 4 < b.length := Nat.not_lt_of_le (hshift rfl b (by rw [hxs]; rfl))
    dsimp only [Operand.ofBytes]
    rw [if_neg hwidth]
    split
    · rfl
    · rfl
  | lognot | publicKey =>
    obtain rfl := Option.some.inj hp
    apply seen_oneOperand hargs
    intro a hxs
    rfl
  | add | subtract | logand | logior | logxor =>
    obtain rfl := Option.some.inj hp
    rw [eval_linear rfl hargs]
    rfl
  | _ => cases hp

theorem seen_eval_eq {g : PointGroup} {p : Primitive} {args' : Node} {ys : List Bytes}
    (hp : (p.answer? g).isSome) (hargs : args.items = xs.map .atom)
    (hargs' : args'.items = ys.map .atom)
    (hvalues : xs.map Integer.ofBytes = ys.map Integer.ofBytes)
    (hshift : p = .ash → ∀ s, xs[1]? = some s → s.length ≤ 4)
    (hshift' : p = .ash → ∀ s, ys[1]? = some s → s.length ≤ 4) :
    seen (p.eval (some g) args) = seen (p.eval (some g) args') := by
  obtain ⟨f, hf⟩ := Option.isSome_iff_exists.mp hp
  rw [seen_eval hf hargs hshift, seen_eval hf hargs' hshift', hvalues]

/-- Below the largest cost nothing has been stopped on the way. -/
theorem toNat_cost_of_lt_max {t : Tariff} {bytes : Bytes} (ht : t.perByte = 3)
    (hbytes : (xs.map List.length).foldl (· + ·) 0 < 0x10000000000000000)
    (h : (Reduction.newAtom (t.ofAtoms xs) bytes).cost < Cost.max) :
    (Reduction.newAtom (t.ofAtoms xs) bytes).cost.toNat =
      t.base.toNat + (Cost.satMul t.perArg (UInt64.ofNat xs.length)).toNat +
        (Price.allocation bytes.length).toNat + 3 * (xs.map List.length).foldl (· + ·) 0 := by
  have hmax : Cost.max.toNat = 0xffffffffffffffff := rfl
  have hthree : (3 : UInt64).toNat = 3 := rfl
  have hbytecost : (Cost.satMul t.perByte
      (UInt64.ofNat (xs.foldl (fun n x => n + x.length) 0))).toNat =
        min (3 * (xs.map List.length).foldl (· + ·) 0) 0xffffffffffffffff := by
    rw [← List.foldl_map (f := List.length) (g := (· + ·)), Cost.satMul, Cost.toNat_clamp, ht,
      UInt64.toNat_ofNat_of_lt' hbytes, hthree]
  rw [UInt64.lt_iff_toNat_lt, hmax] at h
  simp only [Reduction.newAtom, Tariff.ofAtoms, Tariff.saturating, Cost.satAdd, Cost.toNat_clamp,
    hbytecost] at h ⊢
  omega

theorem linear_perByte {p : Primitive} (hp : p ∈ [add, subtract, logand, logior, logxor]) :
    ∃ t f, p.linear? = some (t, f) ∧ t.perByte = 3 := by
  simp only [List.mem_cons, List.not_mem_nil, or_false] at hp
  rcases hp with rfl | rfl | rfl | rfl | rfl <;> exact ⟨_, _, rfl, rfl⟩

/-- Operators on integers see the values of their arguments and nothing else,
except that they are charged for bytes. -/
theorem integer_operators_see_values (g : PointGroup) {args' : Node} {ys : List Bytes}
    (hargs : args.items = xs.map .atom) (hargs' : args'.items = ys.map .atom)
    (hvalues : xs.map Integer.ofBytes = ys.map Integer.ofBytes) :
    let total (zs : List Bytes) : Nat := (zs.map List.length).foldl (· + ·) 0
    (∀ p ∈ [add, subtract, multiply, divide, divmod, greater, logand, logior, logxor, lognot,
        publicKey],
      seen (p.eval (some g) args) = seen (p.eval (some g) args')) ∧
    ((∀ s, xs[1]? = some s → s.length ≤ 4) → (∀ s, ys[1]? = some s → s.length ≤ 4) →
      seen (ash.eval (some g) args) = seen (ash.eval (some g) args')) ∧
    (∀ p ∈ [add, subtract, logand, logior, logxor],
      ∃ r r', p.eval (some g) args = .ok r ∧ p.eval (some g) args' = .ok r' ∧
        (total xs < 0x10000000000000000 → total ys < 0x10000000000000000 →
          r.cost < Cost.max → r'.cost < Cost.max →
          (r.cost.toNat : Int) - r'.cost.toNat = 3 * ((total xs : Int) - total ys))) := by
  intro total
  refine ⟨?_, ?_, ?_⟩
  · intro p hp
    have hanswer : (p.answer? g).isSome ∧ p ≠ ash := by
      simp only [List.mem_cons, List.not_mem_nil, or_false] at hp
      rcases hp with rfl | rfl | rfl | rfl | rfl | rfl | rfl | rfl | rfl | rfl | rfl <;>
        exact ⟨rfl, by decide⟩
    exact seen_eval_eq hanswer.1 hargs hargs' hvalues (fun h => absurd h hanswer.2)
      fun h => absurd h hanswer.2
  · intro hshift hshift'
    exact seen_eval_eq rfl hargs hargs' hvalues (fun _ => hshift) fun _ => hshift'
  · intro p hp
    obtain ⟨t, f, hlinear, ht⟩ := linear_perByte hp
    refine ⟨_, _, eval_linear hlinear hargs _, eval_linear hlinear hargs' _, ?_⟩
    intro hxs hys hr hr'
    have hlength : xs.length = ys.length := by
      simpa using congrArg List.length hvalues
    have hcost := toNat_cost_of_lt_max ht hxs hr
    have hcost' := toNat_cost_of_lt_max ht hys hr'
    rw [Reduction.newInteger, Reduction.newInteger, hcost, hcost', hvalues, hlength]
    dsimp only [total]
    omega

/-- A divisor of no bytes, and one of a zero byte under a longer dividend. -/
theorem integer_operators_see_values_zero :
    let args := Node.ofList [.atom [0xf8], .atom []]
    let args' := Node.ofList [.atom [0xff, 0xff, 0xf8], .atom [0x00]]
    [[0xf8], []].map Integer.ofBytes = [[0xff, 0xff, 0xf8], [0x00]].map Integer.ofBytes ∧
    seen (divide.eval (some Curve.group) args) = .error ("div with 0", some (.atom [0xf8])) ∧
    seen (divide.eval (some Curve.group) args') = .error ("div with 0", some (.atom [0xf8])) := by
  intro args args'
  have hvalues : [[0xf8], []].map Integer.ofBytes =
      [[0xff, 0xff, 0xf8], [0x00]].map Integer.ofBytes := by
    decide +kernel
  have hargs : args.items = [[0xf8], []].map .atom := rfl
  have hargs' : args'.items = [[0xff, 0xff, 0xf8], [0x00]].map .atom := rfl
  have hseen : seen (divide.eval (some Curve.group) args) =
      .error ("div with 0", some (.atom [0xf8])) := by
    decide +kernel
  obtain ⟨hsame, -, -⟩ := integer_operators_see_values Curve.group hargs hargs' hvalues
  have hdivide := hsame divide (by decide)
  exact ⟨hvalues, hseen, hdivide ▸ hseen⟩

end Primitive

end MeteredTree

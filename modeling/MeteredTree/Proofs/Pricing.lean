import MeteredTree.Path
import MeteredTree.Proofs.Dialects
import MeteredTree.Proofs.Formulas
import MeteredTree.Proofs.Operations
import MeteredTree.Proofs.Outcomes

/-! The formula by which each operation is priced. Arguments are looked at one
after the other, so a formula covers what is added up before an argument is
found to be at fault. What is charged is the value of the formula in words. -/

namespace MeteredTree

namespace Node

def width : Node → Nat
  | .atom bytes => bytes.length
  | .pair _ _ => 0

/-- The lengths of the arguments that come before the first pair. -/
def widths (args : Node) : List Nat :=
  (args.items.takeWhile isAtom).map width

theorem takeWhile_atoms (xs : List Bytes) : (xs.map atom).takeWhile isAtom = xs.map atom := by
  induction xs with
  | nil => rfl
  | cons x xs ih =>
    rw [List.map_cons, List.takeWhile_cons, ih]
    rfl

theorem widths_of_atoms {args : Node} {xs : List Bytes} (h : args.items = xs.map atom) :
    args.widths = xs.map List.length := by
  rw [widths, h, takeWhile_atoms, List.map_map]
  rfl

/-- The lengths of the arguments if there are `count` of them, all atoms. -/
def widthsOf (count : Nat) (args : Node) : List Nat :=
  if args.items.length = count ∧ args.widths.length = count then args.widths else []

theorem widthsOf_of_atoms {args : Node} {xs : List Bytes} {count : Nat}
    (h : args.items = xs.map atom) (hcount : xs.length = count) :
    args.widthsOf count = xs.map List.length := by
  have hwidths := widths_of_atoms h
  rw [widthsOf, if_pos, hwidths]
  simp [h, hwidths, hcount]

end Node

namespace Formula

/-- The price of a primitive on any number of atoms. -/
def variadic (t : Tariff) (args : Node) : Formula :=
  satTariff t (count args.widths) (total args.widths)

/-- The price of a primitive on a fixed number of atoms. -/
def fixed (t : Tariff) (arity : Nat) (args : Node) : Formula :=
  tariff t (given 0) (total (args.widthsOf arity))

theorem word_variadic_ofAtoms {t : Tariff} {args : Node} {xs : List Bytes}
    (h : args.items = xs.map .atom) : (variadic t args).word = t.ofAtoms xs := by
  rw [variadic, word_satTariff, word_count, word_total, Node.widths_of_atoms h, List.length_map,
    List.foldl_map]
  rfl

theorem word_variadic_ofOperands {t : Tariff} {args : Node} {xs : List Bytes}
    (h : args.items = xs.map .atom) :
    (variadic t args).word = t.ofOperands (xs.map .ofBytes) := by
  rw [word_variadic_ofAtoms h, Tariff.ofAtoms, Tariff.ofOperands, List.length_map, List.foldl_map]
  rfl

theorem word_fixed {t : Tariff} {args : Node} {xs : List Bytes} {arity : Nat}
    (h : args.items = xs.map .atom) (harity : xs.length = arity) :
    (fixed t arity args).word = t.plain 0 ((xs.map List.length).foldl (· + ·) 0) := by
  rw [fixed, Node.widthsOf_of_atoms h harity]
  exact word_tariff rfl (word_total _)

theorem word_fixed_one {t : Tariff} {args : Node} {a : Bytes} (h : args.items = [.atom a]) :
    (fixed t 1 args).word = t.plain 0 a.length := by
  have hatoms : args.items = [a].map .atom := h
  simpa using word_fixed (t := t) hatoms rfl

theorem word_fixed_two {t : Tariff} {args : Node} {a b : Bytes}
    (h : args.items = [.atom a, .atom b]) :
    (fixed t 2 args).word = t.plain 0 (a.length + b.length) := by
  have hatoms : args.items = [a, b].map .atom := h
  simpa using word_fixed (t := t) hatoms rfl

def shifted (t : Tariff) (width : Nat) (v : Int) : Formula :=
  (tariff t (given 0) ((given width).add (given (Integer.limbs v)))).newAtom
    (Integer.toBytes v).length

theorem word_shifted (t : Tariff) (width : Nat) (v : Int) :
    (shifted t width v).word = (Operator.shifted t width v).cost := by
  have hbytes : ((given width).add (given (Integer.limbs v))).word =
      UInt64.ofNat (width + Integer.limbs v) := by
    rw [word, word, word, UInt64.ofNat_add]
  exact (cost_newAtom (word_tariff rfl hbytes) _).symm

/-- Multiplying `v`, of `width` bytes, by the operands in turn. -/
def productFrom (v : Int) (width : Nat) (cost : Formula) : List Operand → Formula
  | [] => cost
  | x :: xs =>
    productFrom (v * x.value) (Integer.limbs (v * x.value))
      (cost.satAdd (multiplication (given width) (given x.width))) xs

theorem word_productFrom (v : Int) (width : Nat) (cost : Formula) (xs : List Operand) :
    (productFrom v width cost xs).word = (Operator.productFrom v width cost.word xs).2 := by
  induction xs generalizing v width cost with
  | nil => rfl
  | cons x xs ih =>
    rw [productFrom, ih, Operator.productFrom, word, word_multiplication]
    rfl

def product : List Operand → Formula
  | [] => price Price.multiply
  | x :: xs => productFrom x.value x.width (price Price.multiply) xs

theorem word_product (xs : List Operand) : (product xs).word = (Operator.product xs).2 := by
  cases xs with
  | nil => exact word_price _
  | cons x xs =>
    rw [product, word_productFrom, word_price]
    rfl

/-- Multiplying by arguments of the given lengths, where the length of a
product is taken to be the sum of the lengths. -/
def estimate (width cost : Formula) : List Nat → Formula
  | [] => cost
  | n :: ns =>
    estimate (width.satAdd (given n)) (cost.satAdd (multiplication width (given n))) ns

theorem word_estimate (width cost : Formula) (xs : List Bytes) :
    (estimate width cost (xs.map List.length)).word =
      Operator.productCost width.word cost.word (xs.map .ofBytes) := by
  induction xs generalizing width cost with
  | nil => rfl
  | cons x xs ih =>
    have hstep : (cost.satAdd (multiplication width (given x.length))).word =
        Cost.satAdd cost.word (Price.multiplication width.word (UInt64.ofNat x.length)) := by
      rw [word, word_multiplication, word]
    rw [List.map_cons, estimate, ih, hstep]
    rfl

end Formula

open Formula

def Primitive.formula (p : Primitive) (args result : Node) : Formula :=
  match p with
  | .choose => price Price.choose
  | .cons => price Price.cons
  | .first => price Price.first
  | .rest => price Price.rest
  | .isPair => price Price.isPair
  | .raise => given 0
  | .equal => fixed Price.equal 2 args
  | .greaterBytes => fixed Price.greaterBytes 2 args
  | .sha256 => variadic Price.sha256 args
  | .substr => price Price.substr
  | .strlen => (fixed Price.strlen 1 args).newAtom result.width
  | .concat => (variadic Price.concat args).newAtom result.width
  | .add => (variadic Price.arithmetic args).newAtom result.width
  | .subtract => (variadic Price.arithmetic args).newAtom result.width
  | .multiply =>
    match Arguments.operands (.primitive .multiply) args with
    | .ok xs => (product xs).newAtom result.width
    | .error _ => given 0
  | .divide => (fixed Price.divide 2 args).newAtom result.width
  | .divmod =>
    match result with
    | .pair q r =>
      ((fixed Price.divmod 2 args).add (allocation q.width)).add (allocation r.width)
    | .atom _ => fixed Price.divmod 2 args
  | .greater => fixed Price.greater 2 args
  | .ash =>
    match Operator.shiftArguments .ash args with
    | .ok (x, amount) => shifted Price.arithmeticShift x.width (Integer.shift x.value amount)
    | .error _ => given 0
  | .lsh =>
    match Operator.shiftArguments .lsh args with
    | .ok (x, amount) => shifted Price.logicalShift x.width (Integer.shift x.unsigned amount)
    | .error _ => given 0
  | .logand => (variadic Price.logic args).newAtom result.width
  | .logior => (variadic Price.logic args).newAtom result.width
  | .logxor => (variadic Price.logic args).newAtom result.width
  | .lognot => (fixed Price.lognot 1 args).newAtom result.width
  | .pointAdd =>
    (running (price Price.pointAdd.base)
      (args.items.map fun _ => Price.pointAdd.perArg.toNat)).newAtom result.width
  | .publicKey => (fixed Price.publicKey 1 args).newAtom result.width
  | .not => price Price.boolean.base
  | .any => tariff Price.boolean (given args.items.length) (given 0)
  | .all => tariff Price.boolean (given args.items.length) (given 0)
  | .softfork =>
    match args.items with
    | .atom bytes :: _ => given (min (Integer.ofBytes bytes).toNat 0xffffffffffffffff)
    | _ => given 0

theorem Formula.word_pointAdd {α : Type} (xs : List α) :
    (running (price Price.pointAdd.base)
      (xs.map fun _ => Price.pointAdd.perArg.toNat)).word = Price.pointAdd.plain xs.length 0 := by
  have hbase : (price Price.pointAdd.base).word = UInt64.ofNat Price.pointAdd.base.toNat := rfl
  rw [word_running hbase, foldl_add_const, UInt64.ofNat_add, UInt64.ofNat_mul, UInt64.ofNat_toNat,
    UInt64.ofNat_toNat, Tariff.plain]
  exact (UInt64.add_zero _).symm

theorem Cost.clamp_eq_ofNat (n : Nat) : clamp n = UInt64.ofNat (min n 0xffffffffffffffff) := by
  apply UInt64.toNat_inj.mp
  have hlt : min n 0xffffffffffffffff < 0x10000000000000000 := by omega
  rw [toNat_clamp, UInt64.toNat_ofNat_of_lt' hlt]

/-- What a primitive charges is the value of its formula in words. -/
theorem Primitive.Gives.cost_eq_word {group : Option PointGroup} {p : Primitive} {args : Node}
    {r : Reduction} (h : Gives group args p r) : r.cost = (p.formula args r.value).word := by
  cases h with
  | choose | cons | first | rest | isPair | substr | not => exact (word_price _).symm
  | equal h | greaterBytes h | greater h => exact (word_fixed_two h).symm
  | sha256 h => exact (word_variadic_ofAtoms h).symm
  | strlen h | lognot h | publicKey _ h => exact cost_newAtom (word_fixed_one h) _
  | concat h => exact cost_newAtom (word_variadic_ofAtoms h) _
  | add h | subtract h | logand h | logior h | logxor h =>
    exact cost_newAtom (word_variadic_ofOperands h) _
  | multiply h =>
    rw [formula, Arguments.operands_of_atoms h]
    exact cost_newAtom (word_product _) _
  | divide h => exact cost_newAtom (word_fixed_two h) _
  | divmod h =>
    simp only [formula, word, word_fixed_two h, word_allocation, Node.width]
  | ash h | lsh h =>
    rw [formula, h]
    exact (word_shifted _ _ _).symm
  | pointAdd => exact cost_newAtom (word_pointAdd args.items) _
  | any | all => exact (word_tariff rfl rfl).symm
  | softfork h =>
    rw [formula, h]
    exact Cost.clamp_eq_ofNat _

namespace Operator

def Shape.formula (args : Node) : Shape → Formula
  | .constant => price Price.unknown
  | .sum => variadic Price.arithmetic args
  | .product =>
    match args.widths with
    | [] => price Price.multiply
    | n :: ns => estimate (given n) (price Price.multiply) ns
  | .concat => variadic Price.concat args

theorem Shape.cost_eq_word {shape : Shape} {args : Node} {cost : Cost}
    (h : shape.cost args = .ok cost) : cost = (shape.formula args).word := by
  cases shape with
  | constant =>
    obtain rfl := Except.ok.inj h
    exact (word_price _).symm
  | sum =>
    obtain ⟨xs, hoperands, hpure⟩ := bind_eq_ok.mp h
    obtain ⟨bs, hitems, rfl⟩ := Arguments.operands_ok hoperands
    obtain rfl := Except.ok.inj hpure
    exact (word_variadic_ofOperands hitems).symm
  | product =>
    obtain ⟨xs, hoperands, hmatch⟩ := bind_eq_ok.mp h
    obtain ⟨bs, hitems, rfl⟩ := Arguments.operands_ok hoperands
    rw [formula, Node.widths_of_atoms hitems]
    cases bs with
    | nil =>
      obtain rfl := Except.ok.inj hmatch
      exact (word_price _).symm
    | cons b bs =>
      obtain rfl := Except.ok.inj hmatch
      rw [List.map_cons, word_estimate, word_price]
      rfl
  | concat =>
    obtain ⟨xs, hatoms, hpure⟩ := bind_eq_ok.mp h
    obtain rfl := Except.ok.inj hpure
    exact (word_variadic_ofAtoms (Arguments.atoms_ok hatoms)).symm

def unknownFormula (op : Bytes) (args : Node) : Formula :=
  match op with
  | [] => given 0
  | b :: bytes =>
    if maxOperatorLength < bytes.length + 1 then given 0
    else ((Shape.ofByte (bytes.getLastD b)).formula args).satMul
      ((given (Bytes.toNat (b :: bytes).dropLast)).add (given 1))

theorem unknown_ok {op : Bytes} {args : Node} {r : Reduction}
    (h : unknown (.atom op) args = .ok r) :
    r.cost = (unknownFormula op args).word ∧ r.value = .nil := by
  rw [unknown.eq_def] at h
  dsimp only at h
  split at h
  · cases h
  · cases h
  · cases h
  · next b bytes _ heq =>
    obtain rfl := Node.atom.inj heq
    split at h
    · cases h
    · next hlen =>
      obtain ⟨cost, hcost, hcheck⟩ := bind_eq_ok.mp h
      split at hcheck
      · obtain rfl := Except.ok.inj hcheck
        rw [unknownFormula, if_neg hlen, word, word, word, word, ← Shape.cost_eq_word hcost]
        exact ⟨rfl, rfl⟩
      · cases hcheck

end Operator

namespace Path

def formula (path : Bytes) : Formula :=
  running (((price Price.path).add (price Price.pathLeg)).add
      ((given (leadingZeros path)).mul (price Price.pathZeroByte)))
    ((legs path).map fun _ => Price.pathLeg.toNat)

theorem follow_cost_eq_word {legs : List Bool} {node : Node} {start : Formula} {cost : Cost}
    {r : Reduction} (h : follow legs node cost = .ok r) (hstart : cost = start.word) :
    r.cost = (running start (legs.map fun _ => Price.pathLeg.toNat)).word := by
  induction legs generalizing node start cost with
  | nil =>
    obtain rfl := Except.ok.inj h
    exact hstart
  | cons toRest legs ih =>
    cases node with
    | atom bytes => cases h
    | pair first rest =>
      have hnext : cost + Price.pathLeg = (start.add (price Price.pathLeg)).word := by
        rw [word, word_price, hstart]
      exact ih h hnext

theorem lookup_cost_eq_word {path : Bytes} {env : Node} {r : Reduction}
    (h : lookup path env = .ok r) : r.cost = (formula path).word := by
  apply follow_cost_eq_word h
  simp only [word, word_price]

end Path

namespace Dialect

def formula (d : Dialect) (group : Option PointGroup) (op : Bytes) (args : Node) : Formula :=
  match d.get? op with
  | some p =>
    match p.eval group args with
    | .ok r => p.formula args r.value
    | .error _ => p.formula args .nil
  | none => if d.strict then given 0 else Operator.unknownFormula op args

/-- Either a primitive gives the reduction by its rule, or the operator is
unknown and gives nil. -/
theorem eval_cases {d : Dialect} {group : Option PointGroup} {op : Bytes} {args : Node}
    {r : Reduction} (h : (d.table group).eval (.atom op) args = .ok r) :
    (∃ p : Primitive, Primitive.Gives group args p r ∧
        d.formula group op args = p.formula args r.value) ∨
      (r.value = .nil ∧ r.cost = (d.formula group op args).word) := by
  rw [eval_table] at h
  rw [formula]
  cases hop : d.get? op with
  | some p =>
    rw [hop] at h
    have heval : p.eval group args = .ok r := h
    exact .inl ⟨p, Primitive.gives_of_eval heval, by simp only [heval]⟩
  | none =>
    rw [hop] at h
    cases hs : d.strict with
    | true =>
      simp only [table, hs, if_true] at h
      cases h
    | false =>
      simp only [table, hs] at h
      obtain ⟨hcost, hvalue⟩ := Operator.unknown_ok h
      exact .inr ⟨hvalue, hcost⟩

end Dialect

namespace Operation

/-- The formula for what an operation is charged, given the values it finds. -/
def formula (d : Dialect) (group : Option PointGroup) : Operation → List Node → Formula
  | .eval, .pair (.atom path) _ :: _ => Path.formula path
  | .eval, .pair (.pair (.pair _ _) _) _ :: _ => price Price.apply
  | .eval, .pair (.pair (.atom op) _) _ :: _ =>
    if op = [d.quote] then price Price.quote else price Price.operands
  | .apply, args :: .atom op :: _ =>
    if op = [d.apply] then price Price.apply else d.formula group op args
  | _, _ => given 0

/-- What a step charges is the value of its formula in words. -/
theorem Branch.cost_eq_word {d : Dialect} {group : Option PointGroup} {pending : List Operation}
    {op : Operation} {values : List Node} {effect : Effect} {cost : Cost}
    (h : Branch (d.table group) pending op values effect) (ho : effect.outcome = .ok cost) :
    cost = (op.formula d group values).word := by
  cases h with
  | cons | swap =>
    obtain rfl := Except.ok.inj ho
    rfl
  | path h =>
    obtain rfl := Except.ok.inj ho
    exact Path.lookup_cost_eq_word h
  | form =>
    obtain rfl := Except.ok.inj ho
    exact (word_price _).symm
  | quote =>
    obtain rfl := Except.ok.inj ho
    rw [formula, Dialect.quote_table, if_pos rfl, word_price]
  | operands hop =>
    obtain rfl := Except.ok.inj ho
    rw [Dialect.quote_table] at hop
    rw [formula, if_neg hop, word_price]
  | enter =>
    obtain rfl := Except.ok.inj ho
    rw [formula, Dialect.apply_table, if_pos rfl, word_price]
  | primitive hop h =>
    obtain rfl := Except.ok.inj ho
    rw [Dialect.apply_table] at hop
    rw [formula, if_neg hop]
    rcases Dialect.eval_cases h with ⟨p, hgives, hformula⟩ | ⟨_, hcost⟩
    · rw [hformula]
      exact hgives.cost_eq_word
    · exact hcost
  | pathError | formError | operandsError | enterError | primitiveError | programAtom
  | operatorPair | underflow => cases ho

end Operation

end MeteredTree

import MeteredTree.Proofs.FullCosts
import MeteredTree.Proofs.Magnitudes

/-! Unknown operators and exact costs. Saturation stops every sum and product
far above the ceiling on unknown operators, so the cost in words and the exact
one are on the same side of the ceiling, and below it they are equal. -/

namespace MeteredTree

namespace Cost

/-- The cost is `n`, or both are past the ceiling on unknown operators. -/
def Tells (c : Cost) (n : Nat) : Prop :=
  min c.toNat 0x100000000 = min n 0x100000000

variable {a b c : Cost} {m n : Nat}

theorem tells_toNat (c : Cost) : c.Tells c.toNat := rfl

theorem tells_ofNat (h : n < 0x10000000000000000) : Tells (UInt64.ofNat n) n := by
  rw [Tells, UInt64.toNat_ofNat_of_lt' h]

theorem Tells.satAdd (ha : a.Tells m) (hb : b.Tells n) : (satAdd a b).Tells (m + n) := by
  rw [Tells] at ha hb
  rw [Tells, Cost.satAdd, toNat_clamp]
  omega

theorem Tells.satMul (ha : a.Tells m) (hb : b.Tells n) : (satMul a b).Tells (m * n) := by
  have hwords := Formula.min_min_mul_min a.toNat b.toNat 0x100000000
  have hexact := Formula.min_min_mul_min m n 0x100000000
  rw [ha, hb, hexact] at hwords
  rw [Tells, Cost.satMul, toNat_clamp]
  omega

theorem Tells.lt_iff (h : c.Tells n) : c < Operator.unknownCeiling ↔ n < 0x100000000 := by
  have hceiling : Operator.unknownCeiling.toNat = 0x100000000 := rfl
  rw [Tells] at h
  rw [UInt64.lt_iff_toNat_lt, hceiling]
  omega

theorem Tells.toNat_eq (h : c.Tells n) (hn : n < 0x100000000) : c.toNat = n := by
  rw [Tells] at h
  omega

theorem satAdd_ofNat (h : m + n < 0x10000000000000000) :
    Cost.satAdd (UInt64.ofNat m) (UInt64.ofNat n) = UInt64.ofNat (m + n) := by
  have hm : m < 0x10000000000000000 := by omega
  have hn : n < 0x10000000000000000 := by omega
  rw [Cost.satAdd, UInt64.toNat_ofNat_of_lt' hm, UInt64.toNat_ofNat_of_lt' hn, clamp, if_pos h]

end Cost

theorem Tariff.tells_saturating (t : Tariff) {args bytes : Nat}
    (hargs : args < 0x10000000000000000) (hbytes : bytes < 0x10000000000000000) :
    (t.saturating (UInt64.ofNat args) (UInt64.ofNat bytes)).Tells
      (t.base.toNat + t.perArg.toNat * args + t.perByte.toNat * bytes) := by
  have hargcost := (Cost.tells_toNat t.perArg).satMul (Cost.tells_ofNat hargs)
  have hbytecost := (Cost.tells_toNat t.perByte).satMul (Cost.tells_ofNat hbytes)
  exact ((Cost.tells_toNat t.base).satAdd hargcost).satAdd hbytecost

theorem Tariff.ofOperands_ofBytes (t : Tariff) (xs : List Bytes) :
    t.ofOperands (xs.map .ofBytes) = t.ofAtoms xs := by
  rw [ofOperands, ofAtoms, List.length_map, List.foldl_map]
  rfl

theorem Tariff.tells_ofAtoms (t : Tariff) {xs : List Bytes}
    (hcount : xs.length < 0x10000000000000000)
    (hbytes : (xs.map List.length).foldl (· + ·) 0 < 0x10000000000000000) :
    (t.ofAtoms xs).Tells (t.base.toNat + t.perArg.toNat * (xs.map List.length).length +
      t.perByte.toNat * (xs.map List.length).foldl (· + ·) 0) := by
  have htells := t.tells_saturating hcount hbytes
  rw [List.length_map]
  rw [List.foldl_map] at htells ⊢
  exact htells

/-- A product that was stopped is still past the ceiling after the division. -/
theorem Price.tells_square {vs rs : Nat} (hvs : vs < 0x10000000000000000)
    (hrs : rs < 0x10000000000000000) :
    (Cost.satMul (UInt64.ofNat rs) (UInt64.ofNat vs) / Price.multiplySquare).Tells
      (vs * rs / 128) := by
  have hdivisor : Price.multiplySquare.toNat = 128 := rfl
  rw [Cost.Tells, UInt64.toNat_div, hdivisor, Cost.satMul, Cost.toNat_clamp,
    UInt64.toNat_ofNat_of_lt' hvs, UInt64.toNat_ofNat_of_lt' hrs, Nat.mul_comm vs rs]
  -- where the product was stopped, the quotient is still about 2 to the 57th
  omega

theorem Price.tells_multiplication {vs rs : Nat} (hvs : vs < 0x10000000000000000)
    (hrs : rs < 0x10000000000000000) :
    (Price.multiplication (UInt64.ofNat vs) (UInt64.ofNat rs)).Tells
      (885 + 6 * (vs + rs) + vs * rs / 128) := by
  have hbytes := ((Cost.tells_ofNat hrs).satAdd (Cost.tells_ofNat hvs)).satMul
    (Cost.tells_toNat Price.multiplyByte)
  have hstep := ((Cost.tells_toNat Price.multiplyStep).satAdd hbytes).satAdd
    (Price.tells_square hvs hrs)
  have hlinear : Price.multiplyStep.toNat + (rs + vs) * Price.multiplyByte.toNat =
      885 + 6 * (vs + rs) := by
    change 885 + (rs + vs) * 6 = _
    omega
  rw [hlinear] at hstep
  exact hstep

/-- The same error about one node in place of another. -/
def EvalError.rename (old new : Node) : EvalError → EvalError
  | .fault cause node => .fault cause (if node = old then new else node)
  | .reserved cause operator => .reserved cause (if operator = old then new else operator)
  | .divisionByZero division dividend =>
    .divisionByZero division (if dividend = old then new else dividend)
  | .costExceeded limit => .costExceeded limit

namespace Node

theorem exists_atoms {items : List Node} (h : items.find? isPair = none) :
    ∃ xs : List Bytes, items = xs.map .atom := by
  induction items with
  | nil => exact ⟨[], rfl⟩
  | cons item items ih =>
    cases item with
    | atom bytes =>
      obtain ⟨xs, hxs⟩ := ih h
      exact ⟨bytes :: xs, by rw [hxs, List.map_cons]⟩
    | pair first rest => cases h

theorem map_width_atoms (xs : List Bytes) : (xs.map atom).map width = xs.map List.length := by
  rw [List.map_map]
  rfl

end Node

namespace Operator

/-- What it costs to multiply on from `vs` bytes, where the bytes of a product
are those of its factors. -/
def stepCosts (vs : Nat) : List Nat → Nat
  | [] => 0
  | rs :: later => 885 + 6 * (vs + rs) + vs * rs / 128 + stepCosts (vs + rs) later

namespace Shape

/-- The shape that the top two bits of a byte choose. -/
def ofTop : Nat → Shape
  | 0 => constant
  | 1 => sum
  | 2 => product
  | _ => concat

/-- The cost in exact numbers, for arguments of the given lengths. -/
def exactCost (lengths : List Nat) : Shape → Nat
  | constant => 1
  | sum => 99 + 320 * lengths.length + 3 * lengths.foldl (· + ·) 0
  | product =>
    match lengths with
    | [] => 92
    | first :: later => 92 + stepCosts first later
  | concat => 142 + 135 * lengths.length + 3 * lengths.foldl (· + ·) 0

/-- What a pair among the arguments is called. -/
def pairFault : Shape → Fault
  | concat => .onList .unknown
  | _ => .notInteger .unknown

theorem ofByte_eq_ofTop (b : UInt8) : ofByte b = ofTop (b.toNat / 64) := by
  have hb : b.toNat < 256 := b.toNat_lt
  have hlt (k : UInt8) : b < k ↔ b.toNat < k.toNat := UInt8.lt_iff_toNat_lt
  have htop : b.toNat / 64 = 0 ∨ b.toNat / 64 = 1 ∨ b.toNat / 64 = 2 ∨ b.toNat / 64 = 3 := by omega
  simp only [ofByte, hlt]
  change (if b.toNat < 64 then _ else if b.toNat < 128 then _ else
    if b.toNat < 192 then _ else _) = _
  rcases htop with h | h | h | h
  · rw [h, if_pos (by omega)]
    rfl
  · rw [h, if_neg (by omega), if_pos (by omega)]
    rfl
  · rw [h, if_neg (by omega), if_neg (by omega), if_pos (by omega)]
    rfl
  · rw [h, if_neg (by omega), if_neg (by omega), if_neg (by omega)]
    rfl

theorem exactCost_pos (lengths : List Nat) (shape : Shape) : 0 < shape.exactCost lengths := by
  rw [exactCost.eq_def]
  split
  · omega
  · omega
  · split <;> omega
  · omega

theorem cost_of_pair {shape : Shape} {args n : Node} (hshape : shape ≠ constant)
    (h : args.items.find? Node.isPair = some n) : shape.cost args = fault shape.pairFault n := by
  cases shape with
  | constant => exact absurd rfl hshape
  | sum | product =>
    rw [cost, Arguments.operands_of_pair h]
    rfl
  | concat =>
    rw [cost, Arguments.atoms_of_pair h]
    rfl

end Shape

theorem tells_productCost {vs n : Nat} {cost : Cost} {xs : List Bytes} (hcost : cost.Tells n)
    (hsum : (xs.map List.length).foldl (· + ·) vs < 0x10000000000000000) :
    (productCost (UInt64.ofNat vs) cost (xs.map .ofBytes)).Tells
      (n + stepCosts vs (xs.map List.length)) := by
  induction xs generalizing vs n cost with
  | nil => exact hcost
  | cons x xs ih =>
    rw [List.map_cons, List.foldl_cons] at hsum
    have hle := Formula.le_foldl_add (xs.map List.length) (vs + x.length)
    have hvs : vs < 0x10000000000000000 := by omega
    have hrs : x.length < 0x10000000000000000 := by omega
    have hstep := Price.tells_multiplication hvs hrs
    -- the bytes so far never wrap around, since all of them together can be counted
    have hrest := ih (hcost.satAdd hstep) hsum
    rw [← Cost.satAdd_ofNat (by omega), Nat.add_assoc] at hrest
    exact hrest

/-- The cost in words where every argument is an atom. -/
def Shape.wordCost (xs : List Bytes) : Shape → Cost
  | constant => Price.unknown
  | sum => Price.arithmetic.ofAtoms xs
  | product =>
    match xs with
    | [] => Price.multiply
    | x :: xs => productCost (UInt64.ofNat x.length) Price.multiply (xs.map .ofBytes)
  | concat => Price.concat.ofAtoms xs

theorem Shape.cost_of_atoms (shape : Shape) {args : Node} {xs : List Bytes}
    (hargs : args.items = xs.map .atom) : shape.cost args = .ok (shape.wordCost xs) := by
  cases shape with
  | constant => rfl
  | sum =>
    rw [cost, Arguments.operands_of_atoms hargs, wordCost, ← Tariff.ofOperands_ofBytes]
    rfl
  | product =>
    rw [cost, Arguments.operands_of_atoms hargs]
    cases xs with
    | nil => rfl
    | cons x xs => rfl
  | concat =>
    rw [cost, Arguments.atoms_of_atoms hargs]
    rfl

theorem Shape.tells_wordCost (shape : Shape) {xs : List Bytes}
    (hcount : xs.length < 0x10000000000000000)
    (hbytes : (xs.map List.length).foldl (· + ·) 0 < 0x10000000000000000) :
    (shape.wordCost xs).Tells (shape.exactCost (xs.map List.length)) := by
  cases shape with
  | constant => rfl
  | sum => exact Price.arithmetic.tells_ofAtoms hcount hbytes
  | product =>
    cases xs with
    | nil => rfl
    | cons x xs =>
      rw [List.map_cons, List.foldl_cons, Nat.zero_add] at hbytes
      exact tells_productCost (Cost.tells_toNat Price.multiply) hbytes
  | concat => exact Price.concat.tells_ofAtoms hcount hbytes

theorem Shape.exists_cost {shape : Shape} {args : Node}
    (hpairs : shape = .constant ∨ args.items.find? Node.isPair = none)
    (hcount : args.items.length < 0x10000000000000000)
    (hbytes : (args.items.map Node.width).foldl (· + ·) 0 < 0x10000000000000000) :
    ∃ cost, shape.cost args = .ok cost ∧
      cost.Tells (shape.exactCost (args.items.map Node.width)) := by
  rcases hpairs with rfl | hnone
  · exact ⟨Price.unknown, rfl, rfl⟩
  · obtain ⟨xs, hargs⟩ := Node.exists_atoms hnone
    rw [hargs, List.length_map] at hcount
    rw [hargs, Node.map_width_atoms] at hbytes
    rw [hargs, Node.map_width_atoms]
    exact ⟨_, shape.cost_of_atoms hargs, shape.tells_wordCost hcount hbytes⟩

/-- The operators that are kept for later: the empty one, those that start
with two bytes of ones, and those that are too long. -/
def IsReserved (op : Bytes) : Prop :=
  op = [] ∨ [0xff, 0xff] <+: op ∨ 5 < op.length

instance (op : Bytes) : Decidable (IsReserved op) :=
  inferInstanceAs (Decidable (_ ∨ _ ∨ _))

/-- Nothing, or two bytes of ones in front. -/
def IsMarked (op : Bytes) : Prop :=
  op = [] ∨ [0xff, 0xff] <+: op

theorem isReserved_iff (op : Bytes) : IsReserved op ↔ IsMarked op ∨ 5 < op.length :=
  or_assoc.symm

/-- The shape that the last byte of an operator chooses. -/
def shapeOf (op : Bytes) : Shape :=
  Shape.ofTop ((op.getLastD 0).toNat / 64)

def multiplierOf (op : Bytes) : Nat :=
  Bytes.toNat op.dropLast + 1

/-- What becomes of an operator for which its shape gives a cost. -/
def settled (op : Bytes) (cost : Cost) : Response :=
  let cost := Cost.satMul cost (UInt64.ofNat (Bytes.toNat op.dropLast) + 1)
  if cost < unknownCeiling then .ok ⟨cost, .nil⟩ else fault .invalidOperator (.atom op)

theorem toNat_multiplier {op : Bytes} (h : op.length ≤ 5) :
    (UInt64.ofNat (Bytes.toNat op.dropLast) + 1).toNat = multiplierOf op := by
  have hlength : op.dropLast.length ≤ 4 := by
    rw [List.length_dropLast]
    omega
  have hlt := Bytes.toNat_lt op.dropLast
  have hcap := Bytes.capacity_mono hlength
  have hword : Bytes.capacity 4 = 4294967296 := rfl
  have hfits : Bytes.toNat op.dropLast < 0x10000000000000000 := by omega
  have hone : (1 : UInt64).toNat = 1 := rfl
  rw [UInt64.toNat_add, UInt64.toNat_ofNat_of_lt' hfits, hone, multiplierOf]
  omega

theorem unknown_of_mark {op : Bytes} (h : IsMarked op) (args : Node) :
    unknown (.atom op) args = .error (.reserved .reserved (.atom op)) := by
  rcases h with rfl | ⟨rest, rfl⟩
  · rfl
  · rfl

theorem unknown_of_no_mark {op : Bytes} (h : ¬ IsMarked op) (args : Node) :
    unknown (.atom op) args =
      if 5 < op.length then .error (.reserved .tooLong (.atom op))
      else (shapeOf op).cost args >>= settled op := by
  rw [unknown.eq_def]
  dsimp only
  split
  · next heq => cases heq
  · next heq => exact absurd (.inl (Node.atom.inj heq)) h
  · next rest heq =>
    obtain rfl := Node.atom.inj heq
    exact absurd (.inr ⟨rest, rfl⟩) h
  · next b bytes _ heq =>
    obtain rfl := Node.atom.inj heq
    rw [Shape.ofByte_eq_ofTop, shapeOf, List.getLastD_cons]
    rfl

theorem unknown_of_not_reserved {op : Bytes} (h : ¬ IsReserved op) (args : Node) :
    unknown (.atom op) args = (shapeOf op).cost args >>= settled op := by
  rw [isReserved_iff, not_or] at h
  rw [unknown_of_no_mark h.1, if_neg h.2]

/-- What an operator with a cost comes to: the product of the exact cost and the
multiplier decides, and below the ceiling it is what is charged. -/
theorem unknown_of_cost {op : Bytes} {args : Node} {cost : Cost} {n : Nat} (h : ¬ IsReserved op)
    (hcost : (shapeOf op).cost args = .ok cost) (htells : cost.Tells n) :
    (0x100000000 ≤ n * multiplierOf op ∧
      unknown (.atom op) args = fault .invalidOperator (.atom op)) ∨
    (n * multiplierOf op < 0x100000000 ∧ ∃ c : Cost,
      unknown (.atom op) args = .ok ⟨c, .nil⟩ ∧ c.toNat = n * multiplierOf op) := by
  have hlength : op.length ≤ 5 := Nat.le_of_not_lt fun hl => h (.inr (.inr hl))
  have hmultiplier := Cost.tells_toNat (UInt64.ofNat (Bytes.toNat op.dropLast) + 1)
  rw [toNat_multiplier hlength] at hmultiplier
  have hproduct := htells.satMul hmultiplier
  have hunknown : unknown (.atom op) args = settled op cost := by
    rw [unknown_of_not_reserved h, hcost]
    rfl
  by_cases hlt : n * multiplierOf op < 0x100000000
  · right
    have haccepted := hunknown.trans (if_pos (hproduct.lt_iff.mpr hlt))
    exact ⟨hlt, _, haccepted, hproduct.toNat_eq hlt⟩
  · left
    exact ⟨Nat.le_of_not_lt hlt, hunknown.trans (if_neg (mt hproduct.lt_iff.mp hlt))⟩

theorem isMarked_concat (p : Bytes) (x : UInt8) :
    IsMarked (p ++ [x]) ↔ [0xff, 0xff] <+: p ∨ p = [0xff] ∧ x = 0xff := by
  have hpair : ([0xff, 0xff] : Bytes) = [0xff] ++ [0xff] := rfl
  rw [IsMarked, List.prefix_concat_iff, hpair, List.append_singleton_inj]
  constructor
  · rintro (hnil | ⟨hp, hx⟩ | hfront)
    · simp at hnil
    · exact .inr ⟨hp.symm, hx.symm⟩
    · exact .inl hfront
  · rintro (hfront | ⟨hp, hx⟩)
    · exact .inr (.inr hfront)
    · exact .inr (.inl ⟨hp.symm, hx.symm⟩)

/-- Costs fail only on pairs. -/
theorem Shape.cost_error {shape : Shape} {args : Node} {e : EvalError}
    (h : shape.cost args = .error e) : ∃ cause first rest, e = .fault cause (.pair first rest) := by
  cases hfirst : args.items.find? Node.isPair with
  | none =>
    obtain ⟨xs, hargs⟩ := Node.exists_atoms hfirst
    rw [shape.cost_of_atoms hargs] at h
    cases h
  | some n =>
    by_cases hshape : shape = .constant
    · rw [hshape] at h
      cases h
    · rw [cost_of_pair hshape hfirst] at h
      have hpair := List.find?_some hfirst
      cases n with
      | atom bytes => cases hpair
      | pair first rest => exact ⟨_, first, rest, (Except.error.inj h).symm⟩

theorem unknown_of_reserved {op : Bytes} (h : IsReserved op) (args : Node) :
    ∃ cause, unknown (.atom op) args = .error (.reserved cause (.atom op)) := by
  by_cases hmark : IsMarked op
  · exact ⟨.reserved, unknown_of_mark hmark args⟩
  · have hlength := ((isReserved_iff op).mp h).resolve_left hmark
    exact ⟨.tooLong, by rw [unknown_of_no_mark hmark, if_pos hlength]⟩

theorem isReserved_of_unknown {op : Bytes} {args : Node} {cause : Reservation} {node : Node}
    (h : unknown (.atom op) args = .error (.reserved cause node)) : IsReserved op := by
  apply Decidable.byContradiction
  intro hop
  rw [unknown_of_not_reserved hop] at h
  cases hcost : (shapeOf op).cost args with
  | error e =>
    obtain ⟨_, _, _, rfl⟩ := Shape.cost_error hcost
    rw [hcost] at h
    cases h
  | ok cost =>
    rw [hcost] at h
    change settled op cost = _ at h
    rw [settled] at h
    split at h
    · cases h
    · cases h

theorem shapeOf_concat (p : Bytes) (x : UInt8) :
    shapeOf (p ++ [x]) = Shape.ofTop (x.toNat / 64) := by
  rw [shapeOf, List.getLastD_concat]

theorem unknown_concat {p : Bytes} {x y : UInt8} (htop : x.toNat / 64 = y.toNat / 64)
    (hmark : p = [0xff] → (x = 0xff ↔ y = 0xff)) (args : Node) :
    unknown (.atom (p ++ [y])) args =
      (unknown (.atom (p ++ [x])) args).mapError
        (.rename (.atom (p ++ [x])) (.atom (p ++ [y]))) := by
  have hmarks : IsMarked (p ++ [x]) ↔ IsMarked (p ++ [y]) := by
    rw [isMarked_concat, isMarked_concat]
    exact or_congr_right (and_congr_right hmark)
  by_cases hx : IsMarked (p ++ [x])
  · rw [unknown_of_mark hx, unknown_of_mark (hmarks.mp hx)]
    simp only [Except.mapError, EvalError.rename, if_true]
  · have hlength : (p ++ [y]).length = (p ++ [x]).length := by simp
    rw [unknown_of_no_mark hx, unknown_of_no_mark (mt hmarks.mpr hx), hlength, shapeOf_concat,
      shapeOf_concat, htop]
    by_cases hlong : 5 < (p ++ [x]).length
    · simp only [if_pos hlong, Except.mapError, EvalError.rename, if_true]
    · simp only [if_neg hlong]
      cases hcost : (Shape.ofTop (y.toNat / 64)).cost args with
      | error e =>
        -- the error is about an argument, so it has no operator to rename
        obtain ⟨_, _, _, rfl⟩ := Shape.cost_error hcost
        rfl
      | ok cost =>
        simp only [bind, Except.bind, settled, List.dropLast_concat]
        split
        · rfl
        · simp only [fault, Except.mapError, EvalError.rename, if_true]

theorem isReserved_two (x : UInt8) : IsReserved [0xff, x] ↔ x = 0xff := by
  constructor
  · rintro (hnil | hfront | hlong)
    · cases hnil
    · rcases (isMarked_concat [0xff] x).mp (.inr hfront) with hshort | ⟨-, hx⟩
      · exact absurd hshort.length_le (by decide)
      · exact hx
    · exact absurd hlong (by simp)
  · rintro rfl
    exact .inr (.inl ⟨[], rfl⟩)

theorem reserved_of_mapError_rename {response : Response} {old new node : Node}
    {cause : Reservation}
    (h : response.mapError (EvalError.rename old new) = .error (.reserved cause node)) :
    ∃ operator, response = .error (.reserved cause operator) := by
  cases response with
  | ok r => cases h
  | error e =>
    cases e with
    | reserved cause' operator =>
      obtain ⟨rfl, -⟩ := EvalError.reserved.inj (Except.error.inj h)
      exact ⟨operator, rfl⟩
    | fault | divisionByZero | costExceeded => cases Except.error.inj h

theorem mark_iff_of_unknown_eq {x y : UInt8} {args : Node}
    (h : unknown (.atom [0xff, y]) args = (unknown (.atom [0xff, x]) args).mapError
      (.rename (.atom [0xff, x]) (.atom [0xff, y]))) : x = 0xff ↔ y = 0xff := by
  constructor
  · intro hx
    obtain ⟨cause, hreserved⟩ := unknown_of_reserved ((isReserved_two x).mpr hx) args
    rw [hreserved] at h
    exact (isReserved_two y).mp (isReserved_of_unknown h)
  · intro hy
    obtain ⟨cause, hreserved⟩ := unknown_of_reserved ((isReserved_two y).mpr hy) args
    obtain ⟨operator, hoperator⟩ := reserved_of_mapError_rename (h.symm.trans hreserved)
    exact (isReserved_two x).mp (isReserved_of_unknown hoperator)

/-- Every unknown operator is reserved, refused or charged, and which of these
is settled by exact numbers. The low six bits of the last byte matter only
where they tell whether two bytes of ones stand in front. -/
theorem unknown_accepted_exactly (op : Bytes) (args : Node)
    (hcount : args.items.length < 0x10000000000000000)
    (hbytes : (args.items.map Node.width).foldl (· + ·) 0 < 0x10000000000000000) :
    let response := unknown (.atom op) args
    let firstPair := args.items.find? Node.isPair
    let cost := (shapeOf op).exactCost (args.items.map Node.width) * multiplierOf op
    ((∃ cause, response = .error (.reserved cause (.atom op))) ↔ IsReserved op) ∧
    (¬ IsReserved op → shapeOf op ≠ .constant → ∀ n, firstPair = some n →
      response = fault (shapeOf op).pairFault n) ∧
    (¬ IsReserved op → shapeOf op = .constant ∨ firstPair = none →
      (response = fault .invalidOperator (.atom op) ↔ 0x100000000 ≤ cost) ∧
      (cost < 0x100000000 → ∃ c : Cost, response = .ok ⟨c, .nil⟩ ∧ c.toNat = cost ∧ 1 ≤ cost)) ∧
    (∀ p x y, op = p ++ [x] → x.toNat / 64 = y.toNat / 64 →
      (unknown (.atom (p ++ [y])) args =
          response.mapError (.rename (.atom op) (.atom (p ++ [y]))) ↔
        (p = [0xff] → (x = 0xff ↔ y = 0xff)))) := by
  intro response firstPair cost
  refine ⟨⟨?_, ?_⟩, ?_, ?_, ?_⟩
  · rintro ⟨cause, hreserved⟩
    exact isReserved_of_unknown hreserved
  · intro hop
    exact unknown_of_reserved hop args
  · intro hop hshape n hfirst
    have hunknown := unknown_of_not_reserved hop args
    rw [Shape.cost_of_pair hshape hfirst] at hunknown
    exact hunknown
  · intro hop hpairs
    obtain ⟨word, hword, htells⟩ := Shape.exists_cost hpairs hcount hbytes
    have hpos := Nat.mul_pos (Shape.exactCost_pos (args.items.map Node.width) (shapeOf op))
      (Nat.succ_pos (Bytes.toNat op.dropLast))
    rcases unknown_of_cost hop hword htells with ⟨hle, hrefused⟩ | ⟨hlt, c, haccepted, hc⟩
    · exact ⟨iff_of_true hrefused hle, fun hlt => absurd hle (Nat.not_le_of_lt hlt)⟩
    · refine ⟨iff_of_false ?_ (Nat.not_le_of_lt hlt), fun _ => ⟨c, haccepted, hc, hpos⟩⟩
      intro hrefused
      cases haccepted.symm.trans hrefused
  · rintro p x y rfl htop
    constructor
    · rintro h rfl
      exact mark_iff_of_unknown_eq h
    · intro hmark
      exact unknown_concat htop hmark args

theorem unknown_accepted_exactly_product :
    let args := Node.ofList [.atom [0x05], .atom [0x01, 0x00]]
    args.items.length < 0x10000000000000000 ∧
    (args.items.map Node.width).foldl (· + ·) 0 < 0x10000000000000000 ∧
    ∃ c : Cost, unknown (.atom [0x02, 0xbf]) args = .ok ⟨c, .nil⟩ ∧ c.toNat = 2985 := by
  intro args
  have hcount : args.items.length < 0x10000000000000000 := by decide
  have hbytes : (args.items.map Node.width).foldl (· + ·) 0 < 0x10000000000000000 := by decide
  have hexact : (shapeOf [0x02, 0xbf]).exactCost (args.items.map Node.width) *
      multiplierOf [0x02, 0xbf] = 2985 := by
    decide +kernel
  obtain ⟨-, -, hcharged, -⟩ := unknown_accepted_exactly [0x02, 0xbf] args hcount hbytes
  obtain ⟨-, haccepted⟩ := hcharged (by decide) (.inr rfl)
  obtain ⟨c, hc, hcost, -⟩ := haccepted (by rw [hexact]; decide)
  exact ⟨hcount, hbytes, c, hc, hcost.trans hexact⟩

/-- Two operators that differ in the low six bits of their last bytes, of which
one is charged and the other reserved. -/
theorem low_bits_complete_mark :
    (0xc0 : UInt8).toNat / 64 = (0xff : UInt8).toNat / 64 ∧
    unknown (.atom ([0xff] ++ [0xc0])) .nil = .ok ⟨36352, .nil⟩ ∧
    unknown (.atom ([0xff] ++ [0xff])) .nil =
      .error (.reserved .reserved (.atom ([0xff] ++ [0xff]))) := by
  decide +kernel

end Operator

end MeteredTree

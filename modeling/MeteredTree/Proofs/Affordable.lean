import MeteredTree.Curve.Compressed
import MeteredTree.Proofs.AtomSizes
import MeteredTree.Proofs.Magnitudes
import MeteredTree.Proofs.Pace

/-! Formulas that fit into words. A run within the block limit can have paid
for so many arguments and for atoms of such lengths only; the formulas of every
operator are computed without an overflow for these. The closest is the total
of the lengths of all arguments, which takes up two thirds of a word. -/

namespace MeteredTree

/-- If a group is loaded, every point of it is written in as many bytes as one
of the curve. -/
def PointGroup.Compact (group : Option PointGroup) : Prop :=
  ∀ g ∈ group, ∀ point, (g.compress point).length = compressedLength

theorem Curve.compact_group : PointGroup.Compact (some group) := by
  intro g hg point
  obtain rfl := Option.some.inj hg
  exact Point.length_compress point

theorem Node.width_le_longest (n : Node) : n.width ≤ n.longest := by
  cases n with
  | atom bytes => exact Nat.le_refl _
  | pair first rest => exact Nat.zero_le _

/-- Arguments that the block limit has room for. -/
structure Node.Affordable (args : Node) : Prop where
  longest_le : args.longest ≤ 1100000000
  length_le : args.items.length ≤ 11000000000

/-- A result whose lengths fit into a formula. -/
def Node.Sized : Node → Prop
  | .atom bytes => bytes.length < 0x10000000000000000
  | .pair first rest => first.width + rest.width ≤ 3000000000

theorem Node.sized_of_longest_le {n : Node} (h : n.longest ≤ 1100000000) : n.Sized := by
  cases n with
  | atom bytes => exact Nat.lt_of_le_of_lt h (by decide)
  | pair first rest =>
    obtain ⟨hfirst, hrest⟩ := longest_pair_le.mp h
    have hfirst' := first.width_le_longest
    have hrest' := rest.width_le_longest
    change first.width + rest.width ≤ 3000000000
    omega

theorem Node.sized_toBytes {v : Int} {n : Nat} (h : v.natAbs ≤ Bytes.capacity n)
    (hn : n + 1 < 0x10000000000000000) : (Node.atom (Integer.toBytes v)).Sized :=
  Nat.lt_of_le_of_lt (Integer.length_toBytes_le h) hn

theorem Node.Sized.width_lt {n : Node} (h : n.Sized) : n.width < 0x10000000000000000 := by
  cases n with
  | atom bytes => exact h
  | pair first rest => exact (by decide : 0 < 0x10000000000000000)

theorem length_flatten_eq (xs : List Bytes) :
    xs.flatten.length = (xs.map List.length).foldl (· + ·) 0 := by
  have haux : ∀ k, k + xs.flatten.length = (xs.map List.length).foldl (· + ·) k := by
    induction xs with
    | nil => exact fun k => rfl
    | cons x xs ih =>
      intro k
      rw [List.flatten_cons, List.length_append, ← Nat.add_assoc, ih]
      rfl
  rw [← haux, Nat.zero_add]

namespace Node.Affordable

variable {args : Node}

theorem item_le (h : args.Affordable) {item : Node} (hitem : item ∈ args.items) :
    item.longest ≤ 1100000000 :=
  longest_item_le h.longest_le hitem

theorem atom_le (h : args.Affordable) {bytes : Bytes} (hb : .atom bytes ∈ args.items) :
    bytes.length ≤ 1100000000 :=
  h.item_le hb

theorem length_widths_le (h : args.Affordable) : args.widths.length ≤ 11000000000 := by
  have hle := (List.takeWhile_sublist (l := args.items) isAtom).length_le
  have hlen := h.length_le
  rw [widths, List.length_map]
  omega

theorem widths_le (h : args.Affordable) : ∀ n ∈ args.widths, n ≤ 1100000000 := by
  intro n hn
  obtain ⟨item, hmem, rfl⟩ := List.mem_map.mp hn
  have hitem := h.item_le ((List.takeWhile_sublist _).mem hmem)
  exact Nat.le_trans item.width_le_longest hitem

theorem total_lt (h : args.Affordable) :
    args.widths.foldl (· + ·) 0 < 0x10000000000000000 := by
  have hsum := Formula.foldl_add_le h.widths_le 0
  have hmul := Nat.mul_le_mul_right 1100000000 h.length_widths_le
  omega

theorem total_widthsOf_le (h : args.Affordable) {count : Nat} (hcount : count ≤ 2) :
    (args.widthsOf count).foldl (· + ·) 0 ≤ 2200000000 := by
  rw [widthsOf]
  split
  · next hlen =>
    have hsum := Formula.foldl_add_le h.widths_le 0
    rw [hlen.2] at hsum
    omega
  · exact Nat.zero_le _

theorem short_operands (h : args.Affordable) {xs : List Bytes} (hxs : args.items = xs.map .atom) :
    ∀ x ∈ xs.map Operand.ofBytes, x.Short 1100000000 := by
  intro x hx
  obtain ⟨bytes, hmem, rfl⟩ := List.mem_map.mp hx
  exact Operand.short_ofBytes (h.atom_le (hxs ▸ List.mem_map_of_mem hmem))

theorem length_operands_le (h : args.Affordable) {xs : List Bytes}
    (hxs : args.items = xs.map .atom) : (xs.map Operand.ofBytes).length ≤ 11000000000 := by
  have hlen := h.length_le
  rw [hxs, List.length_map] at hlen
  rwa [List.length_map]

theorem sized_foldl (h : args.Affordable) {xs : List Bytes} (hxs : args.items = xs.map .atom)
    {f : Int → Int → Int} (hf : ∀ a b, (f a b).natAbs ≤ a.natAbs + b.natAbs) {start : Int}
    (hstart : start.natAbs ≤ 1) :
    (Node.atom (Integer.toBytes ((xs.map Operand.ofBytes).foldl
      (fun total x => f total x.value) start))).Sized := by
  have hlen := h.length_operands_le hxs
  exact sized_toBytes (Operator.natAbs_foldl_le_capacity hf (h.short_operands hxs)
    (Integer.unit_le_capacity hstart _)) (by omega)

theorem shift_le (h : args.Affordable) {p : Primitive} {x : Operand} {amount : Int}
    (hshift : Operator.shiftArguments p args = .ok (x, amount)) :
    x.width ≤ 1100000000 ∧
      (Integer.shift x.value amount).natAbs ≤ Bytes.capacity 1100008192 ∧
      (Integer.shift x.unsigned amount).natAbs ≤ Bytes.capacity 1100008192 := by
  obtain ⟨a, b, hitems, rfl, _, hamount⟩ := Operator.shiftArguments_ok hshift
  have ha : a.length ≤ 1100000000 := h.atom_le (by simp [hitems])
  have hvalue := (Operand.short_ofBytes ha).natAbs_le
  have hunsigned := Operand.natAbs_unsigned_le ha
  exact ⟨ha, Integer.natAbs_shift_le hvalue hamount, Integer.natAbs_shift_le hunsigned hamount⟩

end Node.Affordable

namespace Formula

variable {args : Node}

theorem fits_variadic (h : args.Affordable) (t : Tariff) : (variadic t args).Fits := by
  have hlen := h.length_widths_le
  exact fits_satTariff t (fits_count (by omega)) (fits_total h.total_lt)

theorem exact_fixed_le (h : args.Affordable) (t : Tariff) {arity : Nat} (harity : arity ≤ 2) :
    (fixed t arity args).exact ≤ t.base.toNat + 2200000000 * t.perByte.toNat := by
  have hmul := Nat.mul_le_mul_right t.perByte.toNat (h.total_widthsOf_le harity)
  simp only [fixed, tariff, exact, exact_price, exact_total, Nat.zero_mul]
  omega

theorem fits_fixed (h : args.Affordable) {t : Tariff} {arity : Nat} (harity : arity ≤ 2)
    (ht : t.base.toNat + 2200000000 * t.perByte.toNat < 0x10000000000000000) :
    (fixed t arity args).Fits := by
  have htotal := h.total_widthsOf_le harity
  exact fits_tariff fits_zero (fits_total (by omega))
    (Nat.lt_of_le_of_lt (exact_fixed_le h t harity) ht)

theorem fits_shifted {t : Tariff} {width : Nat} {v : Int} (hwidth : width ≤ 1100000000)
    (hv : v.natAbs ≤ Bytes.capacity 1100008192)
    (ht : t.base.toNat + 2200010000 * t.perByte.toNat < 0x10000000000000000) :
    (shifted t width v).Fits := by
  have hlimbs := Integer.limbs_le hv
  have hlen := Integer.length_toBytes_le hv
  have hbytes : ((given width).add (given (Integer.limbs v))).Fits := by
    refine ⟨?_, ?_, ?_⟩
    · change width < _
      omega
    · change Integer.limbs v < _
      omega
    · change width + Integer.limbs v < _
      omega
  have hsum : width + Integer.limbs v ≤ 2200010000 := by omega
  have hmul := Nat.mul_le_mul_right t.perByte.toNat hsum
  refine fits_newAtom (fits_tariff fits_zero hbytes ?_) (by omega)
  simp only [tariff, exact, exact_price, Nat.zero_mul]
  omega

theorem fits_productFrom {n k width : Nat} {v : Int} {cost : Formula} {xs : List Operand}
    (hcost : cost.Fits) (hwidth : width < 0x10000000000000000)
    (hv : v.natAbs ≤ Bytes.capacity k) (hxs : ∀ x ∈ xs, x.Short n)
    (hn : n < 0x10000000000000000) (hsum : k + xs.length * n + 1 < 0x10000000000000000) :
    (productFrom v width cost xs).Fits := by
  -- `k` bytes are room for the product so far, and each operand takes at most `n` more
  induction xs generalizing v k width cost with
  | nil => exact hcost
  | cons x xs ih =>
    obtain ⟨hxwidth, hx⟩ := hxs x List.mem_cons_self
    have hnext : (v * x.value).natAbs ≤ Bytes.capacity (k + n) := by
      rw [Int.natAbs_mul, Bytes.capacity_add]
      exact Nat.mul_le_mul hv hx
    have hlimbs := Integer.limbs_le hnext
    have hgiven : (given x.width).Fits := Nat.lt_of_le_of_lt hxwidth hn
    rw [List.length_cons, Nat.succ_mul] at hsum
    exact ih ⟨hcost, fits_multiplication hwidth hgiven⟩ (by omega) hnext
      (fun y hy => hxs y (List.mem_cons_of_mem x hy)) (by omega)

theorem fits_product {n : Nat} {xs : List Operand} (hxs : ∀ x ∈ xs, x.Short n)
    (hn : n < 0x10000000000000000) (hsum : xs.length * n + 1 < 0x10000000000000000) :
    (product xs).Fits := by
  cases xs with
  | nil => exact fits_price _
  | cons x xs =>
    obtain ⟨hwidth, hx⟩ := hxs x List.mem_cons_self
    rw [List.length_cons, Nat.succ_mul] at hsum
    exact fits_productFrom (fits_price _) (Nat.lt_of_le_of_lt hwidth hn) hx
      (fun y hy => hxs y (List.mem_cons_of_mem x hy)) hn (by omega)

theorem fits_estimate {width cost : Formula} {ns : List Nat} (hwidth : width.Fits)
    (hcost : cost.Fits) (hns : ∀ n ∈ ns, n < 0x10000000000000000) :
    (estimate width cost ns).Fits := by
  induction ns generalizing width cost with
  | nil => exact hcost
  | cons n ns ih =>
    have hn : (given n).Fits := hns n List.mem_cons_self
    exact ih ⟨hwidth, hn⟩ ⟨hcost, fits_multiplication hwidth hn⟩
      fun m hm => hns m (List.mem_cons_of_mem n hm)

theorem fits_boolean (h : args.Affordable) :
    (tariff Price.boolean (given args.items.length) (given 0)).Fits := by
  have hlen := h.length_le
  have hcount : (given args.items.length).Fits := by
    change args.items.length < _
    omega
  refine fits_tariff hcount fits_zero ?_
  have hbase : Price.boolean.base.toNat = 200 := rfl
  have harg : Price.boolean.perArg.toNat = 300 := rfl
  simp only [tariff, exact, exact_price, Nat.zero_mul, hbase, harg]
  omega

theorem fits_points (h : args.Affordable) :
    (running (price Price.pointAdd.base)
      (args.items.map fun _ => Price.pointAdd.perArg.toNat)).Fits := by
  have hlen := h.length_le
  have hbase : Price.pointAdd.base.toNat = 101094 := rfl
  have harg : Price.pointAdd.perArg.toNat = 1343980 := rfl
  apply fits_running (fits_price _)
  rw [foldl_add_const, exact_price, hbase, harg]
  omega

end Formula

open Formula

namespace Primitive

variable {args : Node}

theorem fits_formula (p : Primitive) (h : args.Affordable) {result : Node} (hr : result.Sized) :
    (p.formula args result).Fits := by
  have hwidth := hr.width_lt
  cases p with
  | choose | cons | first | rest | isPair | substr | not => exact fits_price _
  | raise => exact fits_zero
  | equal | greaterBytes | greater => exact fits_fixed h (by decide) (by decide)
  | sha256 => exact fits_variadic h _
  | strlen | divide | lognot | publicKey =>
    exact fits_newAtom (fits_fixed h (by decide) (by decide)) hwidth
  | concat | add | subtract | logand | logior | logxor =>
    exact fits_newAtom (fits_variadic h _) hwidth
  | pointAdd => exact fits_newAtom (fits_points h) hwidth
  | any | all => exact fits_boolean h
  | multiply =>
    rw [formula]
    split
    · next xs hxs =>
      obtain ⟨bs, hitems, rfl⟩ := Arguments.operands_ok hxs
      have hlen := h.length_operands_le hitems
      have hmul := Nat.mul_le_mul_right 1100000000 hlen
      exact fits_newAtom (fits_product (h.short_operands hitems) (by decide) (by omega)) hwidth
    · exact fits_zero
  | divmod =>
    have hfixed : (fixed Price.divmod 2 args).Fits := fits_fixed h (by decide) (by decide)
    cases result with
    | atom bytes => exact hfixed
    | pair q r =>
      have hexact := exact_fixed_le h Price.divmod (Nat.le_refl 2)
      have hbase : Price.divmod.base.toNat = 1116 := rfl
      have hbyte : Price.divmod.perByte.toNat = 6 := rfl
      have hq := exact_allocation_le q.width
      have hrest := exact_allocation_le r.width
      have hsum : q.width + r.width ≤ 3000000000 := hr
      rw [hbase, hbyte] at hexact
      refine ⟨⟨hfixed, fits_allocation (by omega), by omega⟩, fits_allocation (by omega), ?_⟩
      simp only [exact]
      omega
  | ash =>
    rw [formula]
    split
    · next hshift =>
      obtain ⟨hwidth, hvalue, _⟩ := h.shift_le hshift
      exact fits_shifted hwidth hvalue (by decide)
    · exact fits_zero
  | lsh =>
    rw [formula]
    split
    · next hshift =>
      obtain ⟨hwidth, _, hvalue⟩ := h.shift_le hshift
      exact fits_shifted hwidth hvalue (by decide)
    · exact fits_zero
  | softfork =>
    rw [formula]
    split
    · next bytes _ _ =>
      change min (Integer.ofBytes bytes).toNat 0xffffffffffffffff < 0x10000000000000000
      omega
    · exact fits_zero

/-- What a primitive gives has lengths that fit into its formula. -/
theorem Gives.sized {group : Option PointGroup} {p : Primitive} {r : Reduction}
    (h : Gives group args p r) (hargs : args.Affordable) (hgroup : PointGroup.Compact group) :
    r.value.Sized := by
  cases hp : p.allocates with
  | false =>
    have hle := h.longest_le_of_free hp hargs.longest_le (by decide)
    exact Node.sized_of_longest_le hle
  | true =>
    cases h with
    | @strlen a h =>
      have ha : a.length ≤ 1100000000 := hargs.atom_le (by simp [h])
      have hcap := Bytes.succ_le_capacity a.length
      exact Node.sized_toBytes (n := a.length) (by omega) (by omega)
    | @concat xs h =>
      have htotal := hargs.total_lt
      rw [Node.widths_of_atoms h, ← length_flatten_eq] at htotal
      exact htotal
    | add h => exact hargs.sized_foldl h Int.natAbs_add_le (by decide)
    | logand h => exact hargs.sized_foldl h Integer.natAbs_and_le (by decide)
    | logior h => exact hargs.sized_foldl h Integer.natAbs_or_le (by decide)
    | logxor h => exact hargs.sized_foldl h Integer.natAbs_xor_le (by decide)
    | subtract h =>
      have hlen := hargs.length_operands_le h
      exact Node.sized_toBytes (Operator.natAbs_difference_le (hargs.short_operands h)) (by omega)
    | multiply h =>
      have hlen := hargs.length_operands_le h
      have hmul := Nat.mul_le_mul_right 1100000000 hlen
      exact Node.sized_toBytes (Operator.natAbs_product_le (hargs.short_operands h)) (by omega)
    | @divide a b h hb =>
      have ha : a.length ≤ 1100000000 := hargs.atom_le (by simp [h])
      have hvalue := (Operand.short_ofBytes ha).natAbs_le
      have hle := Int.natAbs_fdiv_le_natAbs (Integer.ofBytes a) (Integer.ofBytes b)
      exact Node.sized_toBytes (Nat.le_trans hle hvalue) (by decide)
    | @divmod a b q r h hb hq hr =>
      have ha : a.length ≤ 1100000000 := hargs.atom_le (by simp [h])
      have hb' : b.length ≤ 1100000000 := hargs.atom_le (by simp [h])
      have hquotient := Int.natAbs_fdiv_le_natAbs (Integer.ofBytes a) (Integer.ofBytes b)
      have hremainder := Integer.natAbs_fmod_le (Integer.ofBytes a) hb
      have hqlen := Integer.length_toBytes_le
        (Nat.le_trans hquotient (Operand.short_ofBytes ha).natAbs_le)
      have hrlen := Integer.length_toBytes_le
        (Nat.le_trans hremainder (Operand.short_ofBytes hb').natAbs_le)
      rw [← hq] at hqlen
      rw [← hr] at hrlen
      change q.length + r.length ≤ 3000000000
      omega
    | ash h =>
      obtain ⟨_, hvalue, _⟩ := hargs.shift_le h
      exact Node.sized_toBytes hvalue (by decide)
    | lsh h =>
      obtain ⟨_, _, hvalue⟩ := hargs.shift_le h
      exact Node.sized_toBytes hvalue (by decide)
    | @lognot a h =>
      have ha : a.length ≤ 1100000000 := hargs.atom_le (by simp [h])
      exact Node.sized_toBytes (Integer.natAbs_not_le (Operand.short_ofBytes ha).natAbs_le)
        (by decide)
    | pointAdd hg | publicKey hg =>
      change List.length _ < _
      rw [hgroup _ hg]
      decide
    | _ => cases hp

end Primitive

namespace Operator

variable {args : Node}

theorem Shape.fits_formula (shape : Shape) (h : args.Affordable) : (shape.formula args).Fits := by
  cases shape with
  | constant => exact fits_price _
  | sum | concat => exact fits_variadic h _
  | product =>
    have hwidths : ∀ n ∈ args.widths, n < 0x10000000000000000 := by
      intro n hn
      have hle := h.widths_le n hn
      omega
    rw [formula]
    cases hns : args.widths with
    | nil => exact fits_price _
    | cons n ns =>
      rw [hns] at hwidths
      have hn : (given n).Fits := hwidths n List.mem_cons_self
      exact fits_estimate hn (fits_price _) fun m hm => hwidths m (List.mem_cons_of_mem n hm)

theorem fits_unknownFormula (op : Bytes) (h : args.Affordable) :
    (unknownFormula op args).Fits := by
  cases op with
  | nil => exact fits_zero
  | cons b bytes =>
    rw [unknownFormula]
    split
    · exact fits_zero
    · next hlen =>
      have hlt := Bytes.toNat_lt (b :: bytes).dropLast
      have hlen' : (b :: bytes).dropLast.length ≤ 4 := by
        rw [List.length_dropLast, List.length_cons]
        simp only [maxOperatorLength] at hlen
        omega
      have hcap := Bytes.capacity_mono hlen'
      have hword : Bytes.capacity 4 = 4294967296 := rfl
      refine ⟨Shape.fits_formula _ h, ?_, by decide, ?_⟩
      · change Bytes.toNat _ < _
        omega
      · change Bytes.toNat _ + 1 < _
        omega

end Operator

theorem Path.fits_formula {path : Bytes} (h : path.length ≤ 1100000000) : (formula path).Fits := by
  have hle := leadingZeros_add_legs_le path
  have hleg : Price.pathLeg.toNat = 4 := rfl
  have hzero : Price.pathZeroByte.toNat = 4 := rfl
  have hbase : (price Price.path).exact + (price Price.pathLeg).exact = 44 := rfl
  have hgiven : (given (leadingZeros path)).Fits := by
    change leadingZeros path < _
    omega
  have hmul : leadingZeros path * Price.pathZeroByte.toNat < 0x10000000000000000 := by
    rw [hzero]
    omega
  apply fits_running
  · refine ⟨⟨fits_price _, fits_price _, ?_⟩, ⟨hgiven, fits_price _, hmul⟩, ?_⟩
    · rw [hbase]
      decide
    · change (price Price.path).exact + (price Price.pathLeg).exact +
        leadingZeros path * Price.pathZeroByte.toNat < _
      rw [hbase, hzero]
      omega
  · rw [foldl_add_const, hleg]
    change (price Price.path).exact + (price Price.pathLeg).exact +
      leadingZeros path * Price.pathZeroByte.toNat + _ < _
    rw [hbase, hzero]
    omega

theorem Dialect.fits_formula (d : Dialect) {group : Option PointGroup} {args : Node}
    (hgroup : PointGroup.Compact group)
    (op : Bytes) (h : args.Affordable) : (d.formula group op args).Fits := by
  rw [formula]
  cases d.get? op with
  | some p =>
    dsimp only
    cases hr : p.eval group args with
    | ok r => exact p.fits_formula h ((Primitive.gives_of_eval hr).sized h hgroup)
    | error e => exact p.fits_formula h (by decide : 0 < 0x10000000000000000)
  | none =>
    dsimp only
    split
    · exact fits_zero
    · exact Operator.fits_unknownFormula op h

/-- No formula overflows on short atoms if the arguments of an operator are
few enough. -/
theorem Operation.fits_formula (d : Dialect) {group : Option PointGroup} {op : Operation}
    {values : List Node}
    (hgroup : PointGroup.Compact group)
    (hvalues : ∀ v ∈ values, v.longest ≤ 1100000000)
    (hcount : op = .apply → ∀ args ∈ values.head?, args.items.length ≤ 11000000000) :
    (op.formula d group values).Fits := by
  rw [formula.eq_def]
  split
  · next path env below =>
    have hpair := hvalues _ List.mem_cons_self
    exact Path.fits_formula (Node.longest_pair_le.mp hpair).1
  · exact fits_price _
  · split
    · exact fits_price _
    · exact fits_price _
  · next args op below =>
    split
    · exact fits_price _
    · exact d.fits_formula hgroup op ⟨hvalues _ List.mem_cons_self, hcount rfl args rfl⟩
  · exact fits_zero

end MeteredTree

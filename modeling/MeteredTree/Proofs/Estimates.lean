import MeteredTree.Proofs.Acceptance
import MeteredTree.Proofs.Affordable
import MeteredTree.Proofs.TwosComplement

/-! Estimated costs against measured ones. An unknown operator is priced like a
sum, a product or a concatenation that is never computed. Only the product needs
an estimate: the bytes of a factor so far are taken to be all the bytes that
went into it, and a step of a product costs no less for more bytes. -/

namespace MeteredTree

open Bytes

namespace Cost

variable {a b c d : Cost}

theorem satAdd_mono (hac : a ≤ c) (hbd : b ≤ d) : satAdd a b ≤ satAdd c d :=
  clamp_mono (Nat.add_le_add hac hbd)

theorem satMul_mono (hac : a ≤ c) (hbd : b ≤ d) : satMul a b ≤ satMul c d :=
  clamp_mono (Nat.mul_le_mul hac hbd)

theorem le_satAdd_right (a b : Cost) : b ≤ satAdd a b := by
  have h := clamp_mono (Nat.le_add_left b.toNat a.toNat)
  simpa only [clamp_toNat, satAdd] using h

theorem ofNat_le_clamp {k n : Nat} (h : k ≤ n) : UInt64.ofNat k ≤ clamp n := by
  have hmod := Nat.mod_le k 0x10000000000000000
  rw [UInt64.le_iff_toNat_le, UInt64.toNat_ofNat', toNat_clamp]
  omega

theorem clamp_of_lt {n : Nat} (h : n < 0x10000000000000000) : clamp n = UInt64.ofNat n :=
  if_pos h

end Cost

theorem Price.multiplication_mono {vs ws : Cost} (h : vs ≤ ws) (rs : Cost) :
    Price.multiplication vs rs ≤ Price.multiplication ws rs := by
  have hrs : rs ≤ rs := UInt64.le_refl rs
  have hsum := Cost.satMul_mono (Cost.satAdd_mono hrs h) (UInt64.le_refl Price.multiplyByte)
  have hsquare : Cost.satMul rs vs / Price.multiplySquare ≤
      Cost.satMul rs ws / Price.multiplySquare := by
    rw [UInt64.le_iff_toNat_le, UInt64.toNat_div, UInt64.toNat_div]
    exact Nat.div_le_div_right (Cost.satMul_mono hrs h)
  exact Cost.satAdd_mono (Cost.satAdd_mono (UInt64.le_refl _) hsum) hsquare

namespace Integer

variable {v w : Int} {m n : Nat}

theorem eq_zero_of_two_natAbs_le (h : 2 * v.natAbs ≤ capacity 0) : v = 0 := by
  have hcap : capacity 0 = 1 := rfl
  omega

theorem two_natAbs_mul_le (hv : 2 * v.natAbs ≤ capacity m) (hw : 2 * w.natAbs ≤ capacity n) :
    2 * (v * w).natAbs ≤ capacity (m + n) := by
  have hmul := Nat.mul_le_mul hv hw
  have hfour : 2 * v.natAbs * (2 * w.natAbs) = 4 * (v * w).natAbs := by
    rw [Int.natAbs_mul, Nat.mul_assoc, Nat.mul_left_comm v.natAbs, ← Nat.mul_assoc]
  rw [capacity_add]
  omega

/-- No carry goes past the bytes of two numbers that have any. -/
theorem two_natAbs_add_le (hv : 2 * v.natAbs ≤ capacity m) (hw : 2 * w.natAbs ≤ capacity n) :
    2 * (v + w).natAbs ≤ capacity (m + n) := by
  match m, n with
  | 0, n =>
    rw [eq_zero_of_two_natAbs_le hv, Int.zero_add, Nat.zero_add]
    exact hw
  | m, 0 =>
    rw [eq_zero_of_two_natAbs_le hw, Int.add_zero]
    exact hv
  | m + 1, n + 1 =>
    have htwo (k : Nat) : 2 ≤ capacity (k + 1) :=
      Nat.le_trans (by decide) (capacity_mono (Nat.le_add_left 1 k))
    have hmul := Nat.add_le_mul (htwo m) (htwo n)
    rw [capacity_add]
    omega

end Integer

namespace Operator

/-- A measured product costs no more than the estimate, step by step: the
estimated bytes leave room for the product so far. -/
theorem productFrom_cost_le {v : Int} {width n : Nat} {cost bound : Cost} {xs : List Bytes}
    (hv : 2 * v.natAbs ≤ capacity n) (hwidth : width ≤ n) (hcost : cost ≤ bound)
    (hxs : ∀ x ∈ xs, x.length < 0x10000000000000000) :
    (productFrom v width cost (xs.map .ofBytes)).2 ≤
      productCost (Cost.clamp n) bound (xs.map .ofBytes) := by
  -- the invariant is room for `v` in `n` bytes: the measured width is at most `n`
  -- in the first step by hypothesis, and in the later ones because it is `limbs v`
  induction xs generalizing v width n cost bound with
  | nil => exact hcost
  | cons x xs ih =>
    have hx := (Integer.hasRoom_ofBytes x).two_natAbs_le
    have hnext := Integer.two_natAbs_mul_le hv hx
    have hstep := Cost.satAdd_mono hcost
      (Price.multiplication_mono (Cost.ofNat_le_clamp hwidth) (UInt64.ofNat x.length))
    have hwide :
        Cost.satAdd (Cost.clamp n) (UInt64.ofNat x.length) = Cost.clamp (n + x.length) := by
      rw [Cost.satAdd_clamp, UInt64.toNat_ofNat_of_lt' (hxs x List.mem_cons_self)]
    have hrest := ih hnext (Integer.limbs_le_of_two_natAbs_le hnext) hstep
      fun y hy => hxs y (List.mem_cons_of_mem x hy)
    simp only [List.map_cons, productFrom, productCost, Operand.ofBytes, hwide]
    exact hrest

theorem product_cost_le {xs : List Bytes} (hxs : ∀ x ∈ xs, x.length < 0x10000000000000000) :
    (product (xs.map .ofBytes)).2 ≤ Shape.product.wordCost xs := by
  cases xs with
  | nil => exact UInt64.le_refl _
  | cons x xs =>
    have hx := (Integer.hasRoom_ofBytes x).two_natAbs_le
    have hle := productFrom_cost_le hx (Nat.le_refl _) (UInt64.le_refl Price.multiply)
      fun y hy => hxs y (List.mem_cons_of_mem x hy)
    rw [Cost.clamp_of_lt (hxs x List.mem_cons_self)] at hle
    exact hle

theorem two_natAbs_foldl_add_le {start : Int} {n : Nat} (xs : List Bytes)
    (hstart : 2 * start.natAbs ≤ capacity n) :
    2 * ((xs.map Operand.ofBytes).foldl (fun total x => total + x.value) start).natAbs ≤
      capacity ((xs.map List.length).foldl (· + ·) n) := by
  induction xs generalizing start n with
  | nil => exact hstart
  | cons x xs ih =>
    have hx := (Integer.hasRoom_ofBytes x).two_natAbs_le
    exact ih (Integer.two_natAbs_add_le hstart hx)

/-- A sum has at most one byte more than all its operands. -/
theorem length_sum_le (xs : List Bytes) :
    (Integer.toBytes (sum (xs.map .ofBytes))).length ≤
      (xs.map List.length).foldl (· + ·) 0 + 1 := by
  have hzero : 2 * (0 : Int).natAbs ≤ capacity 0 := by decide
  have hsum := two_natAbs_foldl_add_le xs hzero
  have hroom : (sum (xs.map .ofBytes)).natAbs ≤
      capacity ((xs.map List.length).foldl (· + ·) 0) := by
    rw [sum]
    omega
  exact Integer.length_toBytes_le hroom

theorem not_isReserved_single (b : UInt8) : ¬ IsReserved [b] := by
  rintro (hnil | hmark | hlong)
  · cases hnil
  · exact absurd hmark.length_le (by simp)
  · exact absurd hlong (by simp)

/-- An operator of one byte multiplies by one. -/
theorem unknown_single_ok {b : UInt8} {args : Node} {xs : List Bytes} {r : Reduction}
    (hargs : args.items = xs.map .atom) (h : unknown (.atom [b]) args = .ok r) :
    r.cost = (Shape.ofTop (b.toNat / 64)).wordCost xs ∧ r.cost < unknownCeiling := by
  have hone (cost : Cost) :
      Cost.satMul cost (UInt64.ofNat (Bytes.toNat [b].dropLast) + 1) = cost := by
    have hempty : Bytes.toNat [b].dropLast = 0 := toNat_nil
    rw [hempty, Cost.satMul]
    change Cost.clamp (cost.toNat * 1) = cost
    rw [Nat.mul_one, Cost.clamp_toNat]
  rw [unknown_of_not_reserved (not_isReserved_single b), Shape.cost_of_atoms _ hargs] at h
  change settled [b] _ = _ at h
  rw [settled, hone] at h
  split at h
  · next hlt =>
    obtain rfl := Except.ok.inj h
    exact ⟨rfl, hlt⟩
  · cases h

/-- What is charged for bytes is a part of the price. -/
theorem total_lt_of_price_lt {t : Tariff} {xs : List Bytes} (ht : t.perByte = 3)
    (hbytes : (xs.map List.length).foldl (· + ·) 0 < 0x10000000000000000)
    (h : t.ofAtoms xs < unknownCeiling) :
    (xs.map List.length).foldl (· + ·) 0 < 0x100000000 := by
  have hpart : Cost.satMul 3 (UInt64.ofNat ((xs.map List.length).foldl (· + ·) 0)) ≤
      t.ofAtoms xs := by
    rw [← ht, List.foldl_map]
    exact Cost.le_satAdd_right _ _
  have hlt := UInt64.lt_iff_toNat_lt.mp (UInt64.lt_of_le_of_lt hpart h)
  have hthree : (3 : UInt64).toNat = 3 := rfl
  have hceiling : unknownCeiling.toNat = 0x100000000 := rfl
  rw [Cost.satMul, Cost.toNat_clamp, UInt64.toNat_ofNat_of_lt' hbytes, hthree, hceiling] at hlt
  omega

/-- A result of about as many bytes as went in does not saturate the cost. -/
theorem toNat_newAtom_cost {t : Tariff} {xs : List Bytes} {bytes : Bytes} (ht : t.perByte = 3)
    (hbytes : (xs.map List.length).foldl (· + ·) 0 < 0x10000000000000000)
    (hcost : t.ofAtoms xs < unknownCeiling)
    (hlength : bytes.length ≤ (xs.map List.length).foldl (· + ·) 0 + 1) :
    (Reduction.newAtom (t.ofAtoms xs) bytes).cost.toNat =
      (t.ofAtoms xs).toNat + (Price.allocation bytes.length).toNat := by
  have htotal := total_lt_of_price_lt ht hbytes hcost
  have hceiling : unknownCeiling.toNat = 0x100000000 := rfl
  have hbyte : Price.allocatedByte.toNat = 10 := rfl
  have hlt := UInt64.lt_iff_toNat_lt.mp hcost
  have hword : bytes.length < 0x10000000000000000 := by omega
  rw [Reduction.newAtom, Cost.satAdd, Cost.toNat_clamp, Price.allocation, Cost.satMul,
    Cost.toNat_clamp, UInt64.toNat_ofNat_of_lt' hword, hbyte]
  omega

/-- The response costs `c` and the surcharge for its bytes, in exact numbers if
the bytes of the arguments can be counted. -/
def Tracks (xs : List Bytes) (c : Cost) (response : Response) : Prop :=
  ∃ s, response = .ok s ∧ s.cost = Cost.satAdd c (Price.allocation s.value.width) ∧
    ((xs.map List.length).foldl (· + ·) 0 < 0x10000000000000000 →
      s.cost.toNat = c.toNat + (Price.allocation s.value.width).toNat)

theorem tracks_newAtom {t : Tariff} {xs : List Bytes} {bytes : Bytes} {response : Response}
    (ht : t.perByte = 3) (hcost : t.ofAtoms xs < unknownCeiling)
    (hlength : bytes.length ≤ (xs.map List.length).foldl (· + ·) 0 + 1)
    (h : response = .ok (.newAtom (t.ofAtoms xs) bytes)) : Tracks xs (t.ofAtoms xs) response :=
  ⟨_, h, rfl, fun hbytes => toNat_newAtom_cost ht hbytes hcost hlength⟩

theorem toNat_newAtom_cost_le {cost bound : Cost} (h : cost ≤ bound) (bytes : Bytes) :
    (Reduction.newAtom cost bytes).cost.toNat ≤
      bound.toNat + (Price.allocation bytes.length).toNat := by
  have hle := UInt64.le_iff_toNat_le.mp h
  rw [Reduction.newAtom, Cost.satAdd, Cost.toNat_clamp]
  omega

section

variable {args : Node} {xs : List Bytes}

theorem add_of_atoms (h : args.items = xs.map .atom) :
    add args = .ok (.newInteger (Price.arithmetic.ofAtoms xs) (sum (xs.map .ofBytes))) := by
  rw [add, Arguments.operands_of_atoms h, ← Tariff.ofOperands_ofBytes]
  rfl

theorem concat_of_atoms (h : args.items = xs.map .atom) :
    concat args = .ok (.newAtom (Price.concat.ofAtoms xs) xs.flatten) := by
  rw [concat, Arguments.atoms_of_atoms h]
  rfl

theorem multiply_of_atoms (h : args.items = xs.map .atom) :
    multiply args =
      .ok (.newInteger (product (xs.map .ofBytes)).2 (product (xs.map .ofBytes)).1) := by
  rw [multiply, Arguments.operands_of_atoms h]
  rfl

/-- An unknown operator of one byte costs what the operator of its shape costs
without the surcharge for the result, or more if that is a product. -/
theorem unknown_shapes_track_operators {b : UInt8} {r : Reduction}
    (hargs : args.items = xs.map .atom) (h : unknown (.atom [b]) args = .ok r) :
    (b.toNat / 64 = 1 → Tracks xs r.cost (add args)) ∧
    (b.toNat / 64 = 3 → Tracks xs r.cost (concat args)) ∧
    (b.toNat / 64 = 2 → (∀ x ∈ xs, x.length < 0x10000000000000000) →
      ∃ s, multiply args = .ok s ∧
        s.cost.toNat ≤ r.cost.toNat + (Price.allocation s.value.width).toNat) := by
  obtain ⟨hcost, hlt⟩ := unknown_single_ok hargs h
  rw [hcost] at hlt ⊢
  refine ⟨?_, ?_, ?_⟩
  · intro htop
    rw [htop] at hlt ⊢
    exact tracks_newAtom rfl hlt (length_sum_le xs) (add_of_atoms hargs)
  · intro htop
    rw [htop] at hlt ⊢
    exact tracks_newAtom rfl hlt (Nat.le_succ_of_le (Nat.le_of_eq (length_flatten_eq xs)))
      (concat_of_atoms hargs)
  · intro htop hwords
    rw [htop]
    exact ⟨_, multiply_of_atoms hargs, toNat_newAtom_cost_le (product_cost_le hwords) _⟩

end

/-- A product of three, where the estimate goes past the measured bytes. -/
theorem unknown_shapes_track_operators_product :
    let args := Node.ofList [.atom [0x00, 0xff], .atom [0x02], .atom [0x03]]
    unknown (.atom [0x80]) args = .ok ⟨1904, .nil⟩ ∧
    ∃ s, multiply args = .ok s ∧ s.cost.toNat ≤ 1904 + (Price.allocation s.value.width).toNat := by
  intro args
  have hargs : args.items = [[0x00, 0xff], [0x02], [0x03]].map .atom := rfl
  have hunknown : unknown (.atom [0x80]) args = .ok ⟨1904, .nil⟩ := by decide +kernel
  obtain ⟨-, -, hproduct⟩ := unknown_shapes_track_operators hargs hunknown
  exact ⟨hunknown, hproduct rfl (by decide)⟩

end Operator

end MeteredTree

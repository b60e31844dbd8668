import MeteredTree.Curve.Compressed
import MeteredTree.Proofs.Curve.GroupLaw

/-! A point of the subgroup is read back from its compressed form: of the two
roots with its x coordinate the flag tells the one that was written, and neither
is zero, since the order of the subgroup is odd. -/

namespace MeteredTree.Curve

open WeierstrassCurve
open PointGroup (compressedLength)

variable {x y : ZMod modulus}

namespace Field

theorem isLarger_neg (hy : y ≠ 0) : (ofZMod (-y)).isLarger = !(ofZMod y).isLarger := by
  have hpos : y.val ≠ 0 := (ZMod.val_ne_zero y).mpr hy
  have hlt : y.val < modulus := ZMod.val_lt y
  have hodd : modulus % 2 = 1 := by decide +kernel
  have hneg : (-y).val = modulus - y.val := by rw [ZMod.neg_val, if_neg hy]
  have hlarger : modulus - (modulus - y.val) < modulus - y.val ↔ ¬modulus - y.val < y.val := by
    omega
  rw [isLarger, isLarger, ← decide_not, decide_eq_decide]
  simpa only [ofZMod, hneg] using hlarger

theorem sqrt?_square (y : ZMod modulus) :
    ∃ root, (ofZMod (y * y)).sqrt? = some (ofZMod root) ∧ (root = y ∨ root = -y) := by
  have hexponent : 2 * ((modulus + 1) / 4 + (modulus + 1) / 4) = modulus + 1 := by decide +kernel
  have hroot : (y * y) ^ ((modulus + 1) / 4) * (y * y) ^ ((modulus + 1) / 4) = y * y := by
    rw [← pow_add, ← sq, ← pow_mul, hexponent, pow_succ, ZMod.pow_card, sq]
  refine ⟨_, ?_, mul_self_eq_mul_self_iff.mp hroot⟩
  rw [sqrt?, ofZMod_power, if_pos (by rw [ofZMod_mul, hroot])]

end Field

namespace Point

theorem lift?_of (h : curve.Nonsingular x y) (hy : y ≠ 0) :
    lift? (Field.ofZMod y).isLarger (Field.ofZMod x).val =
      some (.affine (.ofZMod x) (.ofZMod y)) := by
  have hequation := equation_iff.mp h.left
  obtain ⟨root, hsqrt, hroot⟩ := Field.sqrt?_square y
  have hcube : Field.ofZMod x * .ofZMod x * .ofZMod x + .ofNat 4 = .ofZMod (y * y) := by
    rw [hequation, Field.ofNat_eq, Field.ofZMod_mul, Field.ofZMod_mul, Field.ofZMod_add,
      Nat.cast_ofNat]
  rw [lift?, dif_pos (Field.ofZMod x).isLt]
  simp only [hcube, hsqrt, Field.ofZMod_neg]
  rcases hroot with rfl | rfl
  · rw [if_pos rfl]
  · rw [Field.isLarger_neg hy, if_neg (Bool.not_ne_self _), neg_neg]

theorem val_lt_flagUnit (x : Field) : x.val < flagUnit := by
  have hunit : modulus < flagUnit := by decide +kernel
  exact x.isLt.trans hunit

theorem capacity_compressed : Bytes.capacity compressedLength = 8 * flagUnit := by decide +kernel

/-- The flags and the coordinate are read back from their digits. -/
theorem toNat_flagged (flags n : Nat) (hflags : flags < 8) (hn : n < flagUnit) :
    Bytes.toNat (.ofNat compressedLength (flags * flagUnit + n)) / flagUnit = flags ∧
      Bytes.toNat (.ofNat compressedLength (flags * flagUnit + n)) % flagUnit = n := by
  have hpos : 0 < flagUnit := Nat.zero_lt_of_lt hn
  have hfits : flags * flagUnit + n < Bytes.capacity compressedLength := by
    have := Nat.mul_le_mul_right flagUnit (Nat.le_of_lt_succ hflags)
    rw [capacity_compressed]
    omega
  rw [Bytes.toNat_ofNat, Nat.mod_eq_of_lt hfits, Nat.add_comm]
  constructor
  · rw [Nat.add_mul_div_right _ _ hpos, Nat.div_eq_of_lt hn, Nat.zero_add]
  · rw [Nat.add_mul_mod_self_right, Nat.mod_eq_of_lt hn]

theorem inSubgroup_of_iff {P : curve.Point} : (of P).inSubgroup ↔ order • P = 0 := by
  rw [inSubgroup, scale_of, decide_eq_true_iff]
  exact of_injective.eq_iff (b := 0)

/-- An element that is its own opposite is not in the subgroup, unless it is
the neutral one. -/
theorem ne_zero_of_order {h : curve.Nonsingular x y}
    (horder : order • Affine.Point.some x y h = 0) : y ≠ 0 := by
  intro hy
  have htwo : 2 • Affine.Point.some x y h = 0 := by
    rw [two_nsmul, Affine.Point.add_of_Y_eq rfl (self_eq_negY_iff.mpr hy)]
  have hodd : order = 2 * (order / 2) + 1 := by decide +kernel
  rw [hodd, succ_nsmul, mul_nsmul, htwo, nsmul_zero, zero_add] at horder
  exact Affine.Point.some_ne_zero h horder

theorem decode?_compress {P : curve.Point} (h : order • P = 0) :
    decode? (compress (of P)) = some (of P) := by
  cases P with
  | zero =>
    obtain ⟨hflags, hzero⟩ := toNat_flagged 6 0 (by decide) (by decide +kernel)
    rw [Nat.add_zero] at hflags hzero
    rw [of, compress, decode?]
    simp only [hflags, hzero, if_pos]
  | some x y hxy =>
    have hx := val_lt_flagUnit (.ofZMod x)
    have hlift := lift?_of hxy (ne_zero_of_order h)
    have hmember : (of (.some x y hxy)).inSubgroup := inSubgroup_of_iff.mpr h
    rw [of] at hmember ⊢
    rw [compress, decode?]
    by_cases hlarger : (Field.ofZMod y).isLarger
    · obtain ⟨hflags, hrest⟩ := toNat_flagged 5 _ (by decide) hx
      rw [hlarger] at hlift
      simp only [if_pos hlarger, hflags, hrest, hlift, Option.filter_some_pos hmember]
    · obtain ⟨hflags, hrest⟩ := toNat_flagged 4 _ (by decide) hx
      rw [Bool.eq_false_iff.mpr hlarger] at hlift
      simp only [if_neg hlarger, hflags, hrest, hlift, Option.filter_some_pos hmember]

end Point

end MeteredTree.Curve

import Mathlib.AlgebraicGeometry.EllipticCurve.Affine.Point
import MeteredTree.Curve.Jacobian
import MeteredTree.Proofs.Curve.Primes

/-! The group law of the curve. Addition by chords and tangents is that of the
elliptic curve y² = x³ + 4 over the prime field, and the multiple of a point that
is found by doubling and adding fractions is the repeated sum. -/

namespace MeteredTree.Curve

instance : Fact modulus.Prime := ⟨prime_modulus⟩

instance : NeZero modulus := ⟨prime_modulus.ne_zero⟩

namespace Field

/-- The element with the least nonnegative remainder of `a`. -/
def ofZMod (a : ZMod modulus) : Field := ⟨a.val, ZMod.val_lt a⟩

variable (a b : ZMod modulus)

@[simp] theorem ofZMod_inj {a b : ZMod modulus} : ofZMod a = ofZMod b ↔ a = b := by
  constructor
  · intro h
    exact ZMod.val_injective modulus (congrArg Fin.val h)
  · rintro rfl
    rfl

theorem ofNat_eq (n : Nat) : ofNat n = ofZMod n := by
  apply Fin.ext
  exact (ZMod.val_natCast modulus n).symm

@[simp] theorem ofZMod_mul : ofZMod a * ofZMod b = ofZMod (a * b) := by
  apply Fin.ext
  exact (ZMod.val_mul a b).symm

@[simp] theorem ofZMod_add : ofZMod a + ofZMod b = ofZMod (a + b) := by
  apply Fin.ext
  exact (ZMod.val_add a b).symm

@[simp] theorem ofZMod_sub : ofZMod a - ofZMod b = ofZMod (a - b) := by
  have hle : b.val ≤ modulus := (ZMod.val_lt b).le
  have hcast : ((modulus - b.val + a.val : Nat) : ZMod modulus) = a - b := by
    rw [Nat.cast_add, Nat.cast_sub hle, ZMod.natCast_self, ZMod.natCast_zmod_val,
      ZMod.natCast_zmod_val]
    ring
  apply Fin.ext
  change (modulus - b.val + a.val) % modulus = (a - b).val
  rw [← hcast, ZMod.val_natCast]

@[simp] theorem ofZMod_neg : -ofZMod a = ofZMod (-a) := by
  have hle : a.val ≤ modulus := (ZMod.val_lt a).le
  have hcast : ((modulus - a.val : Nat) : ZMod modulus) = -a := by
    rw [Nat.cast_sub hle, ZMod.natCast_self, ZMod.natCast_zmod_val, zero_sub]
  apply Fin.ext
  change (modulus - a.val) % modulus = (-a).val
  rw [← hcast, ZMod.val_natCast]

theorem ofZMod_val (a : Field) : ofZMod (a.val : ZMod modulus) = a := by
  apply Fin.ext
  exact ZMod.val_cast_of_lt a.isLt

theorem two_ne_zero : (2 : ZMod modulus) ≠ 0 := by
  have hdvd : ¬modulus ∣ 2 := by decide +kernel
  rwa [← ZMod.natCast_eq_zero_iff] at hdvd

theorem zero_eq : zero = ofZMod 0 := by
  rw [zero, ofNat_eq, Nat.cast_zero]

theorem one_eq : one = ofZMod 1 := by
  rw [one, ofNat_eq, Nat.cast_one]

@[simp] theorem ofZMod_power (e : Nat) : (ofZMod a).power e = ofZMod (a ^ e) := by
  induction e using Nat.strongRecOn generalizing a with
  | ind e ih =>
    rw [power]
    by_cases hzero : e = 0
    · rw [if_pos hzero, hzero, pow_zero, one_eq]
    · have hhalf := ih (e / 2) (by omega) (a * a)
      rw [if_neg hzero, ofZMod_mul, hhalf, ← sq, ← pow_mul]
      by_cases hodd : e % 2 = 1
      · rw [if_pos hodd, ofZMod_mul, ← pow_succ']
        congr 2
        omega
      · rw [if_neg hodd]
        congr 2
        omega

@[simp] theorem ofZMod_inverse : (ofZMod a).inverse = ofZMod a⁻¹ := by
  have hcard : modulus - 2 + 1 = modulus - 1 := by decide +kernel
  rw [inverse, ofZMod_power, ofZMod_inj]
  by_cases hzero : a = 0
  · have hne : modulus - 2 ≠ 0 := by decide +kernel
    rw [hzero, zero_pow hne, inv_zero]
  · apply eq_inv_of_mul_eq_one_left
    rw [← pow_succ, hcard, ZMod.pow_card_sub_one_eq_one hzero]

end Field

open WeierstrassCurve

/-- The curve y² = x³ + 4. -/
def curve : Affine (ZMod modulus) := ⟨0, 0, 0, 0, 4⟩

variable {x y x₁ y₁ x₂ y₂ : ZMod modulus}

theorem equation_iff : curve.Equation x y ↔ y * y = x * x * x + 4 := by
  simp only [Affine.equation_iff, curve, zero_mul, add_zero, pow_succ, pow_zero, one_mul]

theorem negY_eq : curve.negY x y = -y := by
  simp only [Affine.negY, curve, zero_mul, sub_zero]

theorem eq_negY_iff : y₁ = curve.negY x y₂ ↔ y₁ + y₂ = 0 := by
  rw [negY_eq, eq_neg_iff_add_eq_zero]

theorem self_eq_negY_iff : y = curve.negY x y ↔ y = 0 := by
  rw [eq_negY_iff, ← two_mul, mul_eq_zero, or_iff_right Field.two_ne_zero]

theorem tangent_mul (hy : y ≠ 0) : curve.slope x x y y * (2 * y) = 3 * (x * x) := by
  have htwo : 2 * y ≠ 0 := mul_ne_zero Field.two_ne_zero hy
  rw [Affine.slope_of_Y_ne rfl (mt self_eq_negY_iff.mp hy), negY_eq, sub_neg_eq_add, ← two_mul,
    div_mul_cancel₀ _ htwo]
  simp only [curve]
  ring

theorem chord_mul (hx : x₁ ≠ x₂) : curve.slope x₁ x₂ y₁ y₂ * (x₂ - x₁) = y₂ - y₁ := by
  rw [Affine.slope_of_X_ne hx, ← neg_div_neg_eq, neg_sub, neg_sub,
    div_mul_cancel₀ _ (sub_ne_zero.mpr hx.symm)]

/-- A line through two points meets the curve in a third one, whose reflection
is their sum. -/
theorem reflected_eq (slope : ZMod modulus) :
    Point.reflected (.ofZMod slope) (.ofZMod x₁) (.ofZMod y₁) (.ofZMod x₂) =
      .affine (.ofZMod (curve.addX x₁ x₂ slope)) (.ofZMod (curve.addY x₁ x₂ y₁ slope)) := by
  simp only [Point.reflected, Field.ofZMod_mul, Field.ofZMod_sub, Affine.addY, Affine.negY,
    Affine.negAddY, Affine.addX, curve]
  congr 2 <;> ring

/-- The point that stands for an element of the group. -/
def Point.of : curve.Point → Point
  | .zero => .infinity
  | .some x y _ => .affine (.ofZMod x) (.ofZMod y)

namespace Point

theorem of_injective : Function.Injective of := by
  rintro (_ | ⟨x₁, y₁, h₁⟩) (_ | ⟨x₂, y₂, h₂⟩) h <;> simp_all [of]

theorem tangent_eq (hx : x₁ = x₂) (hy : y₁ ≠ curve.negY x₂ y₂) :
    .ofNat 3 * (.ofZMod x₁ * .ofZMod x₁) * (.ofNat 2 * .ofZMod y₁ : Field).inverse =
      Field.ofZMod (curve.slope x₁ x₂ y₁ y₂) := by
  rw [Affine.slope_of_Y_ne hx hy, negY_eq]
  simp only [Field.ofNat_eq, Field.ofZMod_mul, Field.ofZMod_inverse, curve]
  congr 1
  ring

theorem chord_eq (hx : x₁ ≠ x₂) :
    (.ofZMod y₂ - .ofZMod y₁) * (.ofZMod x₂ - .ofZMod x₁ : Field).inverse =
      Field.ofZMod (curve.slope x₁ x₂ y₁ y₂) := by
  rw [Affine.slope_of_X_ne hx, ← neg_div_neg_eq, neg_sub, neg_sub, div_eq_mul_inv]
  simp only [Field.ofZMod_mul, Field.ofZMod_sub, Field.ofZMod_inverse]

theorem add_of (P Q : curve.Point) : add (of P) (of Q) = of (P + Q) := by
  rcases P with _ | ⟨x₁, y₁, h₁⟩
  · rw [← Affine.Point.zero_def, zero_add]
    rfl
  rcases Q with _ | ⟨x₂, y₂, h₂⟩
  · rw [← Affine.Point.zero_def, add_zero]
    rfl
  simp only [of, add, Field.ofZMod_add, Field.zero_eq, Field.ofZMod_inj]
  by_cases hx : x₁ = x₂
  · by_cases hy : y₁ + y₂ = 0
    · have hneg : y₁ = curve.negY x₂ y₂ := eq_negY_iff.mpr hy
      rw [if_pos hx, if_pos hy, Affine.Point.add_of_Y_eq hx hneg, Affine.Point.zero_def]
    · have hneg : y₁ ≠ curve.negY x₂ y₂ := mt eq_negY_iff.mp hy
      rw [if_pos hx, if_neg hy, Affine.Point.add_of_Y_ne hneg, tangent_eq hx hneg, reflected_eq]
  · rw [if_neg hx, Affine.Point.add_of_X_ne hx, chord_eq hx, reflected_eq]

end Point

namespace Jacobian

/-- The coordinates are fractions of those of the element; at infinity the
denominator is zero. -/
inductive Denotes : Jacobian → curve.Point → Prop
  | zero (X Y : ZMod modulus) : Denotes ⟨.ofZMod X, .ofZMod Y, .ofZMod 0⟩ 0
  | some {x y X Y Z : ZMod modulus} (h : curve.Nonsingular x y) (hZ : Z ≠ 0)
    (hX : X = x * Z ^ 2) (hY : Y = y * Z ^ 3) :
    Denotes ⟨.ofZMod X, .ofZMod Y, .ofZMod Z⟩ (.some x y h)

theorem Denotes.toPoint_eq {p : Jacobian} {P : curve.Point} (h : p.Denotes P) :
    p.toPoint = Point.of P := by
  cases h with
  | zero X Y => rw [toPoint, Field.zero_eq, if_pos rfl, Affine.Point.zero_def, Point.of]
  | @some x y X Y Z h hZ hX hY =>
    have hne : Field.ofZMod Z ≠ Field.zero := by rwa [Field.zero_eq, Ne, Field.ofZMod_inj]
    simp only [toPoint, if_neg hne, Field.ofZMod_inverse, Field.ofZMod_mul, Point.of, hX, hY]
    congr 2 <;> field_simp

theorem denotes_infinity : infinity.Denotes 0 := by
  rw [infinity, Field.one_eq, Field.zero_eq]
  exact .zero 1 1

theorem denotes_ofAffine (h : curve.Nonsingular x y) :
    (ofAffine (.ofZMod x) (.ofZMod y)).Denotes (.some x y h) := by
  rw [ofAffine, Field.one_eq]
  exact .some h one_ne_zero (by ring) (by ring)

theorem Denotes.double {p : Jacobian} {P : curve.Point} (h : p.Denotes P) :
    p.double.Denotes (P + P) := by
  cases h with
  | zero X Y =>
    simp only [Jacobian.double, Field.ofNat_eq, Field.ofZMod_mul, Field.ofZMod_sub,
      Field.ofZMod_add, mul_zero, add_zero]
    exact .zero _ _
  | @some x y X Y Z h hZ hX hY =>
    simp only [Jacobian.double, Field.ofNat_eq, Field.ofZMod_mul, Field.ofZMod_sub,
      Field.ofZMod_add, Nat.cast_ofNat]
    by_cases hy : y = 0
    · have hzero : 2 * (Y * Z) = 0 := by rw [hY, hy]; ring
      rw [Affine.Point.add_of_Y_eq rfl (self_eq_negY_iff.mpr hy), hzero]
      exact .zero _ _
    · have hrise : 3 * (X * X) = curve.slope x x y y * (2 * y) * Z ^ 4 := by
        rw [tangent_mul hy, hX]
        ring
      have hZ' : 2 * (Y * Z) ≠ 0 := by
        rw [hY]
        exact mul_ne_zero Field.two_ne_zero (mul_ne_zero (mul_ne_zero hy (pow_ne_zero 3 hZ)) hZ)
      -- with the slope in place of the tangent's rise, no division is left
      rw [Affine.Point.add_of_Y_ne (mt self_eq_negY_iff.mp hy), hrise]
      refine .some _ hZ' ?_ ?_
      · simp only [Affine.addX, curve, hX, hY]
        ring
      · simp only [Affine.addY, Affine.negY, Affine.negAddY, Affine.addX, curve, hX, hY]
        ring

theorem Denotes.addAffine {p : Jacobian} {P : curve.Point} (hp : p.Denotes P)
    (h : curve.Nonsingular x y) :
    (p.addAffine (.ofZMod x) (.ofZMod y)).Denotes (P + .some x y h) := by
  rw [Jacobian.addAffine, Field.zero_eq]
  cases hp with
  | zero X Y =>
    rw [if_pos rfl, zero_add]
    exact denotes_ofAffine h
  | @some x₁ y₁ X Y Z h₁ hZ hX hY =>
    have hdouble := (Denotes.some h₁ hZ hX hY).double
    have hrun : x * (Z * Z) - X = (x - x₁) * Z ^ 2 := by rw [hX]; ring
    have hrise : y * (Z * (Z * Z)) - Y = (y - y₁) * Z ^ 3 := by rw [hY]; ring
    have hrun_iff : (x - x₁) * Z ^ 2 = 0 ↔ x = x₁ := by
      rw [mul_eq_zero, or_iff_left (pow_ne_zero 2 hZ), sub_eq_zero]
    have hrise_iff : (y - y₁) * Z ^ 3 = 0 ↔ y = y₁ := by
      rw [mul_eq_zero, or_iff_left (pow_ne_zero 3 hZ), sub_eq_zero]
    simp only [Field.ofNat_eq, Field.ofZMod_mul, Field.ofZMod_sub, Field.ofZMod_inj, if_neg hZ,
      hrun, hrise, hrun_iff, hrise_iff, Nat.cast_ofNat]
    by_cases hx : x = x₁
    · rw [if_pos hx]
      by_cases hy : y = y₁
      · subst hx hy
        rw [if_pos rfl]
        exact hdouble
      · have hopposite : y₁ = curve.negY x y :=
          (Affine.Y_eq_of_X_eq h₁.left h.left hx.symm).resolve_left (Ne.symm hy)
        rw [if_neg hy, Affine.Point.add_of_Y_eq hx.symm hopposite]
        exact denotes_infinity
    · have hslope : curve.slope x₁ x y₁ y * (x - x₁) = y - y₁ := chord_mul (Ne.symm hx)
      have hZ' : Z * ((x - x₁) * Z ^ 2) ≠ 0 := mul_ne_zero hZ (mt hrun_iff.mp hx)
      rw [if_neg hx, Affine.Point.add_of_X_ne (Ne.symm hx), ← hslope]
      refine .some _ hZ' ?_ ?_
      · simp only [Affine.addX, curve, hX]
        ring
      · simp only [Affine.addY, Affine.negY, Affine.negAddY, Affine.addX, curve, hX, hY]
        ring

theorem denotes_multiple (n : Nat) (h : curve.Nonsingular x y) :
    (multiple n (.ofZMod x) (.ofZMod y)).Denotes (n • .some x y h) := by
  induction n using Nat.strongRecOn with
  | ind n ih =>
    rw [multiple]
    by_cases hzero : n = 0
    · rw [if_pos hzero, hzero, zero_nsmul]
      exact denotes_infinity
    · have htwice := (ih (n / 2) (by omega)).double
      rw [← add_nsmul, ← two_mul] at htwice
      rw [if_neg hzero]
      by_cases hodd : n % 2 = 1
      · have hsum := htwice.addAffine h
        rw [← succ_nsmul, show 2 * (n / 2) + 1 = n by omega] at hsum
        rwa [if_pos hodd]
      · rw [show 2 * (n / 2) = n by omega] at htwice
        rwa [if_neg hodd]

end Jacobian

theorem Point.scale_of (n : Nat) (P : curve.Point) : (Point.of P).scale n = .of (n • P) := by
  cases P with
  | zero => rw [← Affine.Point.zero_def, nsmul_zero, Affine.Point.zero_def, of, scale]
  | some x y h => exact (Jacobian.denotes_multiple n h).toPoint_eq

end MeteredTree.Curve

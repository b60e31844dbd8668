import Mathlib.GroupTheory.OrderOfElement
import MeteredTree.Proofs.Curve.Compression

/-! The subgroup of the generator, whose order is the prime by which exponents
are reduced. -/

namespace MeteredTree

/-- The operations of `g` are those of an abelian group, for whose elements its
points stand. The generator has the order of `g`, multiples are repeated sums,
and in the subgroup of the generator a compressed point is read back. -/
structure PointGroup.Represents (g : PointGroup) {A : Type} [AddCommGroup A]
    (point : A → g.Point) (base : A) : Prop where
  identity_eq : g.identity = point 0
  generator_eq : g.generator = point base
  add_eq : ∀ a b, g.add (point a) (point b) = point (a + b)
  scale_eq : ∀ n a, g.scale n (point a) = point (n • a)
  order_pos : 0 < g.order
  addOrderOf_eq : addOrderOf base = g.order
  decompress_compress : ∀ a ∈ AddSubgroup.zmultiples base,
    g.decompress (g.compress (point a)) = .ok (point a)

namespace Curve

open WeierstrassCurve

instance : Fact Point.order.Prime := ⟨prime_order⟩

theorem Δ_ne_zero : curve.Δ ≠ 0 := by
  have hdvd : ¬modulus ∣ 27 * 16 ^ 2 := by decide +kernel
  have hcast : curve.Δ = -((27 * 16 ^ 2 : Nat) : ZMod modulus) := by
    simp only [WeierstrassCurve.Δ, WeierstrassCurve.b₂, WeierstrassCurve.b₄, WeierstrassCurve.b₆,
      WeierstrassCurve.b₈, curve]
    push_cast
    ring
  rwa [hcast, neg_ne_zero, Ne, ZMod.natCast_eq_zero_iff]

theorem Point.exists_of {x y : Field} (h : y * y = x * x * x + .ofNat 4) :
    ∃ P, of P = .affine x y := by
  have hcast : (y.val : ZMod modulus) * y.val = (x.val : ZMod modulus) * x.val * x.val + 4 := by
    rw [← Field.ofZMod_inj]
    rw [← Field.ofZMod_mul, ← Field.ofZMod_add, ← Field.ofZMod_mul, ← Field.ofZMod_mul,
      Field.ofZMod_val, Field.ofZMod_val, h, Field.ofNat_eq, Nat.cast_ofNat]
  have hpoint : curve.Nonsingular (x.val : ZMod modulus) y.val :=
    (curve.equation_iff_nonsingular_of_Δ_ne_zero Δ_ne_zero).mp (equation_iff.mpr hcast)
  exact ⟨.some _ _ hpoint, by rw [of, Field.ofZMod_val, Field.ofZMod_val]⟩

theorem exists_generator : ∃ base, Point.of base = .generator :=
  Point.exists_of (by decide +kernel)

variable {base : curve.Point}

theorem order_nsmul (h : Point.of base = .generator) : Point.order • base = 0 := by
  have hscale : Point.generator.scale Point.order = .infinity := by decide +kernel
  apply Point.of_injective
  rw [← Point.scale_of, h, hscale]
  rfl

theorem addOrderOf_generator (h : Point.of base = .generator) : addOrderOf base = Point.order := by
  apply addOrderOf_eq_prime (order_nsmul h)
  rintro rfl
  cases h

theorem group_represents (h : Point.of base = .generator) : group.Represents Point.of base where
  identity_eq := rfl
  generator_eq := h.symm
  add_eq := Point.add_of
  scale_eq := Point.scale_of
  order_pos := prime_order.pos
  addOrderOf_eq := addOrderOf_generator h
  decompress_compress := by
    rintro _ ⟨k, rfl⟩
    apply PointGroup.decompress_eq_ok_iff.mpr
    refine ⟨Point.length_compress _, Point.decode?_compress ?_⟩
    rw [smul_comm, order_nsmul h, zsmul_zero]

end Curve

end MeteredTree

import MeteredTree.Proofs.Curve.Subgroup
import MeteredTree.Proofs.ValueOnly

/-! Exponents and points. Where points stand for elements of an abelian group,
in which the generator has the order by which exponents are reduced, an exponent
of any size and sign gives the multiple of the generator by it, and the sum of
such points is the point of the sum. -/

namespace MeteredTree

open Integer

namespace Operator

variable {g : PointGroup} {A : Type} [AddCommGroup A] {point : A → g.Point} {base : A}

theorem publicKey_of_atom (g : PointGroup) {args : Node} {x : Bytes}
    (h : args.items = [.atom x]) :
    publicKey (some g) args = .ok (.newAtom (Price.publicKey.plain 0 x.length)
      (g.compress (g.ofScalar (magnitude ((ofBytes x).emod g.order))))) := by
  rw [publicKey, Arguments.oneOperand_of_atom h]
  rfl

/-- Reducing an exponent twice, once with its sign and once as bytes without it,
leaves the multiple of the generator by it. -/
theorem ofScalar_magnitude (hg : g.Represents point base) (v : Int) :
    g.ofScalar (magnitude (v.emod g.order)) = point (v • base) := by
  have hpos : (0 : Int) < g.order := Int.natCast_pos.mpr hg.order_pos
  have hnonneg : 0 ≤ v.emod g.order := Int.emod_nonneg v hpos.ne'
  have hlt : v.emod g.order < g.order := Int.emod_lt_of_pos v hpos
  have hreduced : (v.emod g.order).natAbs % g.order = (v.emod g.order).natAbs :=
    Nat.mod_eq_of_lt (by omega)
  rw [PointGroup.ofScalar, toNat_magnitude, PointGroup.ofExponent, hreduced, hg.generator_eq,
    hg.scale_eq, ← natCast_zsmul, Int.natAbs_of_nonneg hnonneg, ← hg.addOrderOf_eq]
  exact congrArg point (mod_addOrderOf_zsmul base v)

theorem sumPoints_multiples (hg : g.Represents point base) (args : Node) (vs : List Int)
    (total : A) :
    sumPoints g args (point total) (vs.map fun v => .atom (g.compress (point (v • base)))) =
      .ok (point (total + vs.sum • base)) := by
  induction vs generalizing total with
  | nil => simp [sumPoints]
  | cons v vs ih =>
    have hread := hg.decompress_compress _ (AddSubgroup.zsmul_mem_zmultiples base v)
    have hrest := ih (total + v • base)
    rw [add_assoc, ← add_zsmul, ← hg.add_eq] at hrest
    have hatom : Arguments.atom (.primitive .pointAdd) (.atom (g.compress (point (v • base)))) =
        .ok (g.compress (point (v • base))) := rfl
    rw [List.map_cons, sumPoints, List.sum_cons, hatom]
    simp only [bind, Except.bind, hread, hrest]

theorem seen_publicKey (hg : g.Represents point base) {args : Node} {x : Bytes}
    (h : args.items = [.atom x]) :
    seen (publicKey (some g) args) = .ok (.atom (g.compress (point (ofBytes x • base)))) := by
  rw [publicKey_of_atom g h, ofScalar_magnitude hg]
  rfl

theorem seen_pointAdd_multiples (hg : g.Represents point base) {args : Node} {vs : List Int}
    (h : args.items = vs.map fun v => .atom (g.compress (point (v • base)))) :
    seen (pointAdd (some g) args) = .ok (.atom (g.compress (point (vs.sum • base)))) := by
  have hsum := sumPoints_multiples hg args vs 0
  rw [zero_add, ← h, ← hg.identity_eq] at hsum
  rw [pointAdd, hsum]
  rfl

theorem seen_add_of_atoms {args : Node} {xs : List Bytes} (h : args.items = xs.map .atom) :
    seen (add args) = .ok (.atom (toBytes (xs.map ofBytes).sum)) := by
  rw [add_of_atoms h, sum, foldl_operands (· + ·), ← List.sum_eq_foldl]
  rfl

/-- The points of exponents add up to the point of the sum of the exponents. That
of an exponent is the multiple of the generator by it, which depends on its
remainder by the order only. -/
theorem exponents_add_up_to_points (hg : g.Represents point base) :
    (∀ (xs : List Bytes) (args : Node), args.items = xs.map .atom →
      ∃ (keys : List Bytes) (total key : Bytes),
        xs.map (fun x => seen (publicKey (some g) (.ofList [.atom x]))) =
          keys.map (fun key => .ok (.atom key)) ∧
        seen (pointAdd (some g) (.ofList (keys.map .atom))) = .ok (.atom key) ∧
        seen (add args) = .ok (.atom total) ∧
        seen (publicKey (some g) (.ofList [.atom total])) = .ok (.atom key) ∧
        (xs = [] → key = g.compress g.identity)) ∧
    (∀ x : Bytes, seen (publicKey (some g) (.ofList [.atom x])) =
      .ok (.atom (g.compress (point (ofBytes x • base))))) ∧
    ∀ x y : Bytes, ofBytes x % g.order = ofBytes y % g.order →
      seen (publicKey (some g) (.ofList [.atom x])) =
        seen (publicKey (some g) (.ofList [.atom y])) := by
  refine ⟨?_, fun x => seen_publicKey hg (Node.items_ofList _), ?_⟩
  · intro xs args hargs
    have hkeys : xs.map (fun x => seen (publicKey (some g) (.ofList [.atom x]))) =
        (xs.map fun x => g.compress (point (ofBytes x • base))).map
          (fun key => .ok (.atom key)) := by
      rw [List.map_map]
      exact List.map_congr_left fun x _ => seen_publicKey hg (Node.items_ofList _)
    have htotal := seen_publicKey hg
      (Node.items_ofList [.atom (toBytes (xs.map ofBytes).sum)])
    rw [ofBytes_toBytes] at htotal
    refine ⟨_, _, _, hkeys, seen_pointAdd_multiples hg ?_, seen_add_of_atoms hargs, htotal, ?_⟩
    · simp only [Node.items_ofList, List.map_map, Function.comp_def]
    · rintro rfl
      rw [hg.identity_eq, List.map_nil, List.sum_nil, zero_zsmul]
  · intro x y h
    have hemod : (ofBytes x).emod g.order = (ofBytes y).emod g.order := h
    rw [publicKey_of_atom g (Node.items_ofList _), publicKey_of_atom g (Node.items_ofList _),
      hemod]
    rfl

/-- The points of one and minus one, on the curve itself. -/
theorem exponents_add_up_to_points_opposite :
    ∃ p q : Bytes,
      seen (publicKey (some Curve.group) (.ofList [.atom [1]])) = .ok (.atom p) ∧
      seen (publicKey (some Curve.group) (.ofList [.atom [0xff]])) = .ok (.atom q) ∧
      seen (pointAdd (some Curve.group) (.ofList [.atom p, .atom q])) =
        .ok (.atom (Curve.Point.compress .infinity)) := by
  obtain ⟨base, hbase⟩ := Curve.exists_generator
  obtain ⟨keys, total, key, hkeys, hsum, htotal, hkey, -⟩ :=
    (exponents_add_up_to_points (Curve.group_represents hbase)).1 [[1], [0xff]]
      (.ofList [.atom [1], .atom [0xff]]) (Node.items_ofList _)
  have hnone : seen (add (.ofList [.atom [1], .atom [0xff]])) = .ok (.atom []) := by
    decide +kernel
  have hzero : seen (publicKey (some Curve.group) (.ofList [.atom []])) =
      .ok (.atom (Curve.Point.compress .infinity)) := by
    decide +kernel
  obtain rfl : [] = total := by simpa [hnone] using htotal
  obtain rfl : Curve.Point.compress .infinity = key := by simpa [hzero] using hkey
  match keys, hkeys with
  | [p, q], hkeys =>
    simp only [List.map_cons, List.map_nil, List.cons.injEq] at hkeys
    exact ⟨p, q, hkeys.1, hkeys.2.1, hsum⟩

end Operator

end MeteredTree

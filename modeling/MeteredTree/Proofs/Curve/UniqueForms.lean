import MeteredTree.Proofs.Curve.Subgroup

/-! The byte strings that are read as points. The rules of the compressed form
fix every bit for a point of the subgroup; so where reading and writing follow
them, a point is read from one byte string only. -/

namespace MeteredTree

namespace Curve

open PointGroup (compressedLength)

namespace Field

variable {a y : Field} {larger : Bool}

/-- An element is the larger or the smaller one of itself and its negative. Zero
is both. -/
def HasSign (larger : Bool) (y : Field) : Prop :=
  if larger then -y ≤ y else y ≤ -y

theorem val_neg (hy : y ≠ .zero) : (-y).val = modulus - y.val := by
  have hpos : y.val ≠ 0 := fun hval => hy (Fin.ext hval)
  have hlt := y.isLt
  change (modulus - y.val) % modulus = modulus - y.val
  exact Nat.mod_eq_of_lt (by omega)

theorem hasSign_iff (hy : y ≠ .zero) : HasSign larger y ↔ y.isLarger = larger := by
  have hneg := val_neg hy
  have hodd : modulus % 2 = 1 := by decide +kernel
  have hlt := y.isLt
  rw [HasSign, isLarger, Fin.le_def, Fin.le_def, hneg]
  cases larger with
  | false =>
    rw [if_neg Bool.false_ne_true, decide_eq_false_iff_not]
    omega
  | true =>
    rw [if_pos rfl, decide_eq_true_iff]
    omega

theorem hasSign_isLarger (y : Field) : HasSign y.isLarger y := by
  by_cases hy : y = .zero
  · have hneg : -zero = zero := by decide +kernel
    rw [hy, HasSign, hneg]
    split <;> exact le_rfl
  · exact (hasSign_iff hy).mpr rfl

theorem HasSign.neg (h : HasSign (!larger) y) : HasSign larger (-y) := by
  have hdouble : - -y = y := by
    rw [← ofZMod_val y, ofZMod_neg, ofZMod_neg, neg_neg]
  rw [HasSign, hdouble]
  cases larger <;> exact h

theorem sqrt?_sound (h : a.sqrt? = some y) : y * y = a := by
  rw [sqrt?] at h
  split at h
  · next hroot =>
    obtain rfl := Option.some.inj h
    exact hroot
  · cases h

theorem chosen_root (hroot : y * y = a) (larger : Bool) :
    ∃ r, r = (if y.isLarger = larger then y else -y) ∧ r * r = a ∧ HasSign larger r := by
  have hsign := y.hasSign_isLarger
  by_cases hlarger : y.isLarger = larger
  · exact ⟨y, (if_pos hlarger).symm, hroot, hlarger ▸ hsign⟩
  · refine ⟨-y, (if_neg hlarger).symm, ?_, .neg ?_⟩
    · rw [← hroot, ← ofZMod_val y, ofZMod_neg, ofZMod_mul, ofZMod_mul, neg_mul_neg]
    · rwa [← Bool.eq_not.mpr hlarger]

end Field

namespace Point

variable {bytes : Bytes} {p : Point} {x y : Field}

/-- The rules of the compressed form. Of its 384 bits the top one is always set,
and the next one for the point at infinity, of which no other bit is. Else the
third tells which of the two roots y is, and the rest is x, less than the
characteristic. -/
inductive IsCompressed : Bytes → Point → Prop
  | infinity : IsCompressed (0xc0 :: List.replicate 47 0) .infinity
  | affine {bytes : Bytes} {x y : Field} (length : bytes.length = 48)
    (compressed : (Bytes.toNat bytes).testBit 383 = true)
    (finite : (Bytes.toNat bytes).testBit 382 = false)
    (sign : y.HasSign ((Bytes.toNat bytes).testBit 381))
    (coordinate : Bytes.toNat bytes % flagUnit = x.val) :
    IsCompressed bytes (.affine x y)

/-- The points of the curve that lie in the subgroup. -/
def IsMember (p : Point) : Prop :=
  ∃ P, of P = p ∧ order • P = 0

theorem topBits_iff {n unit w : Nat} (hunit : unit = 2 ^ w) (h : n < 8 * unit) (larger : Bool) :
    n / unit = (if larger then 5 else 4) ↔
      n.testBit (w + 2) = true ∧ n.testBit (w + 1) = false ∧ n.testBit w = larger := by
  have hlt : n / unit < 8 := Nat.div_lt_of_lt_mul (by rwa [Nat.mul_comm])
  rw [Nat.testBit_eq_decide_div_mod_eq, Nat.testBit_eq_decide_div_mod_eq,
    Nat.testBit_eq_decide_div_mod_eq, pow_add, pow_add, ← Nat.div_div_eq_div_mul,
    ← Nat.div_div_eq_div_mul, ← hunit]
  generalize n / unit = flags at hlt ⊢
  cases larger with
  | false =>
    simp only [Bool.false_eq_true, if_false, decide_eq_true_eq, decide_eq_false_iff_not]
    omega
  | true =>
    simp only [if_true, decide_eq_true_eq, decide_eq_false_iff_not]
    omega

theorem flags_iff (hlength : bytes.length = compressedLength) (larger : Bool) :
    Bytes.toNat bytes / flagUnit = (if larger then 5 else 4) ↔
      (Bytes.toNat bytes).testBit 383 = true ∧ (Bytes.toNat bytes).testBit 382 = false ∧
        (Bytes.toNat bytes).testBit 381 = larger := by
  have hunit : flagUnit = 2 ^ 381 := by decide +kernel
  have hlt := Bytes.toNat_lt bytes
  rw [hlength, capacity_compressed] at hlt
  exact topBits_iff hunit hlt larger

theorem ofNat_flags (hlength : bytes.length = compressedLength) :
    Bytes.ofNat compressedLength
      (Bytes.toNat bytes / flagUnit * flagUnit + Bytes.toNat bytes % flagUnit) = bytes := by
  rw [Nat.mul_comm, Nat.div_add_mod, ← hlength, Bytes.ofNat_toNat]

theorem compress_infinity : compress .infinity = 0xc0 :: List.replicate 47 0 := by
  decide +kernel

theorem IsMember.y_ne_zero (h : (affine x y).IsMember) : y ≠ .zero := by
  obtain ⟨P, hP, horder⟩ := h
  cases P with
  | zero => cases hP
  | some x' y' h =>
    obtain ⟨-, rfl⟩ := affine.inj hP
    rw [Field.zero_eq, Ne, Field.ofZMod_inj]
    exact ne_zero_of_order horder

theorem IsCompressed.length_eq (h : IsCompressed bytes p) : bytes.length = 48 := by
  cases h with
  | infinity => rfl
  | affine length => exact length

/-- The rules leave no bit open. Both signs are those of zero, but the subgroup
has no such point. -/
theorem IsCompressed.compress_eq (h : IsCompressed bytes p) (hmember : p.IsMember) :
    compress p = bytes := by
  cases h with
  | infinity => exact compress_infinity
  | @affine _ x y length compressed finite sign coordinate =>
    have hlarger := (Field.hasSign_iff hmember.y_ne_zero).mp sign
    have hflags := (flags_iff length y.isLarger).mpr ⟨compressed, finite, hlarger.symm⟩
    rw [compress, ← hflags, ← coordinate]
    exact ofNat_flags length

theorem isCompressed_compress (p : Point) : IsCompressed (compress p) p := by
  cases p with
  | infinity =>
    rw [compress_infinity]
    exact .infinity
  | affine x y =>
    have hlength := length_compress (.affine x y)
    have hsmall : (if y.isLarger then 5 else 4) < 8 := by split <;> decide
    obtain ⟨hflags, hrest⟩ := toNat_flagged _ _ hsmall (val_lt_flagUnit x)
    obtain ⟨htop, hsecond, hthird⟩ := (flags_iff hlength y.isLarger).mp hflags
    exact .affine hlength htop hsecond (hthird ▸ y.hasSign_isLarger) hrest

theorem isMember_of_inSubgroup (hequation : y * y = x * x * x + .ofNat 4)
    (h : (affine x y).inSubgroup) : (affine x y).IsMember := by
  obtain ⟨P, hP⟩ := exists_of hequation
  rw [← hP] at h
  exact ⟨P, hP, inSubgroup_of_iff.mp h⟩

theorem lift?_some {larger : Bool} {n : Nat} (h : lift? larger n = some p) :
    ∃ x y : Field, p = .affine x y ∧ x.val = n ∧ y * y = x * x * x + .ofNat 4 ∧
      y.HasSign larger := by
  rw [lift?] at h
  split at h
  · next hn =>
    dsimp only at h
    split at h
    · cases h
    · next y hy =>
      obtain ⟨r, hr, hequation, hsign⟩ := Field.chosen_root (Field.sqrt?_sound hy) larger
      rw [← hr] at h
      exact ⟨⟨n, hn⟩, r, (Option.some.inj h).symm, rfl, hequation, hsign⟩
  · cases h

theorem isCompressed_of_lift? (larger : Bool) (hlength : bytes.length = compressedLength)
    (hflags : Bytes.toNat bytes / flagUnit = if larger then 5 else 4)
    (h : (lift? larger (Bytes.toNat bytes % flagUnit)).filter inSubgroup = some p) :
    IsCompressed bytes p ∧ p.IsMember := by
  obtain ⟨hlift, hmember⟩ := Option.filter_eq_some_iff.mp h
  obtain ⟨x, y, rfl, hx, hequation, hsign⟩ := lift?_some hlift
  obtain ⟨htop, hsecond, hthird⟩ := (flags_iff hlength larger).mp hflags
  exact ⟨.affine hlength htop hsecond (hthird ▸ hsign) hx.symm,
    isMember_of_inSubgroup hequation hmember⟩

theorem isCompressed_of_decode? (hlength : bytes.length = compressedLength)
    (h : decode? bytes = some p) : IsCompressed bytes p ∧ p.IsMember := by
  rw [decode?] at h
  split at h
  · next hflags => exact isCompressed_of_lift? false hlength hflags h
  · next hflags => exact isCompressed_of_lift? true hlength hflags h
  · next hflags =>
    split at h
    · next hzero =>
      obtain rfl := Option.some.inj h
      have hbytes := ofNat_flags hlength
      rw [hflags, hzero, Nat.add_zero] at hbytes
      rw [← hbytes]
      exact ⟨isCompressed_compress .infinity, 0, rfl, nsmul_zero order⟩
    · cases h
  · cases h

/-- What is read as a point are the forms of members of the subgroup, no more
and no less. -/
theorem decode?_eq_some_iff (hlength : bytes.length = compressedLength) :
    decode? bytes = some p ↔ IsCompressed bytes p ∧ p.IsMember := by
  refine ⟨isCompressed_of_decode? hlength, ?_⟩
  rintro ⟨hform, hmember⟩
  have hbytes := hform.compress_eq hmember
  obtain ⟨P, rfl, horder⟩ := hmember
  rw [← hbytes]
  exact decode?_compress horder

end Point

end Curve

/-- Reading and writing follow the rules of the compressed form, where `coordinates`
are those of a point, and a point that is read lies on the curve and in the
subgroup. -/
structure PointGroup.FollowsFormat (g : PointGroup) (coordinates : g.Point → Curve.Point) :
    Prop where
  compress_form : ∀ p, Curve.Point.IsCompressed (g.compress p) (coordinates p)
  decode_form : ∀ bytes p, bytes.length = compressedLength → g.decode? bytes = some p →
    Curve.Point.IsCompressed bytes (coordinates p)
  decode_member : ∀ bytes p, bytes.length = compressedLength → g.decode? bytes = some p →
    (coordinates p).IsMember

theorem Curve.group_followsFormat : Curve.group.FollowsFormat id where
  compress_form := Curve.Point.isCompressed_compress
  decode_form _ _ hlength h := ((Curve.Point.decode?_eq_some_iff hlength).mp h).1
  decode_member _ _ hlength h := ((Curve.Point.decode?_eq_some_iff hlength).mp h).2

namespace PointGroup

variable {g : PointGroup} {coordinates : g.Point → Curve.Point}

/-- What is read and what is written are both the one form of a member. -/
theorem FollowsFormat.compress_eq (hg : g.FollowsFormat coordinates) {bytes : Bytes} {p : g.Point}
    (h : g.decompress bytes = .ok p) :
    Curve.Point.compress (coordinates p) = bytes ∧ g.compress p = bytes := by
  obtain ⟨hlength, hdecode⟩ := decompress_eq_ok_iff.mp h
  have hmember := hg.decode_member bytes p hlength hdecode
  have hread := (hg.decode_form bytes p hlength hdecode).compress_eq hmember
  have hwritten := (hg.compress_form p).compress_eq hmember
  exact ⟨hread, hwritten.symm.trans hread⟩

/-- A byte string that is read as a point is what is written for that point, so
no other one is read as the same point. Its length is checked before all else. -/
theorem compressed_form_is_unique (hg : g.FollowsFormat coordinates) :
    (∀ (bytes : Bytes) (p : g.Point), g.decompress bytes = .ok p →
      bytes.length = 48 ∧ g.compress p = bytes) ∧
    (∀ (bytes bytes' : Bytes) (p p' : g.Point), g.decompress bytes = .ok p →
      g.decompress bytes' = .ok p' → coordinates p = coordinates p' → bytes = bytes') ∧
    ∀ bytes : Bytes, g.decompress bytes = .error (.invalidLength 48 bytes.length) ↔
      bytes.length ≠ 48 := by
  refine ⟨?_, ?_, fun bytes => decompress_eq_invalidLength_iff⟩
  · intro bytes p h
    exact ⟨(decompress_eq_ok_iff.mp h).1, (hg.compress_eq h).2⟩
  · intro bytes bytes' p p' h h' hsame
    rw [← (hg.compress_eq h).1, hsame, (hg.compress_eq h').1]

theorem compressed_form_is_unique_generator :
    let bytes := Bytes.ofNat 48
      0x97f1d3a73197d7942695638c4fa9ac0fc3688c4f9774b905a14e3a3f171bac586c55e83ff97a1aeffb3af00adb22c6bb
    Curve.group.decompress bytes = .ok Curve.group.generator ∧
      Curve.group.compress Curve.group.generator = bytes ∧
      ∀ bytes', Curve.group.decompress bytes' = .ok Curve.group.generator → bytes' = bytes := by
  intro bytes
  have h : Curve.group.decompress bytes = .ok Curve.group.generator := by
    change Curve.Point.decompress bytes = .ok .generator
    decide +kernel
  obtain ⟨hform, hsame, -⟩ := compressed_form_is_unique Curve.group_followsFormat
  exact ⟨h, (hform bytes _ h).2, fun bytes' h' => hsame bytes' bytes _ _ h' h rfl⟩

end PointGroup

end MeteredTree

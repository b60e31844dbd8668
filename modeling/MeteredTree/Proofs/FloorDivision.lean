import MeteredTree.Proofs.ValueOnly

/-! Division that rounds toward negative infinity. A dividend is a multiple of
the divisor and a remainder in one way only, if the remainder is smaller than
the divisor and has its sign. -/

namespace MeteredTree

namespace Integer

/-- `r` is smaller than `b`, and it is zero or has the sign of `b`. -/
def IsRemainder (r b : Int) : Prop :=
  r.natAbs < b.natAbs ∧ (r = 0 ∨ (r < 0 ↔ b < 0))

theorem isRemainder_fmod (a : Int) {b : Int} (hb : b ≠ 0) : IsRemainder (a.fmod b) b := by
  have hnonneg := Int.emod_nonneg a hb
  have hlt := Int.emod_lt a hb
  -- a negative divisor moves the remainder down, unless it divides and leaves none
  simp only [IsRemainder, Int.fmod_eq_emod, Int.dvd_iff_emod_eq_zero]
  split
  · omega
  · omega

theorem IsRemainder.unique {b q q' r r' : Int} (hr : IsRemainder r b) (hr' : IsRemainder r' b)
    (h : b * q + r = b * q' + r') : q = q' ∧ r = r' := by
  have hb : b ≠ 0 := by
    intro h0
    simp [IsRemainder, h0] at hr
  have hmul : r' - r = b * (q - q') := by
    rw [Int.mul_sub]
    omega
  have hdvd : b ∣ r' - r := ⟨q - q', hmul⟩
  -- remainders of one sign are less than `b` apart
  have hsmall : (r' - r).natAbs < b.natAbs := by
    simp only [IsRemainder] at hr hr'
    omega
  have hsame : r' - r = 0 := Int.eq_zero_of_dvd_of_natAbs_lt_natAbs hdvd hsmall
  have hq : q - q' = 0 := by
    rw [hsame] at hmul
    exact (Int.mul_eq_zero.mp hmul.symm).resolve_left hb
  omega

end Integer

namespace Operator

open Integer

variable {args : Node} {a b : Bytes}

/-- The minimal atoms `q` and `r` hold the quotient and the remainder. -/
structure IsDivision (a b q r : Bytes) : Prop where
  quotient_minimal : IsMinimal q
  remainder_minimal : IsMinimal r
  dividend_eq : ofBytes a = ofBytes b * ofBytes q + ofBytes r
  isRemainder : IsRemainder (ofBytes r) (ofBytes b)

theorem isDivision_floor (a : Bytes) (hb : ofBytes b ≠ 0) :
    IsDivision a b (toBytes ((ofBytes a).fdiv (ofBytes b)))
      (toBytes ((ofBytes a).fmod (ofBytes b))) where
  quotient_minimal := isMinimal_toBytes _
  remainder_minimal := isMinimal_toBytes _
  dividend_eq := by
    rw [ofBytes_toBytes, ofBytes_toBytes, Int.mul_fdiv_add_fmod]
  isRemainder := by
    rw [ofBytes_toBytes]
    exact isRemainder_fmod _ hb

theorem IsDivision.unique {q q' r r' : Bytes} (h : IsDivision a b q r)
    (h' : IsDivision a b q' r') : q' = q ∧ r' = r := by
  have heq := h'.dividend_eq.symm.trans h.dividend_eq
  have hvalues := h'.isRemainder.unique h.isRemainder heq
  have hq : q' = q := by
    rw [h'.quotient_minimal.eq_toBytes, h.quotient_minimal.eq_toBytes, hvalues.1]
  have hr : r' = r := by
    rw [h'.remainder_minimal.eq_toBytes, h.remainder_minimal.eq_toBytes, hvalues.2]
  exact ⟨hq, hr⟩

theorem divide_of_atoms (hargs : args.items = [.atom a, .atom b]) :
    divide args =
      if ofBytes b = 0 then .error (.divisionByZero .quotient (.atom (toBytes (ofBytes a))))
      else .ok (.newInteger (Price.divide.plain 0 (a.length + b.length))
        ((ofBytes a).fdiv (ofBytes b))) := by
  rw [divide, Arguments.twoOperands_of_atoms hargs]
  rfl

theorem divmod_of_atoms (hargs : args.items = [.atom a, .atom b]) :
    ∃ cost, divmod args =
      if ofBytes b = 0 then
        .error (.divisionByZero .quotientRemainder (.atom (toBytes (ofBytes a))))
      else .ok ⟨cost, .pair (.atom (toBytes ((ofBytes a).fdiv (ofBytes b))))
        (.atom (toBytes ((ofBytes a).fmod (ofBytes b))))⟩ := by
  rw [divmod, Arguments.twoOperands_of_atoms hargs]
  exact ⟨_, rfl⟩

/-- Division by zero is an error about the dividend. Any other division gives
the one quotient and the one remainder there are. -/
theorem division_gives_floor_quotient (hargs : args.items = [.atom a, .atom b]) :
    (divide args = .error (.divisionByZero .quotient (.atom (toBytes (ofBytes a)))) ↔
      ofBytes b = 0) ∧
    (divmod args = .error (.divisionByZero .quotientRemainder (.atom (toBytes (ofBytes a)))) ↔
      ofBytes b = 0) ∧
    (ofBytes b ≠ 0 → ∃ q r cost cost',
      divmod args = .ok ⟨cost, .pair (.atom q) (.atom r)⟩ ∧
      divide args = .ok ⟨cost', .atom q⟩ ∧
      IsDivision a b q r ∧ ∀ q' r', IsDivision a b q' r' → q' = q ∧ r' = r) := by
  have hdivide := divide_of_atoms hargs
  obtain ⟨cost, hdivmod⟩ := divmod_of_atoms hargs
  refine ⟨by simp [hdivide], by simp [hdivmod], ?_⟩
  intro hb
  rw [if_neg hb] at hdivide hdivmod
  have hfloor := isDivision_floor a hb
  exact ⟨_, _, cost, _, hdivmod, hdivide, hfloor, fun _ _ h => hfloor.unique h⟩

/-- Eight by minus five, with a byte of padding: the quotient goes down to minus
two, and the remainder is negative. -/
theorem division_gives_floor_quotient_negative :
    let args := Node.ofList [.atom [0x00, 0x08], .atom [0xfb]]
    ofBytes [0xfb] = -5 ∧
    divide args = .ok ⟨1010, .atom [0xfe]⟩ ∧
    divmod args = .ok ⟨1154, .pair (.atom [0xfe]) (.atom [0xfe])⟩ ∧
    ∀ q r, IsDivision [0x00, 0x08] [0xfb] q r → q = [0xfe] ∧ r = [0xfe] := by
  intro args
  have hargs : args.items = [.atom [0x00, 0x08], .atom [0xfb]] := rfl
  have hvalue : ofBytes [0xfb] = -5 := by decide +kernel
  have hdivide : divide args = .ok ⟨1010, .atom [0xfe]⟩ := by decide +kernel
  have hdivmod : divmod args = .ok ⟨1154, .pair (.atom [0xfe]) (.atom [0xfe])⟩ := by
    decide +kernel
  obtain ⟨-, -, hlaws⟩ := division_gives_floor_quotient hargs
  obtain ⟨q, r, cost, cost', hq, -, -, hunique⟩ := hlaws (by rw [hvalue]; decide)
  have hpair := hq.symm.trans hdivmod
  simp only [Except.ok.injEq, Reduction.mk.injEq, Node.pair.injEq, Node.atom.injEq] at hpair
  obtain ⟨-, rfl, rfl⟩ := hpair
  exact ⟨hvalue, hdivide, hdivmod, hunique⟩

end Operator

end MeteredTree
